-- SUMMARY: Programs that poll one input line: what they need of the samples to return.
import Mathlib.Data.List.Basic
import Mathlib.Data.Nat.Find
import Mathlib.Order.Basic
import Mathlib.Tactic.Common

/-!
# Programs that poll a line

A `Poll α` samples a line that is high or low, waits in loops that do nothing else while the
line keeps a level, passes time, and returns an `α`. Here it is given an endless sequence of
samples, one for each time that it looks; whether it returns depends on the sequence.
-/

namespace Polling

universe u

/-- A program that polls a line. -/
inductive Poll (α : Type u) : Type u where
  | ret (a : α)
  | sample (k : Bool → Poll α)
  | waitWhile (level : Bool) (k : Poll α)
  | delay (us : Nat) (k : Poll α)

namespace Poll

variable {α β : Type u}

def bind : Poll α → (α → Poll β) → Poll β
  | ret a, f => f a
  | sample k, f => sample fun b => (k b).bind f
  | waitWhile level k, f => waitWhile level (k.bind f)
  | delay us k, f => delay us (k.bind f)

instance : Monad Poll where
  pure := ret
  bind := bind

@[simp] theorem pure_eq (a : α) : (pure a : Poll α) = ret a := rfl

@[simp] theorem bind_eq (p : Poll α) (f : α → Poll β) : p >>= f = p.bind f := rfl

@[simp] theorem ret_bind (a : α) (f : α → Poll β) : (ret a).bind f = f a := rfl

@[simp] theorem sample_bind (k : Bool → Poll α) (f : α → Poll β) :
    (sample k).bind f = sample fun b => (k b).bind f := rfl

@[simp] theorem waitWhile_bind (level : Bool) (k : Poll α) (f : α → Poll β) :
    (waitWhile level k).bind f = waitWhile level (k.bind f) := rfl

@[simp] theorem delay_bind (us : Nat) (k : Poll α) (f : α → Poll β) :
    (delay us k).bind f = delay us (k.bind f) := rfl

/-- `for (i = 0; i < n; i++) acc = f(i, acc);` -/
def loop (f : Nat → β → Poll β) (acc : β) : Nat → Poll β
  | 0 => ret acc
  | n + 1 => (loop f acc n).bind (f n)

/-! ## Samples -/

/-- The program after it has been given one sample. A program that has returned takes none. -/
def feed (b : Bool) : Poll α → Poll α
  | ret a => ret a
  | sample k => k b
  | waitWhile level k => if b = level then waitWhile level k else k
  | delay _ k => feed b k

/-- What the program returns without another sample. -/
def result : Poll α → Option α
  | ret a => some a
  | sample _ => none
  | waitWhile _ _ => none
  | delay _ k => result k

/-- The rest of a sequence of samples. -/
def rest (n : Nat) (s : Nat → Bool) : Nat → Bool := fun i => s (n + i)

/-- The program after `n` samples. -/
def after (p : Poll α) (s : Nat → Bool) : Nat → Poll α
  | 0 => p
  | n + 1 => after (p.feed (s 0)) (rest 1 s) n

/-- The program returns `a` after finitely many samples. -/
def Returns (p : Poll α) (s : Nat → Bool) (a : α) : Prop := ∃ n, (p.after s n).result = some a

variable {s : Nat → Bool} {a : α} {k : Poll α} {level : Bool}

theorem rest_rest (m n : Nat) (s : Nat → Bool) : rest m (rest n s) = rest (n + m) s := by
  funext i
  simp only [rest, Nat.add_assoc]

@[simp] theorem after_ret (a : α) (s : Nat → Bool) (n : Nat) : (ret a).after s n = ret a := by
  induction n generalizing s with
  | zero => rfl
  | succ n ih => exact ih (rest 1 s)

@[simp] theorem returns_ret {b : α} : (ret b).Returns s a ↔ b = a := by
  simp [Returns, result]

@[simp] theorem returns_delay {us : Nat} : (delay us k).Returns s a ↔ k.Returns s a := by
  refine exists_congr fun n => ?_
  cases n with
  | zero => rfl
  | succ n => rfl

/-- A program that needs a sample takes the first one. -/
theorem returns_iff_feed {p : Poll α} (h : p.result = none) :
    p.Returns s a ↔ (p.feed (s 0)).Returns (rest 1 s) a := by
  constructor
  · rintro ⟨n, hn⟩
    cases n with
    | zero =>
        rw [after, h] at hn
        cases hn
    | succ n => exact ⟨n, hn⟩
  · rintro ⟨n, hn⟩
    exact ⟨n + 1, hn⟩

@[simp] theorem returns_sample {k : Bool → Poll α} :
    (sample k).Returns s a ↔ (k (s 0)).Returns (rest 1 s) a :=
  returns_iff_feed rfl

theorem returns_waitWhile_of_eq (h : s 0 = level) :
    (waitWhile level k).Returns s a ↔ (waitWhile level k).Returns (rest 1 s) a := by
  rw [returns_iff_feed rfl, feed, if_pos h]

theorem returns_waitWhile_of_ne (h : s 0 ≠ level) :
    (waitWhile level k).Returns s a ↔ k.Returns (rest 1 s) a := by
  rw [returns_iff_feed rfl, feed, if_neg h]

/-- The loop ends with the first sample of the other level. -/
theorem returns_waitWhile : (waitWhile level k).Returns s a ↔
    ∃ n, (∀ m < n, s m = level) ∧ s n ≠ level ∧ k.Returns (rest (n + 1) s) a := by
  constructor
  · rintro ⟨n, hn⟩
    induction n generalizing s with
    | zero => cases hn
    | succ n ih =>
        by_cases h : s 0 = level
        · have hfeed : feed (s 0) (waitWhile level k) = waitWhile level k := if_pos h
          rw [after, hfeed] at hn
          obtain ⟨m, hbefore, hne, hret⟩ := ih hn
          refine ⟨m + 1, fun i hi => ?_, ?_, ?_⟩
          · cases i with
            | zero => exact h
            | succ i =>
                have hi' := hbefore i (by omega)
                rwa [rest, Nat.add_comm] at hi'
          · rwa [rest, Nat.add_comm] at hne
          · rwa [rest_rest, Nat.add_comm 1] at hret
        · exact ⟨0, fun i hi => absurd hi (Nat.not_lt_zero i), h,
            (returns_waitWhile_of_ne h).mp ⟨n + 1, hn⟩⟩
  · rintro ⟨n, hbefore, hne, hret⟩
    induction n generalizing s with
    | zero => exact (returns_waitWhile_of_ne hne).mpr hret
    | succ n ih =>
        refine (returns_waitWhile_of_eq (hbefore 0 (Nat.succ_pos n))).mpr (ih (fun m hm => ?_) ?_ ?_)
        · rw [rest, Nat.add_comm]
          exact hbefore (m + 1) (by omega)
        · rwa [rest, Nat.add_comm]
        · rwa [rest_rest, Nat.add_comm 1]

/-! ## What the samples must look like -/

/-- One look, of any outcome, or looking until the line has a level. -/
inductive Piece where
  | one
  | reach (level : Bool)
  deriving DecidableEq

/-- The pieces occur in the samples one after the other. -/
def Occur : List Piece → (Nat → Bool) → Prop
  | [], _ => True
  | .one :: ps, s => Occur ps (rest 1 s)
  | .reach level :: ps, s => ∃ n, s n = level ∧ Occur ps (rest (n + 1) s)

/-- The looks of a program, where they do not depend on what has been seen. -/
inductive Shaped : Poll α → List Piece → Prop
  | ret (a : α) : Shaped (ret a) []
  | sample {k : Bool → Poll α} {ps : List Piece} (hk : ∀ b, Shaped (k b) ps) :
      Shaped (sample k) (.one :: ps)
  | waitWhile {k : Poll α} {ps : List Piece} (level : Bool) (hk : Shaped k ps) :
      Shaped (waitWhile level k) (.reach (!level) :: ps)
  | delay {k : Poll α} {ps : List Piece} (us : Nat) (hk : Shaped k ps) : Shaped (delay us k) ps

variable {ps qs : List Piece} {p : Poll α} {f : α → Poll β}

theorem Shaped.bind (hp : Shaped p ps) (hf : ∀ a, Shaped (f a) qs) : Shaped (p.bind f) (ps ++ qs) := by
  induction hp with
  | ret a => exact hf a
  | sample _ ih => exact .sample ih
  | waitWhile level _ ih => exact .waitWhile level ih
  | delay us _ ih => exact .delay us ih

theorem Shaped.loop {f : Nat → β → Poll β} {piece : Nat → List Piece}
    (hf : ∀ i acc, Shaped (f i acc) (piece i)) (acc : β) (n : Nat) :
    Shaped (loop f acc n) ((List.range n).flatMap piece) := by
  induction n with
  | zero => exact .ret acc
  | succ n ih =>
      have hflat : (List.range (n + 1)).flatMap piece = (List.range n).flatMap piece ++ piece n := by
        simp [List.range_succ]
      rw [hflat]
      exact ih.bind fun acc => hf n acc

/-- Whoever has waited in vain has lost nothing: the pieces also occur from earlier on. -/
theorem Occur.of_rest {n : Nat} (h : Occur ps (rest n s)) : Occur ps s := by
  induction ps generalizing s n with
  | nil => trivial
  | cons piece ps ih =>
      cases piece with
      | one =>
          rw [Occur, rest_rest, Nat.add_comm, ← rest_rest] at h
          exact ih h
      | reach level =>
          obtain ⟨m, hm, h⟩ := h
          exact ⟨n + m, hm, by rwa [rest_rest] at h⟩

/-- The first sample of the level is as good as any. -/
theorem occur_reach : Occur (.reach (!level) :: ps) s ↔
    ∃ n, (∀ m < n, s m = level) ∧ s n ≠ level ∧ Occur ps (rest (n + 1) s) := by
  constructor
  · intro h
    have hex : ∃ n, s n ≠ level := by
      obtain ⟨n, hn, _⟩ := h
      exact ⟨n, by simp [hn]⟩
    obtain ⟨n, hn, h⟩ := h
    classical
    refine ⟨Nat.find hex, fun m hm => not_not.mp (Nat.find_min hex hm), Nat.find_spec hex, ?_⟩
    have hle : Nat.find hex ≤ n := Nat.find_min' hex (by simp [hn])
    refine Occur.of_rest (n := n - Nat.find hex) ?_
    have hsum : Nat.find hex + 1 + (n - Nat.find hex) = n + 1 := by omega
    rwa [rest_rest, hsum]
  · rintro ⟨n, _, hne, h⟩
    exact ⟨n, Bool.eq_not_of_ne hne, h⟩

/-- A program of that shape returns just when its looks are in the samples. -/
theorem Shaped.returns_iff (h : Shaped p ps) : (∃ a, p.Returns s a) ↔ Occur ps s := by
  induction h generalizing s with
  | ret a => exact iff_of_true ⟨a, returns_ret.mpr rfl⟩ trivial
  | sample _ ih =>
      simp only [returns_sample]
      exact ih (s 0)
  | waitWhile level _ ih =>
      rw [occur_reach]
      simp only [returns_waitWhile]
      constructor
      · rintro ⟨a, n, hbefore, hne, hret⟩
        exact ⟨n, hbefore, hne, ih.mp ⟨a, hret⟩⟩
      · rintro ⟨n, hbefore, hne, hoccur⟩
        obtain ⟨a, hret⟩ := ih.mpr hoccur
        exact ⟨a, n, hbefore, hne, hret⟩
  | delay us _ ih =>
      simp only [returns_delay]
      exact ih

/-! ## What it may return -/

/-- Whatever the samples are, the program returns nothing else than `Q` allows. -/
inductive Yields (Q : α → Prop) : Poll α → Prop
  | ret {a : α} (ha : Q a) : Yields Q (ret a)
  | sample {k : Bool → Poll α} (hk : ∀ b, Yields Q (k b)) : Yields Q (sample k)
  | waitWhile {k : Poll α} (level : Bool) (hk : Yields Q k) : Yields Q (waitWhile level k)
  | delay {k : Poll α} (us : Nat) (hk : Yields Q k) : Yields Q (delay us k)

theorem Yields.of_returns {Q : α → Prop} (h : Yields Q p) (hret : p.Returns s a) : Q a := by
  induction h generalizing s with
  | ret ha => exact returns_ret.mp hret ▸ ha
  | sample _ ih => exact ih _ (returns_sample.mp hret)
  | waitWhile level _ ih =>
      obtain ⟨n, _, _, hret⟩ := returns_waitWhile.mp hret
      exact ih hret
  | delay us _ ih => exact ih (returns_delay.mp hret)

theorem yields_true (p : Poll α) : Yields (fun _ => True) p := by
  induction p with
  | ret a => exact .ret trivial
  | sample k ih => exact .sample ih
  | waitWhile level k ih => exact .waitWhile level ih
  | delay us k ih => exact .delay us ih

theorem Yields.bind {Q : α → Prop} {R : β → Prop} (hp : Yields Q p) (hf : ∀ a, Q a → Yields R (f a)) :
    Yields R (p.bind f) := by
  induction hp with
  | ret ha => exact hf _ ha
  | sample _ ih => exact .sample ih
  | waitWhile level _ ih => exact .waitWhile level ih
  | delay us _ ih => exact .delay us ih

/-- The rule for a loop with an invariant. -/
theorem Yields.loop {f : Nat → β → Poll β} {I : Nat → β → Prop} {acc : β} (hinit : I 0 acc)
    (hstep : ∀ i acc, I i acc → Yields (I (i + 1)) (f i acc)) (n : Nat) :
    Yields (I n) (loop f acc n) := by
  induction n with
  | zero => exact .ret hinit
  | succ n ih => exact ih.bind (hstep n)

end Poll

end Polling
