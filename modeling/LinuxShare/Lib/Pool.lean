-- SUMMARY: Threads over a shared state: what any interleaving keeps, what it conserves, what it passes on in order.
import LinuxShare.Lib.Machine
import Mathlib.Algebra.Order.BigOperators.Group.Finset
import Mathlib.Logic.Function.Basic

/-!
# Pools of threads

Every thread has a local state, and all of them share one more. An event is one step of
one thread, or one step of the environment, which has no local state. A step that cannot
be taken leaves the pool as it is, so that the runs are all interleavings of all lengths.
-/

namespace Pool

structure Config (ι S L : Type*) where
  shared : S
  locals : ι → L

variable {ι S L E F O : Type*} [DecidableEq ι]

/-- `act` is the step of a thread, with what it answers, and `env` the one of the
environment. -/
def step (act : ι → E → L → S → Option (L × S × List O)) (env : F → S → Option (S × List O)) :
    (ι × E) ⊕ F → Config ι S L → Config ι S L × List O
  | .inl (i, e), p =>
    match act i e (p.locals i) p.shared with
    | some (l, s, os) => (⟨s, Function.update p.locals i l⟩, os)
    | none => (p, [])
  | .inr f, p =>
    match env f p.shared with
    | some (s, os) => (⟨s, p.locals⟩, os)
    | none => (p, [])

variable {act : ι → E → L → S → Option (L × S × List O)} {env : F → S → Option (S × List O)}

theorem step_thread {i : ι} {e : E} {p : Config ι S L} {l : L} {s : S} {os : List O}
    (h : act i e (p.locals i) p.shared = some (l, s, os)) :
    step act env (.inl (i, e)) p = (⟨s, Function.update p.locals i l⟩, os) := by
  simp only [step, h]

theorem step_env {f : F} {p : Config ι S L} {s : S} {os : List O}
    (h : env f p.shared = some (s, os)) :
    step act env (.inr f) p = (⟨s, p.locals⟩, os) := by
  simp only [step, h]

variable (act env) in
/-- A step of the pool is one of a thread, one of the environment, or none. -/
theorem step_cases (ev : (ι × E) ⊕ F) (p : Config ι S L) :
    (∃ i e l s os, ev = .inl (i, e) ∧ act i e (p.locals i) p.shared = some (l, s, os) ∧
      step act env ev p = (⟨s, Function.update p.locals i l⟩, os)) ∨
    (∃ f s os, ev = .inr f ∧ env f p.shared = some (s, os) ∧
      step act env ev p = (⟨s, p.locals⟩, os)) ∨
    step act env ev p = (p, []) := by
  rcases ev with ⟨i, e⟩ | f
  · cases hact : act i e (p.locals i) p.shared with
    | none => exact .inr (.inr (by simp only [step, hact]))
    | some r => exact .inl ⟨i, e, r.1, r.2.1, r.2.2, rfl, hact, step_thread hact⟩
  · cases henv : env f p.shared with
    | none => exact .inr (.inr (by simp only [step, henv]))
    | some r => exact .inr (.inl ⟨f, r.1, r.2, rfl, henv, step_env henv⟩)

/-! ## Invariants -/

/-- Every thread's condition holds beside the one on the shared state. -/
structure Holds (I : S → Prop) (J : ι → L → S → Prop) (p : Config ι S L) : Prop where
  shared : I p.shared
  locals : ∀ i, J i (p.locals i) p.shared

/-- A thread's step keeps its own condition and does not interfere with the one of
another thread. `K` is known of the pool before. -/
theorem Holds.step {K : Config ι S L → Prop} {I : S → Prop} {J : ι → L → S → Prop}
    (hown : ∀ i e p l s os, K p → Holds I J p → act i e (p.locals i) p.shared = some (l, s, os) →
      I s ∧ J i l s)
    (hother : ∀ i e p l s os j, K p → Holds I J p → j ≠ i →
      act i e (p.locals i) p.shared = some (l, s, os) → J j (p.locals j) s)
    (henv : ∀ f p s os, K p → Holds I J p → env f p.shared = some (s, os) →
      I s ∧ ∀ j, J j (p.locals j) s)
    (ev : (ι × E) ⊕ F) {p : Config ι S L} (hK : K p) (h : Holds I J p) :
    Holds I J (Pool.step act env ev p).1 := by
  obtain ⟨i, e, l, s, os, -, hact, hstep⟩ | ⟨f, s, os, -, hs, hstep⟩ | hstep :=
    step_cases act env ev p
  · obtain ⟨hI, hJ⟩ := hown i e p l s os hK h hact
    rw [hstep]
    refine ⟨hI, fun j => ?_⟩
    by_cases hj : j = i
    · subst hj
      simpa only [Function.update_self] using hJ
    · simpa only [Function.update_of_ne hj] using hother i e p l s os j hK h hj hact
  · obtain ⟨hI, hJ⟩ := henv f p s os hK h hs
    rw [hstep]
    exact ⟨hI, hJ⟩
  · rwa [hstep]

/-- The conditions may speak of a ghost state, which no thread has and every step may change. -/
theorem Holds.step_ghost {G : Type*} {I : G → S → Prop} {J : G → ι → L → S → Prop}
    (hact : ∀ g i e p l s os, Holds (I g) (J g) p →
      act i e (p.locals i) p.shared = some (l, s, os) →
        ∃ g', I g' s ∧ J g' i l s ∧ ∀ j, j ≠ i → J g' j (p.locals j) s)
    (henv : ∀ g f p s os, Holds (I g) (J g) p → env f p.shared = some (s, os) →
      ∃ g', I g' s ∧ ∀ j, J g' j (p.locals j) s)
    (ev : (ι × E) ⊕ F) {p : Config ι S L} (h : ∃ g, Holds (I g) (J g) p) :
    ∃ g, Holds (I g) (J g) (Pool.step act env ev p).1 := by
  obtain ⟨g, h⟩ := h
  obtain ⟨i, e, l, s, os, -, hl, hstep⟩ | ⟨f, s, os, -, hs, hstep⟩ | hstep :=
    step_cases act env ev p
  · obtain ⟨g', hI, hown, hother⟩ := hact g i e p l s os h hl
    rw [hstep]
    refine ⟨g', hI, fun j => ?_⟩
    by_cases hj : j = i
    · subst hj
      simpa only [Function.update_self] using hown
    · simpa only [Function.update_of_ne hj] using hother j hj
  · obtain ⟨g', hI, hJ⟩ := henv g f p s os h hs
    rw [hstep]
    exact ⟨g', hI, hJ⟩
  · rw [hstep]
    exact ⟨g, h⟩

/-! ## Sums over the threads -/

section

variable [Fintype ι] {w : L → Nat} {a b : S → Nat} {p : Config ι S L}

/-- What the threads hold and `a` of the shared state are `b` of it together. -/
def Balanced (w : L → Nat) (a b : S → Nat) (p : Config ι S L) : Prop :=
  ∑ i, w (p.locals i) + a p.shared = b p.shared

omit [DecidableEq ι] in
theorem Balanced.le (h : Balanced w a b p) (i : ι) : w (p.locals i) + a p.shared ≤ b p.shared := by
  have hle := Finset.single_le_sum (f := fun j => w (p.locals j)) (fun _ _ => Nat.zero_le _)
    (Finset.mem_univ i)
  rw [← h]
  exact Nat.add_le_add_right hle _

omit [DecidableEq ι] in
theorem Balanced.le_shared (h : Balanced w a b p) : a p.shared ≤ b p.shared :=
  (Nat.le_add_left _ _).trans_eq h

omit [DecidableEq ι] in
/-- Two threads hold no more than there is. -/
theorem Balanced.add_le (h : Balanced w a b p) {i j : ι} (hij : i ≠ j) :
    w (p.locals i) + w (p.locals j) + a p.shared ≤ b p.shared := by
  have hle := Finset.add_le_sum (f := fun k => w (p.locals k)) (fun _ _ => Nat.zero_le _)
    (Finset.mem_univ i) (Finset.mem_univ j) hij
  rw [← h]
  exact Nat.add_le_add_right hle _

omit [DecidableEq ι] in
/-- What the shared state lacks, some thread holds. -/
theorem Balanced.exists_pos (h : Balanced w a b p) (hlt : a p.shared < b p.shared) :
    ∃ i, 0 < w (p.locals i) := by
  have hpos : 0 < ∑ i, w (p.locals i) := by
    rw [Balanced] at h
    omega
  obtain ⟨i, -, hi⟩ := Finset.exists_ne_zero_of_sum_ne_zero hpos.ne'
  exact ⟨i, Nat.pos_of_ne_zero hi⟩

/-- The balance is kept by steps that only move something between a thread and the shared
state, or change both sides alike. -/
theorem Balanced.step {K : Config ι S L → Prop}
    (hact : ∀ i e p l s os, K p → Balanced w a b p →
      act i e (p.locals i) p.shared = some (l, s, os) →
      w l + a s + b p.shared = w (p.locals i) + a p.shared + b s)
    (henv : ∀ f p s os, K p → Balanced w a b p → env f p.shared = some (s, os) →
      a s + b p.shared = a p.shared + b s)
    (ev : (ι × E) ⊕ F) (hK : K p) (h : Balanced w a b p) :
    Balanced w a b (Pool.step act env ev p).1 := by
  obtain ⟨i, e, l, s, os, -, hl, hstep⟩ | ⟨f, s, os, -, hs, hstep⟩ | hstep :=
    step_cases act env ev p
  · have hmove := hact i e p l s os hK h hl
    have hnew := Finset.sum_erase_add Finset.univ
      (fun j => w (Function.update p.locals i l j)) (Finset.mem_univ i)
    have hold := Finset.sum_erase_add Finset.univ (fun j => w (p.locals j)) (Finset.mem_univ i)
    have hrest : ∑ j ∈ Finset.univ.erase i, w (Function.update p.locals i l j) =
        ∑ j ∈ Finset.univ.erase i, w (p.locals j) :=
      Finset.sum_congr rfl fun j hj => by rw [Function.update_of_ne (Finset.ne_of_mem_erase hj)]
    simp only [Function.update_self] at hnew
    rw [hstep]
    simp only [Balanced] at h ⊢
    omega
  · have hmove := henv f p s os hK h hs
    rw [hstep]
    simp only [Balanced] at h ⊢
    omega
  · rwa [hstep]

end

end Pool
