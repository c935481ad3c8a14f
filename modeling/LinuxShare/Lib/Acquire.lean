-- SUMMARY: Acquisitions that may fail: what lists of acquisitions and of releases do to what is held.
import Mathlib.Logic.Function.Basic
import Mathlib.Tactic.Common

/-!
# Acquisitions that may fail

A program acquires one resource of a kind at a time and keeps its handle in a variable.
Releasing a handle that has not been acquired is wrong, unless the function that releases
this kind ignores it. Lists without repetitions act on each of their kinds once.
-/

namespace Acquire

variable {K : Type*} [DecidableEq K]

inductive Op (K : Type*) where
  | acquire (k : K)
  | release (k : K)

/-- `valid` says which variables hold a handle that has been acquired and not been released,
and `wrong` counts the releases of others. -/
structure Account (K : Type*) where
  held : K → Nat
  valid : K → Bool
  wrong : Nat

/-- Which acquisitions succeed, and which releases ignore the handle of one that has failed. -/
structure Env (K : Type*) where
  succeeds : K → Bool
  ignores : K → Bool

def exec (env : Env K) (a : Account K) : Op K → Account K
  | .acquire k =>
    { a with
      held := Function.update a.held k (a.held k + (env.succeeds k).toNat)
      valid := Function.update a.valid k (env.succeeds k) }
  | .release k =>
    if a.valid k then
      { a with
        held := Function.update a.held k (a.held k - 1)
        valid := Function.update a.valid k false }
    else
      { a with wrong := a.wrong + (!env.ignores k).toNat }

def acquireAll (env : Env K) (ks : List K) (a : Account K) : Account K :=
  ks.foldl (fun a k => exec env a (.acquire k)) a

def releaseAll (env : Env K) (ks : List K) (a : Account K) : Account K :=
  ks.foldl (fun a k => exec env a (.release k)) a

variable {env : Env K} {a : Account K} {k : K} {ks : List K}

theorem releaseAll_cons :
    releaseAll env (k :: ks) a = releaseAll env ks (exec env a (.release k)) := rfl

theorem acquireAll_append (ks ks' : List K) (a : Account K) :
    acquireAll env (ks ++ ks') a = acquireAll env ks' (acquireAll env ks a) := List.foldl_append

/-! ## Kinds that are not touched -/

theorem exec_of_ne (env : Env K) (a : Account K) {o : Op K} (h : o = .acquire k ∨ o = .release k)
    {k' : K} (hne : k' ≠ k) :
    (exec env a o).held k' = a.held k' ∧ (exec env a o).valid k' = a.valid k' := by
  rcases h with rfl | rfl
  · exact ⟨Function.update_of_ne hne _ _, Function.update_of_ne hne _ _⟩
  · rw [exec]
    split
    · exact ⟨Function.update_of_ne hne _ _, Function.update_of_ne hne _ _⟩
    · exact ⟨rfl, rfl⟩

/-- One operation on each kind of a list. -/
theorem foldl_exec_of_notMem (env : Env K) {o : K → Op K}
    (ho : ∀ k, o k = .acquire k ∨ o k = .release k) (h : k ∉ ks) (a : Account K) :
    (ks.foldl (fun a k => exec env a (o k)) a).held k = a.held k ∧
      (ks.foldl (fun a k => exec env a (o k)) a).valid k = a.valid k := by
  induction ks generalizing a with
  | nil => exact ⟨rfl, rfl⟩
  | cons k' ks ih =>
      obtain ⟨hne, hnot⟩ := not_or.mp (mt List.mem_cons.mpr h)
      obtain ⟨hheld, hvalid⟩ := ih hnot (exec env a (o k'))
      obtain ⟨hheld', hvalid'⟩ := exec_of_ne env a (ho k') hne
      exact ⟨hheld.trans hheld', hvalid.trans hvalid'⟩

theorem acquireAll_of_notMem (env : Env K) (h : k ∉ ks) (a : Account K) :
    (acquireAll env ks a).held k = a.held k ∧ (acquireAll env ks a).valid k = a.valid k :=
  foldl_exec_of_notMem env (fun _ => .inl rfl) h a

theorem releaseAll_of_notMem (h : k ∉ ks) (a : Account K) :
    (releaseAll env ks a).held k = a.held k ∧ (releaseAll env ks a).valid k = a.valid k :=
  foldl_exec_of_notMem env (fun _ => .inr rfl) h a

/-! ## Kinds that are -/

theorem acquireAll_of_mem (env : Env K) (hnodup : ks.Nodup) (h : k ∈ ks) (a : Account K) :
    (acquireAll env ks a).held k = a.held k + (env.succeeds k).toNat ∧
      (acquireAll env ks a).valid k = env.succeeds k := by
  induction ks generalizing a with
  | nil => cases h
  | cons k' ks ih =>
      obtain ⟨hnot, hnodup⟩ := List.nodup_cons.mp hnodup
      rcases List.mem_cons.mp h with rfl | hmem
      · obtain ⟨hheld, hvalid⟩ := acquireAll_of_notMem env hnot (exec env a (.acquire k))
        exact ⟨hheld.trans (Function.update_self k _ _), hvalid.trans (Function.update_self k _ _)⟩
      · have hne : k ≠ k' := fun heq => hnot (heq ▸ hmem)
        obtain ⟨hheld, hvalid⟩ := ih hnodup hmem (exec env a (.acquire k'))
        exact ⟨hheld.trans (congrArg (· + _) (exec_of_ne env a (.inl rfl) hne).1), hvalid⟩

theorem releaseAll_of_mem (hnodup : ks.Nodup) (h : k ∈ ks) (a : Account K) :
    (releaseAll env ks a).held k = a.held k - (a.valid k).toNat := by
  induction ks generalizing a with
  | nil => cases h
  | cons k' ks ih =>
      obtain ⟨hnot, hnodup⟩ := List.nodup_cons.mp hnodup
      rcases List.mem_cons.mp h with rfl | hmem
      · rw [releaseAll_cons, (releaseAll_of_notMem hnot _).1, exec]
        split
        next hvalid =>
          rw [hvalid]
          exact Function.update_self k _ _
        next hvalid => rw [Bool.eq_false_iff.mpr hvalid, Bool.toNat_false, Nat.sub_zero]
      · have hne : k ≠ k' := fun heq => hnot (heq ▸ hmem)
        obtain ⟨hheld, hvalid⟩ := exec_of_ne env a (.inr rfl) hne
        rw [releaseAll_cons, ih hnodup hmem, hheld, hvalid]

theorem acquireAll_wrong (env : Env K) (ks : List K) (a : Account K) :
    (acquireAll env ks a).wrong = a.wrong := by
  induction ks generalizing a with
  | nil => rfl
  | cons k ks ih => exact ih (exec env a (.acquire k))

theorem exec_release_wrong (a : Account K) (k : K) :
    (exec env a (.release k)).wrong = a.wrong + (!a.valid k && !env.ignores k).toNat := by
  rw [exec]
  split
  next hvalid => rw [hvalid, Bool.not_true, Bool.false_and, Bool.toNat_false, Nat.add_zero]
  next hvalid => rw [Bool.eq_false_iff.mpr hvalid, Bool.not_false, Bool.true_and]

/-- Wrong releases are those of invalid handles that are not ignored. -/
theorem releaseAll_wrong (hnodup : ks.Nodup) (a : Account K) :
    (releaseAll env ks a).wrong = a.wrong + ks.countP fun k => !a.valid k && !env.ignores k := by
  induction ks generalizing a with
  | nil => rfl
  | cons k ks ih =>
      obtain ⟨hnot, hnodup⟩ := List.nodup_cons.mp hnodup
      have hrest : (ks.countP fun k' => !(exec env a (.release k)).valid k' && !env.ignores k') =
          ks.countP fun k' => !a.valid k' && !env.ignores k' :=
        List.countP_congr fun k' hk' => by
          have hne : k' ≠ k := fun heq => hnot (heq ▸ hk')
          rw [(exec_of_ne env a (.inr rfl) hne).2]
      have hone : ∀ b : Bool, b.toNat = if b then 1 else 0 := by
        intro b
        cases b <;> rfl
      rw [releaseAll_cons, ih hnodup, exec_release_wrong, hrest, List.countP_cons, Nat.add_assoc,
        Nat.add_comm (Bool.toNat _), hone]

theorem releaseAll_wrong_eq_iff (hnodup : ks.Nodup) (a : Account K) :
    (releaseAll env ks a).wrong = a.wrong ↔ ∀ k ∈ ks, a.valid k = true ∨ env.ignores k = true := by
  rw [releaseAll_wrong hnodup, Nat.add_eq_left, List.countP_eq_zero]
  simp only [Bool.and_eq_true, Bool.not_eq_true', not_and, Bool.not_eq_false, or_iff_not_imp_left,
    Bool.not_eq_true]

/-! ## Acquired and released -/

variable {js : List K}

/-- What is released again, or has failed, is held as before. -/
theorem held_of_released (hjs : js.Nodup) (hks : ks.Nodup) (hsub : k ∈ ks → k ∈ js)
    (hfailed : k ∈ js → k ∉ ks → env.succeeds k = false) (a : Account K) :
    (releaseAll env ks (acquireAll env js a)).held k = a.held k := by
  by_cases hk : k ∈ ks
  · obtain ⟨hheld, hvalid⟩ := acquireAll_of_mem env hjs (hsub hk) a
    rw [releaseAll_of_mem hks hk, hheld, hvalid, Nat.add_sub_cancel]
  · rw [(releaseAll_of_notMem hk _).1]
    by_cases hj : k ∈ js
    · rw [(acquireAll_of_mem env hjs hj a).1, hfailed hj hk, Bool.toNat_false, Nat.add_zero]
    · exact (acquireAll_of_notMem env hj a).1

/-- What is not released stays held. -/
theorem held_of_not_released (hjs : js.Nodup) (hj : k ∈ js) (hk : k ∉ ks) (a : Account K) :
    (releaseAll env ks (acquireAll env js a)).held k = a.held k + (env.succeeds k).toNat :=
  (releaseAll_of_notMem hk _).1.trans (acquireAll_of_mem env hjs hj a).1

theorem wrong_of_released_iff (hjs : js.Nodup) (hks : ks.Nodup) (hsub : ∀ k ∈ ks, k ∈ js)
    (a : Account K) : (releaseAll env ks (acquireAll env js a)).wrong = a.wrong ↔
      ∀ k ∈ ks, env.succeeds k = true ∨ env.ignores k = true := by
  rw [← acquireAll_wrong env js a, releaseAll_wrong_eq_iff hks]
  refine forall₂_congr fun k hk => ?_
  rw [(acquireAll_of_mem env hjs (hsub k hk) a).2]

end Acquire
