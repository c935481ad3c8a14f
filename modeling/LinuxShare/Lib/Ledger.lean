-- SUMMARY: Ledgers of acquired resources: what a cycle of acquisitions and releases costs.
import Mathlib.Algebra.Order.Group.Multiset
import Mathlib.Data.Multiset.AddSub
import Mathlib.Logic.Function.Iterate
import Mathlib.Tactic.Common

/-!
# Ledgers

A ledger says for every kind of resource which handles are held. A program acquires and
releases resources through its variables. A release with a handle that is not held is
counted as a wrong one. What one cycle of a program adds to the ledger decides what any
number of cycles adds.
-/

namespace Ledger

variable {K X : Type*}

/-- What a function of the environment is given: the value of a variable, the address of a
field of the object in a variable, a fixed handle, or a null pointer. -/
inductive Arg (X : Type*) where
  | var (x : X)
  | field (x : X)
  | number (n : Nat)
  | null

/-- `alloc` puts a new handle into a variable and `hold` acquires a resource under a handle
that is given; `claim` does so unless the handle is held already. -/
inductive Op (K X : Type*) where
  | alloc (k : K) (x : X)
  | hold (k : K) (a : Arg X)
  | claim (k : K) (x : X)
  | release (k : K) (a : Arg X)

structure Books (K X : Type*) where
  held : K → Multiset Nat
  vars : X → Nat
  wrong : Nat

/-- Acquisitions succeed, with handles that are not held. -/
structure Allocator where
  fresh : Multiset Nat → Nat
  fresh_notMem : ∀ l, fresh l ∉ l

attribute [simp] Allocator.fresh_notMem

/-- The handle in an argument; the address of a field is none. -/
@[simp] def Arg.handle (vars : X → Nat) : Arg X → Option Nat
  | .var x => some (vars x)
  | .number n => some n
  | .field _ | .null => none

variable [DecidableEq K] [DecidableEq X]

namespace Books

@[simp] def add (s : Books K X) (k : K) (h : Nat) : Books K X :=
  { s with held := Function.update s.held k (h ::ₘ s.held k) }

@[simp] def set (s : Books K X) (x : X) (h : Nat) : Books K X :=
  { s with vars := Function.update s.vars x h }

/-- A release with what may be no handle at all. -/
@[simp] def drop (s : Books K X) (k : K) : Option Nat → Books K X
  | none => { s with wrong := s.wrong + 1 }
  | some h =>
    if h ∈ s.held k then
      { s with held := Function.update s.held k ((s.held k).erase h) }
    else
      { s with wrong := s.wrong + 1 }

end Books

@[simp] def exec (A : Allocator) (s : Books K X) : Op K X → Books K X
  | .alloc k x => (s.add k (A.fresh (s.held k))).set x (A.fresh (s.held k))
  | .hold k a => ((a.handle s.vars).map (s.add k)).getD s
  | .claim k x => if s.vars x ∈ s.held k then s else s.add k (s.vars x)
  | .release _ .null => s
  | .release k a => s.drop k (a.handle s.vars)

def run (A : Allocator) (p : List (Op K X)) (s : Books K X) : Books K X := p.foldl (exec A) s

@[simp] theorem run_nil (A : Allocator) (s : Books K X) : run A [] s = s := rfl

@[simp] theorem run_cons (A : Allocator) (o : Op K X) (p : List (Op K X)) (s : Books K X) :
    run A (o :: p) s = run A p (exec A s o) := rfl

def Op.kind : Op K X → K
  | .alloc k _ => k
  | .hold k _ => k
  | .claim k _ => k
  | .release k _ => k

/-- After each of `n` cycles the ledger is what it was before the first, and no release
has been wrong. -/
def Balanced (A : Allocator) (p : List (Op K X)) (s : Books K X) (n : Nat) : Prop :=
  ∀ m ≤ n, ((run A p)^[m] s).held = s.held ∧ ((run A p)^[m] s).wrong = s.wrong

/-- A cycle always leaves `leak k` resources of kind `k` behind, touches nothing else that is
held, and makes `wrong` wrong releases. -/
structure Cost (A : Allocator) (p : List (Op K X)) (leak : K → Nat) (wrong : Nat) : Prop where
  held : ∀ s k, ∃ t, (run A p s).held k = t + s.held k ∧ t.card = leak k
  wrong : ∀ s, (run A p s).wrong = s.wrong + wrong

/-- One more handle is a leak of one. -/
@[simp] theorem exists_leak_cons (h : Nat) (l : Multiset Nat) :
    ∃ t, h ::ₘ l = t + l ∧ t.card = 1 := ⟨{h}, (Multiset.singleton_add h l).symm, Multiset.card_singleton h⟩

variable {A : Allocator} {p : List (Op K X)} {s : Books K X} {leak : K → Nat} {wrong n : Nat}

omit [DecidableEq X] in
theorem drop_held_of_ne {k k' : K} (h : k ≠ k') (s : Books K X) (a : Option Nat) :
    (s.drop k' a).held k = s.held k := by
  cases a with
  | none => rfl
  | some n =>
      rw [Books.drop]
      split
      · exact Function.update_of_ne h _ _
      · rfl

/-- An operation on another kind. -/
theorem exec_held_of_ne {k : K} {o : Op K X} (h : k ≠ o.kind) (s : Books K X) :
    (exec A s o).held k = s.held k := by
  cases o with
  | alloc k' x => exact Function.update_of_ne h _ _
  | hold k' a =>
      cases ha : a.handle s.vars with
      | none =>
          rw [exec, ha]
          rfl
      | some n =>
          rw [exec, ha]
          exact Function.update_of_ne h _ _
  | claim k' x =>
      rw [exec]
      split
      · rfl
      · exact Function.update_of_ne h _ _
  | release k' a =>
      cases a with
      | null => rfl
      | var x => exact drop_held_of_ne h s (some (s.vars x))
      | number n => exact drop_held_of_ne h s (some n)
      | field x => exact drop_held_of_ne h s none

theorem run_held_of_notMem {k : K} (h : k ∉ p.map Op.kind) (s : Books K X) :
    (run A p s).held k = s.held k := by
  induction p generalizing s with
  | nil => rfl
  | cons o p ih =>
      rw [List.map_cons, List.mem_cons, not_or] at h
      rw [run_cons, ih h.2, exec_held_of_ne h.1]

/-- The cost of a program is that of the kinds it names. -/
theorem Cost.of_kinds (ks : List K) (hks : ∀ k ∉ ks, k ∉ p.map Op.kind ∧ leak k = 0)
    (hheld : ∀ s, ∀ k ∈ ks, ∃ t, (run A p s).held k = t + s.held k ∧ t.card = leak k)
    (hwrong : ∀ s, (run A p s).wrong = s.wrong + wrong) : Cost A p leak wrong := by
  refine ⟨fun s k => ?_, hwrong⟩
  by_cases hk : k ∈ ks
  · exact hheld s k hk
  · obtain ⟨hnot, hleak⟩ := hks k hk
    exact ⟨0, by rw [run_held_of_notMem hnot, Multiset.zero_add], hleak.symm⟩

/-- The cost of `n` cycles. -/
theorem Cost.iterate_held (h : Cost A p leak wrong) (s : Books K X) (n : Nat) (k : K) :
    ∃ t, ((run A p)^[n] s).held k = t + s.held k ∧ t.card = n * leak k := by
  induction n with
  | zero => exact ⟨0, by simp, by simp⟩
  | succ n ih =>
      obtain ⟨t, ht, hcard⟩ := ih
      obtain ⟨t', ht', hcard'⟩ := h.held ((run A p)^[n] s) k
      refine ⟨t' + t, ?_, ?_⟩
      · rw [Function.iterate_succ_apply', ht', ht, Multiset.add_assoc]
      · rw [Multiset.card_add, hcard, hcard', Nat.succ_mul, Nat.add_comm]

theorem Cost.iterate_wrong (h : Cost A p leak wrong) (s : Books K X) (n : Nat) :
    ((run A p)^[n] s).wrong = s.wrong + n * wrong := by
  induction n with
  | zero => simp
  | succ n ih => rw [Function.iterate_succ_apply', h.wrong, ih, Nat.succ_mul, Nat.add_assoc]

/-- Cycles balance just when they cost nothing. -/
theorem Cost.balanced_iff (h : Cost A p leak wrong) :
    Balanced A p s n ↔ n = 0 ∨ (∀ k, leak k = 0) ∧ wrong = 0 := by
  constructor
  · intro hbalanced
    by_cases hn : n = 0
    · exact .inl hn
    · obtain ⟨hheld, hwrong⟩ := hbalanced 1 (Nat.one_le_iff_ne_zero.mpr hn)
      refine .inr ⟨fun k => ?_, ?_⟩
      · obtain ⟨t, ht, hcard⟩ := h.iterate_held s 1 k
        rw [hheld] at ht
        have hempty : t = 0 := by simpa using ht
        rw [hempty, Multiset.card_zero, Nat.one_mul] at hcard
        exact hcard.symm
      · rw [h.iterate_wrong] at hwrong
        omega
  · rintro (rfl | ⟨hleak, rfl⟩) m hm
    · rw [Nat.le_zero.mp hm]
      exact ⟨rfl, rfl⟩
    · refine ⟨funext fun k => ?_, ?_⟩
      · obtain ⟨t, ht, hcard⟩ := h.iterate_held s m k
        rw [hleak, Nat.mul_zero, Multiset.card_eq_zero] at hcard
        rw [ht, hcard, Multiset.zero_add]
      · rw [h.iterate_wrong, Nat.mul_zero, Nat.add_zero]

end Ledger
