-- SUMMARY: Allocated blocks of memory: what may be accessed, and what freeing one leaves.
import Mathlib.Data.List.Pairwise
import Mathlib.Order.Basic
import Mathlib.Tactic.Common

/-!
# Allocated blocks

A store knows the blocks that are allocated, none of which overlaps another, and records
the bases that have been freed. An access has to lie in one of the blocks, and only the
base of one can be freed.
-/

namespace Blocks

structure Block where
  base : Nat
  size : Nat
  deriving DecidableEq

/-- The `n` bytes at `a` lie in the block. -/
def Block.Holds (s : Block) (a n : Nat) : Prop := s.base ≤ a ∧ a + n ≤ s.base + s.size

instance (s : Block) (a n : Nat) : Decidable (s.Holds a n) := inferInstanceAs (Decidable (_ ∧ _))

def Block.Apart (s t : Block) : Prop := s.base + s.size ≤ t.base ∨ t.base + t.size ≤ s.base

structure Store where
  blocks : List Block
  apart : blocks.Pairwise Block.Apart
  freed : List Nat

namespace Store

def Accessible (m : Store) (a n : Nat) : Prop := ∃ s ∈ m.blocks, s.Holds a n

instance (m : Store) (a n : Nat) : Decidable (m.Accessible a n) :=
  inferInstanceAs (Decidable (∃ s ∈ m.blocks, s.Holds a n))

def drop (m : Store) (p : Nat) : Store where
  blocks := m.blocks.filter fun s => s.base ≠ p
  apart := m.apart.filter _
  freed := m.freed ++ [p]

/-- Fails if no block begins at `p`. -/
def free (m : Store) (p : Nat) : Option Store :=
  if p ∈ m.blocks.map Block.base then some (m.drop p) else none

variable {m : Store} {s : Block} {p : Nat}

theorem mem_drop : s ∈ (m.drop p).blocks ↔ s ∈ m.blocks ∧ s.base ≠ p := by
  rw [drop, List.mem_filter, decide_eq_true_iff]

theorem free_of_mem (h : s ∈ m.blocks) (hp : s.base = p) : m.free p = some (m.drop p) :=
  if_pos (List.mem_map.mpr ⟨s, h, hp⟩)

end Store

end Blocks
