-- SUMMARY: Values packed into disjoint bit fields of one number, and read back.
import Mathlib.Data.Nat.Bitwise
import Mathlib.Tactic.Common

/-!
# Bit fields

A piece is a value together with the bits that it is to occupy, and it fits into them.
Pieces whose bits are disjoint are packed by shifting and `|||`; every field of the
result is then the value of its piece, and the bits of no piece are zero.
-/

namespace BitField

structure Piece where
  offset : Nat
  length : Nat
  value : Nat
  fits : value < 2 ^ length

/-- Bit `i` belongs to the piece. -/
def Piece.Covers (p : Piece) (i : Nat) : Prop := p.offset ≤ i ∧ i < p.offset + p.length

instance (p : Piece) (i : Nat) : Decidable (p.Covers i) := inferInstanceAs (Decidable (_ ∧ _))

def Piece.Disjoint (p q : Piece) : Prop := ∀ i, p.Covers i → ¬ q.Covers i

def Piece.placed (p : Piece) : Nat := p.value <<< p.offset

def pack (ps : List Piece) : Nat := ps.foldr (fun p n => p.placed ||| n) 0

/-- The field of `length` bits from bit `offset` on. -/
def extract (n offset length : Nat) : Nat := n / 2 ^ offset % 2 ^ length

theorem Piece.Disjoint.symm {p q : Piece} (h : p.Disjoint q) : q.Disjoint p :=
  fun i hq hp => h i hp hq

variable {p : Piece} {ps : List Piece} {i : Nat}

theorem placed_lt {w : Nat} (h : p.offset + p.length ≤ w) : p.placed < 2 ^ w := by
  have hpow : 2 ^ p.length * 2 ^ p.offset ≤ 2 ^ w := by
    rw [← Nat.pow_add, Nat.add_comm]
    exact Nat.pow_le_pow_right (by omega) h
  rw [Piece.placed, Nat.shiftLeft_eq]
  exact (Nat.mul_lt_mul_of_pos_right p.fits (Nat.two_pow_pos _)).trans_le hpow

/-- A piece at the end of the number is empty. -/
theorem value_eq_zero {w : Nat} (h : p.offset + p.length ≤ w) (hw : w ≤ p.offset) : p.value = 0 := by
  have hfits := p.fits
  rw [(by omega : p.length = 0)] at hfits
  exact Nat.lt_one_iff.mp hfits

theorem testBit_extract (n offset length i : Nat) :
    (extract n offset length).testBit i = (decide (i < length) && n.testBit (i + offset)) := by
  rw [extract, Nat.testBit_mod_two_pow, Nat.testBit_div_two_pow]

theorem testBit_placed_of_covers (h : p.Covers i) :
    p.placed.testBit i = p.value.testBit (i - p.offset) := by
  rw [Piece.placed, Nat.testBit_shiftLeft, decide_eq_true h.1, Bool.true_and]

theorem testBit_placed_of_not_covers (h : ¬ p.Covers i) : p.placed.testBit i = false := by
  rw [Piece.placed, Nat.testBit_shiftLeft]
  by_cases hlo : p.offset ≤ i
  · have hhi : p.length ≤ i - p.offset := by
      by_contra hlt
      exact h ⟨hlo, by omega⟩
    rw [Nat.testBit_lt_two_pow (p.fits.trans_le (Nat.pow_le_pow_right (by omega) hhi)), Bool.and_false]
  · rw [decide_eq_false hlo, Bool.false_and]

theorem pack_cons (p : Piece) (ps : List Piece) : pack (p :: ps) = p.placed ||| pack ps := rfl

/-- The bits of no piece are zero. -/
theorem testBit_pack_of_not_covers (h : ∀ p ∈ ps, ¬ p.Covers i) : (pack ps).testBit i = false := by
  induction ps with
  | nil => exact Nat.zero_testBit i
  | cons p ps ih =>
      rw [pack_cons, Nat.testBit_or, testBit_placed_of_not_covers (h p List.mem_cons_self),
        ih fun q hq => h q (List.mem_cons_of_mem p hq), Bool.or_false]

/-- The bits of a piece are those of its value. -/
theorem testBit_pack_of_covers (hdisj : ps.Pairwise Piece.Disjoint) (hp : p ∈ ps) (h : p.Covers i) :
    (pack ps).testBit i = p.value.testBit (i - p.offset) := by
  induction ps with
  | nil => cases hp
  | cons q qs ih =>
      obtain ⟨hq, hqs⟩ := List.pairwise_cons.mp hdisj
      rw [pack_cons, Nat.testBit_or]
      rcases List.mem_cons.mp hp with rfl | hmem
      · rw [testBit_placed_of_covers h, testBit_pack_of_not_covers fun r hr => hq r hr i h,
          Bool.or_false]
      · rw [testBit_placed_of_not_covers ((hq p hmem).symm i h), Bool.false_or, ih hqs hmem]

/-- Every piece is read back. -/
theorem extract_pack (hdisj : ps.Pairwise Piece.Disjoint) (hp : p ∈ ps) :
    extract (pack ps) p.offset p.length = p.value := by
  apply Nat.eq_of_testBit_eq
  intro i
  rw [testBit_extract]
  by_cases hi : i < p.length
  · have hcovers : p.Covers (i + p.offset) := ⟨by omega, by omega⟩
    rw [decide_eq_true hi, Bool.true_and, testBit_pack_of_covers hdisj hp hcovers, Nat.add_sub_cancel]
  · have hlt : p.value < 2 ^ i := p.fits.trans_le (Nat.pow_le_pow_right (by omega) (by omega))
    rw [decide_eq_false hi, Bool.false_and, Nat.testBit_lt_two_pow hlt]

end BitField
