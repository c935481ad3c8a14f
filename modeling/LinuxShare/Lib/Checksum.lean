-- SUMMARY: The Internet checksum: one's complement sums of 16-bit words.
import Mathlib.Algebra.GroupWithZero.Nat
import Mathlib.Algebra.Order.Group.Nat
import Mathlib.Tactic.Common

/-!
# The Internet checksum

A message is summed up as big-endian 16-bit words, an odd last byte as the high half of a
word, and the carries are added back in. A message with a correct checksum sums up to
all ones; the checksum to put into it is the complement of the sum without it.
-/

namespace Checksum

/-- The sum of the words, without folding. -/
def sum16 : List UInt8 → Nat
  | [] => 0
  | [a] => 256 * a.toNat
  | a :: b :: bs => 256 * a.toNat + b.toNat + sum16 bs

/-- The carries are added back in until none is left. -/
def fold (n : Nat) : Nat := if n < 65536 then n else fold (n % 65536 + n / 65536)
termination_by n
decreasing_by omega

/-- Folding computes the residue modulo 65535, where only zero gives zero. -/
theorem fold_eq (n : Nat) : fold n = if n = 0 then 0 else (n - 1) % 65535 + 1 := by
  induction n using fold.induct with
  | case1 n h =>
      rw [fold, if_pos h]
      split <;> omega
  | case2 n h ih =>
      rw [fold, if_neg h, ih]
      split <;> split <;> omega

theorem fold_lt (n : Nat) : fold n < 65536 := by
  rw [fold_eq]
  split <;> omega

/-- All ones. -/
theorem fold_eq_iff {n : Nat} : fold n = 65535 ↔ 0 < n ∧ n % 65535 = 0 := by
  rw [fold_eq]
  split <;> omega

/-- What a receiver checks. -/
def Valid (bs : List UInt8) : Prop := fold (sum16 bs) = 65535

instance : DecidablePred Valid := fun _ => decidable_of_iff _ fold_eq_iff.symm

/-- The checksum of a message in which its place is zero. -/
def checksum (bs : List UInt8) : Nat := 65535 - fold (sum16 bs)

/-- A 16-bit value in network order. -/
def be16 (n : Nat) : List UInt8 := [UInt8.ofNat (n / 256), UInt8.ofNat n]

@[simp] theorem length_be16 (n : Nat) : (be16 n).length = 2 := rfl

theorem sum16_be16 {n : Nat} (h : n < 65536) : sum16 (be16 n) = n := by
  simp only [be16, sum16, UInt8.toNat_ofNat']
  omega

/-- Words that begin at an even offset add up by themselves. -/
theorem sum16_append {bs : List UInt8} (cs : List UInt8) (h : bs.length % 2 = 0) :
    sum16 (bs ++ cs) = sum16 bs + sum16 cs := by
  induction bs using sum16.induct with
  | case1 => simp [sum16]
  | case2 a => simp at h
  | case3 a b bs ih =>
      have hbs : bs.length % 2 = 0 := by
        simp only [List.length_cons] at h
        omega
      simp only [List.cons_append, sum16, ih hbs]
      omega

/-- Nothing but zeros. -/
theorem sum16_eq_zero_iff {bs : List UInt8} : sum16 bs = 0 ↔ ∀ b ∈ bs, b = 0 := by
  have hbyte : ∀ a : UInt8, a.toNat = 0 ↔ a = 0 := fun a => UInt8.toNat_inj (b := 0)
  induction bs using sum16.induct with
  | case1 => simp [sum16]
  | case2 a => simp [sum16, hbyte]
  | case3 a b bs ih => simp [sum16, ih, hbyte, and_assoc]

/-- A message gets a correct checksum when its complement is put into the place of zeros. -/
theorem valid_checksum {bs cs : List UInt8} (h : bs.length % 2 = 0) :
    Valid (bs ++ be16 (checksum (bs ++ be16 0 ++ cs)) ++ cs) := by
  have hzero : sum16 (be16 0) = 0 := rfl
  have hsplit : ∀ n, sum16 (bs ++ be16 n ++ cs) = sum16 bs + sum16 (be16 n) + sum16 cs := fun n => by
    rw [sum16_append _ (by rw [List.length_append, length_be16]; omega), sum16_append _ h]
  have hlt := fold_lt (sum16 bs + sum16 cs)
  rw [Valid, fold_eq_iff, hsplit, checksum, hsplit, hzero, Nat.add_zero, sum16_be16 (by omega)]
  rw [fold_eq]
  split <;> omega

end Checksum
