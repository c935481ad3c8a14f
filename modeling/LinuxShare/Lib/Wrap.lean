-- SUMMARY: Times seen through a counter that wraps: how two residues tell which of two times is later.
import Mathlib.Algebra.Order.Group.Unbundled.Abs
import Mathlib.Algebra.Order.Group.Unbundled.Int
import Mathlib.Algebra.Order.Ring.Int
import Mathlib.Order.RelClasses
import Mathlib.Tactic.Common

/-!
# Wrapping counters

A counter of `w` bits shows a time modulo `2 ^ w`. The difference of two residues, read
as a signed number of `w` bits, is that of the times as long as it fits. So it decides
which of two times is later when these are less than `2 ^ (w - 1)` apart, and no further.
-/

namespace Wrap

/-- Conversion to the signed type of `w` bits, modulo `2 ^ w`. -/
def signed (w : Nat) (x : Int) : Int := x.bmod (2 ^ w)

/-- What a counter of `w` bits shows at time `t`. -/
def residue (w t : Nat) : Int := (t % 2 ^ w : Nat)

/-- The reading `a` is of a later time than `b`, as far as their difference can tell. -/
def Later (w : Nat) (a b : Int) : Prop := signed w (b - a) < 0

instance (w : Nat) (a b : Int) : Decidable (Later w a b) := inferInstanceAs (Decidable (_ < _))

/-- Times that are pairwise less than `2 ^ (w - 1)` apart. -/
abbrev Window (w base : Nat) : Type := { t : Nat // base ≤ t ∧ t < base + 2 ^ (w - 1) }

variable {w : Nat}

theorem two_pow_eq (hw : 1 ≤ w) : 2 ^ w = 2 * 2 ^ (w - 1) := by
  rw [← Nat.pow_succ']
  congr 1
  omega

theorem signed_emod (w : Nat) (x : Int) : signed w (x % 2 ^ w) = signed w x := by
  have hcast : (2 : Int) ^ w = (2 ^ w : Nat) := by simp
  rw [signed, signed, hcast, Int.emod_bmod]

theorem signed_residue_sub (w a b : Nat) :
    signed w (residue w b - residue w a) = signed w (b - a) := by
  simp only [signed, residue, Int.natCast_emod, Int.emod_sub_bmod, Int.sub_emod_bmod]

theorem signed_eq_self {x : Int} (hw : 1 ≤ w) (hlo : -2 ^ (w - 1) ≤ x) (hhi : x < 2 ^ (w - 1)) :
    signed w x = x := by
  have hcast : (2 : Int) ^ (w - 1) = (2 ^ (w - 1) : Nat) := by simp
  have hpow := two_pow_eq hw
  rw [hcast] at hlo hhi
  apply Int.bmod_eq_of_le_mul_two <;> omega

/-- One turn of the counter does not show. -/
theorem signed_sub_two_pow (w : Nat) (x : Int) : signed w (x - (2 ^ w : Nat)) = signed w x :=
  Int.sub_bmod_right _ _

/-- Half way around, the conversion yields the smallest value. -/
theorem signed_two_pow (hw : 1 ≤ w) : signed w (2 ^ (w - 1)) = -2 ^ (w - 1) := by
  have hcast : (2 : Int) ^ (w - 1) = (2 ^ (w - 1) : Nat) := by simp
  have hpow := two_pow_eq hw
  have hpos := Nat.two_pow_pos (w - 1)
  have hself : (2 : Int) ^ (w - 1) - (2 ^ w : Nat) = -2 ^ (w - 1) := by
    rw [hcast]
    omega
  rw [← signed_sub_two_pow, hself]
  exact signed_eq_self hw (Int.le_refl _) (by rw [hcast]; omega)

/-- The residues tell which of two times is later. -/
theorem later_residue_iff (hw : 1 ≤ w) {a b : Nat} (h : |(a : Int) - b| < 2 ^ (w - 1)) :
    Later w (residue w a) (residue w b) ↔ b < a := by
  obtain ⟨hlo, hhi⟩ := abs_lt.mp h
  rw [Later, signed_residue_sub, signed_eq_self hw (by omega) (by omega)]
  omega

/-- At a distance of `2 ^ (w - 1)` each time seems later than the other. -/
theorem later_of_half (hw : 1 ≤ w) {a b : Nat} (h : |(a : Int) - b| = 2 ^ (w - 1)) :
    Later w (residue w a) (residue w b) := by
  have hpos := Int.pow_pos (n := 2) (m := w - 1) (by decide)
  rw [Later, signed_residue_sub]
  rcases eq_or_eq_neg_of_abs_eq h with h | h
  · have hdiff : (b : Int) - a = -2 ^ (w - 1) := by omega
    rw [hdiff, signed_eq_self hw (Int.le_refl _) (by omega)]
    omega
  · have hdiff : (b : Int) - a = 2 ^ (w - 1) := by omega
    rw [hdiff, signed_two_pow hw]
    omega

theorem Window.abs_sub_lt {base : Nat} (a b : Window w base) : |(a.val : Int) - b.val| < 2 ^ (w - 1) := by
  have hcast : (2 : Int) ^ (w - 1) = (2 ^ (w - 1) : Nat) := by simp
  have ha := a.property
  have hb := b.property
  rw [hcast]
  exact abs_lt.mpr ⟨by omega, by omega⟩

theorem Window.later_iff (hw : 1 ≤ w) {base : Nat} (a b : Window w base) :
    Later w (residue w a.val) (residue w b.val) ↔ b < a :=
  later_residue_iff hw (Window.abs_sub_lt a b)

/-- Within a window the residues are ordered like the times. -/
theorem Window.isStrictTotalOrder (hw : 1 ≤ w) (base : Nat) :
    IsStrictTotalOrder (Window w base) fun a b => Later w (residue w a.val) (residue w b.val) := by
  have hgt : (fun a b : Window w base => Later w (residue w a.val) (residue w b.val)) = (· > ·) := by
    funext a b
    exact propext (Window.later_iff hw a b)
  rw [hgt]
  infer_instance

end Wrap
