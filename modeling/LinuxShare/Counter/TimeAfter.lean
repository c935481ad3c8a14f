-- SUMMARY: The comparison of wrapped times (变量溢出问题/main.c, and the note beside it).
import LinuxShare.Lib.Wrap

/-!
# time_after

The program compares times of which it keeps the low eight bits. The note takes the
macro from the kernel, where the counters are as wide as `unsigned long`: there the
difference itself wraps, here it is an `int` and does not.
-/

namespace Counter

open Wrap

/-- `#define time_after(unknown,known) ((signed char)((known)-(unknown))<0)`. The operands are
promoted to `int`. -/
def timeAfter (unknown known : Int) : Bool := signed 8 (known - unknown) < 0

/-- The macro over counters of `w` bits that are narrower than `int`. -/
def timeAfterPromoted (w : Nat) (unknown known : Int) : Bool := signed w (known - unknown) < 0

/-- The macro over counters of an `unsigned` type of `w` bits that are not promoted, as in the
note: `((long)((b) - (a)) < 0)`. -/
def timeAfterUnsigned (w : Nat) (a b : Int) : Bool := signed w ((b - a) % 2 ^ w) < 0

theorem timeAfter_eq (unknown known : Int) :
    timeAfter unknown known = timeAfterPromoted 8 unknown known := rfl

theorem timeAfterPromoted_iff {w : Nat} {unknown known : Int} :
    timeAfterPromoted w unknown known = true ↔ Later w unknown known := decide_eq_true_iff

/-- It makes no difference whether the subtraction wraps. -/
theorem timeAfterUnsigned_eq (w : Nat) (a b : Int) :
    timeAfterUnsigned w a b = timeAfterPromoted w a b := by
  rw [timeAfterUnsigned, signed_emod, timeAfterPromoted]

/-- The window of the note cannot be any larger. -/
theorem timeAfterPromoted_of_half {w : Nat} (hw : 1 ≤ w) {T₁ T₂ : Nat}
    (h : |(T₁ : Int) - T₂| = 2 ^ (w - 1)) :
    timeAfterPromoted w (residue w T₁) (residue w T₂) = true ∧
      timeAfterPromoted w (residue w T₂) (residue w T₁) = true := by
  refine ⟨timeAfterPromoted_iff.mpr (later_of_half hw h), timeAfterPromoted_iff.mpr (later_of_half hw ?_)⟩
  rwa [abs_sub_comm]

/-- On times less than 128 apart the macro decides from the low eight bits which is later; on
times less than `2 ^ (w - 1)` apart the same macro decides it from the low `w` bits, whether or
not the difference wraps; and within a window of that span it orders the times strictly and
totally. -/
theorem timeAfter_window {w : Nat} (hw : 2 ≤ w) (base : Nat) :
    (∀ T₁ T₂ : Nat, |(T₁ : Int) - T₂| < 128 →
      (timeAfter (T₁ % 256 : Nat) (T₂ % 256 : Nat) = true ↔ T₁ > T₂)) ∧
    (∀ T₁ T₂ : Nat, |(T₁ : Int) - T₂| < 2 ^ (w - 1) →
      (timeAfterPromoted w (residue w T₁) (residue w T₂) = true ↔ T₁ > T₂) ∧
      (timeAfterUnsigned w (residue w T₁) (residue w T₂) = true ↔ T₁ > T₂)) ∧
    IsStrictTotalOrder (Window w base) fun T₁ T₂ =>
      timeAfterPromoted w (residue w T₁.val) (residue w T₂.val) = true := by
  refine ⟨fun T₁ T₂ h => ?_, fun T₁ T₂ h => ?_, ?_⟩
  · rw [timeAfter_eq, timeAfterPromoted_iff]
    exact later_residue_iff (w := 8) (by decide) h
  · have hlater := later_residue_iff (by omega : 1 ≤ w) h
    rw [timeAfterUnsigned_eq, timeAfterPromoted_iff]
    exact ⟨hlater, hlater⟩
  · simp only [timeAfterPromoted_iff]
    exact Window.isStrictTotalOrder (by omega) base

/-- Eight bits, with times on both sides of the wrap. -/
theorem timeAfter_window_eight :
    timeAfter (300 % 256 : Nat) (254 % 256 : Nat) = true ∧
      timeAfterUnsigned 16 (residue 16 65536) (residue 16 65535) = true :=
  ⟨((timeAfter_window (w := 8) (by decide) 0).1 300 254 (by decide)).mpr (by decide),
    ((timeAfter_window (w := 16) (by decide) 0).2.1 65536 65535 (by decide)).2.mpr (by decide)⟩

end Counter
