-- SUMMARY: A GPIO port: the configuration of its pins, their data latches, and runs of register accesses.
import Mathlib.Data.List.Basic
import Mathlib.Tactic.Common

/-!
# A GPIO port

Each pin has a function and a bit of the data register. The bit keeps the value last
written whatever the function is, and drives the pin while this is an output.
-/

namespace Gpio

/-- What a pin is configured as. -/
inductive Func where
  | input | output | eint
  deriving DecidableEq

structure Pin where
  func : Func
  latch : Bool
  deriving DecidableEq

/-- The pin is driven at high level. -/
def Pin.High (p : Pin) : Prop := p.func = .output ∧ p.latch = true

instance (p : Pin) : Decidable p.High := inferInstanceAs (Decidable (_ ∧ _))

/-- The pins of a port by number. -/
abbrev Port := Nat → Pin

/-- A call of `s3c2410_gpio_cfgpin` or of `s3c2410_gpio_setpin`. -/
inductive Access where
  | cfgpin (pin : Nat) (func : Func)
  | setpin (pin : Nat) (level : Bool)
  deriving DecidableEq

namespace Access

def pin : Access → Nat
  | cfgpin pin _ => pin
  | setpin pin _ => pin

def exec : Access → Port → Port
  | cfgpin pin func, p => Function.update p pin { p pin with func := func }
  | setpin pin level, p => Function.update p pin { p pin with latch := level }

theorem exec_of_ne {a : Access} {i : Nat} (h : i ≠ a.pin) (p : Port) : a.exec p i = p i := by
  cases a with
  | cfgpin pin func => exact Function.update_of_ne h _ _
  | setpin pin level => exact Function.update_of_ne h _ _

@[simp] theorem exec_cfgpin (p : Port) (pin i : Nat) (func : Func) :
    (cfgpin pin func).exec p i = if i = pin then { p i with func := func } else p i := by
  by_cases hi : i = pin
  · subst hi
    simp [exec]
  · simp [exec, hi]

@[simp] theorem exec_setpin (p : Port) (pin i : Nat) (level : Bool) :
    (setpin pin level).exec p i = if i = pin then { p i with latch := level } else p i := by
  by_cases hi : i = pin
  · subst hi
    simp [exec]
  · simp [exec, hi]

end Access

/-! ## Runs -/

/-- The port after the accesses. -/
def execAll (p : Port) (as : List Access) : Port := as.foldl (fun p a => a.exec p) p

variable {p : Port} {as bs : List Access} {a : Access} {i : Nat}

@[simp] theorem execAll_nil (p : Port) : execAll p [] = p := rfl

@[simp] theorem execAll_cons (p : Port) (a : Access) (as : List Access) :
    execAll p (a :: as) = execAll (a.exec p) as := rfl

theorem execAll_append (p : Port) (as bs : List Access) : execAll p (as ++ bs) = execAll (execAll p as) bs :=
  List.foldl_append

/-- A latch that nothing sets stays low. -/
theorem latch_execAll_of_low (h : (p i).latch = false) (has : .setpin i true ∉ as) :
    (execAll p as i).latch = false := by
  induction as generalizing p with
  | nil => exact h
  | cons a as ih =>
      have hlow : (a.exec p i).latch = false := by
        cases a with
        | cfgpin pin func =>
            rw [Access.exec_cfgpin]
            split <;> exact h
        | setpin pin level =>
            rw [Access.exec_setpin]
            split
            · next hi =>
                cases level with
                | false => rfl
                | true => exact absurd (hi ▸ List.mem_cons_self) has
            · exact h
      exact ih hlow fun hmem => has (List.mem_cons_of_mem a hmem)

/-- A loop that writes to the pins in `l`. -/
theorem execAll_setpins (p : Port) (f : Nat → Bool) (l : List Nat) (i : Nat) :
    execAll p (l.map fun j => .setpin j (f j)) i = if i ∈ l then { p i with latch := f i } else p i := by
  induction l generalizing p with
  | nil => rfl
  | cons j l ih =>
      rw [List.map_cons, execAll_cons, ih, Access.exec_setpin]
      by_cases hj : i = j
      · subst hj
        simp
      · simp [hj]

/-- A loop that configures the pins in `l`. -/
theorem execAll_cfgpins (p : Port) (func : Func) (l : List Nat) (i : Nat) :
    execAll p (l.map fun j => .cfgpin j func) i = if i ∈ l then { p i with func := func } else p i := by
  induction l generalizing p with
  | nil => rfl
  | cons j l ih =>
      rw [List.map_cons, execAll_cons, ih, Access.exec_cfgpin]
      by_cases hj : i = j
      · subst hj
        simp
      · simp [hj]

end Gpio
