-- SUMMARY: A handle that is acquired, used and released: its state, and what misuses it.
import Mathlib.Tactic.Common

/-!
# Descriptors

A program acquires a handle, uses it and releases it. Using or releasing a handle that is
not open is a misuse, from which there is no way back: the number may by then belong to
something else.
-/

namespace Descriptor

variable {S : Type*}

/-- An acquisition that may fail, a use that may change the state of the object, a release. -/
inductive Act (S : Type*) where
  | acquire (s : Option S)
  | use (f : S → S)
  | release

inductive Status (S : Type*) where
  | closed
  | opened (s : S)
  | misused
  deriving DecidableEq

namespace Status

/-- Acquiring what is open leaks it; this counts as a misuse too. -/
def step : Status S → Act S → Status S
  | closed, .acquire none => closed
  | closed, .acquire (some s) => opened s
  | opened s, .use f => opened (f s)
  | opened _, .release => closed
  | _, _ => misused

/-- The status after the actions. -/
def after (acts : List (Act S)) : Status S := acts.foldl step closed

@[simp] theorem after_nil : after ([] : List (Act S)) = closed := rfl

@[simp] theorem after_append_singleton (acts : List (Act S)) (a : Act S) :
    after (acts ++ [a]) = (after acts).step a := by
  rw [after, List.foldl_append]
  rfl

@[simp] theorem step_misused (a : Act S) : (misused : Status S).step a = misused := by
  cases a <;> rfl

@[simp] theorem step_use (s : S) (f : S → S) : (opened s).step (.use f) = opened (f s) := rfl

@[simp] theorem step_release (s : S) : (opened s).step .release = closed := rfl

@[simp] theorem step_use_closed (f : S → S) : (closed : Status S).step (.use f) = misused := rfl

@[simp] theorem step_acquire_none : (closed : Status S).step (.acquire none) = closed := rfl

@[simp] theorem step_acquire_some (s : S) : closed.step (.acquire (some s)) = opened s := rfl

end Status

end Descriptor
