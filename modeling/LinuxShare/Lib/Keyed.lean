-- SUMMARY: Events that each act on the value under one key.
import Mathlib.Logic.Function.Basic

/-!
# Keyed events

A map from keys to values, and events that each change the value under their own
key in a way that depends on that value only. The value under a key is then what the
events for that key alone make of it, and events for different keys commute.
-/

namespace Keyed

variable {K V E : Type} [DecidableEq K] (key : E → K) (act : E → V → V)

/-- The map after one event. -/
def apply (v : K → V) (e : E) : K → V := Function.update v (key e) (act e (v (key e)))

/-- The map after a list of events. -/
def run (v : K → V) (es : List E) : K → V := es.foldl (apply key act) v

variable {key act}

theorem apply_of_eq {v : K → V} {e : E} {k : K} (h : key e = k) :
    apply key act v e k = act e (v k) := by
  subst h
  exact Function.update_self _ _ _

theorem apply_of_ne {v : K → V} {e : E} {k : K} (h : key e ≠ k) : apply key act v e k = v k :=
  Function.update_of_ne (Ne.symm h) _ _

theorem run_append_singleton (v : K → V) (es : List E) (e : E) :
    run key act v (es ++ [e]) = apply key act (run key act v es) e := by
  rw [run, List.foldl_append]
  rfl

/-- The value under a key is a matter of the events for that key. -/
theorem run_apply (v : K → V) (es : List E) (k : K) :
    run key act v es k = (es.filter fun e => key e = k).foldl (fun x e => act e x) (v k) := by
  induction es generalizing v with
  | nil => rfl
  | cons e es ih =>
      have hcons : run key act v (e :: es) = run key act (apply key act v e) es := rfl
      rw [hcons, ih]
      by_cases he : key e = k
      · rw [List.filter_cons_of_pos (by simpa using he), List.foldl_cons, apply_of_eq he]
      · rw [List.filter_cons_of_neg (by simpa using he), apply_of_ne he]

theorem run_filter (v : K → V) (es : List E) (k : K) :
    run key act v (es.filter fun e => key e = k) k = run key act v es k := by
  rw [run_apply, run_apply, List.filter_filter]
  simp only [Bool.and_self]

theorem apply_comm {e e' : E} (h : key e ≠ key e') (v : K → V) :
    apply key act (apply key act v e) e' = apply key act (apply key act v e') e := by
  unfold apply
  rw [Function.update_of_ne h.symm, Function.update_of_ne h, Function.update_comm h.symm]

end Keyed
