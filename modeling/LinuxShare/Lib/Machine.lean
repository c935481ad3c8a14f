-- SUMMARY: Machines that answer events with outputs: runs, traces and conditions along a run.
import Mathlib.Data.List.Basic
import Mathlib.Order.Basic
import Mathlib.Tactic.Common

/-!
# Machines

A machine takes events one after the other. Each event changes the state and is
answered by outputs; the trace of a run is all of its outputs, in order.
-/

namespace Machine

variable {S E O : Type*} (step : E → S → S × List O)

/-- The state after the events. -/
def run (s : S) : List E → S
  | [] => s
  | e :: es => run (step e s).1 es

/-- The outputs of the events. -/
def trace (s : S) : List E → List O
  | [] => []
  | e :: es => (step e s).2 ++ trace (step e s).1 es

/-- `P` holds of each event and the state in which it comes. -/
def Along (P : E → S → Prop) (s : S) : List E → Prop
  | [] => True
  | e :: es => P e s ∧ Along P (step e s).1 es

instance decidableAlong (P : E → S → Prop) [∀ e s, Decidable (P e s)] :
    ∀ s es, Decidable (Along step P s es)
  | _, [] => inferInstanceAs (Decidable True)
  | s, e :: es =>
    have := decidableAlong P (step e s).1 es
    inferInstanceAs (Decidable (P e s ∧ Along step P (step e s).1 es))

variable {step}

@[simp] theorem run_nil (s : S) : run step s [] = s := rfl

@[simp] theorem run_cons (s : S) (e : E) (es : List E) :
    run step s (e :: es) = run step (step e s).1 es := rfl

@[simp] theorem trace_nil (s : S) : trace step s [] = [] := rfl

@[simp] theorem trace_cons (s : S) (e : E) (es : List E) :
    trace step s (e :: es) = (step e s).2 ++ trace step (step e s).1 es := rfl

theorem run_append (s : S) (es fs : List E) :
    run step s (es ++ fs) = run step (run step s es) fs := by
  induction es generalizing s with
  | nil => rfl
  | cons e es ih => exact ih _

theorem trace_append (s : S) (es fs : List E) :
    trace step s (es ++ fs) = trace step s es ++ trace step (run step s es) fs := by
  induction es generalizing s with
  | nil => rfl
  | cons e es ih =>
      rw [List.cons_append, trace_cons, ih, trace_cons, run_cons, List.append_assoc]

theorem run_snoc (s : S) (es : List E) (e : E) :
    run step s (es ++ [e]) = (step e (run step s es)).1 := run_append s es [e]

theorem trace_snoc (s : S) (es : List E) (e : E) :
    trace step s (es ++ [e]) = trace step s es ++ (step e (run step s es)).2 := by
  rw [trace_append, trace_cons, trace_nil, List.append_nil]

theorem along_append {P : E → S → Prop} {s : S} {es fs : List E} :
    Along step P s (es ++ fs) ↔ Along step P s es ∧ Along step P (run step s es) fs := by
  induction es generalizing s with
  | nil => simp [Along]
  | cons e es ih => simp only [List.cons_append, Along, run_cons, ih, and_assoc]

theorem Along.imp {P Q : E → S → Prop} (himp : ∀ e s, P e s → Q e s) {s : S} {es : List E}
    (h : Along step P s es) : Along step Q s es := by
  induction es generalizing s with
  | nil => trivial
  | cons e es ih => exact ⟨himp e s h.1, ih h.2⟩

/-- Two conditions that mean the same in every state of a run. -/
theorem along_congr {P Q : E → S → Prop} {I : S → Prop} (hkeep : ∀ e s, I s → I (step e s).1)
    (hiff : ∀ e s, I s → (P e s ↔ Q e s)) {s : S} {es : List E} (hs : I s) :
    Along step P s es ↔ Along step Q s es := by
  induction es generalizing s with
  | nil => exact Iff.rfl
  | cons e es ih => exact and_congr (hiff e s hs) (ih (hkeep e s hs))

/-- What every step that meets a condition keeps, and every output of such a step has. -/
theorem Along.inv {P : E → S → Prop} {I : S → Prop} {G : O → Prop}
    (hstep : ∀ e s, I s → P e s → I (step e s).1 ∧ ∀ o ∈ (step e s).2, G o) {s : S} {es : List E}
    (h : Along step P s es) (hs : I s) :
    I (run step s es) ∧ ∀ o ∈ trace step s es, G o := by
  induction es generalizing s with
  | nil => exact ⟨hs, by simp⟩
  | cons e es ih =>
      obtain ⟨hnext, hout⟩ := hstep e s hs h.1
      obtain ⟨hrun, htrace⟩ := ih h.2 hnext
      refine ⟨hrun, fun o ho => ?_⟩
      rcases List.mem_append.mp ho with ho | ho
      · exact hout o ho
      · exact htrace o ho

theorem along_true (s : S) (es : List E) : Along step (fun _ _ => True) s es := by
  induction es generalizing s with
  | nil => trivial
  | cons e es ih => exact ⟨trivial, ih _⟩

/-- What every step keeps, and every output of a step has. -/
theorem inv_run {I : S → Prop} {G : O → Prop}
    (hstep : ∀ e s, I s → I (step e s).1 ∧ ∀ o ∈ (step e s).2, G o) {s : S} (es : List E) (hs : I s) :
    I (run step s es) ∧ ∀ o ∈ trace step s es, G o :=
  (along_true s es).inv (fun e s hI _ => hstep e s hI) hs

/-- What every step keeps of the state beside the outputs so far. -/
theorem inv_history {I : S → List O → Prop}
    (hstep : ∀ e s os, I s os → I (step e s).1 (os ++ (step e s).2)) {s : S} {os : List O}
    (es : List E) (hs : I s os) : I (run step s es) (os ++ trace step s es) := by
  induction es generalizing s os with
  | nil => simpa using hs
  | cons e es ih =>
      rw [run_cons, trace_cons, ← List.append_assoc]
      exact ih (hstep e s os hs)

/-- What goes in along a run comes out in the same order, up to what is still inside. -/
theorem passed_on {B : Type*} {I : S → Prop} {f g : O → List B} {inside : S → List B}
    (hkeep : ∀ e s, I s → I (step e s).1)
    (hstep : ∀ e s, I s →
      inside s ++ (step e s).2.flatMap f = (step e s).2.flatMap g ++ inside (step e s).1)
    {s : S} (es : List E) (hs : I s) :
    inside s ++ (trace step s es).flatMap f =
      (trace step s es).flatMap g ++ inside (run step s es) := by
  induction es generalizing s with
  | nil => simp
  | cons e es ih =>
      rw [trace_cons, List.flatMap_append, List.flatMap_append, ← List.append_assoc, hstep e s hs,
        List.append_assoc, ih (hkeep e s hs), run_cons, List.append_assoc]

/-- What goes out along a run ascends, where each step puts it between two bounds that it only
raises. -/
theorem ascending {V : Type*} [Preorder V] {I : S → Prop} {f : O → List V} (low : S → V)
    (hkeep : ∀ e s, I s → I (step e s).1)
    (hstep : ∀ e s, I s → low s ≤ low (step e s).1 ∧
      ((step e s).2.flatMap f).Pairwise (· ≤ ·) ∧
      ∀ v ∈ (step e s).2.flatMap f, low s ≤ v ∧ v ≤ low (step e s).1)
    {s : S} (es : List E) (hs : I s) :
    ((trace step s es).flatMap f).Pairwise (· ≤ ·) ∧
      ∀ v ∈ (trace step s es).flatMap f, low s ≤ v := by
  induction es generalizing s with
  | nil => simp
  | cons e es ih =>
      obtain ⟨hlow, hsorted, hbounds⟩ := hstep e s hs
      obtain ⟨hrest, hafter⟩ := ih (hkeep e s hs)
      rw [trace_cons, List.flatMap_append]
      refine ⟨List.pairwise_append.mpr ⟨hsorted, hrest, fun v hv w hw => ?_⟩, fun v hv => ?_⟩
      · exact (hbounds v hv).2.trans (hafter w hw)
      · rcases List.mem_append.mp hv with hv | hv
        · exact (hbounds v hv).1
        · exact hlow.trans (hafter v hv)

/-- Each output of a trace comes from one event. -/
theorem exists_of_trace_eq {s : S} {es : List E} {l r : List O} {o : O}
    (h : trace step s es = l ++ o :: r) :
    ∃ pre e post a b, es = pre ++ e :: post ∧ (step e (run step s pre)).2 = a ++ o :: b ∧
      l = trace step s pre ++ a ∧ r = b ++ trace step (run step s (pre ++ [e])) post := by
  induction es generalizing s l with
  | nil => simp at h
  | cons e es ih =>
      have hlater : ∀ l', l = (step e s).2 ++ l' → trace step (step e s).1 es = l' ++ o :: r →
          ∃ pre e' post a b, e :: es = pre ++ e' :: post ∧
            (step e' (run step s pre)).2 = a ++ o :: b ∧ l = trace step s pre ++ a ∧
            r = b ++ trace step (run step s (pre ++ [e'])) post := by
        intro l' hl htrace
        obtain ⟨pre, e', post, a, b, rfl, hstep, rfl, hr⟩ := ih htrace
        exact ⟨e :: pre, e', post, a, b, rfl, hstep, by rw [hl, trace_cons, List.append_assoc], hr⟩
      rw [trace_cons] at h
      obtain ⟨l', hl, htrace⟩ | ⟨c, hstep, htrace⟩ := List.append_eq_append_iff.mp h
      · exact hlater l' hl htrace
      · cases c with
        | nil => exact hlater [] (by simpa using hstep.symm) htrace.symm
        | cons o' b =>
            obtain ⟨rfl, hr⟩ := List.cons.inj htrace
            exact ⟨[], e, es, l, b, rfl, hstep, rfl, hr⟩

end Machine
