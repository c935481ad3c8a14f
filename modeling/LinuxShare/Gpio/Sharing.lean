-- SUMMARY: The users of port F side by side, and when the actuator driver changes a pin that is not its own.
import LinuxShare.Gpio.HwControl
import LinuxShare.Input.KeyInput

/-!
# The users of port F

The actuators have GPF3 to GPF6, the keys GPF4 to GPF7 as interrupt lines, the humidity
sensor GPF0. Each driver makes its register accesses in its own order, and the drivers
in any order among each other. The close of the actuators runs over GPF2 to GPF7.
-/

namespace Gpio

namespace Sharing

open Machine HwControl

inductive User where
  | hwControl | keyInput | am2305
  deriving DecidableEq

/-- The loop of `key_input_init`. -/
def keyInputInit : List Access :=
  (List.finRange 4).map fun i => .cfgpin (Input.KeyInput.keyInfos i).pin.toNat .eint

/-- What `am2305_find_success` does to its pin before it reads it. -/
def am2305FindSuccess : List Access := [.cfgpin 0 .output, .setpin 0 low, .cfgpin 0 .input]

/-- The port, and what each driver has still to do. -/
structure World where
  port : Port
  pending : User → List Access

/-- No driver is in the middle of a call. -/
def start (p : Port) : World := { port := p, pending := fun _ => [] }

/-- A driver is called, or makes its next access. -/
inductive Sched where
  | call (c : Call)
  | init
  | find
  | run (u : User)

/-- The user begins a call, if it is not in the middle of one. -/
def World.begin (w : World) (u : User) (as : List Access) : World :=
  if w.pending u = [] then { w with pending := Function.update w.pending u as } else w

def step : Sched → World → World × List (User × Access)
  | .call c, w => (w.begin .hwControl c.accesses, [])
  | .init, w => (w.begin .keyInput keyInputInit, [])
  | .find, w => (w.begin .am2305 am2305FindSuccess, [])
  | .run u, w =>
    match w.pending u with
    | [] => (w, [])
    | a :: as => ({ port := a.exec w.port, pending := Function.update w.pending u as }, [(u, a)])

/-- The actuator driver changes none but its own pins. -/
def Framed : Sched → World → Prop
  | .run .hwControl, w => ∀ i ∉ pins, (step (.run .hwControl) w).1.port i = w.port i
  | _, _ => True

/-- When a close gets to GPF2 or GPF7, the pin is an input already. -/
def FindsInput : Sched → World → Prop
  | .run .hwControl, w => ∀ i, i = 2 ∨ i = 7 →
    (w.pending .hwControl).head? = some (.cfgpin i .input) → (w.port i).func = .input
  | _, _ => True

/-! ## One access -/

/-- All pins but GPF2 and GPF7 are the driver's own. -/
theorem mem_accesses {c : Call} {a : Access} (h : a ∈ c.accesses) :
    a.pin ∈ pins ∨ ∃ i, (i = 2 ∨ i = 7) ∧ a = .cfgpin i .input := by
  cases c with
  | opening =>
      obtain ⟨i, hi, ha⟩ := List.mem_flatMap.mp h
      left
      rcases List.mem_pair.mp ha with rfl | rfl <;> exact hi
  | write size buf rest left =>
      obtain ⟨i, hi, rfl⟩ := List.mem_map.mp h
      exact .inl hi
  | close =>
      obtain ⟨i, hi, rfl⟩ := List.mem_map.mp h
      have hrange := List.mem_range'_1.mp hi
      by_cases hown : 3 ≤ i ∧ i < 7
      · exact .inl (List.mem_range'_1.mpr hown)
      · exact .inr ⟨i, by omega, rfl⟩

/-- What the driver has still to do is the rest of a call. -/
def World.Inv (w : World) : Prop := ∃ c : Call, w.pending .hwControl <:+ c.accesses

theorem inv_start (p : Port) : (start p).Inv := ⟨.opening, List.nil_suffix⟩

theorem inv_step (l : Sched) (w : World) (h : w.Inv) : (step l w).1.Inv := by
  obtain ⟨c, hc⟩ := h
  have hother : ∀ u as, u ≠ .hwControl → (w.begin u as).Inv := by
    intro u as hu
    refine ⟨c, ?_⟩
    unfold World.begin
    split
    · simpa [Function.update_of_ne hu.symm] using hc
    · exact hc
  cases l with
  | init => exact hother _ _ (by decide)
  | find => exact hother _ _ (by decide)
  | call c' =>
      simp only [step, World.begin]
      split
      · exact ⟨c', by simp⟩
      · exact ⟨c, hc⟩
  | run u =>
      cases hu : w.pending u with
      | nil => exact ⟨c, by simpa [step, hu] using hc⟩
      | cons a as =>
          refine ⟨c, ?_⟩
          by_cases huser : u = .hwControl
          · subst huser
            rw [hu] at hc
            simpa [step, hu] using (List.suffix_cons a as).trans hc
          · simpa [step, hu, Function.update_of_ne (Ne.symm huser)] using hc

/-- An access of the driver to a pin that is not its own makes it an input. -/
theorem framed_iff_findsInput (l : Sched) (w : World) (h : w.Inv) : Framed l w ↔ FindsInput l w := by
  obtain ⟨c, hc⟩ := h
  cases l with
  | call c => exact Iff.rfl
  | init => exact Iff.rfl
  | find => exact Iff.rfl
  | run u =>
      cases u with
      | keyInput => exact Iff.rfl
      | am2305 => exact Iff.rfl
      | hwControl =>
          unfold Framed FindsInput
          cases hpending : w.pending .hwControl with
          | nil => simp [step, hpending]
          | cons a as =>
              simp only [step, hpending, List.head?_cons, Option.some.injEq]
              rcases mem_accesses (hc.mem (hpending ▸ List.mem_cons_self)) with hown | ⟨j, hj, rfl⟩
              · refine iff_of_true (fun i hi => ?_) (fun i hi ha => ?_)
                · exact Access.exec_of_ne (fun heq : i = a.pin => hi (heq ▸ hown)) _
                · subst ha
                  rcases hi with rfl | rfl <;> exact absurd hown (by decide)
              · constructor
                · intro hframe i hi ha
                  have hout : i ∉ pins := by rcases hi with rfl | rfl <;> decide
                  have hsame := hframe i hout
                  cases ha
                  rw [Access.exec_cfgpin, if_pos rfl] at hsame
                  rw [← hsame]
                · intro hinput i hi
                  rw [Access.exec_cfgpin]
                  split
                  · next heq =>
                      subst heq
                      rw [← hinput i hj rfl]
                  · rfl

/-! ## Runs -/

/-- In every interleaving, the driver keeps to its own pins if and only if GPF2 and GPF7
are inputs whenever one of its closes gets to them. -/
theorem runs_framed_iff (p : Port) (ls : List Sched) :
    Along step Framed (start p) ls ↔ Along step FindsInput (start p) ls :=
  along_congr inv_step framed_iff_findsInput (inv_start p)

/-- The keys are set up, the actuators opened, and closed but for the last access. -/
def openClose : List Sched :=
  .init :: List.replicate 4 (.run .keyInput) ++ .call .opening :: List.replicate 8 (.run .hwControl) ++
    .call .close :: List.replicate 5 (.run .hwControl)

/-- GPF7 is an interrupt line before the last access of the close, and an input after it. -/
theorem openClose_changes :
    ((run step (start quiet) openClose).port 7).func = .eint ∧
      ((run step (start quiet) (openClose ++ [.run .hwControl])).port 7).func = .input ∧
      ¬ Along step Framed (start quiet) (openClose ++ [.run .hwControl]) := by
  have hbefore : ((run step (start quiet) openClose).port 7).func = .eint := by decide
  have hafter : ((run step (start quiet) (openClose ++ [.run .hwControl])).port 7).func = .input := by
    decide
  refine ⟨hbefore, hafter, fun h => ?_⟩
  have hlast : Framed (.run .hwControl) (run step (start quiet) openClose) := (along_append.mp h).2.1
  have hsame := hlast 7 (by decide)
  rw [← run_snoc] at hsame
  rw [hsame, hbefore] at hafter
  cases hafter

end Sharing

end Gpio
