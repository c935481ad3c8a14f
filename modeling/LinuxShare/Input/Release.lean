-- SUMMARY: When a touch reported as pressed is left so while the driver waits for the next one.
import LinuxShare.Input.TouchScreen

/-!
# Releases

The two interrupts report a release when they find the pen up, before they wait for
it to come down. The timer, which runs after a press has been reported, finds the pen
up and waits as they do, but reports nothing.
-/

namespace Input

namespace TouchScreen

open Machine

/-- The value that is reported for an axis. -/
def Obs.absValue (code : Nat) : Obs → Option Nat
  | .report (.abs c v) => if c = code then some v else none
  | _ => none

/-- The value that is reported for a key. -/
def Obs.keyValue (code : Nat) : Obs → Option Nat
  | .report (.key c v) => if c = code then some v else none
  | _ => none

def lastPressure (tr : List Obs) : Option Nat := (tr.filterMap (Obs.absValue absPressure)).getLast?

def lastTouch (tr : List Obs) : Option Nat := (tr.filterMap (Obs.keyValue btnTouch)).getLast?

/-- The last `BTN_TOUCH` and `ABS_PRESSURE` reported are 0, or there is none. -/
def Released (tr : List Obs) : Prop :=
  (lastTouch tr = none ∨ lastTouch tr = some 0) ∧ (lastPressure tr = none ∨ lastPressure tr = some 0)

/-- Whenever the controller waits for the pen to come down, the touch is released. -/
def WaitsReleased (es : List Event) : Prop :=
  ∀ pre post, es = pre ++ post → (run step mytsInit pre).adctsc = 0xd3 →
    Released (trace step mytsInit pre)

/-- An interrupt that reads the pen-up bit. -/
def Event.lifts : Event → Bool
  | .tsIrq adcdat0 | .adcIrq adcdat0 _ _ => !penDown adcdat0
  | .timer _ => false

/-- Of the conversion interrupts with the pen down, one has completed a group of five, and
no interrupt since has read the pen-up bit. -/
def Touching (es : List Event) : Prop :=
  ∃ pre e post, es = pre ++ e :: post ∧ e.down = true ∧ downs pre % 5 = 4 ∧
    ∀ u ∈ post, u.lifts = false

/-- An interrupt reads the pen-up bit before the timer does. -/
def LiftedBeforeTimer (es : List Event) : Prop :=
  ∀ pre adcdat0 post, es = pre ++ .timer adcdat0 :: post → penDown adcdat0 = false → ¬ Touching pre

/-! ## What the calls have reported -/

theorem not_touching_nil : ¬ Touching [] := by
  rintro ⟨pre, e, post, hsplit, _⟩
  simp at hsplit

theorem touching_snoc (es : List Event) (e : Event) :
    Touching (es ++ [e]) ↔ e.down = true ∧ downs es % 5 = 4 ∨ Touching es ∧ e.lifts = false := by
  constructor
  · rintro ⟨pre, d, post, hsplit, hd, hmod, hpost⟩
    rcases List.eq_nil_or_concat post with rfl | ⟨post, u, rfl⟩
    · obtain ⟨rfl, hlast⟩ := List.append_inj' hsplit rfl
      obtain rfl := List.singleton_inj.mp hlast
      exact .inl ⟨hd, hmod⟩
    · rw [List.concat_eq_append] at hsplit hpost
      rw [← List.cons_append, ← List.append_assoc] at hsplit
      obtain ⟨rfl, hlast⟩ := List.append_inj' hsplit rfl
      obtain rfl := List.singleton_inj.mp hlast
      exact .inr ⟨⟨pre, d, post, rfl, hd, hmod, fun u hu => hpost u (by simp [hu])⟩, hpost e (by simp)⟩
  · rintro (⟨hd, hmod⟩ | ⟨⟨pre, d, post, rfl, hd, hmod, hpost⟩, he⟩)
    · exact ⟨es, e, [], rfl, hd, hmod, by simp⟩
    · refine ⟨pre, d, post ++ [e], by simp, hd, hmod, fun u hu => ?_⟩
      rcases List.mem_append.mp hu with hu | hu
      · exact hpost u hu
      · rw [List.mem_singleton.mp hu]
        exact he

theorem released_nil : Released [] := ⟨.inl rfl, .inl rfl⟩

/-- What is released stays so while nothing more is reported. -/
theorem released_append_of_quiet {tr out : List Obs}
    (h : out.filterMap (Obs.keyValue btnTouch) = [] ∧ out.filterMap (Obs.absValue absPressure) = []) :
    Released (tr ++ out) ↔ Released tr := by
  simp only [Released, lastTouch, lastPressure, List.filterMap_append, h.1, h.2, List.append_nil]

theorem released_append_reportUp (tr : List Obs) : Released (tr ++ reportUp) := by
  have htouch : reportUp.filterMap (Obs.keyValue btnTouch) = [0] := rfl
  have hpressure : reportUp.filterMap (Obs.absValue absPressure) = [0] := rfl
  refine ⟨.inr ?_, .inr ?_⟩
  · rw [lastTouch, List.filterMap_append, htouch, List.getLast?_concat]
  · rw [lastPressure, List.filterMap_append, hpressure, List.getLast?_concat]

theorem not_released_append_reportMean (tr : List Obs) (t : Ts) : ¬ Released (tr ++ reportMean t) := by
  have htouch : (reportMean t).filterMap (Obs.keyValue btnTouch) = [1] := rfl
  have hlast : lastTouch (tr ++ reportMean t) = some 1 := by
    rw [lastTouch, List.filterMap_append, htouch, List.getLast?_concat]
  rintro ⟨hnone | hzero, _⟩
  · cases hlast.symm.trans hnone
  · cases hlast.symm.trans hzero

theorem step_of_lifts {e : Event} (h : e.lifts = true) (t : Ts) :
    e.down = false ∧ (step e t).2 = reportUp := by
  cases e with
  | tsIrq d =>
      have hd : penDown d = false := by simpa [Event.lifts] using h
      simp [Event.down, step, mytsTsIrq, hd]
  | adcIrq pen d₀ d₁ =>
      have hd : penDown pen = false := by simpa [Event.lifts] using h
      simp [Event.down, step, mytsAdcIrq, hd]
  | timer d => cases h

/-- All other calls, but the one that reports coordinates, report nothing. -/
theorem step_quiet {e : Event} {t : Ts} (hlifts : e.lifts = false)
    (hfull : ¬ (e.down = true ∧ t.count = 4)) :
    (step e t).2.filterMap (Obs.keyValue btnTouch) = [] ∧
      (step e t).2.filterMap (Obs.absValue absPressure) = [] := by
  cases e with
  | tsIrq d =>
      have hd : penDown d = true := by simpa [Event.lifts] using hlifts
      simp [step, mytsTsIrq, hd]
  | adcIrq pen d₀ d₁ =>
      have hd : penDown pen = true := by simpa [Event.lifts] using hlifts
      have hc : t.count ≠ 4 := fun hc => hfull ⟨hd, hc⟩
      simp [step, mytsAdcIrq, hd, hc, Obs.keyValue, Obs.absValue]
  | timer d => cases hd : penDown d <;> simp [step, myTimerFunc, hd, Obs.keyValue, Obs.absValue]

/-- A touch is reported as pressed from a fifth conversion interrupt on until an interrupt
reads the pen-up bit. -/
theorem released_trace_iff (es : List Event) : Released (trace step mytsInit es) ↔ ¬ Touching es := by
  induction es using List.reverseRecOn with
  | nil => exact iff_of_true released_nil not_touching_nil
  | append_singleton es e ih =>
      rw [trace_snoc, touching_snoc]
      have hcount := count_run es
      by_cases hlifts : e.lifts = true
      · obtain ⟨hdown, hout⟩ := step_of_lifts hlifts (run step mytsInit es)
        rw [hout]
        exact iff_of_true (released_append_reportUp _) (by simp [hdown, hlifts])
      · rw [Bool.not_eq_true] at hlifts
        by_cases hfull : e.down = true ∧ downs es % 5 = 4
        · have hc : (run step mytsInit es).count = 4 := by rw [hcount, hfull.2]; rfl
          rw [(step_of_full hfull.1 hc).2.2.2]
          exact iff_of_false (not_released_append_reportMean _ _) (not_not_intro (.inl hfull))
        · have hquiet := step_quiet (t := run step mytsInit es) hlifts fun h => hfull ⟨h.1, by
            have heq := hcount.symm.trans h.2
            exact_mod_cast heq⟩
          rw [released_append_of_quiet hquiet, ih]
          simp [hfull, hlifts]

/-! ## When the driver waits -/

/-- A call that makes the controller wait for the pen is one that finds it up. -/
theorem step_adctsc {e : Event} {t : Ts} (h : (step e t).1.adctsc = 0xd3) :
    (step e t).2 = reportUp ∨
      ∃ adcdat0, e = .timer adcdat0 ∧ penDown adcdat0 = false := by
  cases e with
  | tsIrq d =>
      cases hd : penDown d with
      | false => simp [step, mytsTsIrq, hd]
      | true => simp [step, mytsTsIrq, hd, Ts.autoChange, Ts.startAdc] at h
  | timer d =>
      cases hd : penDown d with
      | false => exact .inr ⟨d, rfl, hd⟩
      | true => simp [step, myTimerFunc, hd, Ts.autoChange, Ts.startAdc] at h
  | adcIrq pen d₀ d₁ =>
      cases hd : penDown pen with
      | false => simp [step, mytsAdcIrq, hd]
      | true =>
          by_cases hc : t.count = 4
          · simp [step, mytsAdcIrq, hd, hc, Ts.waitUp] at h
          · simp [step, mytsAdcIrq, hd, hc, Ts.autoChange, Ts.startAdc] at h

theorem step_timer_up {adcdat0 : UInt32} (h : penDown adcdat0 = false) (t : Ts) :
    (step (.timer adcdat0) t).1.adctsc = 0xd3 := by
  simp [step, myTimerFunc, h, Ts.waitDown]

/-- The touch is released whenever the driver waits for the pen if and only if the timer is
never the first to read the pen-up bit after a fifth conversion interrupt. -/
theorem waitsReleased_iff (es : List Event) : WaitsReleased es ↔ LiftedBeforeTimer es := by
  constructor
  · rintro h pre adcdat0 post rfl hup htouching
    have hwait := step_timer_up hup (run step mytsInit pre)
    have hreleased := h (pre ++ [.timer adcdat0]) post (by simp) (by rw [run_snoc, hwait])
    rw [released_trace_iff, touching_snoc] at hreleased
    exact hreleased (.inr ⟨htouching, rfl⟩)
  · rintro h pre post rfl hwait
    rcases List.eq_nil_or_concat pre with rfl | ⟨pre, e, rfl⟩
    · exact released_nil
    · rw [List.concat_eq_append] at h hwait ⊢
      rw [run_snoc] at hwait
      rcases step_adctsc hwait with hout | ⟨adcdat0, rfl, hup⟩
      · rw [trace_snoc, hout]
        exact released_append_reportUp _
      · rw [released_trace_iff, touching_snoc]
        have hpre := h pre adcdat0 post (by simp) hup
        rintro (⟨hdown, _⟩ | ⟨htouching, _⟩)
        · cases hdown
        · exact hpre htouching

/-- A touch that is reported, and lifted before the timer runs. -/
def liftedEarly : List Event :=
  [.tsIrq 0, .adcIrq 0 8 8, .adcIrq 0 8 8, .adcIrq 0 8 8, .adcIrq 0 8 8, .adcIrq 0 8 8, .timer 0x8000]

/-- The driver waits for the next touch, and this one is still reported as pressed. -/
theorem liftedEarly_stuck :
    (run step mytsInit liftedEarly).adctsc = 0xd3 ∧
      lastTouch (trace step mytsInit liftedEarly) = some 1 ∧
      lastPressure (trace step mytsInit liftedEarly) = some 1 ∧ ¬ WaitsReleased liftedEarly := by
  have htouch : lastTouch (trace step mytsInit liftedEarly) = some 1 := by decide
  refine ⟨by decide, htouch, by decide, fun h => ?_⟩
  obtain ⟨hnone | hzero, _⟩ := h liftedEarly [] (by simp) (by decide)
  · cases htouch.symm.trans hnone
  · cases htouch.symm.trans hzero

end TouchScreen

end Input
