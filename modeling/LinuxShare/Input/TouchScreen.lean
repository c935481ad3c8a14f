-- SUMMARY: The touch screen driver (my_ts.c): its three handlers, and what they have accumulated.
import LinuxShare.Lib.Lists
import LinuxShare.Lib.Machine
import LinuxShare.Input.Report
import Mathlib.Algebra.GroupWithZero.Nat

/-!
# The touch screen

The pen interrupt, the conversion interrupt and the timer each look at the pen-up bit
of `adcdat0` and switch the mode of the controller. The conversion interrupt also
adds up four conversions, and reports their mean the fifth time.
-/

namespace Input

namespace TouchScreen

open Machine

/-- The registers that the driver writes, and its static variables. -/
structure Ts where
  adccon : UInt32
  adctsc : UInt32
  adcdly : UInt32
  xp : UInt32
  yp : UInt32
  count : Int
  deriving DecidableEq

/-- What a handler finds and does: it sees that the pen is up, adds up a conversion, or reports. -/
inductive Obs where
  | penUp
  | convert (x y : Nat)
  | report (r : Report)
  deriving DecidableEq

namespace Ts

def startAdc (t : Ts) : Ts := { t with adccon := t.adccon ||| (1 : UInt32) <<< 0 }

def waitDown (t : Ts) : Ts := { t with adctsc := 0xd3 }

def waitUp (t : Ts) : Ts := { t with adctsc := 0x1d3 }

def autoChange (t : Ts) : Ts := { t with adctsc := 0x0c }

end Ts

/-- `!(adcdat0 & (1<<15))` -/
def penDown (adcdat0 : UInt32) : Bool := adcdat0 &&& (1 : UInt32) <<< 15 == 0

/-- What the two interrupts report when the pen is up. -/
def reportUp : List Obs :=
  [.penUp, .report (.abs absPressure 0), .report (.key btnTouch 0), .report .sync]

/-- What the fifth conversion interrupt reports. -/
def reportMean (t : Ts) : List Obs :=
  [.report (.abs absX (t.xp / 4).toNat), .report (.abs absY (t.yp / 4).toNat),
    .report (.abs absPressure 1), .report (.key btnTouch 1), .report .sync]

def myTimerFunc (adcdat0 : UInt32) (t : Ts) : Ts × List Obs :=
  if penDown adcdat0 then (t.autoChange.startAdc, []) else (t.waitDown, [.penUp])

def mytsTsIrq (adcdat0 : UInt32) (t : Ts) : Ts × List Obs :=
  if penDown adcdat0 then (t.autoChange.startAdc, []) else (t.waitDown, reportUp)

/-- The pen-up bit and the conversion are read from `adcdat0` one after the other. -/
def mytsAdcIrq (pen adcdat0 adcdat1 : UInt32) (t : Ts) : Ts × List Obs :=
  if penDown pen then
    if t.count = 4 then
      ({ t with count := 0, xp := 0, yp := 0 }.waitUp, reportMean t)
    else
      let x := adcdat0 &&& 0x3ff
      let y := adcdat1 &&& 0x3ff
      ({ t with xp := t.xp + x, yp := t.yp + y, count := t.count + 1 }.autoChange.startAdc,
        [.convert x.toNat y.toNat])
  else (t.waitDown, reportUp)

/-- After `myts_init`. -/
def mytsInit : Ts :=
  Ts.waitDown
    { adccon := (1 : UInt32) <<< 14 ||| (49 : UInt32) <<< 6, adctsc := 0, adcdly := 0xffff,
      xp := 0, yp := 0, count := 0 }

/-- A call of a handler, with the values that it reads. -/
inductive Event where
  | tsIrq (adcdat0 : UInt32)
  | adcIrq (pen adcdat0 adcdat1 : UInt32)
  | timer (adcdat0 : UInt32)
  deriving DecidableEq

def step : Event → Ts → Ts × List Obs
  | .tsIrq adcdat0 => mytsTsIrq adcdat0
  | .adcIrq pen adcdat0 adcdat1 => mytsAdcIrq pen adcdat0 adcdat1
  | .timer adcdat0 => myTimerFunc adcdat0

namespace Event

/-- The handler sees the pen-up bit. -/
def SeesUp : Event → Prop
  | tsIrq adcdat0 | adcIrq adcdat0 _ _ | timer adcdat0 => penDown adcdat0 = false

/-- A conversion interrupt with the pen down. -/
def down : Event → Bool
  | adcIrq pen _ _ => penDown pen
  | _ => false

/-- The conversion that the event brings. -/
def sample : Event → Nat × Nat
  | adcIrq _ adcdat0 adcdat1 => ((adcdat0 &&& 0x3ff).toNat, (adcdat1 &&& 0x3ff).toNat)
  | _ => (0, 0)

instance : DecidablePred SeesUp := fun e => by cases e <;> exact inferInstanceAs (Decidable (_ = _))

end Event

/-- The number of conversion interrupts with the pen down. -/
def downs (es : List Event) : Nat := es.countP Event.down

/-- The conversions that those bring. -/
def samples (es : List Event) : List (Nat × Nat) := (es.filter Event.down).map Event.sample

/-- The conversions in a trace. -/
def conversions (tr : List Obs) : List (Nat × Nat) :=
  tr.filterMap fun
    | .convert x y => some (x, y)
    | _ => none

/-! ## Calls and runs -/

variable {t : Ts} {e : Event} {es : List Event}

theorem penUp_mem_step (e : Event) (t : Ts) : .penUp ∈ (step e t).2 ↔ e.SeesUp := by
  cases e with
  | tsIrq d => cases h : penDown d <;> simp [step, mytsTsIrq, Event.SeesUp, reportUp, h]
  | timer d => cases h : penDown d <;> simp [step, myTimerFunc, Event.SeesUp, h]
  | adcIrq pen d₀ d₁ =>
      by_cases hc : t.count = 4
      · cases h : penDown pen <;>
          simp [step, mytsAdcIrq, Event.SeesUp, reportUp, reportMean, h, hc]
      · cases h : penDown pen <;> simp [step, mytsAdcIrq, Event.SeesUp, reportUp, h, hc]

theorem penUp_mem_trace (t : Ts) (es : List Event) :
    .penUp ∈ trace step t es ↔ ∃ e ∈ es, e.SeesUp := by
  induction es generalizing t with
  | nil => simp
  | cons e es ih => simp [penUp_mem_step, ih]

theorem Event.SeesUp.not_down (h : e.SeesUp) : e.down = false := by
  cases e with
  | adcIrq pen d₀ d₁ => exact h
  | tsIrq d => rfl
  | timer d => rfl

@[simp] theorem conversions_append (l l' : List Obs) :
    conversions (l ++ l') = conversions l ++ conversions l' := List.filterMap_append

theorem downs_append (es fs : List Event) : downs (es ++ fs) = downs es + downs fs :=
  List.countP_append

theorem downs_cons_of_down (h : e.down = true) (es : List Event) :
    downs (e :: es) = downs es + 1 := List.countP_cons_of_pos h

theorem downs_cons_of_not_down (h : e.down = false) (es : List Event) :
    downs (e :: es) = downs es := List.countP_cons_of_neg (by simp [h])

theorem length_samples (es : List Event) : (samples es).length = downs es := by
  rw [samples, List.length_map, downs, List.countP_eq_length_filter]

/-- A call without a conversion only switches modes. -/
theorem step_of_not_down (h : e.down = false) (t : Ts) :
    (step e t).1.count = t.count ∧ (step e t).1.xp = t.xp ∧ (step e t).1.yp = t.yp ∧
      ((step e t).2 = [] ∨ (step e t).2 = [.penUp] ∨ (step e t).2 = reportUp) := by
  cases e with
  | tsIrq d =>
      cases hd : penDown d <;>
        simp [step, mytsTsIrq, hd, Ts.waitDown, Ts.autoChange, Ts.startAdc]
  | timer d =>
      cases hd : penDown d <;>
        simp [step, myTimerFunc, hd, Ts.waitDown, Ts.autoChange, Ts.startAdc]
  | adcIrq pen d₀ d₁ =>
      have hpen : penDown pen = false := h
      simp [step, mytsAdcIrq, hpen, Ts.waitDown]

/-- A conversion is added to the sums. -/
theorem step_of_down (h : e.down = true) (hc : t.count ≠ 4) :
    (step e t).1.count = t.count + 1 ∧
      (step e t).1.xp.toNat = (t.xp.toNat + e.sample.1) % 2 ^ 32 ∧
      (step e t).1.yp.toNat = (t.yp.toNat + e.sample.2) % 2 ^ 32 ∧
      (step e t).2 = [.convert e.sample.1 e.sample.2] := by
  cases e with
  | adcIrq pen d₀ d₁ =>
      have hpen : penDown pen = true := h
      simp [step, mytsAdcIrq, hpen, hc, Ts.autoChange, Ts.startAdc, Event.sample]
  | tsIrq d => cases h
  | timer d => cases h

/-- The fifth time the sums are reported and cleared. -/
theorem step_of_full (h : e.down = true) (hc : t.count = 4) :
    (step e t).1.count = 0 ∧ (step e t).1.xp = 0 ∧ (step e t).1.yp = 0 ∧
      (step e t).2 = reportMean t := by
  cases e with
  | adcIrq pen d₀ d₁ =>
      have hpen : penDown pen = true := h
      simp [step, mytsAdcIrq, hpen, hc, Ts.waitUp]
  | tsIrq d => cases h
  | timer d => cases h

/-- A call brings a conversion only with the pen down. -/
theorem length_conversions_step_le (e : Event) (t : Ts) :
    (conversions (step e t).2).length ≤ downs [e] := by
  cases h : e.down with
  | false =>
      obtain ⟨_, _, _, hout | hout | hout⟩ := step_of_not_down h t <;>
        simp [hout, conversions, reportUp]
  | true =>
      by_cases hc : t.count = 4
      · simp [(step_of_full h hc).2.2.2, conversions, reportMean]
      · simp [(step_of_down h hc).2.2.2, conversions, downs, h]

theorem length_conversions_trace_le (t : Ts) (es : List Event) :
    (conversions (trace step t es)).length ≤ downs es := by
  induction es generalizing t with
  | nil => simp [conversions]
  | cons e es ih =>
      have hadd : downs (e :: es) = downs [e] + downs es := downs_append [e] es
      rw [trace_cons, conversions_append, List.length_append, hadd]
      exact Nat.add_le_add (length_conversions_step_le e t) (ih _)

/-! ## What is accumulated -/

/-- The sums are those of the conversions `xs`. -/
structure Accumulated (t : Ts) (xs : List (Nat × Nat)) : Prop where
  count : t.count = xs.length
  length : xs.length ≤ 4
  xp : t.xp.toNat = (xs.map Prod.fst).sum
  yp : t.yp.toNat = (xs.map Prod.snd).sum
  small : ∀ p ∈ xs, p.1 ≤ 0x3ff ∧ p.2 ≤ 0x3ff

theorem accumulated_init : Accumulated mytsInit [] where
  count := rfl
  length := by simp
  xp := rfl
  yp := rfl
  small := by simp

theorem Event.sample_le (e : Event) : e.sample.1 ≤ 0x3ff ∧ e.sample.2 ≤ 0x3ff := by
  cases e with
  | adcIrq pen d₀ d₁ =>
      have hand : ∀ d : UInt32, (d &&& 0x3ff).toNat ≤ 0x3ff := by
        intro d
        rw [UInt32.toNat_and]
        exact Nat.and_le_right
      exact ⟨hand d₀, hand d₁⟩
  | tsIrq d => exact ⟨Nat.zero_le _, Nat.zero_le _⟩
  | timer d => exact ⟨Nat.zero_le _, Nat.zero_le _⟩

namespace Accumulated

variable {xs : List (Nat × Nat)}

private theorem sum_le {f : Nat × Nat → Nat} (h : ∀ p ∈ xs, f p ≤ 0x3ff) :
    (xs.map f).sum ≤ 0x3ff * xs.length := by
  induction xs with
  | nil => exact Nat.zero_le _
  | cons p xs ih =>
      obtain ⟨hp, hxs⟩ := List.forall_mem_cons.mp h
      rw [List.map_cons, List.sum_cons, List.length_cons]
      have hle := ih hxs
      omega

theorem xp_le (h : Accumulated t xs) : t.xp.toNat ≤ 0x3ff * xs.length :=
  h.xp ▸ sum_le fun p hp => (h.small p hp).1

theorem yp_le (h : Accumulated t xs) : t.yp.toNat ≤ 0x3ff * xs.length :=
  h.yp ▸ sum_le fun p hp => (h.small p hp).2

theorem step_not_down (h : Accumulated t xs) (he : e.down = false) :
    Accumulated (step e t).1 xs ∧ conversions (step e t).2 = [] := by
  obtain ⟨hcount, hxp, hyp, hout⟩ := step_of_not_down he t
  refine ⟨⟨by rw [hcount, h.count], h.length, by rw [hxp, h.xp], by rw [hyp, h.yp], h.small⟩, ?_⟩
  obtain hout | hout | hout := hout <;> simp [hout, conversions, reportUp]

theorem step_down (h : Accumulated t xs) (he : e.down = true) (hlt : xs.length < 4) :
    Accumulated (step e t).1 (xs ++ [e.sample]) ∧ conversions (step e t).2 = [e.sample] := by
  have hc : t.count ≠ 4 := by
    rw [h.count]
    omega
  obtain ⟨hcount, hxp, hyp, hout⟩ := step_of_down he hc
  have hsmall := e.sample_le
  have hxle := h.xp_le
  have hyle := h.yp_le
  refine ⟨⟨?_, ?_, ?_, ?_, ?_⟩, by simp [hout, conversions]⟩
  · rw [hcount, h.count, List.length_append]
    rfl
  · rw [List.length_append, List.length_singleton]
    omega
  · rw [hxp, Nat.mod_eq_of_lt (by omega), h.xp, List.map_append, List.sum_append]
    simp
  · rw [hyp, Nat.mod_eq_of_lt (by omega), h.yp, List.map_append, List.sum_append]
    simp
  · intro p hp
    rcases List.mem_append.mp hp with hp | hp
    · exact h.small p hp
    · rw [List.mem_singleton.mp hp]
      exact hsmall

theorem step_full (h : Accumulated t xs) (he : e.down = true) (hlen : xs.length = 4) :
    Accumulated (step e t).1 [] ∧ (step e t).2 = reportMean t := by
  have hc : t.count = 4 := by
    rw [h.count, hlen]
    rfl
  obtain ⟨hcount, hxp, hyp, hout⟩ := step_of_full he hc
  exact ⟨⟨hcount, by simp, by rw [hxp]; rfl, by rw [hyp]; rfl, by simp⟩, hout⟩

/-- Up to the fourth, each conversion interrupt adds its conversion. -/
theorem run (h : Accumulated t xs) (hle : xs.length + downs es ≤ 4) :
    Accumulated (Machine.run step t es) (xs ++ samples es) ∧
      conversions (trace step t es) = samples es := by
  induction es generalizing t xs with
  | nil => exact ⟨by simpa [samples] using h, rfl⟩
  | cons e es ih =>
      rw [run_cons, trace_cons, conversions_append]
      cases he : e.down with
      | false =>
          rw [downs_cons_of_not_down he] at hle
          have hsamples : samples (e :: es) = samples es := by simp [samples, he]
          obtain ⟨hacc, hconv⟩ := h.step_not_down he
          obtain ⟨hrun, htrace⟩ := ih hacc hle
          rw [hconv, hsamples]
          exact ⟨hrun, htrace⟩
      | true =>
          rw [downs_cons_of_down he] at hle
          have hsamples : samples (e :: es) = e.sample :: samples es := by simp [samples, he]
          obtain ⟨hacc, hconv⟩ := h.step_down he (by omega)
          obtain ⟨hrun, htrace⟩ := ih hacc (by rw [List.length_append, List.length_singleton]; omega)
          rw [hconv, hsamples, htrace]
          rw [List.append_assoc] at hrun
          exact ⟨hrun, rfl⟩

end Accumulated

/-- Since the last report: nothing yet, or a first conversion and at most three more. -/
def Open (es : List Event) : Prop :=
  es = [] ∨ ∃ e es', es = e :: es' ∧ e.down = true ∧ downs es' ≤ 3

theorem Open.downs_le (h : Open es) : downs es ≤ 4 := by
  rcases h with rfl | ⟨e, es', rfl, he, hle⟩
  · exact Nat.zero_le 4
  · rw [downs_cons_of_down he]
    omega

/-- A run consists of groups of five conversion interrupts and an open one. -/
theorem exists_open (es : List Event) :
    ∃ pre cur, es = pre ++ cur ∧ downs pre % 5 = 0 ∧ Open cur ∧
      Accumulated (run step mytsInit pre) [] := by
  induction es using List.reverseRecOn with
  | nil => exact ⟨[], [], rfl, rfl, .inl rfl, accumulated_init⟩
  | append_singleton es e ih =>
      obtain ⟨pre, cur, rfl, hmod, hopen, hacc⟩ := ih
      have hcur := (hacc.run (by simpa using hopen.downs_le)).1
      rw [List.nil_append, ← run_append] at hcur
      cases he : e.down with
      | false =>
          rcases hopen with rfl | ⟨d, cur, rfl, hd, hle⟩
          · refine ⟨pre ++ [e], [], by simp, ?_, .inl rfl, ?_⟩
            · rw [downs_append, downs_cons_of_not_down he]
              exact hmod
            · rw [run_snoc]
              exact (hacc.step_not_down he).1
          · refine ⟨pre, d :: (cur ++ [e]), by simp, hmod, .inr ⟨d, _, rfl, hd, ?_⟩, hacc⟩
            rw [downs_append, downs_cons_of_not_down he]
            exact hle
      | true =>
          by_cases hfull : downs cur = 4
          · refine ⟨pre ++ cur ++ [e], [], by simp, ?_, .inl rfl, ?_⟩
            · rw [downs_append, downs_append, downs_cons_of_down he, hfull]
              have hnil : downs [] = 0 := rfl
              omega
            · rw [run_snoc]
              exact (hcur.step_full he ((length_samples cur).trans hfull)).1
          · refine ⟨pre, cur ++ [e], by simp, hmod, .inr ?_, hacc⟩
            rcases hopen with rfl | ⟨d, cur, rfl, hd, hle⟩
            · exact ⟨e, [], rfl, he, Nat.zero_le 3⟩
            · rw [downs_cons_of_down hd] at hfull
              refine ⟨d, cur ++ [e], rfl, hd, ?_⟩
              rw [downs_append, downs_cons_of_down he]
              have hnil : downs [] = 0 := rfl
              omega

/-- `count` is the number of conversion interrupts with the pen down, modulo five. -/
theorem count_run (es : List Event) : (run step mytsInit es).count = (downs es % 5 : Nat) := by
  obtain ⟨pre, cur, rfl, hmod, hopen, hacc⟩ := exists_open es
  have hle := hopen.downs_le
  have hcur := (hacc.run (by simpa using hle)).1.count
  rw [run_append, hcur, List.nil_append, length_samples, downs_append]
  omega

end TouchScreen

end Input
