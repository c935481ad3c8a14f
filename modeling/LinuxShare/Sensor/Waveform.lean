-- SUMMARY: The frames of the sensor in time (am2305.c): every compliant waveform is received.
import LinuxShare.Lib.Timed
import LinuxShare.Sensor.Line
import Mathlib.Tactic.Linarith

/-!
# Waveforms of the sensor

A bit is a low phase and a high phase, whose length is the bit. The driver looks 30
microseconds after it has noticed the rising edge, and if the line is still high waits for
the falling one, so that it is in the low phase of the next bit whenever a bit begins.
-/

namespace Sensor

namespace Am2305

namespace Line

open Bytes Polling Poll Serial UserCopy

variable {T : Type*} [CommRing T] [LinearOrder T]

/-- Bit `i` is low from `low i` on and high from `high i` on. After the last bit there is one
more low phase. -/
structure Compliant (wave : T → Bool) (d : T) (frame : Mem) (low high : Nat → T) : Prop where
  isLow : ∀ i ≤ 40, ∀ x, low i ≤ x → x < high i → wave x = false
  isHigh : ∀ i < 40, ∀ x, high i ≤ x → x < low (i + 1) → wave x = true
  longer : ∀ i < 40, d < high i - low i
  follows : ∀ i < 40, high i < low (i + 1)
  zero : ∀ i < 40, wire frame i = false → low (i + 1) - high i ≤ 30 ∧ 30 + d < high (i + 1) - high i
  one : ∀ i < 40, wire frame i = true → 30 + d < low (i + 1) - high i

variable {wave : T → Bool} {d t u : T} {frame : Mem} {low high : Nat → T} {m : Nat}

/-- Whatever the line does: a call that comes back has returned what it returns for some bits. -/
theorem exists_bits_of_steps (size : Nat) {left : Fin 6} {a : Answer} {t' : T}
    (h : Relation.ReflTransGen (Step wave d) (am2305Read left, t) (ret a, t')) :
    ∃ bits, a = Am2305.am2305Read size bits left := by
  obtain ⟨s, hret⟩ := returns_of_steps h
  exact exists_bits_of_returns size hret

/-- The driver is in the low phase of bit `m`, if there is one. -/
def InLow (low high : Nat → T) (m : Nat) (t : T) : Prop := m < 40 → low m ≤ t ∧ t < high m

namespace Compliant

variable (h : Compliant wave d frame low high)

include h

theorem rises (hm : m < 40) (hlow : low m ≤ t) (hlt : t < high m) : Edge wave false t (high m) where
  lt := hlt
  holds := fun x hx hx' => h.isLow m hm.le x (hlow.trans hx) hx'
  ends := by simp [h.isHigh m hm (high m) (le_refl _) (h.follows m hm)]

variable [IsStrictOrderedRing T]

theorem falls (hd : 0 ≤ d) (hm : m + 1 < 40) (hhigh : high m ≤ t) (hlt : t < low (m + 1)) :
    Edge wave true t (low (m + 1)) where
  lt := hlt
  holds := fun x hx hx' => h.isHigh m (by omega) x (hhigh.trans hx) hx'
  ends := by
    have hlong := h.longer (m + 1) hm
    simp [h.isLow (m + 1) hm.le (low (m + 1)) (le_refl _) (by linarith)]

/-- After 30 microseconds a zero is over, and its low phase is not. -/
theorem sampled_zero (hm : m < 40) (hbit : wire frame m = false) (hafter : high m ≤ u)
    (hlate : u ≤ high m + d) : low (m + 1) ≤ u + 30 ∧ u + 30 < high (m + 1) := by
  obtain ⟨hshort, hnext⟩ := h.zero m hm hbit
  constructor
  · linarith
  · linarith

theorem sampled_one (hm : m < 40) (hbit : wire frame m = true) (hlate : u ≤ high m + d) :
    u + 30 < low (m + 1) := by
  have hlong := h.one m hm hbit
  linarith

/-- The sample is the bit. -/
theorem wave_sampled (hm : m < 40) (hafter : high m ≤ u) (hlate : u ≤ high m + d) :
    wave (u + 30) = wire frame m := by
  cases hbit : wire frame m with
  | false =>
      obtain ⟨hlow, hlt⟩ := h.sampled_zero hm hbit hafter hlate
      exact h.isLow (m + 1) hm _ hlow hlt
  | true =>
      refine h.isHigh m hm _ ?_ (h.sampled_one hm hbit hlate)
      linarith

/-- The wait after the sample ends in the next low phase. -/
theorem ends_whileHigh (hd : 0 ≤ d) {measureCnt i : Nat} (hi : i < 8) (hcnt : measureCnt < 5)
    (hm : m = 8 * measureCnt + i) (hafter : high m ≤ u) (hlate : u ≤ high m + d) :
    Ends wave d (fun _ t' => InLow low high (m + 1) t') (whileHigh measureCnt i, u + 30) := by
  unfold whileHigh
  split
  · -- after the last bit no more is asked for
    next hlast =>
      have hend : m + 1 = 40 := by omega
      refine ends_sample.mpr (.done fun hlt => ?_)
      omega
  · next hlast =>
      have hnext : m + 1 < 40 := by omega
      cases hbit : wire frame m with
      | false =>
          have hsample := h.wave_sampled (by omega) hafter hlate
          refine (ends_pass (by simp [hsample, hbit])).mpr (.done fun _ => ?_)
          exact h.sampled_zero (by omega) hbit hafter hlate
      | true =>
          have hhigh : high m ≤ u + 30 := by linarith
          have hedge := h.falls hd hnext hhigh (h.sampled_one (by omega) hbit hlate)
          refine (ends_notice hd hedge).mpr fun v hv hlate' _ => .done fun _ => ?_
          have hlong := h.longer (m + 1) hnext
          exact ⟨hv, by linarith⟩

/-- One bit. -/
theorem ends_readBit (hd : 0 ≤ d) {measureCnt i : Nat} (hi : i < 8) (hcnt : measureCnt < 5)
    (hm : m = 8 * measureCnt + i) (ht : InLow low high m t) (buffer : UInt8) :
    Ends wave d (fun b t' => b = pushLow buffer (wire frame m) ∧ InLow low high (m + 1) t')
      (readBit measureCnt i buffer, t) := by
  have hlt : m < 40 := by omega
  obtain ⟨hlow, hhigh⟩ := ht hlt
  rw [readBit_eq, ends_notice hd (h.rises hlt hlow hhigh)]
  intro u hafter hlate hu
  rw [ends_delay, ends_sample, Nat.cast_ofNat, h.wave_sampled hlt hafter hlate]
  exact (h.ends_whileHigh hd hi hcnt hm hafter hlate).bind fun _ t' ht' => .done ⟨rfl, ht'⟩

/-- One byte. -/
theorem ends_readSensorData (hd : 0 ≤ d) {measureCnt : Nat} (hcnt : measureCnt < 5)
    (ht : InLow low high (8 * measureCnt) t) :
    Ends wave d (fun b t' => b = frame measureCnt ∧ InLow low high (8 * (measureCnt + 1)) t')
      (readSensorData measureCnt, t) := by
  refine (Ends.loop (I := fun i buffer t' =>
    buffer = Serial.receive pushLow (fun j => wire frame (8 * measureCnt + j)) i ∧
      InLow low high (8 * measureCnt + i) t') 8 ⟨rfl, ht⟩ ?_).imp fun b t' hb => ⟨?_, hb.2⟩
  · rintro i hi buffer t' ⟨rfl, ht'⟩
    refine (h.ends_readBit hd hi hcnt rfl ht' _).imp fun b t'' hb => ⟨?_, hb.2⟩
    rw [hb.1, receive_succ]
  · rw [hb.1]
    exact readSensorData_wire frame measureCnt

/-- All bytes. -/
theorem ends_readFrame (hd : 0 ≤ d) (ht : InLow low high 0 t) :
    Ends wave d (fun dataBuf _ => dataBuf = frame.slice 0 5) (readFrame, t) := by
  refine (Ends.loop (I := fun i dataBuf t' => dataBuf = frame.slice 0 i ∧ InLow low high (8 * i) t')
    5 ⟨rfl, ht⟩ ?_).imp fun dataBuf t' hdata => hdata.1
  rintro i hi dataBuf t' ⟨rfl, ht'⟩
  refine (h.ends_readSensorData hd hi ht').bind fun b t'' hb => .done ⟨?_, hb.2⟩
  have hone : frame.slice (0 + i) 1 = [frame i] := by rw [Nat.zero_add]; rfl
  rw [hb.1, Mem.slice_add, hone]

end Compliant

variable [IsStrictOrderedRing T]

/-- A compliant waveform is received as the frame that it carries, in every run of the loop
that begins in the first low phase. -/
theorem frame_received (hd : 0 ≤ d) (h : Compliant wave d frame low high) (hlow : low 0 ≤ t)
    (hhigh : t < high 0) :
    Ends wave d (fun dataBuf _ => dataBuf = frame.slice 0 5) (readFrame, t) :=
  h.ends_readFrame hd fun _ => ⟨hlow, hhigh⟩

/-- The low phases last 50 microseconds, the high ones 26 and 70 in turn. -/
def alternating (x : ℤ) : Bool := decide ((50 ≤ x % 196 ∧ x % 196 < 76) ∨ 126 ≤ x % 196)

theorem wire_alternating (i : Nat) : wire (fun _ => 85) i = decide (i % 2 = 1) := by
  have hbits : ∀ j < 8, bit 85 (7 - j) = decide (j % 2 = 1) := by decide
  have hparity : i % 8 % 2 = i % 2 := by omega
  rw [wire, hbits (i % 8) (Nat.mod_lt i (by decide)), hparity]

theorem compliant_alternating : Compliant alternating 10 (fun _ => 85)
    (fun i => 196 * ((i / 2 : Nat) : ℤ) + 76 * ((i % 2 : Nat) : ℤ))
    (fun i => 196 * ((i / 2 : Nat) : ℤ) + 76 * ((i % 2 : Nat) : ℤ) + 50) where
  isLow := fun i _ x hx hx' => by
    have hperiod : x / 196 = (i / 2 : Nat) := by omega
    rw [alternating, decide_eq_false_iff_not]
    omega
  isHigh := fun i _ x hx hx' => by
    have hperiod : x / 196 = (i / 2 : Nat) := by omega
    rw [alternating, decide_eq_true_iff]
    omega
  longer := fun i _ => by omega
  follows := fun i _ => by omega
  zero := fun i _ hbit => by
    rw [wire_alternating, decide_eq_false_iff_not] at hbit
    omega
  one := fun i _ hbit => by
    rw [wire_alternating, decide_eq_true_iff] at hbit
    omega

theorem frame_received_alternating :
    Ends alternating 10 (fun dataBuf _ => dataBuf = [85, 85, 85, 85, 85]) (readFrame, 3) :=
  frame_received (by decide) compliant_alternating (by decide) (by decide)

/-! ## The whole read -/

/-- When the driver looks for the response of the sensor the line is low; from `e` on it is high
until the first bit comes at `l`. -/
structure Response (wave : T → Bool) (t e l : T) : Prop where
  looked : t < e
  follows : e < l
  isLow : ∀ x, t ≤ x → x < e → wave x = false
  isHigh : ∀ x, e ≤ x → x < l → wave x = true

/-- With the response and a compliant waveform the call returns what it returns for the bits
of the frame. -/
theorem read_received (size : Nat) (left : Fin 6) {e : T} (hd : 0 ≤ d)
    (h : Compliant wave d frame low high) (hresponse : Response wave (t + 2000 + 30) e (low 0)) :
    Ends wave d (fun a _ => a = Am2305.am2305Read size (some (wire frame)) left)
      (am2305Read left, t) := by
  have hlong := h.longer 0 (by decide)
  have hwave : wave (t + 2000 + 30) = false := hresponse.isLow _ (le_refl _) hresponse.looked
  have hrise : Edge wave false (t + 2000 + 30) e :=
    ⟨hresponse.looked, hresponse.isLow, by simp [hresponse.isHigh e (le_refl e) hresponse.follows]⟩
  rw [am2305Read_eq, ends_delay, ends_delay, ends_sample, Nat.cast_ofNat, Nat.cast_ofNat, hwave,
    if_neg Bool.false_ne_true, receive_eq, ends_notice hd hrise]
  intro u hafter hlate hu
  -- the high phase of the response is noticed before it is over, since the first bit's low phase lasts
  have hin : u < low 0 := by
    by_contra hnot
    have hlast := hresponse.follows
    exact hu (h.isLow 0 (by decide) u (not_lt.mp hnot) (by linarith))
  have hfall : Edge wave true u (low 0) :=
    ⟨hin, fun x hx hx' => hresponse.isHigh x (hafter.trans hx) hx', by
      simp [h.isLow 0 (by decide) (low 0) (le_refl _) (by linarith)]⟩
  rw [ends_notice hd hfall]
  intro v hv hlate' _
  refine (h.ends_readFrame hd fun _ => ⟨hv, by linarith⟩).bind ?_
  rintro dataBuf t' rfl
  exact .done (by rw [Am2305.am2305Read, map_readSensorData_wire])

end Line

end Am2305

end Sensor
