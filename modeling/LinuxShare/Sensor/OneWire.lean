-- SUMMARY: The one-wire bus of the temperature sensor (ds18b20.c): what is written is received, what is sent is read.
import LinuxShare.Lib.Slots
import LinuxShare.Sensor.Ds18b20
import Mathlib.Algebra.Order.Ring.Rat

/-!
# Bytes on one wire

The driver writes a byte as eight slots, the low bit first. A slot is a short low phase for
a one and a long one for a zero. What it does to the pin is a list of actions here, and the
level of the line follows from these and the delays between them. Bytes are read the other
way round, one bit in each call.
-/

namespace Sensor

namespace Ds18b20

open Serial Slots

/-! ## The driver -/

/-- What the driver does to `ds_pin`, and how long it waits. -/
inductive Act where
  | cfgpin (output : Bool)
  | setpin (level : Bool)
  | udelay (us : Nat)

def ds18b20Reset : List Act :=
  [.cfgpin true, .setpin false, .udelay 600, .setpin true, .udelay 100, .cfgpin false, .udelay 100]

/-- The loop body of `ds18b20_write_data`. -/
def writeBit (tmp : Nat) : List Act :=
  (if tmp = 1 then
    [.cfgpin true, .setpin false, .udelay 5, .setpin true, .udelay 80]
  else
    [.cfgpin true, .setpin false, .udelay 80, .setpin true, .udelay 8]) ++ [.udelay 3]

def ds18b20WriteData (dat : UInt8) : List Act :=
  (List.range 8).flatMap fun i => writeBit (dat.toNat >>> i &&& 1)

/-- The bytes of a transfer, one call each. -/
def writeBytes (dats : List UInt8) : List Act := dats.flatMap ds18b20WriteData

/-- What successive calls of `ds18b20_readbyte` return; `bits` is what their calls of
`ds18b20_readbit` return, one after the other. -/
def readBytes (bits : Nat → Bool) : Nat → List UInt8
  | 0 => []
  | n + 1 => ds18b20Readbyte bits :: readBytes (fun i => bits (8 + i)) n

/-! ## The line -/

structure Pin where
  output : Bool
  latch : Bool

/-- The line is pulled up where the pin does not drive it. -/
def Pin.level (p : Pin) : Bool := !p.output || p.latch

/-- The pin after the actions. -/
def after (p : Pin) : List Act → Pin
  | [] => p
  | .cfgpin output :: as => after { p with output } as
  | .setpin level :: as => after { p with latch := level } as
  | .udelay _ :: as => after p as

/-- A reset leaves the line high. -/
theorem level_after_reset (p : Pin) : (after p ds18b20Reset).level = true := rfl

theorem after_append (p : Pin) (as as' : List Act) : after p (as ++ as') = after (after p as) as' := by
  induction as generalizing p with
  | nil => rfl
  | cons a as ih => cases a <;> exact ih _

/-- So does every transfer. -/
theorem level_after_writeBytes {p : Pin} (hp : p.level = true) (dats : List UInt8) :
    (after p (writeBytes dats)).level = true := by
  have hbit : ∀ (p : Pin) tmp, after p (writeBit tmp) = ⟨true, true⟩ := by
    intro p tmp
    rw [writeBit]
    split <;> rfl
  have hslots : ∀ (l : List Nat) (p : Pin), p.level = true →
      (after p (l.flatMap writeBit)).level = true := by
    intro l
    induction l with
    | nil => exact fun p hp => hp
    | cons tmp l ih =>
        intro p _
        rw [List.flatMap_cons, after_append, hbit]
        exact ih _ rfl
  induction dats generalizing p with
  | nil => exact hp
  | cons dat dats ih =>
      have hdat : ds18b20WriteData dat =
          ((List.range 8).map fun i => dat.toNat >>> i &&& 1).flatMap writeBit := by
        rw [List.flatMap_map]
        rfl
      rw [writeBytes, List.flatMap_cons, after_append, hdat]
      exact ih (hslots _ p hp)

variable {T : Type*} [CommRing T] [LinearOrder T]

/-- The level at time `x`, when the actions begin at time `t`. -/
def lineFrom (t : T) (p : Pin) : List Act → T → Bool
  | [], _ => p.level
  | .cfgpin output :: as, x => lineFrom t { p with output } as x
  | .setpin level :: as, x => lineFrom t { p with latch := level } as x
  | .udelay us :: as, x => if x < t + us then p.level else lineFrom (t + us) p as x

/-- The level before the actions too. -/
def line (t : T) (p : Pin) (as : List Act) (x : T) : Bool := if x < t then p.level else lineFrom t p as x

/-! ## Slots -/

variable [IsStrictOrderedRing T] {t x : T} {p : Pin}

/-- 5 microseconds low for a one, 80 for a zero, and at least 11 high. -/
def slot (b : Bool) : Slot T where
  low := if b then 5 else 80
  high := if b then 83 else 11
  low_pos := by cases b <;> norm_num
  high_pos := by cases b <;> norm_num

theorem flatMap_writeBit (dat : UInt8) :
    ds18b20WriteData dat = (bits dat).flatMap fun b => writeBit b.toNat := by
  rw [ds18b20WriteData, bits, List.flatMap_map]
  refine List.flatMap_congr fun i _ => ?_
  rw [bit, Nat.toNat_testBit, Nat.and_one_is_mod, Nat.shiftRight_eq_div_pow]

/-- A low phase and two delays behind it. -/
theorem lineFrom_phases {a b c : Nat} (as : List Act) :
    lineFrom t p
        ([.cfgpin true, .setpin false, .udelay a, .setpin true, .udelay b] ++ [.udelay c] ++ as) x =
      if x < t + a then false else line (t + a + b + c) ⟨true, true⟩ as x := by
  have hpos : (0 : T) ≤ c := Nat.cast_nonneg c
  simp only [List.cons_append, List.nil_append, lineFrom, line, Pin.level, Bool.not_true, Bool.false_or]
  split
  · rfl
  · by_cases hb : x < t + a + b
    · rw [if_pos hb, if_pos (hb.trans_le (le_add_of_nonneg_right hpos))]
    · rw [if_neg hb]

/-- A written bit is a slot, and the line is high behind it. -/
theorem line_writeBit (hp : p.level = true) (b : Bool) (as : List Act) :
    line t p (writeBit b.toNat ++ as) x =
      if x < t then true else if x < t + (slot b : Slot T).low then false
      else line ((slot b : Slot T).next t) ⟨true, true⟩ as x := by
  rw [line, hp]
  by_cases hx : x < t
  · rw [if_pos hx, if_pos hx]
  · rw [if_neg hx, if_neg hx]
    cases b with
    | false =>
        have hnext : (slot false : Slot T).next t = t + (80 : Nat) + (8 : Nat) + (3 : Nat) := by
          simp [Slot.next, slot]
          linarith
        rw [hnext]
        exact lineFrom_phases as
    | true =>
        have hnext : (slot true : Slot T).next t = t + (5 : Nat) + (80 : Nat) + (3 : Nat) := by
          simp [Slot.next, slot]
          linarith
        rw [hnext]
        exact lineFrom_phases as

theorem line_slots (t : T) (hp : p.level = true) (bs : List Bool) :
    line t p (bs.flatMap fun b => writeBit b.toNat) = wave t (bs.map slot) := by
  funext x
  induction bs generalizing t p with
  | nil =>
      rw [List.flatMap_nil, line, lineFrom, hp]
      exact ite_self _
  | cons b bs ih => rw [List.flatMap_cons, line_writeBit hp, ih _ rfl, List.map_cons, wave]

/-- The bits of a transfer in the order in which they are on the line. -/
def sent (dats : List UInt8) : List Bool := dats.flatMap bits

theorem line_writeBytes (t : T) (hp : p.level = true) (dats : List UInt8) :
    line t p (writeBytes dats) = wave t ((sent dats).map slot) := by
  have hflat : writeBytes dats = (sent dats).flatMap fun b => writeBit b.toNat := by
    rw [writeBytes, sent, List.flatMap_assoc]
    exact List.flatMap_congr fun dat _ => flatMap_writeBit dat
  rw [hflat, line_slots t hp]

/-- After a reset, and any transfers since, the line is high, and the next transfer is a wave. -/
theorem line_session (t : T) (p : Pin) (before dats : List UInt8) :
    line t (after (after p ds18b20Reset) (writeBytes before)) (writeBytes dats) =
      wave t ((sent dats).map slot) :=
  line_writeBytes t (level_after_writeBytes (level_after_reset p) before) dats

theorem encodes_slot (b : Bool) : Encodes (15 : T) 60 b (slot b) := by
  cases b <;> simp [Encodes, slot] <;> norm_num

/-! ## Reading -/

/-- Bytes whose bits arrive one in each call are read. -/
theorem readBytes_sent (dats : List UInt8) :
    readBytes (fun i => (sent dats).getD i false) dats.length = dats := by
  induction dats with
  | nil => rfl
  | cons dat dats ih =>
      have hfirst : ds18b20Readbyte (fun i => (sent (dat :: dats)).getD i false) = dat := by
        refine (receive_congr fun i hi => ?_).trans (receive_low_eight dat)
        rw [sent, List.flatMap_cons, List.getD_append _ _ _ _ (by rwa [length_bits]), getD_bits dat hi]
      have hrest : ∀ i, (sent (dat :: dats)).getD (8 + i) false = (sent dats).getD i false := by
        intro i
        rw [sent, List.flatMap_cons, List.getD_append_right _ _ _ _ (by simp), length_bits,
          Nat.add_sub_cancel_left]
        rfl
      rw [List.length_cons, readBytes, hfirst, funext hrest, ih]

/-- For every list of bytes, written from whenever the line is high: the line carries a slot
for each bit, a receiver can sample it, and whenever it does in its windows it packs the same
bytes; and bytes that are returned as these bits are read as they are. -/
theorem oneWire_agrees (t : T) (hp : p.level = true) (dats : List UInt8) :
    line t p (writeBytes dats) = wave t ((sent dats).map slot) ∧
    (∃ got, Receives (line t p (writeBytes dats)) 15 60 got) ∧
    ∀ got, Receives (line t p (writeBytes dats)) 15 60 got →
      packBytes got = dats ∧ readBytes (fun i => got.getD i false) dats.length = dats := by
  have hencodes : List.Forall₂ (Encodes (15 : T) 60) (sent dats) ((sent dats).map slot) := by
    rw [List.forall₂_map_right_iff, List.forall₂_same]
    exact fun b _ => encodes_slot b
  have hreceives := receives_wave_iff (by norm_num) (by norm_num) t hencodes
  rw [line_writeBytes t hp]
  refine ⟨rfl, ⟨sent dats, (hreceives _).mpr rfl⟩, fun got hgot => ?_⟩
  obtain rfl := (hreceives got).mp hgot
  exact ⟨packBytes_flatMap_bits dats, readBytes_sent dats⟩

/-- Skip ROM and convert. -/
theorem oneWire_agrees_convert :
    line (0 : ℚ) ⟨false, true⟩ (writeBytes [0xcc, 0x44]) = wave 0 ((sent [0xcc, 0x44]).map slot) ∧
    (∃ got, Receives (line (0 : ℚ) ⟨false, true⟩ (writeBytes [0xcc, 0x44])) 15 60 got) ∧
    ∀ got, Receives (line (0 : ℚ) ⟨false, true⟩ (writeBytes [0xcc, 0x44])) 15 60 got →
      packBytes got = [0xcc, 0x44] ∧ readBytes (fun i => got.getD i false) 2 = [0xcc, 0x44] :=
  oneWire_agrees 0 rfl [0xcc, 0x44]

end Ds18b20

end Sensor
