-- SUMMARY: The text of a temperature (ds18b20.c) against the sensor's number format.
import LinuxShare.Lib.Wrap
import LinuxShare.Sensor.Ds18b20

/-!
# The temperature that is printed

The sensor sends sixteenths of a degree as a signed number of 16 bits. The driver negates
its two bytes one after the other; the carry between them is tested for on a byte, which
cannot show it. It is missing for the negative temperatures whose low byte is zero, the
multiples of sixteen degrees, and for no other.
-/

namespace Sensor

namespace Ds18b20

open Bytes Serial

/-! ## The sensor's format -/

/-- The raw value, in sixteenths of a degree. -/
def raw (th tl : UInt8) : Int := Wrap.signed 16 (256 * th.toNat + tl.toNat)

/-- The upper five bits repeat the sign. -/
def Format (th : UInt8) : Prop := ∀ i < 8, 3 ≤ i → bit th i = bit th 7

instance (th : UInt8) : Decidable (Format th) :=
  inferInstanceAs (Decidable (∀ i < 8, 3 ≤ i → bit th i = bit th 7))

/-- The text of a whole part and a digit behind the point. -/
def textWith (negative : Bool) (whole digit : Nat) : List UInt8 :=
  (if negative then [45] else []) ++ decimal whole ++ [46] ++ decimal digit ++ [0xa1, 0xe6]

/-- What is to be printed for a raw value: the sign, the whole part and the truncated tenths. -/
def expected (r : Int) : List UInt8 :=
  textWith (decide (r < 0)) (r.natAbs / 16) (r.natAbs * 10 / 16 % 10)

/-- The carry between the bytes is not needed. -/
def NoCarry (th tl : UInt8) : Prop := positive th = true ∨ tl ≠ 0

instance (th tl : UInt8) : Decidable (NoCarry th tl) := inferInstanceAs (Decidable (_ ∨ _))

theorem Format.cases {th : UInt8} (h : Format th) : th.toNat < 8 ∨ 248 ≤ th.toNat := by
  have hth := th.toNat_lt
  have hbit : ∀ i, 3 ≤ i → i < 8 → th.toNat / 2 ^ i % 2 = th.toNat / 2 ^ 7 % 2 := by
    intro i hlo hhi
    have hi := h i hhi hlo
    simp only [bit, Nat.testBit_eq_decide_div_mod_eq, decide_eq_decide] at hi
    omega
  have h₃ := hbit 3 (by omega) (by omega)
  have h₄ := hbit 4 (by omega) (by omega)
  have h₅ := hbit 5 (by omega) (by omega)
  have h₆ := hbit 6 (by omega) (by omega)
  simp only [Nat.reducePow] at h₃ h₄ h₅ h₆
  rcases Nat.mod_two_eq_zero_or_one (th.toNat / 128) with hsign | hsign <;> rw [hsign] at h₃ h₄ h₅ h₆
  · omega
  · omega

theorem positive_iff (th : UInt8) : positive th = true ↔ th.toNat < 8 := by
  obtain ⟨⟨n⟩⟩ := th
  revert n
  decide +kernel

theorem raw_of_lt {th : UInt8} (tl : UInt8) (h : th.toNat < 8) :
    raw th tl = 256 * th.toNat + tl.toNat := by
  have htl := tl.toNat_lt
  rw [raw]
  apply Wrap.signed_eq_self (by omega) <;> omega

theorem raw_of_ge {th : UInt8} (tl : UInt8) (h : 248 ≤ th.toNat) :
    raw th tl = 256 * th.toNat + tl.toNat - 65536 := by
  have hth := th.toNat_lt
  have htl := tl.toNat_lt
  rw [raw, ← Wrap.signed_sub_two_pow, Wrap.signed_eq_self (by omega)] <;> omega

/-! ## What is printed -/

/-- The sign that stands before the digits. -/
theorem positive_eq {th : UInt8} (tl : UInt8) (h : Format th) :
    positive th = decide (¬ raw th tl < 0) := by
  have hth := th.toNat_lt
  have htl := tl.toNat_lt
  rcases h.cases with hlt | hge
  · have hr := raw_of_lt tl hlt
    rw [(positive_iff th).mpr hlt, eq_comm, decide_eq_true_iff]
    omega
  · have hr := raw_of_ge tl hge
    rw [Bool.eq_false_iff.mpr (mt (positive_iff th).mp (by omega)), eq_comm, decide_eq_false_iff_not]
    omega

theorem magnitude_of_lt {th : UInt8} (tl : UInt8) (h : th.toNat < 8) : magnitude th tl = (th, tl) := by
  rw [magnitude, if_pos ((positive_iff th).mpr h)]

theorem magnitude_of_ge {th : UInt8} (tl : UInt8) (h : 8 ≤ th.toNat) :
    magnitude th tl = (~~~th, ~~~tl + 1) := by
  have hbyte := (~~~tl + 1).toNat_lt
  have hneg : ¬ positive th = true := fun hpos => absurd ((positive_iff th).mp hpos) (by omega)
  rw [magnitude, if_neg hneg]
  simp only
  rw [if_neg (by omega)]

/-- The raw value whose magnitude the driver has behind the branch on the sign. -/
def printed (th tl : UInt8) : Int := if NoCarry th tl then raw th tl else raw th tl + 256

theorem printed_of_noCarry {th tl : UInt8} (h : NoCarry th tl) : printed th tl = raw th tl := if_pos h

/-- Without the carry the value is negative and of the next multiple of sixteen degrees. -/
theorem printed_of_carry {th tl : UInt8} (h : Format th) (hcarry : ¬ NoCarry th tl) :
    printed th tl = raw th tl + 256 ∧ raw th tl + 256 ≤ 0 := by
  have hth := th.toNat_lt
  obtain ⟨hneg, hzero⟩ := not_or.mp hcarry
  obtain rfl := not_not.mp hzero
  have hr := raw_of_ge 0 (h.cases.resolve_left (mt (positive_iff th).mpr hneg))
  simp only [UInt8.toNat_zero] at hr
  exact ⟨if_neg hcarry, by omega⟩

theorem magnitude_eq {th : UInt8} (tl : UInt8) (h : Format th) :
    256 * (magnitude th tl).1.toNat + (magnitude th tl).2.toNat = (printed th tl).natAbs := by
  have hth := th.toNat_lt
  have htl := tl.toNat_lt
  rcases h.cases with hlt | hge
  · have hr := raw_of_lt tl hlt
    rw [printed_of_noCarry (.inl ((positive_iff th).mpr hlt)), magnitude_of_lt tl hlt]
    dsimp only
    omega
  · have hr := raw_of_ge tl hge
    have hhigh : (~~~th).toNat = 255 - th.toNat := UInt8.toNat_not th
    have hlow : (~~~tl + 1).toNat = (256 - tl.toNat) % 256 := by
      rw [UInt8.toNat_add, UInt8.toNat_not, UInt8.toNat_one]
      simp only [UInt8.size]
      omega
    rw [magnitude_of_ge tl (by omega), hhigh, hlow]
    by_cases hcarry : NoCarry th tl
    · have hne : tl ≠ 0 := hcarry.resolve_left fun hpos => absurd ((positive_iff th).mp hpos) (by omega)
      have hpos : tl.toNat ≠ 0 := fun h₀ => hne (UInt8.toNat_inj.mp h₀)
      rw [printed_of_noCarry hcarry]
      omega
    · obtain ⟨hprinted, hle⟩ := printed_of_carry h hcarry
      obtain rfl := not_not.mp (not_or.mp hcarry).2
      simp only [UInt8.toNat_zero] at hr ⊢
      omega

theorem tenth_eq (n : Nat) : n * 10 / 16 % 10 = n % 16 * 10 / 16 := by
  have hdigit : n * 10 / 16 = 10 * (n / 16) + n % 16 * 10 / 16 := by omega
  have hlt : n % 16 * 10 / 16 < 10 := by omega
  omega

/-- The text is that of the magnitude, with the sign of the raw value. -/
theorem textOf_wire_eq {th : UInt8} (tl : UInt8) (h : Format th) :
    textOf (wire th tl) = textWith (decide (raw th tl < 0)) ((printed th tl).natAbs / 16)
      ((printed th tl).natAbs * 10 / 16 % 10) := by
  have hmag := magnitude_eq tl h
  have hlow := (magnitude th tl).2.toNat_lt
  have hzheng : zheng th tl = (printed th tl).natAbs / 16 := by
    rw [zheng]
    omega
  have hxiaoshu : xiaoshu th tl = (printed th tl).natAbs * 10 / 16 % 10 := by
    have hmod : (magnitude th tl).2.toNat % 16 = (printed th tl).natAbs % 16 := by omega
    rw [xiaoshu, tenth_eq, hmod]
  rw [textOf_wire, text, textWith, hzheng, hxiaoshu, positive_eq tl h]
  by_cases hr : raw th tl < 0
  · simp [hr]
  · simp [hr]

/-! ## Reading a text -/

/-- The number that decimal digits stand for. -/
def digitsValue (bs : List UInt8) : Nat := bs.foldl (fun n b => 10 * n + (b.toNat - 48)) 0

/-- The value of a text, in tenths. -/
def tenths (t : List UInt8) : Int :=
  let body := t.dropWhile (· == 45)
  let value : Nat := 10 * digitsValue (body.takeWhile (· != 46)) +
    digitsValue (((body.dropWhile (· != 46)).drop 1).take 1)
  if t.head? = some 45 then -value else value

theorem decimal_of_lt {n : Nat} (h : n < 10) : decimal n = [UInt8.ofNat (48 + n)] := by
  rw [decimal, Nat.toDigits_of_lt_base h, List.map_singleton, Nat.toNat_digitChar_of_lt_ten h]

theorem decimal_of_ge {n : Nat} (h : 10 ≤ n) :
    decimal n = decimal (n / 10) ++ [UInt8.ofNat (48 + n % 10)] := by
  have hdigit := decimal_of_lt (Nat.mod_lt n (by omega : 10 > 0))
  rw [decimal, Nat.toDigits_of_lt_base (Nat.mod_lt n (by omega))] at hdigit
  rw [decimal, Nat.toDigits_of_base_le (by omega) h, List.map_append, hdigit, decimal]

theorem digitsValue_append (bs : List UInt8) (b : UInt8) :
    digitsValue (bs ++ [b]) = 10 * digitsValue bs + (b.toNat - 48) := by
  rw [digitsValue, List.foldl_append]
  rfl

theorem toNat_digit {d : Nat} (h : d < 10) : (UInt8.ofNat (48 + d)).toNat = 48 + d := by
  rw [UInt8.toNat_ofNat']
  omega

/-- The digits of a number are read back. -/
theorem digitsValue_decimal (n : Nat) : digitsValue (decimal n) = n := by
  induction n using Nat.strong_induction_on with
  | _ n ih =>
      rcases Nat.lt_or_ge n 10 with hlt | hge
      · rw [decimal_of_lt hlt, ← List.nil_append [UInt8.ofNat (48 + n)], digitsValue_append,
          toNat_digit hlt]
        simp [digitsValue]
      · rw [decimal_of_ge hge, digitsValue_append, ih (n / 10) (by omega),
          toNat_digit (Nat.mod_lt n (by omega))]
        omega

theorem mem_decimal {n : Nat} {b : UInt8} (h : b ∈ decimal n) : 48 ≤ b.toNat := by
  induction n using Nat.strong_induction_on with
  | _ n ih =>
      rcases Nat.lt_or_ge n 10 with hlt | hge
      · rw [decimal_of_lt hlt, List.mem_singleton] at h
        rw [h, toNat_digit hlt]
        omega
      · rw [decimal_of_ge hge, List.mem_append, List.mem_singleton] at h
        rcases h with h | rfl
        · exact ih (n / 10) (by omega) h
        · rw [toNat_digit (Nat.mod_lt n (by omega))]
          omega

theorem decimal_ne_nil (n : Nat) : decimal n ≠ [] := by
  rw [Ne, decimal, List.map_eq_nil_iff]
  exact Nat.toDigits_ne_nil

theorem tenths_textWith (negative : Bool) (whole : Nat) {digit : Nat} (h : digit < 10) :
    tenths (textWith negative whole digit) =
      if negative then -(10 * whole + digit : Int) else 10 * whole + digit := by
  obtain ⟨c, cs, hcons⟩ := List.exists_cons_of_ne_nil (decimal_ne_nil whole)
  have hmem : ∀ b ∈ decimal whole, b ≠ 45 ∧ b ≠ 46 := by
    intro b hb
    have hge := mem_decimal hb
    constructor <;> rintro rfl <;> exact absurd hge (by decide)
  have hc : c ≠ 45 := (hmem c (by simp [hcons])).1
  have hnot : ∀ b ∈ decimal whole, (b != 46) = true := fun b hb => bne_iff_ne.mpr (hmem b hb).2
  have htake : (decimal digit ++ [0xa1, 0xe6]).take 1 = decimal digit := by
    rw [decimal_of_lt h]
    rfl
  -- the digits before the point are all that stands before it
  have hbody : (textWith negative whole digit).dropWhile (· == 45) =
      decimal whole ++ 46 :: decimal digit ++ [0xa1, 0xe6] := by
    cases negative <;> simp [textWith, hcons, hc]
  have hhead : (textWith negative whole digit).head? = some 45 ↔ negative = true := by
    cases negative <;> simp [textWith, hcons, hc]
  rw [tenths, hbody]
  simp only [hhead, List.append_assoc, List.takeWhile_append_of_pos hnot,
    List.dropWhile_append_of_pos hnot]
  simp [htake, digitsValue_decimal]

/-- A text of sixteenths is read as their truncated tenths. -/
theorem tenths_of_sixteenths (negative : Bool) (n : Nat) :
    tenths (textWith negative (n / 16) (n * 10 / 16 % 10)) =
      if negative then -((n * 10 / 16 : Nat) : Int) else (n * 10 / 16 : Nat) := by
  have htenth := tenth_eq n
  rw [tenths_textWith _ _ (Nat.mod_lt _ (by omega))]
  split <;> omega

/-! ## The printed temperature -/

theorem tenths_textOf {th : UInt8} (tl : UInt8) (h : Format th) :
    tenths (textOf (wire th tl)) =
      if raw th tl < 0 then -(((printed th tl).natAbs * 10 / 16 : Nat) : Int)
      else ((printed th tl).natAbs * 10 / 16 : Nat) := by
  rw [textOf_wire_eq tl h, tenths_of_sixteenths]
  simp only [decide_eq_true_iff]

/-- The values printed are ordered like the raw ones from each value on that needs no carry. -/
theorem tenths_mono {th tl th' tl' : UInt8} (h : Format th) (h' : Format th') (hcarry : NoCarry th tl)
    (hle : raw th tl ≤ raw th' tl') :
    tenths (textOf (wire th tl)) ≤ tenths (textOf (wire th' tl')) := by
  rw [tenths_textOf tl h, tenths_textOf tl' h', printed_of_noCarry hcarry]
  by_cases hcarry' : NoCarry th' tl'
  · rw [printed_of_noCarry hcarry']
    split <;> split <;> omega
  · obtain ⟨hprinted, hle'⟩ := printed_of_carry h' hcarry'
    rw [hprinted]
    split <;> split <;> omega

/-- Where the carry is missing, the next value prints as a lower one. -/
theorem not_mono_of_carry {th tl : UInt8} (h : Format th) (hcarry : ¬ NoCarry th tl) :
    raw th tl ≤ raw th 1 ∧ tenths (textOf (wire th 1)) < tenths (textOf (wire th tl)) := by
  obtain ⟨hprinted, hle⟩ := printed_of_carry h hcarry
  obtain ⟨hneg, hzero⟩ := not_or.mp hcarry
  obtain rfl := not_not.mp hzero
  have hge : 248 ≤ th.toNat := h.cases.resolve_left (mt (positive_iff th).mpr hneg)
  have hr := raw_of_ge 0 hge
  have hr' := raw_of_ge 1 hge
  simp only [UInt8.toNat_zero, UInt8.toNat_one] at hr hr'
  have hnext : NoCarry th 1 := .inr (by decide)
  rw [tenths_textOf 1 h, tenths_textOf 0 h, hprinted, printed_of_noCarry hnext]
  refine ⟨by omega, ?_⟩
  split <;> split <;> omega

/-- For every pair of bytes in the sensor's format, the text is the temperature if and only
if no carry is needed, and then it is also no higher than that of any higher value. -/
theorem text_eq_expected_iff {th : UInt8} (tl : UInt8) (h : Format th) :
    (textOf (wire th tl) = expected (raw th tl) ↔ NoCarry th tl) ∧
    ((∀ th' tl', Format th' → raw th tl ≤ raw th' tl' →
        tenths (textOf (wire th tl)) ≤ tenths (textOf (wire th' tl'))) ↔ NoCarry th tl) := by
  refine ⟨⟨fun heq => ?_, fun hcarry => ?_⟩, fun hmono => ?_,
    fun hcarry th' tl' h' => tenths_mono h h' hcarry⟩
  · by_contra hcarry
    obtain ⟨hprinted, hle⟩ := printed_of_carry h hcarry
    have htenths := congrArg tenths heq
    rw [tenths_textOf tl h, expected, tenths_of_sixteenths, hprinted] at htenths
    simp only [decide_eq_true_iff] at htenths
    split at htenths <;> omega
  · rw [textOf_wire_eq tl h, printed_of_noCarry hcarry, expected]
  · by_contra hcarry
    obtain ⟨hle, hlt⟩ := not_mono_of_carry h hcarry
    exact absurd (hmono th 1 h hle) (not_le.mpr hlt)

/-- At -25.0625 degrees no carry is needed. -/
theorem text_eq_expected_below_zero :
    Format 0xfe ∧ NoCarry 0xfe 0x6f ∧ textOf (wire 0xfe 0x6f) = expected (-401) := by
  have hformat : Format 0xfe := by decide +kernel
  have hraw : raw 0xfe 0x6f = -401 := by decide +kernel
  have hcarry : NoCarry 0xfe 0x6f := by decide
  have htext := (text_eq_expected_iff 0x6f hformat).1.mpr hcarry
  rw [hraw] at htext
  exact ⟨hformat, hcarry, htext⟩

/-- At -16 degrees the text is "-0.0", above that of -15.9375 degrees. -/
theorem carry_missing :
    Format 0xff ∧ raw 0xff 0x00 = -256 ∧ raw 0xff 0x01 = -255 ∧
      textOf (wire 0xff 0x00) = [45, 48, 46, 48, 0xa1, 0xe6] ∧
      textOf (wire 0xff 0x00) ≠ expected (raw 0xff 0x00) ∧
      tenths (textOf (wire 0xff 0x01)) < tenths (textOf (wire 0xff 0x00)) := by
  decide +kernel

end Ds18b20

end Sensor
