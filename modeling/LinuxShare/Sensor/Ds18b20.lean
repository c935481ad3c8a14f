-- SUMMARY: The temperature sensor (ds18b20.c): what its read handler copies out besides the text.
import LinuxShare.Lib.Serial
import LinuxShare.Lib.UserCopy
import Mathlib.Data.Nat.Log

/-!
# Temperature as a text

The driver formats the temperature into a buffer of 20 bytes on its stack and copies
the whole buffer to the user. The text is shorter; behind it and its terminator the
user gets what was on the stack before.
-/

namespace Sensor

namespace Ds18b20

open Bytes Serial UserCopy

/-! ## The driver -/

/-- `bits` are the levels that `ds18b20_readbit` samples. -/
def ds18b20Readbyte (bits : Nat → Bool) : UInt8 := receive pushHigh bits 8

/-- `fuhao = 1`. -/
def positive (th : UInt8) : Bool := th &&& 0xf8 == 0

/-- `th` and `tl` after the branch on the sign. An `unsigned char` is never above 255. -/
def magnitude (th tl : UInt8) : UInt8 × UInt8 :=
  if positive th then
    (th, tl)
  else
    let tltemp := ~~~tl + 1
    (if tltemp.toNat > 255 then ~~~th + 1 else ~~~th, tltemp)

def zheng (th tl : UInt8) : Nat := (magnitude th tl).1.toNat * 16 + (magnitude th tl).2.toNat / 16

def xiaoshu (th tl : UInt8) : Nat := (magnitude th tl).2.toNat % 16 * 10 / 16

/-- `%d` -/
def decimal (n : Nat) : List UInt8 := (Nat.toDigits 10 n).map fun ch => UInt8.ofNat ch.toNat

/-- What `sprintf` writes before the terminator. The last two bytes are the degree sign of
the source's encoding. -/
def text (th tl : UInt8) : List UInt8 :=
  (if positive th then [] else [45]) ++ decimal (zheng th tl) ++ [46] ++ decimal (xiaoshu th tl) ++
    [0xa1, 0xe6]

/-- The text for the bits on the wire. -/
def textOf (bits : Nat → Bool) : List UInt8 :=
  let tl := ds18b20Readbyte bits
  let th := ds18b20Readbyte fun i => bits (8 + i)
  text th tl

/-- `stack` is what `tmp_buf` holds before the `sprintf`. The size is not looked at. -/
def ds18b20Read (_size : Nat) (bits : Nat → Bool) (stack : Mem) (left : Fin 21) : Answer :=
  let tmpBuf := stack.write 0 (textOf bits ++ [0])
  { ret := left, data := copyToUser (tmpBuf.slice 0 20) left }

/-- The bits of the two bytes in the order in which the sensor sends them. -/
def wire (th tl : UInt8) : Nat → Bool := fun i => if i < 8 then bit tl i else bit th (i - 8)

/-- The text is that of the bytes that are sent. -/
theorem textOf_wire (th tl : UInt8) : textOf (wire th tl) = text th tl := by
  have htl : ds18b20Readbyte (wire th tl) = tl :=
    (receive_congr fun _ hi => if_pos hi).trans (receive_low_eight tl)
  have hth : ds18b20Readbyte (fun i => wire th tl (8 + i)) = th := by
    refine (receive_congr fun i _ => ?_).trans (receive_low_eight th)
    rw [wire, if_neg (by omega), Nat.add_sub_cancel_left]
  rw [textOf, htl, hth]

/-! ## How much of the buffer is the text -/

theorem length_decimal (n : Nat) : (decimal n).length = Nat.log 10 n + 1 := by
  rw [decimal, List.length_map]
  apply Nat.le_antisymm
  · rw [Nat.length_toDigits_le_iff (by omega) (Nat.succ_pos _)]
    exact Nat.lt_pow_succ_log_self (by omega) n
  · by_contra hlt
    have hpos : 0 < (Nat.toDigits 10 n).length := Nat.length_toDigits_pos
    have hpow := (Nat.length_toDigits_le_iff (by omega) hpos).mp (Nat.le_refl _)
    have hlog := Nat.log_lt_of_lt_pow' (by omega) hpow
    omega

theorem xiaoshu_lt (th tl : UInt8) : xiaoshu th tl < 10 := by
  simp only [xiaoshu]
  omega

theorem zheng_lt (th tl : UInt8) : zheng th tl < 4096 := by
  have hth := (magnitude th tl).1.toNat_lt
  have htl := (magnitude th tl).2.toNat_lt
  simp only [zheng]
  omega

/-- The size of a text with its terminator: the digits before the point, a sign if there is
one, and five more bytes. -/
def textSize (th tl : UInt8) : Nat :=
  (if positive th then 0 else 1) + (Nat.log 10 (zheng th tl) + 1) + 5

theorem length_text (th tl : UInt8) : (text th tl ++ [0]).length = textSize th tl := by
  have hlog : Nat.log 10 (xiaoshu th tl) = 0 := Nat.log_of_lt (xiaoshu_lt th tl)
  simp only [text, textSize, List.length_append, length_decimal, List.length_cons, List.length_nil,
    hlog]
  split <;> simp

/-- At least half of the buffer is not the text. -/
theorem textSize_le (th tl : UInt8) : textSize th tl ≤ 10 := by
  have hlog : Nat.log 10 (zheng th tl) ≤ 3 :=
    Nat.lt_succ_iff.mp (Nat.log_lt_of_lt_pow' (by omega) ((zheng_lt th tl).trans (by omega)))
  rw [textSize]
  split <;> omega

/-! ## What depends on the stack -/

variable {size : Nat} {bits : Nat → Bool} {left : Fin 21}

/-- The copy stops no later than behind the terminator. -/
def CopiesText (bits : Nat → Bool) (left : Fin 21) : Prop :=
  20 ≤ left + textSize (ds18b20Readbyte fun i => bits (8 + i)) (ds18b20Readbyte bits)

theorem ds18b20Read_data (stack : Mem) :
    (ds18b20Read size bits stack left).data =
      (stack.write 0 (textOf bits ++ [0])).slice 0 (20 - left) := by
  rw [ds18b20Read, copyToUser, Mem.length_slice, Mem.take_slice _ _ (Nat.sub_le _ _)]

/-- For every size, every temperature and every outcome of the copy, what the user gets is
the same for all contents of the stack if and only if the copy stops behind the text. -/
theorem stack_independent_iff (size : Nat) (bits : Nat → Bool) (left : Fin 21) :
    (∀ stack stack', (ds18b20Read size bits stack left).data = (ds18b20Read size bits stack' left).data) ↔
      CopiesText bits left := by
  simp only [ds18b20Read_data]
  have hlen : (textOf bits ++ [0]).length =
      textSize (ds18b20Readbyte fun i => bits (8 + i)) (ds18b20Readbyte bits) := length_text _ _
  constructor
  · intro h
    -- two stacks that differ everywhere
    have hagree := Mem.agree_of_slice_eq (h (fun _ => 0) (fun _ => 1))
    by_contra hcopies
    rw [CopiesText, ← hlen] at hcopies
    have hat := hagree (textOf bits ++ [0]).length (Nat.zero_le _) (by omega)
    rw [Mem.write_of_ge (by omega), Mem.write_of_ge (by omega)] at hat
    exact absurd hat (by decide)
  · intro hcopies stack stack'
    rw [CopiesText, ← hlen] at hcopies
    refine Mem.slice_congr fun i hlo hhi => ?_
    rw [Mem.write_of_mem hlo (by omega), Mem.write_of_mem hlo (by omega)]

/-- A copy that is complete always hands out a part of the stack. -/
theorem not_copiesText_zero : ¬ CopiesText bits 0 := by
  have hsize := textSize_le (ds18b20Readbyte fun i => bits (8 + i)) (ds18b20Readbyte bits)
  rw [CopiesText, Fin.val_zero]
  omega

/-- At 25.0 degrees the user gets thirteen bytes of the stack behind the text. -/
theorem stack_copied :
    ((ds18b20Read 20 (wire 0x01 0x90) (fun _ => 0xaa) 0).data =
      [50, 53, 46, 48, 0xa1, 0xe6, 0] ++ List.replicate 13 0xaa) ∧
    (ds18b20Read 20 (wire 0x01 0x90) (fun _ => 0) 0).data ≠
      (ds18b20Read 20 (wire 0x01 0x90) (fun _ => 0xaa) 0).data := by
  decide

end Ds18b20

end Sensor
