-- SUMMARY: The read handlers of the sensors and of the I2C driver against the contract of read.
import LinuxShare.I2c.Smbus
import LinuxShare.Sensor.Am2305
import LinuxShare.Sensor.Ds18b20

/-!
# What a read returns

Two handlers return what `copy_to_user` returns, which is the number of bytes that did
not arrive. The light sensor always returns 0, and `my_read` always 1. `my_read` puts
its byte at index 1, so a buffer of one byte is too small for it.
-/

namespace Sensor

open Am2305 Bytes Ds18b20 I2c UserCopy

/-- A successful read of either sensor returns 0 and a failed copy a positive number. -/
theorem not_readContract_left {n size : Nat} {answers : Prop} {data : List UInt8}
    {left : Fin (n + 1)} (hlength : left = 0 → 0 < data.length) :
    ¬ ReadContract (answers ∧ left = 0) size { ret := left, data } := by
  intro h
  have hok := h.ok (Int.natCast_nonneg _)
  have hcount : ((left : Nat) : Int) = data.length := h.counts hok
  have hpos := hlength hok.2
  rw [hok.2, Fin.val_zero] at hcount
  omega

theorem am2305_contract_iff {size : Nat} {bits : Option (Nat → Bool)} {left : Fin 6} :
    ReadContract (bits ≠ none ∧ left = 0) size (am2305Read size bits left) ↔ bits = none := by
  cases bits with
  | none =>
      have hret : (am2305Read size none left).ret < 0 := (by decide : (-1 : Int) < 0)
      exact ⟨fun _ => rfl, fun _ =>
        ⟨fun i hi => absurd hi (Nat.not_lt_zero i), fun hok => absurd rfl hok.1, fun _ => hret⟩⟩
  | some bits =>
      refine iff_of_false (not_readContract_left ?_) (Option.some_ne_none bits)
      rintro rfl
      simp

theorem ds18b20_contract {answers : Prop} {size : Nat} {bits : Nat → Bool} {stack : Mem}
    {left : Fin 21} :
    ¬ ReadContract (answers ∧ left = 0) size (ds18b20Read size bits stack left) := by
  refine not_readContract_left ?_
  rintro rfl
  simp

theorem bh1750_contract {w₁ w₂ : Sent} {r₁ r₂ : Received} {size : Nat} {left : Fin 3} :
    ¬ ReadContract ((w₁.Ok ∧ w₂.Ok ∧ r₁.Ok ∧ r₂.Ok) ∧ left = 0) size
      (bh1750Read w₁ w₂ r₁ r₂ left).1 := by
  intro h
  have hok := h.ok (Int.le_refl 0)
  have hcount := h.counts hok
  simp [bh1750Read, hok.2] at hcount

theorem myRead_contract_iff {bus : UInt8 → Received} {buf rest : Mem} {size : Nat}
    {leftAddr left : Fin 2} :
    ReadContract ((leftAddr = 0 ∧ (bus (myReadAddr buf rest leftAddr)).Ok) ∧ left = 0) size
        (myRead bus buf rest leftAddr left) ↔
      ((leftAddr = 0 ∧ (bus (myReadAddr buf rest leftAddr)).Ok) ∧ left = 0) ∧ 2 ≤ size := by
  rw [myRead_eq]
  constructor
  · intro h
    have hok := h.ok (by decide : (0 : Int) ≤ 1)
    refine ⟨hok, h.fits 0 ?_⟩
    rw [hok.2]
    exact Nat.one_pos
  · rintro ⟨hok, hsize⟩
    refine ⟨fun i hi => ?_, fun _ => ?_, fun hnot => absurd hok hnot⟩
    · rw [hok.2] at hi
      obtain rfl : i = 0 := Nat.lt_one_iff.mp hi
      exact hsize
    · rw [hok.2]
      rfl

/-- For every size, every answer of the device and every outcome of the copies: the
temperature sensor and the light sensor never meet the contract, the humidity sensor only
when it does not answer, and `my_read` just when nothing fails and there is room for the
address and a byte. -/
theorem contract_kept_iff (size : Nat) (answers : Prop) (bits : Nat → Bool) (stack : Mem)
    (left20 : Fin 21) (level : Option (Nat → Bool)) (left5 : Fin 6) (w₁ w₂ : Sent)
    (r₁ r₂ : Received) (left2 : Fin 3) (bus : UInt8 → Received) (buf rest : Mem)
    (leftAddr left1 : Fin 2) :
    (¬ ReadContract (answers ∧ left20 = 0) size (ds18b20Read size bits stack left20)) ∧
    (ReadContract (level ≠ none ∧ left5 = 0) size (am2305Read size level left5) ↔ level = none) ∧
    (¬ ReadContract ((w₁.Ok ∧ w₂.Ok ∧ r₁.Ok ∧ r₂.Ok) ∧ left2 = 0) size
      (bh1750Read w₁ w₂ r₁ r₂ left2).1) ∧
    (ReadContract ((leftAddr = 0 ∧ (bus (myReadAddr buf rest leftAddr)).Ok) ∧ left1 = 0) size
        (myRead bus buf rest leftAddr left1) ↔
      ((leftAddr = 0 ∧ (bus (myReadAddr buf rest leftAddr)).Ok) ∧ left1 = 0) ∧ 2 ≤ size) :=
  ⟨ds18b20_contract, am2305_contract_iff, bh1750_contract, myRead_contract_iff⟩

/-- Complete reads of five, of twenty and of two bytes return 0, a failed transfer of
`my_read` returns 1, and a read of one byte by `my_read` writes behind that byte. -/
theorem contract_broken :
    ((am2305Read 5 (some fun _ => false) 0).ret = 0 ∧
      ¬ ReadContract ((some fun _ : Nat => false) ≠ none ∧ (0 : Fin 6) = 0) 5
        (am2305Read 5 (some fun _ => false) 0)) ∧
    ((ds18b20Read 20 (fun _ => false) (fun _ => 0) 0).ret = 0 ∧
      ¬ ReadContract (True ∧ (0 : Fin 21) = 0) 20 (ds18b20Read 20 (fun _ => false) (fun _ => 0) 0)) ∧
    ((bh1750Read ⟨0, by decide⟩ ⟨0, by decide⟩ zeroByte zeroByte 0).1.ret = 0 ∧
      ¬ ReadContract True 2 (bh1750Read ⟨0, by decide⟩ ⟨0, by decide⟩ zeroByte zeroByte 0).1) ∧
    ((myRead (fun _ => eio) (fun _ => 0) (fun _ => 0) 0 0).ret = 1 ∧
      ¬ ReadContract eio.Ok 2 (myRead (fun _ => eio) (fun _ => 0) (fun _ => 0) 0 0)) ∧
    ((myRead (fun _ => zeroByte) (fun _ => 0) (fun _ => 0) 0 0).off = 1 ∧
      ¬ ReadContract zeroByte.Ok 1 (myRead (fun _ => zeroByte) (fun _ => 0) (fun _ => 0) 0 0)) := by
  refine ⟨⟨by decide, fun h => ?_⟩, ⟨by decide, fun h => ?_⟩, ⟨by decide, fun h => ?_⟩,
    ⟨by decide, fun h => ?_⟩, by decide, fun h => ?_⟩
  · exact absurd (h.counts ⟨Option.some_ne_none _, rfl⟩) (by decide)
  · exact absurd (h.counts ⟨trivial, rfl⟩) (by decide)
  · exact absurd (h.counts trivial) (by decide)
  · exact absurd (h.ok (by decide)) (by decide)
  · exact absurd (h.fits 0 (by decide)) (by decide)

end Sensor
