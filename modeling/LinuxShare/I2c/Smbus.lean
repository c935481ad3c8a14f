-- SUMMARY: Failed transfers on the I2C bus (i2c_driver.c, i2c_user-space.c, bh1750_drv.c, ov9650_drv.c): who takes them for data.
import LinuxShare.Lib.UserCopy

/-!
# SMBus transfers

A transfer returns an `int`: a negative error code, or the byte that has been read
(0 for a write). Whether an error survives until it is tested depends on the type in
which the result is kept.
-/

namespace I2c

open Bytes UserCopy

/-- The result of a read: a byte or a negative error code. -/
structure Received where
  value : BitVec 32
  valid : value.toInt < 0 ∨ value.toNat < 256

/-- The result of a write: 0 or a negative error code. -/
structure Sent where
  value : BitVec 32
  valid : value.toInt < 0 ∨ value = 0

def Received.Ok (r : Received) : Prop := 0 ≤ r.value.toInt

def Sent.Ok (w : Sent) : Prop := 0 ≤ w.value.toInt

instance : DecidablePred Received.Ok := fun _ => inferInstanceAs (Decidable (_ ≤ _))

instance : DecidablePred Sent.Ok := fun _ => inferInstanceAs (Decidable (_ ≤ _))

/-- Conversion to `unsigned char`, or to a `char`. -/
def toByte (x : BitVec 32) : UInt8 := UInt8.ofBitVec (x.setWidth 8)

/-! ## The four readers -/

/-- The address in `my_read`; when it cannot be copied, `addr` is `rest`. -/
def myReadAddr (buf rest : Mem) (left : Fin 2) : UInt8 := copyFromUser 1 buf rest left 0

/-- `data` is an `unsigned char`. The byte goes to `buf[1]`. -/
def myRead (bus : UInt8 → Received) (buf rest : Mem) (leftAddr left : Fin 2) : Answer :=
  let data := toByte (bus (myReadAddr buf rest leftAddr)).value
  if (data.toNat : Int) < 0 then
    { ret := -1, data := [] }
  else
    { ret := 1, data := copyToUser [data] left, off := 1 }

/-- `i2c_smbus_read_byte_data` of the header for user programs. `access` is the result of
the `ioctl`, and `byte` what it leaves in `data.byte`. -/
def i2cSmbusReadByteData (access : Int) (byte : UInt8) : BitVec 32 :=
  if access ≠ 0 then -1 else 0x0ff &&& byte.toBitVec.setWidth 32

inductive Printed where
  | readError
  | hasRead (data addr : UInt8)
  deriving DecidableEq

/-- The `r` branch of `main`, where `data` is an `unsigned char` as well. -/
def userRead (access : Int) (byte addr : UInt8) : Printed :=
  let data := toByte (i2cSmbusReadByteData access byte)
  if (data.toNat : Int) < 0 then .readError else .hasRead data addr

inductive Message where
  | i2cFailedWrite
  | readFailed
  | bytes (high low : BitVec 32)
  deriving DecidableEq

/-- The result with what is logged. The second write overwrites the result of the first. -/
def bh1750Read (_w₁ w₂ : Sent) (r₁ r₂ : Received) (left : Fin 3) : Answer × List Message :=
  ({ ret := 0, data := copyToUser [toByte r₁.value, toByte r₂.value] left },
    (if w₂.value ≠ 0 then [.i2cFailedWrite] else []) ++
      (if r₁.value.toInt < 0 then [.readFailed] else []) ++ [.bytes r₁.value r₂.value])

/-- What a probe leaves: its result, and whether it has registered the device. -/
structure Probe where
  ret : Int
  registered : Bool
  deriving DecidableEq

/-- Both reads are combined in one `int` before the test. -/
def ov9650Probe (r₁ r₂ : Received) : Probe :=
  let data := r₁.value <<< 8 ||| r₂.value
  if data.toInt < 0 then { ret := -1, registered := false } else { ret := 0, registered := true }

/-! ## What each of them should do -/

/-- When every transfer has succeeded the function accepts, and otherwise it refuses. -/
def TakesNoFailure (ok accepts refuses : Prop) : Prop := (ok → accepts) ∧ (¬ ok → refuses)

/-- The byte that has been read, if the read has succeeded. -/
def Received.byte (r : Received) : UInt8 := UInt8.ofNat r.value.toNat

/-- `my_read` hands over the byte it has read, or leaves the buffer alone. -/
def MyReadSound (bus : UInt8 → Received) (buf rest : Mem) (leftAddr left : Fin 2) : Prop :=
  let r := bus (myReadAddr buf rest leftAddr)
  let answer := myRead bus buf rest leftAddr left
  TakesNoFailure r.Ok (0 ≤ answer.ret ∧ answer.data = copyToUser [r.byte] left)
    (answer.ret < 0 ∧ answer.data = [])

def UserReadSound (access : Int) (byte addr : UInt8) : Prop :=
  TakesNoFailure (access = 0) (userRead access byte addr = .hasRead byte addr)
    (userRead access byte addr = .readError)

def Bh1750ReadSound (w₁ w₂ : Sent) (r₁ r₂ : Received) (left : Fin 3) : Prop :=
  let answer := (bh1750Read w₁ w₂ r₁ r₂ left).1
  TakesNoFailure (w₁.Ok ∧ w₂.Ok ∧ r₁.Ok ∧ r₂.Ok)
    (0 ≤ answer.ret ∧ answer.data = copyToUser [r₁.byte, r₂.byte] left)
    (answer.ret < 0 ∧ answer.data = [])

def Ov9650ProbeSound (r₁ r₂ : Received) : Prop :=
  TakesNoFailure (r₁.Ok ∧ r₂.Ok)
    (ov9650Probe r₁ r₂ = { ret := 0, registered := true })
    (∃ ret, ret < 0 ∧ ov9650Probe r₁ r₂ = { ret, registered := false })

/-! ## What becomes of an error -/

/-- A function that accepts in every case takes no failure for data just when there is none. -/
theorem takesNoFailure_iff {ok accepts refuses : Prop} (haccepts : ok → accepts)
    (hrefuses : ¬ refuses) : TakesNoFailure ok accepts refuses ↔ ok :=
  ⟨fun h => not_not.mp fun hnot => hrefuses (h.2 hnot), fun hok => ⟨haccepts, fun hnot => absurd hok hnot⟩⟩

theorem toByte_value (r : Received) : toByte r.value = r.byte := by
  rw [← UInt8.toNat_inj, toByte, Received.byte, UInt8.toNat_ofBitVec, BitVec.toNat_setWidth,
    UInt8.toNat_ofNat']

/-- The test of an `unsigned char` never fails. -/
theorem myRead_eq (bus : UInt8 → Received) (buf rest : Mem) (leftAddr left : Fin 2) :
    myRead bus buf rest leftAddr left =
      { ret := 1, data := copyToUser [(bus (myReadAddr buf rest leftAddr)).byte] left, off := 1 } := by
  rw [myRead, toByte_value]
  exact if_neg (by omega)

theorem userRead_eq (access : Int) (byte addr : UInt8) :
    userRead access byte addr = .hasRead (toByte (i2cSmbusReadByteData access byte)) addr := by
  rw [userRead]
  exact if_neg (by omega)

theorem toByte_i2cSmbusReadByteData (byte : UInt8) :
    toByte (i2cSmbusReadByteData 0 byte) = byte := by
  have hbyte : byte.toNat < 2 ^ 8 := byte.toNat_lt
  have hwide : (byte.toBitVec.setWidth 32).toNat = byte.toNat := by
    rw [BitVec.toNat_setWidth, UInt8.toNat_toBitVec]
    omega
  have hmask : 2 ^ 8 - 1 &&& byte.toNat = byte.toNat := by
    rw [Nat.and_comm, Nat.and_two_pow_sub_one_eq_mod, Nat.mod_eq_of_lt hbyte]
  rw [← UInt8.toNat_inj, toByte, i2cSmbusReadByteData, if_neg (not_not.mpr rfl),
    UInt8.toNat_ofBitVec, BitVec.toNat_setWidth, BitVec.toNat_and, hwide]
  exact (congrArg (· % 2 ^ 8) hmask).trans (Nat.mod_eq_of_lt hbyte)

theorem ok_iff_msb (r : Received) : r.Ok ↔ r.value.msb = false := by
  rw [Received.Ok, BitVec.msb_eq_toInt, decide_eq_false_iff_not, Int.not_lt]

/-- A byte has no bit 23. -/
theorem getLsbD_of_ok {r : Received} (h : r.Ok) : r.value.getLsbD 23 = false := by
  have hbyte : r.value.toNat < 256 := r.valid.resolve_left (Int.not_lt.mpr h)
  exact Nat.testBit_lt_two_pow (hbyte.trans (by decide))

/-- The sign of the combined value is that of the second result and bit 23 of the first. -/
theorem combined_msb (r₁ r₂ : Received) :
    (r₁.value <<< 8 ||| r₂.value).msb = (r₁.value.getLsbD 23 || r₂.value.msb) := by
  rw [BitVec.msb_or, BitVec.msb_shiftLeft, BitVec.getMsbD_eq_getLsbD]
  rfl

theorem ov9650Probe_eq (r₁ r₂ : Received) :
    ov9650Probe r₁ r₂ =
      if r₁.value.getLsbD 23 = true ∨ ¬ r₂.Ok then { ret := -1, registered := false }
      else { ret := 0, registered := true } := by
  have hsign : (r₁.value <<< 8 ||| r₂.value).toInt < 0 ↔
      r₁.value.getLsbD 23 = true ∨ ¬ r₂.Ok := by
    rw [ok_iff_msb, Bool.not_eq_false, ← Bool.or_eq_true, ← combined_msb, BitVec.msb_eq_toInt,
      decide_eq_true_iff]
  simp only [ov9650Probe, hsign]

/-! ## Which failures are reported -/

/-- Errors below the first 23 bits survive in the first of two combined results. -/
theorem ov9650ProbeSound_iff (r₁ r₂ : Received) :
    Ov9650ProbeSound r₁ r₂ ↔ (¬ r₁.Ok → ¬ r₂.Ok ∨ r₁.value.getLsbD 23 = true) := by
  rw [Ov9650ProbeSound, ov9650Probe_eq]
  constructor
  · intro h hfailed
    obtain ⟨ret, -, hprobe⟩ := h.2 fun hok => hfailed hok.1
    split at hprobe
    · next hseen => exact hseen.symm
    · simp at hprobe
  · intro h
    refine ⟨fun hok => ?_, fun hfailed => ?_⟩
    · rw [if_neg]
      rintro (hbit | h₂)
      · rw [getLsbD_of_ok hok.1] at hbit
        cases hbit
      · exact h₂ hok.2
    · rw [if_pos]
      · exact ⟨-1, by decide, rfl⟩
      · by_cases h₂ : r₂.Ok
        · exact .inl ((h fun h₁ => hfailed ⟨h₁, h₂⟩).resolve_left (not_not.mpr h₂))
        · exact .inr h₂

theorem myReadSound_iff (bus : UInt8 → Received) (buf rest : Mem) (leftAddr left : Fin 2) :
    MyReadSound bus buf rest leftAddr left ↔ (bus (myReadAddr buf rest leftAddr)).Ok := by
  simp only [MyReadSound, myRead_eq]
  exact takesNoFailure_iff (fun _ => ⟨by decide, trivial⟩) fun h => absurd h.1 (by decide)

theorem userReadSound_iff (access : Int) (byte addr : UInt8) :
    UserReadSound access byte addr ↔ access = 0 := by
  refine takesNoFailure_iff (fun hok => ?_) fun h => ?_
  · rw [userRead_eq, hok, toByte_i2cSmbusReadByteData]
  · rw [userRead_eq] at h
    cases h

theorem bh1750ReadSound_iff (w₁ w₂ : Sent) (r₁ r₂ : Received) (left : Fin 3) :
    Bh1750ReadSound w₁ w₂ r₁ r₂ left ↔ w₁.Ok ∧ w₂.Ok ∧ r₁.Ok ∧ r₂.Ok := by
  simp only [Bh1750ReadSound, bh1750Read, toByte_value]
  exact takesNoFailure_iff (fun _ => ⟨Int.le_refl _, trivial⟩) fun h => absurd h.1 (by decide)

/-- For every outcome of the transfers: the two readers that keep the result in a byte, and
the light sensor, report a failure on none; the camera reports all but one kind. -/
theorem failures_reported_iff (bus : UInt8 → Received) (buf rest : Mem) (leftAddr left : Fin 2)
    (access : Int) (byte addr : UInt8) (w₁ w₂ : Sent) (r₁ r₂ : Received) (left2 : Fin 3) :
    (MyReadSound bus buf rest leftAddr left ↔ (bus (myReadAddr buf rest leftAddr)).Ok) ∧
    (UserReadSound access byte addr ↔ access = 0) ∧
    (Bh1750ReadSound w₁ w₂ r₁ r₂ left2 ↔ w₁.Ok ∧ w₂.Ok ∧ r₁.Ok ∧ r₂.Ok) ∧
    (Ov9650ProbeSound r₁ r₂ ↔ (¬ r₁.Ok → ¬ r₂.Ok ∨ r₁.value.getLsbD 23 = true)) :=
  ⟨myReadSound_iff bus buf rest leftAddr left, userReadSound_iff access byte addr,
    bh1750ReadSound_iff w₁ w₂ r₁ r₂ left2, ov9650ProbeSound_iff r₁ r₂⟩

/-- `-EIO`, which is -5. -/
def eio : Received := ⟨-5, by decide⟩

/-- An error code far below those that the kernel uses. -/
def farError : Received := ⟨0x80000000, by decide⟩

def zeroByte : Received := ⟨0, by decide⟩

/-- `my_read` and the user program take -5 for the byte 251, the light sensor delivers it,
and the camera is registered after a far error. -/
theorem errors_accepted :
    (myRead (fun _ => eio) (fun _ => 0) (fun _ => 0) 0 0).data = [251] ∧
    ¬ MyReadSound (fun _ => eio) (fun _ => 0) (fun _ => 0) 0 0 ∧
    ¬ UserReadSound (-1) 0 7 ∧
    ¬ Bh1750ReadSound ⟨0, by decide⟩ ⟨0, by decide⟩ eio zeroByte 0 ∧
    ¬ Ov9650ProbeSound farError zeroByte := by
  refine ⟨by decide, fun h => ?_, fun h => ?_, fun h => ?_, fun h => ?_⟩
  · exact absurd (h.2 (by decide)).1 (by decide)
  · exact absurd (h.2 (by decide)) (by decide)
  · exact absurd (h.2 (by decide)).1 (by decide)
  · have hregistered : ov9650Probe farError zeroByte = { ret := 0, registered := true } := by decide
    obtain ⟨ret, -, hprobe⟩ := h.2 (by decide)
    rw [hregistered] at hprobe
    cases hprobe

end I2c
