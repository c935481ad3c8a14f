-- SUMMARY: Bytes that arrive one bit after the other and are shifted in from either end.
import Mathlib.Data.Nat.Bitwise
import Mathlib.Tactic.Common

/-!
# Serial reception

A receiver shifts each bit that it samples into a byte. When the sender starts with
the high bit the bits come in from below, when it starts with the low bit from above;
after eight bits the byte is the one that was sent.
-/

namespace Serial

/-- Bit `j` of a byte. -/
def bit (b : UInt8) (j : Nat) : Bool := b.toNat.testBit j

def pushLow (acc : UInt8) (b : Bool) : UInt8 := acc <<< 1 ||| b.toUInt8

def pushHigh (acc : UInt8) (b : Bool) : UInt8 := b.toUInt8 <<< 7 ||| acc >>> 1

/-- The byte after `n` bits. -/
def receive (push : UInt8 → Bool → UInt8) (bits : Nat → Bool) (n : Nat) : UInt8 :=
  (List.range n).foldl (fun acc i => push acc (bits i)) 0

@[simp] theorem receive_zero (push : UInt8 → Bool → UInt8) (bits : Nat → Bool) :
    receive push bits 0 = 0 := rfl

theorem receive_succ (push : UInt8 → Bool → UInt8) (bits : Nat → Bool) (n : Nat) :
    receive push bits (n + 1) = push (receive push bits n) (bits n) := by
  rw [receive, List.range_succ, List.foldl_append]
  rfl

/-- Only the bits received so far matter. -/
theorem receive_congr {push : UInt8 → Bool → UInt8} {bits bits' : Nat → Bool} {n : Nat}
    (h : ∀ i < n, bits i = bits' i) : receive push bits n = receive push bits' n := by
  induction n with
  | zero => rfl
  | succ n ih =>
      rw [receive_succ, receive_succ, ih fun i hi => h i (by omega), h n (Nat.lt_succ_self n)]

theorem toNat_pushLow (acc : UInt8) (b : Bool) :
    (pushLow acc b).toNat = 2 * acc.toNat % 256 + b.toNat := by
  have hshift : (acc <<< 1).toNat = 2 * acc.toNat % 256 := by
    rw [UInt8.toNat_shiftLeft, Nat.shiftLeft_eq]
    simp [Nat.mul_comm]
  have heven : 2 * acc.toNat % 256 = 2 ^ 1 * (acc.toNat % 128) := by omega
  have hbit : b.toUInt8.toNat = b.toNat := by
    cases b <;> rfl
  rw [pushLow, UInt8.toNat_or, hshift, hbit, heven]
  exact (Nat.two_pow_add_eq_or_of_lt (Bool.toNat_lt b) _).symm

theorem toNat_pushHigh (acc : UInt8) (b : Bool) :
    (pushHigh acc b).toNat = 128 * b.toNat + acc.toNat / 2 := by
  have hshift : (b.toUInt8 <<< 7).toNat = 2 ^ 7 * b.toNat := by
    cases b <;> rfl
  have hlow : acc.toNat / 2 < 2 ^ 7 := by
    have hacc := acc.toNat_lt
    omega
  rw [pushHigh, UInt8.toNat_or, hshift, UInt8.toNat_shiftRight, Nat.shiftRight_eq_div_pow]
  exact (Nat.two_pow_add_eq_or_of_lt hlow _).symm

/-- With the high bit first, `n` bits are the `n` highest ones. -/
theorem receive_high (b : UInt8) {n : Nat} (h : n ≤ 8) :
    (receive pushLow (fun i => bit b (7 - i)) n).toNat = b.toNat / 2 ^ (8 - n) := by
  induction n with
  | zero =>
      have hb := b.toNat_lt
      simp only [receive_zero, UInt8.toNat_zero]
      omega
  | succ n ih =>
      have hpow : 2 ^ (8 - n) = 2 ^ (8 - (n + 1)) * 2 := by
        rw [← Nat.pow_succ]
        congr 1
        omega
      have hexp : 7 - n = 8 - (n + 1) := by omega
      have hlt : b.toNat / 2 ^ (8 - (n + 1)) < 256 :=
        (Nat.div_le_self _ _).trans_lt b.toNat_lt
      rw [receive_succ, toNat_pushLow, ih (by omega), hpow, ← Nat.div_div_eq_div_mul, bit,
        Nat.toNat_testBit, hexp]
      omega

/-- With the low bit first, `n` bits are the `n` lowest ones. -/
theorem receive_low (b : UInt8) {n : Nat} (h : n ≤ 8) :
    (receive pushHigh (bit b) n).toNat = b.toNat % 2 ^ n * 2 ^ (8 - n) := by
  induction n with
  | zero => simp [Nat.mod_one]
  | succ n ih =>
      have hpow : 2 ^ (8 - n) = 2 * 2 ^ (8 - (n + 1)) := by
        rw [← Nat.pow_succ']
        congr 1
        omega
      have htop : 2 ^ n * 2 ^ (8 - (n + 1)) = 128 := by
        rw [← Nat.pow_add]
        have hexp : n + (8 - (n + 1)) = 7 := by omega
        rw [hexp]
      rw [receive_succ, toNat_pushHigh, ih (by omega), hpow, bit, Nat.toNat_testBit, Nat.mod_pow_succ,
        Nat.add_mul, Nat.mul_right_comm, htop, Nat.mul_left_comm, Nat.mul_div_cancel_left _ (by omega)]
      omega

theorem receive_high_eight (b : UInt8) : receive pushLow (fun i => bit b (7 - i)) 8 = b := by
  rw [← UInt8.toNat_inj, receive_high b (Nat.le_refl 8), Nat.sub_self, Nat.pow_zero, Nat.div_one]

theorem receive_low_eight (b : UInt8) : receive pushHigh (bit b) 8 = b := by
  have hb : b.toNat < 2 ^ 8 := b.toNat_lt
  rw [← UInt8.toNat_inj, receive_low b (Nat.le_refl 8), Nat.sub_self, Nat.pow_zero, Nat.mul_one,
    Nat.mod_eq_of_lt hb]

/-! ## Sequences of bytes, low bits first -/

/-- The bits of a byte in the order in which they are sent. -/
def bits (b : UInt8) : List Bool := (List.range 8).map (bit b)

/-- The byte whose low bit comes first. -/
def packLow (bs : List Bool) : UInt8 := UInt8.ofNat (bs.foldr (fun b n => 2 * n + b.toNat) 0)

/-- The bytes of a sequence of bits, eight bits each. -/
def packAll (bs : List Bool) : Nat → List UInt8
  | 0 => []
  | n + 1 => packLow (bs.take 8) :: packAll (bs.drop 8) n

def packBytes (bs : List Bool) : List UInt8 := packAll bs (bs.length / 8)

@[simp] theorem length_bits (b : UInt8) : (bits b).length = 8 := by simp [bits]

theorem getD_bits (b : UInt8) {i : Nat} (h : i < 8) : (bits b).getD i false = bit b i := by
  simp [bits, List.getD, h]

/-- Bits read as binary digits. -/
theorem foldr_testBit (n x : Nat) :
    ((List.range n).map x.testBit).foldr (fun b m => 2 * m + b.toNat) 0 = x % 2 ^ n := by
  induction n generalizing x with
  | zero => simp [Nat.mod_one]
  | succ n ih =>
      have hhalf : (x.testBit ∘ Nat.succ) = (x / 2).testBit := by
        funext i
        exact Nat.testBit_succ x i
      have hlow : (x.testBit 0).toNat = x % 2 := by
        rw [Nat.toNat_testBit, Nat.pow_zero, Nat.div_one]
      rw [List.range_succ_eq_map, List.map_cons, List.map_map, hhalf, List.foldr_cons, ih, hlow,
        Nat.pow_succ', Nat.mod_mul]
      omega

theorem packLow_bits (b : UInt8) : packLow (bits b) = b := by
  have hb : b.toNat < 2 ^ 8 := b.toNat_lt
  have hdigits : (bits b).foldr (fun b n => 2 * n + b.toNat) 0 = b.toNat % 2 ^ 8 :=
    foldr_testBit 8 b.toNat
  rw [packLow, hdigits, Nat.mod_eq_of_lt hb, UInt8.ofNat_toNat]

theorem length_flatMap_bits (bs : List UInt8) : (bs.flatMap bits).length = 8 * bs.length := by
  induction bs with
  | nil => rfl
  | cons b bs ih =>
      rw [List.flatMap_cons, List.length_append, length_bits, ih, List.length_cons]
      omega

/-- Every sequence of bytes is read back from its bits. -/
theorem packBytes_flatMap_bits (bs : List UInt8) : packBytes (bs.flatMap bits) = bs := by
  rw [packBytes, length_flatMap_bits, Nat.mul_div_cancel_left _ (by omega)]
  induction bs with
  | nil => rfl
  | cons b bs ih =>
      rw [List.flatMap_cons, List.length_cons, packAll, List.take_left' (length_bits b),
        List.drop_left' (length_bits b), packLow_bits, ih]

end Serial
