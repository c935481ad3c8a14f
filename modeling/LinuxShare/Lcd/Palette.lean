-- SUMMARY: The pseudo palette (lcd.c): which colour registers are set, and to what.
import LinuxShare.Lcd.Framebuffer
import LinuxShare.Lib.BitField

/-!
# The pseudo palette

`mylcd_setcolreg` packs the upper bits of three channels into one word as the layout of a
pixel says, and stores it as an entry of a palette of sixteen. The test of the register
number lets one number too many pass, whose word is behind the palette.
-/

namespace Lcd

open BitField

structure FbBitfield where
  offset : UInt32
  length : UInt32

/-- Of `fb_var_screeninfo`, what says where the colours of a pixel are. -/
structure Colours where
  red : FbBitfield
  green : FbBitfield
  blue : FbBitfield

/-! ## The driver -/

def chanToField (chan : UInt32) (bf : FbBitfield) : UInt32 :=
  let chan := chan &&& 0xffff
  let chan := chan >>> (16 - bf.length)
  chan <<< bf.offset

/-- `words` is the memory from `my_palette` on; the first sixteen words are the palette. -/
def mylcdSetcolreg (regno red green blue _transp : UInt32) (colours : Colours)
    (words : Nat → UInt32) : Int × (Nat → UInt32) :=
  if regno > 16 then
    (1, words)
  else
    let val := chanToField red colours.red
    let val := val ||| chanToField green colours.green
    let val := val ||| chanToField blue colours.blue
    (0, Function.update words regno.toNat val)

/-! ## What an entry is to be -/

/-- The upper `n` of the low 16 bits of a channel. -/
def topBits (chan : UInt32) (n : Nat) : Nat := chan.toNat % 2 ^ 16 / 2 ^ (16 - n)

def FbBitfield.Covers (bf : FbBitfield) (i : Nat) : Prop :=
  bf.offset.toNat ≤ i ∧ i < bf.offset.toNat + bf.length.toNat

/-- A colour of at most 16 bits, all of them in the word. -/
structure FbBitfield.Ok (bf : FbBitfield) : Prop where
  length : bf.length.toNat ≤ 16
  room : bf.offset.toNat + bf.length.toNat ≤ 32

structure Colours.Ok (colours : Colours) : Prop where
  red : colours.red.Ok
  green : colours.green.Ok
  blue : colours.blue.Ok
  redGreen : ∀ i, colours.red.Covers i → ¬ colours.green.Covers i
  redBlue : ∀ i, colours.red.Covers i → ¬ colours.blue.Covers i
  greenBlue : ∀ i, colours.green.Covers i → ¬ colours.blue.Covers i

/-- `val` holds the upper bits of the channels, and nothing else. -/
structure Packs (colours : Colours) (red green blue val : UInt32) : Prop where
  red : field val colours.red.offset.toNat colours.red.length.toNat = topBits red colours.red.length.toNat
  green : field val colours.green.offset.toNat colours.green.length.toNat =
    topBits green colours.green.length.toNat
  blue : field val colours.blue.offset.toNat colours.blue.length.toNat =
    topBits blue colours.blue.length.toNat
  rest : ∀ i, ¬ colours.red.Covers i → ¬ colours.green.Covers i → ¬ colours.blue.Covers i →
    val.toNat.testBit i = false

/-- An entry of the palette is set and nothing else, or nothing is. -/
structure Sets (colours : Colours) (regno red green blue : UInt32) (words : Nat → UInt32)
    (answer : Int × (Nat → UInt32)) : Prop where
  done : answer.1 = 0 → regno.toNat < 16 ∧ Packs colours red green blue (answer.2 regno.toNat) ∧
    ∀ i, i ≠ regno.toNat → answer.2 i = words i
  refused : answer.1 ≠ 0 → answer.2 = words

/-! ## Packing -/

variable {bf : FbBitfield} {colours : Colours}

theorem topBits_lt (chan : UInt32) {n : Nat} (h : n ≤ 16) : topBits chan n < 2 ^ n := by
  have hpow : 2 ^ (16 - n) * 2 ^ n = 2 ^ 16 := by
    rw [← Nat.pow_add, Nat.sub_add_cancel h]
  rw [topBits, Nat.div_lt_iff_lt_mul (Nat.two_pow_pos _), Nat.mul_comm, hpow]
  exact Nat.mod_lt _ (Nat.two_pow_pos 16)

/-- A channel as a piece of the word. -/
def FbBitfield.piece (bf : FbBitfield) (h : bf.Ok) (chan : UInt32) : Piece where
  offset := bf.offset.toNat
  length := bf.length.toNat
  value := topBits chan bf.length.toNat
  fits := topBits_lt chan h.length

theorem toNat_topBits (h : bf.Ok) (chan : UInt32) :
    ((chan &&& 0xffff) >>> (16 - bf.length)).toNat = topBits chan bf.length.toNat := by
  have hlength := h.length
  have hsub : (16 - bf.length).toNat = 16 - bf.length.toNat := by
    rw [UInt32.toNat_sub_of_le _ _ (UInt32.le_iff_toNat_le.mpr hlength)]
    rfl
  have hlow : (chan &&& 0xffff).toNat = chan.toNat % 2 ^ 16 := Nat.and_two_pow_sub_one_eq_mod _ 16
  rw [UInt32.toNat_shiftRight, hsub, hlow, Nat.shiftRight_eq_div_pow, topBits,
    Nat.mod_eq_of_lt (by omega : 16 - bf.length.toNat < 32)]

theorem toNat_chanToField (h : bf.Ok) (chan : UInt32) :
    (chanToField chan bf).toNat = (bf.piece h chan).placed := by
  have hroom : (bf.piece h chan).offset + (bf.piece h chan).length ≤ 32 := h.room
  rw [chanToField, UInt32.toNat_shiftLeft, toNat_topBits h]
  by_cases hoff : bf.offset.toNat < 32
  · rw [Nat.mod_eq_of_lt hoff]
    exact Nat.mod_eq_of_lt (placed_lt hroom)
  · -- a shift by 32 is a shift of nothing
    have hzero : topBits chan bf.length.toNat = 0 := value_eq_zero hroom (Nat.le_of_not_lt hoff)
    have hplaced : (bf.piece h chan).placed = 0 <<< bf.offset.toNat :=
      congrArg (· <<< bf.offset.toNat) hzero
    rw [hzero, hplaced, Nat.zero_shiftLeft, Nat.zero_shiftLeft]

/-- The channels as pieces of the word. -/
def Colours.pieces (colours : Colours) (h : colours.Ok) (red green blue : UInt32) : List Piece :=
  [colours.red.piece h.red red, colours.green.piece h.green green, colours.blue.piece h.blue blue]

theorem pairwise_pieces (h : colours.Ok) (red green blue : UInt32) :
    (colours.pieces h red green blue).Pairwise Piece.Disjoint := by
  have hredGreen : (colours.red.piece h.red red).Disjoint (colours.green.piece h.green green) :=
    h.redGreen
  have hredBlue : (colours.red.piece h.red red).Disjoint (colours.blue.piece h.blue blue) := h.redBlue
  have hgreenBlue : (colours.green.piece h.green green).Disjoint (colours.blue.piece h.blue blue) :=
    h.greenBlue
  simp [Colours.pieces, hredGreen, hredBlue, hgreenBlue]

/-- The word that is stored. -/
theorem packs_val (h : colours.Ok) (red green blue : UInt32) :
    Packs colours red green blue
      (chanToField red colours.red ||| chanToField green colours.green |||
        chanToField blue colours.blue) := by
  have hval : (chanToField red colours.red ||| chanToField green colours.green |||
      chanToField blue colours.blue).toNat = pack (colours.pieces h red green blue) := by
    rw [UInt32.toNat_or, UInt32.toNat_or, toNat_chanToField h.red, toNat_chanToField h.green,
      toNat_chanToField h.blue, Colours.pieces, pack_cons, pack_cons, pack_cons, Nat.or_assoc]
    simp [pack]
  have hpairwise := pairwise_pieces h red green blue
  have hfield : ∀ p ∈ colours.pieces h red green blue, field (chanToField red colours.red |||
      chanToField green colours.green ||| chanToField blue colours.blue) p.offset p.length = p.value := by
    intro p hp
    rw [field, hval]
    exact extract_pack hpairwise hp
  refine ⟨hfield (colours.red.piece h.red red) (by simp [Colours.pieces]),
    hfield (colours.green.piece h.green green) (by simp [Colours.pieces]),
    hfield (colours.blue.piece h.blue blue) (by simp [Colours.pieces]), fun i hred hgreen hblue => ?_⟩
  rw [hval]
  apply testBit_pack_of_not_covers
  intro p hp
  simp only [Colours.pieces, List.mem_cons, List.not_mem_nil, or_false] at hp
  rcases hp with rfl | rfl | rfl
  · exact hred
  · exact hgreen
  · exact hblue

/-! ## Setting an entry -/

theorem mylcdSetcolreg_of_le {regno : UInt32} (h : ¬ regno > 16) (red green blue transp : UInt32)
    (words : Nat → UInt32) :
    mylcdSetcolreg regno red green blue transp colours words =
      (0, Function.update words regno.toNat
        (chanToField red colours.red ||| chanToField green colours.green |||
          chanToField blue colours.blue)) :=
  if_neg h

/-- For every register, every colour, every layout and whatever the memory holds: an entry
of the palette is set, or nothing, if and only if the register is not the seventeenth. -/
theorem mylcdSetcolreg_sets_iff (h : colours.Ok) (regno red green blue transp : UInt32)
    (words : Nat → UInt32) :
    Sets colours regno red green blue words
      (mylcdSetcolreg regno red green blue transp colours words) ↔ regno ≠ 16 := by
  by_cases hbig : regno > 16
  · rw [mylcdSetcolreg, if_pos hbig]
    refine iff_of_true ⟨fun hret => absurd hret Int.one_ne_zero, fun _ => rfl⟩ ?_
    rintro rfl
    exact absurd hbig (by decide)
  · rw [mylcdSetcolreg_of_le hbig]
    constructor
    · rintro hsets rfl
      exact absurd (hsets.done rfl).1 (by decide)
    · intro hne
      have hle : regno.toNat ≤ 16 := UInt32.le_iff_toNat_le.mp (UInt32.not_lt.mp hbig)
      have hne' : regno.toNat ≠ 16 := fun heq => hne (UInt32.toNat_inj.mp heq)
      refine ⟨fun _ => ⟨by omega, ?_, fun i hi => Function.update_of_ne hi _ _⟩,
        fun hret => absurd rfl hret⟩
      dsimp only
      rw [Function.update_self]
      exact packs_val h red green blue

/-- 5 bits of red, 6 of green, 5 of blue. -/
def rgb565 : Colours where
  red := { offset := 11, length := 5 }
  green := { offset := 5, length := 6 }
  blue := { offset := 0, length := 5 }

theorem rgb565_ok : rgb565.Ok := by
  refine ⟨⟨by decide, by decide⟩, ⟨by decide, by decide⟩, ⟨by decide, by decide⟩, ?_, ?_, ?_⟩ <;>
    simp only [FbBitfield.Covers, rgb565] <;> intro i h h' <;> simp at h h' <;> omega

theorem white_set : (15 : UInt32) ≠ 16 ∧ Sets rgb565 15 0xffff 0xffff 0xffff (fun _ => 0)
    (mylcdSetcolreg 15 0xffff 0xffff 0xffff 0 rgb565 fun _ => 0) :=
  ⟨by decide, (mylcdSetcolreg_sets_iff rgb565_ok 15 0xffff 0xffff 0xffff 0 fun _ => 0).mpr (by decide)⟩

/-- The seventeenth colour register is the word behind the palette. -/
theorem written_behind : rgb565.Ok ∧
    (mylcdSetcolreg 16 0xffff 0xffff 0xffff 0 rgb565 fun _ => 0).1 = 0 ∧
    (mylcdSetcolreg 16 0xffff 0xffff 0xffff 0 rgb565 fun _ => 0).2 16 = 0xffff ∧
    ¬ Sets rgb565 16 0xffff 0xffff 0xffff (fun _ => 0)
      (mylcdSetcolreg 16 0xffff 0xffff 0xffff 0 rgb565 fun _ => 0) :=
  ⟨rgb565_ok, by decide, by decide, fun hsets => absurd (hsets.done (by decide)).1 (by decide)⟩

end Lcd
