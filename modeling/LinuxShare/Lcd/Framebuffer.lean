-- SUMMARY: Where a pixel is (lcd.c, lcd_test.c): for the framebuffer layer, for the controller and in the test's mapping.
import Mathlib.Data.Nat.Bitwise
import Mathlib.Tactic.Common

/-!
# The frame buffer

The driver publishes the layout of its memory in `fix` and `var`, and tells the
controller the same layout in half-words through its registers. The test program maps
the memory and draws by what the driver has published.
-/

namespace Lcd

/-! ## The driver -/

/-- Of `fb_fix_screeninfo`, what says where pixels are. -/
structure Fix where
  smemStart : UInt32
  smemLen : UInt32
  lineLength : UInt32

/-- Of `fb_var_screeninfo`, what says how many pixels there are. -/
structure Var where
  xres : UInt32
  yres : UInt32
  bitsPerPixel : UInt32

/-- The registers that say which pixels the controller fetches, and from where. -/
structure Regs where
  lcdcon1 : UInt32
  lcdcon2 : UInt32
  lcdcon3 : UInt32
  lcdcon5 : UInt32
  lcdsaddr1 : UInt32
  lcdsaddr3 : UInt32

structure Info where
  fix : Fix
  var : Var
  regs : Regs

/-- `v<<n` -/
def shl (v n : UInt32) : UInt32 := v <<< n

/-- `smemStart` is what `dma_alloc_writecombine` yields for `smem_len` bytes. -/
def mylcdInit (smemStart : UInt32) : Info :=
  let fix : Fix := { smemStart, smemLen := 480 * 272 * 16 / 2, lineLength := 480 * 16 / 2 }
  { fix
    var := { xres := 480, yres := 272, bitsPerPixel := 16 }
    regs :=
      { lcdcon1 := shl 4 8 ||| shl 3 5 ||| shl 0xc 1 ||| shl 0 0 ||| shl 1 0
        lcdcon2 := shl 2 24 ||| shl 271 14 ||| shl 4 6 ||| shl 8 0
        lcdcon3 := shl 10 19 ||| shl 479 8 ||| shl 19 0
        lcdcon5 :=
          shl 1 11 ||| shl 0 10 ||| shl 1 9 ||| shl 1 8 ||| shl 0 3 ||| shl 1 0 ||| shl 1 3
        lcdsaddr1 := fix.smemStart >>> 1 &&& ~~~(shl 3 30)
        lcdsaddr3 := 480 * 16 / 16 } }

/-! ## The controller -/

/-- The field of `n` bits from bit `lo` on. -/
def field (r : UInt32) (lo n : Nat) : Nat := r.toNat / 2 ^ lo % 2 ^ n

namespace Regs

variable (r : Regs)

/-- `BPPMODE`, 12 for 16 bits per pixel. -/
def bppmode : Nat := field r.lcdcon1 1 4

/-- `FRM565`, 1 for five bits of red, six of green and five of blue. -/
def frm565 : Nat := field r.lcdcon5 11 1

/-- `HWSWP`, 1 where the two half-words of a word are shown in the order of their addresses. -/
def hwswp : Nat := field r.lcdcon5 0 1

/-- Lines, of which `LINEVAL` is one less. -/
def lines : Nat := field r.lcdcon2 14 10 + 1

/-- Pixels of a line, of which `HOZVAL` is one less. -/
def columns : Nat := field r.lcdcon3 8 11 + 1

/-- `PAGEWIDTH`, in half-words. -/
def pagewidth : Nat := field r.lcdsaddr3 0 11

/-- `OFFSIZE`, the half-words between the end of a line and the next one. -/
def offsize : Nat := field r.lcdsaddr3 11 11

/-- Where the controller fetches a pixel of 16 bits, counted from the base. -/
def fetchOffset (x y : Nat) : Nat := 2 * x + 2 * y * (r.pagewidth + r.offsize)

end Regs

/-! ## The test program -/

/-- `x*2+y*finfo.line_length` -/
def Fix.location (f : Fix) (x y : Nat) : Nat := x * 2 + y * f.lineLength.toNat

/-- `vinfo.xres*vinfo.yres*vinfo.bits_per_pixel/8`, the bytes that are mapped. -/
def Var.screensize (v : Var) : Nat := (v.xres * v.yres * v.bitsPerPixel / 8).toNat

/-- A pixel of the visible area. -/
def Var.Visible (v : Var) (x y : Nat) : Prop := x < v.xres.toNat ∧ y < v.yres.toNat

/-! ## Agreement -/

/-- The controller fetches pixels of 16 bits in the order of their addresses, and this one
among them. -/
structure Regs.Fetches (r : Regs) (x y : Nat) : Prop where
  bppmode : r.bppmode = 12
  frm565 : r.frm565 = 1
  hwswp : r.hwswp = 1
  column : x < r.columns
  line : y < r.lines

/-- All parties find the pixel at the same place, which is mapped and the driver's, and no
other pixel has a byte there. -/
structure Agrees (i : Info) (x y : Nat) : Prop where
  shown : i.regs.Fetches x y
  fetched : i.fix.location x y = i.regs.fetchOffset x y
  mapped : i.fix.location x y + 1 < i.var.screensize
  owned : i.fix.location x y + 1 < i.fix.smemLen.toNat
  alone : ∀ x' y', i.var.Visible x' y' → (x', y') ≠ (x, y) → ∀ b < 2, ∀ b' < 2,
    i.fix.location x' y' + b' ≠ i.fix.location x y + b

section

variable (smemStart : UInt32)

@[simp] theorem lineLength_mylcdInit : (mylcdInit smemStart).fix.lineLength.toNat = 3840 := rfl

@[simp] theorem smemLen_mylcdInit : (mylcdInit smemStart).fix.smemLen.toNat = 1044480 := rfl

@[simp] theorem screensize_mylcdInit : (mylcdInit smemStart).var.screensize = 261120 := by
  have hsize : ((480 : UInt32) * 272 * 16 / 8).toNat = 261120 := by decide
  exact hsize

@[simp] theorem visible_mylcdInit {x y : Nat} :
    (mylcdInit smemStart).var.Visible x y ↔ x < 480 ∧ y < 272 := Iff.rfl

@[simp] theorem location_mylcdInit (x y : Nat) :
    (mylcdInit smemStart).fix.location x y = 2 * x + 3840 * y := by
  rw [Fix.location, lineLength_mylcdInit, Nat.mul_comm x, Nat.mul_comm y]

@[simp] theorem fetchOffset_mylcdInit (x y : Nat) :
    (mylcdInit smemStart).regs.fetchOffset x y = 2 * x + 960 * y := by
  have hwidth : (mylcdInit smemStart).regs.pagewidth + (mylcdInit smemStart).regs.offsize = 480 := by
    have hfields : field (480 * 16 / 16) 0 11 + field (480 * 16 / 16) 11 11 = 480 := by decide
    exact hfields
  rw [Regs.fetchOffset, hwidth]
  omega

/-- What the fields of `lcdcon1` and `lcdcon5` say of a pixel. -/
theorem format_mylcdInit : (mylcdInit smemStart).regs.bppmode = 12 ∧
    (mylcdInit smemStart).regs.frm565 = 1 ∧ (mylcdInit smemStart).regs.hwswp = 1 := by
  have hfields : field (shl 4 8 ||| shl 3 5 ||| shl 0xc 1 ||| shl 0 0 ||| shl 1 0) 1 4 = 12 ∧
      field (shl 1 11 ||| shl 0 10 ||| shl 1 9 ||| shl 1 8 ||| shl 0 3 ||| shl 1 0 ||| shl 1 3) 11 1 = 1 ∧
      field (shl 1 11 ||| shl 0 10 ||| shl 1 9 ||| shl 1 8 ||| shl 0 3 ||| shl 1 0 ||| shl 1 3) 0 1 = 1 := by
    decide
  exact hfields

/-- The controller shows the visible area. -/
theorem area_mylcdInit : (mylcdInit smemStart).regs.columns = (mylcdInit smemStart).var.xres.toNat ∧
    (mylcdInit smemStart).regs.lines = (mylcdInit smemStart).var.yres.toNat := by
  have hfields : field (shl 10 19 ||| shl 479 8 ||| shl 19 0) 8 11 + 1 = 480 ∧
      field (shl 2 24 ||| shl 271 14 ||| shl 4 6 ||| shl 8 0) 14 10 + 1 = 272 := by
    decide
  exact hfields

/-- So it fetches all pixels of this area. -/
theorem fetches_mylcdInit {x y : Nat} (hv : (mylcdInit smemStart).var.Visible x y) :
    (mylcdInit smemStart).regs.Fetches x y := by
  obtain ⟨hbpp, hformat, horder⟩ := format_mylcdInit smemStart
  obtain ⟨hcolumns, hlines⟩ := area_mylcdInit smemStart
  exact ⟨hbpp, hformat, horder, hcolumns ▸ hv.1, hlines ▸ hv.2⟩

/-- The published lines are so long that the last ones are not mapped. -/
theorem mapped_iff {x y : Nat} (hv : (mylcdInit smemStart).var.Visible x y) :
    (mylcdInit smemStart).fix.location x y + 1 < (mylcdInit smemStart).var.screensize ↔ y ≤ 67 := by
  rw [visible_mylcdInit] at hv
  rw [location_mylcdInit, screensize_mylcdInit]
  omega

/-- No two pixels share a byte. -/
theorem location_ne {x y x' y' b b' : Nat} (hv : (mylcdInit smemStart).var.Visible x y)
    (hv' : (mylcdInit smemStart).var.Visible x' y') (hne : (x', y') ≠ (x, y)) (hb : b < 2) (hb' : b' < 2) :
    (mylcdInit smemStart).fix.location x' y' + b' ≠ (mylcdInit smemStart).fix.location x y + b := by
  rw [visible_mylcdInit] at hv hv'
  rw [location_mylcdInit, location_mylcdInit]
  intro heq
  apply hne
  have hy : y' = y := by omega
  have hx : x' = x := by omega
  rw [hx, hy]

end

/-- The parties agree on the pixels of the first line, and on no others. -/
theorem agrees_iff_first_line (smemStart : UInt32) {x y : Nat}
    (hv : (mylcdInit smemStart).var.Visible x y) : Agrees (mylcdInit smemStart) x y ↔ y = 0 := by
  constructor
  · intro h
    have hfetched := h.fetched
    rw [location_mylcdInit, fetchOffset_mylcdInit] at hfetched
    omega
  · rintro rfl
    obtain ⟨hx, _⟩ := (visible_mylcdInit smemStart).mp hv
    refine ⟨fetches_mylcdInit smemStart hv, ?_, ?_, ?_,
      fun x' y' hv' hne b hb b' hb' => location_ne smemStart hv hv' hne hb hb'⟩
    · rw [location_mylcdInit, fetchOffset_mylcdInit]
    · rw [location_mylcdInit, screensize_mylcdInit]
      omega
    · rw [location_mylcdInit, smemLen_mylcdInit]
      omega

/-- The last pixel of the first line. -/
theorem agrees_iff_first_line_last : Agrees (mylcdInit 0x33d00000) 479 0 :=
  (agrees_iff_first_line 0x33d00000 (by decide : (479 : Nat) < 480 ∧ (0 : Nat) < 272)).mpr rfl

/-- The first pixel that the test draws is fetched as the one at (30, 120). -/
theorem first_drawn_disagrees :
    (mylcdInit 0x33d00000).fix.location 30 30 = (mylcdInit 0x33d00000).regs.fetchOffset 30 120 ∧
      ¬ Agrees (mylcdInit 0x33d00000) 30 30 := by
  refine ⟨by decide, fun h => ?_⟩
  have hfetched := h.fetched
  revert hfetched
  decide

end Lcd
