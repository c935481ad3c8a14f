-- SUMMARY: The NAND controller (nandflash.c): which command and address cycles the chip sees.
import LinuxShare.Lib.Machine
import Mathlib.Data.List.Induction

/-!
# Command and address cycles

The NAND core passes bytes to be latched as commands or as addresses, and ends every phase
with a call that only changes the control lines. A write to `nfcmd` or `nfaddr` is a cycle
on the chip, whatever the value.
-/

namespace Mtd

open Machine

/-- What the core passes: a byte, or `NAND_CMD_NONE`. -/
inductive Dat where
  | byte (b : UInt8)
  | cmdNone
  deriving DecidableEq

def Dat.toInt : Dat → Int
  | .byte b => b.toNat
  | .cmdNone => -1

abbrev Word := BitVec 32

def nandCle : Word := 0x02

def nandAle : Word := 0x04

/-- `ctrl & flag` -/
def has (ctrl flag : Word) : Bool := ctrl &&& flag != 0

structure Regs where
  nfcont : Word
  nfcmd : Word
  nfaddr : Word

/-- A store to one of the two registers that start a cycle. -/
inductive Store where
  | nfcmd (v : Word)
  | nfaddr (v : Word)
  deriving DecidableEq

/-- A call from the NAND core. -/
inductive Event where
  | selectChip (chip : Int)
  | cmdCtrl (dat : Dat) (ctrl : Word)

def mySelectChip (chip : Int) (r : Regs) : Regs :=
  if chip = -1 then { r with nfcont := r.nfcont ||| (1 : Word) <<< 1 }
  else { r with nfcont := r.nfcont &&& ~~~((1 : Word) <<< 1) }

def myCmdStrl (dat : Int) (ctrl : Word) (r : Regs) : Regs × List Store :=
  let v : Word := BitVec.ofInt 32 dat
  if has ctrl nandCle then ({ r with nfcmd := v }, [.nfcmd v])
  else ({ r with nfaddr := v }, [.nfaddr v])

def step (e : Event) (r : Regs) : Regs × List Store :=
  match e with
  | .selectChip chip => (mySelectChip chip r, [])
  | .cmdCtrl dat ctrl => myCmdStrl dat.toInt ctrl r

/-! ## What the chip should see -/

def Store.cmd : Store → Option Word
  | .nfcmd v => some v
  | .nfaddr _ => none

def Store.addr : Store → Option Word
  | .nfaddr v => some v
  | .nfcmd _ => none

namespace Event

/-- The bytes passed with `flag`. -/
def passed (flag : Word) : Event → List Word
  | cmdCtrl (.byte b) ctrl => if has ctrl flag then [b.toBitVec.setWidth 32] else []
  | _ => []

/-- A byte with exactly one of the two flags. -/
def Latches : Event → Prop
  | selectChip _ => True
  | cmdCtrl (.byte _) ctrl => has ctrl nandCle ≠ has ctrl nandAle
  | cmdCtrl .cmdNone _ => False

end Event

/-- The stores to `nfcmd` have been the bytes passed with `NAND_CLE`, and those to `nfaddr`
the bytes passed with `NAND_ALE`. -/
def Same (r : Regs) (es : List Event) : Prop :=
  (trace step r es).filterMap Store.cmd = es.flatMap (Event.passed nandCle) ∧
    (trace step r es).filterMap Store.addr = es.flatMap (Event.passed nandAle)

/-- They have been so after every call. -/
def Exact (r : Regs) (es : List Event) : Prop := ∀ pre, pre <+: es → Same r pre

/-! ## One call -/

theorem ofInt_toInt_byte (b : UInt8) : BitVec.ofInt 32 (Dat.byte b).toInt = b.toBitVec.setWidth 32 := by
  apply BitVec.eq_of_toNat_eq
  rw [Dat.toInt, BitVec.ofInt_natCast, BitVec.toNat_ofNat, BitVec.toNat_setWidth, UInt8.toNat_toBitVec]

/-- A call makes the cycles that it should make just when it passes a byte with one flag. -/
theorem step_exact_iff (r : Regs) (e : Event) :
    (step e r).2.filterMap Store.cmd = e.passed nandCle ∧
      (step e r).2.filterMap Store.addr = e.passed nandAle ↔ e.Latches := by
  cases e with
  | selectChip chip => simp [step, Event.passed, Event.Latches]
  | cmdCtrl dat ctrl =>
      cases dat with
      | byte b =>
          cases hcle : has ctrl nandCle <;> cases hale : has ctrl nandAle <;>
            simp [step, myCmdStrl, Event.passed, Event.Latches, Store.cmd, Store.addr,
              List.filterMap_cons, hcle, hale, ofInt_toInt_byte]
      | cmdNone =>
          cases hcle : has ctrl nandCle <;>
            simp [step, myCmdStrl, Event.passed, Event.Latches, Store.cmd, Store.addr, hcle]

/-! ## Runs -/

/-- One more call. -/
theorem same_snoc {r : Regs} {es : List Event} (h : Same r es) (e : Event) :
    Same r (es ++ [e]) ↔ e.Latches := by
  rw [Same, trace_snoc, List.filterMap_append, List.filterMap_append, h.1, h.2, List.flatMap_append,
    List.flatMap_append, List.append_cancel_left_eq, List.append_cancel_left_eq,
    List.flatMap_singleton, List.flatMap_singleton]
  exact step_exact_iff _ e

/-- In every sequence of calls, from any state of the registers, the chip sees no cycle too
many and none too few if and only if each call passes a byte with exactly one of the flags. -/
theorem exact_iff_latches (r : Regs) (es : List Event) : Exact r es ↔ ∀ e ∈ es, e.Latches := by
  induction es using List.reverseRecOn with
  | nil =>
      refine iff_of_true (fun pre hpre => ?_) (by simp)
      rw [List.prefix_nil.mp hpre]
      exact ⟨rfl, rfl⟩
  | append_singleton es e ih =>
      have hsplit : Exact r (es ++ [e]) ↔ Exact r es ∧ Same r (es ++ [e]) := by
        simp only [Exact, List.prefix_concat_iff, or_imp, forall_and, forall_eq]
        exact and_comm
      have hlast : Exact r es → (Same r (es ++ [e]) ↔ e.Latches) := fun h =>
        same_snoc (h es (List.prefix_refl es)) e
      rw [hsplit, and_congr_right hlast, ih, List.forall_mem_append, List.forall_mem_singleton]

/-- A read of the status as the core makes it: the command, then a call that only changes the
control lines (`NAND_NCE | NAND_CTRL_CHANGE`). -/
def readStatus : List Event :=
  [.selectChip 0, .cmdCtrl (.byte 0x70) 0x83, .cmdCtrl .cmdNone 0x81]

def poweredUp : Regs where
  nfcont := 3
  nfcmd := 0
  nfaddr := 0

/-- The chip gets an address after the command. -/
theorem status_address :
    trace step poweredUp readStatus = [.nfcmd 0x70, .nfaddr 0xffffffff] ∧
      ¬ Same poweredUp readStatus ∧ ¬ Exact poweredUp readStatus := by
  have htrace : trace step poweredUp readStatus = [.nfcmd 0x70, .nfaddr 0xffffffff] := by decide
  have hsame : ¬ Same poweredUp readStatus := by
    rintro ⟨-, haddr⟩
    rw [htrace] at haddr
    exact absurd haddr (by decide)
  exact ⟨htrace, hsame, fun h => hsame (h _ (List.prefix_refl _))⟩

end Mtd
