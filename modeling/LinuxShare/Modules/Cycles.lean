-- SUMMARY: Loading and unloading the drivers (blk_hard.c, blk_mid.c, usb_hard.c, key_input.c, lcd.c): what a cycle leaves behind.
import LinuxShare.Lib.Ledger
import Mathlib.Algebra.Order.BigOperators.Group.Multiset
import Mathlib.Algebra.Order.Group.Nat

/-!
# Load and unload

Each driver acquires kernel resources when it is loaded (or its device is found) and
releases them by hand when it is unloaded. None of them releases all that it has
acquired, each once.
-/

namespace Modules

open Ledger

/-- A disk that has been added and an input device or a framebuffer that has been
registered are resources besides the object. -/
inductive Kind where
  | gendisk
  | addedDisk
  | major
  | queue
  | memory
  | usbBuffer
  | urb
  | submittedUrb
  | inputDev
  | inputHandler
  | irq
  | timer
  | framebuffer
  | registeredFb
  | mapping
  | dma
  deriving DecidableEq

/-- The static variables that hold the handles. -/
inductive Var where
  | myDisk
  | myMajor
  | myQueue
  | myDiskbuffer
  | myBuffer
  | myUrb
  | myInputDev
  | myKey
  | mylcdInfo
  | gpccon
  | gpdcon
  | gpgup
  | gpgcon
  | mylcdRegs
  | screenBase
  deriving DecidableEq

/-! ## Functions of the kernel -/

/-- Unregistering an input device drops the driver's reference to it too. -/
def inputUnregisterDevice (x : Var) : List (Op Kind Var) :=
  [.release .inputHandler (.var x), .release .inputDev (.var x)]

/-! ## blk_hard and blk_mid -/

def myBlkInit : List (Op Kind Var) :=
  [.alloc .gendisk .myDisk, .alloc .major .myMajor, .alloc .queue .myQueue,
    .alloc .memory .myDiskbuffer, .hold .addedDisk (.var .myDisk)]

/-- With a number other than 0 `register_blkdev` asks for that number, and is refused when
it is taken. `put_disk` drops the disk; the queue is dropped by `blk_cleanup_queue` only. -/
def myBlkExit : List (Op Kind Var) :=
  [.release .addedDisk (.var .myDisk), .release .gendisk (.var .myDisk), .claim .major .myMajor,
    .release .memory (.var .myDiskbuffer)]

/-! ## usb_hard -/

def myUsbProbe : List (Op Kind Var) :=
  [.alloc .usbBuffer .myBuffer, .alloc .urb .myUrb, .alloc .inputDev .myInputDev,
    .hold .inputHandler (.var .myInputDev), .hold .submittedUrb (.var .myUrb)]

/-- `usb_free_urb(0)` -/
def myUsbDisconnect : List (Op Kind Var) :=
  [.release .submittedUrb (.var .myUrb), .release .urb .null, .release .usbBuffer (.var .myBuffer)] ++
    inputUnregisterDevice .myInputDev ++ [.release .inputDev (.var .myInputDev)]

/-! ## key_input -/

/-- The lines EINT4 to EINT7, by their place in `key_infos`. -/
def keyInputInit : List (Op Kind Var) :=
  (List.range 4).map (fun i => .hold .irq (.number i)) ++
    [.alloc .inputDev .myKey, .hold .inputHandler (.var .myKey), .hold .timer (.number 0)]

def keyInputExit : List (Op Kind Var) :=
  [.release .timer (.number 0)] ++ inputUnregisterDevice .myKey ++ [.release .inputDev (.var .myKey)] ++
    (List.range 4).map fun i => .release .irq (.number i)

/-! ## lcd -/

def mylcdInit : List (Op Kind Var) :=
  [.alloc .framebuffer .mylcdInfo, .alloc .mapping .gpccon, .alloc .mapping .gpdcon,
    .alloc .mapping .gpgup, .alloc .mapping .gpgcon, .alloc .mapping .mylcdRegs,
    .alloc .dma .screenBase, .hold .registeredFb (.var .mylcdInfo)]

/-- `dma_free_writecombine` gets the address of `smem_start` in `mylcd_info` in place of
`screen_base`. -/
def mylcdExit : List (Op Kind Var) :=
  [.release .registeredFb (.var .mylcdInfo), .release .dma (.field .mylcdInfo),
    .release .mapping (.var .mylcdRegs), .release .mapping (.var .gpccon),
    .release .mapping (.var .gpdcon), .release .mapping (.var .gpgup),
    .release .mapping (.var .gpgcon), .release .framebuffer (.var .mylcdInfo)]

/-! ## What a cycle costs -/

inductive Driver where
  | blkHard
  | blkMid
  | usbHard
  | keyInput
  | lcd

def Driver.cycle : Driver → List (Op Kind Var)
  | .blkHard | .blkMid => myBlkInit ++ myBlkExit
  | .usbHard => myUsbProbe ++ myUsbDisconnect
  | .keyInput => keyInputInit ++ keyInputExit
  | .lcd => mylcdInit ++ mylcdExit

/-- What is never released. -/
def Driver.leak : Driver → Kind → Nat
  | .blkHard | .blkMid => fun k => if k = .major ∨ k = .queue then 1 else 0
  | .usbHard => fun k => if k = .urb then 1 else 0
  | .keyInput => fun _ => 0
  | .lcd => fun k => if k = .dma then 1 else 0

/-- Releases of an input device that is gone already, or of what has never been acquired. -/
def Driver.wrong : Driver → Nat
  | .blkHard | .blkMid => 0
  | .usbHard | .keyInput | .lcd => 1

theorem cost_blk (A : Allocator) : Cost A (myBlkInit ++ myBlkExit) (Driver.leak .blkHard) 0 := by
  refine .of_kinds [.gendisk, .addedDisk, .major, .queue, .memory] (fun k => ?_) ?_ ?_
  · cases k <;> decide
  · simp [myBlkInit, myBlkExit, Driver.leak]
  · simp [myBlkInit, myBlkExit]

theorem cost_usb (A : Allocator) :
    Cost A (myUsbProbe ++ myUsbDisconnect) (Driver.leak .usbHard) 1 := by
  refine .of_kinds [.usbBuffer, .urb, .inputDev, .inputHandler, .submittedUrb] (fun k => ?_) ?_ ?_
  · cases k <;> decide
  · simp [myUsbProbe, myUsbDisconnect, inputUnregisterDevice, Driver.leak]
  · simp [myUsbProbe, myUsbDisconnect, inputUnregisterDevice]

theorem cost_keyInput (A : Allocator) :
    Cost A (keyInputInit ++ keyInputExit) (Driver.leak .keyInput) 1 := by
  have hlines : List.range 4 = [0, 1, 2, 3] := rfl
  refine .of_kinds [.irq, .inputDev, .inputHandler, .timer] (fun k => ?_) ?_ ?_
  · cases k <;> decide
  · simp [keyInputInit, keyInputExit, inputUnregisterDevice, Driver.leak, hlines]
  · simp [keyInputInit, keyInputExit, inputUnregisterDevice, hlines]

theorem cost_lcd (A : Allocator) : Cost A (mylcdInit ++ mylcdExit) (Driver.leak .lcd) 1 := by
  refine .of_kinds [.framebuffer, .registeredFb, .mapping, .dma] (fun k => ?_) ?_ ?_
  · cases k <;> decide
  · simp [mylcdInit, mylcdExit, Driver.leak, Multiset.erase_cons_tail_of_mem]
  · simp [mylcdInit, mylcdExit, Multiset.erase_cons_tail_of_mem]

theorem Driver.cost (A : Allocator) (d : Driver) : Cost A d.cycle d.leak d.wrong := by
  cases d with
  | blkHard => exact cost_blk A
  | blkMid => exact cost_blk A
  | usbHard => exact cost_usb A
  | keyInput => exact cost_keyInput A
  | lcd => exact cost_lcd A

/-- Every cycle of every driver costs something. -/
theorem Driver.not_free (d : Driver) : ¬ ((∀ k, d.leak k = 0) ∧ d.wrong = 0) := by
  rintro ⟨hleak, hwrong⟩
  cases d with
  | blkHard => cases hleak .major
  | blkMid => cases hleak .major
  | usbHard => cases hwrong
  | keyInput => cases hwrong
  | lcd => cases hwrong

/-- For every driver, every ledger and all handles that the kernel may give: the books
balance only as long as the driver has not been loaded at all. -/
theorem balanced_iff_never_loaded (A : Allocator) (d : Driver) (s : Books Kind Var) (n : Nat) :
    Balanced A d.cycle s n ↔ n = 0 := by
  rw [(d.cost A).balanced_iff]
  exact or_iff_left d.not_free

/-- Handles are numbers above all that are held. -/
def counting : Allocator where
  fresh l := l.sum + 1
  fresh_notMem l h := absurd (Multiset.le_sum_of_mem h) (by omega)

def emptyBooks : Books Kind Var where
  held := fun _ => 0
  vars := fun _ => 0
  wrong := 0

/-- After one cycle of each driver: a major number and a queue are left, or a URB, or the
memory of the screen, and an input device has been freed twice. -/
theorem cycle_unbalanced :
    ((run counting Driver.blkHard.cycle emptyBooks).held .major = {1} ∧
      (run counting Driver.blkHard.cycle emptyBooks).held .queue = {1}) ∧
    ((run counting Driver.usbHard.cycle emptyBooks).held .urb = {1} ∧
      (run counting Driver.usbHard.cycle emptyBooks).wrong = 1) ∧
    (run counting Driver.keyInput.cycle emptyBooks).wrong = 1 ∧
    (run counting Driver.lcd.cycle emptyBooks).held .dma = {1} ∧
    ∀ d : Driver, ¬ Balanced counting d.cycle emptyBooks 1 := by
  have hlines : List.range 4 = [0, 1, 2, 3] := rfl
  refine ⟨?_, ?_, ?_, ?_, fun d h => ?_⟩
  · simp [Driver.cycle, myBlkInit, myBlkExit, counting, emptyBooks]
  · simp [Driver.cycle, myUsbProbe, myUsbDisconnect, inputUnregisterDevice, counting, emptyBooks]
  · simp [Driver.cycle, keyInputInit, keyInputExit, inputUnregisterDevice, hlines, counting, emptyBooks]
  · simp [Driver.cycle, mylcdInit, mylcdExit, counting, emptyBooks]
  · rw [(d.cost counting).balanced_iff] at h
    exact d.not_free (h.resolve_left (by decide))

end Modules
