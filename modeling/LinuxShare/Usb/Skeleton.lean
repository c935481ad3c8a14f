-- SUMMARY: The USB skeleton driver (usb_skeleton.c): its device, what it shares with the kernel, its URB callbacks.
import LinuxShare.Lib.Pool
import Mathlib.Data.Finset.Card

/-!
# The USB skeleton driver

The state that the file operations, the callbacks of the USB core and the power management
share. A thread takes one step of a function at a time, a step being what no other party
can see half of: one access under a lock, or one call of the kernel.
-/

namespace Usb

/-! ## Constants -/

def eintr : Int := 4
def eio : Int := 5
def eagain : Int := 11
def enomem : Int := 12
def efault : Int := 14
def enodev : Int := 19
def epipe : Int := 32
def erestartsys : Int := 512

def pageSize : Nat := 4096
def maxTransfer : Nat := pageSize - 512
def writesInFlight : Nat := 8

/-! ## State -/

/-- `struct usb_skel`, as far as the functions below use it. `submitted` is the number of URBs
on the anchor, and `ioMutex` the thread that holds the mutex. -/
structure UsbSkel (ι : Type) where
  limitSem : Nat
  submitted : Nat
  bulkInBuffer : List UInt8
  bulkInSize : Nat
  bulkInFilled : Nat
  bulkInCopied : Nat
  errors : Int
  ongoingRead : Bool
  kref : Nat
  ioMutex : Option ι
  disconnected : Bool

/-- Whether the driver is still bound to the interface, which `skel_disconnect` ends. -/
inductive Binding where
  | bound
  | disconnecting
  | gone
deriving DecidableEq

/-- The device, and what the kernel keeps beside it.

`freed` and `deletes` are about the memory of the device: `skel_delete` sets the one and counts
in the other. `readUrb` is the length that the bulk-in URB has been submitted with, while it is
in flight, and `writeUrbs` are the payloads of the write URBs in flight. `minorRwsem` counts the
threads inside of `usb_open`, which `usb_deregister_dev` waits for. `opened` are the open files,
and `users f` the threads that use the file `f`. -/
structure Sys (ι : Type) where
  dev : UsbSkel ι
  freed : Bool
  deletes : Nat
  readUrb : Option Nat
  writeUrbs : List (List UInt8)
  coherent : Nat
  binding : Binding
  intfdata : Bool
  registered : Bool
  minorRwsem : Nat
  pmUsage : Nat
  deviceLock : Option ι
  opened : Finset Nat
  users : Nat → Nat

/-- The calls that reach the driver: those of its files, and those of the USB core. -/
inductive Call where
  | read (f count : Nat) (nonblock : Bool)
  | write (f : Nat) (data : List UInt8) (nonblock : Bool)
  | openFile (f : Nat)
  | release (f : Nat)
  | flush (f : Nat)
  | disconnect
  | suspend
  | reset
deriving DecidableEq

/-- What is left open at a step: whether the kernel function that is called there succeeds, is
interrupted, times out or fails. -/
inductive Choice where
  | go
  | signal
  | timeout
  | fail (rv : Int)
  | call (c : Call)

/-- What can be seen from outside: a completed transfer from the device and its status, what is
handed to `copy_to_user` and whether that succeeds, a write URB that the core has accepted, a
call's result. -/
inductive Out (ι : Type) where
  | received (status : Int) (data : List UInt8)
  | copied (i : ι) (chunk : List UInt8) (ok : Bool)
  | sent (i : ι) (payload : List UInt8)
  | ret (i : ι) (c : Call) (rv : Int)
deriving DecidableEq

/-- A function goes on, or returns. -/
inductive Next (P : Type) where
  | pc (p : P)
  | ret (rv : Int)

variable {ι : Type}

/-- The result of one step of a function with program counters `P`; `none` if it is blocked. -/
abbrev Result (ι P : Type) := Option (Next P × Sys ι × List (Out ι))

/-! ## Reference counting -/

def Sys.skelDelete (s : Sys ι) : Sys ι := { s with freed := true, deletes := s.deletes + 1 }

/-- `kref_put(&dev->kref, skel_delete)` -/
def Sys.krefPut (s : Sys ι) : Sys ι :=
  if s.dev.kref - 1 = 0 then
    { s with dev.kref := s.dev.kref - 1 }.skelDelete
  else
    { s with dev.kref := s.dev.kref - 1 }

/-! ## Callbacks -/

def skelReadBulkCallback (status : Int) (actualLength : Nat) (dev : UsbSkel ι) : UsbSkel ι :=
  if status ≠ 0 then
    { dev with errors := status, ongoingRead := false }
  else
    { dev with bulkInFilled := actualLength, ongoingRead := false }

def skelWriteBulkCallback (status : Int) (dev : UsbSkel ι) : UsbSkel ι :=
  if status ≠ 0 then
    { dev with errors := status, limitSem := dev.limitSem + 1 }
  else
    { dev with limitSem := dev.limitSem + 1 }

/-- The device writes to the memory at the start of the buffer. -/
def UsbSkel.dma (data : List UInt8) (dev : UsbSkel ι) : UsbSkel ι :=
  { dev with bulkInBuffer := data ++ dev.bulkInBuffer.drop data.length }

/-- What the hardware does by itself: it writes to the buffer of the bulk-in URB, and it
completes a URB in flight, with any status. -/
inductive Hardware where
  | dma (data : List UInt8)
  | readDone (status : Int) (data : List UInt8)
  | writeDone (k : Nat) (status : Int)

def hardware : Hardware → Sys ι → Option (Sys ι × List (Out ι))
  | .dma data, s =>
    match s.readUrb with
    | some n => if data.length ≤ n then some ({ s with dev := s.dev.dma data }, []) else none
    | none => none
  | .readDone status data, s =>
    match s.readUrb with
    | some n =>
      if data.length ≤ n then
        some ({ s with
          readUrb := none
          dev := skelReadBulkCallback status data.length (s.dev.dma data) },
          [.received status data])
      else
        none
    | none => none
  | .writeDone k status, s =>
    if k < s.writeUrbs.length then
      some ({ s with
        writeUrbs := s.writeUrbs.eraseIdx k
        coherent := s.coherent - 1
        dev := skelWriteBulkCallback status { s.dev with submitted := s.dev.submitted - 1 } }, [])
    else
      none

/-- What a step of the hardware can be. -/
inductive HardwareStep (s : Sys ι) : Sys ι → List (Out ι) → Prop where
  | dma {n : Nat} {data : List UInt8} (hurb : s.readUrb = some n) (hlen : data.length ≤ n) :
    HardwareStep s { s with dev := s.dev.dma data } []
  | received {n : Nat} {data : List UInt8} (hurb : s.readUrb = some n) (hlen : data.length ≤ n) :
    HardwareStep s
      { s with
        readUrb := none
        dev := { s.dev.dma data with bulkInFilled := data.length, ongoingRead := false } }
      [.received 0 data]
  | readFailed {n : Nat} {data : List UInt8} {status : Int} (hurb : s.readUrb = some n)
      (hlen : data.length ≤ n) (hstatus : status ≠ 0) :
    HardwareStep s
      { s with
        readUrb := none
        dev := { s.dev.dma data with errors := status, ongoingRead := false } }
      [.received status data]
  | writeDone {k : Nat} {errors : Int} (hk : k < s.writeUrbs.length) :
    HardwareStep s
      { s with
        writeUrbs := s.writeUrbs.eraseIdx k
        coherent := s.coherent - 1
        dev := { s.dev with
          submitted := s.dev.submitted - 1
          errors := errors
          limitSem := s.dev.limitSem + 1 } } []

theorem hardware_cases {f : Hardware} {s s' : Sys ι} {os : List (Out ι)}
    (h : hardware f s = some (s', os)) : HardwareStep s s' os := by
  cases f with
  | dma data =>
      simp only [hardware] at h
      split at h
      next n hurb =>
        simp only [Option.ite_none_right_eq_some] at h
        obtain ⟨hlen, h⟩ := h
        cases h
        exact .dma hurb hlen
      next => cases h
  | readDone status data =>
      simp only [hardware] at h
      split at h
      next n hurb =>
        simp only [Option.ite_none_right_eq_some] at h
        obtain ⟨hlen, h⟩ := h
        by_cases hstatus : status = 0
        · simp only [skelReadBulkCallback, hstatus, ne_eq, not_true_eq_false, if_false] at h
          cases h
          exact .received hurb hlen
        · simp only [skelReadBulkCallback, ne_eq, hstatus, not_false_eq_true, if_true] at h
          cases h
          exact .readFailed hurb hlen hstatus
      next => cases h
  | writeDone k status =>
      simp only [hardware, Option.ite_none_right_eq_some] at h
      obtain ⟨hk, h⟩ := h
      cases h
      unfold skelWriteBulkCallback
      split
      next => exact .writeDone hk
      next => exact .writeDone hk

/-! ## Probing -/

/-- What `skel_probe` leaves when it succeeds, with the memory that it has allocated for a
bulk-in endpoint. -/
def probed (bulkInBuffer : List UInt8) : Sys ι where
  dev :=
    { limitSem := writesInFlight
      submitted := 0
      bulkInBuffer := bulkInBuffer
      bulkInSize := bulkInBuffer.length
      bulkInFilled := 0
      bulkInCopied := 0
      errors := 0
      ongoingRead := false
      kref := 1
      ioMutex := none
      disconnected := false }
  freed := false
  deletes := 0
  readUrb := none
  writeUrbs := []
  coherent := 0
  binding := .bound
  intfdata := true
  registered := true
  minorRwsem := 0
  pmUsage := 0
  deviceLock := none
  opened := ∅
  users := fun _ => 0

end Usb
