-- SUMMARY: The interface table's memory (netif_list.h) and the atomic steps on it.
import LinuxShare.Lib.Prog
import LinuxShare.Lib.Bytes
import LinuxShare.Netif.ListOp
import Mathlib.Data.Finmap
import Mathlib.Order.Lattice.Nat

/-!
# The state of the interface table

`netif_head`, the nodes that `malloc` has handed out, and the program's output.
A node is the block of one `malloc`, so its link and its `NETIF_ATTR` live and
die together and an access past its end is out of bounds. The attributes are
kept as the bytes of `NETIF_ATTR`: a copy that is too long for one field then
lands in the next one, as it does in the program.
-/

namespace Netif

open Bytes Resumable Ring

/-! ## NETIF_ATTR -/

/-- The bytes of a `NETIF_ATTR`:
`ifname` 0-15, `up` 16, `port_link` 17, `mtu` 20-23, `current_state` 24-27,
`hwaddr` 28-33, `ipaddr` 34-37, and padding at 18-19 and 38-39. -/
abbrev Attr := Mem

/-- `sizeof(NETIF_ATTR)`. A `NETIF_NODE` ends where its `attr` ends. -/
abbrev attrSize : Nat := 40

/-- `sizeof` of an `ifname` array, in the node and on the handlers' stack. -/
abbrev ifnameSize : Nat := 16

/-- The `n` bytes that `strncpy` writes for the string `src`. -/
def strncpy (n : Nat) (src : List UInt8) : List UInt8 :=
  src.take n ++ List.replicate (n - src.length) 0

namespace Attr

def ifname (a : Attr) : List UInt8 := cstr (a.slice 0 ifnameSize)

def up (a : Attr) : Bool := a 16 ≠ 0

def portLink (a : Attr) : Bool := a 17 ≠ 0

def mtu (a : Attr) : List UInt8 := a.slice 20 4

def currentState (a : Attr) : Nat := a.le32 24

def hwaddr (a : Attr) : List UInt8 := a.slice 28 6

def ipaddr (a : Attr) : List UInt8 := a.slice 34 4

/-- `node->attr.up = b;` -/
def setUp (a : Attr) (b : Bool) : Attr := a.write 16 [if b then 1 else 0]

/-- `node->attr.port_link = b;` -/
def setPortLink (a : Attr) (b : Bool) : Attr := a.write 17 [if b then 1 else 0]

/-- `node->attr.current_state = n;` -/
def setCurrentState (a : Attr) (n : Nat) : Attr := a.write 24 (Mem.bytes32 n)

/-- `memset(&node->attr.ipaddr,0,sizeof(node->attr.ipaddr));` -/
def clearIpaddr (a : Attr) : Attr := a.write 34 (List.replicate 4 0)

/-- `memset(&new_node->attr,0,sizeof(NETIF_ATTR));` -/
def zero : Attr := fun _ => 0

/-- `strncpy(new_node->attr.ifname,ifname,sizeof(new_node->attr.ifname));` -/
def setIfname (a : Attr) (name : List UInt8) : Attr := a.write 0 (strncpy ifnameSize name)

end Attr

/-- The destinations of the handlers' attribute copies. -/
inductive Dst where
  | ifname | mtu | hwaddr | ipaddr
  deriving DecidableEq

namespace Dst

def size : Dst → Nat
  | ifname => ifnameSize
  | mtu => 4
  | hwaddr => 6
  | ipaddr => 4

/-- The offset in its object: the local array for `ifname`, else `NETIF_ATTR`. -/
def off : Dst → Nat
  | ifname => 0
  | mtu => 20
  | hwaddr => 28
  | ipaddr => 34

end Dst

/-! ## netif_head and the heap -/

abbrev Addr := Nat

/-- `&netif_head.listHead`. -/
def headAddr : Addr := 1

inductive Mutex where
  | uninit | unlocked | locked
  deriving DecidableEq

/-- A line of `log_debug`, by its format: `%s:%s` with a name and `up`, `down`
or `del addr`; `ipaddr_print` of `new addr` or `now addr`, which shows the four
bytes; and the handlers' own `################%s RTM_...` lines. -/
inductive LogLine where
  | up (ifname : List UInt8)
  | down (ifname : List UInt8)
  | newAddr (ipaddr : List UInt8)
  | delAddr (ifname : List UInt8)
  | nowAddr (ipaddr : List UInt8)
  | rtmNewlink (ifname : List UInt8) (up : Bool)
  | rtmDellink (ifname : List UInt8) (up : Bool)
  | rtmNewaddr (ifname : List UInt8)
  | rtmDeladdr (ifname : List UInt8)
  deriving DecidableEq

/-- What a run can be observed to do: copy `n` bytes to a destination, or log. -/
inductive Event where
  | copy (dst : Dst) (n : Nat)
  | log (line : LogLine)
  deriving DecidableEq

inductive Fault where
  | badPointer
  | overrun
  | unterminated
  | diverges
  deriving DecidableEq

/-- `listReady` and `early` are ghosts: `COMMON_INIT_LIST_HEAD` has run, and the
list head or the mutex was used before it was initialised. -/
structure Sys where
  links : LinkMem Addr
  attrs : Finmap fun _ : Addr => Attr
  listSum : Nat
  mutex : Mutex
  listReady : Bool
  early : Bool
  trace : List Event

namespace Sys

/-- `NET_MANAGE_HEAD netif_head = {0};` -/
def static : Sys where
  links := fun _ => ⟨0, 0⟩
  attrs := ∅
  listSum := 0
  mutex := .uninit
  listReady := false
  early := false
  trace := []

/-- The empty table, after `pthread_mutex_init` and `COMMON_INIT_LIST_HEAD`. -/
def init : Sys :=
  { static with
    links := commonInitListHead static.links headAddr
    mutex := .unlocked
    listReady := true }

/-- `p` points to a `COMMON_LIST_HEAD` that may be read and written. -/
def Live (s : Sys) (p : Addr) : Prop := p = headAddr ∨ p ∈ s.attrs

instance (s : Sys) (p : Addr) : Decidable (s.Live p) := inferInstanceAs (Decidable (_ ∨ _))

def emit (s : Sys) (e : Event) : Sys := { s with trace := s.trace ++ [e] }

/-- Note an access to the list head before it was made circular. -/
def touch (s : Sys) (p : Addr) : Sys :=
  { s with early := s.early || (p == headAddr && !s.listReady) }

theorem touch_of_ready {s : Sys} (h : s.listReady = true) (p : Addr) : s.touch p = s := by
  cases s
  cases h
  simp [touch]

end Sys

/-- `malloc` as the program may rely on it: it fails, or hands out a block that
is not in use, with any content. Its choice may depend on all that has happened. -/
structure Malloc where
  choose : Sys → Option Addr
  junk : Sys → Attr
  fresh : ∀ s a, choose s = some a → a ≠ 0 ∧ ¬ s.Live a

/-- An allocator that never fails: it goes up through the addresses. -/
def Malloc.bump : Malloc where
  choose := fun s => some (s.attrs.keys.sup id + 2)
  junk := fun _ => Attr.zero
  fresh := by
    rintro s a hchoose
    obtain rfl := Option.some.inj hchoose
    refine ⟨Nat.succ_ne_zero _, ?_⟩
    rintro (hhead | hmem)
    · exact absurd (Nat.succ.inj hhead) (Nat.succ_ne_zero _)
    · have hle : s.attrs.keys.sup id + 2 ≤ s.attrs.keys.sup id :=
        Finset.le_sup (f := id) (Finmap.mem_keys.mpr hmem)
      exact absurd (Nat.le_add_right _ 1) (Nat.not_le.mpr hle)

/-! ## Atomic steps -/

abbrev Step (α : Type) := Prog Sys Fault α

def fail {α : Type} (e : Fault) : Step α := .atom fun s => .fault e s

def log (line : LogLine) : Step Unit := .atom fun s => .ok () (s.emit (.log line))

def lock : Step Unit := .atom fun s =>
  match s.mutex with
  | .locked => .blocked s
  | .unlocked => .ok () { s with mutex := .locked }
  | .uninit => .ok () { s with mutex := .locked, early := true }

def unlock : Step Unit := .atom fun s => .ok () { s with mutex := .unlocked }

/-- `p->next`. -/
def loadNext (p : Addr) : Step Addr := .atom fun s =>
  if s.Live p then .ok (s.links p).next (s.touch p) else .fault .badPointer s

/-- `common_list_add(new, head)`; the two list operations run under the mutex. -/
def linkNode (new head : Addr) : Step Unit := .atom fun s =>
  if s.Live new ∧ s.Live head ∧ s.Live (s.links head).next then
    .ok () { s.touch head with links := commonListAdd s.links new head }
  else .fault .badPointer s

/-- `common_list_del(entry)`. -/
def unlinkNode (entry : Addr) : Step Unit := .atom fun s =>
  if s.Live entry ∧ s.Live (s.links entry).prev ∧ s.Live (s.links entry).next then
    .ok () { s with links := commonListDel s.links entry }
  else .fault .badPointer s

/-- A read of the node's attributes. -/
def loadAttr {α : Type} (p : Addr) (f : Attr → α) : Step α := .atom fun s =>
  match s.attrs.lookup p with
  | some a => .ok (f a) s
  | none => .fault .badPointer s

/-- A write to the node's attributes. -/
def storeAttr (p : Addr) (f : Attr → Attr) : Step Unit := .atom fun s =>
  match s.attrs.lookup p with
  | some a => .ok () { s with attrs := s.attrs.insert p (f a) }
  | none => .fault .badPointer s

/-- `memcpy` into a field of the node. Within the block it writes what the
source gives, into the next fields too; past the block it is undefined. -/
def copyToNode (p : Addr) (dst : Dst) (data : List UInt8) : Step Unit := .atom fun s =>
  match s.attrs.lookup p with
  | some a =>
    if dst.off + data.length ≤ attrSize then
      .ok () { s.emit (.copy dst data.length) with attrs := s.attrs.insert p (a.write dst.off data) }
    else .fault .overrun (s.emit (.copy dst data.length))
  | none => .fault .badPointer s

/-- `memcpy` into the local `unsigned char ifname[16] = {0}`, whose bytes it
returns. -/
def copyToIfname (data : List UInt8) : Step Mem := .atom fun s =>
  if data.length ≤ ifnameSize then .ok (Mem.ofList data) (s.emit (.copy .ifname data.length))
  else .fault .overrun (s.emit (.copy .ifname data.length))

def malloc (M : Malloc) : Step (Option Addr) := .atom fun s =>
  match M.choose s with
  | some a => .ok (some a) { s with attrs := s.attrs.insert a (M.junk s) }
  | none => .ok none s

def free (p : Addr) : Step Unit := .atom fun s => .ok () { s with attrs := s.attrs.erase p }

def loadSum : Step Nat := .atom fun s => .ok s.listSum s

def storeSum (n : Nat) : Step Unit := .atom fun s => .ok () { s with listSum := n }

/-- How many blocks are allocated: a walk along `next` pointers that goes on for
longer than this has met a block twice and never ends. -/
def blockCount : Step Nat := .atom fun s => .ok s.attrs.keys.card s

end Netif
