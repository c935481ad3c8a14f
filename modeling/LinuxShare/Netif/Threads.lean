-- SUMMARY: The receiver thread and a client thread on one interface table, one operation at a time.
import LinuxShare.Lib.Machine
import LinuxShare.Lib.Script
import LinuxShare.Netif.Runs

/-!
# Two threads

The functions of netif_list.c and the message handlers as scripts: a section under
the mutex is one operation, and so is each access to a node or to `list_sum` outside
of it. A receiver, which handles messages, and a client, which calls the exported
functions, take such operations in any order.
-/

namespace Netif

open Bytes Resumable

/-! ## Operations -/

/-- An operation that a thread executes as one step. `own` is on the thread's own memory
or output, `node` on the node that it has found or linked under the name `ifname`. The
name in `link` is the one that has been written to the new node. -/
inductive TableOp : Type → Type 1 where
  | own {β : Type} (p : Step β) : TableOp β
  | find (ifname : List UInt8) : TableOp (Option Addr)
  | malloc : TableOp (Option Addr)
  | memset (newNode : Addr) : TableOp Unit
  | strncpy (newNode : Addr) (ifname : List UInt8) : TableOp Unit
  | link (newNode : Addr) (ifname : List UInt8) : TableOp Unit
  | loadSum : TableOp Nat
  | storeSum (n : Nat) : TableOp Unit
  | del (ifname : List UInt8) : TableOp (Option Addr)
  | node {β : Type} (ifname : List UInt8) (a : Addr) (p : Step β) : TableOp β

/-- The steps of an operation. -/
def TableOp.exec (M : Malloc) : {β : Type} → TableOp β → Step β
  | _, .own p => p
  | _, .find ifname => netifNodeFind ifname
  | _, .malloc => Netif.malloc M
  | _, .memset newNode => storeAttr newNode fun _ => Attr.zero
  | _, .strncpy newNode ifname => storeAttr newNode fun a => a.setIfname ifname
  | _, .link newNode _ => do
    lock
    linkNode newNode headAddr
    unlock
  | _, .loadSum => Netif.loadSum
  | _, .storeSum n => Netif.storeSum n
  | _, .del ifname => do
    lock
    match ← findNode ifname with
    | some entry => do
      unlinkNode entry
      free entry
      unlock
      pure (some entry)
    | none => do
      unlock
      pure none
  | _, .node _ _ p => p

/-! ## Scripts -/

namespace Threaded

open Script

abbrev Code (α : Type) := Script TableOp α

def netifNodeFind (ifname : List UInt8) : Code (Option Addr) := op (.find ifname)

def netifNodeAdd (ifname : List UInt8) : Code (Option Addr) := do
  match ← op .malloc with
  | none => pure none
  | some newNode => do
    op (.memset newNode)
    op (.strncpy newNode ifname)
    op (.link newNode ifname)
    let n ← op .loadSum
    op (.storeSum ((n + 1) % 2 ^ 32))
    pure (some newNode)

def netifNodeDel (ifname : List UInt8) : Code Int := do
  match ← op (.del ifname) with
  | some _ => do
    let n ← op .loadSum
    op (.storeSum ((n + (2 ^ 32 - 1)) % 2 ^ 32))
    pure 0
  | none => pure (-1)

/-- A read of a node outside the mutex. -/
def load {α : Type} (ifname : List UInt8) (node : Addr) (f : Attr → α) : Code α :=
  op (.node ifname node (loadAttr node f))

def log (line : LogLine) : Code Unit := op (.own (Netif.log line))

/-- A section under the mutex that writes to a node. -/
def store (ifname : List UInt8) (node : Addr) (f : Attr → Attr) : Code Unit :=
  op (.node ifname node do
    lock
    storeAttr node f
    unlock)

def netEventNotify (ifname : List UInt8) (type : NetifEventType) : Code Unit := do
  match ← netifNodeFind ifname with
  | none => pure ()
  | some node => do
    let current ← load ifname node Attr.currentState
    if current ≠ type.val then
      match type with
      | .ifUp => log (.up ifname)
      | .ifDown => log (.down ifname)
      | .ifNewaddr => do
        let ipaddr ← load ifname node Attr.ipaddr
        log (.newAddr ipaddr)
      | .ifDeladdr => do
        log (.delAddr ifname)
        store ifname node Attr.clearIpaddr
        let ipaddr ← load ifname node Attr.ipaddr
        log (.nowAddr ipaddr)
    store ifname node fun a => a.setCurrentState type.val

def linkBody (type flags : Nat) (mtu hwaddr ifname : List UInt8) (node : Addr) : Code Unit := do
  op (.node ifname node do
    lock
    storeAttr node fun a => a.setUp (flagSet flags iffUp)
    storeAttr node fun a => a.setPortLink (flagSet flags iffLowerUp)
    dispatchPayload mtu () (copyToNode node .mtu)
    dispatchPayload hwaddr () (copyToNode node .hwaddr)
    unlock)
  if type = rtmNewlink then do
    let up ← load ifname node Attr.up
    log (.rtmNewlink ifname up)
    let up ← load ifname node Attr.up
    netEventNotify ifname (if up then .ifUp else .ifDown)
  else if type = rtmDellink then do
    let up ← load ifname node Attr.up
    log (.rtmDellink ifname up)
    netEventNotify ifname .ifDown
  else pure ()

def addrBody (type : Nat) (ipaddr ifname : List UInt8) (node : Addr) : Code Unit := do
  op (.node ifname node do
    lock
    dispatchPayload ipaddr () (copyToNode node .ipaddr)
    unlock)
  if type = rtmNewaddr then do
    log (.rtmNewaddr ifname)
    netEventNotify ifname .ifNewaddr
  else if type = rtmDeladdr then do
    log (.rtmDeladdr ifname)
    netEventNotify ifname .ifDeladdr
  else pure ()

def body (m : NlMsg) : List UInt8 → Addr → Code Unit :=
  if m.IsLink then linkBody m.type m.flags m.mtu m.hwaddr else addrBody m.type m.ipaddr

def findOrAdd (ifname : List UInt8) : Code (Option Addr) := do
  match ← netifNodeFind ifname with
  | some node => pure (some node)
  | none => netifNodeAdd ifname

/-- The handler of the message. -/
def handle (m : NlMsg) : Code Unit := do
  let ifname ← op (.own (dispatchPayload m.namePayload (Mem.ofList []) copyToIfname))
  let ifname ← op (.own (localString ifname))
  if ifname.length = 0 then pure ()
  else do
    match ← findOrAdd ifname with
    | none => pure ()
    | some node => body m ifname node

/-! The scripts are the programs. -/

section

variable (M : Malloc)

/-- The program of a script. -/
abbrev prog {α : Type} (p : Code α) : Step α := p.toProg (TableOp.exec M)

theorem prog_netifNodeFind (ifname : List UInt8) :
    prog M (netifNodeFind ifname) = Netif.netifNodeFind ifname := toProg_op _

theorem prog_netifNodeAdd (ifname : List UInt8) :
    prog M (netifNodeAdd ifname) = Netif.netifNodeAdd M ifname := by
  simp only [netifNodeAdd, Netif.netifNodeAdd, toProg_bind, toProg_op]
  congr 1
  funext newNode
  cases newNode with
  | none => rfl
  | some newNode =>
      simp only [toProg_bind, toProg_op, TableOp.exec, bind_assoc]
      rfl

theorem prog_netifNodeDel (ifname : List UInt8) :
    prog M (netifNodeDel ifname) = Netif.netifNodeDel ifname := by
  simp only [netifNodeDel, Netif.netifNodeDel, toProg_bind, toProg_op, TableOp.exec, bind_assoc]
  congr 1
  funext _
  congr 1
  funext node
  cases node with
  | none => simp only [bind_assoc, pure_bind]; rfl
  | some node => simp only [bind_assoc, pure_bind]; rfl

theorem prog_load {α : Type} (ifname : List UInt8) (node : Addr) (f : Attr → α) :
    prog M (load ifname node f) = loadAttr node f := toProg_op _

theorem prog_log (line : LogLine) : prog M (log line) = Netif.log line := toProg_op _

theorem prog_store (ifname : List UInt8) (node : Addr) (f : Attr → Attr) :
    prog M (store ifname node f) = (do lock; storeAttr node f; unlock) := toProg_op _

theorem prog_netEventNotify (ifname : List UInt8) (type : NetifEventType) :
    prog M (netEventNotify ifname type) = Netif.netEventNotify ifname type := by
  simp only [netEventNotify, Netif.netEventNotify, toProg_bind, prog_netifNodeFind]
  congr 1
  funext node
  cases node with
  | none => rfl
  | some node =>
      simp only [toProg_bind, prog_load]
      congr 1
      funext current
      by_cases hc : current ≠ type.val
      · cases type <;>
          simp only [hc, ne_eq, not_false_eq_true, if_true, toProg_bind, prog_load, prog_log,
            prog_store, bind_assoc]
      · simp only [hc, if_false, prog_store]

theorem prog_linkBody (type flags : Nat) (mtu hwaddr ifname : List UInt8) (node : Addr) :
    prog M (linkBody type flags mtu hwaddr ifname node) =
      Netif.linkBody type flags mtu hwaddr ifname node := by
  simp only [linkBody, Netif.linkBody, toProg_bind, toProg_op, TableOp.exec, bind_assoc]
  by_cases hnew : type = rtmNewlink
  · simp only [if_pos hnew, toProg_bind, prog_load, prog_log, prog_netEventNotify]
  · by_cases hdel : type = rtmDellink
    · simp only [if_neg hnew, if_pos hdel, toProg_bind, prog_load, prog_log,
        prog_netEventNotify]
    · simp only [if_neg hnew, if_neg hdel, toProg_ret, pure_eq]

theorem prog_addrBody (type : Nat) (ipaddr ifname : List UInt8) (node : Addr) :
    prog M (addrBody type ipaddr ifname node) = Netif.addrBody type ipaddr ifname node := by
  simp only [addrBody, Netif.addrBody, toProg_bind, toProg_op, TableOp.exec, bind_assoc]
  by_cases hnew : type = rtmNewaddr
  · simp only [if_pos hnew, toProg_bind, prog_log, prog_netEventNotify]
  · by_cases hdel : type = rtmDeladdr
    · simp only [if_neg hnew, if_pos hdel, toProg_bind, prog_log, prog_netEventNotify]
    · simp only [if_neg hnew, if_neg hdel, toProg_ret, pure_eq]

theorem prog_body (m : NlMsg) (ifname : List UInt8) (node : Addr) :
    prog M (body m ifname node) = m.body ifname node := by
  unfold body NlMsg.body
  split
  · exact prog_linkBody M _ _ _ _ ifname node
  · exact prog_addrBody M _ _ ifname node

theorem prog_findOrAdd (ifname : List UInt8) :
    prog M (findOrAdd ifname) = Netif.findOrAdd M ifname := by
  simp only [findOrAdd, Netif.findOrAdd, toProg_bind, prog_netifNodeFind]
  congr 1
  funext node
  cases node with
  | none => exact prog_netifNodeAdd M ifname
  | some node => rfl

/-- The script of a message is the program that handles it. -/
theorem prog_handle (m : NlMsg) : prog M (handle m) = m.handle M := by
  rw [m.handle_eq]
  simp only [handle, withNode, toProg_bind, toProg_op, TableOp.exec]
  congr 1
  funext buf
  congr 1
  funext ifname
  by_cases hempty : ifname.length = 0
  · simp only [hempty, if_true, toProg_ret, pure_eq]
  · simp only [hempty, if_false, toProg_bind, prog_findOrAdd]
    congr 1
    funext node
    cases node with
    | none => rfl
    | some node => exact prog_body M m ifname node

end

end Threaded

/-! ## Threads -/

inductive Tid where
  | receiver | client
  deriving DecidableEq

def Tid.other : Tid → Tid
  | receiver => client
  | client => receiver

/-- A thread has the rest of its call to execute, and knows the names that
`netif_node_find` has not returned to it and that it has not added since. The other
fields are ghosts. They say what the other thread has done since: linked one of these
names, stored `list_sum` after this thread has loaded it, and freed nodes whose
addresses this thread may hold. -/
structure Thread where
  code : Threaded.Code Unit
  notFound : List (List UInt8)
  overtaken : List (List UInt8)
  stale : Bool
  freed : List Addr

namespace TableOp

/-- What executing an operation with a given result means to the thread itself. -/
def mark : {β : Type} → TableOp β → β → Thread → Thread
  | _, .find ifname, none, th =>
    { th with
      notFound := ifname :: th.notFound
      overtaken := th.overtaken.filter (· ≠ ifname) }
  | _, .find ifname, some a, th =>
    { th with
      notFound := th.notFound.filter (· ≠ ifname)
      freed := th.freed.filter (· ≠ a) }
  | _, .malloc, some a, th => { th with freed := th.freed.filter (· ≠ a) }
  | _, .link _ ifname, _, th => { th with notFound := th.notFound.filter (· ≠ ifname) }
  | _, .loadSum, _, th => { th with stale := false }
  | _, _, _, th => th

/-- What it means to the other thread. -/
def overtake : {β : Type} → TableOp β → β → Thread → Thread
  | _, .link _ ifname, _, th => { th with overtaken := ifname :: th.overtaken }
  | _, .storeSum _, _, th => { th with stale := true }
  | _, _, _, th => th

/-- What it means to both. -/
def delete : {β : Type} → TableOp β → β → Thread → Thread
  | _, .del ifname, some a, th =>
    { th with
      overtaken := th.overtaken.filter (· ≠ ifname)
      freed := a :: th.freed }
  | _, _, _, th => th

/-- The operation reads or updates a node that has been freed since the thread got its address. -/
def UsesFreed (th : Thread) : {β : Type} → TableOp β → Prop
  | _, .node _ a _ => a ∈ th.freed
  | _, .memset a => a ∈ th.freed
  | _, .strncpy a _ => a ∈ th.freed
  | _, .link a _ => a ∈ th.freed
  | _, _ => False

instance (th : Thread) : {β : Type} → (o : TableOp β) → Decidable (o.UsesFreed th)
  | _, .node _ a _ => inferInstanceAs (Decidable (a ∈ th.freed))
  | _, .memset a => inferInstanceAs (Decidable (a ∈ th.freed))
  | _, .strncpy a _ => inferInstanceAs (Decidable (a ∈ th.freed))
  | _, .link a _ => inferInstanceAs (Decidable (a ∈ th.freed))
  | _, .own _ => inferInstanceAs (Decidable False)
  | _, .find _ => inferInstanceAs (Decidable False)
  | _, .malloc => inferInstanceAs (Decidable False)
  | _, .loadSum => inferInstanceAs (Decidable False)
  | _, .storeSum _ => inferInstanceAs (Decidable False)
  | _, .del _ => inferInstanceAs (Decidable False)

end TableOp

/-- The table's memory and the two threads. After a step that is `undefined`, nothing is
known of what they do. -/
structure World where
  sys : Sys
  thread : Tid → Thread
  undefined : Bool

namespace World

/-- Both threads between two calls, on the empty table. -/
def init : World where
  sys := .init
  thread := fun _ => { code := .ret (), notFound := [], overtaken := [], stale := false, freed := [] }
  undefined := false

/-- The thread has no call in progress. -/
def Idle (w : World) (t : Tid) : Prop := (w.thread t).code.isRet = true

instance (w : World) (t : Tid) : Decidable (w.Idle t) := inferInstanceAs (Decidable (_ = true))

/-- The thread begins a call. -/
def start (w : World) (t : Tid) (code : Threaded.Code Unit) : World :=
  { w with thread := Function.update w.thread t { w.thread t with code := code } }

/-- Thread `t` has executed `o` with result `b`, and goes on with `code`. -/
def after {β : Type} (w : World) (t : Tid) (o : TableOp β) (b : β) (s : Sys)
    (code : Threaded.Code Unit) : World where
  sys := s
  thread := fun u =>
    if u = t then { o.delete b (o.mark b (w.thread t)) with code := code }
    else o.delete b (o.overtake b (w.thread u))
  undefined := w.undefined

end World

/-- A call of the client. -/
inductive Call where
  | find (ifname : List UInt8)
  | add (ifname : List UInt8)
  | del (ifname : List UInt8)

namespace Call

def code : Call → Threaded.Code Unit
  | find ifname => do
    let _ ← Threaded.netifNodeFind ifname
    pure ()
  | add ifname => do
    let _ ← Threaded.netifNodeAdd ifname
    pure ()
  | del ifname => do
    let _ ← Threaded.netifNodeDel ifname
    pure ()

/-- A name is a string, and the client adds only names that `netif_node_find` did not return. -/
def Allowed (th : Thread) : Call → Prop
  | find ifname | del ifname => 0 ∉ ifname
  | add ifname => 0 ∉ ifname ∧ ifname ∈ th.notFound

instance (th : Thread) : (c : Call) → Decidable (c.Allowed th)
  | find ifname => inferInstanceAs (Decidable (0 ∉ ifname))
  | del ifname => inferInstanceAs (Decidable (0 ∉ ifname))
  | add ifname => inferInstanceAs (Decidable (0 ∉ ifname ∧ ifname ∈ th.notFound))

end Call

/-- What the scheduler may do: let the receiver take a message or the client make a
call, or let a thread execute its next operation. -/
inductive Sched where
  | receive (m : NlMsg)
  | call (c : Call)
  | run (t : Tid)

/-- What can go wrong in a step. -/
inductive Mishap where
  | usesFreed
  | fault (e : Fault)
  deriving DecidableEq

/-- Thread `t` executes its next operation. -/
def World.exec (M : Malloc) (t : Tid) (w : World) : World × List Mishap :=
  match (w.thread t).code with
  | .ret _ => (w, [])
  | .call o k =>
    let freed : List Mishap := if o.UsesFreed (w.thread t) then [.usesFreed] else []
    match (o.exec M).run w.sys with
    | .ok b s => (w.after t o b s (k b), freed)
    | .blocked _ => (w, freed)
    | .fault e s => ({ w with sys := s, undefined := true }, freed ++ [.fault e])

/-- One step of the two threads; what is not possible does nothing. -/
def Sched.step (M : Malloc) (l : Sched) (w : World) : World × List Mishap :=
  if w.undefined then (w, [])
  else match l with
    | .receive m =>
      if w.Idle .receiver then (w.start .receiver (Threaded.handle m), []) else (w, [])
    | .call c =>
      if w.Idle .client ∧ c.Allowed (w.thread .client) then (w.start .client c.code, []) else (w, [])
    | .run t => w.exec M t

end Netif
