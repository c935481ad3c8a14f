-- SUMMARY: The RCU demo module: two readers, two updaters, the reclaimer, and the blocks that they share.
import LinuxShare.Lib.Pool
import LinuxShare.Lib.Rcu

/-!
# The RCU demo

`rcu_reader` and `rcu_updater` share the block that `g_pfoo` points to, `rcu_reader_list` and
`rcu_updater_list` the one on `g_rcu_list`. The kernel's part is what `rcu_read_lock`,
`call_rcu` and `synchronize_rcu` promise: a grace period waits for those who were reading when
it began. A step of a thread is one access to memory that it shares, or one call.
-/

namespace RcuDemo

inductive Task
  | reader
  | updater
  | readerList
  | updaterList
  deriving DecidableEq, Repr

/-! ## Memory -/

/-- A `struct foo *`. A block that was freed does not come back: what still points to it points
to nothing. -/
abbrev Ptr := Option Nat

/-- A `struct list_head *`: `NULL`, `LIST_POISON2`, `&g_rcu_list`, or the `list` of a block. -/
inductive Link
  | null
  | poison
  | head
  | node (p : Nat)
  deriving DecidableEq, Repr

/-- `list_entry` -/
def Link.entry : Link → Ptr
  | .node p => some p
  | _ => none

structure Foo where
  a : Int
  b : Int
  c : Int
  next : Link
  prev : Link
  deriving DecidableEq, Repr

def Foo.zero : Foo := ⟨0, 0, 0, .null, .null⟩

/-- What a grace period was begun for. -/
inductive Token
  | callback (p : Nat)
  | sync
  deriving DecidableEq, Repr

structure Sys where
  heap : Nat → Option Foo
  brk : Nat
  gPfoo : Ptr
  listNext : Link
  listPrev : Link
  rcu : Rcu.Domain Task Token

namespace Sys

def write (s : Sys) (p : Nat) (foo : Foo) : Sys :=
  { s with heap := Function.update s.heap p (some foo) }

/-- `kzalloc`, with the memory that it returns. -/
def kzalloc (s : Sys) : Nat × Sys :=
  (s.brk, { s.write s.brk .zero with brk := s.brk + 1 })

/-- `none` where there is nothing to free any more. -/
def kfree (s : Sys) : Ptr → Option Sys
  | none => some s
  | some p => (s.heap p).map fun _ => { s with heap := Function.update s.heap p none }

/-- `l->next = v` -/
def setNext (s : Sys) (v : Link) : Link → Option Sys
  | .head => some { s with listNext := v }
  | .node p => (s.heap p).map fun foo => s.write p { foo with next := v }
  | _ => none

/-- `l->prev = v` -/
def setPrev (s : Sys) (v : Link) : Link → Option Sys
  | .head => some { s with listPrev := v }
  | .node p => (s.heap p).map fun foo => s.write p { foo with prev := v }
  | _ => none

/-- `list_first_or_null_rcu(&g_rcu_list, struct foo, list)` -/
def listFirstOrNullRcu (s : Sys) : Ptr := s.listNext.entry

/-- `list_add_rcu(&p->list, &g_rcu_list)` -/
def listAddRcu (s : Sys) (p : Nat) : Option Sys := do
  let next := s.listNext
  let s ← s.setNext next (.node p)
  let s ← s.setPrev .head (.node p)
  let s ← s.setNext (.node p) .head
  s.setPrev (.node p) next

end Sys

/-! ## Steps -/

inductive Out
  /-- What `pr_info` was given. -/
  | info (i : Task) (a b c : Int)
  | reclaimed (a b c : Int)
  | unlocked (i : Task)
  /-- `kzalloc` has returned `NULL`. -/
  | noMemory (i : Task)
  /-- An access to what is not there, by a thread or by the softirq that runs the callbacks. -/
  | oops (i : Option Task)
  deriving DecidableEq, Repr

/-- What a step of a thread needs from outside: whether there is memory. -/
inductive Choice
  | go
  | fail
  deriving DecidableEq, Repr

/-- How far the arguments of `pr_info` are evaluated. -/
inductive InfoPc
  | a
  | b (x : Int)
  | c (x y : Int)
  deriving DecidableEq, Repr

inductive ReaderPc
  | loop
  | lock
  | dereference
  | info (p : Ptr) (pc : InfoPc)
  | unlock
  deriving DecidableEq, Repr

inductive UpdaterPc
  | loop
  | kzalloc
  | readOld (new : Ptr)
  | copy (new old : Ptr)
  | setA (new old : Ptr)
  | setB (new old : Ptr)
  | setC (new old : Ptr)
  | assign (new old : Ptr)
  | info (new old : Ptr) (pc : InfoPc)
  | callRcu (old : Ptr)
  deriving DecidableEq, Repr

inductive ReaderListPc
  | loop
  | lock
  | first
  | info (p : Ptr) (pc : InfoPc)
  | next (p : Ptr)
  | unlock
  deriving DecidableEq, Repr

inductive UpdaterListPc
  | loop
  | first
  | kzalloc (p : Ptr)
  | copy (p q : Ptr)
  | setA (p q : Ptr)
  | setB (p q : Ptr)
  | setC (p q : Ptr)
  | replaceLinks (p q : Ptr)
  | replaceNext (p q : Ptr)
  | replacePrev (p q : Ptr)
  | replacePoison (p q : Ptr)
  | info (p q : Ptr) (pc : InfoPc)
  | synchronize (p : Ptr)
  | wait (p : Ptr)
  | kfree (p : Ptr)
  deriving DecidableEq, Repr

/-- Where a thread is, with its variables. `cnt` is what is left of the loop. -/
inductive Local
  | reader (cnt : Nat) (pc : ReaderPc)
  | updater (cnt : Nat) (value : Int) (pc : UpdaterPc)
  | readerList (cnt : Nat) (pc : ReaderListPc)
  | updaterList (cnt : Nat) (value : Int) (pc : UpdaterListPc)
  | returned
  | oops
  deriving DecidableEq, Repr

abbrev Step := Local × Sys × List Out

def Sys.fault (s : Sys) (i : Task) : Step := (.oops, s, [.oops (some i)])

/-- An access to `*p`, and what the thread does with what is there. -/
def Sys.access (s : Sys) (i : Task) (p : Ptr) (k : Nat → Foo → Step) : Step :=
  match p with
  | none => s.fault i
  | some q =>
    match s.heap q with
    | none => s.fault i
    | some foo => k q foo

/-- A step that cannot access what it has to. -/
def Sys.orFault (s : Sys) (i : Task) (l : Local) : Option Sys → Step
  | some s' => (l, s', [])
  | none => s.fault i

/-- `pr_info(..., p->a, p->b, p->c)` -/
def prInfo (i : Task) (p : Ptr) (s : Sys) (within : InfoPc → Local) (after : Local) :
    InfoPc → Step
  | .a => s.access i p fun _ foo => (within (.b foo.a), s, [])
  | .b x => s.access i p fun _ foo => (within (.c x foo.b), s, [])
  | .c x y => s.access i p fun _ foo => (after, s, [.info i x y foo.c])

/-- `while (cnt--)` -/
def whileCnt (s : Sys) (cnt : Nat) (body : Nat → Local) : Step :=
  match cnt with
  | 0 => (.returned, s, [])
  | cnt + 1 => (body cnt, s, [])

/-- `kzalloc(sizeof(struct foo), GFP_KERNEL)` -/
def kzallocStep (i : Task) (e : Choice) (s : Sys) (after : Ptr → Local) : Step :=
  match e with
  | .go => (after (some s.kzalloc.1), s.kzalloc.2, [])
  | .fail => (after none, s, [.noMemory i])

/-- `p->... = ...` -/
def storeStep (i : Task) (p : Ptr) (s : Sys) (f : Foo → Foo) (after : Local) : Step :=
  s.access i p fun q foo => (after, s.write q (f foo), [])

def rcuReader (cnt : Nat) (s : Sys) : ReaderPc → Step
  | .loop => whileCnt s cnt fun cnt => .reader cnt .lock
  | .lock => (.reader cnt .dereference, { s with rcu := s.rcu.lock .reader }, [])
  | .dereference => (.reader cnt (.info s.gPfoo .a), s, [])
  | .info p pc =>
    prInfo .reader p s (fun pc => .reader cnt (.info p pc)) (.reader cnt .unlock) pc
  | .unlock =>
    (.reader cnt .loop, { s with rcu := s.rcu.unlock .reader }, [.unlocked .reader])

def rcuUpdater (e : Choice) (cnt : Nat) (value : Int) (s : Sys) : UpdaterPc → Step
  | .loop => whileCnt s cnt fun cnt => .updater cnt value .kzalloc
  | .kzalloc => kzallocStep .updater e s fun new => .updater cnt value (.readOld new)
  | .readOld new => (.updater cnt value (.copy new s.gPfoo), s, [])
  | .copy new old =>
    s.access .updater s.gPfoo fun _ foo =>
      storeStep .updater new s (fun _ => foo) (.updater cnt value (.setA new old))
  | .setA new old =>
    storeStep .updater new s (fun foo => { foo with a := value })
      (.updater cnt value (.setB new old))
  | .setB new old =>
    storeStep .updater new s (fun foo => { foo with b := value + 1 })
      (.updater cnt value (.setC new old))
  | .setC new old =>
    storeStep .updater new s (fun foo => { foo with c := value + 2 })
      (.updater cnt value (.assign new old))
  | .assign new old => (.updater cnt value (.info new old .a), { s with gPfoo := new }, [])
  | .info new old pc =>
    prInfo .updater new s (fun pc => .updater cnt value (.info new old pc))
      (.updater cnt value (.callRcu old)) pc
  -- `value++` goes with it
  | .callRcu old =>
    s.access .updater old fun p _ =>
      (.updater cnt (value + 1) .loop, { s with rcu := s.rcu.begin (.callback p) }, [])

/-- Where `list_for_each_entry_rcu` goes on: the entry is the next one, or the loop is over. -/
def ReaderListPc.visit : Link → ReaderListPc
  | .head => .unlock
  | l => .info l.entry .a

def rcuReaderList (cnt : Nat) (s : Sys) : ReaderListPc → Step
  | .loop => whileCnt s cnt fun cnt => .readerList cnt .lock
  | .lock => (.readerList cnt .first, { s with rcu := s.rcu.lock .readerList }, [])
  | .first => (.readerList cnt (.visit s.listNext), s, [])
  | .info p pc =>
    prInfo .readerList p s (fun pc => .readerList cnt (.info p pc)) (.readerList cnt (.next p)) pc
  | .next p => s.access .readerList p fun _ foo => (.readerList cnt (.visit foo.next), s, [])
  | .unlock =>
    (.readerList cnt .loop, { s with rcu := s.rcu.unlock .readerList }, [.unlocked .readerList])

/-- `none`: the thread waits for the grace period to end. -/
def rcuUpdaterList (e : Choice) (cnt : Nat) (value : Int) (s : Sys) :
    UpdaterListPc → Option Step
  | .loop => some (whileCnt s cnt fun cnt => .updaterList cnt value .first)
  | .first => some (.updaterList cnt value (.kzalloc s.listFirstOrNullRcu), s, [])
  | .kzalloc p =>
    some (kzallocStep .updaterList e s fun q => .updaterList cnt value (.copy p q))
  | .copy p q =>
    some (s.access .updaterList p fun _ foo =>
      storeStep .updaterList q s (fun _ => foo) (.updaterList cnt value (.setA p q)))
  | .setA p q =>
    some (storeStep .updaterList q s (fun foo => { foo with a := value })
      (.updaterList cnt value (.setB p q)))
  | .setB p q =>
    some (storeStep .updaterList q s (fun foo => { foo with b := value + 1 })
      (.updaterList cnt value (.setC p q)))
  | .setC p q =>
    some (storeStep .updaterList q s (fun foo => { foo with c := value + 2 })
      (.updaterList cnt value (.replaceLinks p q)))
  -- `list_replace_rcu(&p->list, &q->list)`
  | .replaceLinks p q =>
    some (s.access .updaterList p fun _ old =>
      storeStep .updaterList q s (fun foo => { foo with next := old.next, prev := old.prev })
        (.updaterList cnt value (.replaceNext p q)))
  | .replaceNext p q =>
    some (s.access .updaterList q fun r foo =>
      s.orFault .updaterList (.updaterList cnt value (.replacePrev p q))
        (s.setNext (.node r) foo.prev))
  | .replacePrev p q =>
    some (s.access .updaterList q fun r foo =>
      s.orFault .updaterList (.updaterList cnt value (.replacePoison p q))
        (s.setPrev (.node r) foo.next))
  | .replacePoison p q =>
    some (storeStep .updaterList p s (fun foo => { foo with prev := .poison })
      (.updaterList cnt value (.info p q .a)))
  | .info p q pc =>
    some (prInfo .updaterList q s (fun pc => .updaterList cnt value (.info p q pc))
      (.updaterList cnt value (.synchronize p)) pc)
  | .synchronize p =>
    some (.updaterList cnt value (.wait p), { s with rcu := s.rcu.begin .sync }, [])
  | .wait p =>
    if s.rcu.waits .sync = some ∅ then
      some (.updaterList cnt value (.kfree p), { s with rcu := s.rcu.finish .sync }, [])
    else none
  -- `value++` goes with it
  | .kfree p => some (s.orFault .updaterList (.updaterList cnt (value + 1) .loop) (s.kfree p))

/-- One step of a thread. -/
def act (_ : Task) (e : Choice) : Local → Sys → Option Step
  | .reader cnt pc, s => some (rcuReader cnt s pc)
  | .updater cnt value pc, s => some (rcuUpdater e cnt value s pc)
  | .readerList cnt pc, s => some (rcuReaderList cnt s pc)
  | .updaterList cnt value pc, s => rcuUpdaterList e cnt value s pc
  | .returned, _ => none
  | .oops, _ => none

/-- The softirq calls `rcu_reclaimer` for a block whose grace period is over. -/
def rcuReclaimer (p : Nat) (s : Sys) : Option (Sys × List Out) :=
  if s.rcu.waits (.callback p) = some ∅ then
    match s.heap p with
    | some foo =>
      some ({ s with
        heap := Function.update s.heap p none
        rcu := s.rcu.finish (.callback p) }, [.reclaimed foo.a foo.b foo.c])
    | none => some ({ s with rcu := s.rcu.finish (.callback p) }, [.oops none])
  else none

/-! ## The module -/

/-- Before the module is loaded. -/
def empty : Sys where
  heap := fun _ => none
  brk := 0
  gPfoo := none
  listNext := .head
  listPrev := .head
  rcu := ⟨∅, fun _ => none⟩

/-- `rcu_test_init`, when there is memory. The threads that it has created are in their first
`msleep` while it runs. -/
def rcuTestInit (s : Sys) : Option Sys :=
  let (g, s) := s.kzalloc
  let s := { s with gPfoo := some g }
  let (p, s) := s.kzalloc
  s.listAddRcu p

/-- The memory that `rcu_test_exit` frees, before it stops the threads. -/
def rcuTestExit (s : Sys) : Option Sys := do
  let s ← s.kfree s.gPfoo
  s.kfree s.listFirstOrNullRcu

/-- What `rcu_test_init` leaves: a block of zeros at `g_pfoo`, and another one on the list. -/
def loaded : Sys where
  heap := Function.update (Function.update (fun _ => none) 0 (some .zero)) 1
    (some ⟨0, 0, 0, .head, .head⟩)
  brk := 2
  gPfoo := some 0
  listNext := .node 1
  listPrev := .node 1
  rcu := ⟨∅, fun _ => none⟩

theorem rcuTestInit_empty : rcuTestInit empty = some loaded := by
  simp [rcuTestInit, Sys.kzalloc, Sys.listAddRcu, Sys.setNext, Sys.setPrev, Sys.write, empty,
    Foo.zero, loaded]

/-- Where the threads begin. -/
def rcuThread : Task → Local
  | .reader => .reader 100 .loop
  | .updater => .updater 100 1 .loop
  | .readerList => .readerList 100 .loop
  | .updaterList => .updaterList 100 1000 .loop

/-! ## Runs -/

abbrev Event := (Task × Choice) ⊕ Nat

/-- A step of a thread, or a callback that the softirq runs. -/
def step : Event → Pool.Config Task Sys Local → Pool.Config Task Sys Local × List Out :=
  Pool.step act rcuReclaimer

def start : Pool.Config Task Sys Local := ⟨loaded, rcuThread⟩

/-- The state after the events. -/
def run (es : List Event) : Pool.Config Task Sys Local := Machine.run step start es

def trace (es : List Event) : List Out := Machine.trace step start es

end RcuDemo
