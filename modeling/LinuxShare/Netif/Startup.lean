-- SUMMARY: netif_event_server_init and the receiver thread it starts, interleaved.
import LinuxShare.Netif.Copies
import LinuxShare.Netif.Integrity
import Mathlib.Tactic.IntervalCases

/-!
# Startup

`netif_event_server_init` joins the netlink groups and starts the receiver thread
before it initialises the mutex and the list head that the thread uses. Here its
statements and the steps of the thread's handlers interleave in any order, with
messages arriving from the moment the socket is there.
-/

namespace Netif

open Bytes Resumable Ring

/-! ## The two threads -/

/-- The statements of `netif_event_server_init`. -/
inductive InitStmt where
  | epollCreate
  | createNetlinkSocket
  | epollAddFd
  | netifColdboot
  | commonCreateThread
  | pthreadMutexInit
  | commonInitListHead
  deriving DecidableEq

/-- The body of `netif_event_server_init`. -/
def netifEventServerInit : List InitStmt :=
  [.epollCreate, .createNetlinkSocket, .epollAddFd, .netifColdboot, .commonCreateThread,
    .pthreadMutexInit, .commonInitListHead]

/-- What a statement does to `netif_head`. -/
def InitStmt.exec : InitStmt → Sys → Sys
  | .pthreadMutexInit, s => { s with mutex := .unlocked }
  | .commonInitListHead, s =>
    { s with links := Netif.commonInitListHead s.links headAddr, listReady := true }
  | _, s => s

/-- `main` are the statements that `netif_event_server_init` still has to execute,
`cur` is what the receiver still has to do for the message it is handling, and
`queue` are the messages that are waiting for it. The schedule so far: `ran` are the
statements that have been executed, `msg` is the message that the receiver has taken
last, and `taken` is how many steps it has taken for it. -/
structure Config where
  sys : Sys
  main : List InitStmt
  ran : List InitStmt
  socket : Bool
  thread : Bool
  msg : Option NlMsg
  taken : Nat
  cur : Step Unit
  queue : List NlMsg

def Config.start : Config where
  sys := Sys.static
  main := netifEventServerInit
  ran := []
  socket := false
  thread := false
  msg := none
  taken := 0
  cur := .ret ()
  queue := []

/-- A statement is executed, or fails, and then `func_exec` returns from
`netif_event_server_init`; `COMMON_INIT_LIST_HEAD` cannot fail. -/
inductive MainStep : Config → Config → Prop where
  | exec {c : Config} {i : InitStmt} {is : List InitStmt} : c.main = i :: is →
      MainStep c { c with
        sys := i.exec c.sys
        main := is
        ran := c.ran ++ [i]
        socket := c.socket || i == .createNetlinkSocket
        thread := c.thread || i == .commonCreateThread }
  | error {c : Config} {i : InitStmt} {is : List InitStmt} : c.main = i :: is →
      i ≠ .commonInitListHead → MainStep c { c with main := [] }

/-- A step of the whole: the receiver's handlers take theirs only where `C` holds.
Between two messages the receiver takes the next one of those that
`netlink_event_handle` goes through, and does nothing else. -/
inductive ConfigStep (M : Malloc) (C : Config → Prop) : Config → Config → Prop where
  | main {c c' : Config} : MainStep c c' → ConfigStep M C c c'
  | arrive {c : Config} (m : NlMsg) : c.socket = true →
      ConfigStep M C c { c with queue := c.queue ++ [m] }
  | fetch {c : Config} {m : NlMsg} {ms : List NlMsg} : c.thread = true → c.cur = .ret () →
      c.queue = m :: ms →
      ConfigStep M C c { c with msg := some m, taken := 0, cur := m.handle M, queue := ms }
  | handle {c : Config} {p : Step Unit} {s : Sys} : C c → Prog.Next (c.cur, c.sys) (p, s) →
      ConfigStep M C c { c with taken := c.taken + 1, cur := p, sys := s }

def Reachable (M : Malloc) (C : Config → Prop) : Config → Prop :=
  Relation.ReflTransGen (ConfigStep M C) .start

/-- Nothing has used the mutex or the list head before it was initialised, the counter
is right between two messages, and initialising drops no node. -/
structure Sound (c : Config) : Prop where
  early : c.sys.early = false
  sum : c.cur = .ret () → c.sys.nodes.length < 2 ^ 32 → c.sys.listSum = c.sys.nodes.length
  kept : ∀ c', MainStep c c' → c'.sys.nodes = c.sys.nodes

/-- For a message with a name the receiver takes its second step, the one after the
copy of the name, only when `pthread_mutex_init` has been executed, and its third only
when `COMMON_INIT_LIST_HEAD` has. -/
structure OnTime (c : Config) : Prop where
  second : ∀ m, c.msg = some m → m.name ≠ [] → c.taken = 1 → .pthreadMutexInit ∈ c.ran
  third : ∀ m, c.msg = some m → m.name ≠ [] → c.taken = 2 → .commonInitListHead ∈ c.ran

/-! ## Steps after the initialisation -/

/-- The mutex and the list head are initialised and have not been used before. -/
structure Initialised (s : Sys) : Prop where
  ready : s.listReady = true
  mutex : s.mutex ≠ .uninit
  early : s.early = false

/-- It is only these three fields that matter. -/
theorem Initialised.congr {s s' : Sys} (h : Initialised s) (hready : s'.listReady = s.listReady)
    (hmutex : s'.mutex = s.mutex) (hearly : s'.early = s.early) : Initialised s' :=
  ⟨hready.trans h.ready, hmutex ▸ h.mutex, hearly.trans h.early⟩

section Keeps

open Prog

variable {α : Type} {a p : Addr} {M : Malloc} {name : List UInt8}

theorem keeps_fail (e : Fault) : (fail e : Step α).Keeps Initialised :=
  .atom fun _ _ _ h => nomatch h

theorem keeps_log (line : LogLine) : (log line).Keeps Initialised :=
  .atom fun _ _ _ h hs => by
    cases h
    exact hs.congr rfl rfl rfl

theorem keeps_lock : lock.Keeps Initialised :=
  .atom fun s _ _ h hs => by
    have hmutex := hs.mutex
    split at h
    · cases h
    · cases h
      exact ⟨hs.ready, Mutex.noConfusion, hs.early⟩
    · next huninit => exact absurd huninit hmutex

theorem keeps_unlock : unlock.Keeps Initialised :=
  .atom fun _ _ _ h hs => by
    cases h
    exact ⟨hs.ready, Mutex.noConfusion, hs.early⟩

theorem keeps_loadNext (p : Addr) : (loadNext p).Keeps Initialised :=
  .atom fun s _ _ h hs => by
    split at h
    · cases h
      rwa [Sys.touch_of_ready hs.ready]
    · cases h

theorem keeps_linkNode (new head : Addr) : (linkNode new head).Keeps Initialised :=
  .atom fun s _ _ h hs => by
    split at h
    · cases h
      rw [Sys.touch_of_ready hs.ready]
      exact hs.congr rfl rfl rfl
    · cases h

theorem keeps_loadAttr (p : Addr) (f : Attr → α) : (loadAttr p f).Keeps Initialised :=
  .atom fun _ _ _ h hs => by
    split at h
    · cases h
      exact hs
    · cases h

theorem keeps_storeAttr (p : Addr) (f : Attr → Attr) : (storeAttr p f).Keeps Initialised :=
  .atom fun _ _ _ h hs => by
    split at h
    · cases h
      exact hs.congr rfl rfl rfl
    · cases h

theorem keeps_copyToNode (p : Addr) (dst : Dst) (data : List UInt8) :
    (copyToNode p dst data).Keeps Initialised :=
  .atom fun _ _ _ h hs => by
    split at h
    · split at h
      · cases h
        exact hs.congr rfl rfl rfl
      · cases h
    · cases h

theorem keeps_copyToIfname (data : List UInt8) : (copyToIfname data).Keeps Initialised :=
  .atom fun _ _ _ h hs => by
    split at h
    · cases h
      exact hs.congr rfl rfl rfl
    · cases h

theorem keeps_malloc (M : Malloc) : (malloc M).Keeps Initialised :=
  .atom fun _ _ _ h hs => by
    split at h
    · cases h
      exact hs.congr rfl rfl rfl
    · cases h
      exact hs

theorem keeps_loadSum : loadSum.Keeps Initialised :=
  .atom fun _ _ _ h hs => by
    cases h
    exact hs

theorem keeps_storeSum (n : Nat) : (storeSum n).Keeps Initialised :=
  .atom fun _ _ _ h hs => by
    cases h
    exact hs.congr rfl rfl rfl

theorem keeps_blockCount : blockCount.Keeps Initialised :=
  .atom fun _ _ _ h hs => by
    cases h
    exact hs

theorem keeps_findLoop (name : List UInt8) (n : Nat) (pos : Addr) :
    (findLoop name n pos).Keeps Initialised := by
  induction n generalizing pos with
  | zero =>
      unfold findLoop
      split
      · exact .pure _
      · exact keeps_fail _
  | succ n ih =>
      unfold findLoop
      split
      · exact .pure _
      · refine .bind (keeps_loadAttr pos _) fun found => ?_
        split
        · exact .pure _
        · exact .bind (keeps_loadNext pos) ih

theorem keeps_netifNodeFind (name : List UInt8) : (netifNodeFind name).Keeps Initialised := by
  unfold netifNodeFind findNode
  refine .bind keeps_lock fun _ => .bind (.bind (keeps_loadNext headAddr) fun first => ?_) fun node => ?_
  · exact .bind keeps_blockCount fun n => keeps_findLoop name (n + 1) first
  · exact .bind keeps_unlock fun _ => .pure node

theorem keeps_netifNodeAdd (M : Malloc) (name : List UInt8) :
    (netifNodeAdd M name).Keeps Initialised := by
  unfold netifNodeAdd
  refine .bind (keeps_malloc M) fun r => ?_
  cases r with
  | none => exact .pure _
  | some node =>
      refine .bind (keeps_storeAttr node _) fun _ => .bind (keeps_storeAttr node _) fun _ => ?_
      refine .bind keeps_lock fun _ => .bind (keeps_linkNode node headAddr) fun _ => ?_
      refine .bind keeps_unlock fun _ => .bind keeps_loadSum fun n => ?_
      exact .bind (keeps_storeSum _) fun _ => .pure _

theorem keeps_netEventNotify (name : List UInt8) (type : NetifEventType) :
    (netEventNotify name type).Keeps Initialised := by
  unfold netEventNotify
  refine .bind (keeps_netifNodeFind name) fun r => ?_
  cases r with
  | none => exact .pure _
  | some node =>
      have hset : (do lock; storeAttr node fun a => a.setCurrentState type.val; unlock
          : Step Unit).Keeps Initialised :=
        .bind keeps_lock fun _ => .bind (keeps_storeAttr node _) fun _ => keeps_unlock
      refine .bind (keeps_loadAttr node _) fun current => ?_
      split
      · cases type with
        | ifUp => exact .bind (keeps_log _) fun _ => hset
        | ifDown => exact .bind (keeps_log _) fun _ => hset
        | ifNewaddr =>
            refine .bind (keeps_loadAttr node _) fun ipaddr => ?_
            exact .bind (keeps_log _) fun _ => hset
        | ifDeladdr =>
            refine .bind (keeps_log _) fun _ => .bind keeps_lock fun _ => ?_
            refine .bind (keeps_storeAttr node _) fun _ => .bind keeps_unlock fun _ => ?_
            refine .bind (keeps_loadAttr node _) fun ipaddr => ?_
            exact .bind (keeps_log _) fun _ => hset
      · exact hset

theorem keeps_dispatchPayload {payload : List UInt8} {old : α} {memcpy : List UInt8 → Step α}
    (h : (memcpy payload).Keeps Initialised) :
    (dispatchPayload payload old memcpy).Keeps Initialised := by
  unfold dispatchPayload
  split
  · exact h
  · exact .pure old

theorem keeps_body (m : NlMsg) (name : List UInt8) (node : Addr) :
    (m.body name node).Keeps Initialised := by
  unfold NlMsg.body
  split
  · unfold linkBody
    refine .bind keeps_lock fun _ => .bind (keeps_storeAttr node _) fun _ => ?_
    refine .bind (keeps_storeAttr node _) fun _ => ?_
    refine .bind (keeps_dispatchPayload (keeps_copyToNode node _ _)) fun _ => ?_
    refine .bind (keeps_dispatchPayload (keeps_copyToNode node _ _)) fun _ => ?_
    refine .bind keeps_unlock fun _ => ?_
    split
    · refine .bind (keeps_loadAttr node _) fun up => .bind (keeps_log _) fun _ => ?_
      exact .bind (keeps_loadAttr node _) fun up => keeps_netEventNotify name _
    · split
      · refine .bind (keeps_loadAttr node _) fun up => .bind (keeps_log _) fun _ => ?_
        exact keeps_netEventNotify name _
      · exact .pure _
  · unfold addrBody
    refine .bind keeps_lock fun _ => ?_
    refine .bind (keeps_dispatchPayload (keeps_copyToNode node _ _)) fun _ => ?_
    refine .bind keeps_unlock fun _ => ?_
    split
    · exact .bind (keeps_log _) fun _ => keeps_netEventNotify name _
    · split
      · exact .bind (keeps_log _) fun _ => keeps_netEventNotify name _
      · exact .pure _

/-- After the initialisation, no step of a handler is early. -/
theorem keeps_handle (m : NlMsg) (M : Malloc) : (m.handle M).Keeps Initialised := by
  rw [m.handle_eq]
  unfold withNode findOrAdd localString
  refine .bind (keeps_dispatchPayload (keeps_copyToIfname _)) fun ifname => .bind ?_ fun name => ?_
  · split
    · exact .pure _
    · exact keeps_fail _
  · split
    · exact .pure _
    · refine .bind (.bind (keeps_netifNodeFind name) fun r => ?_) fun r => ?_
      · cases r with
        | none => exact keeps_netifNodeAdd M name
        | some node => exact .pure _
      · cases r with
        | none => exact .pure _
        | some node => exact keeps_body m name node

end Keeps

/-! ## Before the list is read -/

/-- What is left of the handler of `m` after so many steps, up to its search of the
list: it copies the name, and then it ends, faults, or locks the mutex and reads the
list head. -/
inductive Entry (m : NlMsg) : Nat → Step Unit → Prop where
  | ret (n : Nat) : Entry m n (.ret ())
  | fail (n : Nat) (e : Fault) (k : List UInt8 → Step Unit) : Entry m n (Netif.fail e >>= k)
  | copy (k : Mem → Step Unit) : Entry m 1 (k (Mem.ofList m.namePayload)) →
      Entry m 0 (copyToIfname m.namePayload >>= k)
  | search (k : Addr → Step Unit) : m.name ≠ [] →
      Entry m 1 (lock >>= fun _ => loadNext headAddr >>= k)
  | read (k : Addr → Step Unit) : m.name ≠ [] → Entry m 2 (loadNext headAddr >>= k)

theorem netifNodeFind_bind {α : Type} (name : List UInt8) (k : Option Addr → Step α) :
    (netifNodeFind name >>= k) = (lock >>= fun _ => loadNext headAddr >>= fun first =>
      blockCount >>= fun n => findLoop name (n + 1) first >>= fun node => unlock >>= fun _ =>
        k node) := by
  simp only [netifNodeFind, findNode, bind_assoc, pure_bind]

/-- A handler begins so. -/
theorem entry_handle (m : NlMsg) (M : Malloc) : Entry m 0 (m.handle M) := by
  rw [m.handle_eq, withNode, dispatchPayload]
  split
  · refine .copy _ ?_
    rw [localString]
    split
    · rw [pure_bind]
      split
      · exact .ret 1
      · next hne =>
          rw [findOrAdd, bind_assoc, netifNodeFind_bind]
          exact .search _ fun hnil => hne (congrArg List.length hnil)
    · exact .fail 1 _ _
  · have hlocal : localString (Mem.ofList []) = pure [] := if_pos (by decide)
    rw [pure_bind, hlocal, pure_bind]
    exact .ret 0

/-! ## The initialised state -/

/-- The state as it will be after the initialisation. -/
def Sys.initialised (s : Sys) : Sys :=
  if s.listReady then s
  else { s with
    links := commonInitListHead s.links headAddr
    listReady := true
    mutex := if s.mutex = .uninit then .unlocked else s.mutex }

theorem Sys.initialised_of_ready {s : Sys} (h : s.listReady = true) : s.initialised = s := if_pos h

/-- Nothing is there yet but what has been logged, and the receiver, which holds the
mutex only when it is about to read the list head, has not gone on from there. -/
structure Pending (c : Config) : Prop where
  links : c.sys.links = Sys.static.links
  attrs : c.sys.attrs = ∅
  sum : c.sys.listSum = 0
  ready : c.sys.listReady = false
  early : c.sys.early = false
  main : c.main = [] ∨ c.ran ++ c.main = netifEventServerInit
  list : .commonInitListHead ∉ c.ran
  mutex : .pthreadMutexInit ∈ c.ran ↔ c.sys.mutex ≠ .uninit
  cur : c.cur = .ret () ∨ ∃ m, c.msg = some m ∧ Entry m c.taken c.cur
  free : c.sys.mutex = .locked → c.taken = 2 ∧ c.cur ≠ .ret ()

/-- The initialisation is complete. -/
structure Complete (c : Config) : Prop where
  sys : Initialised c.sys
  main : c.main = []
  mutex : .pthreadMutexInit ∈ c.ran
  list : .commonInitListHead ∈ c.ran

/-! ## The invariant -/

/-- Until the initialisation is complete the receiver has not got to the list; after it,
every step is as in a sequential run. -/
structure Inv (c : Config) : Prop where
  keeps : c.cur.Keeps Initialised
  safe : Prog.Safe Good c.cur c.sys.initialised
  phase : Pending c ∨ Complete c

theorem Good.safe_handle {s : Sys} (h : Good s) (m : NlMsg) (M : Malloc) :
    Prog.Safe Good (m.handle M) s :=
  fun _ _ hrun => (h.handled_of_run hrun).2.good

theorem inv_start : Inv .start where
  keeps := trivial
  safe := .ret good_init ()
  phase := .inl
    { links := rfl
      attrs := rfl
      sum := rfl
      ready := rfl
      early := rfl
      main := .inr rfl
      list := List.not_mem_nil
      mutex := by decide
      cur := .inl rfl
      free := (nomatch ·) }

theorem InitStmt.exec_eq_self {i : InitStmt} (hmutex : i ≠ .pthreadMutexInit)
    (hlist : i ≠ .commonInitListHead) (s : Sys) : i.exec s = s := by
  cases i <;> first | rfl | contradiction

/-- A statement is executed once, and `COMMON_INIT_LIST_HEAD` after all others. -/
theorem append_cons_eq_init {ran is : List InitStmt} {i : InitStmt}
    (h : ran ++ i :: is = netifEventServerInit) :
    i ∉ ran ∧ .commonInitListHead ∉ ran ∧
      (i = .commonInitListHead → is = [] ∧ .pthreadMutexInit ∈ ran) := by
  have hran : netifEventServerInit.take ran.length = ran := by rw [← h, List.take_left]
  have hrest : netifEventServerInit.drop ran.length = i :: is := by rw [← h, List.drop_left]
  have hlen : ran.length < 7 := by
    have hsum := congrArg List.length h
    simp only [List.length_append, List.length_cons, netifEventServerInit] at hsum
    simp only [List.length_nil] at hsum
    omega
  revert hran hrest
  generalize ran.length = n at hlen
  rintro rfl hrest
  interval_cases n
  all_goals
    obtain ⟨rfl, rfl⟩ := List.cons.inj hrest
    decide

theorem Inv.pending {c : Config} {i : InitStmt} {is : List InitStmt} (h : Inv c)
    (hmain : c.main = i :: is) : Pending c := by
  rcases h.phase with hp | ⟨_, hdone⟩
  · exact hp
  · cases hdone.symm.trans hmain

/-- What has been executed and what has not, before a statement. -/
theorem Pending.ran {c : Config} {i : InitStmt} {is : List InitStmt} (h : Pending c)
    (hmain : c.main = i :: is) : c.ran ++ i :: is = netifEventServerInit := by
  rcases h.main with hnil | hrest
  · cases hnil.symm.trans hmain
  · rwa [hmain] at hrest

/-- `pthread_mutex_init` does what the receiver's steps count on. -/
theorem Inv.pthreadMutexInit {c : Config} {is : List InitStmt} {socket thread : Bool} (h : Inv c)
    (hmain : c.main = .pthreadMutexInit :: is) :
    Inv ⟨InitStmt.pthreadMutexInit.exec c.sys, is, c.ran ++ [.pthreadMutexInit], socket, thread,
      c.msg, c.taken, c.cur, c.queue⟩ := by
  have hp := h.pending hmain
  have hran := hp.ran hmain
  obtain ⟨hnew, hlist, _⟩ := append_cons_eq_init hran
  have hsys : c.sys.mutex = .uninit := by
    by_contra hne
    exact hnew (hp.mutex.mpr hne)
  have heq : (InitStmt.exec .pthreadMutexInit c.sys).initialised = c.sys.initialised := by
    simp [Sys.initialised, InitStmt.exec, hp.ready, hsys]
  refine ⟨h.keeps, heq ▸ h.safe, .inl { hp with main := ?_, list := ?_, mutex := ?_, free := ?_ }⟩
  · exact .inr ((List.append_assoc _ _ _).trans hran)
  · simpa using hlist
  · exact ⟨fun _ => Mutex.noConfusion, fun _ => by simp⟩
  · exact (nomatch ·)

/-- With `COMMON_INIT_LIST_HEAD` the initialisation is complete. -/
theorem Inv.commonInitListHead {c : Config} {is : List InitStmt} {socket thread : Bool} (h : Inv c)
    (hmain : c.main = .commonInitListHead :: is) :
    Inv ⟨InitStmt.commonInitListHead.exec c.sys, is, c.ran ++ [.commonInitListHead], socket, thread,
      c.msg, c.taken, c.cur, c.queue⟩ := by
  have hp := h.pending hmain
  obtain ⟨hlast, hmutex⟩ := (append_cons_eq_init (hp.ran hmain)).2.2 rfl
  have hsys : c.sys.mutex ≠ .uninit := hp.mutex.mp hmutex
  have heq : InitStmt.exec .commonInitListHead c.sys = c.sys.initialised := by
    simp [Sys.initialised, InitStmt.exec, hp.ready, hsys]
  refine ⟨h.keeps, ?_, .inr ⟨⟨rfl, hsys, hp.early⟩, hlast, ?_, ?_⟩⟩
  · rw [Sys.initialised_of_ready rfl]
    exact heq ▸ h.safe
  · exact List.mem_append_left _ hmutex
  · exact List.mem_append_right _ List.mem_cons_self

theorem Inv.main {c c' : Config} (h : Inv c) (hstep : MainStep c c') : Inv c' := by
  cases hstep with
  | error hmain => exact ⟨h.keeps, h.safe, .inl { h.pending hmain with main := .inl rfl }⟩
  | @exec i is hmain =>
      by_cases hmutex : i = .pthreadMutexInit
      · subst hmutex
        exact h.pthreadMutexInit hmain
      · by_cases hlist : i = .commonInitListHead
        · subst hlist
          exact h.commonInitListHead hmain
        · have hp := h.pending hmain
          have hran := hp.ran hmain
          rw [InitStmt.exec_eq_self hmutex hlist]
          refine ⟨h.keeps, h.safe, .inl { hp with main := ?_, list := ?_, mutex := ?_ }⟩
          · exact .inr ((List.append_assoc _ _ _).trans hran)
          · simpa [Ne.symm hlist] using hp.list
          · simpa [Ne.symm hmutex] using hp.mutex

/-- A lock of the initialised mutex, before the list head is. -/
theorem Pending.lock {c : Config} {m : NlMsg} {k : Addr → Step Unit} {p : Step Unit} {s : Sys}
    (hp : Pending c) (hmsg : c.msg = some m) (hne : m.name ≠ []) (htaken : c.taken = 1)
    (hmutex : c.sys.mutex = .unlocked) (hcur : c.cur = (Netif.lock >>= fun _ => loadNext headAddr >>= k))
    (hn : Prog.Next (c.cur, c.sys) (p, s)) :
    Pending { c with taken := c.taken + 1, cur := p, sys := s } ∧
      Prog.Next (c.cur, c.sys.initialised) (p, s.initialised) := by
  rw [hcur] at hn ⊢
  obtain ⟨_, hact, rfl⟩ := Prog.next_atom_bind.mp hn
  rw [hmutex] at hact
  cases hact
  refine ⟨{ hp with mutex := ?_, cur := ?_, free := ?_ }, ?_⟩
  · have hran : .pthreadMutexInit ∈ c.ran := hp.mutex.mpr (by rw [hmutex]; exact Mutex.noConfusion)
    exact ⟨fun _ => Mutex.noConfusion, fun _ => hran⟩
  · rw [htaken]
    exact .inr ⟨m, hmsg, .read k hne⟩
  · exact fun _ => ⟨congrArg (· + 1) htaken, Prog.ret_ne_atom_bind.symm⟩
  · refine Prog.next_atom_bind.mpr ⟨(), ?_, rfl⟩
    simp [Sys.initialised, hp.ready, hmutex]

/-- The copy of a name. -/
theorem Pending.copy {c : Config} {m : NlMsg} {k : Mem → Step Unit} {p : Step Unit} {s : Sys}
    (hp : Pending c) (hmsg : c.msg = some m) (htaken : c.taken = 0)
    (hk : Entry m 1 (k (Mem.ofList m.namePayload)))
    (hcur : c.cur = (copyToIfname m.namePayload >>= k)) (hn : Prog.Next (c.cur, c.sys) (p, s)) :
    Pending { c with taken := c.taken + 1, cur := p, sys := s } ∧
      Prog.Next (c.cur, c.sys.initialised) (p, s.initialised) := by
  have hfree : c.sys.mutex ≠ .locked := by
    intro hlocked
    cases htaken.symm.trans (hp.free hlocked).1
  rw [hcur] at hn ⊢
  obtain ⟨b, hact, rfl⟩ := Prog.next_atom_bind.mp hn
  split at hact
  · next hle =>
      cases hact
      refine ⟨{ hp with cur := ?_, free := fun hlocked => absurd hlocked hfree }, ?_⟩
      · rw [htaken]
        exact .inr ⟨m, hmsg, hk⟩
      · refine Prog.next_atom_bind.mpr ⟨_, ?_, rfl⟩
        rw [if_pos hle]
        simp [Sys.initialised, Sys.emit, hp.ready]
  · cases hact

/-- A step of the receiver before the initialisation is complete does what it would do
after it, if it is on time. -/
theorem Pending.handle {c : Config} {p : Step Unit} {s : Sys} (hp : Pending c) (ht : OnTime c)
    (hn : Prog.Next (c.cur, c.sys) (p, s)) :
    Pending { c with taken := c.taken + 1, cur := p, sys := s } ∧
      Prog.Next (c.cur, c.sys.initialised) (p, s.initialised) := by
  rcases hp.cur with hret | ⟨m, hmsg, hentry⟩
  · rw [hret] at hn
    exact absurd hn Prog.not_next_ret
  · generalize hcur : c.cur = cur at hentry
    generalize htaken : c.taken = taken at hentry
    cases hentry with
    | ret =>
        rw [hcur] at hn
        exact absurd hn Prog.not_next_ret
    | fail n e k =>
        rw [hcur] at hn
        obtain ⟨_, hact, _⟩ := Prog.next_atom_bind.mp hn
        cases hact
    | copy k hk =>
        have hnext := hp.copy hmsg htaken hk hcur hn
        rwa [hcur, htaken] at hnext
    | search k hne =>
        have hran := ht.second m hmsg hne htaken
        have hmutex : c.sys.mutex = .unlocked := by
          cases hsys : c.sys.mutex with
          | uninit => exact absurd hsys (hp.mutex.mp hran)
          | unlocked => rfl
          | locked => cases htaken.symm.trans (hp.free hsys).1
        have hnext := hp.lock hmsg hne htaken hmutex hcur hn
        rwa [hcur, htaken] at hnext
    | read k hne => exact absurd (ht.third m hmsg hne htaken) hp.list

theorem Inv.handle {c : Config} {p : Step Unit} {s : Sys} (h : Inv c) (ht : OnTime c)
    (hn : Prog.Next (c.cur, c.sys) (p, s)) :
    Inv { c with taken := c.taken + 1, cur := p, sys := s } := by
  rcases h.phase with hp | hdone
  · obtain ⟨hp', hn'⟩ := hp.handle ht hn
    exact ⟨h.keeps.next hn, h.safe.next hn', .inl hp'⟩
  · have hi' : Initialised s := h.keeps.holds hn hdone.sys
    have hsafe := h.safe
    rw [Sys.initialised_of_ready hdone.sys.ready] at hsafe
    refine ⟨h.keeps.next hn, ?_, .inr { hdone with sys := hi' }⟩
    rw [Sys.initialised_of_ready hi'.ready]
    exact hsafe.next hn

theorem Inv.fetch {c : Config} {m : NlMsg} {ms : List NlMsg} (h : Inv c) (hcur : c.cur = .ret ())
    (M : Malloc) : Inv { c with msg := some m, taken := 0, cur := m.handle M, queue := ms } := by
  have hgood : Good c.sys.initialised := by
    have hsafe := h.safe
    rw [hcur] at hsafe
    exact hsafe.of_ret
  refine ⟨keeps_handle m M, hgood.safe_handle m M, ?_⟩
  rcases h.phase with hp | hdone
  · refine .inl { hp with cur := .inr ⟨m, rfl, entry_handle m M⟩, free := fun hlocked => ?_ }
    exact absurd hcur (hp.free hlocked).2
  · exact .inr { hdone with }

theorem Inv.step {M : Malloc} {c c' : Config} (h : Inv c) (hstep : ConfigStep M OnTime c c') :
    Inv c' := by
  cases hstep with
  | main hmain => exact h.main hmain
  | arrive m _ =>
      refine ⟨h.keeps, h.safe, ?_⟩
      rcases h.phase with hp | hdone
      · exact .inl { hp with }
      · exact .inr { hdone with }
  | fetch _ hcur _ => exact h.fetch hcur M
  | handle ht hn => exact h.handle ht hn

theorem inv_of_reachable {M : Malloc} {c : Config} (h : Reachable M OnTime c) : Inv c := by
  induction h with
  | refl => exact inv_start
  | tail _ hstep ih => exact ih.step hstep

theorem nodes_of_empty {s : Sys} (h : s.attrs = ∅) : s.nodes = [] := by
  rw [Sys.nodes, h]
  rfl

theorem Inv.sound {c : Config} (h : Inv c) : Sound c where
  early := by
    rcases h.phase with hp | hdone
    · exact hp.early
    · exact hdone.sys.early
  sum hcur hlen := by
    rcases h.phase with hp | hdone
    · rw [hp.sum, nodes_of_empty hp.attrs]
      rfl
    · have hsafe := h.safe
      rw [hcur, Sys.initialised_of_ready hdone.sys.ready] at hsafe
      exact (hsafe.of_ret.wellFormed hlen).sum
  kept c' hstep := by
    have hattrs : c'.sys.attrs = c.sys.attrs := by
      cases hstep with
      | @exec i is hmain => cases i <;> rfl
      | error => rfl
    rcases h.phase with hp | hdone
    · rw [nodes_of_empty hp.attrs, nodes_of_empty (hattrs.trans hp.attrs)]
    · cases hstep with
      | exec hmain => cases hdone.main.symm.trans hmain
      | error => rfl

/-! ## Steps that are not on time -/

theorem OnTime.of_taken_zero {c : Config} (h : c.taken = 0) : OnTime c :=
  ⟨fun _ _ _ h' => (nomatch h.symm.trans h'), fun _ _ _ h' => (nomatch h.symm.trans h')⟩

theorem OnTime.of_taken_one {c : Config} (h : c.taken = 1) (hran : .pthreadMutexInit ∈ c.ran) :
    OnTime c :=
  ⟨fun _ _ _ _ => hran, fun _ _ _ h' => (nomatch h.symm.trans h')⟩

/-- A lock of the mutex before it is initialised. -/
theorem early_of_lock {s s' : Sys} {p : Step Unit} {k : Unit → Step Unit} (hmutex : s.mutex = .uninit)
    (hn : Prog.Next (Netif.lock >>= k, s) (p, s')) : s'.early = true := by
  obtain ⟨_, hact, _⟩ := Prog.next_atom_bind.mp hn
  rw [hmutex] at hact
  cases hact
  rfl

/-- A read of the list head before it is initialised. -/
theorem early_of_read {s s' : Sys} {p : Step Unit} {k : Addr → Step Unit}
    (hready : s.listReady = false) (hn : Prog.Next (loadNext headAddr >>= k, s) (p, s')) :
    s'.early = true := by
  obtain ⟨_, hact, _⟩ := Prog.next_atom_bind.mp hn
  rw [if_pos (.inl rfl)] at hact
  cases hact
  simp [Sys.touch, hready]

/-- A step that is not on time uses the mutex or the list head before it is initialised. -/
theorem Pending.early_of_not_onTime {c : Config} {p : Step Unit} {s : Sys} (hp : Pending c) (ht : ¬ OnTime c)
    (hn : Prog.Next (c.cur, c.sys) (p, s)) : s.early = true := by
  rcases hp.cur with hret | ⟨m, hmsg, hentry⟩
  · rw [hret] at hn
    exact absurd hn Prog.not_next_ret
  · generalize c.cur = cur at hn hentry
    generalize htaken : c.taken = taken at hentry
    cases hentry with
    | ret => exact absurd hn Prog.not_next_ret
    | fail n e k =>
        obtain ⟨_, hact, _⟩ := Prog.next_atom_bind.mp hn
        cases hact
    | copy k hk => exact absurd (.of_taken_zero htaken) ht
    | search k hne =>
        refine early_of_lock ?_ hn
        by_contra hmutex
        exact ht (.of_taken_one htaken (hp.mutex.mpr hmutex))
    | read k hne => exact early_of_read hp.ready hn

theorem Complete.onTime {c : Config} (h : Complete c) : OnTime c :=
  ⟨fun _ _ _ _ => h.mutex, fun _ _ _ _ => h.list⟩

/-- In every interleaving in which the receiver's steps are on time, every state is sound;
and from such a state a step that is not on time is an early use. -/
theorem startup_sound (M : Malloc) {c : Config} (h : Reachable M OnTime c) :
    Sound c ∧ ∀ p s, Prog.Next (c.cur, c.sys) (p, s) → (s.early = false ↔ OnTime c) := by
  have hinv := inv_of_reachable h
  refine ⟨hinv.sound, fun p s hn => ⟨fun hearly => ?_, fun ht => (hinv.handle ht hn).sound.early⟩⟩
  rcases hinv.phase with hp | hdone
  · by_contra ht
    rw [hp.early_of_not_onTime ht hn] at hearly
    cases hearly
  · exact hdone.onTime

/-! ## Two runs -/

/-- A message with a name is copied, and then the mutex is locked for the search. -/
theorem NlMsg.handle_of_name {m : NlMsg} (hname : m.NameFits) (hne : m.name ≠ []) (M : Malloc) :
    ∃ k : Mem → Step Unit, m.handle M = (copyToIfname m.namePayload >>= k) ∧
      ∃ k' : Addr → Step Unit,
        k (Mem.ofList m.namePayload) = (lock >>= fun _ => loadNext headAddr >>= k') := by
  have hpos : 0 < m.namePayload.length := by
    refine List.length_pos_of_ne_nil fun hnil => hne ?_
    rw [NlMsg.name, hnil]
    rfl
  have hlocal : localString (Mem.ofList m.namePayload) = pure m.name := if_pos hname.2
  rw [m.handle_eq, withNode, dispatchPayload, if_pos hpos]
  refine ⟨_, rfl, ?_⟩
  rw [hlocal, pure_bind, if_neg (by simpa using hne), findOrAdd, bind_assoc, netifNodeFind_bind]
  exact ⟨_, rfl⟩

theorem Reachable.exec {M : Malloc} {C : Config → Prop} {s : Sys} {i : InitStmt}
    {is ran : List InitStmt} {socket thread : Bool} {msg : Option NlMsg} {taken : Nat}
    {cur : Step Unit} {queue : List NlMsg}
    (h : Reachable M C ⟨s, i :: is, ran, socket, thread, msg, taken, cur, queue⟩) :
    Reachable M C ⟨i.exec s, is, ran ++ [i], socket || i == .createNetlinkSocket,
      thread || i == .commonCreateThread, msg, taken, cur, queue⟩ :=
  .tail h (.main (.exec rfl))

/-- The receiver has a message before the mutex is initialised. -/
theorem reachable_handle (M : Malloc) (C : Config → Prop) (m : NlMsg) :
    Reachable M C ⟨Sys.static, netifEventServerInit.drop 5, netifEventServerInit.take 5, true, true,
      some m, 0, m.handle M, []⟩ := by
  have hstart : Reachable M C
      ⟨Sys.static, netifEventServerInit, [], false, false, none, 0, .ret (), []⟩ := .refl
  have hthread : Reachable M C ⟨Sys.static, netifEventServerInit.drop 5, netifEventServerInit.take 5,
      true, true, none, 0, .ret (), []⟩ :=
    hstart.exec.exec.exec.exec.exec
  exact .tail (.tail hthread (.arrive m rfl)) (.fetch rfl rfl rfl)

/-- The receiver copies the name of its message. -/
theorem Reachable.copy {M : Malloc} {C : Config → Prop} {c : Config} {m : NlMsg}
    (h : Reachable M C c) (hcur : c.cur = m.handle M) (hname : m.NameFits) (hne : m.name ≠ [])
    (hC : C c) :
    ∃ k : Addr → Step Unit,
      Reachable M C { c with
        taken := c.taken + 1
        cur := Netif.lock >>= fun _ => loadNext headAddr >>= k
        sys := c.sys.emits [.copy .ifname m.namePayload.length] } ∧
      (Netif.lock >>= fun _ => loadNext headAddr >>= k).run
        (c.sys.emits [.copy .ifname m.namePayload.length]) = c.cur.run c.sys := by
  obtain ⟨k, hcopy, k', hk⟩ := m.handle_of_name hname hne M
  have hnext : Prog.Next (c.cur, c.sys)
      (k (Mem.ofList m.namePayload), c.sys.emits [.copy .ifname m.namePayload.length]) := by
    rw [hcur, hcopy]
    exact Prog.next_atom_bind.mpr ⟨_, if_pos hname.1, rfl⟩
  rw [hk] at hnext
  exact ⟨k', .tail h (.handle hC hnext), hnext.run_eq.symm⟩

/-- And it locks the mutex. -/
theorem Reachable.lock {M : Malloc} {C : Config → Prop} {c : Config} {k : Addr → Step Unit} {s : Sys}
    (h : Reachable M C c) (hcur : c.cur = (Netif.lock >>= fun _ => loadNext headAddr >>= k))
    (hC : C c) (hlock : Netif.lock.run c.sys = .ok () s) :
    Reachable M C { c with taken := c.taken + 1, cur := loadNext headAddr >>= k, sys := s } ∧
      (loadNext headAddr >>= k).run s = c.cur.run c.sys := by
  have hnext : Prog.Next (c.cur, c.sys) (loadNext headAddr >>= k, s) := by
    rw [hcur]
    exact Prog.next_atom_bind.mpr ⟨(), (Prog.run_atom _ _).symm.trans hlock, rfl⟩
  exact ⟨.tail h (.handle hC hnext), hnext.run_eq.symm⟩

/-- The receiver copies the label before `pthread_mutex_init`, locks the mutex after it,
and is about to read the list head when `COMMON_INIT_LIST_HEAD` has been executed. -/
theorem startup_sound_eth0 :
    ∃ c : Config, c.main = [] ∧ c.taken = 2 ∧ c.sys.mutex = .locked ∧ Sound c ∧ OnTime c := by
  have hfetched := reachable_handle .bump OnTime (eth0Addr rtmNewaddr 1)
  obtain ⟨k, hcopied, _⟩ := hfetched.copy (m := eth0Addr rtmNewaddr 1) rfl (by decide +kernel)
    (by decide +kernel) (.of_taken_zero rfl)
  have hready : Reachable .bump OnTime _ := hcopied.exec
  have hmutex : InitStmt.pthreadMutexInit ∈ netifEventServerInit.take 5 ++ [.pthreadMutexInit] :=
    List.mem_append_right _ List.mem_cons_self
  obtain ⟨hlocked, _⟩ := hready.lock rfl (.of_taken_one rfl hmutex) rfl
  have hdone : Reachable .bump OnTime _ := hlocked.exec
  refine ⟨_, rfl, rfl, rfl, (startup_sound .bump hdone).1, ?_⟩
  exact ⟨fun _ _ _ _ => List.mem_append_left _ hmutex, fun _ _ _ _ =>
    List.mem_append_right _ List.mem_cons_self⟩

/-- A message that is there when the thread starts is handled with a mutex and a list
head that are not initialised, and the handler never gets to its end. -/
theorem early_message_faults :
    ∃ c, Reachable .bump (fun _ => True) c ∧ ¬ Sound c ∧ ∀ s, c.cur.run c.sys ≠ .ok () s := by
  obtain ⟨k, hcopied, hcopy⟩ :=
    (reachable_handle .bump (fun _ => True) (eth0Addr rtmNewaddr 1)).copy
      (m := eth0Addr rtmNewaddr 1) rfl (by decide +kernel) (by decide +kernel) trivial
  obtain ⟨hlocked, hlock⟩ := hcopied.lock rfl trivial rfl
  have hstuck : (((eth0Addr rtmNewaddr 1).handle .bump).run Sys.static).okAnd (fun _ => true) =
      false := by
    decide +kernel
  refine ⟨_, hlocked, fun hsound => Bool.noConfusion hsound.early, fun s hok => ?_⟩
  rw [← hcopy, ← hlock, hok] at hstuck
  cases hstuck

end Netif
