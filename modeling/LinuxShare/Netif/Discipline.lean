-- SUMMARY: What a thread must know for each of its operations on the table, and that the table's functions keep to it.
import LinuxShare.Netif.Threads

/-!
# The discipline of a thread

A thread that nobody disturbs knows which node it points to, which new node is its
own, which names are not in the list and what it owes to `list_sum`. Each operation
needs and changes some of this. The handlers and the exported functions never execute
an operation without knowing what it needs.
-/

namespace Netif

open Bytes Resumable

/-- What a thread knows. -/
structure Know where
  /-- a node of the list, and its name -/
  node : Option (Addr × List UInt8) := none
  /-- a block that is not in the list yet, and the name written to it -/
  new : Option (Addr × Option (List UInt8)) := none
  /-- names that `netif_node_find` has not returned -/
  absent : List (List UInt8) := []
  /-- what is still to be added to `list_sum` -/
  owed : Int := 0
  /-- the value of `list_sum` -/
  seen : Option Nat := none

/-- The program is on the thread's own memory and output. -/
def OnOwn {β : Type} (p : Step β) : Prop := ∀ s, ∃ b evs, p.run s = .ok b (s.emits evs)

/-- The program accesses node `a` only, leaves its name and lets go of the mutex. -/
def OnNode {β : Type} (a : Addr) (p : Step β) : Prop :=
  ∀ s x, s.mutex = .unlocked → s.attrs.lookup a = some x →
    ∃ b y evs, p.run s = .ok b (s.focus .unlocked a y evs) ∧
      y.slice 0 ifnameSize = x.slice 0 ifnameSize

/-- A thread that knows `K` may execute the code, and knows `Q` at its end. -/
def Disciplined {α : Type} (Q : α → Know → Prop) (K : Know) : Threaded.Code α → Prop
  | .ret a => Q a K
  | .call (.own p) k => OnOwn p ∧ ∀ b, (∃ s s', p.run s = .ok b s') → Disciplined Q K (k b)
  | .call (.find ifname) k => 0 ∉ ifname ∧
      (∀ a, Disciplined Q
        { K with node := some (a, ifname), absent := K.absent.filter (· ≠ ifname) } (k (some a))) ∧
      Disciplined Q { K with node := none, absent := ifname :: K.absent } (k none)
  | .call .malloc k => K.new = none ∧
      (∀ a, Disciplined Q { K with new := some (a, none) } (k (some a))) ∧
      Disciplined Q K (k none)
  | .call (.memset a) k => (∃ o, K.new = some (a, o)) ∧
      Disciplined Q { K with new := some (a, none) } (k ())
  | .call (.strncpy a ifname) k => (∃ o, K.new = some (a, o)) ∧
      Disciplined Q { K with new := some (a, some ifname) } (k ())
  | .call (.link a ifname) k => K.new = some (a, some ifname) ∧ 0 ∉ ifname ∧ ifname ∈ K.absent ∧
      K.owed = 0 ∧
      Disciplined Q
        { K with
          node := some (a, ifname)
          new := none
          absent := K.absent.filter (· ≠ ifname)
          owed := 1 } (k ())
  | .call .loadSum k => ∀ v, Disciplined Q { K with seen := some v } (k v)
  | .call (.storeSum n) k => ∃ v, K.seen = some v ∧ (n : Int) = (v + K.owed) % 2 ^ 32 ∧
      Disciplined Q { K with owed := 0, seen := none } (k ())
  | .call (.del ifname) k => 0 ∉ ifname ∧ K.owed = 0 ∧
      (∀ a, Disciplined Q { K with node := none, owed := -1 } (k (some a))) ∧
      Disciplined Q { K with node := none } (k none)
  | .call (.node ifname a p) k => K.node = some (a, ifname) ∧ OnNode a p ∧ ∀ b, Disciplined Q K (k b)

/-- Between two calls, a thread has no new node and owes nothing. -/
def Know.Idle (K : Know) : Prop := K.new = none ∧ K.owed = 0

section

variable {α β : Type} {Q : α → Know → Prop} {Q' : β → Know → Prop} {K : Know}

theorem Disciplined.bind {p : Threaded.Code α} {f : α → Threaded.Code β} (h : Disciplined Q K p)
    (hf : ∀ a K', Q a K' → Disciplined Q' K' (f a)) : Disciplined Q' K (p >>= f) := by
  induction p generalizing K with
  | ret a => exact hf a K h
  | call o k ih =>
      cases o with
      | own p => exact ⟨h.1, fun b hb => ih b (h.2 b hb)⟩
      | find ifname => exact ⟨h.1, fun a => ih _ (h.2.1 a), ih _ h.2.2⟩
      | malloc => exact ⟨h.1, fun a => ih _ (h.2.1 a), ih _ h.2.2⟩
      | memset a => exact ⟨h.1, ih _ h.2⟩
      | strncpy a ifname => exact ⟨h.1, ih _ h.2⟩
      | link a ifname => exact ⟨h.1, h.2.1, h.2.2.1, h.2.2.2.1, ih _ h.2.2.2.2⟩
      | loadSum => exact fun v => ih v (h v)
      | storeSum n =>
          obtain ⟨v, hseen, hn, h⟩ := h
          exact ⟨v, hseen, hn, ih _ h⟩
      | del ifname => exact ⟨h.1, h.2.1, fun a => ih _ (h.2.2.1 a), ih _ h.2.2.2⟩
      | node ifname a p => exact ⟨h.1, h.2.1, fun b => ih b (h.2.2 b)⟩

end

/-! ## Programs on a node -/

section Nodes

variable {a : Addr}

theorem onNode_loadAttr {β : Type} (f : Attr → β) : OnNode a (loadAttr a f) := by
  intro s x hmutex hx
  refine ⟨f x, x, [], ?_, rfl⟩
  rw [focus_self hmutex hx]
  simp [loadAttr, hx]

/-- The rest of a section, which writes to node `a` and ends with `unlock`. -/
def OnLocked (a : Addr) (p : Step Unit) : Prop :=
  ∀ (s : Sys) (x : Attr) (evs : List Event),
    ∃ (y : Attr) (evs' : List Event),
      p.run (s.focus .locked a x evs) = .ok () (s.focus .unlocked a y evs') ∧
      y.slice 0 ifnameSize = x.slice 0 ifnameSize

theorem onNode_lock {p : Step Unit} (h : OnLocked a p) : OnNode a (lock >>= fun _ => p) := by
  intro s x hmutex hx
  have hrun : (lock >>= fun _ => p).run s = p.run (s.focus .locked a x []) := by
    rw [← focus_self hmutex hx, Prog.run_bind, run_lock_focus, focus_self hmutex hx]
    rfl
  rw [hrun]
  obtain ⟨y, evs, hp, hname⟩ := h s x []
  exact ⟨(), y, evs, hp, hname⟩

theorem onLocked_unlock : OnLocked a unlock := fun s x evs => ⟨x, evs, by simp, rfl⟩

theorem onLocked_storeAttr {p : Step Unit} {f : Attr → Attr} (h : OnLocked a p)
    (hf : ∀ x, (f x).slice 0 ifnameSize = x.slice 0 ifnameSize) :
    OnLocked a (storeAttr a f >>= fun _ => p) := by
  intro s x evs
  rw [Prog.run_bind, run_storeAttr_focus, Outcome.bind_ok]
  obtain ⟨y, evs', hp, hname⟩ := h s (f x) evs
  exact ⟨y, evs', hp, hname.trans (hf x)⟩

theorem onLocked_dispatchPayload {p : Step Unit} {dst : Dst} {payload : List UInt8}
    (h : OnLocked a p) (hdst : ifnameSize ≤ dst.off) (hin : dst.off + payload.length ≤ attrSize) :
    OnLocked a (dispatchPayload payload () (copyToNode a dst) >>= fun _ => p) := by
  intro s x evs
  rw [Prog.run_bind, run_dispatchPayload_node hin, Outcome.bind_ok]
  obtain ⟨y, evs', hp, hname⟩ := h s (x.write dst.off payload) (evs ++ copyEvents dst payload)
  exact ⟨y, evs', hp, hname.trans (Mem.slice_write_of_disjoint (.inl hdst))⟩

end Nodes

/-! ## The scripts -/

namespace Threaded

variable {K : Know} {ifname : List UInt8} {a : Addr}

theorem disciplined_load {α β : Type} {Q : β → Know → Prop} {f : Attr → α} {k : α → Code β}
    (hnode : K.node = some (a, ifname)) (hk : ∀ b, Disciplined Q K (k b)) :
    Disciplined Q K (load ifname a f >>= k) := ⟨hnode, onNode_loadAttr f, hk⟩

theorem onOwn_log (line : LogLine) : OnOwn (Netif.log line) :=
  fun _ => ⟨(), [.log line], rfl⟩

theorem disciplined_log {β : Type} {Q : β → Know → Prop} {line : LogLine} {k : Unit → Code β}
    (hk : Disciplined Q K (k ())) : Disciplined Q K (log line >>= k) :=
  ⟨onOwn_log line, fun _ _ => hk⟩

theorem disciplined_store {β : Type} {Q : β → Know → Prop} {f : Attr → Attr} {k : Unit → Code β}
    (hnode : K.node = some (a, ifname)) (hf : ∀ x, (f x).slice 0 ifnameSize = x.slice 0 ifnameSize)
    (hk : Disciplined Q K (k ())) : Disciplined Q K (store ifname a f >>= k) :=
  ⟨hnode, onNode_lock (onLocked_storeAttr onLocked_unlock hf), fun _ => hk⟩

theorem slice_clearIpaddr (x : Attr) : x.clearIpaddr.slice 0 ifnameSize = x.slice 0 ifnameSize :=
  Mem.slice_write_of_disjoint (.inl (by decide))

theorem slice_setCurrentState (n : Nat) (x : Attr) :
    (x.setCurrentState n).slice 0 ifnameSize = x.slice 0 ifnameSize :=
  Mem.slice_write_of_disjoint (.inl (by decide))

theorem disciplined_netEventNotify (hidle : K.Idle) (hname : 0 ∉ ifname) (type : NetifEventType) :
    Disciplined (fun _ K' => K'.Idle) K (netEventNotify ifname type) := by
  refine ⟨hname, fun a => ?_, hidle⟩
  have hset : Disciplined (fun _ K' => K'.Idle)
      { K with node := some (a, ifname), absent := K.absent.filter (· ≠ ifname) }
      (store ifname a fun x => x.setCurrentState type.val) :=
    ⟨rfl, onNode_lock (onLocked_storeAttr onLocked_unlock (slice_setCurrentState _)), fun _ => hidle⟩
  refine disciplined_load rfl fun current => ?_
  dsimp only
  split
  · cases type with
    | ifUp => exact disciplined_log hset
    | ifDown => exact disciplined_log hset
    | ifNewaddr => exact disciplined_load rfl fun ipaddr => disciplined_log hset
    | ifDeladdr =>
        refine disciplined_log (disciplined_store rfl slice_clearIpaddr ?_)
        exact disciplined_load rfl fun ipaddr => disciplined_log hset
  · exact hset

theorem disciplined_body {m : NlMsg} (hm : m.IsLink ∨ m.IsAddr) (hb : m.InBlock) (hidle : K.Idle)
    (hnode : K.node = some (a, ifname)) (hname : 0 ∉ ifname) :
    Disciplined (fun _ K' => K'.Idle) K (body m ifname a) := by
  have hnotify := disciplined_netEventNotify (K := K) hidle hname
  unfold body
  by_cases hlink : m.IsLink
  · obtain ⟨hmtu, hhw⟩ := hb.1 hlink
    rw [if_pos hlink, linkBody]
    refine ⟨hnode, ?_, fun _ => ?_⟩
    · refine onNode_lock (onLocked_storeAttr (onLocked_storeAttr ?_ ?_) ?_)
      · exact onLocked_dispatchPayload (onLocked_dispatchPayload onLocked_unlock (by decide)
          (Dst.add_le_attrSize hhw)) (by decide) (Dst.add_le_attrSize hmtu)
      · exact fun x => Mem.slice_write_of_disjoint (.inl (by decide))
      · exact fun x => Mem.slice_write_of_disjoint (.inl (by decide))
    · dsimp only
      split
      · refine disciplined_load hnode fun up => disciplined_log ?_
        exact disciplined_load hnode fun up => hnotify _
      · split
        · exact disciplined_load hnode fun up => disciplined_log (hnotify _)
        · exact hidle
  · have hip := hb.2 (hm.resolve_left hlink)
    rw [if_neg hlink, addrBody]
    refine ⟨hnode, ?_, fun _ => ?_⟩
    · exact onNode_lock
        (onLocked_dispatchPayload onLocked_unlock (by decide) (Dst.add_le_attrSize hip))
    · dsimp only
      split
      · exact disciplined_log (hnotify _)
      · split
        · exact disciplined_log (hnotify _)
        · exact hidle

/-- A name may be added that has not been found. -/
theorem disciplined_netifNodeAdd (hidle : K.Idle) (hname : 0 ∉ ifname) (habsent : ifname ∈ K.absent) :
    Disciplined (fun r K' => K'.Idle ∧ ∀ a, r = some a → K'.node = some (a, ifname)) K
      (netifNodeAdd ifname) := by
  refine ⟨hidle.1, fun newNode => ?_, hidle, by simp⟩
  refine ⟨⟨none, rfl⟩, ⟨none, rfl⟩, rfl, hname, habsent, hidle.2, fun v => ⟨v, rfl, ?_, ?_⟩⟩
  · exact_mod_cast rfl
  · refine ⟨⟨rfl, rfl⟩, fun a ha => ?_⟩
    cases ha
    rfl

private theorem pred_mod (v : Nat) :
    (((v + (2 ^ 32 - 1)) % 2 ^ 32 : Nat) : Int) = ((v : Int) + -1) % 2 ^ 32 := by
  omega

theorem disciplined_netifNodeDel (hidle : K.Idle) (hname : 0 ∉ ifname) :
    Disciplined (fun _ K' => K'.Idle) K (netifNodeDel ifname) := by
  exact ⟨hname, hidle.2, fun a v => ⟨v, rfl, pred_mod v, hidle.1, rfl⟩, hidle⟩

theorem disciplined_findOrAdd (hidle : K.Idle) (hname : 0 ∉ ifname) :
    Disciplined (fun r K' => K'.Idle ∧ ∀ a, r = some a → K'.node = some (a, ifname)) K
      (findOrAdd ifname) := by
  refine ⟨hname, fun a => ⟨hidle, fun b hb => ?_⟩, ?_⟩
  · cases hb
    rfl
  · exact disciplined_netifNodeAdd hidle hname List.mem_cons_self

theorem onOwn_pure {β : Type} (b : β) : OnOwn (pure b : Step β) :=
  fun s => ⟨b, [], by rw [Prog.run_pure, Sys.emits_nil]⟩

/-- The name of the message and its attributes have room where they are copied to. -/
theorem disciplined_handle {m : NlMsg} (hm : m.Copyable) (hidle : K.Idle) :
    Disciplined (fun _ K' => K'.Idle) K (handle m) := by
  obtain ⟨hfits, hb⟩ := hm
  refine ⟨fun s => ⟨_, _, run_dispatchPayload_ifname hfits.1⟩, ?_⟩
  rintro buf ⟨s, s', hcopy⟩
  rw [run_dispatchPayload_ifname hfits.1] at hcopy
  cases hcopy
  have hlocal : localString (Mem.ofList m.namePayload) = pure m.name := if_pos hfits.2
  have hown : OnOwn (localString (Mem.ofList m.namePayload)) := hlocal ▸ onOwn_pure m.name
  refine ⟨hown, ?_⟩
  rintro ifname ⟨s, s', hrun⟩
  have hpure : (pure m.name : Step (List UInt8)).run s = .ok ifname s' := hlocal ▸ hrun
  cases hpure
  have hname : 0 ∉ m.name := zero_notMem_cstr _
  change Disciplined _ K (if m.name.length = 0 then _ else _)
  split
  · exact hidle
  · next hne =>
      have hkind := m.isLink_or_isAddr fun hnil => hne (congrArg List.length hnil)
      refine (disciplined_findOrAdd hidle hname).bind fun r K' h => ?_
      cases r with
      | none => exact h.1
      | some node => exact disciplined_body hkind hb h.1 (h.2 node rfl) hname

end Threaded

theorem Call.disciplined {K : Know} {th : Thread} {c : Call} (hidle : K.Idle) (h : c.Allowed th)
    (habsent : ∀ n ∈ th.notFound, n ∈ K.absent) : Disciplined (fun _ K' => K'.Idle) K c.code := by
  cases c with
  | find ifname => exact ⟨h, fun a => hidle, hidle⟩
  | add ifname =>
      exact (Threaded.disciplined_netifNodeAdd hidle h.1 (habsent _ h.2)).bind fun _ _ h => h.1
  | del ifname => exact (Threaded.disciplined_netifNodeDel hidle h).bind fun _ _ h => h

/-! ## Nodes that are not used any more -/

/-- Before it finds or links another node, the code still accesses the one named `ifname`. -/
def Threaded.Uses {α : Type} (ifname : List UInt8) : Threaded.Code α → Prop
  | .ret _ => False
  | .call (.node n _ _) k => n = ifname ∨ ∃ b, Uses ifname (k b)
  | .call (.find _) _ => False
  | .call (.link _ _) _ => False
  | .call _ k => ∃ b, Uses ifname (k b)

/-- Code that does not use its node any more need not know it. -/
theorem Disciplined.forget {K : Know} {code : Threaded.Code Unit} {a : Addr} {ifname : List UInt8}
    (h : Disciplined (fun _ K' => K'.Idle) K code) (hnode : K.node = some (a, ifname))
    (huses : ¬ Threaded.Uses ifname code) :
    Disciplined (fun _ K' => K'.Idle) { K with node := none } code := by
  induction code generalizing K with
  | ret _ => exact h
  | call o k ih =>
      cases o with
      | own p =>
          exact ⟨h.1, fun b hb => ih b (h.2 b hb) hnode fun hu => huses ⟨b, hu⟩⟩
      | find n => exact h
      | malloc =>
          exact ⟨h.1, fun b => ih _ (h.2.1 b) hnode fun hu => huses ⟨_, hu⟩,
            ih _ h.2.2 hnode fun hu => huses ⟨_, hu⟩⟩
      | memset b => exact ⟨h.1, ih _ h.2 hnode fun hu => huses ⟨_, hu⟩⟩
      | strncpy b n => exact ⟨h.1, ih _ h.2 hnode fun hu => huses ⟨_, hu⟩⟩
      | link b n => exact h
      | loadSum => exact fun v => ih v (h v) hnode fun hu => huses ⟨_, hu⟩
      | storeSum n =>
          obtain ⟨v, hseen, hn, h⟩ := h
          exact ⟨v, hseen, hn, ih _ h hnode fun hu => huses ⟨_, hu⟩⟩
      | del n => exact h
      | node n b p =>
          obtain ⟨hK, _⟩ := h
          rw [hnode] at hK
          cases hK
          exact absurd (.inl rfl) huses

end Netif
