-- SUMMARY: Runs of messages from the empty table, and what can be seen of the states they reach.
import LinuxShare.Lib.Lists
import LinuxShare.Netif.Handle

/-!
# Runs

The table as it is found by following `next` pointers from the list head, and the
states that handling a list of messages reaches. What a message does to such a
state is `Handled`; an invariant of runs is then a statement about one message.
-/

namespace Netif

open Bytes Resumable Ring

/-! ## The table of a state -/

/-- The nodes of the list, by following `next` from the list head. -/
def Sys.nodes (s : Sys) : List Addr :=
  follow s.links headAddr s.attrs.keys.card (s.links headAddr).next

/-- The nodes with their attributes. -/
def Sys.table (s : Sys) : Table :=
  s.nodes.filterMap fun a => (s.attrs.lookup a).map fun x => (a, x)

/-- The attributes of the node named `name`. -/
def Sys.attrOf (s : Sys) (name : List UInt8) : Option Attr := s.table.attrOf name

theorem Linked.nodes_eq {s : Sys} {t : Table} (h : Linked s t) : s.nodes = t.map Prod.fst :=
  h.ring.follow_eq (by simpa using h.length_le)

theorem Linked.table_eq {s : Sys} {t : Table} (h : Linked s t) : s.table = t := by
  have hlookup : ∀ p ∈ t, (s.attrs.lookup p.1).map (fun x => (p.1, x)) = some p := by
    intro p hp
    rw [h.attrs p hp]
    rfl
  rw [Sys.table, h.nodes_eq, List.filterMap_map]
  exact (List.filterMap_congr hlookup).trans List.filterMap_some

theorem Repr.nodes_eq {s : Sys} {t : Table} (h : Repr s t) : s.nodes = t.map Prod.fst :=
  h.linked.nodes_eq

theorem Repr.table_eq {s : Sys} {t : Table} (h : Repr s t) : s.table = t := h.linked.table_eq

/-- Between two messages: the list is well formed and its nodes have names. -/
structure Good (s : Sys) : Prop where
  repr : Repr s s.table
  named : s.table.Named

theorem Good.of_repr {s : Sys} {t : Table} (h : Repr s t) (hn : t.Named) : Good s where
  repr := h.table_eq.symm ▸ h
  named := h.table_eq.symm ▸ hn

/-- What holds of all nodes of the table is what holds of each name's node. -/
theorem Good.forall_table_iff {s : Sys} (h : Good s) {P : List UInt8 → Attr → Prop} :
    (∀ p ∈ s.table, P p.2.ifname p.2) ↔ ∀ n x, s.attrOf n = some x → P n x := by
  constructor
  · intro hall n x hx
    obtain ⟨a, hmem, rfl⟩ := h.named.attrOf_eq_some.mp hx
    exact hall (a, x) hmem
  · intro hall p hp
    exact hall p.2.ifname p.2 (h.named.attrOf_eq_some.mpr ⟨p.1, hp, rfl⟩)

theorem good_init : Good Sys.init := .of_repr repr_init Table.named_nil

theorem attrOf_init (n : List UInt8) : Sys.init.attrOf n = none := by
  rw [Sys.attrOf, repr_init.table_eq]
  rfl

/-! ## One message -/

namespace NlMsg

/-- Where `malloc` puts the node if the message needs a new one. -/
def allocIn (m : NlMsg) (M : Malloc) (s : Sys) : Option Addr := M.choose (m.afterName s)

/-- The attributes that the handler starts from in state `s`. -/
def targetIn (m : NlMsg) (M : Malloc) (s : Sys) : Option Attr := m.target (m.allocIn M s) s.table

end NlMsg

theorem Good.targetIn_of_some {s : Sys} {m : NlMsg} {x : Attr} (h : Good s) (M : Malloc)
    (hx : s.attrOf m.name = some x) : m.targetIn M s = some x := by
  have hempty : m.name ≠ [] := by
    intro hempty
    have hnone : s.attrOf [] = none := Table.attrOf_eq_none.mpr h.named.nonempty
    rw [hempty, hnone] at hx
    cases hx
  rw [Sys.attrOf] at hx
  rw [NlMsg.targetIn, NlMsg.target, if_neg hempty, hx]

/-- The handler starts from the node of that name, or from a new node. -/
theorem targetIn_cases {s : Sys} {m : NlMsg} {M : Malloc} {x : Attr} (h : m.targetIn M s = some x) :
    s.attrOf m.name = some x ∨ s.attrOf m.name = none ∧ x = freshAttr m.name := by
  unfold NlMsg.targetIn NlMsg.target at h
  unfold Sys.attrOf
  split at h
  · cases h
  · split at h
    · next y hy => exact .inl (hy.trans h)
    · next hnone =>
        obtain ⟨_, _, rfl⟩ := Option.map_eq_some_iff.mp h
        exact .inr ⟨hnone, rfl⟩

/-- The message can be handled: its name fits the local array, and its attributes fit the
node's block if there is a node. -/
def NlMsg.Handleable (m : NlMsg) (M : Malloc) (s : Sys) : Prop :=
  m.NameFits ∧ ((m.targetIn M s).isSome → m.InBlock)

/-- Only a link or address message gets to a node. -/
theorem isLink_or_isAddr_of_targetIn {s : Sys} {m : NlMsg} {M : Malloc} {x : Attr}
    (h : m.targetIn M s = some x) : m.IsLink ∨ m.IsAddr := by
  apply NlMsg.isLink_or_isAddr
  intro hempty
  rw [NlMsg.targetIn, NlMsg.target, if_pos hempty] at h
  cases h

/-- `malloc` does not fail. -/
def Malloc.Total (M : Malloc) : Prop := ∀ s, (M.choose s).isSome

theorem total_bump : Malloc.bump.Total := fun _ => rfl

/-- Then each message with a name gets to a node. -/
theorem isSome_targetIn {M : Malloc} {m : NlMsg} (hM : M.Total) (hne : m.name ≠ []) (s : Sys) :
    (m.targetIn M s).isSome := by
  obtain ⟨a, ha⟩ := Option.isSome_iff_exists.mp (hM (m.afterName s))
  rw [NlMsg.targetIn, NlMsg.target, if_neg hne, NlMsg.allocIn, ha]
  cases s.table.attrOf m.name <;> rfl

/-- Handling message `m` has taken `s` to `s'`. -/
structure Handled (M : Malloc) (m : NlMsg) (s s' : Sys) : Prop where
  run : (m.handle M).run s = .ok () s'
  good : Good s'
  table : s'.table = m.step (m.allocIn M s) s.table
  attrOf : ∀ n, s'.attrOf n = if n = m.name then (m.targetIn M s).map m.node else s.attrOf n
  trace : s'.trace = s.trace ++ m.eventsOn (m.allocIn M s) s.table
  early : s'.early = s.early

/-- What the message has added to the trace. -/
theorem Handled.drop_trace {M : Malloc} {m : NlMsg} {s s' : Sys} (h : Handled M m s s') :
    s'.trace.drop s.trace.length =
      copyEvents .ifname m.namePayload ++ (m.targetIn M s).elim [] m.events := by
  rw [h.trace, List.drop_left]
  rfl

theorem Good.handled {s : Sys} {m : NlMsg} (h : Good s) (M : Malloc) (hname : m.NameFits)
    (hb : (m.targetIn M s).isSome → m.InBlock) : ∃ s', Handled M m s s' := by
  obtain ⟨s', hrun, hrepr, htrace, hearly⟩ := NlMsg.run_handle (M := M) h.repr h.named hname hb
  refine ⟨s', hrun, ?_, hrepr.table_eq, ?_, htrace, hearly⟩
  · exact .of_repr hrepr (NlMsg.named_step h.named hname _)
  · intro n
    rw [Sys.attrOf, hrepr.table_eq]
    exact NlMsg.attrOf_step h.named hname _ n

/-! ## Runs of messages -/

/-- Handling the messages `ms`, from the empty table on, ends in `s`. -/
def Reaches (M : Malloc) (ms : List NlMsg) (s : Sys) : Prop :=
  (handleAll M ms).run Sys.init = .ok () s

theorem reaches_nil (M : Malloc) : Reaches M [] Sys.init := rfl

theorem Reaches.eq {M : Malloc} {ms : List NlMsg} {s s' : Sys} (h : Reaches M ms s)
    (h' : Reaches M ms s') : s = s' :=
  Outcome.ok_unique h h'

theorem Reaches.snoc {M : Malloc} {ms : List NlMsg} {m : NlMsg} {s s' : Sys} (h : Reaches M ms s)
    (hrun : (m.handle M).run s = .ok () s') : Reaches M (ms ++ [m]) s' :=
  Prog.run_forM_snoc h hrun

/-- `C` holds of every message of `ms`, the messages before it and the state in
which it is handled. -/
def Along (M : Malloc) (C : List NlMsg → NlMsg → Sys → Prop) (ms : List NlMsg) : Prop :=
  ∀ pre m post s, ms = pre ++ m :: post → Reaches M pre s → C pre m s

theorem Along.of_isPrefix {M : Malloc} {C : List NlMsg → NlMsg → Sys → Prop} {ms pre : List NlMsg}
    (h : Along M C ms) (hpre : pre <+: ms) : Along M C pre := by
  obtain ⟨rest, rfl⟩ := hpre
  intro pre m post s hsplit hreach
  exact h pre m (post ++ rest) s (by simp [hsplit]) hreach

theorem along_nil {M : Malloc} {C : List NlMsg → NlMsg → Sys → Prop} : Along M C [] :=
  fun _ _ _ _ hsplit _ => absurd hsplit (by simp)

theorem along_snoc {M : Malloc} {C : List NlMsg → NlMsg → Sys → Prop} {ms : List NlMsg} {m : NlMsg} :
    Along M C (ms ++ [m]) ↔ Along M C ms ∧ ∀ s, Reaches M ms s → C ms m s := by
  have hsplit := Lists.forall_split_append_singleton (l := ms) (a := m)
    (P := fun pre m => ∀ s, Reaches M pre s → C pre m s)
  unfold Along
  constructor
  · intro h
    obtain ⟨hms, hm⟩ := hsplit.mp fun pre m' post heq s => h pre m' post s heq
    exact ⟨fun pre m' post s heq => hms pre m' post heq s, hm⟩
  · rintro ⟨hms, hm⟩ pre m' post s heq
    exact hsplit.mpr ⟨fun pre m' post heq s => hms pre m' post s heq, hm⟩ pre m' post heq s

/-- The name and the attributes of the message can be copied without leaving the
objects they are copied into. -/
def NlMsg.Copyable (m : NlMsg) : Prop := m.NameFits ∧ m.InBlock

instance (m : NlMsg) : Decidable m.Copyable := inferInstanceAs (Decidable (_ ∧ _))

/-- An invariant of runs holds at the start and after each message. -/
theorem run_induction {M : Malloc} {C : List NlMsg → NlMsg → Sys → Prop}
    {P : List NlMsg → Sys → Prop} {ms : List NlMsg} (hms : ∀ m ∈ ms, m.Copyable)
    (hC : Along M C ms) (hinit : P [] Sys.init)
    (hstep : ∀ pre m s s', m ∈ ms → Good s → P pre s → C pre m s → Handled M m s s' →
      P (pre ++ [m]) s') :
    ∃ s, Reaches M ms s ∧ Good s ∧ P ms s := by
  refine Prog.forM_invariant (P := fun pre s => Good s ∧ P pre s) ⟨good_init, hinit⟩ ?_
  intro pre m post s hsplit hreach hpre
  have hmem : m ∈ ms := hsplit ▸ List.mem_append_right pre List.mem_cons_self
  obtain ⟨s', hh⟩ := hpre.1.handled M (hms m hmem).1 fun _ => (hms m hmem).2
  exact ⟨s', hh.run, hh.good, hstep pre m s s' hmem hpre.1 hpre.2 (hC pre m post s hsplit hreach) hh⟩

/-- Such messages never fault. -/
theorem exists_reaches {M : Malloc} {ms : List NlMsg} (hms : ∀ m ∈ ms, m.Copyable) :
    ∃ s, Reaches M ms s ∧ Good s := by
  obtain ⟨s, hreach, hgood, _⟩ := run_induction (P := fun _ _ => True) (C := fun _ _ _ => True) hms
    (fun _ _ _ _ _ _ => trivial) trivial (fun _ _ _ _ _ _ _ _ _ => trivial)
  exact ⟨s, hreach, hgood⟩

theorem Reaches.good {M : Malloc} {ms : List NlMsg} {s : Sys} (hms : ∀ m ∈ ms, m.Copyable)
    (h : Reaches M ms s) : Good s := by
  obtain ⟨s', hreach, hgood⟩ := exists_reaches (M := M) hms
  rwa [h.eq hreach]

end Netif
