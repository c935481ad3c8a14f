-- SUMMARY: When the event recorded for an interface agrees with its link attribute.
import LinuxShare.Netif.Copies

/-!
# The recorded event and the link attribute

`up` comes from the flags of a link message, `current_state` from its type. For
`RTM_NEWLINK` the event is chosen by `up`, so the two cannot contradict each other.
`RTM_DELLINK` announces `IF_DOWN` whatever its flags have put into `up`.
-/

namespace Netif

open Resumable

/-- `current_state` does not contradict `up`. -/
def Attr.EventAgrees (x : Attr) : Prop :=
  (x.currentState = NetifEventType.ifUp.val → x.up = true) ∧
    (x.currentState = NetifEventType.ifDown.val → x.up = false)

/-- No node's `current_state` contradicts its `up`. -/
def EventsAgree (s : Sys) : Prop := ∀ p ∈ s.table, p.2.EventAgrees

theorem Good.eventsAgree_iff {s : Sys} (h : Good s) :
    EventsAgree s ↔ ∀ n x, s.attrOf n = some x → x.EventAgrees :=
  h.forall_table_iff (P := fun _ x => x.EventAgrees)

namespace NlMsg

variable {m : NlMsg} {x : Attr}

theorem eventAgrees_node_of_link (h : m.IsLink) :
    (m.node x).EventAgrees ↔ ¬ (m.type = rtmDellink ∧ m.up = true) := by
  rw [Attr.EventAgrees, currentState_node, up_node_of_link h, notifyType_of_link h]
  rcases h with hnew | hdel
  · cases m.up <;> simp [hnew, NetifEventType.val, rtmNewlink, rtmDellink]
  · cases m.up <;> simp [hdel, NetifEventType.val, rtmNewlink, rtmDellink]

/-- An address message records an address event. -/
theorem eventAgrees_node_of_addr (h : m.IsAddr) : (m.node x).EventAgrees := by
  rw [Attr.EventAgrees, currentState_node]
  rcases h with hnew | hdel
  · rw [notifyType_of_newaddr hnew]
    exact ⟨(nomatch ·), (nomatch ·)⟩
  · rw [notifyType_of_deladdr hdel]
    exact ⟨(nomatch ·), (nomatch ·)⟩

theorem eventAgrees_node_iff (hm : m.IsLink ∨ m.IsAddr) :
    (m.node x).EventAgrees ↔ ¬ (m.type = rtmDellink ∧ m.up = true) := by
  rcases hm with hlink | haddr
  · exact eventAgrees_node_of_link hlink
  · refine iff_of_true (eventAgrees_node_of_addr haddr) fun hdel => ?_
    exact haddr.type_ne.2 (.inr hdel.1)

end NlMsg

/-- The message can be handled, and is no removal of an interface that is still up,
unless there is no node for it. -/
def KeepsAgreement (M : Malloc) (_ : List NlMsg) (m : NlMsg) (s : Sys) : Prop :=
  m.NameFits ∧
    ((m.targetIn M s).isSome → m.InBlock ∧ ¬ (m.type = rtmDellink ∧ m.up = true))

theorem eventsAgree_init : EventsAgree Sys.init :=
  good_init.eventsAgree_iff.mpr fun n x hx => by rw [attrOf_init] at hx; cases hx

/-- A message's effect on the agreement is its effect on the node it gets to. -/
theorem Handled.eventsAgree_iff {M : Malloc} {m : NlMsg} {s s' : Sys} (h : Handled M m s s')
    (hs : Good s) (hagree : EventsAgree s) :
    EventsAgree s' ↔ ∀ x, m.targetIn M s = some x → (m.node x).EventAgrees := by
  rw [h.good.eventsAgree_iff]
  constructor
  · intro hs' x hx
    exact hs' m.name (m.node x) (by rw [h.attrOf, if_pos rfl, hx]; rfl)
  · intro hnode n y hy
    rw [h.attrOf] at hy
    split at hy
    · obtain ⟨x, hx, rfl⟩ := Option.map_eq_some_iff.mp hy
      exact hnode x hx
    · exact hs.eventsAgree_iff.mp hagree n y hy

/-- In a run, all messages can be handled and no state has a node whose event
contradicts its `up`, if and only if no `RTM_DELLINK` with `IFF_UP` gets to a node. -/
theorem eventsAgree_iff_along (M : Malloc) (ms : List NlMsg) :
    (∀ pre, pre <+: ms → ∃ s, Reaches M pre s ∧ EventsAgree s) ↔ Along M (KeepsAgreement M) ms := by
  constructor
  · intro hall pre m post s hsplit hreach
    have hagree : EventsAgree s := by
      obtain ⟨s₁, hreach₁, hagree⟩ := hall pre ⟨m :: post, hsplit.symm⟩
      rwa [hreach.eq hreach₁]
    obtain ⟨s', hreach', hagree'⟩ := hall (pre ++ [m]) ⟨post, by simp [hsplit]⟩
    obtain ⟨hname, hh⟩ := hreach'.handled hreach
    refine ⟨hname, fun htarget => ?_⟩
    obtain ⟨x, hx⟩ := Option.isSome_iff_exists.mp htarget
    have hnode := (hh.eventsAgree_iff (good_of_reaches hreach) hagree).mp hagree' x hx
    exact ⟨((good_of_reaches hreach).handleable_of_run hh.run).2 htarget,
      (NlMsg.eventAgrees_node_iff (isLink_or_isAddr_of_targetIn hx)).mp hnode⟩
  · intro hC pre hpre
    refine Prog.forM_invariant (P := fun _ s => EventsAgree s) eventsAgree_init ?_
    intro pre₁ m post s hsplit hreach hagree
    obtain ⟨hname, hnode⟩ := hC.of_isPrefix hpre pre₁ m post s hsplit hreach
    have hgood := good_of_reaches hreach
    obtain ⟨s', hh⟩ := hgood.handled M hname fun htarget => (hnode htarget).1
    refine ⟨s', hh.run, (hh.eventsAgree_iff hgood hagree).mpr fun x hx => ?_⟩
    rw [NlMsg.eventAgrees_node_iff (isLink_or_isAddr_of_targetIn hx)]
    exact (hnode (by rw [hx]; rfl)).2

/-- `eth0` is removed while it is up: the event says down, the attribute up. -/
theorem dellink_up_disagrees :
    (∀ m ∈ [eth0Link rtmDellink iffUp], m.NameFits ∧ m.Exact) ∧
    ∃ s x, Reaches .bump [eth0Link rtmDellink iffUp] s ∧ s.attrOf eth0 = some x ∧
      x.currentState = NetifEventType.ifDown.val ∧ x.up = true ∧ ¬ EventsAgree s := by
  have hrun : ((handleAll .bump [eth0Link rtmDellink iffUp]).run Sys.init).okAnd (fun s =>
      (s.attrOf eth0).any fun x =>
        x.currentState = NetifEventType.ifDown.val ∧ x.up = true) = true := by
    decide +kernel
  obtain ⟨_, s, hreach, hseen⟩ := Outcome.exists_of_okAnd hrun
  obtain ⟨x, hx, hseen⟩ := (Option.any_eq_true _ _).mp hseen
  obtain ⟨hstate, hup⟩ := of_decide_eq_true hseen
  refine ⟨by decide +kernel, s, x, hreach, hx, hstate, hup, fun hagree => ?_⟩
  have hdown := ((good_of_reaches hreach).eventsAgree_iff.mp hagree eth0 x hx).2 hstate
  cases hup.symm.trans hdown

end Netif
