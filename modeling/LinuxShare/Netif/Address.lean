-- SUMMARY: Which addresses stay in the table, and which address events are announced.
import LinuxShare.Lib.Lists
import LinuxShare.Netif.Runs

/-!
# Addresses

`ifaddrmsg_handle` stores the address of a message in the node and announces the
event, and an `RTM_DELADDR` is undone inside the announcement. Whether there is one
depends on `current_state`, the kind of the event before. The two results say
exactly when this goes well: an address that was deleted is gone, and a change of
address is announced.
-/

namespace Netif

open Bytes Lists Resumable

/-- `0.0.0.0`. -/
def noAddr : List UInt8 := List.replicate 4 0

/-- An address message about the pair of label `L` and address `A`. -/
def NlMsg.About (m : NlMsg) (L A : List UInt8) : Prop := m.IsAddr ∧ m.name = L ∧ m.ipaddr = A

instance (m : NlMsg) (L A : List UInt8) : Decidable (m.About L A) :=
  inferInstanceAs (Decidable (_ ∧ _ ∧ _))

/-- The most recent address message about the pair. -/
def lastAbout (ms : List NlMsg) (L A : List UInt8) : Option NlMsg :=
  lastSuch (fun m => m.About L A) ms

/-- The most recent address message about the pair added the address. -/
def Assigned (ms : List NlMsg) (L A : List UInt8) : Prop :=
  ∃ m, lastAbout ms L A = some m ∧ m.type = rtmNewaddr

theorem lastAbout_snoc (ms : List NlMsg) (m : NlMsg) (L A : List UInt8) :
    lastAbout (ms ++ [m]) L A = if m.About L A then some m else lastAbout ms L A := by
  rw [lastAbout, lastSuch_append_singleton]
  simp only [decide_eq_true_eq]
  rfl

theorem Assigned.snoc {ms : List NlMsg} {m : NlMsg} {L A : List UInt8} (h : Assigned ms L A)
    (hm : ¬ m.About L A) : Assigned (ms ++ [m]) L A := by
  obtain ⟨n, hn, htype⟩ := h
  exact ⟨n, by rw [lastAbout_snoc, if_neg hm, hn], htype⟩

theorem Assigned.of_newaddr {m : NlMsg} (ms : List NlMsg) (h : m.type = rtmNewaddr) :
    Assigned (ms ++ [m]) m.name m.ipaddr := by
  refine ⟨m, ?_, h⟩
  rw [lastAbout_snoc, if_pos ⟨m.isAddr_of_newaddr h, rfl, rfl⟩]

theorem not_assigned_of_deladdr {m : NlMsg} (ms : List NlMsg) (h : m.type = rtmDeladdr) :
    ¬ Assigned (ms ++ [m]) m.name m.ipaddr := by
  rintro ⟨n, hn, htype⟩
  rw [lastAbout_snoc, if_pos ⟨m.isAddr_of_deladdr h, rfl, rfl⟩] at hn
  obtain rfl := Option.some.inj hn
  rw [h] at htype
  exact absurd htype (by decide)

/-! ## The stored address -/

/-- The message can be handled within its fields, and an address is four bytes. -/
def NlMsg.WithAddr (m : NlMsg) : Prop :=
  m.NameFits ∧ m.Fits ∧ (m.IsAddr → m.ipaddr.length = 4)

instance (m : NlMsg) : Decidable m.WithAddr := inferInstanceAs (Decidable (_ ∧ _ ∧ _))

theorem NlMsg.WithAddr.copyable {m : NlMsg} (h : m.WithAddr) : m.Copyable := ⟨h.1, h.2.1.inBlock⟩

/-- Every stored address is one that was added and not deleted since. -/
def AddrsAssigned (ms : List NlMsg) (s : Sys) : Prop :=
  ∀ L x, s.attrOf L = some x → x.ipaddr = noAddr ∨ Assigned ms L x.ipaddr

/-- An `RTM_DELADDR` with an address does not follow another deletion: the node's
`current_state` is not `IF_DELADDR`. -/
def ClearsAddr (_ : List NlMsg) (m : NlMsg) (s : Sys) : Prop :=
  m.type = rtmDeladdr → m.ipaddr ≠ noAddr →
    ∀ x, s.attrOf m.name = some x → x.currentState ≠ NetifEventType.ifDeladdr.val

theorem addrsAssigned_step {M : Malloc} {pre : List NlMsg} {m : NlMsg} {s s' : Sys}
    (hm : m.WithAddr) (h : AddrsAssigned pre s) (hclear : ClearsAddr pre m s)
    (hh : Handled M m s s') : AddrsAssigned (pre ++ [m]) s' := by
  intro L x hx
  rw [hh.attrOf] at hx
  by_cases hL : L = m.name
  · rw [if_pos hL] at hx
    obtain ⟨y, hy, rfl⟩ := Option.map_eq_some_iff.mp hx
    obtain ⟨_, hfits, hlen⟩ := hm
    subst hL
    rcases isLink_or_isAddr_of_targetIn hy with hlink | haddr
    · have hskip : ¬ m.About m.name y.ipaddr := fun habout => habout.1.type_ne.2 hlink
      rw [NlMsg.ipaddr_node_of_link hlink hfits]
      rcases targetIn_cases hy with hold | ⟨_, rfl⟩
      · exact (h _ y hold).imp_right fun hassigned => hassigned.snoc hskip
      · exact .inl (ipaddr_freshAttr _)
    · rcases haddr with hnew | hdel
      · rw [NlMsg.ipaddr_node_of_newaddr hnew (hlen (.inl hnew))]
        exact .inr (.of_newaddr pre hnew)
      · rw [NlMsg.ipaddr_node_of_deladdr hdel (hlen (.inr hdel))]
        split
        · exact .inl rfl
        · next hstate =>
            -- the address of the message stays: it has to be 0.0.0.0 itself
            left
            by_contra hip
            rcases targetIn_cases hy with hold | ⟨_, rfl⟩
            · exact hclear hdel hip y hold (not_not.mp hstate)
            · rw [currentState_freshAttr] at hstate
              exact hstate (by decide)
  · rw [if_neg hL] at hx
    exact (h L x hx).imp_right fun hassigned => hassigned.snoc fun habout => hL habout.2.1.symm

/-- After each message every stored address is assigned, exactly when no address is
deleted right after another deletion for the same label. -/
theorem addrsAssigned_iff (M : Malloc) (ms : List NlMsg) (hms : ∀ m ∈ ms, m.WithAddr) :
    (∀ pre, pre <+: ms → ∃ s, Reaches M pre s ∧ AddrsAssigned pre s) ↔ Along M ClearsAddr ms := by
  constructor
  · intro hall pre m post s hsplit hreach hdel hip x hx hstate
    have hpre : pre ++ [m] <+: ms := ⟨post, by simp [hsplit]⟩
    have hgood : Good s := hreach.good fun n hn => (hms n (hpre.subset (by simp [hn]))).copyable
    have hm : m.WithAddr := hms m (hpre.subset (by simp))
    obtain ⟨s₁, hreach₁, hassigned⟩ := hall (pre ++ [m]) hpre
    obtain ⟨s', hh⟩ := hgood.handled M hm.1 fun _ => hm.2.1.inBlock
    obtain rfl : s₁ = s' := hreach₁.eq (hreach.snoc hh.run)
    have hattr : s₁.attrOf m.name = some (m.node x) := by
      rw [hh.attrOf, if_pos rfl, hgood.targetIn_of_some M hx]
      rfl
    have hkept : (m.node x).ipaddr = m.ipaddr := by
      rw [NlMsg.ipaddr_node_of_deladdr hdel (hm.2.2 (.inr hdel)), if_neg (not_not.mpr hstate)]
    have hend := hassigned m.name (m.node x) hattr
    rw [hkept] at hend
    exact hend.elim hip (not_assigned_of_deladdr pre hdel)
  · intro hclear pre hpre
    have hsub : ∀ m ∈ pre, m.WithAddr := fun m hm => hms m (hpre.subset hm)
    obtain ⟨s, hreach, _, hassigned⟩ := run_induction (fun m hm => (hsub m hm).copyable)
      (hclear.of_isPrefix hpre) (fun L x hx => by rw [attrOf_init] at hx; cases hx)
      (fun pre m s s' hmem _ h hc hh => addrsAssigned_step (hsub m hmem) h hc hh)
    exact ⟨s, hreach, hassigned⟩

theorem addrsAssigned_iff_eth0 :
    (∀ pre, pre <+: [eth0Addr rtmNewaddr 1, eth0Addr rtmDeladdr 1] →
      ∃ s, Reaches .bump pre s ∧ AddrsAssigned pre s) ↔
    Along .bump ClearsAddr [eth0Addr rtmNewaddr 1, eth0Addr rtmDeladdr 1] :=
  addrsAssigned_iff .bump _ (by decide +kernel)

/-- Two addresses are added and deleted again: the second one stays in the table. -/
theorem deleted_addr_stays :
    (∀ m ∈ [eth0Addr rtmNewaddr 1, eth0Addr rtmNewaddr 2, eth0Addr rtmDeladdr 1,
      eth0Addr rtmDeladdr 2], m.WithAddr) ∧
    ∃ s, Reaches .bump [eth0Addr rtmNewaddr 1, eth0Addr rtmNewaddr 2, eth0Addr rtmDeladdr 1,
      eth0Addr rtmDeladdr 2] s ∧
    (∃ x, s.attrOf eth0 = some x ∧ x.ipaddr = [10, 0, 0, 2]) ∧
    ¬ AddrsAssigned [eth0Addr rtmNewaddr 1, eth0Addr rtmNewaddr 2, eth0Addr rtmDeladdr 1,
      eth0Addr rtmDeladdr 2] s := by
  have hrun : ((handleAll .bump [eth0Addr rtmNewaddr 1, eth0Addr rtmNewaddr 2,
      eth0Addr rtmDeladdr 1, eth0Addr rtmDeladdr 2]).run Sys.init).okAnd
        (fun s => (s.attrOf eth0).map Attr.ipaddr = some [10, 0, 0, 2]) = true := by
    decide +kernel
  obtain ⟨_, s, hreach, hattr⟩ := Outcome.exists_of_okAnd hrun
  obtain ⟨x, hx, hip⟩ := Option.map_eq_some_iff.mp (of_decide_eq_true hattr)
  refine ⟨by decide +kernel, s, hreach, ⟨x, hx, hip⟩, fun hall => ?_⟩
  have hend := hall eth0 x hx
  have hname : (eth0Addr rtmDeladdr 2).name = eth0 := by decide +kernel
  have haddr : (eth0Addr rtmDeladdr 2).ipaddr = [10, 0, 0, 2] := by decide +kernel
  have hdel := not_assigned_of_deladdr
    [eth0Addr rtmNewaddr 1, eth0Addr rtmNewaddr 2, eth0Addr rtmDeladdr 1]
    (show (eth0Addr rtmDeladdr 2).type = rtmDeladdr by decide +kernel)
  rw [hname, haddr] at hdel
  rw [hip] at hend
  exact hend.elim (by decide) hdel

/-! ## The announcements -/

/-- The message can be handled within the node, and an address message has a label
and a four-byte address. -/
def NlMsg.Labelled (m : NlMsg) : Prop :=
  m.Copyable ∧ (m.IsAddr → m.name ≠ [] ∧ m.ipaddr.length = 4)

instance (m : NlMsg) : Decidable m.Labelled := inferInstanceAs (Decidable (_ ∧ _))

/-- The message adds an address that is not the one stored for its label. -/
def NlMsg.Adds (m : NlMsg) (s : Sys) : Prop :=
  m.type = rtmNewaddr ∧ ∀ x, s.attrOf m.name = some x → x.ipaddr ≠ m.ipaddr

/-- The message deletes an address that is assigned to its label. -/
def NlMsg.Removes (m : NlMsg) (pre : List NlMsg) : Prop :=
  m.type = rtmDeladdr ∧ Assigned pre m.name m.ipaddr

/-- A change of address by message `m`, handled from `s` to `s'`, is announced. -/
def AddrAnnounced (pre : List NlMsg) (m : NlMsg) (s s' : Sys) : Prop :=
  (m.Adds s → .log (.newAddr m.ipaddr) ∈ s'.trace.drop s.trace.length) ∧
    (m.Removes pre → .log (.delAddr m.name) ∈ s'.trace.drop s.trace.length)

/-- The handler finds or gets a node, and its last event was of another kind. -/
def OtherEvent (M : Malloc) (type : NetifEventType) (m : NlMsg) (s : Sys) : Prop :=
  ∃ x, m.targetIn M s = some x ∧ x.currentState ≠ type.val

/-- A message that changes an address does not follow an event of its own kind. -/
def AddrEvent (M : Malloc) (pre : List NlMsg) (m : NlMsg) (s : Sys) : Prop :=
  (m.Adds s → OtherEvent M .ifNewaddr m s) ∧ (m.Removes pre → OtherEvent M .ifDeladdr m s)

theorem log_notMem_copyEvents (line : LogLine) (dst : Dst) (payload : List UInt8) :
    .log line ∉ copyEvents dst payload := by
  unfold copyEvents
  split <;> simp

/-- Of what a message adds to the trace, the lines are those logged for the node. -/
theorem log_mem_iff {M : Malloc} {m : NlMsg} {s s' : Sys} (h : Handled M m s s') (line : LogLine) :
    .log line ∈ s'.trace.drop s.trace.length ↔
      ∃ x, m.targetIn M s = some x ∧
        (line = m.line ∨ line ∈ notifyLog m.name m.notifyType (m.update x)) := by
  have hcopies : .log line ∉ m.copies := by
    unfold NlMsg.copies
    split
    · simp [log_notMem_copyEvents]
    · exact log_notMem_copyEvents line _ _
  rw [h.drop_trace]
  cases m.targetIn M s with
  | none => simp [log_notMem_copyEvents]
  | some x => simp [log_notMem_copyEvents, NlMsg.events, hcopies]

/-- The address handler's own line is none of `net_event_notify`'s. -/
theorem line_of_addr {m : NlMsg} (h : m.IsAddr) :
    m.line = .rtmNewaddr m.name ∨ m.line = .rtmDeladdr m.name := by
  unfold NlMsg.line
  rw [if_neg h.type_ne.2]
  split
  · exact .inl rfl
  · exact .inr rfl

theorem currentState_update_addr {m : NlMsg} (haddr : m.IsAddr) (hlen : m.ipaddr.length = 4)
    (x : Attr) : (m.update x).currentState = x.currentState := by
  rw [NlMsg.update_of_addr haddr]
  exact Mem.le32_congr (NlMsg.agree_addrAttr hlen.le (by omega))

theorem newAddr_mem_iff {M : Malloc} {m : NlMsg} {s s' : Sys} (h : Handled M m s s')
    (hnew : m.type = rtmNewaddr) (hlen : m.ipaddr.length = 4) :
    .log (.newAddr m.ipaddr) ∈ s'.trace.drop s.trace.length ↔ OtherEvent M .ifNewaddr m s := by
  have haddr : m.IsAddr := .inl hnew
  rw [log_mem_iff h]
  unfold OtherEvent
  refine exists_congr fun x => and_congr_right fun _ => ?_
  have hline : LogLine.newAddr m.ipaddr ≠ m.line := by
    rcases line_of_addr haddr with hline | hline <;> rw [hline] <;> simp
  unfold notifyLog
  rw [m.notifyType_of_newaddr hnew, currentState_update_addr haddr hlen,
    NlMsg.ipaddr_update_of_addr haddr hlen]
  split
  · next hstate => simp [hstate]
  · next hstate => simp [hstate, hline]

theorem delAddr_mem_iff {M : Malloc} {m : NlMsg} {s s' : Sys} (h : Handled M m s s')
    (hdel : m.type = rtmDeladdr) (hlen : m.ipaddr.length = 4) :
    .log (.delAddr m.name) ∈ s'.trace.drop s.trace.length ↔ OtherEvent M .ifDeladdr m s := by
  have haddr : m.IsAddr := .inr hdel
  rw [log_mem_iff h]
  unfold OtherEvent
  refine exists_congr fun x => and_congr_right fun _ => ?_
  have hline : LogLine.delAddr m.name ≠ m.line := by
    rcases line_of_addr haddr with hline | hline <;> rw [hline] <;> simp
  unfold notifyLog
  rw [m.notifyType_of_deladdr hdel, currentState_update_addr haddr hlen]
  split
  · next hstate => simp [hstate]
  · next hstate => simp [hstate, hline]

/-- Every change of an address is announced, exactly when no address message that
changes one finds the node after an event of its own kind. -/
theorem addrAnnounced_iff (M : Malloc) (ms : List NlMsg) (hms : ∀ m ∈ ms, m.Labelled) :
    (∀ pre m post, ms = pre ++ m :: post →
      ∃ s s', Reaches M pre s ∧ Reaches M (pre ++ [m]) s' ∧ AddrAnnounced pre m s s') ↔
    Along M (AddrEvent M) ms := by
  have hstep : ∀ pre m post, ms = pre ++ m :: post →
      ∃ s s', Reaches M pre s ∧ Reaches M (pre ++ [m]) s' ∧
        (AddrAnnounced pre m s s' ↔ AddrEvent M pre m s) := by
    intro pre m post hsplit
    have hpre : pre ++ [m] <+: ms := ⟨post, by simp [hsplit]⟩
    obtain ⟨hcopy, hlabel⟩ := hms m (hpre.subset (by simp))
    obtain ⟨s, hreach, hgood⟩ := exists_reaches (M := M) fun n hn =>
      (hms n (hpre.subset (by simp [show n ∈ pre from hn]))).1
    obtain ⟨s', hh⟩ := hgood.handled M hcopy.1 fun _ => hcopy.2
    refine ⟨s, s', hreach, hreach.snoc hh.run, and_congr ?_ ?_⟩
    · exact imp_congr_right fun hadds => newAddr_mem_iff hh hadds.1 (hlabel (.inl hadds.1)).2
    · exact imp_congr_right fun hrem => delAddr_mem_iff hh hrem.1 (hlabel (.inr hrem.1)).2
  constructor
  · intro hall pre m post s hsplit hreach
    obtain ⟨s₁, s₂, hreach₁, hreach₂, hiff⟩ := hstep pre m post hsplit
    obtain ⟨t₁, t₂, hreach₁', hreach₂', hann⟩ := hall pre m post hsplit
    rw [hreach₁'.eq hreach₁, hreach₂'.eq hreach₂] at hann
    rw [hreach.eq hreach₁]
    exact hiff.mp hann
  · intro hev pre m post hsplit
    obtain ⟨s, s', hreach, hreach', hiff⟩ := hstep pre m post hsplit
    exact ⟨s, s', hreach, hreach', hiff.mpr (hev pre m post s hsplit hreach)⟩

theorem addrAnnounced_iff_eth0 :
    (∀ pre m post, [eth0Addr rtmNewaddr 1, eth0Addr rtmDeladdr 1] = pre ++ m :: post →
      ∃ s s', Reaches .bump pre s ∧ Reaches .bump (pre ++ [m]) s' ∧ AddrAnnounced pre m s s') ↔
    Along .bump (AddrEvent .bump) [eth0Addr rtmNewaddr 1, eth0Addr rtmDeladdr 1] :=
  addrAnnounced_iff .bump _ (by decide +kernel)

/-- The second of two addresses is stored and not announced. -/
theorem second_addr_silent :
    (∀ m ∈ [eth0Addr rtmNewaddr 1, eth0Addr rtmNewaddr 2], m.Labelled) ∧
    ∃ s s', Reaches .bump [eth0Addr rtmNewaddr 1] s ∧
      Reaches .bump ([eth0Addr rtmNewaddr 1] ++ [eth0Addr rtmNewaddr 2]) s' ∧
      (eth0Addr rtmNewaddr 2).Adds s ∧
      ¬ AddrAnnounced [eth0Addr rtmNewaddr 1] (eth0Addr rtmNewaddr 2) s s' := by
  have hfirst : ((handleAll .bump [eth0Addr rtmNewaddr 1]).run Sys.init).okAnd
      (fun s => (s.attrOf (eth0Addr rtmNewaddr 2).name).map Attr.ipaddr = some [10, 0, 0, 1]) =
        true := by
    decide +kernel
  have hboth : ((handleAll .bump ([eth0Addr rtmNewaddr 1] ++ [eth0Addr rtmNewaddr 2])).run
      Sys.init).okAnd
        (fun s => .log (.newAddr (eth0Addr rtmNewaddr 2).ipaddr) ∉ s.trace) = true := by
    decide +kernel
  obtain ⟨_, s, hreach, hattr⟩ := Outcome.exists_of_okAnd hfirst
  obtain ⟨_, s', hreach', hsilent⟩ := Outcome.exists_of_okAnd hboth
  have hadds : (eth0Addr rtmNewaddr 2).Adds s := by
    refine ⟨by decide +kernel, fun x hx heq => ?_⟩
    have hold := of_decide_eq_true hattr
    rw [hx, Option.map_some, heq] at hold
    exact absurd hold (by decide +kernel)
  refine ⟨by decide +kernel, s, s', hreach, hreach', hadds, fun hann => ?_⟩
  exact of_decide_eq_true hsilent (List.mem_of_mem_drop (hann.1 hadds))

end Netif
