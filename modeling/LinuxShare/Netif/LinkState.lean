-- SUMMARY: Which changes of a link are announced.
import LinuxShare.Lib.Lists
import LinuxShare.Netif.Runs

/-!
# Link state

The `up` and `down` lines for one interface, against the conditions that its link
messages carry. `net_event_notify` compares with the last event of any kind, so an
address message makes it forget the last condition that was announced.
-/

namespace Netif

open Bytes Lists Resumable

/-! ## Conditions and announcements -/

/-- The condition of a link message: up for `RTM_NEWLINK` with `IFF_UP`. -/
def NlMsg.linkUp (m : NlMsg) : Bool := m.type = rtmNewlink ∧ m.up

/-- The conditions that the link messages for `n` carry. -/
def linkConds (n : List UInt8) (ms : List NlMsg) : List Bool :=
  (ms.filter fun m => m.IsLink ∧ m.name = n).map NlMsg.linkUp

/-- The last message for `n`. -/
def lastNamed (n : List UInt8) (ms : List NlMsg) : Option NlMsg := lastSuch (fun m => m.name = n) ms

/-- The `up` and `down` lines for `n` in a trace. -/
def linkLines (n : List UInt8) (trace : List Event) : List Bool :=
  trace.filterMap fun e => match e with
    | .log (.up name) => if name = n then some true else none
    | .log (.down name) => if name = n then some false else none
    | _ => none

/-- The message, if it is for `n`, finds or gets a node when it is a link message,
and does not repeat the last link condition for `n` after an address message. -/
def LinkEvent (M : Malloc) (n : List UInt8) (pre : List NlMsg) (m : NlMsg) (s : Sys) : Prop :=
  m.IsLink → m.name = n → (m.targetIn M s).isSome ∧
    ((linkConds n pre).getLast? = some m.linkUp → ∀ m', lastNamed n pre = some m' → m'.IsLink)

/-- The lines so far are the conditions so far without repetitions, and the node's
`current_state` is the last event for it. -/
structure LinkInv (n : List UInt8) (ms : List NlMsg) (s : Sys) : Prop where
  lines : linkLines n s.trace = (linkConds n ms).destutter (· ≠ ·)
  state : ∀ x, s.attrOf n = some x →
    ∃ m, lastNamed n ms = some m ∧ (m.IsLink ∨ m.IsAddr) ∧ x.currentState = m.notifyType.val
  node : s.attrOf n = none → linkConds n ms = []

theorem linkConds_snoc (n : List UInt8) (ms : List NlMsg) (m : NlMsg) :
    linkConds n (ms ++ [m]) =
      linkConds n ms ++ if m.IsLink ∧ m.name = n then [m.linkUp] else [] := by
  unfold linkConds
  rw [List.filter_append, List.map_append]
  split
  · next h => simp [h]
  · next h => simp [h]

theorem lastNamed_snoc (n : List UInt8) (ms : List NlMsg) (m : NlMsg) :
    lastNamed n (ms ++ [m]) = if m.name = n then some m else lastNamed n ms := by
  rw [lastNamed, lastSuch_append_singleton]
  simp only [decide_eq_true_eq]
  rfl

/-- If the last message for `n` is a link message, it carries the last condition. -/
theorem getLast?_linkConds {n : List UInt8} {ms : List NlMsg} {m : NlMsg}
    (h : lastNamed n ms = some m) (hlink : m.IsLink) :
    (linkConds n ms).getLast? = some m.linkUp := by
  induction ms using List.reverseRecOn with
  | nil => simp [lastNamed] at h
  | append_singleton ms k ih =>
      rw [lastNamed_snoc] at h
      rw [linkConds_snoc]
      by_cases hk : k.name = n
      · rw [if_pos hk] at h
        obtain rfl := Option.some.inj h
        simp [hlink, hk]
      · rw [if_neg hk] at h
        simp [hk, ih h]

theorem linkLines_append (n : List UInt8) (es es' : List Event) :
    linkLines n (es ++ es') = linkLines n es ++ linkLines n es' :=
  List.filterMap_append

theorem linkLines_copyEvents (n : List UInt8) (dst : Dst) (payload : List UInt8) :
    linkLines n (copyEvents dst payload) = [] := by
  unfold copyEvents
  split <;> rfl

/-- The announced event says what kind of message it was, and with which condition. -/
theorem notifyType_cases {m : NlMsg} (hm : m.IsLink ∨ m.IsAddr) :
    (m.IsLink ∧ m.linkUp = true ∧ m.notifyType = .ifUp) ∨
    (m.IsLink ∧ m.linkUp = false ∧ m.notifyType = .ifDown) ∨
    (¬ m.IsLink ∧ (m.notifyType = .ifNewaddr ∨ m.notifyType = .ifDeladdr)) := by
  rcases hm with hlink | haddr
  · have htype := m.notifyType_of_link hlink
    by_cases hup : m.type = rtmNewlink ∧ m.up = true
    · exact .inl ⟨hlink, decide_eq_true hup, by rw [htype, if_pos hup]⟩
    · exact .inr (.inl ⟨hlink, decide_eq_false hup, by rw [htype, if_neg hup]⟩)
  · refine .inr (.inr ⟨haddr.type_ne.2, ?_⟩)
    rcases haddr with hnew | hdel
    · exact .inl (m.notifyType_of_newaddr hnew)
    · exact .inr (m.notifyType_of_deladdr hdel)

/-- The lines that `net_event_notify` adds for `n`. -/
theorem linkLines_notifyLog (n : List UInt8) (m : NlMsg) (hm : m.IsLink ∨ m.IsAddr) (x : Attr) :
    linkLines n ((notifyLog m.name m.notifyType x).map .log) =
      if m.IsLink ∧ m.name = n ∧ x.currentState ≠ m.notifyType.val then [m.linkUp] else [] := by
  unfold notifyLog
  by_cases hstate : x.currentState = m.notifyType.val
  · simp [hstate, linkLines]
  · rw [if_pos hstate]
    rcases notifyType_cases hm with ⟨hlink, hup, htype⟩ | ⟨hlink, hup, htype⟩ | ⟨hlink, htype⟩
    · rw [htype] at hstate ⊢
      by_cases hn : m.name = n <;> simp [linkLines, hlink, hup, hn, hstate]
    · rw [htype] at hstate ⊢
      by_cases hn : m.name = n <;> simp [linkLines, hlink, hup, hn, hstate]
    · rcases htype with htype | htype <;> rw [htype] <;> simp [linkLines, hlink]

theorem linkLines_line (n : List UInt8) (m : NlMsg) (es : List LogLine) :
    linkLines n ((m.line :: es).map .log) = linkLines n (es.map .log) := by
  unfold NlMsg.line
  split <;> split <;> rfl

/-- What a message adds to the lines for `n`. -/
theorem linkLines_handled {M : Malloc} {m : NlMsg} {s s' : Sys} (h : Handled M m s s')
    (n : List UInt8) : linkLines n s'.trace = linkLines n s.trace ++
      (m.targetIn M s).elim [] fun x =>
        if m.IsLink ∧ m.name = n ∧ (m.update x).currentState ≠ m.notifyType.val then [m.linkUp]
        else [] := by
  have htrace : s'.trace = s.trace ++ (copyEvents .ifname m.namePayload ++
      (m.targetIn M s).elim [] m.events) := h.trace
  rw [htrace, linkLines_append, linkLines_append, linkLines_copyEvents, List.nil_append]
  congr 1
  cases htarget : m.targetIn M s with
  | none => rfl
  | some x =>
      have hm := isLink_or_isAddr_of_targetIn htarget
      have hcopies : linkLines n m.copies = [] := by
        unfold NlMsg.copies
        split
        · rw [linkLines_append, linkLines_copyEvents, linkLines_copyEvents]
          rfl
        · exact linkLines_copyEvents n _ _
      simp only [Option.elim_some, NlMsg.events]
      rw [linkLines_append, hcopies, linkLines_line, linkLines_notifyLog n m hm, List.nil_append]

/-! ## Runs -/

theorem linkInv_init (n : List UInt8) : LinkInv n [] Sys.init where
  lines := rfl
  state := fun x hx => by rw [attrOf_init] at hx; cases hx
  node := fun _ => rfl

/-- A message for another interface. -/
theorem LinkInv.step_other {M : Malloc} {n : List UInt8} {pre : List NlMsg} {m : NlMsg} {s s' : Sys}
    (h : LinkInv n pre s) (hn : m.name ≠ n) (hh : Handled M m s s') :
    LinkInv n (pre ++ [m]) s' := by
  have hattr : s'.attrOf n = s.attrOf n := by rw [hh.attrOf, if_neg (Ne.symm hn)]
  refine ⟨?_, ?_, ?_⟩
  · rw [linkLines_handled hh, linkConds_snoc, if_neg fun h => hn h.2, List.append_nil, h.lines]
    cases m.targetIn M s <;> simp [hn]
  · intro x hx
    rw [hattr] at hx
    obtain ⟨k, hk, hkind, hstate⟩ := h.state x hx
    exact ⟨k, by rw [lastNamed_snoc, if_neg hn, hk], hkind, hstate⟩
  · intro hx
    rw [hattr] at hx
    rw [linkConds_snoc, if_neg fun h => hn h.2, List.append_nil, h.node hx]

theorem val_injective : Function.Injective NetifEventType.val := by
  intro a b
  cases a <;> cases b <;> decide

/-- A link message announces what message `k` did only if `k` is a link message with
the same condition. -/
theorem notifyType_eq_iff {k m : NlMsg} (hk : k.IsLink ∨ k.IsAddr) (hm : m.IsLink) :
    k.notifyType = m.notifyType ↔ k.IsLink ∧ k.linkUp = m.linkUp := by
  have hmtype : m.notifyType = if m.linkUp = true then .ifUp else .ifDown := by
    rcases notifyType_cases (.inl hm : m.IsLink ∨ m.IsAddr) with ⟨_, hup, htype⟩ | ⟨_, hup, htype⟩ | h
    · rw [htype, hup]
      rfl
    · rw [htype, hup]
      rfl
    · exact absurd hm h.1
  rw [hmtype]
  rcases notifyType_cases hk with ⟨hlink, hup, htype⟩ | ⟨hlink, hup, htype⟩ | ⟨hlink, htype⟩
  · cases hmup : m.linkUp <;> simp [hlink, hup, htype]
  · cases hmup : m.linkUp <;> simp [hlink, hup, htype]
  · rcases htype with htype | htype <;> cases hmup : m.linkUp <;> simp [hlink, htype]

/-- A link message is left unannounced exactly when it repeats the last condition. -/
theorem LinkInv.silent_iff {M : Malloc} {pre : List NlMsg} {m : NlMsg} {s : Sys} {y : Attr}
    (h : LinkInv m.name pre s) (hlink : m.IsLink) (hev : LinkEvent M m.name pre m s)
    (hy : m.targetIn M s = some y) :
    y.currentState = m.notifyType.val ↔ (linkConds m.name pre).getLast? = some m.linkUp := by
  rcases targetIn_cases hy with hold | ⟨hnone, rfl⟩
  · obtain ⟨k, hk, hkind, hstate⟩ := h.state y hold
    rw [hstate, val_injective.eq_iff, notifyType_eq_iff hkind hlink]
    constructor
    · rintro ⟨hklink, hup⟩
      rw [getLast?_linkConds hk hklink, hup]
    · intro hlast
      have hklink := (hev hlink rfl).2 hlast k hk
      rw [getLast?_linkConds hk hklink] at hlast
      exact ⟨hklink, Option.some.inj hlast⟩
  · rw [currentState_freshAttr, h.node hnone]
    constructor
    · intro hzero
      cases htype : m.notifyType <;> rw [htype] at hzero <;> cases hzero
    · intro hlast
      cases hlast

/-- A message for the interface itself. -/
theorem LinkInv.step_self {M : Malloc} {pre : List NlMsg} {m : NlMsg} {s s' : Sys}
    (h : LinkInv m.name pre s) (hgood : Good s) (hfits : m.Fits)
    (hev : LinkEvent M m.name pre m s) (hh : Handled M m s s') :
    LinkInv m.name (pre ++ [m]) s' := by
  have hattr : s'.attrOf m.name = (m.targetIn M s).map m.node := by rw [hh.attrOf, if_pos rfl]
  have hlines := linkLines_handled hh m.name
  cases hy : m.targetIn M s with
  | none =>
      have hlink : ¬ m.IsLink := fun hlink => by simpa [hy] using (hev hlink rfl).1
      have hnone : s.attrOf m.name = none := by
        by_contra hsome
        obtain ⟨x, hx⟩ := Option.ne_none_iff_exists'.mp hsome
        rw [hgood.targetIn_of_some M hx] at hy
        cases hy
      rw [hy] at hattr hlines
      refine ⟨?_, fun x hx => ?_, fun _ => ?_⟩
      · rw [hlines, h.lines, linkConds_snoc, if_neg fun h => hlink h.1, List.append_nil]
        exact List.append_nil _
      · rw [hattr] at hx
        cases hx
      · rw [linkConds_snoc, if_neg fun h => hlink h.1, h.node hnone, List.append_nil]
  | some y =>
      have hm := isLink_or_isAddr_of_targetIn hy
      rw [hy] at hattr hlines
      refine ⟨?_, fun x hx => ?_, fun hx => ?_⟩
      · rw [hlines, Option.elim_some, NlMsg.currentState_update hm hfits, h.lines, linkConds_snoc]
        by_cases hlink : m.IsLink
        · have hsilent := h.silent_iff hlink hev hy
          simp only [hlink, true_and, if_true, destutter_ne_append_singleton, ← hsilent, ite_not, ne_eq]
        · simp only [hlink, false_and, if_false, List.append_nil]
      · rw [hattr] at hx
        obtain rfl := Option.some.inj hx
        exact ⟨m, by rw [lastNamed_snoc, if_pos rfl], hm, NlMsg.currentState_node⟩
      · rw [hattr] at hx
        cases hx

/-- In a run whose link messages for `n` all get to a node, and in which no address
message for `n` comes between two link messages for `n` of the same condition, the
lines for `n` are the changes of condition: none is missed and none is repeated. -/
theorem linkLines_eq_destutter (M : Malloc) (n : List UInt8) (ms : List NlMsg)
    (hms : ∀ m ∈ ms, m.NameFits ∧ m.Fits) (hev : Along M (LinkEvent M n) ms) :
    ∃ s, Reaches M ms s ∧ linkLines n s.trace = (linkConds n ms).destutter (· ≠ ·) := by
  obtain ⟨s, hreach, _, hinv⟩ := run_induction
    (fun m hm => ⟨(hms m hm).1, (hms m hm).2.inBlock⟩) hev (linkInv_init n)
    (fun pre m s s' hmem hgood h hc hh => by
      by_cases hn : m.name = n
      · subst hn
        exact h.step_self hgood (hms m hmem).2 hc hh
      · exact h.step_other hn hh)
  exact ⟨s, hreach, hinv.lines⟩

/-- What `LinkEvent` asks for when allocations succeed. -/
theorem LinkEvent.of_total {M : Malloc} {n : List UInt8} {pre : List NlMsg} {m : NlMsg}
    (hM : M.Total) (hne : m.name ≠ [])
    (h : m.IsLink → m.name = n → (linkConds n pre).getLast? = some m.linkUp →
      (lastNamed n pre).all (fun k => k.IsLink) = true) (s : Sys) : LinkEvent M n pre m s := by
  refine fun hlink hname => ⟨isSome_targetIn hM hne s, fun hlast k hk => ?_⟩
  have hall := h hlink hname hlast
  rw [hk] at hall
  exact of_decide_eq_true hall

/-- `eth0` comes up, says so again, `lo` comes up, `eth0` gets an address and goes down. -/
theorem linkLines_eq_destutter_eth0 :
    ∃ s, Reaches .bump [eth0Link rtmNewlink iffUp, eth0Link rtmNewlink iffUp,
        loLink rtmNewlink iffUp, eth0Addr rtmNewaddr 1, eth0Link rtmNewlink 0] s ∧
      linkLines eth0 s.trace = [true, false] := by
  have hnil : Along .bump (LinkEvent .bump eth0) [] := along_nil
  have hup : Along .bump (LinkEvent .bump eth0) ([] ++ [eth0Link rtmNewlink iffUp]) :=
    along_snoc.mpr ⟨hnil, fun s _ => .of_total total_bump (by decide +kernel) (by decide +kernel) s⟩
  have hagain : Along .bump (LinkEvent .bump eth0)
      ([eth0Link rtmNewlink iffUp] ++ [eth0Link rtmNewlink iffUp]) :=
    along_snoc.mpr ⟨hup, fun s _ => .of_total total_bump (by decide +kernel) (by decide +kernel) s⟩
  have hlo : Along .bump (LinkEvent .bump eth0)
      ([eth0Link rtmNewlink iffUp, eth0Link rtmNewlink iffUp] ++ [loLink rtmNewlink iffUp]) :=
    along_snoc.mpr ⟨hagain, fun s _ =>
      .of_total total_bump (by decide +kernel) (by decide +kernel) s⟩
  have haddr : Along .bump (LinkEvent .bump eth0)
      ([eth0Link rtmNewlink iffUp, eth0Link rtmNewlink iffUp, loLink rtmNewlink iffUp] ++
        [eth0Addr rtmNewaddr 1]) :=
    along_snoc.mpr ⟨hlo, fun s _ => .of_total total_bump (by decide +kernel) (by decide +kernel) s⟩
  have hdown : Along .bump (LinkEvent .bump eth0)
      ([eth0Link rtmNewlink iffUp, eth0Link rtmNewlink iffUp, loLink rtmNewlink iffUp,
        eth0Addr rtmNewaddr 1] ++ [eth0Link rtmNewlink 0]) :=
    along_snoc.mpr ⟨haddr, fun s _ => .of_total total_bump (by decide +kernel) (by decide +kernel) s⟩
  obtain ⟨s, hs, hlines⟩ := linkLines_eq_destutter .bump eth0 _ (by decide +kernel) hdown
  exact ⟨s, hs, hlines.trans (by decide +kernel)⟩

/-- `eth0` comes up, gets an address and reports its link again: `up` twice. -/
theorem up_after_addr_repeated :
    (∀ m ∈ [eth0Link rtmNewlink iffUp, eth0Addr rtmNewaddr 1, eth0Link rtmNewlink iffUp],
      m.NameFits ∧ m.Fits) ∧
    ∃ s, Reaches .bump [eth0Link rtmNewlink iffUp, eth0Addr rtmNewaddr 1,
      eth0Link rtmNewlink iffUp] s ∧
    linkLines eth0 s.trace = [true, true] ∧
    (linkConds eth0 [eth0Link rtmNewlink iffUp, eth0Addr rtmNewaddr 1,
      eth0Link rtmNewlink iffUp]).destutter (· ≠ ·) = [true] := by
  have hrun : ((handleAll .bump [eth0Link rtmNewlink iffUp, eth0Addr rtmNewaddr 1,
      eth0Link rtmNewlink iffUp]).run Sys.init).okAnd
        (fun s => linkLines eth0 s.trace = [true, true]) = true := by
    decide +kernel
  obtain ⟨_, s, hreach, hlines⟩ := Outcome.exists_of_okAnd hrun
  exact ⟨by decide +kernel, s, hreach, of_decide_eq_true hlines, by decide +kernel⟩

end Netif
