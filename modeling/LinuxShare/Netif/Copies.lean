-- SUMMARY: Where the attribute copies of a message end: inside their fields, in the next ones, or past the node.
import LinuxShare.Netif.Runs

/-!
# The copies of a message

`dispatch_rta` copies as many bytes as the attribute has. A copy that is too long for
its field goes on in the fields behind it, and past the block of the node it is
undefined. Messages whose attributes fit their fields are those that change no byte
they should not.
-/

namespace Netif

open Bytes Resumable

/-! ## Copies past the block -/

section Overrun

variable {s : Sys} {a : Addr} {x : Attr} {evs : List Event} {name : List UInt8}

theorem run_linkBody_overrun {type flags : Nat} {mtu hwaddr : List UInt8}
    (h : ¬ (Dst.mtu.off + mtu.length ≤ attrSize ∧ Dst.hwaddr.off + hwaddr.length ≤ attrSize)) :
    ∃ e s', (linkBody type flags mtu hwaddr name a).run (s.focus .unlocked a x evs) =
      .fault e s' := by
  unfold linkBody
  simp only [Prog.run_bind, run_lock_focus, run_storeAttr_focus, Outcome.bind_ok]
  by_cases hmtu : Dst.mtu.off + mtu.length ≤ attrSize
  · rw [run_dispatchPayload_node hmtu, Outcome.bind_ok]
    obtain ⟨s', hrun⟩ := run_dispatchPayload_node_overrun fun hhw => h ⟨hmtu, hhw⟩
    exact ⟨.overrun, s', by rw [hrun]; rfl⟩
  · obtain ⟨s', hrun⟩ := run_dispatchPayload_node_overrun hmtu
    exact ⟨.overrun, s', by rw [hrun]; rfl⟩

theorem run_addrBody_overrun {type : Nat} {ipaddr : List UInt8}
    (h : ¬ Dst.ipaddr.off + ipaddr.length ≤ attrSize) :
    ∃ e s', (addrBody type ipaddr name a).run (s.focus .unlocked a x evs) = .fault e s' := by
  unfold addrBody
  simp only [Prog.run_bind, run_lock_focus, Outcome.bind_ok]
  obtain ⟨s', hrun⟩ := run_dispatchPayload_node_overrun h
  exact ⟨.overrun, s', by rw [hrun]; rfl⟩

theorem NlMsg.run_body_overrun {m : NlMsg} (hb : ¬ m.InBlock) :
    ∃ e s', (m.body name a).run (s.focus .unlocked a x evs) = .fault e s' := by
  have hoff : ∀ {dst : Dst} {n : Nat}, dst.off + n ≤ attrSize → n ≤ attrSize - dst.off :=
    fun hle => Nat.le_sub_of_add_le' hle
  unfold NlMsg.body
  by_cases hlink : m.IsLink
  · rw [if_pos hlink]
    apply run_linkBody_overrun
    rintro ⟨hmtu, hhw⟩
    exact hb ⟨fun _ => ⟨hoff hmtu, hoff hhw⟩, fun haddr => absurd hlink haddr.type_ne.2⟩
  · rw [if_neg hlink]
    apply run_addrBody_overrun
    intro hip
    exact hb ⟨fun h => absurd h hlink, fun _ => hoff hip⟩

end Overrun

/-- A message that reaches a node and is too long for its block faults. -/
theorem Good.run_handle_overrun {s : Sys} {m : NlMsg} {M : Malloc} (h : Good s) (hname : m.NameFits)
    (htarget : (m.targetIn M s).isSome) (hb : ¬ m.InBlock) :
    ∃ e s', (m.handle M).run s = .fault e s' := by
  obtain ⟨x, hx⟩ := Option.isSome_iff_exists.mp htarget
  obtain ⟨s₁, t₁, a, t₂, hrun, hrepr, _⟩ := NlMsg.run_handle_some h.repr h.named hname hx
  have hover : ∃ e s', (m.body m.name a).run (s₁.focus .unlocked a x []) = .fault e s' :=
    NlMsg.run_body_overrun hb
  rwa [focus_self hrepr.mutex hrepr.lookup_mid, ← hrun] at hover

/-! ## Copies inside their destinations -/

theorem copy_mem_copyEvents {dst dst' : Dst} {payload : List UInt8} {n : Nat} :
    .copy dst n ∈ copyEvents dst' payload ↔ 0 < payload.length ∧ dst = dst' ∧ n = payload.length := by
  unfold copyEvents
  split
  · next h => simp [h]
  · next h => simp [h]

/-- The copies into a node stay inside their fields when the attributes fit. -/
theorem NlMsg.fits_iff_copies {m : NlMsg} (hm : m.IsLink ∨ m.IsAddr) :
    m.Fits ↔ ∀ dst n, .copy dst n ∈ m.copies → n ≤ dst.size := by
  have hcopy : ∀ (dst : Dst) (payload : List UInt8),
      payload.length ≤ dst.size ↔ ∀ d n, .copy d n ∈ copyEvents dst payload → n ≤ d.size := by
    intro dst payload
    simp only [copy_mem_copyEvents]
    constructor
    · rintro hle d n ⟨_, rfl, rfl⟩
      exact hle
    · intro h
      rcases Nat.eq_zero_or_pos payload.length with hzero | hpos
      · exact hzero ▸ Nat.zero_le _
      · exact h dst payload.length ⟨hpos, rfl, rfl⟩
  unfold Fits Within copies
  by_cases hlink : m.IsLink
  · rw [if_pos hlink]
    constructor
    · intro h dst n hmem
      rcases List.mem_append.mp hmem with hmem | hmem
      · exact (hcopy .mtu m.mtu).mp (h.1 hlink).1 dst n hmem
      · exact (hcopy .hwaddr m.hwaddr).mp (h.1 hlink).2 dst n hmem
    · intro h
      refine ⟨fun _ => ⟨?_, ?_⟩, fun haddr => absurd hlink haddr.type_ne.2⟩
      · exact (hcopy .mtu m.mtu).mpr fun d n hmem => h d n (List.mem_append_left _ hmem)
      · exact (hcopy .hwaddr m.hwaddr).mpr fun d n hmem => h d n (List.mem_append_right _ hmem)
  · simp only [if_neg hlink, ← hcopy]
    exact ⟨fun h => h.2 (hm.resolve_left hlink), fun h => ⟨fun hl => absurd hl hlink, fun _ => h⟩⟩

/-- Of what a message adds to the trace, the copies. -/
theorem Handled.copies_iff {M : Malloc} {m : NlMsg} {s s' : Sys} (h : Handled M m s s')
    (hname : m.NameFits) :
    (∀ dst n, .copy dst n ∈ s'.trace.drop s.trace.length → n ≤ dst.size) ↔
      ((m.targetIn M s).isSome → m.Fits) := by
  have hcopyname : ∀ dst n, .copy dst n ∈ copyEvents .ifname m.namePayload → n ≤ dst.size := by
    intro dst n hmem
    obtain ⟨_, rfl, rfl⟩ := copy_mem_copyEvents.mp hmem
    exact hname.1
  rw [h.drop_trace]
  simp only [List.mem_append, or_imp, forall_and]
  rw [and_iff_right hcopyname]
  cases htarget : m.targetIn M s with
  | none => simp
  | some x =>
      rw [NlMsg.fits_iff_copies (isLink_or_isAddr_of_targetIn htarget)]
      simp [NlMsg.events]

/-! ## The bytes that a message may change -/

namespace NlMsg

variable {m : NlMsg} {x y : Attr} {a : Addr} {alloc : Option Addr} {t : Table} {i : Nat}

theorem node_apply_of_link (hlink : m.IsLink) (hfits : m.Fits) (hi : 38 ≤ i) : m.node x i = x i := by
  obtain ⟨hmtu, hhw⟩ := hfits.1 hlink
  have hnotify : (m.node x).Agree (m.update x) i (i + 1) := agree_notifyAttr (.inr (.inr hi))
  have hupd : (m.update x).Agree x i (i + 1) := by
    rw [update_of_link hlink]
    exact agree_linkAttr hmtu hhw (by omega)
  have hlt : i < i + 1 := Nat.lt_succ_self i
  exact (hnotify i (Nat.le_refl i) hlt).trans (hupd i (Nat.le_refl i) hlt)

theorem node_apply_of_addr (haddr : m.IsAddr) (hfits : m.Fits) (hstate : i < 24 ∨ 28 ≤ i)
    (hip : i < 34 ∨ 38 ≤ i) : m.node x i = x i := by
  have hnotify : (m.node x).Agree (m.update x) i (i + 1) := agree_notifyAttr (by omega)
  have hupd : (m.update x).Agree x i (i + 1) := by
    rw [update_of_addr haddr]
    exact agree_addrAttr (hfits.2 haddr) (by omega)
  have hlt : i < i + 1 := Nat.lt_succ_self i
  exact (hnotify i (Nat.le_refl i) hlt).trans (hupd i (Nat.le_refl i) hlt)

/-- A node stays in the table; it is changed only if the message got to a node. -/
theorem mem_step_of_mem (h : (a, x) ∈ t) :
    ∃ y, (a, y) ∈ m.step alloc t ∧ (y = x ∨ y = m.node x ∧ (m.target alloc t).isSome) := by
  unfold step target
  by_cases hempty : m.name = []
  · rw [if_pos hempty]
    exact ⟨x, h, .inl rfl⟩
  · simp only [if_neg hempty]
    cases t.attrOf m.name with
    | some _ =>
        obtain ⟨y, hy, hcases⟩ : ∃ y, (a, y) ∈ Table.modify m.name m.node t ∧ (y = x ∨ y = m.node x) :=
          Table.exists_mem_modify h
        exact ⟨y, hy, hcases.imp_right fun hnode => ⟨hnode, rfl⟩⟩
    | none =>
        cases alloc with
        | some _ => exact ⟨x, List.mem_cons_of_mem _ h, .inl rfl⟩
        | none => exact ⟨x, h, .inl rfl⟩

/-- A node that was not in the table before is the one that was made for the message. -/
theorem mem_of_mem_step (h : (a, y) ∈ m.step alloc t) :
    (∃ x, (a, x) ∈ t) ∨ y = m.node (freshAttr m.name) ∧ (m.target alloc t).isSome := by
  unfold step at h
  unfold target
  by_cases hempty : m.name = []
  · rw [if_pos hempty] at h
    exact .inl ⟨y, h⟩
  · simp only [if_neg hempty] at h ⊢
    cases hattr : t.attrOf m.name with
    | some _ =>
        rw [hattr] at h
        have hmem := List.mem_map_of_mem (f := Prod.fst) h
        rw [Table.map_fst_modify] at hmem
        obtain ⟨p, hp, rfl⟩ := List.mem_map.mp hmem
        exact .inl ⟨p.2, hp⟩
    | none =>
        rw [hattr] at h
        cases alloc with
        | some _ =>
            rcases List.mem_cons.mp h with heq | hmem
            · exact .inr ⟨(Prod.mk.inj heq).2, rfl⟩
            · exact .inl ⟨y, hmem⟩
        | none => exact .inl ⟨y, h⟩

end NlMsg

theorem Handled.lookup {M : Malloc} {m : NlMsg} {s s' : Sys} {a : Addr} {x : Attr}
    (h : Handled M m s s') (hs : Good s) (hx : s.attrs.lookup a = some x) :
    ∃ y, s'.attrs.lookup a = some y ∧ (y = x ∨ y = m.node x ∧ (m.targetIn M s).isSome) := by
  obtain ⟨y, hmem, hy⟩ : ∃ y, (a, y) ∈ m.step (m.allocIn M s) s.table ∧
      (y = x ∨ y = m.node x ∧ (m.targetIn M s).isSome) :=
    NlMsg.mem_step_of_mem ((hs.repr.attrs a x).mp hx)
  rw [← h.table] at hmem
  exact ⟨y, (h.good.repr.attrs a y).mpr hmem, hy⟩

theorem Handled.lookup_new {M : Malloc} {m : NlMsg} {s s' : Sys} {a : Addr} {y : Attr}
    (h : Handled M m s s') (hs : Good s) (hnone : s.attrs.lookup a = none)
    (hy : s'.attrs.lookup a = some y) :
    y = m.node (freshAttr m.name) ∧ (m.targetIn M s).isSome := by
  have hmem := (h.good.repr.attrs a y).mp hy
  rw [h.table] at hmem
  rcases NlMsg.mem_of_mem_step hmem with ⟨x, hx⟩ | hnew
  · rw [(hs.repr.attrs a x).mpr hx] at hnone
    cases hnone
  · exact hnew

/-- Where there is a node for the message, that node is all that changes. -/
theorem Good.run_handle_node {s : Sys} {m : NlMsg} {x : Attr} (h : Good s) (M : Malloc)
    (hname : m.NameFits) (hb : m.InBlock) (hx : s.attrOf m.name = some x) :
    ∃ a, s.attrs.lookup a = some x ∧ (m.handle M).run s =
      .ok () ((m.afterName s).focus .unlocked a (m.node x) (m.events x)) := by
  have htarget := h.targetIn_of_some M hx
  obtain ⟨s₁, t₁, a, t₂, hrun, hrepr, hstreq, hfirst, _, _, _, hsame⟩ :=
    NlMsg.run_handle_some h.repr h.named hname htarget
  have hbody :=
    NlMsg.run_body_of_repr hrepr (isLink_or_isAddr_of_targetIn htarget) hb hname hstreq hfirst
  obtain rfl := hsame hx
  exact ⟨a, hrepr.lookup_mid, hrun.trans hbody⟩

/-- Handling the message has taken `s` to `s'`; every copy has ended inside its
destination, and no byte has changed that the message has nothing to do with. -/
structure Inside (M : Malloc) (m : NlMsg) (s s' : Sys) : Prop where
  run : (m.handle M).run s = .ok () s'
  copies : ∀ dst n, .copy dst n ∈ s'.trace.drop s.trace.length → n ≤ dst.size
  terminated : 0 ∈ (Mem.ofList m.namePayload).slice 0 ifnameSize
  link : m.IsLink → ∀ a x, s.attrs.lookup a = some x →
    ∃ y, s'.attrs.lookup a = some y ∧ y.ipaddr = x.ipaddr ∧ ∀ i, 38 ≤ i → y i = x i
  linkNew : m.IsLink → ∀ a y, s.attrs.lookup a = none → s'.attrs.lookup a = some y →
    y.ipaddr = List.replicate 4 0 ∧ ∀ i, 38 ≤ i → y i = 0
  addr : m.IsAddr → ∀ x, s.attrOf m.name = some x → ∃ a y, s.attrs.lookup a = some x ∧
    s' = { s with attrs := s.attrs.insert a y, trace := s'.trace } ∧
    ∀ i, (i < 24 ∨ 28 ≤ i) → (i < 34 ∨ 38 ≤ i) → y i = x i

theorem Handled.inside {M : Malloc} {m : NlMsg} {s s' : Sys} (h : Handled M m s s') (hs : Good s)
    (hname : m.NameFits) (hfits : (m.targetIn M s).isSome → m.Fits) : Inside M m s s' where
  run := h.run
  copies := (h.copies_iff hname).mpr hfits
  terminated := hname.2
  link hlink a x hx := by
    obtain ⟨y, hy, hcases⟩ := h.lookup hs hx
    refine ⟨y, hy, ?_⟩
    rcases hcases with rfl | ⟨rfl, htarget⟩
    · exact ⟨rfl, fun _ _ => rfl⟩
    · exact ⟨m.ipaddr_node_of_link hlink (hfits htarget), fun i hi =>
        NlMsg.node_apply_of_link hlink (hfits htarget) hi⟩
  linkNew hlink a y hnone hy := by
    obtain ⟨rfl, htarget⟩ := h.lookup_new hs hnone hy
    refine ⟨?_, fun i hi => ?_⟩
    · rw [m.ipaddr_node_of_link hlink (hfits htarget), ipaddr_freshAttr]
    · rw [NlMsg.node_apply_of_link hlink (hfits htarget) hi]
      exact agree_freshAttr m.name (i + 1) i (le_trans (by decide) hi) (Nat.lt_succ_self i)
  addr haddr x hx := by
    have htarget : (m.targetIn M s).isSome := by
      rw [hs.targetIn_of_some M hx]
      rfl
    have hfit := hfits htarget
    obtain ⟨a, hlookup, hrun⟩ := hs.run_handle_node M hname hfit.inBlock hx
    obtain rfl := Outcome.ok_unique h.run hrun
    refine ⟨a, m.node x, hlookup, ?_, fun i => NlMsg.node_apply_of_addr haddr hfit⟩
    rw [Sys.focus, NlMsg.afterName, Sys.emits, ← hs.repr.mutex]

/-- What is handled without a fault can be handled. -/
theorem Good.handleable_of_run {s s' : Sys} {m : NlMsg} {M : Malloc} (h : Good s)
    (hrun : (m.handle M).run s = .ok () s') : m.Handleable M s := by
  have hnofault : ¬ ∃ e s₁, (m.handle M).run s = .fault e s₁ := by
    rintro ⟨e, s₁, hfault⟩
    cases hrun.symm.trans hfault
  have hname : m.NameFits := by
    by_contra hnot
    exact hnofault (NlMsg.run_handle_fault hnot)
  refine ⟨hname, fun htarget => ?_⟩
  by_contra hnot
  exact hnofault (h.run_handle_overrun hname htarget hnot)

/-- What is handled without a fault is handled as `Handled` says. -/
theorem Good.handled_of_run {s s' : Sys} {m : NlMsg} {M : Malloc} (h : Good s)
    (hrun : (m.handle M).run s = .ok () s') : m.NameFits ∧ Handled M m s s' := by
  obtain ⟨hname, hblock⟩ := h.handleable_of_run hrun
  obtain ⟨s₁, hh⟩ := h.handled M hname hblock
  obtain rfl := Outcome.ok_unique hrun hh.run
  exact ⟨hname, hh⟩

/-- Runs that end are runs through well-formed tables. -/
theorem good_of_reaches {M : Malloc} {ms : List NlMsg} {s : Sys} (h : Reaches M ms s) : Good s := by
  induction ms using List.reverseRecOn generalizing s with
  | nil =>
      obtain rfl := h.eq (reaches_nil M)
      exact good_init
  | append_singleton ms m ih =>
      obtain ⟨s₁, hreach, hrun⟩ := Prog.run_forM_snoc_eq_ok.mp h
      exact ((ih hreach).handled_of_run hrun).2.good

/-- The last message of a run that ends. -/
theorem Reaches.handled {M : Malloc} {ms : List NlMsg} {m : NlMsg} {s s' : Sys}
    (h : Reaches M (ms ++ [m]) s') (hs : Reaches M ms s) : m.NameFits ∧ Handled M m s s' := by
  obtain ⟨s₁, hreach, hrun⟩ := Prog.run_forM_snoc_eq_ok.mp h
  obtain rfl := hs.eq hreach
  exact (good_of_reaches hs).handled_of_run hrun

/-- Between two messages, a message makes its copies inside their destinations if and
only if its name fits with a terminator and, where there is a node for it, its
attributes fit their fields. -/
theorem inside_iff (M : Malloc) (m : NlMsg) {s : Sys} (hs : Good s) :
    (∃ s', Inside M m s s') ↔ m.NameFits ∧ ((m.targetIn M s).isSome → m.Fits) := by
  constructor
  · rintro ⟨s', hin⟩
    obtain ⟨hname, hh⟩ := hs.handled_of_run hin.run
    exact ⟨hname, (hh.copies_iff hname).mp hin.copies⟩
  · rintro ⟨hname, hfits⟩
    obtain ⟨s', hh⟩ := hs.handled M hname fun htarget => (hfits htarget).inBlock
    exact ⟨s', hh.inside hs hname hfits⟩

theorem inside_iff_eth0 :
    (∃ s', Inside .bump (eth0Addr rtmNewaddr 1) Sys.init s') ↔ (eth0Addr rtmNewaddr 1).NameFits ∧
      (((eth0Addr rtmNewaddr 1).targetIn .bump Sys.init).isSome → (eth0Addr rtmNewaddr 1).Fits) :=
  inside_iff .bump (eth0Addr rtmNewaddr 1) good_init

/-- A hardware address of 8 bytes overwrites the first half of the node's IP address. -/
theorem long_hwaddr_changes_ipaddr :
    (eth0Hwaddr (List.replicate 8 255) (by decide)).IsLink ∧
    ∃ s s', Reaches .bump [eth0Addr rtmNewaddr 1] s ∧
      ((eth0Hwaddr (List.replicate 8 255) (by decide)).handle .bump).run s = .ok () s' ∧
      (s.attrOf eth0).map Attr.ipaddr = some [10, 0, 0, 1] ∧
      (s'.attrOf eth0).map Attr.ipaddr = some [255, 255, 0, 1] ∧
      ¬ ∃ s', Inside .bump (eth0Hwaddr (List.replicate 8 255) (by decide)) s s' := by
  have hruns : ((handleAll .bump [eth0Addr rtmNewaddr 1]).run Sys.init).okAnd (fun s =>
      (((eth0Hwaddr (List.replicate 8 255) (by decide)).handle .bump).run s).okAnd fun s' =>
        (s.attrOf eth0).map Attr.ipaddr = some [10, 0, 0, 1] ∧
        (s'.attrOf eth0).map Attr.ipaddr = some [255, 255, 0, 1] ∧
        .copy .hwaddr 8 ∈ s'.trace.drop s.trace.length) = true := by
    decide +kernel
  obtain ⟨_, s, hreach, hrun⟩ := Outcome.exists_of_okAnd hruns
  obtain ⟨_, s', hrun, hseen⟩ := Outcome.exists_of_okAnd hrun
  obtain ⟨hbefore, hafter, hcopy⟩ := of_decide_eq_true hseen
  refine ⟨by decide +kernel, s, s', hreach, hrun, hbefore, hafter, ?_⟩
  rintro ⟨s₁, hin⟩
  obtain rfl := Outcome.ok_unique hrun hin.run
  exact absurd (hin.copies .hwaddr 8 hcopy) (by decide)

end Netif
