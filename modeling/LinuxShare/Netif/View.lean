-- SUMMARY: The table as a map from names to attributes, and why interfaces do not affect each other.
import LinuxShare.Lib.Keyed
import LinuxShare.Lib.Lists
import LinuxShare.Netif.Runs

/-!
# The table as a map

What the table is for: the attributes of each interface by its name. As long as
every node that is needed gets allocated, a message acts on this map as `NlMsg.act`
acts on the attributes under the message's name, and the order of the list, the
addresses of the nodes and the messages for other names drop out.
-/

namespace Netif

open Bytes Lists Resumable

/-- What a message makes of the attributes under its name. -/
def NlMsg.act (m : NlMsg) (o : Option Attr) : Option Attr :=
  if m.name = [] then none else some (m.node (o.getD (freshAttr m.name)))

/-- The map after the messages `ms`. -/
def view (ms : List NlMsg) : List UInt8 → Option Attr :=
  Keyed.run NlMsg.name NlMsg.act (fun _ => none) ms

theorem view_snoc (ms : List NlMsg) (m : NlMsg) :
    view (ms ++ [m]) = Keyed.apply NlMsg.name NlMsg.act (view ms) m :=
  Keyed.run_append_singleton _ ms m

/-- There is a node for each name that a message has had, and for no other. -/
theorem isSome_view_iff {ms : List NlMsg} {n : List UInt8} :
    (view ms n).isSome ↔ n ≠ [] ∧ ∃ m ∈ ms, m.name = n := by
  induction ms using List.reverseRecOn with
  | nil => simp [view, Keyed.run]
  | append_singleton ms m ih =>
      rw [view_snoc]
      by_cases hname : m.name = n
      · rw [Keyed.apply_of_eq hname, NlMsg.act, hname]
        by_cases hn : n = []
        · simp [hn]
        · simp [hn, hname]
      · rw [Keyed.apply_of_ne hname, ih]
        simp [hname]

theorem ne_nil_of_view {ms : List NlMsg} {n : List UInt8} {x : Attr} (h : view ms n = some x) :
    n ≠ [] :=
  (isSome_view_iff.mp (by rw [h]; rfl)).1

theorem target_map_node {M : Malloc} (hM : M.Total) (m : NlMsg) (s : Sys) :
    (m.targetIn M s).map m.node = m.act (s.attrOf m.name) := by
  unfold NlMsg.targetIn NlMsg.target NlMsg.act Sys.attrOf
  split
  · rfl
  · cases s.table.attrOf m.name with
    | some x => rw [Option.map_some, Option.getD_some]
    | none =>
        obtain ⟨a, ha⟩ := Option.isSome_iff_exists.mp (hM (m.afterName s))
        rw [NlMsg.allocIn, ha, Option.getD_none]
        rfl

/-- The handlers refine the map. -/
theorem exists_reaches_view {M : Malloc} (hM : M.Total) {ms : List NlMsg}
    (hms : ∀ m ∈ ms, m.Copyable) : ∃ s, Reaches M ms s ∧ s.attrOf = view ms := by
  obtain ⟨s, hreach, _, hview⟩ := run_induction (C := fun _ _ _ => True)
    (P := fun pre s => s.attrOf = view pre) hms (fun _ _ _ _ _ _ => trivial)
    (funext attrOf_init)
    (fun pre m s s' _ _ hview _ hh => by
      funext n
      rw [hh.attrOf, target_map_node hM, view_snoc, ← hview]
      by_cases hn : n = m.name
      · rw [if_pos hn, Keyed.apply_of_eq hn.symm, hn]
      · rw [if_neg hn, Keyed.apply_of_ne (Ne.symm hn)])
  exact ⟨s, hreach, hview⟩

/-! ## The link fields -/

/-- A link message for `n`. -/
def NlMsg.LinkFor (m : NlMsg) (n : List UInt8) : Prop := m.IsLink ∧ m.name = n

instance (m : NlMsg) (n : List UInt8) : Decidable (m.LinkFor n) :=
  inferInstanceAs (Decidable (_ ∧ _))

/-- The link fields of `x` are those of the last link message for `n`; a link message
without an MTU or without a hardware address leaves that field as it was. -/
structure LinkFields (n : List UInt8) (ms : List NlMsg) (x : Attr) : Prop where
  up : x.up = ((lastSuch (fun m => m.LinkFor n) ms).map NlMsg.up).getD false
  portLink : x.portLink = ((lastSuch (fun m => m.LinkFor n) ms).map NlMsg.lowerUp).getD false
  mtu : x.mtu = ((lastSuch (fun m => m.LinkFor n ∧ m.mtu ≠ []) ms).map NlMsg.mtu).getD
    (List.replicate 4 0)
  hwaddr : x.hwaddr = ((lastSuch (fun m => m.LinkFor n ∧ m.hwaddr ≠ []) ms).map
    NlMsg.hwaddr).getD (List.replicate 6 0)

theorem linkFields_freshAttr (n : List UInt8) : LinkFields n [] (freshAttr n) where
  up := up_freshAttr n
  portLink := Attr.portLink_congr ((agree_freshAttr n 18).mono (by decide) (Nat.le_refl 18))
  mtu := Mem.slice_congr ((agree_freshAttr n 24).mono (by decide) (Nat.le_refl 24))
  hwaddr := Mem.slice_congr ((agree_freshAttr n 34).mono (by decide) (Nat.le_refl 34))

/-- A message that is no link message for `n`, and leaves the link fields as they are. -/
theorem LinkFields.snoc_of_not {n : List UInt8} {ms : List NlMsg} {m : NlMsg} {x y : Attr}
    (h : LinkFields n ms x) (hm : ¬ m.LinkFor n)
    (hxy : y.up = x.up ∧ y.portLink = x.portLink ∧ y.mtu = x.mtu ∧ y.hwaddr = x.hwaddr) :
    LinkFields n (ms ++ [m]) y := by
  obtain ⟨hup, hport, hmtu, hhw⟩ := hxy
  refine ⟨?_, ?_, ?_, ?_⟩
  · rw [hup, h.up, lastSuch_append_singleton, if_neg (by simpa using hm)]
  · rw [hport, h.portLink, lastSuch_append_singleton, if_neg (by simpa using hm)]
  · rw [hmtu, h.mtu, lastSuch_append_singleton, if_neg (by simp [hm])]
  · rw [hhw, h.hwaddr, lastSuch_append_singleton, if_neg (by simp [hm])]

theorem LinkFields.snoc_link {n : List UInt8} {ms : List NlMsg} {m : NlMsg} {x : Attr}
    (h : LinkFields n ms x) (hm : m.LinkFor n) (hexact : m.Exact) :
    LinkFields n (ms ++ [m]) (m.node x) := by
  obtain ⟨hup, hport, hmtu, hhw⟩ := m.link_fields_of_link (x := x) hm.1 hexact
  refine ⟨?_, ?_, ?_, ?_⟩
  · rw [hup, lastSuch_append_singleton, if_pos (by simpa using hm), Option.map_some,
      Option.getD_some]
  · rw [hport, lastSuch_append_singleton, if_pos (by simpa using hm), Option.map_some,
      Option.getD_some]
  · rw [hmtu, lastSuch_append_singleton]
    by_cases hnil : m.mtu = []
    · rw [if_pos hnil, if_neg (by simp [hnil]), h.mtu]
    · rw [if_neg hnil, if_pos (by simp [hm, hnil]), Option.map_some, Option.getD_some]
  · rw [hhw, lastSuch_append_singleton]
    by_cases hnil : m.hwaddr = []
    · rw [if_pos hnil, if_neg (by simp [hnil]), h.hwaddr]
    · rw [if_neg hnil, if_pos (by simp [hm, hnil]), Option.map_some, Option.getD_some]

/-- The link fields in the map; a name without a node has those of a new node. -/
theorem linkFields_view {n : List UInt8} (hn : n ≠ []) {ms : List NlMsg}
    (hms : ∀ m ∈ ms, m.Exact) : LinkFields n ms ((view ms n).getD (freshAttr n)) := by
  induction ms using List.reverseRecOn with
  | nil => exact linkFields_freshAttr n
  | append_singleton ms m ih =>
      have hold := ih fun k hk => hms k (by simp [hk])
      have hexact : m.Exact := hms m (by simp)
      rw [view_snoc]
      by_cases hname : m.name = n
      · have hempty : m.name ≠ [] := fun h => hn (hname.symm.trans h)
        rw [Keyed.apply_of_eq hname, NlMsg.act, if_neg hempty, Option.getD_some, hname]
        rcases m.isLink_or_isAddr hempty with hlink | haddr
        · exact hold.snoc_link ⟨hlink, hname⟩ hexact
        · exact hold.snoc_of_not (fun h => haddr.type_ne.2 h.1) (m.link_fields_of_addr haddr hexact)
      · rw [Keyed.apply_of_ne hname]
        exact hold.snoc_of_not (fun h => hname h.2) ⟨rfl, rfl, rfl, rfl⟩

/-! ## Interfaces are independent -/

theorem view_filter (ms : List NlMsg) (n : List UInt8) :
    view (ms.filter fun m => m.name = n) n = view ms n :=
  Keyed.run_filter _ ms n

theorem view_comm (pre : List NlMsg) {m m' : NlMsg} (h : m.name ≠ m'.name) :
    view (pre ++ [m] ++ [m']) = view (pre ++ [m'] ++ [m]) := by
  simp only [view_snoc]
  exact Keyed.apply_comm h (view pre)

section

variable {M : Malloc} {ms : List NlMsg}

/-- Any of the messages `ms`, in any order, take the empty table to their map. -/
theorem exists_reaches_of_subset (hM : M.Total) (hms : ∀ m ∈ ms, m.NameFits ∧ m.Exact)
    {ks : List NlMsg} (hks : ks ⊆ ms) : ∃ s, Reaches M ks s ∧ s.attrOf = view ks :=
  exists_reaches_view hM fun m hm => ⟨(hms m (hks hm)).1, (hms m (hks hm)).2.fits.inBlock⟩

theorem attrOf_filter (hM : M.Total) (hms : ∀ m ∈ ms, m.NameFits ∧ m.Exact) (n : List UInt8) :
    ∃ s s', Reaches M ms s ∧ Reaches M (ms.filter fun m => m.name = n) s' ∧
      s.attrOf n = s'.attrOf n ∧ ((s.attrOf n).isSome ↔ n ≠ [] ∧ ∃ m ∈ ms, m.name = n) ∧
      ∀ x, s.attrOf n = some x → LinkFields n ms x := by
  obtain ⟨s, hs, hview⟩ := exists_reaches_of_subset hM hms (List.Subset.refl ms)
  obtain ⟨s', hs', hview'⟩ := exists_reaches_of_subset hM hms
    (show (ms.filter fun m => m.name = n) ⊆ ms from List.filter_sublist.subset)
  refine ⟨s, s', hs, hs', ?_, ?_, fun x hx => ?_⟩
  · rw [hview, hview', view_filter]
  · rw [hview, isSome_view_iff]
  · rw [hview] at hx
    have hfields := linkFields_view (ne_nil_of_view hx) fun m hm => (hms m hm).2
    rwa [hx] at hfields

theorem attrOf_comm (hM : M.Total) (hms : ∀ m ∈ ms, m.NameFits ∧ m.Exact) {pre : List NlMsg}
    {m m' : NlMsg} (hpre : pre ++ [m] ++ [m'] <+: ms) (hne : m.name ≠ m'.name) :
    ∃ s s', Reaches M (pre ++ [m] ++ [m']) s ∧ Reaches M (pre ++ [m'] ++ [m]) s' ∧
      ∀ n, s.attrOf n = s'.attrOf n := by
  have hperm : (pre ++ [m'] ++ [m]).Perm (pre ++ [m] ++ [m']) := by
    rw [List.append_assoc, List.append_assoc]
    exact List.Perm.append_left pre (.swap m m' [])
  obtain ⟨s, hs, hview⟩ := exists_reaches_of_subset hM hms hpre.subset
  obtain ⟨s', hs', hview'⟩ := exists_reaches_of_subset hM hms
    (List.Subset.trans hperm.subset hpre.subset)
  exact ⟨s, s', hs, hs', fun n => by rw [hview, hview', view_comm pre hne]⟩

theorem link_fields_kept (hM : M.Total) (hms : ∀ m ∈ ms, m.NameFits ∧ m.Exact) {pre : List NlMsg}
    {m : NlMsg} (hpre : pre ++ [m] <+: ms) (haddr : m.IsAddr) :
    ∃ s s', Reaches M pre s ∧ Reaches M (pre ++ [m]) s' ∧
      ∀ n x, s.attrOf n = some x → ∃ y, s'.attrOf n = some y ∧ y.up = x.up ∧
        y.portLink = x.portLink ∧ y.mtu = x.mtu ∧ y.hwaddr = x.hwaddr := by
  obtain ⟨s, hs, hview⟩ := exists_reaches_of_subset hM hms
    (((List.prefix_append pre [m]).trans hpre).subset)
  obtain ⟨s', hs', hview'⟩ := exists_reaches_of_subset hM hms hpre.subset
  refine ⟨s, s', hs, hs', fun n x hx => ?_⟩
  rw [hview] at hx
  rw [hview', view_snoc]
  by_cases hname : m.name = n
  · have hempty : m.name ≠ [] := hname ▸ ne_nil_of_view hx
    refine ⟨m.node x, ?_, m.link_fields_of_addr haddr (hms m (hpre.subset (by simp))).2⟩
    rw [Keyed.apply_of_eq hname, hx, NlMsg.act, if_neg hempty, Option.getD_some]
  · exact ⟨x, by rw [Keyed.apply_of_ne hname, hx], rfl, rfl, rfl, rfl⟩

end

/-- With allocations that succeed, the names that have a node are those of the messages,
a node's attributes come from the messages that name it, and its link fields from the last
link messages among them; messages for different names commute; and no address message
changes a link field. -/
theorem attrOf_independent (M : Malloc) (hM : M.Total) (ms : List NlMsg)
    (hms : ∀ m ∈ ms, m.NameFits ∧ m.Exact) :
    (∀ n, ∃ s s', Reaches M ms s ∧ Reaches M (ms.filter fun m => m.name = n) s' ∧
      s.attrOf n = s'.attrOf n ∧ ((s.attrOf n).isSome ↔ n ≠ [] ∧ ∃ m ∈ ms, m.name = n) ∧
      ∀ x, s.attrOf n = some x → LinkFields n ms x) ∧
    (∀ pre m m', pre ++ [m] ++ [m'] <+: ms → m.name ≠ m'.name →
      ∃ s s', Reaches M (pre ++ [m] ++ [m']) s ∧ Reaches M (pre ++ [m'] ++ [m]) s' ∧
        ∀ n, s.attrOf n = s'.attrOf n) ∧
    (∀ pre m, pre ++ [m] <+: ms → m.IsAddr →
      ∃ s s', Reaches M pre s ∧ Reaches M (pre ++ [m]) s' ∧
        ∀ n x, s.attrOf n = some x → ∃ y, s'.attrOf n = some y ∧ y.up = x.up ∧
          y.portLink = x.portLink ∧ y.mtu = x.mtu ∧ y.hwaddr = x.hwaddr) :=
  ⟨fun n => attrOf_filter hM hms n, fun _ _ _ hpre hne => attrOf_comm hM hms hpre hne,
    fun _ _ hpre haddr => link_fields_kept hM hms hpre haddr⟩

/-- `eth0` is up with its hardware address, `lo` comes and goes, and an address message
for `eth0` leaves its link fields alone. -/
theorem attrOf_independent_eth0 :
    ∃ s x, Reaches .bump [eth0Hwaddr [2, 0, 0, 0, 0, 1] (by decide), loLink rtmNewlink iffUp,
        eth0Link rtmNewlink iffUp, loLink rtmDellink 0, eth0Addr rtmNewaddr 1] s ∧
      s.attrOf eth0 = some x ∧ x.up = true ∧ x.hwaddr = [2, 0, 0, 0, 0, 1] := by
  obtain ⟨s, _, hs, _, _, hnode, hfields⟩ := (attrOf_independent .bump total_bump
    [eth0Hwaddr [2, 0, 0, 0, 0, 1] (by decide), loLink rtmNewlink iffUp,
      eth0Link rtmNewlink iffUp, loLink rtmDellink 0, eth0Addr rtmNewaddr 1]
    (by decide +kernel)).1 eth0
  obtain ⟨x, hx⟩ := Option.isSome_iff_exists.mp (hnode.mpr (by decide +kernel))
  have hf := hfields x hx
  refine ⟨s, x, hs, hx, ?_, ?_⟩
  · rw [hf.up]
    decide +kernel
  · rw [hf.hwaddr]
    decide +kernel

end Netif
