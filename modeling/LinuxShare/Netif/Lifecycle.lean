-- SUMMARY: When the table holds one node for each interface the kernel has.
import LinuxShare.Netif.Copies

/-!
# Interfaces that come, go and change their names

The kernel knows an interface by its `ifi_index`; the handlers only read the name.
`RTM_DELLINK` is handled as a change of flags, and a message with a new name for an
old index makes another node. No message ever takes a node out of the table, so the
table holds one node per interface just as long as interfaces are only created.
-/

namespace Netif

open Bytes Resumable

/-! ## The kernel's side -/

/-- `ifi_index` of a link message. No handler reads it. -/
def NlMsg.ifiIndex (m : NlMsg) : Nat := m.mem.le32 (nlmsgData 0 + 4)

/-- The live interfaces, index and name. -/
abbrev Ifaces := List (Nat × List UInt8)

inductive LinkChange where
  | create (index : Nat) (name : List UInt8)
  | remove (index : Nat)
  | rename (index : Nat) (name : List UInt8)

namespace LinkChange

/-- The change can happen: a new interface gets a fresh index, and no two interfaces
have one name. -/
def Valid (live : Ifaces) : LinkChange → Prop
  | create index name => index ∉ live.map Prod.fst ∧ name ∉ live.map Prod.snd
  | remove index => index ∈ live.map Prod.fst
  | rename index name => index ∈ live.map Prod.fst ∧ name ∉ live.map Prod.snd

def apply (live : Ifaces) : LinkChange → Ifaces
  | create index name => (index, name) :: live
  | remove index => live.filter fun p => p.1 ≠ index
  | rename index name => live.map fun p => if p.1 = index then (index, name) else p

/-- The message that reports the change; its flags and its other attributes are open. -/
def Announces (live : Ifaces) (c : LinkChange) (m : NlMsg) : Prop :=
  match c with
  | create index name => m.type = rtmNewlink ∧ m.ifiIndex = index ∧ m.name = name
  | remove index => m.type = rtmDellink ∧ m.ifiIndex = index ∧ (index, m.name) ∈ live
  | rename index name => m.type = rtmNewlink ∧ m.ifiIndex = index ∧ m.name = name

instance (live : Ifaces) : (c : LinkChange) → Decidable (c.Valid live)
  | create _ _ => inferInstanceAs (Decidable (_ ∧ _))
  | remove _ => inferInstanceAs (Decidable (_ ∈ _))
  | rename _ _ => inferInstanceAs (Decidable (_ ∧ _))

instance (live : Ifaces) (m : NlMsg) : (c : LinkChange) → Decidable (c.Announces live m)
  | create _ _ => inferInstanceAs (Decidable (_ ∧ _ ∧ _))
  | remove _ => inferInstanceAs (Decidable (_ ∧ _ ∧ _))
  | rename _ _ => inferInstanceAs (Decidable (_ ∧ _ ∧ _))

end LinkChange

/-- The interfaces after the changes, from none on. -/
def liveAfter (cs : List (LinkChange × NlMsg)) : Ifaces := cs.foldl (fun live c => c.1.apply live) []

/-- Each change can happen when it does, and its message reports it. -/
def Produced (cs : List (LinkChange × NlMsg)) : Prop :=
  ∀ pre c post, cs = pre ++ c :: post →
    c.1.Valid (liveAfter pre) ∧ c.1.Announces (liveAfter pre) c.2

/-- The names in the table. -/
def Sys.names (s : Sys) : List (List UInt8) := s.table.map fun p => p.2.ifname

/-- One node per live interface and no other, and a counter that says so. -/
structure Tracks (live : Ifaces) (s : Sys) : Prop where
  names : s.names.Perm (live.map Prod.snd)
  sum : s.listSum ≤ live.length

/-! ## Names in the table -/

theorem names_modify {t : Table} {name : List UInt8} {f : Attr → Attr}
    (hf : ∀ x, Attr.ifname (f x) = x.ifname) :
    (Table.modify name f t).map (fun p => p.2.ifname) = t.map fun p => p.2.ifname := by
  induction t with
  | nil => rfl
  | cons p t ih =>
      unfold Table.modify
      split
      · rw [List.map_cons, List.map_cons, hf]
      · rw [List.map_cons, List.map_cons, ih]

theorem attrOf_eq_none_iff_names {s : Sys} {n : List UInt8} : s.attrOf n = none ↔ n ∉ s.names := by
  rw [Sys.attrOf, Table.attrOf_eq_none]
  simp [Sys.names]

section

variable {M : Malloc} {m : NlMsg} {s s' : Sys} {live : Ifaces}

/-- A message for a name that has a node leaves the names as they are. -/
theorem Handled.names_of_mem (h : Handled M m s s') (hmem : m.name ∈ s.names) :
    s'.names = s.names := by
  have hsome : s.table.attrOf m.name ≠ none := by
    rw [← Sys.attrOf, Ne, attrOf_eq_none_iff_names]
    exact not_not_intro hmem
  obtain ⟨x, hx⟩ := Option.ne_none_iff_exists'.mp hsome
  rw [Sys.names, h.table]
  unfold NlMsg.step
  split
  · rfl
  · simp only [hx]
    exact names_modify m.ifname_node

/-- A message for another name adds it, if it gets a node. -/
theorem Handled.names_of_notMem (h : Handled M m s s') (hname : m.NameFits)
    (hmem : m.name ∉ s.names) :
    s'.names = if (m.targetIn M s).isSome then m.name :: s.names else s.names := by
  have hnone : s.table.attrOf m.name = none := attrOf_eq_none_iff_names.mpr hmem
  rw [Sys.names, h.table]
  unfold NlMsg.targetIn NlMsg.target NlMsg.step
  split
  · rfl
  · simp only [hnone]
    cases m.allocIn M s with
    | none => rfl
    | some a =>
        have hifname : (m.node (freshAttr m.name)).ifname = m.name := by
          rw [m.ifname_node, ifname_freshAttr m.zero_notMem_name hname.length_name]
        simp [Sys.names, hifname]

theorem Good.sum_le (h : Good s) (hperm : s.names.Perm (live.map Prod.snd)) :
    s.listSum ≤ live.length := by
  have hlen : s.table.length = live.length := by simpa [Sys.names] using hperm.length_eq
  rw [h.repr.sum, hlen]
  exact Nat.mod_le _ _

theorem Tracks.length_eq (h : Tracks live s) : s.names.length = live.length := by
  simpa using h.names.length_eq

/-- A creation is followed if and only if a node is made. -/
theorem Handled.tracks_create {index : Nat} {name : List UInt8} (h : Handled M m s s')
    (hs : Tracks live s) (hvalid : (LinkChange.create index name).Valid live)
    (hname : m.name = name) (hfits : m.NameFits) :
    Tracks ((LinkChange.create index name).apply live) s' ↔ (m.targetIn M s).isSome := by
  have hmem : m.name ∉ s.names := fun hmem => hvalid.2 (hname ▸ hs.names.mem_iff.mp hmem)
  have hnames := h.names_of_notMem hfits hmem
  constructor
  · intro htracks
    by_contra hnot
    rw [if_neg hnot] at hnames
    have hlen := htracks.length_eq
    rw [hnames, hs.length_eq] at hlen
    simp [LinkChange.apply] at hlen
  · intro htarget
    rw [if_pos htarget] at hnames
    have hperm : s'.names.Perm (((LinkChange.create index name).apply live).map Prod.snd) := by
      rw [hnames, hname]
      exact hs.names.cons name
    exact ⟨hperm, h.good.sum_le hperm⟩

/-- A removal is never followed. -/
theorem Handled.not_tracks_remove {index : Nat} (h : Handled M m s s') (hs : Tracks live s)
    (hmem : (index, m.name) ∈ live) : ¬ Tracks ((LinkChange.remove index).apply live) s' := by
  intro htracks
  have hnames : m.name ∈ s.names := hs.names.mem_iff.mpr (List.mem_map_of_mem hmem)
  have hlen := htracks.length_eq
  rw [h.names_of_mem hnames, hs.length_eq] at hlen
  have hlt : ((LinkChange.remove index).apply live).length < live.length :=
    List.length_filter_lt_length_iff_exists.mpr ⟨_, hmem, by simp⟩
  exact absurd hlen hlt.ne'

/-- Nor is a change of name. -/
theorem Handled.not_tracks_rename {index : Nat} {name : List UInt8} (h : Handled M m s s')
    (hs : Tracks live s) (hvalid : (LinkChange.rename index name).Valid live)
    (hname : m.name = name) (hfits : m.NameFits) :
    ¬ Tracks ((LinkChange.rename index name).apply live) s' := by
  intro htracks
  have hmem : m.name ∉ s.names := fun hmem => hvalid.2 (hname ▸ hs.names.mem_iff.mp hmem)
  have hnew : m.name ∈ s'.names := by
    obtain ⟨old, hold⟩ : ∃ old, (index, old) ∈ live := by simpa using hvalid.1
    refine htracks.names.mem_iff.mpr (List.mem_map.mpr ⟨(index, name), ?_, hname.symm⟩)
    exact List.mem_map.mpr ⟨(index, old), hold, if_pos rfl⟩
  have hlen := htracks.length_eq
  rw [LinkChange.apply, List.length_map, ← hs.length_eq] at hlen
  rw [h.names_of_notMem hfits hmem] at hlen hnew
  split at hlen
  · simp at hlen
  · next hnot =>
      rw [if_neg hnot] at hnew
      exact hmem hnew

end

/-! ## Runs -/

theorem liveAfter_snoc (cs : List (LinkChange × NlMsg)) (c : LinkChange × NlMsg) :
    liveAfter (cs ++ [c]) = c.1.apply (liveAfter cs) := by
  simp [liveAfter]

theorem produced_nil : Produced [] := fun pre c post hsplit => by simp at hsplit

theorem Produced.snoc {cs : List (LinkChange × NlMsg)} {c : LinkChange × NlMsg} (h : Produced cs)
    (hvalid : c.1.Valid (liveAfter cs)) (hc : c.1.Announces (liveAfter cs) c.2) :
    Produced (cs ++ [c]) :=
  Lists.forall_split_append_singleton.mpr ⟨h, hvalid, hc⟩

theorem tracks_init : Tracks [] Sys.init where
  names := by rw [Sys.names, repr_init.table_eq]; rfl
  sum := Nat.le_refl 0

/-- The change creates an interface, and there is a node for it, which its message can be
copied to. -/
structure GetsNode (M : Malloc) (c : LinkChange × NlMsg) (s : Sys) : Prop where
  create : ∃ index name, c.1 = .create index name
  node : (c.2.targetIn M s).isSome
  copyable : c.2.Copyable

theorem Handled.tracks_iff {M : Malloc} {c : LinkChange × NlMsg} {s s' : Sys} {live : Ifaces}
    (h : Handled M c.2 s s') (hs : Tracks live s) (hvalid : c.1.Valid live)
    (hc : c.1.Announces live c.2) (hname : c.2.NameFits) :
    Tracks (c.1.apply live) s' ↔
      (∃ index name, c.1 = .create index name) ∧ (c.2.targetIn M s).isSome := by
  obtain ⟨c, m⟩ := c
  cases c with
  | create index name =>
      rw [h.tracks_create hs hvalid hc.2.2 hname, and_iff_right ⟨index, name, rfl⟩]
  | remove index =>
      refine iff_of_false (h.not_tracks_remove hs hc.2.2) ?_
      rintro ⟨⟨_, _, hcreate⟩, _⟩
      cases hcreate
  | rename index name =>
      refine iff_of_false (h.not_tracks_rename hs hvalid hc.2.2 hname) ?_
      rintro ⟨⟨_, _, hcreate⟩, _⟩
      cases hcreate

/-- After each change the table holds one node per live interface, if and only if all
changes are creations and each of them gets a node that its message can be copied to. -/
theorem tracks_iff_getsNode (M : Malloc) (cs : List (LinkChange × NlMsg)) (hcs : Produced cs) :
    (∀ pre, pre <+: cs → ∃ s, Reaches M (pre.map Prod.snd) s ∧ Tracks (liveAfter pre) s) ↔
      ∀ pre c post s, cs = pre ++ c :: post → Reaches M (pre.map Prod.snd) s → GetsNode M c s := by
  constructor
  · intro hall pre c post s hsplit hreach
    obtain ⟨hvalid, hc⟩ := hcs pre c post hsplit
    obtain ⟨s₁, hreach₁, htracks⟩ := hall pre ⟨c :: post, hsplit.symm⟩
    obtain rfl := hreach.eq hreach₁
    obtain ⟨s', hreach', htracks'⟩ := hall (pre ++ [c]) ⟨post, by simp [hsplit]⟩
    rw [List.map_append, List.map_singleton] at hreach'
    rw [liveAfter_snoc] at htracks'
    obtain ⟨hname, hh⟩ := hreach'.handled hreach
    obtain ⟨hcreate, hnode⟩ := (hh.tracks_iff htracks hvalid hc hname).mp htracks'
    have hblock := ((good_of_reaches hreach).handleable_of_run hh.run).2 hnode
    exact ⟨hcreate, hnode, hname, hblock⟩
  · intro hnodes pre
    induction pre using List.reverseRecOn with
    | nil => exact fun _ => ⟨_, reaches_nil M, tracks_init⟩
    | append_singleton pre c ih =>
        rintro ⟨post, hsplit⟩
        have hsplit' : cs = pre ++ c :: post := by simpa using hsplit.symm
        obtain ⟨hvalid, hc⟩ := hcs pre c post hsplit'
        obtain ⟨s, hreach, htracks⟩ := ih ⟨c :: post, hsplit'.symm⟩
        obtain ⟨hcreate, hnode, hname, hblock⟩ := hnodes pre c post s hsplit' hreach
        obtain ⟨s', hh⟩ := (good_of_reaches hreach).handled M hname fun _ => hblock
        rw [List.map_append, List.map_singleton, liveAfter_snoc]
        exact ⟨s', hreach.snoc hh.run,
          (hh.tracks_iff htracks hvalid hc hname).mpr ⟨hcreate, hnode⟩⟩

/-- A link message for `eth0`, with its index. -/
def eth0Indexed (type index : Nat) : NlMsg :=
  .build type (List.replicate 4 0 ++ Mem.bytes32 index ++ List.replicate 8 0 ++
    rtattrBytes iflaIfname (eth0 ++ [0])) (by simp [rtattrBytes, eth0])

/-- `eth0` is created as interface 2, and removed. -/
def eth0Removed : List (LinkChange × NlMsg) :=
  [(.create 2 eth0, eth0Indexed rtmNewlink 2), (.remove 2, eth0Indexed rtmDellink 2)]

theorem produced_eth0 : Produced [eth0Removed[0]] ∧ Produced eth0Removed := by
  have hcreate : Produced ([] ++ [eth0Removed[0]]) :=
    produced_nil.snoc (by decide) (by decide +kernel)
  exact ⟨hcreate, hcreate.snoc (by decide) (by decide +kernel)⟩

/-- `eth0` and `lo` are created, and both are in the table. -/
def eth0AndLo : List (LinkChange × NlMsg) :=
  [(.create 2 eth0, eth0Indexed rtmNewlink 2), (.create 0 lo, loLink rtmNewlink iffUp)]

theorem tracks_iff_getsNode_eth0 :
    ∃ s, Reaches .bump (eth0AndLo.map Prod.snd) s ∧ Tracks [(0, lo), (2, eth0)] s := by
  have hproduced : Produced ([eth0AndLo[0]] ++ [eth0AndLo[1]]) :=
    produced_eth0.1.snoc (by decide) (by decide +kernel)
  refine (tracks_iff_getsNode .bump eth0AndLo hproduced).mpr ?_ eth0AndLo List.prefix_rfl
  intro pre c post s hsplit _
  have hmem : c ∈ eth0AndLo := by simp [hsplit]
  have hcreate : ∀ c ∈ eth0AndLo, ∃ index name, c.1 = .create index name :=
    List.forall_mem_cons.mpr ⟨⟨2, eth0, rfl⟩, List.forall_mem_cons.mpr ⟨⟨0, lo, rfl⟩, by simp⟩⟩
  have hcopy : ∀ c ∈ eth0AndLo, c.2.name ≠ [] ∧ c.2.Copyable := by decide +kernel
  exact ⟨hcreate c hmem, isSome_targetIn total_bump (hcopy c hmem).1 s, (hcopy c hmem).2⟩

/-- The node of an interface that is gone stays. -/
theorem removed_iface_stays :
    Produced eth0Removed ∧ liveAfter eth0Removed = [] ∧
    ∃ s, Reaches .bump (eth0Removed.map Prod.snd) s ∧ s.names = [eth0] ∧ s.listSum = 1 ∧
      ¬ Tracks (liveAfter eth0Removed) s := by
  have hrun : ((handleAll .bump (eth0Removed.map Prod.snd)).run Sys.init).okAnd (fun s =>
      s.names = [eth0] ∧ s.listSum = 1) = true := by
    decide +kernel
  obtain ⟨_, s, hreach, hseen⟩ := Outcome.exists_of_okAnd hrun
  obtain ⟨hnames, hsum⟩ := of_decide_eq_true hseen
  refine ⟨produced_eth0.2, by decide, s, hreach, hnames, hsum, fun htracks => ?_⟩
  have hle := htracks.sum
  rw [hsum] at hle
  exact absurd hle (by decide)

end Netif
