-- SUMMARY: The interface table as a list of nodes, and what the operations of netif_list.c do to it.
import LinuxShare.Netif.NetifList

/-!
# The table as a list

`Repr s t` says that the memory `s` holds exactly the nodes `t`: linked in this
order from the list head, all of them and nothing else allocated, counted, and
with the mutex free. Every operation has one specification in these terms, and
nothing below unfolds an operation again.
-/

namespace Netif

open Bytes Resumable Ring

/-- The nodes of the table, from the list head on. -/
abbrev Table := List (Addr × Attr)

/-- The address of the first node that `strcmp` finds equal to `name`. -/
def Table.find (t : Table) (name : List UInt8) : Option Addr :=
  (List.find? (fun p => streq p.2 0 name) t).map Prod.fst

/-- The attributes of the node named `name`. -/
def Table.attrOf (t : Table) (name : List UInt8) : Option Attr :=
  (List.find? (fun p => p.2.ifname = name) t).map Prod.snd

/-- The table with the attributes of the node named `name` changed by `f`. -/
def Table.modify (name : List UInt8) (f : Attr → Attr) : Table → Table
  | [] => []
  | p :: t => if p.2.ifname = name then (p.1, f p.2) :: t else p :: Table.modify name f t

/-- Every node has a terminated, non-empty name of its own. -/
structure Table.Named (t : Table) : Prop where
  terminated : ∀ p ∈ t, 0 ∈ p.2.slice 0 ifnameSize
  nonempty : ∀ p ∈ t, p.2.ifname ≠ []
  distinct : (t.map fun p => p.2.ifname).Nodup

/-- Every node has a terminated name of its own. -/
structure Table.Distinct (t : Table) : Prop where
  terminated : ∀ p ∈ t, 0 ∈ Mem.slice p.2 0 ifnameSize
  distinct : (t.map fun p => p.2.ifname).Nodup

/-- Memory `s` holds the table `t`. -/
structure Repr (s : Sys) (t : Table) : Prop where
  ring : IsRing s.links headAddr (t.map Prod.fst)
  attrs : ∀ a x, s.attrs.lookup a = some x ↔ (a, x) ∈ t
  sum : s.listSum = t.length % 2 ^ 32
  mutex : s.mutex = .unlocked
  ready : s.listReady = true

theorem repr_init : Repr Sys.init [] where
  ring := isRing_commonInitListHead
  attrs := fun a x => by simp [Sys.init, Sys.static]
  sum := rfl
  mutex := rfl
  ready := rfl

/-- A table that `Table.find` finds a name in, split at the node found. -/
theorem Table.find_eq_some {t : Table} {name : List UInt8} {a : Addr}
    (h : t.find name = some a) :
    ∃ t₁ x t₂, t = t₁ ++ (a, x) :: t₂ ∧ streq x 0 name = true ∧
      ∀ p ∈ t₁, streq p.2 0 name = false := by
  obtain ⟨⟨b, x⟩, hfind, rfl⟩ := Option.map_eq_some_iff.mp h
  obtain ⟨hx, t₁, t₂, rfl, hfirst⟩ := List.find?_eq_some_iff_append.mp hfind
  exact ⟨t₁, x, t₂, rfl, hx, fun p hp => by simpa using hfirst p hp⟩

theorem Table.find_append_cons {t₁ t₂ : Table} {a : Addr} {x : Attr} {name : List UInt8}
    (hx : streq x 0 name = true) (hfirst : ∀ p ∈ t₁, streq p.2 0 name = false) :
    Table.find (t₁ ++ (a, x) :: t₂) name = some a := by
  rw [Table.find, List.find?_append, List.find?_eq_none.mpr (fun p hp => by simp [hfirst p hp])]
  simp [hx]

theorem Table.find_eq_none {t : Table} {name : List UInt8} :
    t.find name = none ↔ ∀ p ∈ t, streq p.2 0 name = false := by
  simp [Table.find]

/-! ## Names -/

namespace Table

variable {t t₁ t₂ : Table} {a : Addr} {x : Attr} {name : List UInt8} {f : Attr → Attr}

namespace Distinct

theorem nil : Distinct [] := ⟨by simp, by simp⟩

theorem cons (h : t.Distinct) (hterm : 0 ∈ x.slice 0 ifnameSize)
    (hnew : ∀ p ∈ t, p.2.ifname ≠ x.ifname) : Distinct ((a, x) :: t) where
  terminated := List.forall_mem_cons.mpr ⟨hterm, h.terminated⟩
  distinct := by
    refine List.nodup_cons.mpr ⟨fun hmem => ?_, h.distinct⟩
    obtain ⟨p, hp, heq⟩ := List.mem_map.mp hmem
    exact hnew p hp heq

theorem remove {p : Addr × Attr} (h : Distinct (t₁ ++ p :: t₂)) : Distinct (t₁ ++ t₂) := by
  have hsub : (t₁ ++ t₂).Sublist (t₁ ++ p :: t₂) := (List.sublist_cons_self p t₂).append_left t₁
  exact ⟨fun q hq => h.terminated q (hsub.mem hq), h.distinct.sublist (hsub.map _)⟩

/-- No other node has the name of a given one. -/
theorem ne_of_mem_rest {p : Addr × Attr} (h : Distinct (t₁ ++ p :: t₂)) :
    ∀ q ∈ t₁ ++ t₂, q.2.ifname ≠ p.2.ifname := by
  intro q hq heq
  have hnd := h.distinct
  rw [List.map_append, List.map_cons, List.nodup_append, List.nodup_cons] at hnd
  rcases List.mem_append.mp hq with hq | hq
  · exact hnd.2.2 _ (List.mem_map_of_mem hq) _ List.mem_cons_self heq
  · exact hnd.2.1.1 (heq ▸ List.mem_map_of_mem (f := fun p : Addr × Attr => p.2.ifname) hq)

theorem replace {y : Attr} (h : Distinct (t₁ ++ (a, x) :: t₂))
    (hname : y.slice 0 ifnameSize = x.slice 0 ifnameSize) : Distinct (t₁ ++ (a, y) :: t₂) := by
  have hif : y.ifname = x.ifname := congrArg cstr hname
  refine ⟨fun p hp => ?_, ?_⟩
  · rcases List.mem_append.mp hp with hp | hp
    · exact h.terminated p (List.mem_append_left _ hp)
    · rcases List.mem_cons.mp hp with rfl | hp
      · exact hname ▸ h.terminated (a, x) (by simp)
      · exact h.terminated p (by simp [hp])
  · have hnd := h.distinct
    rw [List.map_append, List.map_cons] at hnd ⊢
    rwa [hif]

end Distinct

theorem named_nil : Named [] where
  terminated := by simp
  nonempty := by simp
  distinct := by simp

theorem Named.toDistinct (h : t.Named) : t.Distinct := ⟨h.terminated, h.distinct⟩

theorem Distinct.named (h : t.Distinct) (hne : ∀ p ∈ t, p.2.ifname ≠ []) : t.Named :=
  ⟨h.terminated, hne, h.distinct⟩

theorem Named.remove {p : Addr × Attr} (h : Named (t₁ ++ p :: t₂)) : Named (t₁ ++ t₂) := by
  refine h.toDistinct.remove.named fun q hq => h.nonempty q ?_
  rcases List.mem_append.mp hq with hq | hq <;> simp [hq]

/-- Where names are terminated, `strcmp` compares names. -/
theorem streq_eq (hterm : 0 ∈ x.slice 0 ifnameSize) (hname : 0 ∉ name) :
    streq x 0 name = decide (x.ifname = name) := by
  have hiff := streq_iff hname hterm
  rw [Bool.eq_iff_iff, hiff, decide_eq_true_iff]
  rfl

theorem Named.streq_eq (h : t.Named) {p : Addr × Attr} (hp : p ∈ t) (hname : 0 ∉ name) :
    streq p.2 0 name = decide (p.2.ifname = name) :=
  Table.streq_eq (h.terminated p hp) hname

theorem attrOf_append_cons (hx : x.ifname = name) (hfirst : ∀ p ∈ t₁, p.2.ifname ≠ name) :
    attrOf (t₁ ++ (a, x) :: t₂) name = some x := by
  rw [attrOf, List.find?_append, List.find?_eq_none.mpr (by simpa using hfirst)]
  simp [hx]

/-- Every node of the table is there after the change, and no other. -/
theorem exists_mem_modify (h : (a, x) ∈ t) : ∃ y, (a, y) ∈ modify name f t ∧ (y = x ∨ y = f x) := by
  induction t with
  | nil => cases h
  | cons p t ih =>
      unfold modify
      split
      · rcases List.mem_cons.mp h with rfl | hmem
        · exact ⟨f x, List.mem_cons_self, .inr rfl⟩
        · exact ⟨x, List.mem_cons_of_mem _ hmem, .inl rfl⟩
      · rcases List.mem_cons.mp h with rfl | hmem
        · exact ⟨x, List.mem_cons_self, .inl rfl⟩
        · obtain ⟨y, hy, hcases⟩ := ih hmem
          exact ⟨y, List.mem_cons_of_mem _ hy, hcases⟩

theorem map_fst_modify (name : List UInt8) (f : Attr → Attr) (t : Table) :
    (modify name f t).map Prod.fst = t.map Prod.fst := by
  induction t with
  | nil => rfl
  | cons p t ih =>
      unfold modify
      split
      · rfl
      · rw [List.map_cons, List.map_cons, ih]

theorem modify_append_cons (hx : x.ifname = name) (hfirst : ∀ p ∈ t₁, p.2.ifname ≠ name) :
    modify name f (t₁ ++ (a, x) :: t₂) = t₁ ++ (a, f x) :: t₂ := by
  induction t₁ with
  | nil => simp [modify, hx]
  | cons p t₁ ih =>
      have hp : p.2.ifname ≠ name := hfirst p (by simp)
      simp [modify, hp, ih fun q hq => hfirst q (by simp [hq])]

theorem attrOf_eq_none : t.attrOf name = none ↔ ∀ p ∈ t, p.2.ifname ≠ name := by
  simp [attrOf]

theorem Named.attrOf_eq_some (h : t.Named) :
    t.attrOf name = some x ↔ ∃ a, (a, x) ∈ t ∧ x.ifname = name := by
  constructor
  · intro hx
    obtain ⟨p, hfind, rfl⟩ := Option.map_eq_some_iff.mp hx
    exact ⟨p.1, List.mem_of_find?_eq_some hfind, by simpa using List.find?_some hfind⟩
  · rintro ⟨a, hmem, hname⟩
    obtain ⟨t₁, t₂, rfl⟩ := List.append_of_mem hmem
    refine attrOf_append_cons hname fun p hp heq => ?_
    exact h.toDistinct.ne_of_mem_rest p (List.mem_append_left _ hp) (heq.trans hname.symm)

theorem Named.cons (h : t.Named) (hterm : 0 ∈ x.slice 0 ifnameSize) (hne : x.ifname ≠ [])
    (hnone : t.attrOf x.ifname = none) : Named ((a, x) :: t) :=
  (h.toDistinct.cons hterm (attrOf_eq_none.mp hnone)).named
    (List.forall_mem_cons.mpr ⟨hne, h.nonempty⟩)

theorem attrOf_cons : attrOf ((a, x) :: t) name = if x.ifname = name then some x else t.attrOf name := by
  unfold attrOf
  split
  · next h => simp [h]
  · next h => simp [h]

theorem length_modify (name : List UInt8) (f : Attr → Attr) (t : Table) :
    (modify name f t).length = t.length := by
  simpa using congrArg List.length (map_fst_modify name f t)

theorem nameBytes_modify (hf : ∀ x, (f x).slice 0 ifnameSize = x.slice 0 ifnameSize) :
    (modify name f t).map (fun p => p.2.slice 0 ifnameSize) =
      t.map fun p => p.2.slice 0 ifnameSize := by
  induction t with
  | nil => rfl
  | cons p t ih =>
      unfold modify
      split
      · rw [List.map_cons, List.map_cons, hf]
      · rw [List.map_cons, List.map_cons, ih]

/-- Names stay names when no write reaches them. -/
theorem Named.modify (h : t.Named) (hf : ∀ x, (f x).slice 0 ifnameSize = x.slice 0 ifnameSize) :
    (modify name f t).Named := by
  have hbytes : (Table.modify name f t).map (fun p => p.2.slice 0 ifnameSize) =
      t.map fun p => p.2.slice 0 ifnameSize := nameBytes_modify hf
  have hmem : ∀ p ∈ Table.modify name f t, ∃ q ∈ t,
      Mem.slice q.2 0 ifnameSize = Mem.slice p.2 0 ifnameSize := by
    intro p hp
    have hin := List.mem_map_of_mem (f := fun p : Addr × Attr => p.2.slice 0 ifnameSize) hp
    rw [hbytes] at hin
    exact List.mem_map.mp hin
  refine ⟨fun p hp => ?_, fun p hp => ?_, ?_⟩
  · obtain ⟨q, hq, heq⟩ := hmem p hp
    exact heq ▸ h.terminated q hq
  · obtain ⟨q, hq, heq⟩ := hmem p hp
    have hne := h.nonempty q hq
    rwa [Attr.ifname, heq] at hne
  · have hnd := h.distinct
    have hcomp : ∀ t : Table, (t.map fun p => p.2.ifname) =
        (t.map fun p => p.2.slice 0 ifnameSize).map cstr := by
      intro t
      rw [List.map_map]
      rfl
    rwa [hcomp, hbytes, ← hcomp]

theorem attrOf_modify (hf : ∀ x, (f x).slice 0 ifnameSize = x.slice 0 ifnameSize)
    (n : List UInt8) :
    attrOf (modify name f t) n = if n = name then (t.attrOf name).map f else t.attrOf n := by
  induction t with
  | nil => simp [modify, attrOf]
  | cons p t ih =>
      obtain ⟨a, x⟩ := p
      have hfx : (f x).ifname = x.ifname := by rw [Attr.ifname, hf, Attr.ifname]
      unfold modify
      by_cases hx : x.ifname = name
      · rw [if_pos hx, attrOf_cons, attrOf_cons, hfx, attrOf_cons, if_pos hx]
        by_cases hn : n = name
        · rw [if_pos hn, hn, if_pos hx]
          rfl
        · rw [if_neg hn, if_neg fun heq => hn (heq.symm.trans hx), if_neg fun heq =>
            hn (heq.symm.trans hx)]
      · rw [if_neg hx, attrOf_cons, attrOf_cons, attrOf_cons, ih, if_neg hx]
        by_cases hn : n = name
        · rw [if_pos hn, if_pos hn, hn, if_neg hx]
        · rw [if_neg hn, if_neg hn]

/-- The node that the search finds is the one with the name. -/
theorem ifname_of_find (hterm : ∀ p ∈ t, 0 ∈ Mem.slice p.2 0 ifnameSize) (hname : 0 ∉ name)
    (hfind : t.find name = some a) :
    ∃ t₁ x t₂, t = t₁ ++ (a, x) :: t₂ ∧ x.ifname = name ∧ ∀ p ∈ t₁, p.2.ifname ≠ name := by
  obtain ⟨t₁, x, t₂, rfl, hx, hfirst⟩ := Table.find_eq_some hfind
  have hstreq : ∀ p ∈ t₁ ++ (a, x) :: t₂, streq p.2 0 name = decide (Attr.ifname p.2 = name) :=
    fun p hp => streq_eq (hterm p hp) hname
  refine ⟨t₁, x, t₂, rfl, ?_, fun p hp => ?_⟩
  · exact of_decide_eq_true ((hstreq (a, x) (by simp)).symm.trans hx)
  · exact of_decide_eq_false ((hstreq p (by simp [hp])).symm.trans (hfirst p hp))

theorem find_eq_none_iff (hterm : ∀ p ∈ t, 0 ∈ Mem.slice p.2 0 ifnameSize) (hname : 0 ∉ name) :
    t.find name = none ↔ ∀ p ∈ t, p.2.ifname ≠ name := by
  rw [Table.find_eq_none]
  constructor
  · intro hnone p hp
    have hstreq := hnone p hp
    rw [streq_eq (hterm p hp) hname] at hstreq
    exact of_decide_eq_false hstreq
  · intro hnone p hp
    rw [streq_eq (hterm p hp) hname]
    exact decide_eq_false (hnone p hp)

theorem Named.find_eq_some (h : t.Named) (hname : 0 ∉ name) (hfind : t.find name = some a) :
    ∃ t₁ x t₂, t = t₁ ++ (a, x) :: t₂ ∧ x.ifname = name ∧ ∀ p ∈ t₁, p.2.ifname ≠ name :=
  ifname_of_find h.terminated hname hfind

theorem Named.find_eq_none (h : t.Named) (hname : 0 ∉ name) :
    t.find name = none ↔ t.attrOf name = none :=
  (find_eq_none_iff h.terminated hname).trans attrOf_eq_none.symm

end Table

/-- The list of memory `s` is the table `t`, and the mutex is free; there may be other
allocated blocks, and the counter may be late. -/
structure Linked (s : Sys) (t : Table) : Prop where
  ring : IsRing s.links headAddr (t.map Prod.fst)
  attrs : ∀ p ∈ t, s.attrs.lookup p.1 = some p.2
  mutex : s.mutex = .unlocked
  ready : s.listReady = true

namespace Linked

variable {s : Sys} {t t₁ t₂ : Table} {a : Addr} {x : Attr}

theorem live (h : Linked s t) (ha : a ∈ headAddr :: t.map Prod.fst) : s.Live a := by
  rcases List.mem_cons.mp ha with rfl | hmem
  · exact .inl rfl
  · obtain ⟨p, hp, rfl⟩ := List.mem_map.mp hmem
    exact .inr (Finmap.mem_iff.mpr ⟨p.2, h.attrs p hp⟩)

theorem unlock_eq (h : Linked s t) : ({ s with mutex := .unlocked } : Sys) = s := by rw [← h.mutex]

theorem keys_nodup (h : Linked s t) : (t.map Prod.fst).Nodup := (List.nodup_cons.mp h.ring.nodup).2

/-- All nodes are allocated blocks, so there are no more nodes than blocks. -/
theorem length_le (h : Linked s t) : t.length ≤ s.attrs.keys.card := by
  have hsub : (t.map Prod.fst).toFinset ⊆ s.attrs.keys := by
    intro b hb
    obtain ⟨p, hp, rfl⟩ := List.mem_map.mp (List.mem_toFinset.mp hb)
    exact Finmap.mem_keys.mpr (Finmap.mem_iff.mpr ⟨p.2, h.attrs p hp⟩)
  calc t.length = (t.map Prod.fst).toFinset.card := by
        rw [List.toFinset_card_of_nodup h.keys_nodup, List.length_map]
    _ ≤ s.attrs.keys.card := Finset.card_le_card hsub

/-- No other node has the address of a given one. -/
theorem fst_ne (h : Linked s (t₁ ++ (a, x) :: t₂)) : ∀ p ∈ t₁ ++ t₂, p.1 ≠ a := by
  intro p hp heq
  have hnd := h.keys_nodup
  rw [List.map_append, List.map_cons, List.nodup_append, List.nodup_cons] at hnd
  rcases List.mem_append.mp hp with hp | hp
  · exact hnd.2.2 _ (List.mem_map_of_mem hp) _ List.mem_cons_self heq
  · have hmem := List.mem_map_of_mem (f := Prod.fst) hp
    rw [heq] at hmem
    exact hnd.2.1.1 hmem

theorem setSum (h : Linked s t) (n : Nat) : Linked { s with listSum := n } t :=
  ⟨h.ring, h.attrs, h.mutex, h.ready⟩

/-- What happens to other blocks does not matter to the list. -/
theorem insert_new (h : Linked s t) (ha : a ∉ headAddr :: t.map Prod.fst) (x : Attr) :
    Linked { s with attrs := s.attrs.insert a x } t where
  ring := h.ring
  attrs := by
    intro p hp
    have hne : p.1 ≠ a := fun heq =>
      ha (List.mem_cons_of_mem _ (heq ▸ List.mem_map_of_mem hp))
    rw [Finmap.lookup_insert_of_ne s.attrs hne]
    exact h.attrs p hp
  mutex := h.mutex
  ready := h.ready

/-- Linking a new block puts it in front. -/
theorem link (h : Linked s t) (ha : a ∉ headAddr :: t.map Prod.fst)
    (hx : s.attrs.lookup a = some x) :
    Linked { s with links := commonListAdd s.links a headAddr } ((a, x) :: t) where
  ring := isRing_commonListAdd h.ring ha
  attrs := List.forall_mem_cons.mpr ⟨hx, h.attrs⟩
  mutex := h.mutex
  ready := h.ready

/-- A node is unlinked and freed. -/
theorem unlink (h : Linked s (t₁ ++ (a, x) :: t₂)) :
    Linked { s with links := commonListDel s.links a, attrs := s.attrs.erase a } (t₁ ++ t₂) where
  ring := by
    have hring : IsRing s.links headAddr (t₁.map Prod.fst ++ a :: t₂.map Prod.fst) := by
      simpa using h.ring
    simpa using isRing_commonListDel hring
  attrs := by
    intro p hp
    rw [Finmap.lookup_erase_ne (h.fst_ne p hp)]
    rcases List.mem_append.mp hp with hp | hp
    · exact h.attrs p (List.mem_append_left _ hp)
    · exact h.attrs p (by simp [hp])
  mutex := h.mutex
  ready := h.ready

end Linked

namespace Repr

variable {s : Sys} {t t₁ t₂ : Table} {a : Addr} {x : Attr}

theorem linked (h : Repr s t) : Linked s t where
  ring := h.ring
  attrs := fun p hp => (h.attrs p.1 p.2).mpr hp
  mutex := h.mutex
  ready := h.ready

/-- The list is all there is, and it is counted. -/
theorem of_linked (h : Linked s t) (hall : ∀ a ∈ s.attrs, a ∈ t.map Prod.fst)
    (hsum : s.listSum = t.length % 2 ^ 32) : Repr s t where
  ring := h.ring
  attrs := by
    refine fun a x => ⟨fun hx => ?_, h.attrs (a, x)⟩
    obtain ⟨p, hp, rfl⟩ := List.mem_map.mp (hall a (Finmap.mem_iff.mpr ⟨x, hx⟩))
    obtain rfl := Option.some.inj ((h.attrs p hp).symm.trans hx)
    exact hp
  sum := hsum
  mutex := h.mutex
  ready := h.ready

theorem mem_attrs (h : Repr s t) : a ∈ s.attrs ↔ a ∈ t.map Prod.fst := by
  rw [Finmap.mem_iff]
  simp [h.attrs]

theorem live (h : Repr s t) : s.Live a ↔ a ∈ headAddr :: t.map Prod.fst := by
  rw [Sys.Live, h.mem_attrs, List.mem_cons]

theorem lookup_mid (h : Repr s (t₁ ++ (a, x) :: t₂)) : s.attrs.lookup a = some x :=
  (h.attrs a x).mpr (by simp)

/-- The state is the table's: two memories of one table have the same nodes. -/
theorem congr {s' : Sys} (h : Repr s t) (hlinks : s'.links = s.links) (hattrs : s'.attrs = s.attrs)
    (hsum : s'.listSum = s.listSum) (hmutex : s'.mutex = s.mutex)
    (hready : s'.listReady = s.listReady) : Repr s' t where
  ring := hlinks ▸ h.ring
  attrs := hattrs ▸ h.attrs
  sum := hsum ▸ h.sum
  mutex := hmutex ▸ h.mutex
  ready := hready ▸ h.ready

end Repr

/-! ## One node in focus -/

/-- The state `s` with the attributes of node `a` replaced by `x`, the trace
extended by `evs` and the mutex as given. Straight-line code on one node moves
from one such state to the next. -/
def Sys.focus (s : Sys) (mu : Mutex) (a : Addr) (x : Attr) (evs : List Event) : Sys :=
  { s with mutex := mu, attrs := s.attrs.insert a x, trace := s.trace ++ evs }

section Focus

variable {s : Sys} {mu : Mutex} {a : Addr} {x y : Attr} {evs : List Event}

@[simp] theorem focus_trace : (s.focus mu a x evs).trace = s.trace ++ evs := rfl

@[simp] theorem focus_lookup : (s.focus mu a x evs).attrs.lookup a = some x :=
  Finmap.lookup_insert s.attrs

/-- A node is in focus to begin with. -/
theorem focus_self (hmutex : s.mutex = .unlocked) (hx : s.attrs.lookup a = some x) :
    s.focus .unlocked a x [] = s := by
  have hattrs : s.attrs.insert a x = s.attrs := by
    apply Finmap.ext_lookup
    intro b
    by_cases hb : b = a
    · subst hb
      rw [Finmap.lookup_insert, hx]
    · rw [Finmap.lookup_insert_of_ne s.attrs hb]
  cases s
  simp_all [Sys.focus]

@[simp] theorem run_lock_focus :
    lock.run (s.focus .unlocked a x evs) = .ok () (s.focus .locked a x evs) := rfl

@[simp] theorem run_unlock_focus :
    unlock.run (s.focus mu a x evs) = .ok () (s.focus .unlocked a x evs) := rfl

@[simp] theorem run_log_focus (line : LogLine) :
    (log line).run (s.focus mu a x evs) = .ok () (s.focus mu a x (evs ++ [.log line])) := by
  simp [log, Sys.emit, Sys.focus]

@[simp] theorem run_loadAttr_focus {α : Type} (f : Attr → α) :
    (loadAttr a f).run (s.focus mu a x evs) = .ok (f x) (s.focus mu a x evs) := by
  simp [loadAttr]

@[simp] theorem run_storeAttr_focus (f : Attr → Attr) :
    (storeAttr a f).run (s.focus mu a x evs) = .ok () (s.focus mu a (f x) evs) := by
  simp [storeAttr, Sys.focus]

theorem run_copyToNode_focus {dst : Dst} {data : List UInt8}
    (h : dst.off + data.length ≤ attrSize) :
    (copyToNode a dst data).run (s.focus mu a x evs) =
      .ok () (s.focus mu a (x.write dst.off data) (evs ++ [.copy dst data.length])) := by
  simp [copyToNode, h, Sys.focus, Sys.emit]

theorem run_copyToNode_focus_overrun {dst : Dst} {data : List UInt8}
    (h : ¬ dst.off + data.length ≤ attrSize) :
    (copyToNode a dst data).run (s.focus mu a x evs) =
      .fault .overrun (s.focus mu a x (evs ++ [.copy dst data.length])) := by
  simp [copyToNode, h, Sys.focus, Sys.emit]

/-- Writing a node's attributes changes the list at that node only. -/
theorem Linked.focus {t₁ t₂ : Table} (h : Linked s (t₁ ++ (a, x) :: t₂)) (y : Attr)
    (evs : List Event) : Linked (s.focus .unlocked a y evs) (t₁ ++ (a, y) :: t₂) where
  ring := by simpa [Sys.focus] using h.ring
  attrs := by
    intro p hp
    by_cases heq : p = (a, y)
    · subst heq
      exact focus_lookup
    · have hp' : p ∈ t₁ ++ t₂ := by
        rcases List.mem_append.mp hp with hp | hp
        · exact List.mem_append_left _ hp
        · exact List.mem_append_right _ ((List.mem_cons.mp hp).resolve_left heq)
      have hold : p ∈ t₁ ++ (a, x) :: t₂ := by
        rcases List.mem_append.mp hp' with hp | hp <;> simp [hp]
      rw [Sys.focus, Finmap.lookup_insert_of_ne s.attrs (h.fst_ne p hp')]
      exact h.attrs p hold
  mutex := rfl
  ready := h.ready

theorem Repr.focus {t₁ t₂ : Table} (h : Repr s (t₁ ++ (a, x) :: t₂)) (y : Attr) (evs : List Event) :
    Repr (s.focus .unlocked a y evs) (t₁ ++ (a, y) :: t₂) := by
  refine .of_linked (h.linked.focus y evs) (fun b hb => ?_) (by simpa [Sys.focus] using h.sum)
  rcases Finmap.mem_insert.mp hb with rfl | hb
  · simp
  · simpa using h.mem_attrs.mp hb

end Focus

/-! ## Specifications -/

section Specs

variable {s : Sys} {t : Table} {M : Malloc} {name : List UInt8}

/-- The search returns the first node with the name, and changes nothing. -/
theorem run_findLoop {n : Nat} {t' : Table} (name : List UInt8) (hready : s.listReady = true)
    (hattrs : ∀ p ∈ t', s.attrs.lookup p.1 = some p.2) (hhead : headAddr ∉ t'.map Prod.fst)
    (hseg : Segment s.links (t'.map Prod.fst ++ [headAddr])) (hn : t'.length ≤ n) :
    (findLoop name n ((t'.map Prod.fst ++ [headAddr]).head (by simp))).run s =
      .ok (t'.find name) s := by
  induction t' generalizing n with
  | nil => cases n <;> simp [findLoop, Table.find]
  | cons p t' ih =>
      cases n with
      | zero => simp at hn
      | succ n =>
          obtain ⟨a, x⟩ := p
          have hne : a ≠ headAddr := fun heq => hhead (by simp [heq])
          have hlookup : s.attrs.lookup a = some x := hattrs (a, x) (by simp)
          have hlive : s.Live a := .inr (Finmap.mem_iff.mpr ⟨x, hlookup⟩)
          have hnext : (s.links a).next = (t'.map Prod.fst ++ [headAddr]).head (by simp) := by
            cases t' with
            | nil => exact (List.isChain_cons_cons.mp hseg).1.1
            | cons q t' => exact (List.isChain_cons_cons.mp hseg).1.1
          have hrest := ih (fun p hp => hattrs p (by simp [hp]))
            (fun hmem => hhead (by simp at hmem ⊢; exact .inr hmem)) hseg.tail (by simpa using hn)
          have htouch : s.touch a = s := Sys.touch_of_ready hready a
          change (findLoop name (n + 1) a).run s = _
          cases hx : streq x 0 name with
          | true => simp [findLoop, hne, loadAttr, hlookup, hx, Table.find]
          | false =>
              have hskip : Table.find ((a, x) :: t') name = Table.find t' name := by
                simp [Table.find, hx]
              simp [findLoop, hne, loadAttr, hlookup, hx, loadNext, hlive, htouch, hnext, hrest,
                hskip]

/-- Locking, walking the list and leaving the mutex held. -/
theorem run_lock_findNode (h : Linked s t) (name : List UInt8) :
    (lock >>= fun _ => findNode name).run s = .ok (t.find name) { s with mutex := .locked } := by
  obtain ⟨links, attrs, sum, mutex, ready, early, trace⟩ := s
  obtain rfl : mutex = .unlocked := h.mutex
  obtain rfl : ready = true := h.ready
  have hlive : Sys.Live ⟨links, attrs, sum, .locked, true, early, trace⟩ headAddr := .inl rfl
  have hnext : (links headAddr).next = (t.map Prod.fst ++ [headAddr]).head (by simp) := by
    cases t with
    | nil => exact h.ring.empty_iff.mpr rfl
    | cons p t => exact h.ring.next_head
  have hloop : (findLoop name (attrs.keys.card + 1) _).run
      ⟨links, attrs, sum, .locked, true, early, trace⟩ = .ok (t.find name) _ :=
    run_findLoop name rfl h.attrs h.ring.head_notMem h.ring.segment.tail
      (Nat.le_succ_of_le h.length_le)
  simp [lock, findNode, loadNext, hlive, Sys.touch_of_ready, blockCount, hnext, hloop]

theorem Linked.run_netifNodeFind (h : Linked s t) (name : List UInt8) :
    (netifNodeFind name).run s = .ok (t.find name) s := by
  have hfind := run_lock_findNode h name
  rw [netifNodeFind, ← bind_assoc, Prog.run_bind, hfind]
  simp [unlock, h.unlock_eq]

theorem run_netifNodeFind (h : Repr s t) (name : List UInt8) :
    (netifNodeFind name).run s = .ok (t.find name) s := h.linked.run_netifNodeFind name

theorem Linked.run_linkNode {a : Addr} (h : Linked s t) (ha : a ∈ s.attrs) :
    (linkNode a headAddr).run { s with mutex := .locked } =
      .ok () { s with links := commonListAdd s.links a headAddr, mutex := .locked } := by
  have hhead : s.Live headAddr := .inl rfl
  have hnext : s.Live (s.links headAddr).next := h.live h.ring.next_prev_head_mem.1
  have htouch : Sys.touch { s with mutex := .locked } headAddr = { s with mutex := .locked } :=
    Sys.touch_of_ready (s := { s with mutex := .locked }) h.ready headAddr
  rw [linkNode, Prog.run_atom, if_pos ⟨.inr ha, hhead, hnext⟩, htouch]

theorem Linked.run_unlinkNode {t₁ t₂ : Table} {a : Addr} {x : Attr}
    (h : Linked s (t₁ ++ (a, x) :: t₂)) :
    (unlinkNode a).run { s with mutex := .locked } =
      .ok () { s with links := commonListDel s.links a, mutex := .locked } := by
  have hmem : a ∈ headAddr :: (t₁ ++ (a, x) :: t₂).map Prod.fst := by simp
  obtain ⟨hnext, hprev⟩ := h.ring.next_prev_mem hmem
  rw [unlinkNode, Prog.run_atom, if_pos ⟨h.live hmem, h.live hprev, h.live hnext⟩]

theorem run_netifNodeAdd_none (hM : M.choose s = none) (name : List UInt8) :
    (netifNodeAdd M name).run s = .ok none s := by
  simp [netifNodeAdd, malloc, hM]

/-- The node that `netif_node_add` puts in front of the list. -/
def newNode (a : Addr) (name : List UInt8) : Addr × Attr := (a, Attr.zero.setIfname name)

/-- A successful `netif_node_add` puts a zeroed node with the name in front, and
does nothing that can be observed but use the list head. -/
theorem run_netifNodeAdd_some {a : Addr} (h : Repr s t) (hM : M.choose s = some a)
    (name : List UInt8) :
    ∃ s', (netifNodeAdd M name).run s = .ok (some a) s' ∧ Repr s' (newNode a name :: t) ∧
      s'.trace = s.trace ∧ s'.early = s.early := by
  have hout : a ∉ headAddr :: t.map Prod.fst := fun hmem => (M.fresh s a hM).2 (h.live.mpr hmem)
  have hlinked := h.linked.insert_new hout (Attr.zero.setIfname name)
  have hlink := hlinked.run_linkNode (Finmap.mem_insert.mpr (.inl rfl))
  have hfront := hlinked.link hout (Finmap.lookup_insert s.attrs)
  refine ⟨_, ?_, .of_linked (hfront.setSum ((s.listSum + 1) % 2 ^ 32)) ?_ ?_, rfl, rfl⟩
  · have hmutex := h.mutex
    obtain ⟨links, attrs, sum, mutex, ready, early, trace⟩ := s
    obtain rfl : mutex = .unlocked := hmutex
    simp [netifNodeAdd, malloc, hM, storeAttr, lock, hlink, unlock, loadSum, storeSum]
  · intro b hb
    rcases Finmap.mem_insert.mp hb with rfl | hb
    · exact List.mem_cons_self
    · exact List.mem_cons_of_mem _ (h.mem_attrs.mp hb)
  · simp [h.sum]

theorem run_netifNodeDel_none (h : Repr s t) (hfind : t.find name = none) :
    (netifNodeDel name).run s = .ok (-1) s := by
  have hwalk := run_lock_findNode h.linked name
  rw [netifNodeDel, ← bind_assoc, Prog.run_bind, hwalk, hfind]
  simp [unlock, h.linked.unlock_eq]

/-- Deleting the node that the search finds leaves all other nodes in place. -/
theorem run_netifNodeDel_some {t₁ t₂ : Table} {a : Addr} {x : Attr}
    (h : Repr s (t₁ ++ (a, x) :: t₂)) (hfind : Table.find (t₁ ++ (a, x) :: t₂) name = some a) :
    ∃ s', (netifNodeDel name).run s = .ok 0 s' ∧ Repr s' (t₁ ++ t₂) ∧ s'.trace = s.trace ∧
      s'.early = s.early := by
  have hwalk := run_lock_findNode h.linked name
  have hunlink := h.linked.run_unlinkNode
  refine ⟨_, ?_, .of_linked (h.linked.unlink.setSum ((s.listSum + (2 ^ 32 - 1)) % 2 ^ 32)) ?_ ?_,
    rfl, rfl⟩
  · have hmutex := h.mutex
    obtain ⟨links, attrs, sum, mutex, ready, early, trace⟩ := s
    obtain rfl : mutex = .unlocked := hmutex
    rw [netifNodeDel, ← bind_assoc, Prog.run_bind, hwalk, hfind]
    simp [hunlink, free, unlock, loadSum, storeSum]
  · intro b hb
    obtain ⟨hne, hb⟩ := Finmap.mem_erase.mp hb
    simpa [hne] using h.mem_attrs.mp hb
  · simp only [h.sum, List.length_append, List.length_cons]
    omega

end Specs

end Netif
