-- SUMMARY: Freeing a whole list (COMMON_FREE_LIST of list_op.h): every structure once, and none is used afterwards.
import LinuxShare.Lib.Blocks
import LinuxShare.Netif.ListOp

/-!
# COMMON_FREE_LIST

The loop takes the first node out of the list and frees the structure around it until the
list is empty. Here every access to a node has to lie in an allocated block, so that a read
of a freed structure is a fault, and so is a second free. The loop has no counter; it is
given a number of rounds, and enough of them are shown to exist.
-/

namespace Netif

open Ring Blocks

/-- Where the list node is in a structure, and its size. -/
structure Member where
  offset : Nat
  size : Nat

structure Heap where
  links : LinkMem Nat
  store : Store

/-- An access or a free outside of what is allocated, or the end of the rounds. -/
inductive Stop where
  | fault
  | rounds
  deriving DecidableEq

/-- `common_list_entry` -/
def commonListEntry (member : Member) (ptr : Nat) : Nat := ptr - member.offset

namespace Heap

section

variable (member : Member) (m : Heap)

def touch (a : Nat) : Except Stop Unit :=
  if m.store.Accessible a member.size then .ok () else .error .fault

def next (a : Nat) : Except Stop Nat := do
  m.touch member a
  return (m.links a).next

def prev (a : Nat) : Except Stop Nat := do
  m.touch member a
  return (m.links a).prev

def setNext (a b : Nat) : Except Stop Heap := do
  m.touch member a
  return { m with links := Ring.setNext m.links a b }

def setPrev (a b : Nat) : Except Stop Heap := do
  m.touch member a
  return { m with links := Ring.setPrev m.links a b }

def listDel (prev next : Nat) : Except Stop Heap := do
  let m ← m.setPrev member next prev
  m.setNext member prev next

def commonListDel (entry : Nat) : Except Stop Heap := do
  let prev ← m.prev member entry
  let next ← m.next member entry
  m.listDel member prev next

def commonListEmpty (head : Nat) : Except Stop Bool := do
  let next ← m.next member head
  return next = head

def free (p : Nat) : Except Stop Heap :=
  match m.store.free p with
  | some store => .ok { m with store }
  | none => .error .fault

end

/-- `COMMON_FREE_LIST` -/
def commonFreeList (member : Member) (head : Nat) : Nat → Heap → Except Stop Heap
  | 0, _ => .error .rounds
  | rounds + 1, m => do
    if ← m.commonListEmpty member head then
      return m
    else
      let posnode := commonListEntry member (← m.next member head)
      let m ← m.commonListDel member (← m.next member head)
      let m ← m.free posnode
      commonFreeList member head rounds m

/-! ## Nodes in structures -/

variable {member : Member} {m : Heap} {head x : Nat} {xs : List Nat}

/-- The base of the structure around each node. -/
def entries (member : Member) (xs : List Nat) : List Nat := xs.map (commonListEntry member)

@[simp] theorem entries_cons (member : Member) (x : Nat) (xs : List Nat) :
    entries member (x :: xs) = commonListEntry member x :: entries member xs := rfl

/-- Each node is the member of an allocated structure; the head is in none of these. -/
structure Embedded (member : Member) (m : Heap) (head : Nat) (xs : List Nat) : Prop where
  node : ∀ x ∈ xs, ∃ s ∈ m.store.blocks, x = s.base + member.offset ∧ member.offset + member.size ≤ s.size
  head : ∃ s ∈ m.store.blocks, s.Holds head member.size ∧ s.base ∉ entries member xs

theorem Embedded.accessible (h : Embedded member m head xs) {a : Nat} (ha : a ∈ head :: xs) :
    m.store.Accessible a member.size := by
  rcases List.mem_cons.mp ha with rfl | hmem
  · obtain ⟨s, hs, hholds, _⟩ := h.head
    exact ⟨s, hs, hholds⟩
  · obtain ⟨s, hs, rfl, hsize⟩ := h.node a hmem
    exact ⟨s, hs, by omega, by omega⟩

/-- Different nodes are in different structures. -/
theorem Embedded.entry_ne (h : Embedded member m head xs) {a b : Nat} (ha : a ∈ xs) (hb : b ∈ xs)
    (hne : a ≠ b) : commonListEntry member a ≠ commonListEntry member b := by
  obtain ⟨s, _, rfl, _⟩ := h.node a ha
  obtain ⟨t, _, rfl, _⟩ := h.node b hb
  simp only [commonListEntry]
  omega

theorem Embedded.nodup_entries (h : Embedded member m head xs) (hnodup : xs.Nodup) :
    (entries member xs).Nodup :=
  List.Nodup.map_on (fun _ ha _ hb heq => by_contra fun hne => h.entry_ne ha hb hne heq) hnodup

/-! ## One round -/

theorem touch_eq {a : Nat} (h : m.store.Accessible a member.size) : m.touch member a = .ok () :=
  if_pos h

theorem next_eq {a : Nat} (h : m.store.Accessible a member.size) :
    m.next member a = .ok (m.links a).next := by
  rw [next, touch_eq h]
  rfl

theorem commonListEmpty_eq (h : m.store.Accessible head member.size) :
    m.commonListEmpty member head = .ok (Netif.commonListEmpty m.links head) := by
  rw [commonListEmpty, next_eq h]
  rfl

theorem prev_eq {a : Nat} (h : m.store.Accessible a member.size) :
    m.prev member a = .ok (m.links a).prev := by
  rw [prev, touch_eq h]
  rfl

theorem setPrev_eq {a : Nat} (h : m.store.Accessible a member.size) (b : Nat) :
    m.setPrev member a b = .ok { m with links := Ring.setPrev m.links a b } := by
  rw [setPrev, touch_eq h]
  rfl

theorem setNext_eq {a : Nat} (h : m.store.Accessible a member.size) (b : Nat) :
    m.setNext member a b = .ok { m with links := Ring.setNext m.links a b } := by
  rw [setNext, touch_eq h]
  rfl

/-- With access to the entry and its neighbours the removal is that of the list operation. -/
theorem commonListDel_eq (hx : m.store.Accessible x member.size)
    (hprev : m.store.Accessible (m.links x).prev member.size)
    (hnext : m.store.Accessible (m.links x).next member.size) :
    m.commonListDel member x = .ok { m with links := Netif.commonListDel m.links x } := by
  rw [commonListDel, prev_eq hx, next_eq hx]
  show m.listDel member (m.links x).prev (m.links x).next = _
  rw [listDel, setPrev_eq hnext]
  exact setNext_eq (m := { m with links := Ring.setPrev m.links (m.links x).next (m.links x).prev })
    hprev _

theorem free_eq {s : Block} (hs : s ∈ m.store.blocks) {p : Nat} (hp : s.base = p) :
    m.free p = .ok { m with store := m.store.drop p } := by
  rw [free, Store.free_of_mem hs hp]

/-- The heap after the first node has been removed and its structure freed. -/
def removed (member : Member) (m : Heap) (x : Nat) : Heap where
  links := Netif.commonListDel m.links x
  store := m.store.drop (commonListEntry member x)

/-- A round of the loop on a list that is not empty. -/
theorem round_eq (h : Embedded member m head (x :: xs)) (hring : IsRing m.links head (x :: xs))
    (rounds : Nat) :
    commonFreeList member head (rounds + 1) m =
      commonFreeList member head rounds (removed member m x) := by
  have hhead := h.accessible List.mem_cons_self
  have hx := h.accessible (a := x) (by simp)
  obtain ⟨hnext, hprev⟩ := hring.next_prev_mem (x := x) (by simp)
  have hempty : Netif.commonListEmpty m.links head = false :=
    Bool.eq_false_iff.mpr fun hempty => nomatch (commonListEmpty_iff hring).mp hempty
  obtain ⟨s, hs, hbase, _⟩ := h.node x List.mem_cons_self
  have hentry : s.base = commonListEntry member x := by
    rw [commonListEntry, hbase, Nat.add_sub_cancel]
  rw [commonFreeList, commonListEmpty_eq hhead, hempty, next_eq hhead, hring.next_head]
  show (m.commonListDel member x >>= fun m => m.free (commonListEntry member x) >>= fun m =>
    commonFreeList member head rounds m) = _
  rw [commonListDel_eq hx (h.accessible hprev) (h.accessible hnext)]
  show (free _ (commonListEntry member x) >>= fun m => commonFreeList member head rounds m) = _
  rw [free_eq (m := { m with links := Netif.commonListDel m.links x }) hs hentry]
  rfl

/-- The last test finds the list empty. -/
theorem commonFreeList_nil (h : Embedded member m head []) (hring : IsRing m.links head [])
    (rounds : Nat) : commonFreeList member head (rounds + 1) m = .ok m := by
  have hempty : Netif.commonListEmpty m.links head = true := (commonListEmpty_iff hring).mpr rfl
  rw [commonFreeList, commonListEmpty_eq (h.accessible List.mem_cons_self), hempty]
  rfl

/-- The nodes that are left are embedded in the structures that are left. -/
theorem Embedded.removed (h : Embedded member m head (x :: xs)) (hnodup : (x :: xs).Nodup) :
    Embedded member (removed member m x) head xs where
  node := by
    intro y hy
    obtain ⟨s, hs, hbase, hsize⟩ := h.node y (List.mem_cons_of_mem x hy)
    refine ⟨s, Store.mem_drop.mpr ⟨hs, fun heq => ?_⟩, hbase, hsize⟩
    have hne : y ≠ x := fun heq => (List.nodup_cons.mp hnodup).1 (heq ▸ hy)
    refine h.entry_ne (List.mem_cons_of_mem x hy) List.mem_cons_self hne ?_
    rw [← heq, hbase, commonListEntry, Nat.add_sub_cancel]
  head := by
    obtain ⟨s, hs, hholds, hnot⟩ := h.head
    obtain ⟨hne, hnot⟩ := not_or.mp (mt List.mem_cons.mpr hnot)
    exact ⟨s, Store.mem_drop.mpr ⟨hs, hne⟩, hholds, hnot⟩

theorem removed_links_of_notMem (hring : IsRing m.links head (x :: xs)) {a : Nat}
    (ha : a ∉ head :: x :: xs) : (removed member m x).links a = m.links a := by
  obtain ⟨hnext, hprev⟩ := hring.next_prev_mem (x := x) (by simp)
  exact bypass_of_ne (fun heq => ha (heq ▸ hprev)) fun heq => ha (heq ▸ hnext)

/-! ## The whole loop -/

/-- `m'` is `m` without the list of `head`: it is empty, its structures have been freed, each
once, and neither the other lists nor the other structures have changed. -/
structure Cleared (member : Member) (L : Family Nat) (head : Nat) (xs : List Nat) (m m' : Heap) : Prop where
  lists : Represents m'.links (Function.update L head (some []))
  links : ∀ a, a ∉ head :: xs → m'.links a = m.links a
  freed : m'.store.freed = m.store.freed ++ entries member xs
  once : (entries member xs).Nodup
  blocks : ∀ s, s ∈ m'.store.blocks ↔ s ∈ m.store.blocks ∧ s.base ∉ entries member xs

/-- For every list of every length, among whatever other lists: with more rounds than nodes
the loop ends without a fault, and the list has been cleared. -/
theorem commonFreeList_cleared {L : Family Nat} (hr : Represents m.links L) (hL : L head = some xs)
    (h : Embedded member m head xs) :
    ∃ m', (∀ rounds, xs.length < rounds → commonFreeList member head rounds m = .ok m') ∧
      Cleared member L head xs m m' := by
  induction xs generalizing m L with
  | nil =>
      have hring := hr.ring head [] hL
      refine ⟨m, fun rounds hrounds => ?_, ?_⟩
      · obtain ⟨rounds, rfl⟩ := Nat.exists_eq_succ_of_ne_zero (Nat.ne_of_gt hrounds)
        exact commonFreeList_nil h hring rounds
      · refine ⟨?_, fun a _ => rfl, (List.append_nil _).symm, List.nodup_nil, fun s => ?_⟩
        · rwa [← hL, Function.update_eq_self]
        · exact (and_iff_left List.not_mem_nil).symm
  | cons x xs ih =>
      have hring := hr.ring head (x :: xs) hL
      have hnodup := (List.nodup_cons.mp hring.nodup).2
      have hr' : Represents (removed member m x).links (Function.update L head (some xs)) :=
        hr.remove (l := []) hL
      obtain ⟨m', hrun, hcleared⟩ := ih hr' (Function.update_self head _ L) (h.removed hnodup)
      refine ⟨m', fun rounds hrounds => ?_, ?_⟩
      · obtain ⟨rounds, rfl⟩ := Nat.exists_eq_succ_of_ne_zero (Nat.ne_of_gt (Nat.zero_lt_of_lt hrounds))
        rw [Nat.succ_eq_add_one, round_eq h hring]
        exact hrun rounds (Nat.lt_of_succ_lt_succ hrounds)
      · refine ⟨?_, fun a ha => ?_, ?_, h.nodup_entries hnodup, fun s => ?_⟩
        · have hlists := hcleared.lists
          rwa [Function.update_idem] at hlists
        · rw [hcleared.links a fun hmem => ha (by
            simp only [List.mem_cons] at hmem ⊢
            tauto), removed_links_of_notMem hring ha]
        · rw [hcleared.freed]
          exact List.append_assoc _ _ _
        · rw [hcleared.blocks, entries_cons, List.mem_cons, not_or, ← and_assoc]
          exact and_congr_left fun _ => Store.mem_drop

/-- A head in a structure of its own, and two nodes in structures of 40 bytes. -/
def twoNodes : Heap where
  links := fun a => if a = 40 then ⟨108, 208⟩ else if a = 108 then ⟨208, 40⟩ else ⟨40, 108⟩
  store :=
    { blocks := [⟨32, 32⟩, ⟨100, 40⟩, ⟨200, 40⟩]
      apart := by simp [Block.Apart]
      freed := [] }

theorem twoNodes_cleared :
    ∃ m', (∀ rounds, 2 < rounds → commonFreeList ⟨8, 16⟩ 40 rounds twoNodes = .ok m') ∧
      Cleared ⟨8, 16⟩ (Function.update (fun _ => none) 40 (some [108, 208])) 40 [108, 208] twoNodes m' := by
  have hring : IsRing twoNodes.links 40 [108, 208] := by
    refine ⟨by decide, ?_⟩
    exact List.isChain_cons_cons.mpr ⟨⟨rfl, rfl⟩, List.isChain_cons_cons.mpr
      ⟨⟨rfl, rfl⟩, List.isChain_cons_cons.mpr ⟨⟨rfl, rfl⟩, .singleton 40⟩⟩⟩
  have hembedded : Embedded ⟨8, 16⟩ twoNodes 40 [108, 208] := by
    refine ⟨fun x hx => ?_, ⟨32, 32⟩, by decide, by decide, by decide⟩
    rcases List.mem_pair.mp hx with rfl | rfl
    · exact ⟨⟨100, 40⟩, by decide, rfl, by decide⟩
    · exact ⟨⟨200, 40⟩, by decide, rfl, by decide⟩
  have hr : Represents twoNodes.links (Function.update (fun _ => none) 40 (some [108, 208])) :=
    (represents_none twoNodes.links).set hring fun _ _ _ hnone => nomatch hnone
  exact commonFreeList_cleared hr (Function.update_self 40 _ _) hembedded

end Heap

end Netif
