-- SUMMARY: The intrusive doubly linked list of list_op.c over a link memory.
import LinuxShare.Lib.Rings

/-!
# list_op.c

The list operations are sequences of pointer stores. Each is written as the
source orders its stores; the lemmas say which list operation they come to. The
last part states what the operations are for, on the sequences that the lists
stand for, and that the stores do that.
-/

namespace Netif

open Ring

section

variable {A : Type} [DecidableEq A] (m : LinkMem A)

def listAdd (new prev next : A) : LinkMem A :=
  setNext (setPrev (setNext (setPrev m next new) new next) new prev) prev new

def listDel (prev next : A) : LinkMem A := setNext (setPrev m next prev) prev next

def commonListAdd (new head : A) : LinkMem A := listAdd m new head (m head).next

def commonListAddTail (new head : A) : LinkMem A := listAdd m new (m head).prev head

def commonListDel (entry : A) : LinkMem A := listDel m (m entry).prev (m entry).next

/-- `COMMON_INIT_LIST_HEAD`. -/
def commonInitListHead (head : A) : LinkMem A := setPrev (setNext m head head) head head

def commonListDelInit (entry : A) : LinkMem A :=
  commonInitListHead (listDel m (m entry).prev (m entry).next) entry

def commonListSplice (list head : A) : LinkMem A :=
  let first := (m list).next
  if first ≠ list then
    let last := (m list).prev
    let pAt := (m head).next
    setPrev (setNext (setNext (setPrev m first head) head first) last pAt) pAt last
  else m

def commonListEmpty (head : A) : Bool := (m head).next = head

variable {m} {h x : A} {xs ys : List A}

/-- A new node goes right after the head. -/
theorem isRing_commonListAdd (hr : IsRing m h xs) (hx : x ∉ h :: xs) :
    IsRing (commonListAdd m x h) h (x :: xs) :=
  hr.insert_head hx

theorem isRing_commonListDel (hr : IsRing m h (xs ++ x :: ys)) :
    IsRing (commonListDel m x) h (xs ++ ys) :=
  hr.remove

theorem isRing_commonInitListHead : IsRing (commonInitListHead m h) h [] :=
  isRing_selfLink m h

theorem commonListEmpty_iff (hr : IsRing m h xs) : commonListEmpty m h = true ↔ xs = [] := by
  rw [commonListEmpty, decide_eq_true_iff]
  exact hr.empty_iff

/-- Taking an empty list out of itself changes nothing. -/
theorem commonListDel_self (hr : IsRing m x []) : commonListDel m x = m := by
  have hx := hr.apply_head
  funext a
  by_cases ha : a = x <;> simp [commonListDel, listDel, setNext, setPrev, ha, hx]

theorem commonInitListHead_self (hr : IsRing m x []) : commonInitListHead m x = m := by
  have hx := hr.apply_head
  funext a
  by_cases ha : a = x <;> simp [commonInitListHead, setNext, setPrev, ha, hx]

end

/-! ## common_list_for_each -/

section

variable {A : Type} (m : LinkMem A)

/-- `common_list_for_each` from position `pos` on visits `visited` and ends. -/
inductive ForEachFrom (head : A) : A → List A → Prop where
  | stop : ForEachFrom head head []
  | visit {pos : A} {visited : List A} :
      pos ≠ head → ForEachFrom head (m pos).next visited → ForEachFrom head pos (pos :: visited)

def CommonListForEach (head : A) (visited : List A) : Prop :=
  ForEachFrom m head (m head).next visited

variable {m} {h x : A} {xs ys : List A}

theorem ForEachFrom.unique {pos : A} {visited visited' : List A} (hv : ForEachFrom m h pos visited)
    (hv' : ForEachFrom m h pos visited') : visited = visited' := by
  induction hv generalizing visited' with
  | stop =>
      cases hv' with
      | stop => rfl
      | visit hne => exact absurd rfl hne
  | visit hne _ ih =>
      cases hv' with
      | stop => exact absurd rfl hne
      | visit _ hv' => rw [ih hv']

theorem forEachFrom_of_segment (hs : Segment m (x :: (xs ++ [h]))) (hh : h ∉ x :: xs) :
    ForEachFrom m h x (x :: xs) := by
  induction xs generalizing x with
  | nil =>
      obtain ⟨⟨hnext, _⟩, _⟩ := List.isChain_cons_cons.mp hs
      refine .visit (fun heq => hh (by simp [heq])) ?_
      rw [hnext]
      exact .stop
  | cons y ys ih =>
      obtain ⟨⟨hnext, _⟩, hrest⟩ := List.isChain_cons_cons.mp hs
      refine .visit (fun heq => hh (by simp [heq])) ?_
      rw [hnext]
      exact ih hrest fun hmem => hh (List.mem_cons_of_mem x hmem)

/-- The loop over a list ends, after the list's elements in order. -/
theorem commonListForEach_iff (hr : IsRing m h xs) :
    CommonListForEach m h ys ↔ ys = xs := by
  have hvisits : CommonListForEach m h xs := by
    unfold CommonListForEach
    cases xs with
    | nil =>
        rw [hr.empty_iff.mpr rfl]
        exact .stop
    | cons x xs =>
        rw [hr.next_head]
        exact forEachFrom_of_segment (List.isChain_cons_cons.mp hr.segment).2 hr.head_notMem
  exact ⟨fun hys => hys.unique hvisits, fun heq => heq ▸ hvisits⟩

end

/-! ## What the operations are for -/

inductive ListOp (A : Type) where
  | init (head : A)
  | add (new pos : A)
  | addTail (new pos : A)
  | del (entry : A)
  | delInit (entry : A)
  | splice (list pos : A)

section

variable {A : Type} [DecidableEq A]

def ListOp.exec (m : LinkMem A) : ListOp A → LinkMem A
  | init head => commonInitListHead m head
  | add new pos => commonListAdd m new pos
  | addTail new pos => commonListAddTail m new pos
  | del entry => commonListDel m entry
  | delInit entry => commonListDelInit m entry
  | splice list pos => commonListSplice m list pos

/-- What an operation that is used within its contract makes of the sequences. A
position is a member of a list, or its head. A node may be added that is in no list;
it may be an empty list of its own. -/
inductive ListOp.Spec (L : Family A) : ListOp A → Family A → Prop where
  | init {head : A} : (∀ h xs, L h = some xs → head ∉ xs) →
      Spec L (.init head) (Function.update L head (some []))
  | add {h new pos : A} {xs l r : List A} : L h = some xs → h ≠ new → Loose L new →
      h :: xs = l ++ pos :: r →
      Spec L (.add new pos)
        (Function.update (Function.update L new none) h (some (l ++ pos :: new :: r).tail))
  | addTail {h new pos : A} {xs l r : List A} : L h = some xs → h ≠ new → Loose L new →
      xs ++ [h] = l ++ pos :: r →
      Spec L (.addTail new pos)
        (Function.update (Function.update L new none) h (some (l ++ new :: pos :: r).dropLast))
  | del {h entry : A} {l r : List A} : L h = some (l ++ entry :: r) →
      Spec L (.del entry) (Function.update L h (some (l ++ r)))
  | delSelf {entry : A} : L entry = some [] → Spec L (.del entry) L
  | delInit {h entry : A} {l r : List A} : L h = some (l ++ entry :: r) →
      Spec L (.delInit entry)
        (Function.update (Function.update L h (some (l ++ r))) entry (some []))
  | delInitSelf {entry : A} : L entry = some [] → Spec L (.delInit entry) L
  | splice {h list pos : A} {xs ys l r : List A} : L h = some xs → L list = some ys → list ≠ h →
      h :: xs = l ++ pos :: r → ys ≠ [] →
      Spec L (.splice list pos)
        (Function.update (Function.update L list none) h (some (l ++ pos :: (ys ++ r)).tail))
  | spliceEmpty {h list pos : A} {xs : List A} : L h = some xs → L list = some [] → list ≠ h →
      pos ∈ h :: xs → Spec L (.splice list pos) L

/-- The operations one after the other, each within its contract. -/
inductive ListOp.Specs : Family A → List (ListOp A) → Family A → Prop where
  | nil {L : Family A} : Specs L [] L
  | cons {L L' L'' : Family A} {op : ListOp A} {ops : List (ListOp A)} :
      op.Spec L L' → Specs L' ops L'' → Specs L (op :: ops) L''

variable {m : LinkMem A} {L L' : Family A} {g h : A} {xs ys : List A}

theorem represents_commonListSplice {pos : A} {l r : List A} (hr : Represents m L)
    (hL : L h = some xs) (hg : L g = some ys) (hne : g ≠ h) (hsplit : h :: xs = l ++ pos :: r)
    (hys : ys ≠ []) :
    Represents (commonListSplice m g pos)
      (Function.update (Function.update L g none) h (some (l ++ pos :: (ys ++ r)).tail)) := by
  have hring := hr.ring g ys hg
  obtain ⟨first, tl, hfirst⟩ := List.exists_cons_of_ne_nil hys
  obtain ⟨ws, last, hlast⟩ := (List.eq_nil_or_concat ys).resolve_left hys
  rw [List.concat_eq_append] at hlast
  have hnext : (m g).next = first := by
    rw [hfirst] at hring
    exact hring.next_head
  have hprev : (m g).prev = last := by
    rw [hlast] at hring
    exact hring.prev_head
  have hfg : first ≠ g := fun heq => hring.head_notMem (by simp [hfirst, heq])
  unfold commonListSplice
  rw [hnext, hprev, if_pos hfg]
  exact hr.splice hL hg hne (by simp [hfirst]) (by simp [hlast]) hsplit

/-- Each operation does to the heap what it is for. -/
theorem ListOp.Spec.represents {op : ListOp A} (h : op.Spec L L') (hr : Represents m L) :
    Represents (op.exec m) L' := by
  cases h with
  | init hout => exact hr.selfLink hout
  | add hL hne hnew hsplit => exact hr.insert_after hL hnew hne hsplit
  | addTail hL hne hnew hsplit => exact hr.insert_before hL hnew hne hsplit
  | del hL => exact hr.remove hL
  | delSelf hL =>
      rw [exec, commonListDel_self (hr.ring _ _ hL)]
      exact hr
  | delInit hL => exact (hr.remove hL).selfLink (hr.loose_of_remove hL).notMem
  | delInitSelf hL =>
      have hself := hr.ring _ _ hL
      show Represents (commonInitListHead (commonListDel m _) _) L
      rw [commonListDel_self hself, commonInitListHead_self hself]
      exact hr
  | splice hL hg hne hsplit hys => exact represents_commonListSplice hr hL hg hne hsplit hys
  | spliceEmpty _ hg _ _ =>
      have hempty := (hr.ring _ _ hg).empty_iff.mpr rfl
      rw [exec, commonListSplice, hempty]
      simpa using hr

theorem ListOp.Specs.represents {ops : List (ListOp A)} (h : ListOp.Specs L ops L')
    (hr : Represents m L) : Represents (ops.foldl ListOp.exec m) L' := by
  induction h generalizing m with
  | nil => exact hr
  | cons hop _ ih => exact ih (hop.represents hr)

/-- From any heap of disjoint well-formed lists, operations used within their contract
lead to a heap that holds the sequences they are for, in disjoint well-formed lists
again; the emptiness test and the loop see these sequences. -/
theorem listOps_refine (m : LinkMem A) (L L' : Family A) (ops : List (ListOp A))
    (hr : Represents m L) (hops : ListOp.Specs L ops L') :
    Represents (ops.foldl ListOp.exec m) L' ∧
    ∀ h xs, L' h = some xs →
      (commonListEmpty (ops.foldl ListOp.exec m) h = true ↔ xs = []) ∧
      ∀ ys, CommonListForEach (ops.foldl ListOp.exec m) h ys ↔ ys = xs := by
  have hrep := hops.represents hr
  refine ⟨hrep, fun h xs hL => ⟨commonListEmpty_iff (hrep.ring h xs hL), fun ys => ?_⟩⟩
  exact commonListForEach_iff (hrep.ring h xs hL)

/-- Two lists are filled, a node is deleted, and the second list goes into the first. -/
def twoLists : List (ListOp Nat) :=
  [.init 1, .init 10, .add 2 1, .addTail 3 1, .add 11 10, .del 2, .splice 10 1]

theorem listOps_refine_twoLists :
    CommonListForEach (twoLists.foldl ListOp.exec fun _ => ⟨0, 0⟩) 1 [11, 3] := by
  have hloose : ∀ (x : Nat) (ps : List (Nat × Option (List Nat))),
      (∀ p ∈ ps, x ≠ p.1 ∧ x ∉ p.2.getD []) →
      Loose (ps.foldl (fun L p => Function.update L p.1 p.2) fun _ => none) x :=
    fun x _ hps => (loose_none x).updates hps
  have hten := hloose 10 [(1, some [])] (by decide)
  have htwo := hloose 2 [(1, some []), (10, some [])] (by decide)
  have hthree := hloose 3 [(1, some []), (10, some []), (2, none), (1, some [2])] (by decide)
  have heleven := hloose 11 [(1, some []), (10, some []), (2, none), (1, some [2]), (3, none),
    (1, some [2, 3])] (by decide)
  have hspecs : ListOp.Specs (fun _ => none) twoLists _ :=
    .cons (.init fun _ _ hL => nomatch hL) <|
    .cons (.init hten.notMem) <|
    .cons (.add (h := 1) (l := []) rfl (by decide) htwo rfl) <|
    .cons (.addTail (h := 1) (l := [2]) rfl (by decide) hthree rfl) <|
    .cons (.add (h := 10) (l := []) rfl (by decide) heleven rfl) <|
    .cons (.del (h := 1) (l := []) (r := [3]) rfl) <|
    .cons (.splice (h := 1) (l := []) rfl rfl (by decide) rfl (by decide)) .nil
  exact (((listOps_refine _ _ _ _ (represents_none _) hspecs).2 1 [11, 3] rfl).2 [11, 3]).mpr rfl

end

end Netif
