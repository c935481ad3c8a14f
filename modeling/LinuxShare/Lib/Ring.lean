-- SUMMARY: Circular doubly linked lists over a link memory: the ring predicate, insertion, removal and traversal.
import Mathlib.Data.List.Chain
import Mathlib.Data.List.Nodup
import Mathlib.Logic.Function.Basic

/-!
# Circular doubly linked lists

A link memory gives every address a pair of pointers. A ring with head `h` and
elements `xs` is a cycle of forward pointers from `h` through `xs` back to `h`
whose backward pointers are the reverse. No element is singled out: a ring can
be read from any of its members, so insertion and removal are proved next to
the head only and carried to every other position by rotation.
-/

namespace Ring

structure Link (A : Type) where
  next : A
  prev : A

abbrev LinkMem (A : Type) := A → Link A

variable {A : Type} {m m' : LinkMem A} {h x : A} {xs ys : List A}

/-- `a` and `b` are neighbours in both directions. -/
def Linked (m : LinkMem A) (a b : A) : Prop := (m a).next = b ∧ (m b).prev = a

/-- The addresses in `l` are linked one after the other. -/
abbrev Segment (m : LinkMem A) (l : List A) : Prop := l.IsChain (Linked m)

/-- The ring with head `h` holds exactly `xs`, in order. -/
structure IsRing (m : LinkMem A) (h : A) (xs : List A) : Prop where
  nodup : (h :: xs).Nodup
  segment : Segment m (h :: (xs ++ [h]))

/-- A segment only depends on the forward pointers of all but its last address
and the backward pointers of all but its first. -/
theorem Segment.congr {l : List A} (hs : Segment m l)
    (hnext : ∀ a ∈ l.dropLast, (m' a).next = (m a).next)
    (hprev : ∀ b ∈ l.tail, (m' b).prev = (m b).prev) : Segment m' l := by
  induction l with
  | nil => exact .nil
  | cons a l ih =>
      cases l with
      | nil => exact .singleton a
      | cons b l =>
          obtain ⟨⟨hn, hp⟩, hrest⟩ := List.isChain_cons_cons.mp hs
          refine List.isChain_cons_cons.mpr ⟨⟨?_, ?_⟩, ?_⟩
          · rw [hnext a (by simp), hn]
          · rw [hprev b (by simp), hp]
          · apply ih hrest
            · exact fun c hc => hnext c (by simp [hc])
            · exact fun c hc => hprev c (by simp at hc ⊢; exact .inr hc)

/-- In the segment `n :: l` that ends a ring, the links start at members of the ring. -/
theorem mem_of_mem_dropLast {n a : A} {l : List A} (hnl : xs ++ [h] = n :: l)
    (ha : a ∈ (n :: l).dropLast) : a ∈ xs := by
  rwa [← hnl, List.dropLast_concat] at ha

/-- No link of that segment goes back to `n`. -/
theorem ne_of_mem_tail {n b : A} {l : List A} (hnl : xs ++ [h] = n :: l) (hnd : (xs ++ [h]).Nodup)
    (hb : b ∈ l) : b ≠ n := by
  rw [hnl] at hnd
  exact fun heq => (List.nodup_cons.mp hnd).1 (heq ▸ hb)

theorem ne_getLast_of_mem_dropLast {a last : A} (hnd : xs.Nodup) (hlast : xs.getLast? = some last)
    (ha : a ∈ xs.dropLast) : a ≠ last := by
  obtain ⟨ws, rfl⟩ := List.getLast?_eq_some_iff.mp hlast
  rw [List.dropLast_concat] at ha
  rintro rfl
  exact (List.nodup_append.mp hnd).2.2 a ha a (by simp) rfl

theorem ne_head_of_mem_tail {b first : A} (hnd : xs.Nodup) (hfirst : xs.head? = some first)
    (hb : b ∈ xs.tail) : b ≠ first := by
  obtain ⟨ws, rfl⟩ := List.head?_eq_some_iff.mp hfirst
  rintro rfl
  exact (List.nodup_cons.mp hnd).1 hb

/-- The members of a ring, read from another one. -/
theorem perm_rotate : (h :: (xs ++ x :: ys)).Perm (x :: (ys ++ h :: xs)) := by
  have hcomm : ((h :: xs) ++ (x :: ys)).Perm ((x :: ys) ++ (h :: xs)) := List.perm_append_comm
  simpa using hcomm

namespace IsRing

/-- A ring is unchanged by writes to other addresses. -/
theorem congr (hr : IsRing m h xs) (heq : ∀ a ∈ h :: xs, m' a = m a) : IsRing m' h xs where
  nodup := hr.nodup
  segment := by
    apply hr.segment.congr
    · intro a ha
      rw [heq a]
      rwa [← List.cons_append, List.dropLast_concat] at ha
    · intro b hb
      rw [heq b]
      simpa [or_comm] using hb

theorem head_notMem (hr : IsRing m h xs) : h ∉ xs := (List.nodup_cons.mp hr.nodup).1

theorem nodup_concat (hr : IsRing m h xs) : (xs ++ [h]).Nodup := by
  have hperm : (xs ++ [h]).Perm (h :: xs) := List.perm_append_comm
  exact hperm.nodup_iff.mpr hr.nodup

theorem empty_iff (hr : IsRing m h xs) : (m h).next = h ↔ xs = [] := by
  cases xs with
  | nil =>
      have hlink : Linked m h h := (List.isChain_cons_cons.mp hr.segment).1
      simp [hlink.1]
  | cons x xs =>
      have hlink : Linked m h x := (List.isChain_cons_cons.mp hr.segment).1
      have hne : x ≠ h := fun heq => hr.head_notMem (by simp [heq])
      simp [hlink.1, hne]

/-- An empty ring is a head that is linked to itself. -/
theorem apply_head (hr : IsRing m h []) : m h = ⟨h, h⟩ := by
  obtain ⟨hn, hp⟩ : Linked m h h := (List.isChain_cons_cons.mp hr.segment).1
  exact congrArg₂ Link.mk hn hp

theorem next_head (hr : IsRing m h (x :: xs)) : (m h).next = x :=
  (List.isChain_cons_cons.mp hr.segment).1.1

/-- A ring can be read from any of its members. -/
theorem rotate (hr : IsRing m h (xs ++ x :: ys)) : IsRing m x (ys ++ h :: xs) where
  nodup := perm_rotate.nodup_iff.mp hr.nodup
  segment := by
    have hseg : Segment m ((h :: xs) ++ x :: (ys ++ [h])) := by simpa using hr.segment
    obtain ⟨h₁, h₂⟩ := List.isChain_split.mp hseg
    have hjoin : Segment m ((x :: ys) ++ h :: (xs ++ [x])) :=
      List.isChain_split.mpr ⟨by simpa using h₂, by simpa using h₁⟩
    simpa using hjoin

/-- Backward from the head stands the last element. -/
theorem prev_head (hr : IsRing m h (xs ++ [x])) : (m h).prev = x := by
  have hrot : IsRing m x (h :: xs) := by simpa using hr.rotate
  exact (List.isChain_cons_cons.mp hrot.segment).1.2

/-- The neighbours of the head belong to the ring. -/
theorem next_prev_head_mem (hr : IsRing m h xs) :
    (m h).next ∈ h :: xs ∧ (m h).prev ∈ h :: xs := by
  cases xs using List.reverseRecOn with
  | nil =>
      obtain ⟨hn, hp⟩ : Linked m h h := (List.isChain_cons_cons.mp hr.segment).1
      simp [hn, hp]
  | append_singleton xs x =>
      refine ⟨?_, by simp [hr.prev_head]⟩
      obtain ⟨n, l, hnl⟩ : ∃ n l, xs ++ [x] = n :: l := List.exists_cons_of_ne_nil (by simp)
      rw [hnl] at hr ⊢
      simp [hr.next_head]

/-- The neighbours of a member belong to the ring. -/
theorem next_prev_mem (hr : IsRing m h xs) (hx : x ∈ h :: xs) :
    (m x).next ∈ h :: xs ∧ (m x).prev ∈ h :: xs := by
  rcases List.mem_cons.mp hx with rfl | hmem
  · exact hr.next_prev_head_mem
  · obtain ⟨ys, zs, rfl⟩ := List.append_of_mem hmem
    obtain ⟨hn, hp⟩ := hr.rotate.next_prev_head_mem
    exact ⟨perm_rotate.mem_iff.mp hn, perm_rotate.mem_iff.mp hp⟩

end IsRing

/-! ## Stores -/

section Stores

variable [DecidableEq A]

def setNext (m : LinkMem A) (a b : A) : LinkMem A := Function.update m a { m a with next := b }

def setPrev (m : LinkMem A) (a b : A) : LinkMem A := Function.update m a { m a with prev := b }

@[simp] theorem next_setNext (m : LinkMem A) (a b c : A) :
    (setNext m a b c).next = if c = a then b else (m c).next := by
  by_cases hc : c = a
  · subst hc; simp [setNext]
  · simp [setNext, hc]

@[simp] theorem prev_setNext (m : LinkMem A) (a b c : A) :
    (setNext m a b c).prev = (m c).prev := by
  by_cases hc : c = a
  · subst hc; simp [setNext]
  · simp [setNext, hc]

@[simp] theorem next_setPrev (m : LinkMem A) (a b c : A) :
    (setPrev m a b c).next = (m c).next := by
  by_cases hc : c = a
  · subst hc; simp [setPrev]
  · simp [setPrev, hc]

@[simp] theorem prev_setPrev (m : LinkMem A) (a b c : A) :
    (setPrev m a b c).prev = if c = a then b else (m c).prev := by
  by_cases hc : c = a
  · subst hc; simp [setPrev]
  · simp [setPrev, hc]

/-- Link `x` in between the neighbours `p` and `n`. -/
def insertBetween (m : LinkMem A) (x p n : A) : LinkMem A :=
  setNext (setPrev (setNext (setPrev m n x) x n) x p) p x

/-- Make the neighbours `p` and `n` of an element each other's neighbours. -/
def bypass (m : LinkMem A) (p n : A) : LinkMem A := setNext (setPrev m n p) p n

/-- The one-element cycle. -/
def selfLink (m : LinkMem A) (h : A) : LinkMem A := setPrev (setNext m h h) h h

theorem isRing_selfLink (m : LinkMem A) (h : A) : IsRing (selfLink m h) h [] where
  nodup := by simp
  segment := by
    refine List.isChain_cons_cons.mpr ⟨⟨?_, ?_⟩, .singleton h⟩ <;> simp [selfLink]

/-- After the elements of a ring comes its head. -/
theorem exists_concat_eq_cons {B : Type*} (xs : List B) (h : B) : ∃ n l, xs ++ [h] = n :: l :=
  List.exists_cons_of_ne_nil (by simp)

/-- Insertion right after the head. -/
theorem IsRing.insert_head (hr : IsRing m h xs) (hx : x ∉ h :: xs) :
    IsRing (insertBetween m x h (m h).next) h (x :: xs) where
  nodup := by
    have hnd := hr.nodup
    simp only [List.nodup_cons, List.mem_cons, not_or] at hnd hx ⊢
    exact ⟨⟨Ne.symm hx.1, hnd.1⟩, hx.2, hnd.2⟩
  segment := by
    obtain ⟨n, l, hnl⟩ := exists_concat_eq_cons xs h
    have hseg := hr.segment
    rw [hnl] at hseg
    obtain ⟨⟨hn, hp⟩, hrest⟩ := List.isChain_cons_cons.mp hseg
    have hmem : x ∉ n :: l := by
      rw [← hnl]
      simpa [and_comm] using hx
    have hxh : x ≠ h := fun heq => hx (by simp [heq])
    have hnx : n ≠ x := fun heq => hmem (by simp [heq])
    rw [List.cons_append, hnl, hn]
    refine List.isChain_cons_cons.mpr ⟨⟨?_, ?_⟩, List.isChain_cons_cons.mpr ⟨⟨?_, ?_⟩, ?_⟩⟩
    · simp [insertBetween]
    · simp [insertBetween]
    · simp [insertBetween, hxh]
    · simp [insertBetween, hnx]
    · apply Segment.congr hrest
      · intro a ha
        have hah : a ≠ h := fun heq => hr.head_notMem (heq ▸ mem_of_mem_dropLast hnl ha)
        have hax : a ≠ x := fun heq => hmem (heq ▸ (List.dropLast_sublist _).subset ha)
        simp [insertBetween, hah, hax]
      · intro b hb
        have hbx : b ≠ x := fun heq => hmem (heq ▸ List.mem_cons_of_mem n hb)
        simp [insertBetween, ne_of_mem_tail hnl hr.nodup_concat hb, hbx]

/-- Removal of the first element. -/
theorem IsRing.remove_head (hr : IsRing m h (x :: xs)) :
    IsRing (bypass m (m x).prev (m x).next) h xs where
  nodup := (List.nodup_cons.mp hr.nodup).2.of_cons |> fun hnd =>
    List.nodup_cons.mpr ⟨fun hmem => hr.head_notMem (by simp [hmem]), hnd⟩
  segment := by
    obtain ⟨n, l, hnl⟩ := exists_concat_eq_cons xs h
    have hseg := hr.segment
    rw [List.cons_append, hnl] at hseg
    obtain ⟨⟨_, hp⟩, hseg⟩ := List.isChain_cons_cons.mp hseg
    obtain ⟨⟨hn, _⟩, hrest⟩ := List.isChain_cons_cons.mp hseg
    rw [hp, hn, hnl]
    refine List.isChain_cons_cons.mpr ⟨⟨?_, ?_⟩, ?_⟩
    · simp [bypass]
    · simp [bypass]
    · apply Segment.congr hrest
      · intro a ha
        have hmem : a ∈ xs := mem_of_mem_dropLast hnl ha
        have hah : a ≠ h := fun heq => hr.head_notMem (by simp [← heq, hmem])
        simp [bypass, hah]
      · intro b hb
        have hnd : (xs ++ [h]).Nodup := (List.nodup_cons.mp hr.nodup_concat).2
        simp [bypass, ne_of_mem_tail hnl hnd hb]

/-- Removal of any element, by rotating it to the front. -/
theorem IsRing.remove (hr : IsRing m h (xs ++ x :: ys)) :
    IsRing (bypass m (m x).prev (m x).next) h (xs ++ ys) := by
  cases xs using List.reverseRecOn with
  | nil => exact hr.remove_head
  | append_singleton xs p =>
      have hrot : IsRing m p ((x :: ys) ++ h :: xs) := by
        apply IsRing.rotate
        simpa using hr
      have hrem : IsRing (bypass m (m x).prev (m x).next) p (ys ++ h :: xs) := hrot.remove_head
      simpa using hrem.rotate

/-- Insertion right after any member. -/
theorem IsRing.insert_after {p : A} {l r : List A} (hr : IsRing m h xs) (hx : x ∉ h :: xs)
    (hsplit : h :: xs = l ++ p :: r) :
    IsRing (insertBetween m x p (m p).next) h (l ++ p :: x :: r).tail := by
  cases l with
  | nil =>
      obtain ⟨rfl, rfl⟩ := List.cons.inj hsplit
      exact hr.insert_head hx
  | cons a l =>
      obtain ⟨rfl, rfl⟩ := List.cons.inj hsplit
      have hrot : IsRing m p (r ++ h :: l) := hr.rotate
      have hins : IsRing _ p ((x :: r) ++ h :: l) :=
        hrot.insert_head fun hmem => hx (perm_rotate.mem_iff.mpr hmem)
      exact hins.rotate

/-- Insertion right before the head. -/
theorem IsRing.insert_tail (hr : IsRing m h xs) (hx : x ∉ h :: xs) :
    IsRing (insertBetween m x (m h).prev h) h (xs ++ [x]) := by
  cases xs using List.reverseRecOn with
  | nil =>
      obtain ⟨hn, hp⟩ : Linked m h h := (List.isChain_cons_cons.mp hr.segment).1
      have hins := hr.insert_head hx
      rw [hn] at hins
      rwa [hp]
  | append_singleton xs q =>
      have hrot : IsRing m q (h :: xs) := hr.rotate
      have hins := hrot.insert_head fun hmem => hx (perm_rotate.mem_iff.mpr hmem)
      rw [hrot.next_head, ← hr.prev_head] at hins
      have hback : IsRing _ (m h).prev ([x] ++ h :: xs) := hins
      rw [hr.prev_head] at hback ⊢
      simpa using hback.rotate

/-- Insertion right before any member. -/
theorem IsRing.insert_before {p : A} {l r : List A} (hr : IsRing m h xs) (hx : x ∉ h :: xs)
    (hsplit : xs ++ [h] = l ++ p :: r) :
    IsRing (insertBetween m x (m p).prev p) h (l ++ x :: p :: r).dropLast := by
  cases r using List.reverseRecOn with
  | nil =>
      obtain ⟨rfl, heq⟩ := List.append_inj' hsplit rfl
      obtain ⟨rfl, _⟩ := List.cons.inj heq
      have hconcat : xs ++ x :: h :: [] = (xs ++ [x]) ++ [h] := by simp
      rw [hconcat, List.dropLast_concat]
      exact hr.insert_tail hx
  | append_singleton r a =>
      rw [← List.cons_append, ← List.append_assoc] at hsplit
      obtain ⟨rfl, heq⟩ := List.append_inj' hsplit rfl
      obtain ⟨rfl, _⟩ := List.cons.inj heq
      have hrot : IsRing m p (r ++ h :: l) := hr.rotate
      have hins : IsRing (insertBetween m x (m p).prev p) p (r ++ h :: (l ++ [x])) := by
        simpa using hrot.insert_tail fun hmem => hx (perm_rotate.mem_iff.mpr hmem)
      have hconcat : l ++ x :: p :: (r ++ [h]) = ((l ++ [x]) ++ p :: r) ++ [h] := by simp
      rw [hconcat, List.dropLast_concat]
      exact hins.rotate

/-- Link a whole segment, from `first` to `last`, in between the neighbours `p` and `n`. -/
def spliceBetween (m : LinkMem A) (first last p n : A) : LinkMem A :=
  setPrev (setNext (setNext (setPrev m first p) p first) last n) n last

/-- A segment stays one when none of its links is stored to. -/
theorem Segment.splice_frame {first last p n : A} {l : List A} (hs : Segment m l)
    (hnext : ∀ a ∈ l.dropLast, a ≠ p ∧ a ≠ last) (hprev : ∀ b ∈ l.tail, b ≠ n ∧ b ≠ first) :
    Segment (spliceBetween m first last p n) l := by
  apply hs.congr
  · intro a ha
    simp [spliceBetween, hnext a ha]
  · intro b hb
    simp [spliceBetween, hprev b hb]

/-- A segment goes in between `p` and the segment that begins with `n`. -/
theorem Segment.splice {first last p n : A} {l : List A} (hys : Segment m ys)
    (hrest : Segment m (n :: l)) (hnd : ys.Nodup) (hfirst : ys.head? = some first)
    (hlast : ys.getLast? = some last) (hp : p ∉ ys) (hpl : p ∉ (n :: l).dropLast) (hn : n ∉ l)
    (hout : ∀ a ∈ ys, a ∉ n :: l) :
    Segment (spliceBetween m first last p n) (p :: (ys ++ n :: l)) := by
  have hfirstmem : first ∈ ys := List.mem_of_head? hfirst
  have hlastmem : last ∈ ys := List.mem_of_getLast? hlast
  have hyn : ∀ a ∈ ys, a ≠ n := fun a ha heq => hout a ha (by simp [heq])
  rw [← List.singleton_append]
  refine List.isChain_append.mpr ⟨.singleton p, List.isChain_append.mpr ⟨?_, ?_, ?_⟩, ?_⟩
  · apply hys.splice_frame
    · intro a ha
      have hmem : a ∈ ys := (List.dropLast_sublist _).subset ha
      exact ⟨fun heq => hp (heq ▸ hmem), ne_getLast_of_mem_dropLast hnd hlast ha⟩
    · intro b hb
      exact ⟨hyn b (List.mem_of_mem_tail hb), ne_head_of_mem_tail hnd hfirst hb⟩
  · apply hrest.splice_frame
    · intro a ha
      refine ⟨fun heq => hpl (heq ▸ ha), fun heq => hout last hlastmem ?_⟩
      exact heq ▸ (List.dropLast_sublist _).subset ha
    · intro b hb
      refine ⟨fun heq => hn (heq ▸ hb), fun heq => hout first hfirstmem ?_⟩
      exact heq ▸ List.mem_cons_of_mem n hb
  · intro a ha b hb
    obtain rfl : last = a := Option.some.inj (hlast.symm.trans ha)
    obtain rfl : n = b := by simpa using hb
    constructor <;> simp [spliceBetween]
  · intro a ha b hb
    obtain rfl : p = a := by simpa using ha
    obtain rfl : first = b := by
      rw [List.head?_append, hfirst] at hb
      simpa using hb
    have hpl : p ≠ last := fun heq => hp (heq ▸ hlastmem)
    constructor
    · simp [spliceBetween, hpl]
    · simp [spliceBetween, hyn first hfirstmem]

/-- The elements of one ring go right after the head of another. -/
theorem IsRing.splice_head {g first last : A} (hr : IsRing m h xs) (hg : IsRing m g ys)
    (hdis : List.Disjoint (g :: ys) (h :: xs)) (hfirst : ys.head? = some first)
    (hlast : ys.getLast? = some last) :
    IsRing (spliceBetween m first last h (m h).next) h (ys ++ xs) where
  nodup := by
    rw [List.nodup_cons, List.mem_append, not_or]
    refine ⟨⟨fun hmem => ?_, hr.head_notMem⟩, ?_⟩
    · exact hdis (List.mem_cons_of_mem g hmem) List.mem_cons_self
    · exact (List.nodup_cons.mp hg.nodup).2.append (List.nodup_cons.mp hr.nodup).2
        fun a ha hb => hdis (List.mem_cons_of_mem g ha) (List.mem_cons_of_mem h hb)
  segment := by
    obtain ⟨n, l, hnl⟩ : ∃ n l, xs ++ [h] = n :: l := List.exists_cons_of_ne_nil (by simp)
    have hseg := hr.segment
    rw [hnl] at hseg
    obtain ⟨⟨hn, _⟩, hrest⟩ := List.isChain_cons_cons.mp hseg
    have hys : Segment m ys := (List.isChain_append.mp (List.isChain_cons.mp hg.segment).2).1
    have hout : ∀ a ∈ ys, a ∉ xs ++ [h] := by
      intro a ha hmem
      exact hdis (List.mem_cons_of_mem g ha) (by simpa [or_comm] using hmem)
    rw [List.append_assoc, hnl, hn]
    refine hys.splice hrest (List.nodup_cons.mp hg.nodup).2 hfirst hlast ?_ ?_ ?_ (hnl ▸ hout)
    · exact fun hmem => hdis (List.mem_cons_of_mem g hmem) List.mem_cons_self
    · exact fun hmem => hr.head_notMem (mem_of_mem_dropLast hnl hmem)
    · exact fun hmem => ne_of_mem_tail hnl hr.nodup_concat hmem rfl

/-- The elements of one ring go right after any member of another. -/
theorem IsRing.splice {g first last p : A} {l r : List A} (hr : IsRing m h xs) (hg : IsRing m g ys)
    (hdis : List.Disjoint (g :: ys) (h :: xs)) (hfirst : ys.head? = some first)
    (hlast : ys.getLast? = some last) (hsplit : h :: xs = l ++ p :: r) :
    IsRing (spliceBetween m first last p (m p).next) h (l ++ p :: (ys ++ r)).tail := by
  cases l with
  | nil =>
      obtain ⟨rfl, rfl⟩ := List.cons.inj hsplit
      exact hr.splice_head hg hdis hfirst hlast
  | cons a l =>
      obtain ⟨rfl, rfl⟩ := List.cons.inj hsplit
      have hrot : IsRing m p (r ++ h :: l) := hr.rotate
      have hdis' : List.Disjoint (g :: ys) (p :: (r ++ h :: l)) :=
        fun a ha hb => hdis ha (perm_rotate.mem_iff.mpr hb)
      have hins : IsRing (spliceBetween m first last p (m p).next) p ((ys ++ r) ++ h :: l) := by
        simpa using hrot.splice_head hg hdis' hfirst hlast
      exact hins.rotate

end Stores

/-! ## Traversal -/

/-- The addresses met by following `next` from `a` until the head is reached, at
most `n` of them. -/
def follow [DecidableEq A] (m : LinkMem A) (h : A) : Nat → A → List A
  | 0, _ => []
  | n + 1, a => if a = h then [] else a :: follow m h n (m a).next

theorem follow_segment [DecidableEq A] {n : Nat} {a : A} (hseg : Segment m (a :: (xs ++ [h])))
    (hh : h ∉ a :: xs) (hn : xs.length < n) : follow m h n a = a :: xs := by
  induction xs generalizing a n with
  | nil =>
      obtain ⟨n, rfl⟩ := Nat.exists_eq_add_one_of_ne_zero (by omega : n ≠ 0)
      have hah : a ≠ h := fun heq => hh (by simp [heq])
      have hlink : (m a).next = h := (List.isChain_cons_cons.mp hseg).1.1
      cases n <;> simp [follow, hah, hlink]
  | cons x xs ih =>
      obtain ⟨n, rfl⟩ := Nat.exists_eq_add_one_of_ne_zero (by omega : n ≠ 0)
      have hah : a ≠ h := fun heq => hh (by simp [heq])
      obtain ⟨⟨hnext, _⟩, hrest⟩ := List.isChain_cons_cons.mp hseg
      have hrec := ih (n := n) hrest (fun hmem => hh (List.mem_cons_of_mem a hmem))
        (by simp at hn; omega)
      rw [follow, if_neg hah, hnext, hrec]

/-- Following the pointers of a ring visits exactly its elements, in order. -/
theorem IsRing.follow_eq [DecidableEq A] {n : Nat} (hr : IsRing m h xs) (hn : xs.length ≤ n) :
    follow m h n (m h).next = xs := by
  cases xs with
  | nil =>
      have hnext : (m h).next = h := hr.empty_iff.mpr rfl
      cases n <;> simp [follow, hnext]
  | cons x xs =>
      rw [hr.next_head]
      exact follow_segment (List.isChain_cons_cons.mp hr.segment).2 hr.head_notMem hn

end Ring
