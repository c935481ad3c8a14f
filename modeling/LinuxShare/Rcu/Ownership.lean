-- SUMMARY: What each thread of the RCU demo owns and knows, and why the other threads' steps do not take it away.
import LinuxShare.Rcu.Blocks

/-!
# Ownership

A reader owns the right to use what it has come by, an updater the blocks that it has in hand.
The steps of the others leave both as they are.
-/

namespace RcuDemo

open Rcu (Protected)

/-! ## What is in hand -/

/-- What an updater has in hand: a block that nobody else knows, one that it has replaced, and
one for which it waits in `synchronize_rcu`, or has waited. -/
structure Hand where
  owned : Ptr
  unlinked : Ptr
  retired : Ptr

@[simp] def UpdaterPc.hand : UpdaterPc → Hand
  | .readOld new | .copy new _ | .setA new _ | .setB new _ | .setC new _ | .assign new _ =>
    ⟨new, none, none⟩
  | .info _ old _ | .callRcu old => ⟨none, old, none⟩
  | .loop | .kzalloc => ⟨none, none, none⟩

@[simp] def UpdaterListPc.hand : UpdaterListPc → Hand
  | .copy _ q | .setA _ q | .setB _ q | .setC _ q | .replaceLinks _ q | .replaceNext _ q =>
    ⟨q, none, none⟩
  | .replacePrev p _ | .replacePoison p _ | .info p _ _ | .synchronize p => ⟨none, p, none⟩
  | .wait p | .kfree p => ⟨none, none, p⟩
  | .loop | .first | .kzalloc _ => ⟨none, none, none⟩

@[simp] def Local.hand : Local → Hand
  | .updater _ _ pc => pc.hand
  | .updaterList _ _ pc => pc.hand
  | _ => ⟨none, none, none⟩

/-- The blocks of `r` in these stages are those in hand. -/
structure Hand.Holds (h : Hand) (life : Life) (r : Root) : Prop where
  owned : ∀ p, life p = some (r, .owned) ↔ h.owned = some p
  unlinked : ∀ p, life p = some (r, .unlinked) ↔ h.unlinked = some p
  retired : ∀ p, life p = some (r, .retired .sync) ↔ h.retired = some p

/-! ## What is known -/

/-- Whose local state it is. -/
@[simp] def Local.Of (i : Task) : Local → Prop
  | .reader _ _ => i = .reader
  | .updater _ _ _ => i = .updater
  | .readerList _ _ => i = .readerList
  | .updaterList _ _ _ => i = .updaterList
  | .returned | .oops => True

/-- Whether the thread is between `rcu_read_lock` and `rcu_read_unlock`. -/
@[simp] def Local.inside : Local → Bool
  | .reader _ pc =>
    match pc with
    | .loop | .lock => false
    | _ => true
  | .readerList _ pc =>
    match pc with
    | .loop | .lock => false
    | _ => true
  | _ => false

/-- Whether the thread is inside of `synchronize_rcu`. -/
@[simp] def Local.waits : Local → Bool
  | .updaterList _ _ (.wait _) => true
  | _ => false

@[simp] def InfoPc.Seen (foo : Foo) : InfoPc → Prop
  | .a => True
  | .b x => x = foo.a
  | .c x y => x = foo.a ∧ y = foo.b

/-- A reader is using a block, and has seen some of its values. -/
def Using (life : Life) (s : Sys) (i : Task) (r : Root) (p : Ptr) (pc : InfoPc) : Prop :=
  ∃ q foo, p = some q ∧ Protected s.rcu life i r q ∧ s.heap q = some foo ∧ pc.Seen foo

@[simp] def Local.Reads (life : Life) (s : Sys) (i : Task) : Local → Prop
  | .reader _ (.info p pc) => Using life s i .pointer p pc
  | .readerList _ (.info p pc) => Using life s i .list p pc
  | .readerList _ (.next p) => Using life s i .list p .a
  | _ => True

/-- The block is there, with what was written to it. -/
def Built (s : Sys) (p : Ptr) (P : Foo → Prop) : Prop :=
  ∃ q foo, p = some q ∧ s.heap q = some foo ∧ P foo

/-- The neighbours of the only entry of a list. -/
def Foo.Alone (foo : Foo) : Prop := foo.next = .head ∧ foo.prev = .head

@[simp] def UpdaterPc.Knows (s : Sys) (value : Int) : UpdaterPc → Prop
  | .copy _ old => old = s.root .pointer
  | .setA new old => old = s.root .pointer ∧ Built s new fun _ => True
  | .setB new old => old = s.root .pointer ∧ Built s new fun foo => foo.a = value
  | .setC new old =>
    old = s.root .pointer ∧ Built s new fun foo => foo.a = value ∧ foo.b = value + 1
  | .assign new old =>
    old = s.root .pointer ∧
      Built s new fun foo => foo.a = value ∧ foo.b = value + 1 ∧ foo.c = value + 2
  | .info new old _ => new = s.root .pointer ∧ old ≠ none
  | .callRcu old => old ≠ none
  | .loop | .kzalloc | .readOld _ => True

@[simp] def UpdaterListPc.Knows (s : Sys) (value : Int) : UpdaterListPc → Prop
  | .kzalloc p | .copy p _ => p = s.root .list
  | .setA p q => p = s.root .list ∧ Built s q Foo.Alone
  | .setB p q => p = s.root .list ∧ Built s q fun foo => foo.Alone ∧ foo.a = value
  | .setC p q =>
    p = s.root .list ∧ Built s q fun foo => foo.Alone ∧ foo.a = value ∧ foo.b = value + 1
  | .replaceLinks p q | .replaceNext p q =>
    p = s.root .list ∧
      Built s q fun foo =>
        foo.Alone ∧ foo.a = value ∧ foo.b = value + 1 ∧ foo.c = value + 2
  | .replacePrev p q | .replacePoison p q | .info p q _ => q = s.root .list ∧ p ≠ none
  | .synchronize p | .wait p | .kfree p => p ≠ none
  | .loop | .first => True

/-- No value that was published is newer than the updater's next one. -/
@[simp] def Local.Knows (s : Sys) : Local → Prop
  | .updater _ value pc => s.top .pointer ≤ value ∧ pc.Knows s value
  | .updaterList _ value pc => s.top .list ≤ value ∧ pc.Knows s value
  | _ => True

structure Owns (life : Life) (i : Task) (l : Local) (s : Sys) : Prop where
  role : l.Of i
  inside : i ∈ s.rcu.readers ↔ l.inside = true
  reads : l.Reads life s i
  hand : ∀ r, r.updater = i → l.hand.Holds life r
  knows : l.Knows s
  waits : i = .updaterList → (s.rcu.waits .sync = none ↔ l.waits = false)

/-! ## What the others leave -/

/-- A step that does not concern `i` as a reader. -/
structure Unseen (life : Life) (s : Sys) (life' : Life) (s' : Sys) (i : Task) : Prop where
  inside : i ∈ s'.rcu.readers ↔ i ∈ s.rcu.readers
  reads : ∀ r p foo, Protected s.rcu life i r p → s.heap p = some foo →
    Protected s'.rcu life' i r p ∧
      ∃ foo', s'.heap p = some foo' ∧ foo'.a = foo.a ∧ foo'.b = foo.b ∧ foo'.c = foo.c

/-- A step that does not concern the updater of `r`. -/
structure Apart (life : Life) (s : Sys) (life' : Life) (s' : Sys) (r : Root) : Prop where
  stages : ∀ p st, (∀ q, st ≠ .retired (.callback q)) →
    (life' p = some (r, st) ↔ life p = some (r, st))
  heap : ∀ p, life p = some (r, .owned) → s'.heap p = s.heap p
  root : s'.root r = s.root r
  top : s'.top r = s.top r
  sync : r = .list → (s'.rcu.waits .sync = none ↔ s.rcu.waits .sync = none)

section

variable {life life' : Life} {s s' : Sys} {i j : Task} {l : Local} {r r' : Root} {p : Nat}
  {q : Ptr} {pc : InfoPc}

theorem Using.frame (h : Using life s i r q pc) (hu : Unseen life s life' s' i) :
    Using life' s' i r q pc := by
  obtain ⟨p, foo, rfl, hprot, hfoo, hseen⟩ := h
  obtain ⟨hprot', foo', hfoo', ha, hb, -⟩ := hu.reads r p foo hprot hfoo
  refine ⟨p, foo', rfl, hprot', hfoo', ?_⟩
  cases pc <;> simp_all

theorem Local.Reads.frame (h : l.Reads life s i) (hu : Unseen life s life' s' i) :
    l.Reads life' s' i := by
  cases l with
  | reader cnt pc =>
      cases pc with
      | info p pc => exact Using.frame h hu
      | _ => trivial
  | readerList cnt pc =>
      cases pc with
      | info p pc => exact Using.frame h hu
      | next p => exact Using.frame h hu
      | _ => trivial
  | _ => trivial

theorem Hand.Holds.frame {h : Hand} (hh : h.Holds life r) (ha : Apart life s life' s' r) :
    h.Holds life' r where
  owned := fun p => (ha.stages p .owned (by simp)).trans (hh.owned p)
  unlinked := fun p => (ha.stages p .unlinked (by simp)).trans (hh.unlinked p)
  retired := fun p => (ha.stages p (.retired .sync) (by simp)).trans (hh.retired p)

theorem Built.frame {P : Foo → Prop} (h : Built s q P)
    (hheap : ∀ p, q = some p → s'.heap p = s.heap p) : Built s' q P := by
  obtain ⟨p, foo, rfl, hfoo, hP⟩ := h
  exact ⟨p, foo, rfl, (hheap p rfl).trans hfoo, hP⟩

theorem Local.Knows.frame (h : l.Knows s) (hrole : l.Of i)
    (hhand : ∀ r, r.updater = i → l.hand.Holds life r)
    (ha : ∀ r, r.updater = i → Apart life s life' s' r) : l.Knows s' := by
  cases l with
  | updater cnt value pc =>
      have hp := ha .pointer hrole.symm
      have hheap : ∀ p, pc.hand.owned = some p → s'.heap p = s.heap p := fun p hp' =>
        hp.heap p (((hhand .pointer hrole.symm).owned p).mpr hp')
      refine ⟨hp.top.trans_le h.1, ?_⟩
      have hknows := h.2
      cases pc with
      | setA new old => exact ⟨hknows.1.trans hp.root.symm, hknows.2.frame hheap⟩
      | setB new old => exact ⟨hknows.1.trans hp.root.symm, hknows.2.frame hheap⟩
      | setC new old => exact ⟨hknows.1.trans hp.root.symm, hknows.2.frame hheap⟩
      | assign new old => exact ⟨hknows.1.trans hp.root.symm, hknows.2.frame hheap⟩
      | copy new old => exact hknows.trans hp.root.symm
      | info new old pc => exact ⟨hknows.1.trans hp.root.symm, hknows.2⟩
      | _ => exact hknows
  | updaterList cnt value pc =>
      have hp := ha .list hrole.symm
      have hheap : ∀ p, pc.hand.owned = some p → s'.heap p = s.heap p := fun p hp' =>
        hp.heap p (((hhand .list hrole.symm).owned p).mpr hp')
      refine ⟨hp.top.trans_le h.1, ?_⟩
      have hknows := h.2
      cases pc with
      | kzalloc p => exact hknows.trans hp.root.symm
      | copy p q => exact hknows.trans hp.root.symm
      | setA p q => exact ⟨hknows.1.trans hp.root.symm, hknows.2.frame hheap⟩
      | setB p q => exact ⟨hknows.1.trans hp.root.symm, hknows.2.frame hheap⟩
      | setC p q => exact ⟨hknows.1.trans hp.root.symm, hknows.2.frame hheap⟩
      | replaceLinks p q => exact ⟨hknows.1.trans hp.root.symm, hknows.2.frame hheap⟩
      | replaceNext p q => exact ⟨hknows.1.trans hp.root.symm, hknows.2.frame hheap⟩
      | replacePrev p q => exact ⟨hknows.1.trans hp.root.symm, hknows.2⟩
      | replacePoison p q => exact ⟨hknows.1.trans hp.root.symm, hknows.2⟩
      | info p q pc => exact ⟨hknows.1.trans hp.root.symm, hknows.2⟩
      | _ => exact hknows
  | _ => trivial

theorem Owns.frame (h : Owns life i l s) (hu : Unseen life s life' s' i)
    (ha : ∀ r, r.updater = i → Apart life s life' s' r) : Owns life' i l s' where
  role := h.role
  inside := hu.inside.trans h.inside
  reads := h.reads.frame hu
  hand := fun r hr => (h.hand r hr).frame (ha r hr)
  knows := h.knows.frame h.role h.hand ha
  waits := fun hi => ((ha .list hi.symm).sync rfl).trans (h.waits hi)

/-! ## The steps -/

theorem Moved.unseen (h : Moved r life s life' s') (hs' : Sound life' s') (i : Task) :
    Unseen life s life' s' i where
  inside := by rw [h.move.readers]
  reads := by
    intro r' p foo hprot hfoo
    have hprot' := h.move.protected hprot
    obtain ⟨st', hlife', -⟩ := id hprot'
    obtain ⟨st, hlife, hst⟩ := hprot
    obtain ⟨foo', hfoo'⟩ := hs'.heap_of_life hlife'
    refine ⟨hprot', foo', hfoo', ?_⟩
    by_cases hr : r' = r
    · subst hr
      refine h.values p st foo foo' hlife ?_ hfoo hfoo'
      rintro rfl
      exact hst
    · rw [h.others r' p st hr hlife, hfoo] at hfoo'
      cases hfoo'
      exact ⟨rfl, rfl, rfl⟩

theorem Moved.apart (h : Moved r life s life' s') (hs : Sound life s) (hr : r' ≠ r) :
    Apart life s life' s' r' where
  stages := fun p st _ => h.move.other hr
  heap := fun p hp => h.others r' p .owned hr hp
  root := h.root r' hr
  top := by
    obtain ⟨p, foo, hp, hlife, hfoo, -⟩ := hs.exists_root r'
    simp [Sys.top, h.root r' hr, hp, h.others r' p .linked hr hlife]
  sync := by
    rintro rfl
    refine h.sync ?_
    cases r with
    | pointer => rfl
    | list => exact absurd rfl hr

theorem unseen_lock (i j : Task) (hij : i ≠ j) :
    Unseen life s life { s with rcu := s.rcu.lock j } i where
  inside := by simp [hij]
  reads := fun r p foo hprot hfoo => ⟨hprot.lock j, foo, hfoo, rfl, rfl, rfl⟩

theorem unseen_unlock (i j : Task) (hij : i ≠ j) :
    Unseen life s life { s with rcu := s.rcu.unlock j } i where
  inside := by simp [hij]
  reads := fun r p foo hprot hfoo => ⟨hprot.unlock hij, foo, hfoo, rfl, rfl, rfl⟩

theorem unseen_refl (i : Task) : Unseen life s life s i :=
  ⟨Iff.rfl, fun _ _ foo hprot hfoo => ⟨hprot, foo, hfoo, rfl, rfl, rfl⟩⟩

theorem apart_refl (r : Root) : Apart life s life s r :=
  ⟨fun _ _ _ => Iff.rfl, fun _ _ => rfl, rfl, rfl, fun _ => Iff.rfl⟩

theorem apart_rcu (d : Rcu.Domain Task Token)
    (hsync : d.waits .sync = none ↔ s.rcu.waits .sync = none) (r : Root) :
    Apart life s life { s with rcu := d } r where
  stages := fun _ _ _ => Iff.rfl
  heap := fun _ _ => rfl
  root := Sys.root_rcu d
  top := Sys.top_rcu d
  sync := fun _ => hsync

/-- What a step of a thread keeps, of its own and of the others. -/
def Keeps (life : Life) (s : Sys) (i : Task) (l : Local) (s' : Sys) : Prop :=
  ∃ life', Sound life' s' ∧ Owns life' i l s' ∧ (∀ j, j ≠ i → Unseen life s life' s' j) ∧
    (∀ r, r.updater ≠ i → Apart life s life' s' r) ∧ ∀ r, s.top r ≤ s'.top r

theorem Keeps.of_moved (r : Root) (hs : Sound life s) (hs' : Sound life' s')
    (ho : Owns life' r.updater l s') (h : Moved r life s life' s') : Keeps life s r.updater l s' := by
  refine ⟨life', hs', ho, fun j _ => h.unseen hs' j, fun r' hr' => h.apart hs ?_, fun r' => ?_⟩
  · rintro rfl
    exact hr' rfl
  · by_cases hr : r' = r
    · subst hr
      exact h.top
    · exact (h.apart hs hr).top.ge

theorem Keeps.refl (hs : Sound life s) (ho : Owns life i l s) : Keeps life s i l s :=
  ⟨life, hs, ho, fun j _ => unseen_refl j, fun r _ => apart_refl r, fun _ => le_rfl⟩

end

end RcuDemo
