-- SUMMARY: What is known of the blocks of the RCU demo, and what allocating, writing, linking, retiring and freeing one keeps.
import LinuxShare.Rcu.Demo

/-!
# Blocks

Each block belongs to one of the two updaters, and goes through the stages of `Rcu.Stage`. The
stage of a block is not in memory: it is what the updaters, `call_rcu` and `synchronize_rcu`
together know of it.
-/

namespace RcuDemo

open Rcu (Protected Move)

/-- What readers come by a block from. -/
inductive Root
  | pointer
  | list
  deriving DecidableEq, Repr

/-- Whose blocks they are. -/
def Root.updater : Root → Task
  | .pointer => .updater
  | .list => .updaterList

/-- The grace period that a block waits for. -/
def Root.token : Root → Nat → Token
  | .pointer, p => .callback p
  | .list, _ => .sync

abbrev Life := Rcu.Life Nat Root Token

abbrev Stage := Rcu.Stage Token

def Sys.root (s : Sys) : Root → Ptr
  | .pointer => s.gPfoo
  | .list => s.listNext.entry

/-- The newest value that a reader can come by. -/
def Sys.top (s : Sys) (r : Root) : Int :=
  match (s.root r).bind s.heap with
  | some foo => foo.a
  | none => 0

/-- The values of one update, or the ones of `kzalloc`. -/
def Whole (a b c : Int) : Prop := (a = 0 ∧ b = 0 ∧ c = 0) ∨ (b = a + 1 ∧ c = a + 2)

/-- What holds of a block that was published. -/
structure Foo.Fits (foo : Foo) (r : Root) (st : Stage) : Prop where
  whole : Whole foo.a foo.b foo.c
  next : r = .list → foo.next = .head
  prev : r = .list → st = .linked → foo.prev = .head

/-- The stages of all blocks agree with the memory, the roots and the grace periods. -/
structure Sound (life : Life) (s : Sys) : Prop where
  rcu : s.rcu.Ok
  live : ∀ p, s.heap p = none ↔ life p = none
  fresh : ∀ p, s.brk ≤ p → s.heap p = none
  root : ∀ r p, s.root r = some p ↔ life p = some (r, .linked)
  rooted : ∀ r, s.root r ≠ none
  fits : ∀ p foo r st, s.heap p = some foo → life p = some (r, st) → st ≠ .owned →
    foo.Fits r st ∧ foo.a ≤ s.top r
  retired : ∀ p r t, life p = some (r, .retired t) → t = r.token p
  queued : ∀ p, s.rcu.waits (.callback p) ≠ none ↔
    life p = some (.pointer, .retired (.callback p))

section

variable {life life' : Life} {s s' : Sys} {r r' : Root} {p q q' : Nat} {foo foo' : Foo}
  {st : Stage}

theorem Sound.heap_of_life (h : Sound life s) (hp : life p = some (r, st)) :
    ∃ foo, s.heap p = some foo := by
  refine Option.ne_none_iff_exists'.mp fun hnone => ?_
  rw [(h.live p).mp hnone] at hp
  cases hp

theorem Sound.exists_root (h : Sound life s) (r : Root) :
    ∃ p foo, s.root r = some p ∧ life p = some (r, .linked) ∧ s.heap p = some foo ∧
      s.top r = foo.a := by
  obtain ⟨p, hp⟩ := Option.ne_none_iff_exists'.mp (h.rooted r)
  have hlife := (h.root r p).mp hp
  obtain ⟨foo, hfoo⟩ := h.heap_of_life hlife
  exact ⟨p, foo, hp, hlife, hfoo, by simp [Sys.top, hp, hfoo]⟩

theorem Sys.listNext_of_root (h : s.root .list = some p) : s.listNext = .node p := by
  rw [root] at h
  cases hnext : s.listNext with
  | node q =>
      rw [hnext] at h
      cases h
      rfl
  | _ =>
      rw [hnext] at h
      cases h

/-! ## The readers' steps -/

theorem Sound.lock (h : Sound life s) (i : Task) : Sound life { s with rcu := s.rcu.lock i } where
  rcu := h.rcu.lock
  live := h.live
  fresh := h.fresh
  root := h.root
  rooted := h.rooted
  fits := h.fits
  retired := h.retired
  queued := h.queued

theorem Sound.unlock (h : Sound life s) (i : Task) :
    Sound life { s with rcu := s.rcu.unlock i } where
  rcu := h.rcu.unlock
  live := h.live
  fresh := h.fresh
  root := h.root
  rooted := h.rooted
  fits := h.fits
  retired := h.retired
  queued := fun p => (not_congr Rcu.Domain.unlock_waits_eq_none).trans (h.queued p)

/-! ## The updaters' steps -/

/-- A step of the updater of `r`: what it does to its blocks, and what it leaves alone. -/
structure Moved (r : Root) (life : Life) (s : Sys) (life' : Life) (s' : Sys) : Prop where
  move : Move r s.rcu life s'.rcu life'
  others : ∀ r' p st, r' ≠ r → life p = some (r', st) → s'.heap p = s.heap p
  values : ∀ p st foo foo', life p = some (r, st) → st ≠ .owned → s.heap p = some foo →
    s'.heap p = some foo' → foo'.a = foo.a ∧ foo'.b = foo.b ∧ foo'.c = foo.c
  root : ∀ r', r' ≠ r → s'.root r' = s.root r'
  sync : r = .pointer → (s'.rcu.waits .sync = none ↔ s.rcu.waits .sync = none)
  top : s.top r ≤ s'.top r

theorem Moved.refl (r : Root) (life : Life) (s : Sys) : Moved r life s life s where
  move := .none
  others := fun _ _ _ _ _ => rfl
  values := by
    intro p st foo foo' _ _ hfoo hfoo'
    rw [hfoo] at hfoo'
    cases hfoo'
    exact ⟨rfl, rfl, rfl⟩
  root := fun _ _ => rfl
  sync := fun _ => Iff.rfl
  top := le_rfl

@[simp] theorem Sys.write_root : (s.write p foo).root r = s.root r := by
  cases r <;> rfl

@[simp] theorem Sys.write_rcu : (s.write p foo).rcu = s.rcu := rfl
@[simp] theorem Sys.write_brk : (s.write p foo).brk = s.brk := rfl
@[simp] theorem Sys.write_heap_self : (s.write p foo).heap p = some foo := Function.update_self ..

theorem Sys.write_heap_of_ne (h : q ≠ p) : (s.write p foo).heap q = s.heap q :=
  Function.update_of_ne h ..

/-- A write that changes none of the values that readers can see leaves the newest one. -/
theorem Sound.write_top (h : Sound life s) (hfoo : s.heap p = some foo)
    (hkeep : ∀ r st, life p = some (r, st) → st ≠ .owned → foo'.a = foo.a) :
    (s.write p foo').top r = s.top r := by
  obtain ⟨q, old, hq, hlife, hold, htop⟩ := h.exists_root r
  rw [htop]
  by_cases hqp : q = p
  · subst hqp
    rw [hfoo] at hold
    cases hold
    simp [Sys.top, hq, hkeep r .linked hlife (by simp)]
  · simp [Sys.top, hq, Sys.write_heap_of_ne hqp, hold]

/-- A write to a block that nobody else knows, or one that the readers do not see. -/
theorem Sound.write (h : Sound life s) (hfoo : s.heap p = some foo)
    (hkeep : ∀ r st, life p = some (r, st) → st ≠ .owned → foo'.Fits r st ∧ foo'.a = foo.a) :
    Sound life (s.write p foo') where
  rcu := h.rcu
  live := by
    intro q
    by_cases hq : q = p
    · subst hq
      rw [Sys.write_heap_self, ← h.live, hfoo]
      simp
    · rw [Sys.write_heap_of_ne hq, h.live]
  fresh := by
    intro q hle
    have hq : q ≠ p := by
      rintro rfl
      rw [h.fresh q hle] at hfoo
      cases hfoo
    rw [Sys.write_heap_of_ne hq, h.fresh q hle]
  root := fun r q => by rw [Sys.write_root, h.root]
  rooted := fun r => by rw [Sys.write_root]; exact h.rooted r
  fits := by
    intro q old r st hold hlife hst
    have htop : (s.write p foo').top r = s.top r :=
      h.write_top hfoo fun r st hp ho => (hkeep r st hp ho).2
    rw [htop]
    by_cases hq : q = p
    · subst hq
      rw [Sys.write_heap_self] at hold
      cases hold
      obtain ⟨hfits, ha⟩ := hkeep r st hlife hst
      exact ⟨hfits, ha ▸ (h.fits q foo r st hfoo hlife hst).2⟩
    · rw [Sys.write_heap_of_ne hq] at hold
      exact h.fits q old r st hold hlife hst
  retired := h.retired
  queued := h.queued

theorem Moved.write (hs : Sound life s) (hlife : life p = some (r, st))
    (hfoo : s.heap p = some foo)
    (hkeep : st ≠ .owned → foo'.a = foo.a ∧ foo'.b = foo.b ∧ foo'.c = foo.c) :
    Moved r life s life (s.write p foo') where
  move := .none
  others := by
    intro r' q st' hr hq
    refine Sys.write_heap_of_ne fun hqp => hr ?_
    subst hqp
    rw [hlife] at hq
    cases hq
    rfl
  values := by
    intro q st' old new hq hst' hold hnew
    by_cases hqp : q = p
    · subst hqp
      rw [hlife] at hq
      cases hq
      rw [hfoo] at hold
      cases hold
      rw [Sys.write_heap_self] at hnew
      cases hnew
      exact hkeep hst'
    · rw [Sys.write_heap_of_ne hqp, hold] at hnew
      cases hnew
      exact ⟨rfl, rfl, rfl⟩
  root := fun _ _ => Sys.write_root
  sync := fun _ => Iff.rfl
  top := by
    refine (hs.write_top hfoo fun r' st' hp hst => (hkeep ?_).1).ge
    rw [hlife] at hp
    cases hp
    exact hst

/-! ### Allocation -/

@[simp] theorem Sys.kzalloc_fst : s.kzalloc.1 = s.brk := rfl
@[simp] theorem Sys.kzalloc_rcu : s.kzalloc.2.rcu = s.rcu := rfl
@[simp] theorem Sys.kzalloc_brk : s.kzalloc.2.brk = s.brk + 1 := rfl
@[simp] theorem Sys.kzalloc_heap_self : s.kzalloc.2.heap s.brk = some .zero :=
  Function.update_self ..

@[simp] theorem Sys.kzalloc_root : s.kzalloc.2.root r = s.root r := by
  cases r <;> rfl

theorem Sys.kzalloc_heap_of_ne (h : p ≠ s.brk) : s.kzalloc.2.heap p = s.heap p :=
  Function.update_of_ne h ..

theorem Sound.brk_unused (h : Sound life s) : life s.brk = none :=
  (h.live s.brk).mp (h.fresh s.brk le_rfl)

theorem Sound.ne_brk (h : Sound life s) (hp : life p = some (r, st)) : p ≠ s.brk := by
  rintro rfl
  rw [h.brk_unused] at hp
  cases hp

theorem Sound.kzalloc_top (h : Sound life s) : s.kzalloc.2.top r = s.top r := by
  obtain ⟨p, foo, hp, hlife, hfoo, -⟩ := h.exists_root r
  simp [Sys.top, hp, Sys.kzalloc_heap_of_ne (h.ne_brk hlife), hfoo]

theorem Sound.kzalloc (h : Sound life s) (r : Root) :
    Sound (Function.update life s.brk (some (r, .owned))) s.kzalloc.2 := by
  have hold : ∀ q r' st, st ≠ .owned →
      (Function.update life s.brk (some (r, .owned)) q = some (r', st) ↔
        life q = some (r', st)) := by
    intro q r' st hst
    by_cases hq : q = s.brk
    · subst hq
      rw [Function.update_self, h.brk_unused]
      simp [Ne.symm hst]
    · rw [Function.update_of_ne hq]
  refine ⟨h.rcu, fun q => ?_, fun q hq => ?_, fun r' q => ?_, fun r' => ?_, ?_, ?_, fun q => ?_⟩
  · by_cases hq : q = s.brk
    · subst hq
      rw [Sys.kzalloc_heap_self, Function.update_self]
      simp
    · rw [Sys.kzalloc_heap_of_ne hq, Function.update_of_ne hq, h.live]
  · rw [Sys.kzalloc_brk] at hq
    rw [Sys.kzalloc_heap_of_ne (by omega), h.fresh q (by omega)]
  · rw [Sys.kzalloc_root, hold q r' .linked (by simp), h.root]
  · rw [Sys.kzalloc_root]
    exact h.rooted r'
  · intro q foo r' st hfoo hlife hst
    rw [hold q r' st hst] at hlife
    rw [Sys.kzalloc_heap_of_ne (h.ne_brk hlife)] at hfoo
    rw [h.kzalloc_top]
    exact h.fits q foo r' st hfoo hlife hst
  · intro q r' t hlife
    exact h.retired q r' t ((hold q r' (.retired t) (by simp)).mp hlife)
  · rw [hold q .pointer (.retired (.callback q)) (by simp)]
    exact h.queued q

theorem Moved.kzalloc (h : Sound life s) (r : Root) :
    Moved r life s (Function.update life s.brk (some (r, .owned))) s.kzalloc.2 where
  move := .alloc s.brk h.brk_unused
  others := fun _ _ _ _ hp => Sys.kzalloc_heap_of_ne (h.ne_brk hp)
  values := by
    intro p st foo foo' hlife _ hfoo hfoo'
    rw [Sys.kzalloc_heap_of_ne (h.ne_brk hlife), hfoo] at hfoo'
    cases hfoo'
    exact ⟨rfl, rfl, rfl⟩
  root := fun _ _ => Sys.kzalloc_root
  sync := fun _ => Iff.rfl
  top := h.kzalloc_top.ge

/-! ### Publication -/

/-- The root points to `q` from now on. -/
def Sys.link (s : Sys) (q : Nat) : Root → Sys
  | .pointer => { s with gPfoo := some q }
  | .list => { s with listNext := .node q }

@[simp] theorem Sys.link_heap : (s.link q r).heap = s.heap := by cases r <;> rfl
@[simp] theorem Sys.link_brk : (s.link q r).brk = s.brk := by cases r <;> rfl
@[simp] theorem Sys.link_rcu : (s.link q r).rcu = s.rcu := by cases r <;> rfl
@[simp] theorem Sys.link_root_self : (s.link q r).root r = some q := by cases r <;> rfl

theorem Sys.link_root_of_ne (h : r' ≠ r) : (s.link q r).root r' = s.root r' := by
  cases r <;> cases r' <;> first | rfl | exact absurd rfl h

theorem Sys.link_top_self (hfoo : s.heap q = some foo) : (s.link q r).top r = foo.a := by
  simp [top, hfoo]

theorem Sys.link_top_of_ne (h : r' ≠ r) : (s.link q r).top r' = s.top r' := by
  simp [top, link_root_of_ne h]

/-- The stages after `q` has taken the place of `p`. -/
def Life.replace (life : Life) (r : Root) (p q : Nat) : Life :=
  Function.update (Function.update life p (some (r, .unlinked))) q (some (r, .linked))

theorem Life.replace_of_ne (hp : q' ≠ p) (hq : q' ≠ q) : Life.replace life r p q q' = life q' := by
  rw [replace, Function.update_of_ne hq, Function.update_of_ne hp]

@[simp] theorem Life.replace_new : Life.replace life r p q q = some (r, .linked) :=
  Function.update_self ..

theorem Life.replace_old (h : p ≠ q) : Life.replace life r p q p = some (r, .unlinked) := by
  rw [replace, Function.update_of_ne h, Function.update_self]

/-- A block of the updater in the place of the one that readers could come by. -/
theorem Sound.replace (h : Sound life s) (hp : life p = some (r, .linked))
    (hq : life q = some (r, .owned)) (hfoo : s.heap q = some foo) (hfits : foo.Fits r .linked)
    (htop : s.top r ≤ foo.a) : Sound (Life.replace life r p q) (s.link q r) := by
  have hpq : p ≠ q := by
    rintro rfl
    rw [hp] at hq
    cases hq
  have hnone : ∀ x, Life.replace life r p q x = none ↔ life x = none := by
    intro x
    by_cases hxq : x = q
    · simp [hxq, hq]
    · by_cases hxp : x = p
      · simp [hxp, Life.replace_old hpq, hp]
      · rw [Life.replace_of_ne hxp hxq]
  have hretired : ∀ x r' t, Life.replace life r p q x = some (r', .retired t) ↔
      life x = some (r', .retired t) := by
    intro x r' t
    by_cases hxq : x = q
    · simp [hxq, hq]
    · by_cases hxp : x = p
      · simp [hxp, Life.replace_old hpq, hp]
      · rw [Life.replace_of_ne hxp hxq]
  refine ⟨by simpa using h.rcu, fun x => ?_, fun x hx => ?_, fun r' x => ?_, fun r' => ?_, ?_, ?_,
    fun x => ?_⟩
  · rw [hnone, Sys.link_heap, h.live]
  · rw [Sys.link_brk] at hx
    rw [Sys.link_heap, h.fresh x hx]
  · by_cases hr : r' = r
    · subst hr
      by_cases hxq : x = q
      · simp [hxq]
      · have hx : life x = some (r', .linked) → x = p := fun hx =>
          Option.some.inj (((h.root r' x).mpr hx).symm.trans ((h.root r' p).mpr hp))
        by_cases hxp : x = p
        · subst hxp
          simp [Life.replace_old hpq, Ne.symm hpq]
        · rw [Life.replace_of_ne hxp hxq, Sys.link_root_self]
          simp only [Option.some.injEq]
          exact ⟨fun heq => absurd heq.symm hxq, fun hl => absurd (hx hl) hxp⟩
    · rw [Sys.link_root_of_ne hr, h.root]
      by_cases hxq : x = q
      · simp [hxq, hq, Ne.symm hr]
      · by_cases hxp : x = p
        · simp [hxp, Life.replace_old hpq, hp, Ne.symm hr]
        · rw [Life.replace_of_ne hxp hxq]
  · by_cases hr : r' = r
    · subst hr
      simp
    · rw [Sys.link_root_of_ne hr]
      exact h.rooted r'
  · intro x old r' st hold hlife hst
    rw [Sys.link_heap] at hold
    by_cases hxq : x = q
    · subst hxq
      rw [Life.replace_new] at hlife
      cases hlife
      rw [hfoo] at hold
      cases hold
      exact ⟨hfits, (Sys.link_top_self hfoo).ge⟩
    · by_cases hxp : x = p
      · subst hxp
        rw [Life.replace_old hpq] at hlife
        cases hlife
        obtain ⟨hfits', ha⟩ := h.fits x old r .linked hold hp (by simp)
        exact ⟨⟨hfits'.whole, hfits'.next, by simp⟩,
          (ha.trans htop).trans (Sys.link_top_self hfoo).ge⟩
      · rw [Life.replace_of_ne hxp hxq] at hlife
        obtain ⟨hfits', ha⟩ := h.fits x old r' st hold hlife hst
        refine ⟨hfits', ?_⟩
        by_cases hr : r' = r
        · subst hr
          exact (ha.trans htop).trans (Sys.link_top_self hfoo).ge
        · rwa [Sys.link_top_of_ne hr]
  · exact fun x r' t hlife => h.retired x r' t ((hretired x r' t).mp hlife)
  · rw [hretired, Sys.link_rcu]
    exact h.queued x

theorem Moved.replace (hp : life p = some (r, .linked)) (hq : life q = some (r, .owned))
    (hfoo : s.heap q = some foo) (htop : s.top r ≤ foo.a) :
    Moved r life s (Life.replace life r p q) (s.link q r) where
  move := by
    rw [Sys.link_rcu]
    exact .replace p q hp hq
  others := fun _ _ _ _ _ => by simp
  values := by
    intro x st foo foo' _ _ hfoo hfoo'
    rw [Sys.link_heap, hfoo] at hfoo'
    cases hfoo'
    exact ⟨rfl, rfl, rfl⟩
  root := fun _ hr => Sys.link_root_of_ne hr
  sync := fun _ => by simp
  top := htop.trans (Sys.link_top_self hfoo).ge

/-! ### Reclamation -/

theorem Sys.root_rcu (d : Rcu.Domain Task Token) : ({ s with rcu := d }).root r = s.root r := by
  cases r <;> rfl

theorem Sys.top_rcu (d : Rcu.Domain Task Token) : ({ s with rcu := d }).top r = s.top r := by
  cases r <;> rfl

/-- A block that was replaced waits for a grace period from now on. -/
theorem Sound.retire (h : Sound life s) (hp : life p = some (r, .unlinked)) :
    Sound (Function.update life p (some (r, .retired (r.token p))))
      { s with rcu := s.rcu.begin (r.token p) } := by
  refine ⟨h.rcu.begin, fun x => ?_, h.fresh, fun r' x => ?_, fun r' => ?_, ?_, ?_, fun x => ?_⟩
  · by_cases hx : x = p
    · subst hx
      rw [Function.update_self, h.live, hp]
      simp
    · rw [Function.update_of_ne hx]
      exact h.live x
  · rw [Sys.root_rcu, h.root]
    by_cases hx : x = p
    · simp [hx, hp]
    · rw [Function.update_of_ne hx]
  · rw [Sys.root_rcu]
    exact h.rooted r'
  · intro x foo r' st hfoo hlife hst
    rw [Sys.top_rcu]
    by_cases hx : x = p
    · subst hx
      rw [Function.update_self] at hlife
      cases hlife
      obtain ⟨hfits, ha⟩ := h.fits x foo r .unlinked hfoo hp (by simp)
      exact ⟨⟨hfits.whole, hfits.next, by simp⟩, ha⟩
    · rw [Function.update_of_ne hx] at hlife
      exact h.fits x foo r' st hfoo hlife hst
  · intro x r' t hlife
    by_cases hx : x = p
    · subst hx
      rw [Function.update_self] at hlife
      cases hlife
      rfl
    · rw [Function.update_of_ne hx] at hlife
      exact h.retired x r' t hlife
  · by_cases hx : x = p
    · subst hx
      rw [Function.update_self]
      cases r with
      | pointer => simp [Root.token]
      | list =>
          have hold := h.queued x
          rw [hp] at hold
          simpa [Root.token, Rcu.Domain.begin_waits_of_ne] using hold
    · rw [Function.update_of_ne hx]
      have hne : Token.callback x ≠ r.token p := by
        cases r <;> simp [Root.token, hx]
      rw [Rcu.Domain.begin_waits_of_ne hne]
      exact h.queued x

theorem Moved.retire (hp : life p = some (r, .unlinked)) :
    Moved r life s (Function.update life p (some (r, .retired (r.token p))))
      { s with rcu := s.rcu.begin (r.token p) } where
  move := .retire p (r.token p) hp
  others := fun _ _ _ _ _ => rfl
  values := by
    intro x st foo foo' _ _ hfoo hfoo'
    rw [show s.heap x = some foo' from hfoo'] at hfoo
    cases hfoo
    exact ⟨rfl, rfl, rfl⟩
  root := fun _ _ => Sys.root_rcu _
  sync := by
    rintro rfl
    rw [Rcu.Domain.begin_waits_of_ne (by simp [Root.token])]
  top := (Sys.top_rcu _).ge

theorem Sound.finish (h : Sound life s) :
    Sound life { s with rcu := s.rcu.finish .sync } where
  rcu := h.rcu.finish
  live := h.live
  fresh := h.fresh
  root := fun r p => (Sys.root_rcu (s := s) _).symm ▸ h.root r p
  rooted := fun r => (Sys.root_rcu (s := s) _).symm ▸ h.rooted r
  fits := fun p foo r st hfoo hlife hst =>
    (Sys.top_rcu (s := s) _).symm ▸ h.fits p foo r st hfoo hlife hst
  retired := h.retired
  queued := fun p => by
    rw [Rcu.Domain.finish_waits_of_ne (by simp)]
    exact h.queued p

theorem Moved.finish (hover : s.rcu.waits .sync = some ∅) :
    Moved .list life s life { s with rcu := s.rcu.finish .sync } where
  move := .finish Token.sync hover
  others := fun _ _ _ _ _ => rfl
  values := (Moved.refl .list life s).values
  root := fun _ _ => Sys.root_rcu _
  sync := by simp
  top := (Sys.top_rcu _).ge

theorem Sound.listPrev (h : Sound life s) (l : Link) : Sound life { s with listPrev := l } :=
  ⟨h.rcu, h.live, h.fresh, h.root, h.rooted, h.fits, h.retired, h.queued⟩

theorem Moved.listPrev (l : Link) : Moved r life s life { s with listPrev := l } where
  move := .none
  others := fun _ _ _ _ _ => rfl
  values := (Moved.refl r life s).values
  root := fun r' _ => by cases r' <;> rfl
  sync := fun _ => Iff.rfl
  top := by cases r <;> exact le_rfl

/-- The memory without a block. -/
def Sys.drop (s : Sys) (p : Nat) (d : Rcu.Domain Task Token) : Sys :=
  { s with heap := Function.update s.heap p none, rcu := d }

variable {d : Rcu.Domain Task Token}

@[simp] theorem Sys.drop_root : (s.drop p d).root r = s.root r := by cases r <;> rfl
@[simp] theorem Sys.drop_rcu : (s.drop p d).rcu = d := rfl
@[simp] theorem Sys.drop_brk : (s.drop p d).brk = s.brk := rfl
@[simp] theorem Sys.drop_heap_self : (s.drop p d).heap p = none := Function.update_self ..

theorem Sys.drop_heap_of_ne (h : q ≠ p) : (s.drop p d).heap q = s.heap q :=
  Function.update_of_ne h ..

theorem Sound.drop_top (h : Sound life s) {t : Token} (hp : life p = some (r, .retired t)) :
    (s.drop p d).top r' = s.top r' := by
  obtain ⟨q, foo, hq, hlife, hfoo, -⟩ := h.exists_root r'
  have hne : q ≠ p := by
    rintro rfl
    rw [hp] at hlife
    cases hlife
  simp [Sys.top, hq, Sys.drop_heap_of_ne hne, hfoo]

/-- A block that is freed when its grace period is over. -/
theorem Sound.drop (h : Sound life s) {t : Token} (hp : life p = some (r, .retired t))
    (hd : d.Ok) (hwaits : ∀ q, q ≠ p → d.waits (.callback q) = s.rcu.waits (.callback q))
    (hdone : d.waits (.callback p) = none) :
    Sound (Function.update life p none) (s.drop p d) := by
  have hlinked : ∀ x r' st, (x = p → st ≠ .retired t) →
      (Function.update life p none x = some (r', st) ↔ life x = some (r', st)) := by
    intro x r' st hst
    by_cases hx : x = p
    · subst hx
      simp [hp, Ne.symm (hst rfl)]
    · rw [Function.update_of_ne hx]
  refine ⟨hd, fun x => ?_, fun x hx => ?_, fun r' x => ?_, fun r' => ?_, ?_, ?_, fun x => ?_⟩
  · by_cases hx : x = p
    · simp [hx]
    · rw [Sys.drop_heap_of_ne hx, Function.update_of_ne hx, h.live]
  · by_cases hxp : x = p
    · simp [hxp]
    · rw [Sys.drop_heap_of_ne hxp, h.fresh x hx]
  · rw [Sys.drop_root, hlinked x r' .linked (by simp), h.root]
  · rw [Sys.drop_root]
    exact h.rooted r'
  · intro x foo r' st hfoo hlife hst
    by_cases hx : x = p
    · simp [hx] at hlife
    · rw [Sys.drop_heap_of_ne hx] at hfoo
      rw [Function.update_of_ne hx] at hlife
      rw [h.drop_top hp]
      exact h.fits x foo r' st hfoo hlife hst
  · intro x r' t' hlife
    by_cases hx : x = p
    · simp [hx] at hlife
    · rw [Function.update_of_ne hx] at hlife
      exact h.retired x r' t' hlife
  · by_cases hx : x = p
    · simp [hx, hdone]
    · rw [Sys.drop_rcu, hwaits x hx, Function.update_of_ne hx]
      exact h.queued x

theorem Moved.drop {t : Token} (hs : Sound life s) (hp : life p = some (r, .retired t))
    (hmove : Move r s.rcu life d (Function.update life p none))
    (hsync : r = .pointer → (d.waits .sync = none ↔ s.rcu.waits .sync = none)) :
    Moved r life s (Function.update life p none) (s.drop p d) where
  move := hmove
  others := by
    intro r' x st hr hx
    refine Sys.drop_heap_of_ne fun hxp => hr ?_
    subst hxp
    rw [hp] at hx
    cases hx
    rfl
  values := by
    intro x st foo foo' _ _ hfoo hfoo'
    by_cases hx : x = p
    · simp [hx] at hfoo'
    · rw [Sys.drop_heap_of_ne hx, hfoo] at hfoo'
      cases hfoo'
      exact ⟨rfl, rfl, rfl⟩
  root := fun _ _ => Sys.drop_root
  sync := hsync
  top := (hs.drop_top hp).ge

end

end RcuDemo
