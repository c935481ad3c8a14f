-- SUMMARY: Read-copy-update: read-side critical sections, grace periods, and the stages that a block goes through.
import Mathlib.Data.Finset.Basic
import Mathlib.Logic.Function.Basic
import Mathlib.Tactic.Common

/-!
# Read-copy-update

Readers mark the sections in which they use shared blocks. A writer takes a block out of reach,
waits for a grace period, and frees it. A grace period lasts until everyone who was reading when
it began has left the section. What a reader has come by is then never freed before it leaves.
-/

namespace Rcu

variable {ι τ B ω : Type*}

/-! ## Grace periods -/

/-- Who is reading, and for whom each grace period still waits. -/
structure Domain (ι τ : Type*) where
  readers : Finset ι
  waits : τ → Option (Finset ι)

namespace Domain

/-- No grace period waits for someone who is not reading. -/
def Ok (d : Domain ι τ) : Prop := ∀ t js, d.waits t = some js → js ⊆ d.readers

section

variable [DecidableEq ι] {d : Domain ι τ} {i : ι} {t : τ}

def lock (i : ι) (d : Domain ι τ) : Domain ι τ := { d with readers := insert i d.readers }

def unlock (i : ι) (d : Domain ι τ) : Domain ι τ where
  readers := d.readers.erase i
  waits := fun t => (d.waits t).map (·.erase i)

@[simp] theorem lock_readers : (d.lock i).readers = insert i d.readers := rfl
@[simp] theorem lock_waits : (d.lock i).waits = d.waits := rfl
@[simp] theorem unlock_readers : (d.unlock i).readers = d.readers.erase i := rfl

theorem unlock_waits_eq_none : (d.unlock i).waits t = none ↔ d.waits t = none := by
  simp [unlock]

theorem Ok.lock (h : d.Ok) : (d.lock i).Ok :=
  fun t js hjs => (h t js hjs).trans (Finset.subset_insert i _)

theorem Ok.unlock (h : d.Ok) : (d.unlock i).Ok := by
  intro t js hjs
  obtain ⟨ks, hks, rfl⟩ := Option.map_eq_some_iff.mp hjs
  exact Finset.erase_subset_erase i (h t ks hks)

end

section

variable [DecidableEq τ] {d : Domain ι τ} {s t : τ}

/-- A grace period begins. -/
def begin (t : τ) (d : Domain ι τ) : Domain ι τ :=
  { d with waits := Function.update d.waits t (some d.readers) }

/-- A grace period ends. -/
def finish (t : τ) (d : Domain ι τ) : Domain ι τ :=
  { d with waits := Function.update d.waits t none }

@[simp] theorem begin_readers : (d.begin t).readers = d.readers := rfl
@[simp] theorem finish_readers : (d.finish t).readers = d.readers := rfl
@[simp] theorem begin_waits_self : (d.begin t).waits t = some d.readers := Function.update_self ..
@[simp] theorem finish_waits_self : (d.finish t).waits t = none := Function.update_self ..

theorem begin_waits_of_ne (h : s ≠ t) : (d.begin t).waits s = d.waits s :=
  Function.update_of_ne h ..

theorem finish_waits_of_ne (h : s ≠ t) : (d.finish t).waits s = d.waits s :=
  Function.update_of_ne h ..

theorem Ok.begin (h : d.Ok) : (d.begin t).Ok := by
  intro s js hjs
  by_cases hs : s = t
  · subst hs
    rw [begin_waits_self] at hjs
    exact (Option.some.inj hjs).ge
  · exact h s js ((begin_waits_of_ne hs).symm.trans hjs)

theorem Ok.finish (h : d.Ok) : (d.finish t).Ok := by
  intro s js hjs
  by_cases hs : s = t
  · subst hs
    rw [finish_waits_self] at hjs
    cases hjs
  · exact h s js ((finish_waits_of_ne hs).symm.trans hjs)

end

end Domain

/-! ## The stages of a block -/

/-- What its writer has done with a block: nobody else knows it yet, a reader can come by it,
only those who have can still use it, or it waits for a grace period to be freed. -/
inductive Stage (τ : Type*)
  | owned
  | linked
  | unlinked
  | retired (t : τ)

/-- Whose a block is, and its stage. There is none before it is allocated and after it is
freed. -/
abbrev Life (B ω τ : Type*) := B → Option (ω × Stage τ)

/-- A reader may be using a block in this stage, and what it uses is not freed before it
leaves. -/
@[simp] def Domain.Protects (d : Domain ι τ) (i : ι) : Stage τ → Prop
  | .owned => False
  | .linked | .unlinked => i ∈ d.readers
  | .retired t => i ∈ d.readers ∧ ∃ js, d.waits t = some js ∧ i ∈ js

/-- The block is one of `w`'s, and `i` is protected in using it. -/
def Protected (d : Domain ι τ) (life : Life B ω τ) (i : ι) (w : ω) (b : B) : Prop :=
  ∃ st, life b = some (w, st) ∧ d.Protects i st

variable {d d' : Domain ι τ} {life life' : Life B ω τ} {i j : ι} {t : τ} {st : Stage τ}
  {w w' : ω} {b c : B}

theorem Domain.Protects.reading (h : d.Protects i st) : i ∈ d.readers := by
  cases st with
  | owned => exact h.elim
  | retired t => exact h.1
  | _ => exact h

theorem Protected.reading (h : Protected d life i w b) : i ∈ d.readers :=
  h.choose_spec.2.reading

section

variable [DecidableEq ι]

theorem Domain.Protects.lock (h : d.Protects i st) (j : ι) : (d.lock j).Protects i st := by
  cases st with
  | owned => exact h
  | retired t => exact ⟨Finset.mem_insert_of_mem h.1, h.2⟩
  | _ => exact Finset.mem_insert_of_mem h

theorem Domain.Protects.unlock (h : d.Protects i st) (hij : i ≠ j) :
    (d.unlock j).Protects i st := by
  cases st with
  | owned => exact h
  | retired t =>
      obtain ⟨hi, js, hjs, hmem⟩ := h
      exact ⟨Finset.mem_erase.mpr ⟨hij, hi⟩, js.erase j, by simp [Domain.unlock, hjs],
        Finset.mem_erase.mpr ⟨hij, hmem⟩⟩
  | _ => exact Finset.mem_erase.mpr ⟨hij, h⟩

theorem Protected.lock (h : Protected d life i w b) (j : ι) :
    Protected (d.lock j) life i w b := by
  obtain ⟨st, hst, hp⟩ := h
  exact ⟨st, hst, hp.lock j⟩

theorem Protected.unlock (h : Protected d life i w b) (hij : i ≠ j) :
    Protected (d.unlock j) life i w b := by
  obtain ⟨st, hst, hp⟩ := h
  exact ⟨st, hst, hp.unlock hij⟩

end

section

variable [DecidableEq τ]

theorem Domain.Protects.begin (h : d.Protects i st) (t : τ) : (d.begin t).Protects i st := by
  cases st with
  | retired s =>
      refine ⟨h.1, ?_⟩
      by_cases hs : s = t
      · subst hs
        exact ⟨d.readers, begin_waits_self, h.1⟩
      · rw [begin_waits_of_ne hs]
        exact h.2
  | _ => exact h

/-- A grace period that is over has waited for everyone who is protected by it. -/
theorem Domain.Protects.finish (h : d.Protects i st) (hover : d.waits t = some ∅) :
    (d.finish t).Protects i st := by
  cases st with
  | retired s =>
      obtain ⟨hi, js, hjs, hmem⟩ := h
      have hs : s ≠ t := by
        rintro rfl
        rw [hover] at hjs
        cases hjs
        simp at hmem
      exact ⟨hi, js, (finish_waits_of_ne hs).trans hjs, hmem⟩
  | _ => exact h

/-! ## What a writer may do -/

variable [DecidableEq B]

/-- What a writer does with its blocks: it allocates one, puts it in the place of another one,
retires the one that was replaced, and frees it when the grace period is over: after it has
waited for the end, or in a callback. -/
inductive Move (w : ω) (d : Domain ι τ) (life : Life B ω τ) : Domain ι τ → Life B ω τ → Prop
  | none : Move w d life d life
  | alloc (b : B) (h : life b = Option.none) :
      Move w d life d (Function.update life b (some (w, .owned)))
  | replace (b c : B) (hb : life b = some (w, .linked)) (hc : life c = some (w, .owned)) :
      Move w d life d
        (Function.update (Function.update life b (some (w, .unlinked))) c (some (w, .linked)))
  | retire (b : B) (t : τ) (hb : life b = some (w, .unlinked)) :
      Move w d life (d.begin t) (Function.update life b (some (w, .retired t)))
  | finish (t : τ) (h : d.waits t = some ∅) : Move w d life (d.finish t) life
  | free (b : B) (t : τ) (hb : life b = some (w, .retired t)) (ht : d.waits t = Option.none) :
      Move w d life d (Function.update life b Option.none)
  | reclaim (b : B) (t : τ) (hb : life b = some (w, .retired t)) (h : d.waits t = some ∅) :
      Move w d life (d.finish t) (Function.update life b Option.none)

/-- What a reader is using stays its writer's, and in a stage that protects it. -/
theorem Move.protected (h : Move w d life d' life') (hp : Protected d life i w' b) :
    Protected d' life' i w' b := by
  obtain ⟨st, hst, hprot⟩ := hp
  cases h with
  | none => exact ⟨st, hst, hprot⟩
  | alloc c hc =>
      have hne : b ≠ c := by
        rintro rfl
        rw [hc] at hst
        cases hst
      exact ⟨st, (Function.update_of_ne hne ..).trans hst, hprot⟩
  | replace c c' hc hc' =>
      have hne' : b ≠ c' := by
        rintro rfl
        rw [hc'] at hst
        cases hst
        exact hprot.elim
      by_cases hne : b = c
      · subst hne
        rw [hc] at hst
        cases hst
        exact ⟨.unlinked, by rw [Function.update_of_ne hne', Function.update_self], hprot⟩
      · exact ⟨st, by rw [Function.update_of_ne hne', Function.update_of_ne hne, hst], hprot⟩
  | retire c t hc =>
      by_cases hne : b = c
      · subst hne
        rw [hc] at hst
        cases hst
        exact ⟨.retired t, Function.update_self .., hprot, d.readers, Domain.begin_waits_self,
          hprot⟩
      · exact ⟨st, (Function.update_of_ne hne ..).trans hst, hprot.begin t⟩
  | finish t hover => exact ⟨st, hst, hprot.finish hover⟩
  | free c t hc ht =>
      have hne : b ≠ c := by
        rintro rfl
        rw [hc] at hst
        cases hst
        obtain ⟨-, js, hjs, -⟩ := hprot
        rw [ht] at hjs
        cases hjs
      exact ⟨st, (Function.update_of_ne hne ..).trans hst, hprot⟩
  | reclaim c t hc hover =>
      have hne : b ≠ c := by
        rintro rfl
        rw [hc] at hst
        cases hst
        obtain ⟨-, js, hjs, hmem⟩ := hprot
        rw [hover] at hjs
        cases hjs
        simp at hmem
      exact ⟨st, (Function.update_of_ne hne ..).trans hst, hprot.finish hover⟩

/-- The blocks of the other writers are left alone. -/
theorem Move.other (h : Move w d life d' life') (hw : w' ≠ w) :
    life' b = some (w', st) ↔ life b = some (w', st) := by
  have hkeep : ∀ {m : Life B ω τ} {c : B} {x : Option (ω × Stage τ)},
      (∀ st', m c ≠ some (w', st')) → (∀ st', x ≠ some (w', st')) →
      (Function.update m c x b = some (w', st) ↔ m b = some (w', st)) := by
    intro m c x hm hx
    by_cases hb : b = c
    · subst hb
      rw [Function.update_self]
      exact ⟨fun h => absurd h (hx st), fun h => absurd h (hm st)⟩
    · rw [Function.update_of_ne hb]
  have hown : ∀ st' st'' : Stage τ, some (w, st') ≠ some (w', st'') := by
    intro st' st'' heq
    exact hw (Prod.mk.inj (Option.some.inj heq)).1.symm
  cases h with
  | none => exact Iff.rfl
  | alloc c hc => exact hkeep (by simp [hc]) (hown _)
  | replace c c' hc hc' =>
      refine (hkeep (fun st' => ?_) (hown _)).trans (hkeep (fun st' => hc ▸ hown _ _) (hown _))
      by_cases hcc : c' = c
      · rw [hcc, Function.update_self]
        exact hown _ _
      · rw [Function.update_of_ne hcc, hc']
        exact hown _ _
  | retire c t hc => exact hkeep (fun st' => hc ▸ hown _ _) (hown _)
  | finish t _ => exact Iff.rfl
  | free c t hc _ => exact hkeep (fun st' => hc ▸ hown _ _) (by simp)
  | reclaim c t hc _ => exact hkeep (fun st' => hc ▸ hown _ _) (by simp)

theorem Move.ok (h : Move w d life d' life') (hd : d.Ok) : d'.Ok := by
  cases h with
  | retire => exact hd.begin
  | finish => exact hd.finish
  | reclaim => exact hd.finish
  | _ => exact hd

theorem Move.readers (h : Move w d life d' life') : d'.readers = d.readers := by
  cases h <;> rfl

end

end Rcu
