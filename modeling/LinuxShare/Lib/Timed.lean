-- SUMMARY: Programs that poll a line whose level changes over time, and rules for how they end.
import LinuxShare.Lib.Polling
import Mathlib.Algebra.Order.Ring.Defs
import Mathlib.Logic.Relation

/-!
# Polling in time

The line has a level at each time. A program takes no time but for its delays and its waits.
A wait that finds the level that it waits for is over at once; otherwise the level ends with
an edge, which the wait notices within a latency `d`. How late it notices is not known, so a
program has many runs, and the rules are about all of them.
-/

namespace Polling

universe u v

variable {T : Type v} [LinearOrder T]

/-- From `t` on the line keeps a level, and with `e` this ends. -/
structure Edge (wave : T → Bool) (level : Bool) (t e : T) : Prop where
  lt : t < e
  holds : ∀ x, t ≤ x → x < e → wave x = level
  ends : wave e ≠ level

namespace Edge

variable {wave : T → Bool} {level : Bool} {t e : T}

theorem wave_eq (h : Edge wave level t e) : wave t = level := h.holds t (le_refl t) h.lt

/-- An edge is the first one. -/
theorem unique {e' : T} (h : Edge wave level t e) (h' : Edge wave level t e') : e = e' := by
  rcases lt_trichotomy e e' with hlt | heq | hlt
  · exact absurd (h'.holds e h.lt.le hlt) h.ends
  · exact heq
  · exact absurd (h.holds e' h'.lt.le hlt) h'.ends

end Edge

namespace Poll

variable [Ring T] {α β : Type u} (wave : T → Bool) (d : T)

/-- What a program does next, and at what time it has done so. -/
inductive Step : Poll α × T → Poll α × T → Prop
  | sample (k : Bool → Poll α) (t : T) : Step (sample k, t) (k (wave t), t)
  | delay (us : Nat) (k : Poll α) (t : T) : Step (delay us k, t) (k, t + us)
  | pass {level : Bool} {t : T} (k : Poll α) (ht : wave t ≠ level) : Step (waitWhile level k, t) (k, t)
  | notice {level : Bool} {t e u : T} (k : Poll α) (hedge : Edge wave level t e) (hafter : e ≤ u)
      (hlate : u ≤ e + d) (hu : wave u ≠ level) : Step (waitWhile level k, t) (k, u)

/-- Every run ends, in a result and at a time for which `Q` holds. -/
inductive Ends (Q : α → T → Prop) : Poll α × T → Prop
  | done {a : α} {t : T} (ha : Q a t) : Ends Q (ret a, t)
  | later {c : Poll α × T} (hsome : ∃ c', Step wave d c c')
      (hall : ∀ c', Step wave d c c' → Ends Q c') : Ends Q c

variable {wave d} {Q : α → T → Prop} {R : β → T → Prop} {p k : Poll α} {f : α → Poll β} {level : Bool}
  {a : α} {t e : T} {us : Nat}

theorem ends_ret : Ends wave d Q (ret a, t) ↔ Q a t := by
  constructor
  · intro h
    cases h with
    | done ha => exact ha
    | later hsome => obtain ⟨c', hstep⟩ := hsome; cases hstep
  · exact .done

/-- Where there is one way to go on. -/
theorem ends_iff_of_step {c c' : Poll α × T} (hstep : Step wave d c c')
    (honly : ∀ c'', Step wave d c c'' → c'' = c') : Ends wave d Q c ↔ Ends wave d Q c' := by
  constructor
  · intro h
    cases h with
    | done ha => cases hstep
    | later _ hall => exact hall c' hstep
  · intro h
    refine .later ⟨c', hstep⟩ fun c'' hstep' => ?_
    rw [honly c'' hstep']
    exact h

theorem ends_sample {k : Bool → Poll α} : Ends wave d Q (sample k, t) ↔ Ends wave d Q (k (wave t), t) := by
  refine ends_iff_of_step (.sample k t) fun c'' hstep => ?_
  cases hstep
  rfl

theorem ends_delay : Ends wave d Q (delay us k, t) ↔ Ends wave d Q (k, t + us) := by
  refine ends_iff_of_step (.delay us k t) fun c'' hstep => ?_
  cases hstep
  rfl

/-- A wait for a level that is there. -/
theorem ends_pass (ht : wave t ≠ level) : Ends wave d Q (waitWhile level k, t) ↔ Ends wave d Q (k, t) := by
  refine ends_iff_of_step (.pass k ht) fun c'' hstep => ?_
  cases hstep with
  | pass => rfl
  | notice _ hedge => exact absurd hedge.wave_eq ht

/-- A wait for an edge to come. -/
theorem ends_notice [IsStrictOrderedRing T] (hd : 0 ≤ d) (hedge : Edge wave level t e) :
    Ends wave d Q (waitWhile level k, t) ↔
      ∀ u, e ≤ u → u ≤ e + d → wave u ≠ level → Ends wave d Q (k, u) := by
  constructor
  · intro h u hafter hlate hu
    cases h with
    | later _ hall => exact hall _ (.notice k hedge hafter hlate hu)
  · intro h
    have hlast : e ≤ e + d := le_add_of_nonneg_right hd
    refine .later ⟨_, .notice k hedge (le_refl e) hlast hedge.ends⟩ fun c' hstep => ?_
    cases hstep with
    | pass _ ht => exact absurd hedge.wave_eq ht
    | notice _ hedge' hafter hlate hu =>
        obtain rfl := hedge.unique hedge'
        exact h _ hafter hlate hu

theorem Ends.imp {Q' : α → T → Prop} {c : Poll α × T} (h : Ends wave d Q c) (himp : ∀ a t, Q a t → Q' a t) :
    Ends wave d Q' c := by
  induction h with
  | done ha => exact .done (himp _ _ ha)
  | later hsome _ ih => exact .later hsome ih

/-- The rule for one program after the other. -/
theorem Ends.bind (hp : Ends wave d Q (p, t)) (hf : ∀ a t', Q a t' → Ends wave d R (f a, t')) :
    Ends wave d R (p.bind f, t) := by
  induction p generalizing t with
  | ret a => exact hf a t (ends_ret.mp hp)
  | sample k ih => exact ends_sample.mpr (ih _ (ends_sample.mp hp))
  | delay us k ih => exact ends_delay.mpr (ih (ends_delay.mp hp))
  | waitWhile level k ih =>
      cases hp with
      | later hsome hall =>
          refine .later ?_ fun c' hstep => ?_
          · obtain ⟨c', hstep⟩ := hsome
            cases hstep with
            | pass _ ht => exact ⟨_, .pass _ ht⟩
            | notice _ hedge hafter hlate hu => exact ⟨_, .notice _ hedge hafter hlate hu⟩
          · cases hstep with
            | pass _ ht => exact ih (hall _ (.pass k ht))
            | notice _ hedge hafter hlate hu => exact ih (hall _ (.notice k hedge hafter hlate hu))

/-- The rule for a loop with an invariant. -/
theorem Ends.loop {f : Nat → β → Poll β} {I : Nat → β → T → Prop} {acc : β} (n : Nat) (hinit : I 0 acc t)
    (hstep : ∀ i < n, ∀ acc t, I i acc t → Ends wave d (I (i + 1)) (f i acc, t)) :
    Ends wave d (I n) (loop f acc n, t) := by
  induction n with
  | zero => exact .done hinit
  | succ n ih =>
      exact (ih fun i hi => hstep i (Nat.lt_succ_of_lt hi)).bind (hstep n (Nat.lt_succ_self n))

/-! ## Runs and samples -/

/-- `b` and then `s`. -/
def push (b : Bool) (s : Nat → Bool) : Nat → Bool
  | 0 => b
  | i + 1 => s i

theorem rest_push (b : Bool) (s : Nat → Bool) : rest 1 (push b s) = s := by
  funext i
  rw [rest, Nat.add_comm, push]

/-- What comes out in time comes out on the samples that have been taken. -/
theorem returns_of_steps {t' : T} {c : Poll α × T}
    (h : Relation.ReflTransGen (Step wave d) c (ret a, t')) : ∃ s, c.1.Returns s a := by
  induction h using Relation.ReflTransGen.head_induction_on with
  | refl => exact ⟨fun _ => true, returns_ret.mpr rfl⟩
  | head hstep _ ih =>
      obtain ⟨s, hret⟩ := ih
      cases hstep with
      | sample k t => exact ⟨push (wave t) s, returns_sample.mpr (by rwa [rest_push])⟩
      | delay us k t => exact ⟨s, returns_delay.mpr hret⟩
      | pass k ht => exact ⟨push (wave _) s, (returns_waitWhile_of_ne ht).mpr (by rwa [rest_push])⟩
      | notice k _ _ _ hu => exact ⟨push (wave _) s, (returns_waitWhile_of_ne hu).mpr (by rwa [rest_push])⟩

end Poll

end Polling
