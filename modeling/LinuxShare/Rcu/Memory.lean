-- SUMMARY: No block of the RCU demo is lost, what `rcu_test_exit` frees is all of them, and only readers hold an updater up.
import LinuxShare.Rcu.Safety

/-!
# Memory

A block that is allocated is at a root, in the hands of an updater, or waits for its callback.
-/

namespace RcuDemo

/-- The block is one of those in hand. -/
def Hand.Has (h : Hand) (b : Nat) : Prop :=
  h.owned = some b ∨ h.unlinked = some b ∨ h.retired = some b

def Hand.empty : Hand := ⟨none, none, none⟩

section

variable {life : Life} {p : Pool.Config Task Sys Local} {b : Nat}

theorem Hand.not_has_empty : ¬ Hand.empty.Has b := by
  simp [Has, empty]

theorem hand_of_not_updater {i : Task} {l : Local} (hrole : l.Of i) (hi : ∀ r : Root, r.updater ≠ i) :
    l.hand = Hand.empty := by
  cases l with
  | updater cnt value pc => exact absurd hrole.symm (hi .pointer)
  | updaterList cnt value pc => exact absurd hrole.symm (hi .list)
  | _ => rfl

/-- Where a block is whose stage is known. -/
theorem found_of_life (hp : Pool.Holds (Sound life) (Owns life) p) {r : Root} {st : Stage}
    (hb : life b = some (r, st)) :
    p.shared.root r = some b ∨ p.shared.rcu.waits (.callback b) ≠ none ∨
      (p.locals r.updater).hand.Has b := by
  have hhand := (hp.locals r.updater).hand r rfl
  cases st with
  | owned => exact .inr (.inr (.inl ((hhand.owned b).mp hb)))
  | linked => exact .inl ((hp.shared.root r b).mpr hb)
  | unlinked => exact .inr (.inr (.inr (.inl ((hhand.unlinked b).mp hb))))
  | retired t =>
      obtain rfl := hp.shared.retired b r t hb
      cases r with
      | pointer => exact .inr (.inl ((hp.shared.queued b).mpr hb))
      | list => exact .inr (.inr (.inr (.inr ((hhand.retired b).mp hb))))

theorem life_of_hand (hp : Pool.Holds (Sound life) (Owns life) p) {i : Task}
    (hb : (p.locals i).hand.Has b) : ∃ r st, life b = some (r, st) := by
  by_cases hi : ∃ r : Root, r.updater = i
  · obtain ⟨r, rfl⟩ := hi
    have hhand := (hp.locals r.updater).hand r rfl
    rcases hb with hb | hb | hb
    · exact ⟨r, _, (hhand.owned b).mpr hb⟩
    · exact ⟨r, _, (hhand.unlinked b).mpr hb⟩
    · exact ⟨r, _, (hhand.retired b).mpr hb⟩
  · rw [hand_of_not_updater (hp.locals i).role fun r hr => hi ⟨r, hr⟩] at hb
    exact absurd hb Hand.not_has_empty

theorem heap_iff_found (hp : Pool.Holds (Sound life) (Owns life) p) (b : Nat) :
    p.shared.heap b ≠ none ↔
      (∃ r, p.shared.root r = some b) ∨ p.shared.rcu.waits (.callback b) ≠ none ∨
        ∃ i, (p.locals i).hand.Has b := by
  rw [Ne, hp.shared.live b]
  constructor
  · intro hb
    obtain ⟨⟨r, st⟩, hb⟩ := Option.ne_none_iff_exists'.mp hb
    rcases found_of_life hp hb with h | h | h
    · exact .inl ⟨r, h⟩
    · exact .inr (.inl h)
    · exact .inr (.inr ⟨_, h⟩)
  · rintro (⟨r, hr⟩ | hq | ⟨i, hi⟩) hnone
    · rw [(hp.shared.root r b).mp hr] at hnone
      cases hnone
    · rw [(hp.shared.queued b).mp hq] at hnone
      cases hnone
    · obtain ⟨r, st, hb⟩ := life_of_hand hp hi
      rw [hb] at hnone
      cases hnone

theorem Sys.kfree_eq {s : Sys} {q : Nat} {foo : Foo} (h : s.heap q = some foo) :
    s.kfree (some q) = some (s.drop q s.rcu) := by
  rw [kfree, h]
  rfl

/-- `rcu_test_exit` frees the blocks at the two roots, which are not the same. -/
theorem rcuTestExit_of_holds (hp : Pool.Holds (Sound life) (Owns life) p) :
    ∃ s, rcuTestExit p.shared = some s ∧
      ∀ b, s.heap b ≠ none → p.shared.heap b ≠ none ∧ ∀ r, p.shared.root r ≠ some b := by
  obtain ⟨g, foo, hg, hglife, hgfoo, -⟩ := hp.shared.exists_root .pointer
  obtain ⟨n, foo', hn, hnlife, hnfoo, -⟩ := hp.shared.exists_root .list
  have hne : n ≠ g := by
    rintro rfl
    rw [hglife] at hnlife
    cases hnlife
  have hfirst : (p.shared.drop g p.shared.rcu).listFirstOrNullRcu = some n := hn
  refine ⟨(p.shared.drop g p.shared.rcu).drop n p.shared.rcu, ?_, fun b hb => ?_⟩
  · rw [rcuTestExit, show p.shared.gPfoo = some g from hg, Sys.kfree_eq hgfoo,
      Option.bind_eq_bind, Option.bind_some, hfirst,
      Sys.kfree_eq ((Sys.drop_heap_of_ne hne).trans hnfoo)]
    rfl
  · have hbn : b ≠ n := by
      rintro rfl
      exact hb Sys.drop_heap_self
    rw [Sys.drop_heap_of_ne hbn] at hb
    have hbg : b ≠ g := by
      rintro rfl
      exact hb Sys.drop_heap_self
    rw [Sys.drop_heap_of_ne hbg] at hb
    refine ⟨hb, fun r hr => ?_⟩
    cases r with
    | pointer => exact hbg (Option.some.inj (hr.symm.trans hg))
    | list => exact hbn (Option.some.inj (hr.symm.trans hn))

/-! ## Waiting -/

theorem rcuUpdaterList_isSome {cnt : Nat} {value : Int} {e : Choice} {s : Sys}
    {pc : UpdaterListPc} (h : (∀ q, pc ≠ .wait q) ∨ s.rcu.waits .sync = some ∅) :
    (rcuUpdaterList e cnt value s pc).isSome = true := by
  cases pc with
  | wait q =>
      have hover : s.rcu.waits .sync = some ∅ := h.resolve_left fun hne => hne q rfl
      rw [rcuUpdaterList, if_pos hover]
      rfl
  | _ => rfl

/-- Who is reading can go on. -/
theorem act_isSome_of_reading (hp : Pool.Holds (Sound life) (Owns life) p) {i : Task}
    (hi : i ∈ p.shared.rcu.readers) (e : Choice) :
    (act i e (p.locals i) p.shared).isSome = true := by
  have hinside := ((hp.locals i).inside).mp hi
  cases hl : p.locals i with
  | reader cnt pc => rfl
  | readerList cnt pc => rfl
  | _ =>
      rw [hl] at hinside
      cases hinside

end

/-- In every run, the blocks that are allocated are those at a root, in hand, or waiting for a
callback; and when none is in hand and none waits, `rcu_test_exit` frees the rest of them. -/
theorem no_block_lost (es : List Event) :
    (∀ b, (run es).shared.heap b ≠ none ↔
      (∃ r, (run es).shared.root r = some b) ∨ (run es).shared.rcu.waits (.callback b) ≠ none ∨
        ∃ i, ((run es).locals i).hand.Has b) ∧
      ((∀ i, ((run es).locals i).hand = Hand.empty) ∧
          (∀ b, (run es).shared.rcu.waits (.callback b) = none) →
        ∃ s, rcuTestExit (run es).shared = some s ∧ ∀ b, s.heap b = none) := by
  obtain ⟨life, hp⟩ := owned_run es
  refine ⟨heap_iff_found hp, fun ⟨hhand, hwaits⟩ => ?_⟩
  obtain ⟨s, hs, hrest⟩ := rcuTestExit_of_holds hp
  refine ⟨s, hs, fun b => by_contra fun hb => ?_⟩
  obtain ⟨hlive, hroot⟩ := hrest b hb
  rcases (heap_iff_found hp b).mp hlive with ⟨r, hr⟩ | hq | ⟨i, hi⟩
  · exact hroot r hr
  · exact hq (hwaits b)
  · rw [hhand i] at hi
    exact Hand.not_has_empty hi

/-- In every state of every run, a thread that has neither returned nor failed can take its next
step, or is the list updater in `synchronize_rcu`, and waits for a reader that can take its next
one. -/
theorem waits_only_for_readers (es : List Event) (i : Task) (e : Choice) :
    (run es).locals i = .returned ∨ (run es).locals i = .oops ∨
      (act i e ((run es).locals i) (run es).shared).isSome = true ∨
      (i = .updaterList ∧ ∃ cnt value q, (run es).locals i = .updaterList cnt value (.wait q)) ∧
        ∃ js j, (run es).shared.rcu.waits .sync = some js ∧ j ∈ js ∧
          ((run es).locals j).inside = true ∧
          (act j e ((run es).locals j) (run es).shared).isSome = true := by
  obtain ⟨life, hp⟩ := owned_run es
  generalize run es = p at hp
  have hown := hp.locals i
  cases hl : p.locals i with
  | reader cnt pc => exact .inr (.inr (.inl rfl))
  | updater cnt value pc => exact .inr (.inr (.inl rfl))
  | readerList cnt pc => exact .inr (.inr (.inl rfl))
  | returned => exact .inl rfl
  | oops => exact .inr (.inl rfl)
  | updaterList cnt value pc =>
      right; right
      rw [hl] at hown
      obtain rfl : i = .updaterList := hown.role
      by_cases hpc : ∀ q, pc ≠ .wait q
      · exact .inl (rcuUpdaterList_isSome (.inl hpc))
      · obtain ⟨q, rfl⟩ : ∃ q, pc = .wait q := by simpa using hpc
        have hwaits : p.shared.rcu.waits .sync ≠ none := fun hnone => by
          simpa using (hown.waits rfl).mp hnone
        obtain ⟨js, hjs⟩ := Option.ne_none_iff_exists'.mp hwaits
        rcases js.eq_empty_or_nonempty with rfl | ⟨j, hj⟩
        · have hgo : (rcuUpdaterList e cnt value p.shared (.wait q)).isSome = true :=
            rcuUpdaterList_isSome (.inr hjs)
          exact .inl hgo
        · have hreading := hp.shared.rcu .sync js hjs hj
          exact .inr ⟨⟨rfl, cnt, value, q, rfl⟩, js, j, hjs, hj,
            (hp.locals j).inside.mp hreading, act_isSome_of_reading hp hreading e⟩

end RcuDemo
