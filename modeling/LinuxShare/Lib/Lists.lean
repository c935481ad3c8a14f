-- SUMMARY: Facts about lists that grow at the end: their last elements, and their adjacent repetitions.
import Mathlib.Data.List.Destutter
import Mathlib.Data.List.Induction

/-!
# Growing lists

A run is a list of events to which one event is added at a time. These lemmas say
what the last event of a kind, and the events without adjacent repetitions, become
when one is added.
-/

namespace Lists

variable {α : Type}

/-- The last element with `p`. -/
def lastSuch (p : α → Bool) (l : List α) : Option α := (l.filter p).getLast?

@[simp] theorem lastSuch_nil (p : α → Bool) : lastSuch p [] = none := rfl

theorem lastSuch_append_singleton (p : α → Bool) (l : List α) (a : α) :
    lastSuch p (l ++ [a]) = if p a then some a else lastSuch p l := by
  unfold lastSuch
  rw [List.filter_append]
  split
  · next h => simp [h]
  · next h => simp [h]

theorem lastSuch_map {β : Type} (f : α → β) (p : β → Bool) (l : List α) :
    lastSuch p (l.map f) = (lastSuch (fun a => p (f a)) l).map f := by
  unfold lastSuch
  rw [List.filter_map, List.getLast?_map]
  rfl

theorem lastSuch_congr {p q : α → Bool} {l : List α} (h : ∀ a ∈ l, p a = q a) :
    lastSuch p l = lastSuch q l := by
  unfold lastSuch
  rw [List.filter_congr h]

theorem mem_of_lastSuch {p : α → Bool} {l : List α} {a : α} (h : lastSuch p l = some a) :
    a ∈ l ∧ p a = true :=
  List.mem_filter.mp (List.mem_of_getLast? h)

section Destutter

variable [DecidableEq α]

private theorem destutter'_ne_append_singleton (a : α) (l : List α) (c : α) :
    (l ++ [c]).destutter' (· ≠ ·) a =
      l.destutter' (· ≠ ·) a ++ if (a :: l).getLast? = some c then [] else [c] := by
  induction l generalizing a with
  | nil =>
      by_cases hac : a = c
      · simp [List.destutter', hac]
      · simp [List.destutter', hac]
  | cons b l ih =>
      have hlast : (a :: b :: l).getLast? = (b :: l).getLast? := List.getLast?_cons_cons
      rw [List.cons_append, List.destutter'_cons, List.destutter'_cons, hlast]
      by_cases hab : a = b
      · rw [if_neg (not_not.mpr hab), if_neg (not_not.mpr hab), hab, ih]
      · rw [if_pos hab, if_pos hab, ih, List.cons_append]

/-- One more element survives unless it repeats the last one. -/
theorem destutter_ne_append_singleton (l : List α) (c : α) :
    (l ++ [c]).destutter (· ≠ ·) =
      l.destutter (· ≠ ·) ++ if l.getLast? = some c then [] else [c] := by
  cases l with
  | nil => simp
  | cons a l => exact destutter'_ne_append_singleton a l c

end Destutter

/-! ## Along a list -/

/-- The place of the element with `p` that `n` others with `p` precede. -/
theorem exists_split_countP {p : α → Bool} {l : List α} {n : Nat} (h : n < l.countP p) :
    ∃ pre a post, l = pre ++ a :: post ∧ p a = true ∧ pre.countP p = n := by
  induction l generalizing n with
  | nil => exact absurd h (Nat.not_lt_zero n)
  | cons b l ih =>
      cases hb : p b with
      | false =>
          rw [List.countP_cons_of_neg (by simp [hb])] at h
          obtain ⟨pre, a, post, rfl, ha, hn⟩ := ih h
          exact ⟨b :: pre, a, post, rfl, ha, by rw [List.countP_cons_of_neg (by simp [hb]), hn]⟩
      | true =>
          rw [List.countP_cons_of_pos hb] at h
          cases n with
          | zero => exact ⟨[], b, l, rfl, hb, rfl⟩
          | succ n =>
              obtain ⟨pre, a, post, rfl, ha, hn⟩ := ih (Nat.lt_of_succ_lt_succ h)
              exact ⟨b :: pre, a, post, rfl, ha, by rw [List.countP_cons_of_pos hb, hn]⟩

/-- A suffix without `a` stands after every `a`. -/
theorem suffix_of_not_mem {a : α} {l pre post : List α} (h : l <:+ pre ++ a :: post) (ha : a ∉ l) :
    l <:+ post := by
  rcases List.suffix_or_suffix_of_suffix h (List.suffix_append pre (a :: post)) with hl | hl
  · rcases List.suffix_cons_iff.mp hl with rfl | hl
    · exact absurd List.mem_cons_self ha
    · exact hl
  · exact absurd (hl.mem List.mem_cons_self) ha

/-- What holds at every place of a list that is longer by one element. -/
theorem forall_split_append_singleton {P : List α → α → Prop} {l : List α} {a : α} :
    (∀ pre b post, l ++ [a] = pre ++ b :: post → P pre b) ↔
      (∀ pre b post, l = pre ++ b :: post → P pre b) ∧ P l a := by
  constructor
  · exact fun h => ⟨fun pre b post hsplit => h pre b (post ++ [a]) (by simp [hsplit]), h l a [] rfl⟩
  · rintro ⟨hl, ha⟩ pre b post hsplit
    rcases List.eq_nil_or_concat post with rfl | ⟨post, c, rfl⟩
    · obtain ⟨rfl, heq⟩ := List.append_inj' hsplit rfl
      obtain ⟨rfl, _⟩ := List.cons.inj heq
      exact ha
    · rw [List.concat_eq_append, ← List.cons_append, ← List.append_assoc] at hsplit
      exact hl pre b post (List.append_inj' hsplit rfl).1

end Lists
