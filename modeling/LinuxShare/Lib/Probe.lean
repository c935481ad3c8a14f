-- SUMMARY: Looking up one index after the other until the first miss: what that finds of a table.
import Mathlib.Algebra.Order.BigOperators.Group.List
import Mathlib.Algebra.Order.Group.Nat
import Mathlib.Data.List.Nodup
import Mathlib.Data.List.Perm.Lattice
import Mathlib.Order.Nat

/-!
# Probing a table

A table gives values to finitely many indices. A probe looks up the indices from 1 on and
stops at the first one that has no value. It always stops, and it has found the whole table
if and only if no index is missing below one that is in use.
-/

namespace Probe

variable {α : Type*}

/-- What is found from index `i` on, unless the rounds run out. -/
def probe (look : Nat → Option α) : Nat → Nat → Option (List (Nat × α))
  | 0, _ => none
  | rounds + 1, i =>
    match look i with
    | none => some []
    | some a => (probe look rounds (i + 1)).map ((i, a) :: ·)

/-- A probe that starts at 1 stops with these values. -/
def Finds (look : Nat → Option α) (out : List (Nat × α)) : Prop :=
  ∃ rounds, probe look rounds 1 = some out

/-- An index above 1 is in use only if the one below it is. -/
def Contiguous (indices : List Nat) : Prop := ∀ i, i + 2 ∈ indices → i + 1 ∈ indices

/-- The values of `n` indices from `i` on. -/
def hits (look : Nat → Option α) (i n : Nat) : List (Nat × α) :=
  (List.range' i n).filterMap fun j => (look j).map (j, ·)

/-- The value of an index in a table. -/
def value (table : List (Nat × α)) (j : Nat) : Option α := table.lookup j

variable {look : Nat → Option α} {out : List (Nat × α)} {i n : Nat}

theorem mem_hits {j : Nat} {a : α} :
    (j, a) ∈ hits look i n ↔ (i ≤ j ∧ j < i + n) ∧ look j = some a := by
  rw [hits, List.mem_filterMap]
  constructor
  · rintro ⟨j', hj', hmap⟩
    obtain ⟨a', hlook, heq⟩ := Option.map_eq_some_iff.mp hmap
    obtain ⟨rfl, rfl⟩ := Prod.mk.inj heq
    exact ⟨List.mem_range'_1.mp hj', hlook⟩
  · rintro ⟨hj, hlook⟩
    exact ⟨j, List.mem_range'_1.mpr hj, by rw [hlook, Option.map_some]⟩

theorem nodup_hits (look : Nat → Option α) (i n : Nat) : (hits look i n).Nodup := by
  refine List.Nodup.filterMap (fun j j' e hj hj' => ?_) List.nodup_range'
  obtain ⟨a, _, rfl⟩ := Option.map_eq_some_iff.mp hj
  obtain ⟨a', _, heq⟩ := Option.map_eq_some_iff.mp hj'
  exact (Prod.mk.inj heq).1.symm

/-- A probe that has rounds enough stops at the first miss. -/
theorem probe_eq {rounds : Nat} (hsome : ∀ j, i ≤ j → j < i + n → look j ≠ none)
    (hnone : look (i + n) = none) (hrounds : n < rounds) : probe look rounds i = some (hits look i n) := by
  induction n generalizing i rounds with
  | zero =>
      obtain ⟨rounds, rfl⟩ := Nat.exists_eq_succ_of_ne_zero (Nat.ne_of_gt hrounds)
      rw [Nat.add_zero] at hnone
      rw [probe, hnone]
      rfl
  | succ n ih =>
      obtain ⟨rounds, rfl⟩ := Nat.exists_eq_succ_of_ne_zero (Nat.ne_of_gt (Nat.zero_lt_of_lt hrounds))
      obtain ⟨a, ha⟩ := Option.ne_none_iff_exists'.mp (hsome i (Nat.le_refl i) (by omega))
      have hrest : probe look rounds (i + 1) = some (hits look (i + 1) n) :=
        ih (fun j hlo hhi => hsome j (by omega) (by omega)) (by rwa [Nat.add_right_comm]) (by omega)
      have hcons : hits look i (n + 1) = (i, a) :: hits look (i + 1) n := by
        rw [hits, List.range'_succ, List.filterMap_cons_some (by rw [ha, Option.map_some])]
        rfl
      rw [probe, ha, hcons]
      simp only [hrest, Option.map_some]

/-- What a probe finds does not depend on the rounds. -/
theorem probe_unique {rounds rounds' : Nat} {out' : List (Nat × α)} (h : probe look rounds i = some out)
    (h' : probe look rounds' i = some out') : out = out' := by
  induction rounds generalizing i rounds' out out' with
  | zero => cases h
  | succ rounds ih =>
      cases rounds' with
      | zero => cases h'
      | succ rounds' =>
          cases ha : look i with
          | none =>
              simp only [probe, ha, Option.some.injEq] at h h'
              exact h.symm.trans h'
          | some a =>
              simp only [probe, ha] at h h'
              obtain ⟨rest, hrest, rfl⟩ := Option.map_eq_some_iff.mp h
              obtain ⟨rest', hrest', rfl⟩ := Option.map_eq_some_iff.mp h'
              rw [ih hrest hrest']

theorem Finds.unique {out' : List (Nat × α)} (h : Finds look out) (h' : Finds look out') :
    out = out' := by
  obtain ⟨_, h⟩ := h
  obtain ⟨_, h'⟩ := h'
  exact probe_unique h h'

/-! ## Tables -/

variable {table : List (Nat × α)}

theorem value_eq_some_iff (hnodup : (table.map Prod.fst).Nodup) {j : Nat} {a : α} :
    value table j = some a ↔ (j, a) ∈ table := by
  simp only [value] at *
  induction table with
  | nil => simp
  | cons e table ih =>
      obtain ⟨k, b⟩ := e
      obtain ⟨hnot, hnodup⟩ := List.nodup_cons.mp hnodup
      rw [List.lookup_cons, List.mem_cons, Prod.mk.injEq]
      by_cases hjk : j = k
      · subst hjk
        have habsent : (j, a) ∉ table := fun hmem => hnot (List.mem_map.mpr ⟨(j, a), hmem, rfl⟩)
        simp [habsent, eq_comm]
      · have hne : (j == k) = false := beq_false_of_ne hjk
        rw [hne, ih hnodup]
        simp [hjk]

theorem value_eq_none_iff {j : Nat} : value table j = none ↔ j ∉ table.map Prod.fst := by
  rw [value, List.lookup_eq_none_iff]
  constructor
  · rintro h hmem
    obtain ⟨e, he, rfl⟩ := List.mem_map.mp hmem
    simpa using h e he
  · intro h e he
    exact bne_iff_ne.mpr fun heq => h (heq ▸ List.mem_map_of_mem he)

/-- There is a first index that has no value. -/
theorem exists_first_miss (table : List (Nat × α)) :
    ∃ n, 1 + n ∉ table.map Prod.fst ∧ ∀ j, 1 ≤ j → j < 1 + n → j ∈ table.map Prod.fst := by
  have hmiss : ∃ n, 1 + n ∉ table.map Prod.fst :=
    ⟨(table.map Prod.fst).sum, fun hmem => absurd (List.le_sum_of_mem hmem) (by omega)⟩
  refine ⟨Nat.find hmiss, Nat.find_spec hmiss, fun j hlo hhi => ?_⟩
  obtain ⟨j, rfl⟩ := Nat.exists_eq_add_of_le hlo
  exact not_not.mp (Nat.find_min hmiss (by omega))

/-- A probe finds the values below the first index that has none. -/
theorem finds_hits (hmiss : 1 + n ∉ table.map Prod.fst)
    (hbelow : ∀ j, 1 ≤ j → j < 1 + n → j ∈ table.map Prod.fst) :
    Finds (value table) (hits (value table) 1 n) :=
  ⟨n + 1, probe_eq (fun j hlo hhi hnone => value_eq_none_iff.mp hnone (hbelow j hlo hhi))
    (value_eq_none_iff.mpr hmiss) (Nat.lt_succ_self n)⟩

theorem exists_finds (table : List (Nat × α)) : ∃ out, Finds (value table) out := by
  obtain ⟨n, hmiss, hbelow⟩ := exists_first_miss table
  exact ⟨_, finds_hits hmiss hbelow⟩

/-- Without gaps, nothing is in use from the first miss on. -/
theorem Contiguous.lt {indices : List Nat} (h : Contiguous indices) (hmiss : 1 + n ∉ indices) {j : Nat}
    (hj : n < j) : j ∉ indices := by
  induction j, Nat.succ_le_of_lt hj using Nat.le_induction with
  | base => rwa [Nat.succ_eq_one_add]
  | succ j hle ih =>
      intro hmem
      obtain ⟨j, rfl⟩ := Nat.exists_eq_succ_of_ne_zero (by omega : j ≠ 0)
      exact ih (by omega) (h j hmem)

/-- What is found is the table if and only if no index is missing. -/
theorem Finds.perm_iff (h : Finds (value table) out) (hnodup : (table.map Prod.fst).Nodup)
    (hpos : ∀ e ∈ table, 0 < e.1) : out.Perm table ↔ Contiguous (table.map Prod.fst) := by
  obtain ⟨n, hmiss, hbelow⟩ := exists_first_miss table
  obtain rfl := h.unique (finds_hits hmiss hbelow)
  constructor
  · intro hperm i hi
    obtain ⟨⟨j, a⟩, he, hj⟩ := List.mem_map.mp hi
    obtain ⟨⟨_, hlt⟩, _⟩ := mem_hits.mp (hperm.mem_iff.mpr he)
    exact hbelow (i + 1) (by omega) (by simp only at hj; omega)
  · intro hcont
    rw [List.perm_ext_iff_of_nodup (nodup_hits _ _ _) hnodup.of_map]
    rintro ⟨j, a⟩
    rw [mem_hits, value_eq_some_iff hnodup]
    refine and_iff_right_of_imp fun hmem => ⟨hpos _ hmem, ?_⟩
    by_contra hge
    exact hcont.lt hmiss (by omega) (List.mem_map_of_mem hmem)

end Probe
