-- SUMMARY: Data that arrive in chunks over time, and a reader that stops as soon as it finds nothing.
import Mathlib.Data.List.TakeWhile
import Mathlib.Order.Lattice
import Mathlib.Order.Monotone.Basic
import Mathlib.Tactic.Common

/-!
# Streams and readers that do not wait

The writer of a stream sends chunks and then closes it. A reader looks at the stream at
times of its own and each time takes what is there. If it does not wait, it stops the first
time that nothing is there, whether or not more is to come.
-/

namespace Stream

variable {T α : Type*} [LinearOrder T]

/-- Chunks with the times at which they arrive, and the end of the stream after them. -/
structure Delivery (T α : Type*) [LinearOrder T] where
  chunks : List (T × List α)
  eof : T
  sorted : (chunks.map Prod.fst ++ [eof]).Pairwise (· ≤ ·)
  nonempty : ∀ c ∈ chunks, c.2 ≠ []

namespace Delivery

variable (d : Delivery T α)

/-- All that is sent. -/
def output : List α := d.chunks.flatMap Prod.snd

/-- What has arrived at time `t`. -/
def arrived (t : T) : List α := (d.chunks.takeWhile fun c => c.1 ≤ t).flatMap Prod.snd

/-- When there is something to be seen for the first time: data, or the end of the stream. -/
def ready : T :=
  match d.chunks with
  | [] => d.eof
  | c :: _ => c.1

theorem arrived_prefix (t : T) : d.arrived t <+: d.output := by
  obtain ⟨rest, hrest⟩ := List.takeWhile_prefix (l := d.chunks) fun c => decide (c.1 ≤ t)
  refine ⟨rest.flatMap Prod.snd, ?_⟩
  rw [arrived, output, ← List.flatMap_append, hrest]

theorem arrived_eq_take (t : T) : d.arrived t = d.output.take (d.arrived t).length :=
  List.prefix_iff_eq_take.mp (d.arrived_prefix t)

end Delivery

variable {d : Delivery T α} {clock : Nat → T}

/-- How much has arrived when the reader has looked `k` times. -/
def seen (d : Delivery T α) (clock : Nat → T) : Nat → Nat
  | 0 => 0
  | k + 1 => (d.arrived (clock k)).length

/-- Whenever the reader looks again, there is more, until `need` elements have arrived. -/
def Steady (d : Delivery T α) (clock : Nat → T) (need : Nat) : Prop :=
  ∀ k, seen d clock k < need → seen d clock k < seen d clock (k + 1)

/-- Read up to `n` elements, of which `got` have been read in the first `k` looks. -/
def readUpTo (d : Delivery T α) (clock : Nat → T) (n k : Nat) (got : List α) : List α :=
  if got.length < n then
    match ((d.arrived (clock k)).drop got.length).take (n - got.length) with
    | [] => got
    | a :: as => readUpTo d clock n (k + 1) (got ++ a :: as)
  else got
termination_by n - got.length
decreasing_by
  simp only [List.length_append, List.length_cons]
  omega

/-! ## How far the reader gets -/

theorem length_arrived_mono (d : Delivery T α) {t t' : T} (h : t ≤ t') :
    (d.arrived t).length ≤ (d.arrived t').length := by
  have hbegin : ∀ cs : List (T × List α),
      ((cs.takeWhile fun c => decide (c.1 ≤ t)).flatMap Prod.snd).length ≤
        ((cs.takeWhile fun c => decide (c.1 ≤ t')).flatMap Prod.snd).length := by
    intro cs
    induction cs with
    | nil => exact Nat.le_refl _
    | cons c cs ih =>
        by_cases hc : c.1 ≤ t
        · simp only [List.takeWhile_cons, hc, hc.trans h, decide_true, if_true, List.flatMap_cons,
            List.length_append]
          omega
        · simp [List.takeWhile_cons, hc]
  exact hbegin d.chunks

theorem seen_mono (hclock : Monotone clock) : Monotone (seen d clock) := by
  refine monotone_nat_of_le_succ fun k => ?_
  cases k with
  | zero => exact Nat.zero_le _
  | succ k => exact length_arrived_mono d (hclock (Nat.le_succ k))

theorem seen_le (d : Delivery T α) (clock : Nat → T) (k : Nat) : seen d clock k ≤ d.output.length := by
  cases k with
  | zero => exact Nat.zero_le _
  | succ k => exact (d.arrived_prefix (clock k)).length_le

theorem length_take_seen (n k : Nat) :
    (d.output.take (min n (seen d clock k))).length = min n (seen d clock k) := by
  have hle := seen_le d clock k
  rw [List.length_take]
  omega

/-- What the reader has after another look, if it has found something or there was nothing new. -/
theorem append_look {t : T} {n : Nat} {got : List α} (hgot : got = d.output.take got.length)
    (hle : got.length ≤ n) (hmore : got.length ≤ (d.arrived t).length) :
    got ++ ((d.arrived t).drop got.length).take (n - got.length) = (d.arrived t).take n := by
  have hbegin : got = (d.arrived t).take got.length := by
    rw [d.arrived_eq_take t, List.take_take, Nat.min_eq_left hmore]
    exact hgot
  conv_lhs =>
    enter [1]
    rw [hbegin]
  rw [← List.take_add, Nat.add_sub_cancel' hle]

/-- The reader finds nothing just when no more has arrived than it has. -/
theorem look_eq_nil_iff {t : T} {n m : Nat} (hlt : m < n) :
    ((d.arrived t).drop m).take (n - m) = [] ↔ (d.arrived t).length ≤ m := by
  rw [List.take_eq_nil_iff, List.drop_eq_nil_iff]
  omega

theorem take_arrived (t : T) (n : Nat) :
    (d.arrived t).take n = d.output.take (min n (d.arrived t).length) := by
  conv_lhs => rw [d.arrived_eq_take t, List.take_take]

/-- What the reader has after a look that finds something. -/
theorem append_new {t : T} {n : Nat} {got as : List α} {a : α} (hgot : got = d.output.take got.length)
    (hlt : got.length < n) (hnew : ((d.arrived t).drop got.length).take (n - got.length) = a :: as) :
    got ++ a :: as = d.output.take (min n (d.arrived t).length) := by
  have hmore : ¬ (d.arrived t).length ≤ got.length := by
    rw [← look_eq_nil_iff hlt, hnew]
    exact List.cons_ne_nil a as
  rw [← hnew, append_look hgot (by omega) (by omega), take_arrived]

/-- The reader has all that it needs in the end, just when at each look until then there is more
than at the one before. -/
theorem le_length_readUpTo_iff (hclock : Monotone clock) {n need : Nat} (hneed : need ≤ n) {k : Nat}
    {got : List α} (hgot : got = d.output.take (min n (seen d clock k))) :
    need ≤ (readUpTo d clock n k got).length ↔
      ∀ j, k ≤ j → seen d clock j < need → seen d clock j < seen d clock (j + 1) := by
  have hgotlen : got.length = min n (seen d clock k) := by rw [hgot, length_take_seen]
  fun_induction readUpTo d clock n k got with
  | case1 k got hlt hnil =>
      -- the reader gives up: nothing has come since the last look
      have hsame : seen d clock (k + 1) ≤ seen d clock k := by
        have hnone := (look_eq_nil_iff hlt).mp hnil
        have hseen : seen d clock (k + 1) = (d.arrived (clock k)).length := rfl
        omega
      constructor
      · intro hhas j hj hshort
        have hmono := seen_mono (d := d) hclock hj
        omega
      · intro hsteady
        by_contra hshort
        have hmore := hsteady k (Nat.le_refl k) (by omega)
        omega
  | case2 k got hlt a as hnew ih =>
      have hself : got = d.output.take got.length := by rw [hgotlen, ← hgot]
      have hnext : got ++ a :: as = d.output.take (min n (seen d clock (k + 1))) :=
        append_new hself hlt hnew
      have hgrow : (got ++ a :: as).length = min n (seen d clock (k + 1)) := by
        rw [hnext, length_take_seen]
      refine (ih hnext hgrow).trans ?_
      rw [List.length_append, List.length_cons] at hgrow
      constructor
      · intro hsteady j hj hshort
        rcases Nat.eq_or_lt_of_le hj with rfl | hj
        · omega
        · exact hsteady j hj hshort
      · exact fun hsteady j hj hshort => hsteady j (by omega) hshort
  | case3 k got hnot =>
      have henough : n ≤ seen d clock k := by omega
      refine iff_of_true (by omega) fun j hj hshort => ?_
      have hmono := seen_mono (d := d) hclock hj
      omega

/-- The reader yields a part of the output from its beginning on. -/
theorem readUpTo_eq_take {n k : Nat} {got : List α} (hgot : got = d.output.take got.length)
    (hle : got.length ≤ n) :
    readUpTo d clock n k got = d.output.take (readUpTo d clock n k got).length ∧
      (readUpTo d clock n k got).length ≤ n := by
  fun_induction readUpTo d clock n k got with
  | case1 k got hlt hnil => exact ⟨hgot, hle⟩
  | case2 k got hlt a as hnew ih =>
      have hnext := append_new hgot hlt hnew
      have hbegin := (d.arrived_prefix (clock k)).length_le
      have hlen : (got ++ a :: as).length = min n (d.arrived (clock k)).length := by
        rw [hnext, List.length_take]
        omega
      exact ih (by rw [hlen, ← hnext]) (by omega)
  | case3 k got hnot => exact ⟨hgot, hle⟩

/-- From its first look on. -/
theorem le_length_readUpTo_zero (hclock : Monotone clock) {n need : Nat} (hneed : need ≤ n) :
    need ≤ (readUpTo d clock n 0 []).length ↔ Steady d clock need := by
  rw [le_length_readUpTo_iff hclock hneed (by simp [seen])]
  exact ⟨fun h j => h j (Nat.zero_le j), fun h j _ => h j⟩

end Stream
