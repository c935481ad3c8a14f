-- SUMMARY: Bits as slots on a line: low phases of different lengths, read after each falling edge.
import Mathlib.Algebra.Order.Ring.Defs
import Mathlib.Data.List.Forall2
import Mathlib.Data.List.Sort
import Mathlib.Tactic.Linarith

/-!
# Slots

A line is high but for the low phases with which its slots begin. A receiver sees the
falling edges and looks at the line once in a window after each of them. When the window
lies in the low phase of one kind of slots and in the high phase of the other, it receives
what the slots stand for, wherever in the windows it looks.
-/

namespace Slots

variable {T : Type*} [CommRing T] [LinearOrder T]

/-- A low phase and a high one. -/
structure Slot (T : Type*) [Zero T] [LT T] where
  low : T
  high : T
  low_pos : 0 < low
  high_pos : 0 < high

/-- Where the next slot begins. -/
def Slot.next (s : Slot T) (t : T) : T := t + s.low + s.high

/-- The level at time `x` when the slots begin at time `t`. -/
def wave (t : T) : List (Slot T) → T → Bool
  | [], _ => true
  | s :: ss, x => if x < t then true else if x < t + s.low then false else wave (s.next t) ss x

/-- The times at which slots begin. -/
def edges (t : T) : List (Slot T) → List T
  | [] => []
  | s :: ss => t :: edges (s.next t) ss

/-- The line has been high and is low now. -/
def FallsAt (w : T → Bool) (e : T) : Prop := w e = false ∧ ∃ d < e, ∀ x, d ≤ x → x < e → w x = true

/-- After each falling edge the line is sampled once, between `lo` and `hi` later. -/
def Receives (w : T → Bool) (lo hi : T) (bits : List Bool) : Prop :=
  ∃ es xs : List T, es.Pairwise (· < ·) ∧ (∀ e, e ∈ es ↔ FallsAt w e) ∧
    List.Forall₂ (fun e x => e + lo ≤ x ∧ x ≤ e + hi) es xs ∧ bits = xs.map w

/-- A sample between `lo` and `hi` after the beginning of the slot is `b`. -/
def Encodes (lo hi : T) (b : Bool) (s : Slot T) : Prop :=
  if b then s.low ≤ lo ∧ hi < s.low + s.high else hi < s.low

variable {t e x lo hi : T} {s : Slot T} {ss : List (Slot T)} {bits : List Bool}

theorem wave_of_lt (h : x < t) : wave t ss x = true := by
  cases ss with
  | nil => rfl
  | cons s ss => exact if_pos h

theorem wave_cons_low (h : t ≤ x) (hlow : x < t + s.low) : wave t (s :: ss) x = false := by
  rw [wave, if_neg (not_lt.mpr h), if_pos hlow]

variable [IsStrictOrderedRing T]

theorem lt_next (s : Slot T) (t : T) : t < t + s.low ∧ t + s.low < s.next t := by
  have hlow := s.low_pos
  have hhigh := s.high_pos
  rw [Slot.next]
  constructor <;> linarith

/-- Behind the low phase of a slot the line is that of the slots after it. -/
theorem wave_cons_of_le (h : t + s.low ≤ x) : wave t (s :: ss) x = wave (s.next t) ss x := by
  have hx : ¬ x < t := not_lt.mpr ((lt_next s t).1.le.trans h)
  rw [wave, if_neg hx, if_neg (not_lt.mpr h)]

/-! ## Falling edges -/

theorem le_of_mem_edges (h : e ∈ edges t ss) : t ≤ e := by
  induction ss generalizing t with
  | nil => cases h
  | cons s ss ih =>
      rcases List.mem_cons.mp h with rfl | hmem
      · exact le_refl e
      · exact ((lt_next s t).1.trans (lt_next s t).2).le.trans (ih hmem)

theorem pairwise_edges (t : T) (ss : List (Slot T)) : (edges t ss).Pairwise (· < ·) := by
  induction ss generalizing t with
  | nil => exact .nil
  | cons s ss ih =>
      refine List.pairwise_cons.mpr ⟨fun e he => ?_, ih _⟩
      exact ((lt_next s t).1.trans (lt_next s t).2).trans_le (le_of_mem_edges he)

theorem fallsAt_start (s : Slot T) (ss : List (Slot T)) (t : T) : FallsAt (wave t (s :: ss)) t :=
  ⟨wave_cons_low (le_refl t) (lt_next s t).1, t - 1, by linarith, fun _ _ hx => wave_of_lt hx⟩

omit [IsStrictOrderedRing T] in
/-- Inside of a low phase the line does not fall. -/
theorem not_fallsAt_low (hlt : t < e) (hlow : e < t + s.low) : ¬ FallsAt (wave t (s :: ss)) e := by
  rintro ⟨_, d, hd, hhigh⟩
  have hbefore := hhigh (max d t) (le_max_left d t) (max_lt hd hlt)
  rw [wave_cons_low (le_max_right d t) ((max_lt hd hlt).trans hlow)] at hbefore
  cases hbefore

/-- Behind the low phase it falls where the slots after it do. -/
theorem fallsAt_cons_of_le (h : t + s.low ≤ e) :
    FallsAt (wave t (s :: ss)) e ↔ FallsAt (wave (s.next t) ss) e := by
  rw [FallsAt, FallsAt, wave_cons_of_le h]
  refine and_congr_right fun hlow => ?_
  have hstart : s.next t ≤ e := by
    by_contra hlt
    rw [wave_of_lt (not_le.mp hlt)] at hlow
    cases hlow
  have hgap : t + s.low < e := (lt_next s t).2.trans_le hstart
  have hsame : ∀ x, t + s.low ≤ x → wave t (s :: ss) x = wave (s.next t) ss x :=
    fun x => wave_cons_of_le
  constructor
  all_goals
    rintro ⟨d, hd, hhigh⟩
    refine ⟨max d (t + s.low), max_lt hd hgap, fun x hx hxe => ?_⟩
    have hwave := hhigh x ((le_max_left _ _).trans hx) hxe
  · rwa [hsame x ((le_max_right _ _).trans hx)] at hwave
  · rwa [hsame x ((le_max_right _ _).trans hx)]

/-- The line falls where slots begin, and nowhere else. -/
theorem fallsAt_wave_iff : FallsAt (wave t ss) e ↔ e ∈ edges t ss := by
  induction ss generalizing t with
  | nil =>
      refine iff_of_false (fun hfalls => ?_) List.not_mem_nil
      cases hfalls.1
  | cons s ss ih =>
      rw [edges, List.mem_cons]
      rcases lt_trichotomy e t with hlt | rfl | hgt
      · refine iff_of_false (fun hfalls => ?_) ?_
        · have hlow := hfalls.1
          rw [wave_of_lt hlt] at hlow
          cases hlow
        · rintro (rfl | hmem)
          · exact lt_irrefl _ hlt
          · exact absurd (le_of_mem_edges hmem)
              (not_le.mpr (hlt.trans ((lt_next s t).1.trans (lt_next s t).2)))
      · exact iff_of_true (fallsAt_start s ss e) (.inl rfl)
      · rw [or_iff_right hgt.ne']
        rcases lt_or_ge e (t + s.low) with hlow | hge
        · refine iff_of_false (not_fallsAt_low hgt hlow) fun hmem => ?_
          exact absurd (le_of_mem_edges hmem) (not_le.mpr (hlow.trans (lt_next s t).2))
        · rw [fallsAt_cons_of_le hge, ih]

/-! ## Samples -/

/-- One sample in its window. -/
theorem wave_sample {b : Bool} (h : Encodes lo hi b s) (hlo : 0 ≤ lo) (hx : t + lo ≤ x)
    (hx' : x ≤ t + hi) :
    wave t (s :: ss) x = b := by
  cases b with
  | false =>
      have hlow : hi < s.low := h
      exact wave_cons_low (by linarith) (by linarith)
  | true =>
      obtain ⟨hlow, hhigh⟩ : s.low ≤ lo ∧ hi < s.low + s.high := h
      rw [wave_cons_of_le (by linarith), wave_of_lt]
      rw [Slot.next]
      linarith

/-- No sample comes before the edges. -/
theorem le_of_mem_samples (hlo : 0 ≤ lo) {es xs : List T} (hes : ∀ e ∈ es, t ≤ e)
    (hxs : List.Forall₂ (fun e x => e + lo ≤ x ∧ x ≤ e + hi) es xs) {y : T} (hy : y ∈ xs) : t ≤ y := by
  induction hxs with
  | nil => cases hy
  | @cons e x es xs hx _ ih =>
      obtain ⟨he, hes⟩ := List.forall_mem_cons.mp hes
      rcases List.mem_cons.mp hy with rfl | hmem
      · linarith [hx.1]
      · exact ih hes hmem

/-- Samples in the windows after the beginnings of the slots are what the slots encode. -/
theorem map_wave_samples (hlo : 0 ≤ lo) (hbits : List.Forall₂ (Encodes lo hi) bits ss) {xs : List T}
    (hxs : List.Forall₂ (fun e x => e + lo ≤ x ∧ x ≤ e + hi) (edges t ss) xs) :
    xs.map (wave t ss) = bits := by
  induction hbits generalizing t xs with
  | nil =>
      cases hxs
      rfl
  | @cons b s bits ss hb _ ih =>
      obtain ⟨x, xs, ⟨hx, hx'⟩, hrest, rfl⟩ := List.forall₂_cons_left_iff.mp hxs
      have hlater : ∀ y ∈ xs, wave t (s :: ss) y = wave (s.next t) ss y := by
        intro y hy
        have hstart := le_of_mem_samples hlo (fun e => le_of_mem_edges) hrest hy
        exact wave_cons_of_le ((lt_next s t).2.le.trans hstart)
      rw [List.map_cons, wave_sample hb hlo hx hx', List.map_congr_left hlater, ih hrest]

/-- A receiver gets what the slots encode, whenever in its windows it samples. -/
theorem receives_wave_iff (hlo : 0 ≤ lo) (hhi : lo ≤ hi) (t : T)
    (hbits : List.Forall₂ (Encodes lo hi) bits ss) (got : List Bool) :
    Receives (wave t ss) lo hi got ↔ got = bits := by
  constructor
  · rintro ⟨es, xs, hsorted, hes, hxs, rfl⟩
    obtain rfl : es = edges t ss :=
      hsorted.eq_of_mem_iff (pairwise_edges t ss) fun e => (hes e).trans fallsAt_wave_iff
    exact map_wave_samples hlo hbits hxs
  · rintro rfl
    -- sampling as early as possible
    have hxs : List.Forall₂ (fun e x => e + lo ≤ x ∧ x ≤ e + hi) (edges t ss)
        ((edges t ss).map (· + lo)) := by
      rw [List.forall₂_map_right_iff, List.forall₂_same]
      exact fun e _ => ⟨le_refl _, by linarith⟩
    exact ⟨edges t ss, _, pairwise_edges t ss, fun e => fallsAt_wave_iff.symm, hxs,
      (map_wave_samples hlo hbits hxs).symm⟩

end Slots
