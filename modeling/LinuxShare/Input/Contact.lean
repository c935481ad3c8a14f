-- SUMMARY: Which conversions a reported coordinate is the mean of, and when they are of one contact.
import LinuxShare.Input.TouchScreen

/-!
# Coordinates and contacts

The sums are cleared when their mean is reported, and only then. A contact that ends
before its fifth conversion interrupt leaves its conversions to the next one.
-/

namespace Input

namespace TouchScreen

open Machine

/-- The pair is the truncated mean of the last four conversions, and the pen has not
been seen up since the first of them. -/
def MeanOfContact (tr : List Obs) (x y : Nat) : Prop :=
  ∃ contact, contact <:+ tr ∧ (conversions contact).length = 4 ∧ .penUp ∉ contact ∧
    x = ((conversions contact).map Prod.fst).sum / 4 ∧
    y = ((conversions contact).map Prod.snd).sum / 4

/-- Coordinates are reported in pairs, and each pair is the mean of one contact. -/
def OneContact (tr : List Obs) : Prop :=
  ∀ l r x, tr = l ++ .report (.abs absX x) :: r →
    ∃ y r', r = .report (.abs absY y) :: r' ∧ MeanOfContact l x y

/-- When the pen is seen up, either all groups of five conversion interrupts are
complete, or the one that is not never will be. -/
def Unbroken (es : List Event) : Prop :=
  ∀ pre e post, es = pre ++ e :: post → e.SeesUp →
    downs pre % 5 = 0 ∨ downs pre % 5 + downs post ≤ 4

/-! ## Reports -/

theorem absX_not_mem_reportUp (x : Nat) : .report (.abs absX x) ∉ reportUp := by
  simp [reportUp, absX, absPressure]

theorem reportMean_eq_append {t : Ts} {a b : List Obs} {x : Nat}
    (h : reportMean t = a ++ .report (.abs absX x) :: b) :
    a = [] ∧ x = (t.xp / 4).toNat ∧ ∃ b', b = .report (.abs absY (t.yp / 4).toNat) :: b' := by
  cases a with
  | nil =>
      obtain ⟨hx, rfl⟩ := List.cons.inj h
      simp only [Obs.report.injEq, Report.abs.injEq] at hx
      exact ⟨rfl, hx.2.symm, _, rfl⟩
  | cons o a =>
      have hmem : .report (.abs absX x) ∈ a ++ .report (.abs absX x) :: b := by simp
      rw [List.cons_append] at h
      rw [← (List.cons.inj h).2] at hmem
      simp [absX, absY, absPressure] at hmem

/-- Coordinates are reported by every fifth conversion interrupt with the pen down. -/
theorem exists_of_absX {es : List Event} {l r : List Obs} {x : Nat}
    (h : trace step mytsInit es = l ++ .report (.abs absX x) :: r) :
    ∃ pre e post, es = pre ++ e :: post ∧ e.down = true ∧ downs pre % 5 = 4 ∧
      l = trace step mytsInit pre ∧ x = ((run step mytsInit pre).xp / 4).toNat ∧
      ∃ r', r = .report (.abs absY ((run step mytsInit pre).yp / 4).toNat) :: r' := by
  obtain ⟨pre, e, post, a, b, hes, hout, rfl, rfl⟩ := exists_of_trace_eq h
  have hmem : .report (.abs absX x) ∈ (step e (run step mytsInit pre)).2 := by
    rw [hout]
    simp
  cases he : e.down with
  | false =>
      exfalso
      obtain ⟨_, _, _, hnone | hup | hup⟩ := step_of_not_down he (run step mytsInit pre)
      · simp [hnone] at hmem
      · simp [hup] at hmem
      · exact absX_not_mem_reportUp x (hup ▸ hmem)
  | true =>
      by_cases hc : (run step mytsInit pre).count = 4
      · rw [(step_of_full he hc).2.2.2] at hout
        obtain ⟨rfl, hx, b', rfl⟩ := reportMean_eq_append hout
        have hmod : downs pre % 5 = 4 := by
          have hcount := count_run pre
          omega
        exact ⟨pre, e, post, hes, he, hmod, List.append_nil _, hx, b' ++ _, rfl⟩
      · rw [(step_of_down he hc).2.2.2] at hmem
        simp at hmem

theorem trace_of_fifth (pre post : List Event) {e : Event} (he : e.down = true)
    (hmod : downs pre % 5 = 4) :
    ∃ r, trace step mytsInit (pre ++ e :: post) = trace step mytsInit pre ++
      .report (.abs absX ((run step mytsInit pre).xp / 4).toNat) :: r := by
  have hc : (run step mytsInit pre).count = 4 := by
    rw [count_run, hmod]
    rfl
  rw [trace_append, trace_cons, (step_of_full he hc).2.2.2]
  exact ⟨_, rfl⟩

/-! ## When the conversions are of one contact -/

theorem conversions_eq_nil_of_seesUp {e : Event} (he : e.SeesUp) (t : Ts) :
    conversions (step e t).2 = [] := by
  obtain ⟨_, _, _, hout | hout | hout⟩ := step_of_not_down he.not_down t <;>
    simp [hout, conversions, reportUp]

/-- Fewer than four conversion interrupts since the pen was seen up are too few. -/
theorem not_meanOfContact (pre : List Event) {post : List Event} {e : Event} (he : e.SeesUp)
    (hlt : downs post < 4) (x y : Nat) :
    ¬ MeanOfContact (trace step mytsInit (pre ++ e :: post)) x y := by
  rintro ⟨contact, hsuffix, hlen, hup, _⟩
  obtain ⟨a, b, hout⟩ := List.append_of_mem ((penUp_mem_step e (run step mytsInit pre)).mpr he)
  rw [trace_append, trace_cons, hout, List.append_assoc, ← List.append_assoc] at hsuffix
  have hafter := Lists.suffix_of_not_mem hsuffix hup
  have hb : conversions b = [] := by
    have hnil := conversions_eq_nil_of_seesUp he (run step mytsInit pre)
    rw [hout] at hnil
    exact (List.filterMap_eq_nil_iff.mpr fun o ho =>
      List.filterMap_eq_nil_iff.mp hnil o (by simp [ho]))
  have hle : (conversions contact).length ≤ (conversions (b ++ _)).length :=
    (hafter.sublist.filterMap _).length_le
  rw [conversions_append, hb, List.nil_append] at hle
  have hpost := length_conversions_trace_le (step e (run step mytsInit pre)).1 post
  omega

theorem unbroken_of_oneContact {es : List Event} (h : OneContact (trace step mytsInit es)) :
    Unbroken es := by
  rintro pre e post rfl he
  by_contra hbroken
  obtain ⟨hpos, hlt⟩ := not_or.mp hbroken
  -- the conversion interrupt that completes the group
  obtain ⟨mid, d, post, rfl, hd, hmid⟩ : ∃ mid d post', post = mid ++ d :: post' ∧
      d.down = true ∧ downs mid = 4 - downs pre % 5 :=
    Lists.exists_split_countP (show 4 - downs pre % 5 < downs post by omega)
  have hmod : downs (pre ++ e :: mid) % 5 = 4 := by
    rw [downs_append, downs_cons_of_not_down he.not_down]
    omega
  obtain ⟨r, htrace⟩ := trace_of_fifth (pre ++ e :: mid) post hd hmod
  rw [List.append_assoc, List.cons_append] at htrace
  obtain ⟨y, _, _, hmean⟩ := h _ _ _ htrace
  exact not_meanOfContact pre he (by omega) _ y hmean

theorem oneContact_of_unbroken {es : List Event} (h : Unbroken es) :
    OneContact (trace step mytsInit es) := by
  intro l r x htrace
  obtain ⟨before, e, post, rfl, he, hmod, rfl, rfl, r', rfl⟩ := exists_of_absX htrace
  refine ⟨_, r', rfl, ?_⟩
  obtain ⟨pre, cur, rfl, hpre, hopen, hacc⟩ := exists_open before
  have hcur : downs cur = 4 := by
    have hle := hopen.downs_le
    rw [downs_append] at hmod
    omega
  obtain ⟨hrun, hconv⟩ := hacc.run (show [].length + downs cur ≤ 4 by simp [hcur])
  rw [List.nil_append, ← run_append] at hrun
  refine ⟨trace step (run step mytsInit pre) cur, ?_, ?_, ?_, ?_, ?_⟩
  · rw [trace_append]
    exact List.suffix_append _ _
  · rw [hconv, length_samples, hcur]
  · intro hup
    obtain ⟨u, hu, hsees⟩ := (penUp_mem_trace _ _).mp hup
    obtain ⟨a, b, rfl⟩ := List.append_of_mem hu
    rcases hopen with hnil | ⟨d, cur, hcons, hd, _⟩
    · simp at hnil
    · cases a with
      | nil =>
          rw [← (List.cons.inj hcons).1, hsees.not_down] at hd
          cases hd
      | cons d' a =>
          obtain ⟨rfl, rfl⟩ := List.cons.inj hcons
          have hlate := h (pre ++ d' :: a) u (b ++ e :: post) (by simp) hsees
          rw [List.cons_append, downs_cons_of_down hd, downs_append,
            downs_cons_of_not_down hsees.not_down] at hcur
          rw [downs_append, downs_cons_of_down hd, downs_append, downs_cons_of_down he] at hlate
          omega
  · rw [UInt32.toNat_div, hrun.xp, hconv]
    rfl
  · rw [UInt32.toNat_div, hrun.yp, hconv]
    rfl

/-- Every coordinate pair is the mean of one contact if and only if no contact ends within a
group of five conversion interrupts that later ones complete. -/
theorem oneContact_iff_unbroken (es : List Event) :
    OneContact (trace step mytsInit es) ↔ Unbroken es :=
  ⟨unbroken_of_oneContact, oneContact_of_unbroken⟩

/-- A conversion at (`x`, `y`) with the pen down. -/
def conversionAt (x y : UInt32) : Event := .adcIrq 0 x y

/-- One conversion at the edge of the screen, and the rest of another contact in the middle. -/
def secondTouch : List Event :=
  [conversionAt 0 0, .tsIrq 0x8000, .tsIrq 0, conversionAt 400 400, conversionAt 400 400,
    conversionAt 400 400, conversionAt 400 400]

/-- The pair reported for the second touch is (300, 300). -/
theorem secondTouch_mixed :
    .report (.abs absX 300) ∈ trace step mytsInit secondTouch ∧
      ¬ OneContact (trace step mytsInit secondTouch) := by
  refine ⟨by decide, fun h => ?_⟩
  have hbroken := unbroken_of_oneContact h [conversionAt 0 0] (.tsIrq 0x8000)
    [.tsIrq 0, conversionAt 400 400, conversionAt 400 400, conversionAt 400 400,
      conversionAt 400 400] rfl (by decide)
  revert hbroken
  decide

end TouchScreen

end Input
