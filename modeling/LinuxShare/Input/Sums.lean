-- SUMMARY: What bounds the sums of the touch screen driver, and the coordinates that it reports.
import LinuxShare.Input.TouchScreen

/-!
# Sums and counts

`count` is compared with 4 for equality only, and a contact that is interrupted leaves
the sums as they are. The three variables stay in step all the same.
-/

namespace Input

namespace TouchScreen

open Machine

/-- The largest value that `myts_init` announces for `ABS_X` and for `ABS_Y`. -/
abbrev absMax : Nat := 0x3FF

/-- No sum is larger than `count` conversions can make it. -/
structure Bounded (t : Ts) : Prop where
  count_nonneg : 0 ≤ t.count
  count_le : t.count ≤ 4
  xp_le : t.xp.toNat ≤ 1023 * t.count
  yp_le : t.yp.toNat ≤ 1023 * t.count

/-- A coordinate is one that the driver has announced. -/
def Announced : Obs → Prop
  | .report (.abs code value) => code = absX ∨ code = absY → value ≤ absMax
  | _ => True

namespace Bounded

variable {t : Ts} {e : Event}

theorem xp_eq_zero (h : Bounded t) (hc : t.count = 0) : t.xp = 0 := by
  have hle := h.xp_le
  rw [hc, Int.mul_zero] at hle
  exact UInt32.toNat_inj.mp (Int.ofNat_eq_zero.mp (Int.le_antisymm hle (Int.natCast_nonneg _)))

theorem yp_eq_zero (h : Bounded t) (hc : t.count = 0) : t.yp = 0 := by
  have hle := h.yp_le
  rw [hc, Int.mul_zero] at hle
  exact UInt32.toNat_inj.mp (Int.ofNat_eq_zero.mp (Int.le_antisymm hle (Int.natCast_nonneg _)))

/-- Another conversion still fits. -/
theorem add_lt (h : Bounded t) (e : Event) :
    t.xp.toNat + e.sample.1 < 2 ^ 32 ∧ t.yp.toNat + e.sample.2 < 2 ^ 32 := by
  have hx := h.xp_le
  have hy := h.yp_le
  have hcount := h.count_le
  have hsample := e.sample_le
  omega

theorem announced_reportUp : ∀ o ∈ reportUp, Announced o := by
  simp [reportUp, Announced, absX, absY, absPressure]

/-- A mean is at most the largest conversion. -/
theorem announced_reportMean (h : Bounded t) : ∀ o ∈ reportMean t, Announced o := by
  have hx := h.xp_le
  have hy := h.yp_le
  have hcount := h.count_le
  have hxmean : (t.xp / 4).toNat ≤ 1023 := by
    have hdiv : (t.xp / 4).toNat = t.xp.toNat / 4 := UInt32.toNat_div _ _
    omega
  have hymean : (t.yp / 4).toNat ≤ 1023 := by
    have hdiv : (t.yp / 4).toNat = t.yp.toNat / 4 := UInt32.toNat_div _ _
    omega
  intro o ho
  simp only [reportMean, List.mem_cons, List.not_mem_nil, or_false] at ho
  rcases ho with rfl | rfl | rfl | rfl | rfl
  · exact fun _ => hxmean
  · exact fun _ => hymean
  · intro hcode
    revert hcode
    decide
  · trivial
  · trivial

/-- A call of any handler. -/
theorem step (h : Bounded t) (e : Event) :
    Bounded (TouchScreen.step e t).1 ∧ ∀ o ∈ (TouchScreen.step e t).2, Announced o := by
  obtain ⟨hnonneg, hle, hx, hy⟩ := h
  cases he : e.down with
  | false =>
      obtain ⟨hcount, hxp, hyp, hout⟩ := step_of_not_down he t
      refine ⟨⟨by rwa [hcount], by rwa [hcount], by rwa [hcount, hxp], by rwa [hcount, hyp]⟩, ?_⟩
      rcases hout with hout | hout | hout
      · simp [hout]
      · simp [hout, Announced]
      · rw [hout]
        exact announced_reportUp
  | true =>
      by_cases hc : t.count = 4
      · obtain ⟨hcount, hxp, hyp, hout⟩ := step_of_full he hc
        refine ⟨⟨by simp [hcount], by simp [hcount], by simp [hcount, hxp], by simp [hcount, hyp]⟩, ?_⟩
        rw [hout]
        exact announced_reportMean ⟨hnonneg, hle, hx, hy⟩
      · obtain ⟨hcount, hxp, hyp, hout⟩ := step_of_down he hc
        obtain ⟨hsx, hsy⟩ := e.sample_le
        refine ⟨⟨?_, ?_, ?_, ?_⟩, by simp [hout, Announced]⟩
        · omega
        · omega
        · rw [hxp, hcount]
          omega
        · rw [hyp, hcount]
          omega

end Bounded

theorem bounded_init : Bounded mytsInit where
  count_nonneg := by decide
  count_le := by decide
  xp_le := by decide
  yp_le := by decide

theorem bounded_run (es : List Event) :
    Bounded (run step mytsInit es) ∧ ∀ o ∈ trace step mytsInit es, Announced o :=
  inv_run (fun e _ h => h.step e) es bounded_init

/-- After any calls of the handlers the count is at most four, the sums are bounded by it and
zero with it, the next conversion does not overflow them, and every coordinate that has been
reported is in the announced range. -/
theorem sums_bounded (es : List Event) :
    (0 ≤ (run step mytsInit es).count ∧ (run step mytsInit es).count ≤ 4) ∧
    ((run step mytsInit es).xp.toNat ≤ 1023 * (run step mytsInit es).count ∧
      (run step mytsInit es).yp.toNat ≤ 1023 * (run step mytsInit es).count) ∧
    ((run step mytsInit es).count = 0 →
      (run step mytsInit es).xp = 0 ∧ (run step mytsInit es).yp = 0) ∧
    (∀ value, .report (.abs absX value) ∈ trace step mytsInit es ∨
      .report (.abs absY value) ∈ trace step mytsInit es → value ≤ absMax) ∧
    ∀ e : Event, (run step mytsInit es).xp.toNat + e.sample.1 < 2 ^ 32 ∧
      (run step mytsInit es).yp.toNat + e.sample.2 < 2 ^ 32 := by
  obtain ⟨h, hall⟩ := bounded_run es
  refine ⟨⟨h.count_nonneg, h.count_le⟩, ⟨h.xp_le, h.yp_le⟩, fun hc => ⟨h.xp_eq_zero hc, h.yp_eq_zero hc⟩,
    ?_, h.add_lt⟩
  rintro value (hmem | hmem)
  · exact hall _ hmem (.inl rfl)
  · exact hall _ hmem (.inr rfl)

end TouchScreen

end Input
