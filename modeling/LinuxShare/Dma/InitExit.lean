-- SUMMARY: Loading and unloading the DMA driver (the_dma.c): what it holds after acquisitions that may fail.
import LinuxShare.Lib.Acquire
import LinuxShare.Lib.Machine

/-!
# Loading the DMA driver

The driver acquires seven resources one after the other and looks at the results of the
last two. Both go to the same label when they fail, which releases the first five. So the
interrupt stays acquired when the mapping fails, and what has failed unnoticed is missing
after a success and released after a failure.
-/

namespace Dma

namespace Load

open Acquire Machine

inductive Resource where
  | chrdev
  | myClass
  | device
  | src
  | dst
  | irq
  | regs
  deriving DecidableEq

/-! ## The driver -/

/-- Behind the label `my_out`. -/
def myOut : List Resource := [.src, .dst, .device, .myClass, .chrdev]

/-- What is acquired before a result is looked at, up to the interrupt. -/
def unchecked : List Resource := [.chrdev, .myClass, .device, .src, .dst, .irq]

/-- The result with the account. `EBUSY` is 16. -/
def myDmaInit (env : Env Resource) (a : Account Resource) : Int × Account Resource :=
  let a := acquireAll env unchecked a
  if env.succeeds .irq then
    let a := exec env a (.acquire .regs)
    if env.succeeds .regs then (0, a) else (-16, releaseAll env myOut a)
  else
    (-16, releaseAll env myOut a)

def myDmaExit (env : Env Resource) (a : Account Resource) : Account Resource :=
  releaseAll env [.regs, .irq, .src, .dst, .device, .myClass, .chrdev] a

/-- The module is loaded and, when that has worked, unloaded. -/
def cycle (env : Env Resource) (a : Account Resource) : Account Resource × List Int :=
  let loaded := myDmaInit env a
  (if loaded.1 = 0 then myDmaExit env loaded.2 else loaded.2, [loaded.1])

/-! ## What a cycle is to do -/

/-- Everything is held after a success and given back by the exit; nothing is after an error. -/
structure Sound (env : Env Resource) (a : Account Resource) : Prop where
  success : (myDmaInit env a).1 = 0 →
    (∀ r, (myDmaInit env a).2.held r = a.held r + 1) ∧ (myDmaInit env a).2.wrong = a.wrong
  exit : (myDmaInit env a).1 = 0 → (myDmaExit env (myDmaInit env a).2).held = a.held ∧
    (myDmaExit env (myDmaInit env a).2).wrong = a.wrong
  error : (myDmaInit env a).1 ≠ 0 →
    (myDmaInit env a).2.held = a.held ∧ (myDmaInit env a).2.wrong = a.wrong

/-- Nothing fails, or the interrupt is refused and every acquisition before it has succeeded
or has a release that ignores that it has not. -/
def Meets (env : Env Resource) : Prop :=
  (∀ r, env.succeeds r = true) ∨
    env.succeeds .irq = false ∧ ∀ r ∈ myOut, env.succeeds r = true ∨ env.ignores r = true

/-! ## The ways through the init function -/

variable {env : Env Resource}

/-- Everything that is acquired when nothing is refused. -/
def acquired : List Resource := unchecked ++ [.regs]

theorem mem_acquired (r : Resource) : r ∈ acquired := by
  cases r <;> decide

theorem nodup_acquired : acquired.Nodup := by decide

theorem nodup_unchecked : unchecked.Nodup := by decide

theorem nodup_myOut : myOut.Nodup := by decide

theorem myDmaInit_of_refused (h : env.succeeds .irq = false) (a : Account Resource) :
    myDmaInit env a = (-16, releaseAll env myOut (acquireAll env unchecked a)) := by
  rw [myDmaInit, h]
  rfl

theorem myDmaInit_of_unmapped (h : env.succeeds .irq = true) (hregs : env.succeeds .regs = false)
    (a : Account Resource) :
    myDmaInit env a = (-16, releaseAll env myOut (acquireAll env acquired a)) := by
  rw [myDmaInit, h, hregs, acquired, acquireAll_append]
  rfl

theorem myDmaInit_of_mapped (h : env.succeeds .irq = true) (hregs : env.succeeds .regs = true)
    (a : Account Resource) : myDmaInit env a = (0, acquireAll env acquired a) := by
  rw [myDmaInit, h, hregs, acquired, acquireAll_append]
  rfl

theorem ebusy_ne_zero : (-16 : Int) ≠ 0 := by decide

/-! ## When a cycle is sound -/

/-- Refused the interrupt, the driver releases what it has acquired, and maybe more. -/
theorem sound_of_refused_iff (h : env.succeeds .irq = false) (a : Account Resource) :
    Sound env a ↔ ∀ r ∈ myOut, env.succeeds r = true ∨ env.ignores r = true := by
  have hheld : (releaseAll env myOut (acquireAll env unchecked a)).held = a.held := by
    funext r
    refine held_of_released nodup_unchecked nodup_myOut ?_ (fun hr hout => ?_) a
    · cases r <;> decide
    · cases r with
      | irq => exact h
      | regs => exact absurd hr (by decide)
      | _ => exact absurd (by decide) hout
  rw [← wrong_of_released_iff nodup_unchecked nodup_myOut (by decide) a]
  constructor
  · intro hsound
    have herror := hsound.error
    rw [myDmaInit_of_refused h] at herror
    exact (herror ebusy_ne_zero).2
  · intro hwrong
    refine ⟨?_, ?_, ?_⟩ <;> rw [myDmaInit_of_refused h]
    · exact fun hret => absurd hret ebusy_ne_zero
    · exact fun hret => absurd hret ebusy_ne_zero
    · exact fun _ => ⟨hheld, hwrong⟩

/-- Without the mapping the interrupt stays acquired. -/
theorem not_sound_of_unmapped (h : env.succeeds .irq = true) (hregs : env.succeeds .regs = false)
    (a : Account Resource) : ¬ Sound env a := by
  intro hsound
  have herror := hsound.error
  rw [myDmaInit_of_unmapped h hregs] at herror
  have hirq := congrFun (herror ebusy_ne_zero).1 .irq
  rw [held_of_not_released nodup_acquired (mem_acquired .irq) (by decide), h, Bool.toNat_true] at hirq
  omega

/-- What has failed unnoticed is missing afterwards. -/
theorem sound_of_mapped_iff (h : env.succeeds .irq = true) (hregs : env.succeeds .regs = true)
    (a : Account Resource) : Sound env a ↔ ∀ r, env.succeeds r = true := by
  have hheld : ∀ r, (acquireAll env acquired a).held r = a.held r + (env.succeeds r).toNat :=
    fun r => (acquireAll_of_mem env nodup_acquired (mem_acquired r) a).1
  constructor
  · intro hsound r
    have hsuccess := hsound.success
    rw [myDmaInit_of_mapped h hregs] at hsuccess
    have hr := (hsuccess rfl).1 r
    rw [hheld, Nat.add_left_cancel_iff, Bool.toNat_eq_one] at hr
    exact hr
  · intro hall
    refine ⟨?_, ?_, ?_⟩ <;> rw [myDmaInit_of_mapped h hregs]
    · exact fun _ => ⟨fun r => by rw [hheld, hall, Bool.toNat_true], acquireAll_wrong env _ a⟩
    · refine fun _ => ⟨funext fun r => ?_, ?_⟩
      · refine held_of_released nodup_acquired (by decide) (fun _ => mem_acquired r) (fun _ hnot => ?_) a
        exact absurd (by cases r <;> decide) hnot
      · exact (wrong_of_released_iff nodup_acquired (by decide) (fun r _ => mem_acquired r) a).mpr
          fun r _ => .inl (hall r)
    · exact fun hret => absurd rfl hret

theorem sound_iff_meets (env : Env Resource) (a : Account Resource) : Sound env a ↔ Meets env := by
  cases hirq : env.succeeds .irq with
  | false =>
      rw [sound_of_refused_iff hirq, Meets, or_iff_right fun hall => by simp [hall] at hirq]
      exact (and_iff_right hirq).symm
  | true =>
      have hnot : ¬ (env.succeeds .irq = false ∧
          ∀ r ∈ myOut, env.succeeds r = true ∨ env.ignores r = true) := fun hr => by simp [hirq] at hr
      rw [Meets, or_iff_left hnot]
      cases hregs : env.succeeds .regs with
      | false =>
          exact iff_of_false (not_sound_of_unmapped hirq hregs a) fun hall => by simp [hall] at hregs
      | true => exact sound_of_mapped_iff hirq hregs a

/-! ## Loading and unloading over and over -/

theorem Sound.cycle_held {a : Account Resource} (h : Sound env a) :
    (cycle env a).1.held = a.held ∧ (cycle env a).1.wrong = a.wrong := by
  by_cases hret : (myDmaInit env a).1 = 0
  · rw [cycle, if_pos hret]
    exact h.exit hret
  · rw [cycle, if_neg hret]
    exact h.error hret

/-- After cycles that are all sound the driver holds what it held before them. -/
theorem held_of_sound {envs : List (Env Resource)} {a : Account Resource}
    (h : Along cycle Sound a envs) :
    (run cycle a envs).held = a.held ∧ (run cycle a envs).wrong = a.wrong := by
  induction envs generalizing a with
  | nil => exact ⟨rfl, rfl⟩
  | cons env envs ih =>
      obtain ⟨hheld, hwrong⟩ := h.1.cycle_held
      obtain ⟨hheld', hwrong'⟩ := ih h.2
      exact ⟨hheld'.trans hheld, hwrong'.trans hwrong⟩

/-- Over any number of cycles, each with its own failures, and whatever is held before: every
cycle is sound if and only if no failure goes unnoticed and the mapping never fails. -/
theorem cycles_sound_iff (envs : List (Env Resource)) (a : Account Resource) :
    Along cycle Sound a envs ↔ ∀ env ∈ envs, Meets env := by
  induction envs generalizing a with
  | nil => simp [Along]
  | cons env envs ih => rw [Along, sound_iff_meets, ih, List.forall_mem_cons]

/-- Nothing is held. -/
def emptyAccount : Account Resource where
  held := fun _ => 0
  valid := fun _ => false
  wrong := 0

/-- Every acquisition works but that of `r`, and every release takes what it is given. -/
def failing (r : Resource) : Env Resource where
  succeeds r' := r' != r
  ignores := fun _ => true

/-- When only the mapping fails, the interrupt handler outlives the module. -/
theorem irq_outlives_module :
    (myDmaInit (failing .regs) emptyAccount).1 = -16 ∧
      (cycle (failing .regs) emptyAccount).1.held .irq = 1 ∧
      ¬ Along cycle Sound emptyAccount [failing .regs] := by
  refine ⟨by decide, by decide, fun hsound => ?_⟩
  exact not_sound_of_unmapped (by decide) (by decide) _ hsound.1

end Load

end Dma
