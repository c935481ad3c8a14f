-- SUMMARY: Permits, buffers and anchored URBs of the USB skeleton driver's writes, and who uses its files.
import LinuxShare.Usb.SkelMutex

/-!
# Counts

A permit is on the semaphore, held by a thread inside of `skel_write`, or held by a URB in
flight. So are the buffers that have been allocated, and the URBs on the anchor.
-/

namespace Usb

variable {ι : Type}

/-! ## Writing -/

/-- The permits that a thread holds. -/
@[simp] def WritePc.permits : WritePc → Nat
  | .down => 0
  | .unlock rv => if rv = 0 then 0 else 1
  | _ => 1

/-- The buffers that a thread has to free. -/
@[simp] def WritePc.buffers : WritePc → Nat
  | .copy | .lock | .disconnected | .anchor | .submit | .unanchor _ => 1
  | .unlock rv => if rv = 0 then 0 else 1
  | .error _ buf => if buf then 1 else 0
  | _ => 0

/-- The URBs on the anchor that are not in flight. -/
@[simp] def WritePc.anchors : WritePc → Nat
  | .submit | .unanchor _ => 1
  | .unlock rv => if rv = 0 then 0 else 1
  | _ => 0

/-- What a step of `skel_write` moves. -/
structure WriteMove (pc : WritePc) (s s' : Sys ι) (permits buffers anchors : Nat) : Prop where
  permits : permits + s'.dev.limitSem + s'.writeUrbs.length =
    pc.permits + s.dev.limitSem + s.writeUrbs.length
  buffers : buffers + s'.writeUrbs.length + s.coherent =
    pc.buffers + s.writeUrbs.length + s'.coherent
  anchors : anchors + s'.writeUrbs.length + s.dev.submitted =
    pc.anchors + s.writeUrbs.length + s'.dev.submitted

theorem WriteStep.moves {i : ι} {data : List UInt8} {s s' : Sys ι} {pc : WritePc}
    {n : Next WritePc} {os : List (Out ι)} (h : WriteStep i data s pc n s' os)
    (hbuffers : pc.buffers ≤ s.coherent) (hanchors : pc.anchors ≤ s.dev.submitted) :
    (∀ p, n = .pc p → WriteMove pc s s' p.permits p.buffers p.anchors) ∧
      ∀ rv, n = .ret rv → WriteMove pc s s' 0 0 0 := by
  cases h with
  | down hpermit => exact ⟨by rintro p ⟨⟩; exact ⟨by simp; omega, rfl, rfl⟩, by simp⟩
  | allocBuf => exact ⟨by rintro p ⟨⟩; exact ⟨rfl, by simp; omega, rfl⟩, by simp⟩
  | noMemory hpc _ =>
      refine ⟨?_, by simp⟩
      rintro p ⟨⟩
      rcases hpc with rfl | rfl <;> exact ⟨rfl, rfl, rfl⟩
  | anchor => exact ⟨by rintro p ⟨⟩; exact ⟨rfl, rfl, by simp; omega⟩, by simp⟩
  | submit =>
      refine ⟨?_, by simp⟩
      rintro p ⟨⟩
      exact ⟨by simp; omega, by simp; omega, by simp; omega⟩
  | notSubmitted hrv =>
      exact ⟨by rintro p ⟨⟩; constructor <;> simp [hrv.ne], by simp⟩
  | sent => exact ⟨by simp, by rintro rv ⟨⟩; constructor <;> simp⟩
  | failed hrv => exact ⟨by rintro p ⟨⟩; constructor <;> simp [hrv], by simp⟩
  | unanchor =>
      refine ⟨?_, by simp⟩
      rintro p ⟨⟩
      simp only [WritePc.anchors] at hanchors
      exact ⟨rfl, rfl, by simp; omega⟩
  | @errorOut rv buf =>
      refine ⟨by simp, ?_⟩
      rintro rv' ⟨⟩
      cases buf with
      | true =>
          simp only [WritePc.buffers, if_true] at hbuffers
          exact ⟨by simp; omega, by simp; omega, rfl⟩
      | false => exact ⟨by simp; omega, rfl, rfl⟩
  | refused _ => exact ⟨by simp, fun _ _ => ⟨rfl, rfl, rfl⟩⟩
  | _ => exact ⟨by rintro p ⟨⟩; exact ⟨rfl, rfl, rfl⟩, by simp⟩

structure BulkOut where
  limitSem : Nat
  submitted : Nat
  coherent : Nat
  urbs : List (List UInt8)

def Sys.bulkOut (s : Sys ι) : BulkOut :=
  ⟨s.dev.limitSem, s.dev.submitted, s.coherent, s.writeUrbs⟩

@[simp] def Local.permits : Local → Nat
  | .write _ _ _ pc => pc.permits
  | _ => 0

@[simp] def Local.buffers : Local → Nat
  | .write _ _ _ pc => pc.buffers
  | _ => 0

@[simp] def Local.anchors : Local → Nat
  | .write _ _ _ pc => pc.anchors
  | _ => 0

theorem bulkOut_leave (c : Call) (s : Sys ι) : (leave c s).bulkOut = s.bulkOut := by
  cases c <;> rfl

theorem bulkOut_krefPut (s : Sys ι) : s.krefPut.bulkOut = s.bulkOut := by
  unfold Sys.krefPut
  split <;> rfl

def Local.isWrite : Local → Bool
  | .write _ _ _ _ => true
  | _ => false

/-- The other functions leave the writing side alone. -/
theorem act_bulkOut {i : ι} {e : Choice} {l l' : Local} {s s' : Sys ι} {os : List (Out ι)}
    (hl : l.isWrite = false) (h : act i e l s = some (l', s', os)) :
    s'.bulkOut = s.bulkOut ∧ l'.permits = 0 ∧ l'.buffers = 0 ∧ l'.anchors = 0 := by
  have hfunction : ∀ {P : Type} {c : Call} {at' : P → Local} {r : Result ι P},
      (∀ p, (at' p).isWrite = false) → (∀ n s₁ os₁, r = some (n, s₁, os₁) → s₁.bulkOut = s.bulkOut) →
      inside i c at' r = some (l', s', os) →
      s'.bulkOut = s.bulkOut ∧ l'.permits = 0 ∧ l'.buffers = 0 ∧ l'.anchors = 0 := by
    intro P c at' r hat hr hin
    obtain ⟨p, hstep, rfl⟩ | ⟨rv, s₁, os₁, hstep, rfl, rfl, -⟩ := inside_cases hin
    · refine ⟨hr _ _ _ hstep, ?_⟩
      have hp := hat p
      cases hat' : at' p with
      | write f data nb pc => simp [hat', Local.isWrite] at hp
      | _ => exact ⟨rfl, rfl, rfl⟩
    · exact ⟨(bulkOut_leave c s₁).trans (hr _ _ _ hstep), rfl, rfl, rfl⟩
  cases l with
  | idle =>
      cases e with
      | call c => cases enter_cases h <;> exact ⟨rfl, rfl, rfl, rfl⟩
      | _ => cases h
  | read f count nb pc =>
      refine hfunction (fun _ => rfl) (fun n s₁ os₁ hr => ?_) h
      cases skelRead_cases hr with
      | copy ok hcopy => cases hcopy; rfl
      | _ => rfl
  | write f data nb pc => cases hl
  | openFile f pc =>
      refine hfunction (fun _ => rfl) (fun n s₁ os₁ hr => ?_) h
      cases (skelOpen_cases hr).2 <;> rfl
  | release f pc =>
      refine hfunction (fun _ => rfl) (fun n s₁ os₁ hr => ?_) h
      cases (skelRelease_cases hr).2 with
      | autopmPut => rfl
      | krefPut => exact bulkOut_krefPut s
  | flush f pc =>
      refine hfunction (fun _ => rfl) (fun n s₁ os₁ hr => ?_) h
      cases (skelFlush_cases hr).2 <;> rfl
  | disconnect pc =>
      refine hfunction (fun _ => rfl) (fun n s₁ os₁ hr => ?_) h
      cases (skelDisconnect_cases hr).2 with
      | krefPut => exact bulkOut_krefPut s
      | _ => rfl
  | suspend pc =>
      refine hfunction (fun _ => rfl) (fun n s₁ os₁ hr => ?_) h
      rw [(skelSuspend_cases hr).1]
  | reset pc =>
      refine hfunction (fun _ => rfl) (fun n s₁ os₁ hr => ?_) h
      cases (skelReset_cases hr).2 <;> rfl

/-! ## Using -/

@[simp] def Call.uses (f : Nat) : Call → Nat
  | .read g _ _ | .write g _ _ | .openFile g | .flush g => if g = f then 1 else 0
  | _ => 0

/-- Whether the thread has a call on the file. -/
def Local.uses (f : Nat) (l : Local) : Nat := l.call.elim 0 (Call.uses f)

@[simp] def Call.opens : Call → Nat
  | .openFile _ => 1
  | _ => 0

def Local.opens (l : Local) : Nat := l.call.elim 0 Call.opens

theorem uses_of_call {f : Nat} {l : Local} {c : Call} (h : l.call = some c) :
    l.uses f = c.uses f := by
  rw [Local.uses, h]
  rfl

theorem opens_of_call {l : Local} {c : Call} (h : l.call = some c) : l.opens = c.opens := by
  rw [Local.opens, h]
  rfl

theorem update_use (u : Nat → Nat) (g f : Nat) :
    Function.update u g (u g + 1) f = (if g = f then 1 else 0) + u f := by
  by_cases h : g = f
  · subst h
    rw [Function.update_self, if_pos rfl, Nat.add_comm]
  · rw [Function.update_of_ne (Ne.symm h), if_neg h, Nat.zero_add]

theorem update_unuse (u : Nat → Nat) (g f : Nat) :
    Function.update u g (u g - 1) f = u f - (if g = f then 1 else 0) := by
  by_cases h : g = f
  · subst h
    rw [Function.update_self, if_pos rfl]
  · rw [Function.update_of_ne (Ne.symm h), if_neg h, Nat.sub_zero]

theorem leave_users (c : Call) (s : Sys ι) (f : Nat) :
    (leave c s).users f = s.users f - c.uses f := by
  cases c with
  | read g count nb => exact update_unuse s.users g f
  | write g data nb => exact update_unuse s.users g f
  | openFile g => exact update_unuse s.users g f
  | flush g => exact update_unuse s.users g f
  | _ => rfl

theorem leave_minorRwsem (c : Call) (s : Sys ι) :
    (leave c s).minorRwsem = s.minorRwsem - c.opens := by
  cases c <;> rfl

/-- What a call takes when it begins. -/
theorem EnterStep.counts {i : ι} {c : Call} {l : Local} {s s' : Sys ι} {os : List (Out ι)}
    (h : EnterStep i s c l s' os) (f : Nat) :
    l.uses f + s.users f = s'.users f ∧ l.opens + s.minorRwsem = s'.minorRwsem := by
  cases h with
  | openFile _ _ _ => exact ⟨(update_use s.users _ f).symm, Nat.add_comm _ _⟩
  | read _ _ => exact ⟨(update_use s.users _ f).symm, Nat.zero_add _⟩
  | write _ _ => exact ⟨(update_use s.users _ f).symm, Nat.zero_add _⟩
  | flush _ => exact ⟨(update_use s.users _ f).symm, Nat.zero_add _⟩
  | _ => exact ⟨Nat.zero_add _, Nat.zero_add _⟩

/-- A step of a thread moves its share of the callers' counts. -/
theorem act_counts {i : ι} {e : Choice} {l l' : Local} {s s' : Sys ι} {os : List (Out ι)} {f : Nat}
    (huses : l.uses f ≤ s.users f) (hopens : l.opens ≤ s.minorRwsem)
    (h : act i e l s = some (l', s', os)) :
    l'.uses f + s.users f = l.uses f + s'.users f ∧
      l'.opens + s.minorRwsem = l.opens + s'.minorRwsem := by
  cases hc : l.call with
  | none =>
      obtain rfl : l = .idle := by cases l <;> first | rfl | cases hc
      cases e with
      | call c =>
          obtain ⟨hu, ho⟩ := (enter_cases h).counts f
          exact ⟨hu.trans (Nat.zero_add _).symm, ho.trans (Nat.zero_add _).symm⟩
      | _ => cases h
  | some c =>
      obtain ⟨s₁, hcallers, hnext⟩ := act_inside hc h
      have husers : s₁.users = s.users := congrArg Callers.users hcallers
      have hminor : s₁.minorRwsem = s.minorRwsem := congrArg Callers.minorRwsem hcallers
      rw [uses_of_call hc] at huses ⊢
      rw [opens_of_call hc] at hopens ⊢
      obtain ⟨hc', rfl⟩ | ⟨rfl, rfl⟩ := hnext
      · rw [uses_of_call hc', opens_of_call hc', husers, hminor]
        exact ⟨rfl, rfl⟩
      · rw [leave_users, leave_minorRwsem, husers, hminor]
        simp only [Local.uses, Local.opens, Local.call, Option.elim]
        omega

/-- A step of a thread moves permits, buffers and URBs as `skel_write` does, or not at all. -/
theorem act_moves {i : ι} {e : Choice} {l l' : Local} {s s' : Sys ι} {os : List (Out ι)}
    (hbuffers : l.buffers ≤ s.coherent) (hanchors : l.anchors ≤ s.dev.submitted)
    (h : act i e l s = some (l', s', os)) :
    l'.permits + s'.dev.limitSem + s'.writeUrbs.length =
        l.permits + s.dev.limitSem + s.writeUrbs.length ∧
      l'.buffers + s'.writeUrbs.length + s.coherent =
        l.buffers + s.writeUrbs.length + s'.coherent ∧
      l'.anchors + s'.writeUrbs.length + s.dev.submitted =
        l.anchors + s.writeUrbs.length + s'.dev.submitted := by
  cases hl : l.isWrite with
  | false =>
      obtain ⟨hbulk, hp, hb, ha⟩ := act_bulkOut hl h
      have hsem : s'.dev.limitSem = s.dev.limitSem := congrArg BulkOut.limitSem hbulk
      have hsub : s'.dev.submitted = s.dev.submitted := congrArg BulkOut.submitted hbulk
      have hcoh : s'.coherent = s.coherent := congrArg BulkOut.coherent hbulk
      have hurbs : s'.writeUrbs = s.writeUrbs := congrArg BulkOut.urbs hbulk
      have hzero : l.permits = 0 ∧ l.buffers = 0 ∧ l.anchors = 0 := by
        cases l with
        | write f data nb pc => cases hl
        | _ => exact ⟨rfl, rfl, rfl⟩
      rw [hp, hb, ha, hsem, hsub, hcoh, hurbs, hzero.1, hzero.2.1, hzero.2.2]
      exact ⟨rfl, rfl, rfl⟩
  | true =>
      cases l with
      | write f data nb pc =>
          obtain ⟨p, hr, rfl⟩ | ⟨rv, s₁, os₁, hr, rfl, rfl, -⟩ := inside_cases h
          · obtain ⟨hpc, -⟩ := (skelWrite_cases hr).moves hbuffers hanchors
            exact ⟨(hpc p rfl).permits, (hpc p rfl).buffers, (hpc p rfl).anchors⟩
          · obtain ⟨-, hret⟩ := (skelWrite_cases hr).moves hbuffers hanchors
            exact ⟨(hret rv rfl).permits, (hret rv rfl).buffers, (hret rv rfl).anchors⟩
      | _ => cases hl

/-- A URB gives back what it holds when it completes. -/
theorem HardwareStep.moves {s s' : Sys ι} {os : List (Out ι)} (h : HardwareStep s s' os)
    (hbuffers : s.writeUrbs.length ≤ s.coherent) (hanchors : s.writeUrbs.length ≤ s.dev.submitted) :
    s'.dev.limitSem + s'.writeUrbs.length = s.dev.limitSem + s.writeUrbs.length ∧
      s'.writeUrbs.length + s.coherent = s.writeUrbs.length + s'.coherent ∧
      s'.writeUrbs.length + s.dev.submitted = s.writeUrbs.length + s'.dev.submitted ∧
      s'.callers = s.callers := by
  cases h with
  | @writeDone k errors hk =>
      have hlen := List.length_eraseIdx_of_lt hk
      simp only
      refine ⟨?_, ?_, ?_, rfl⟩ <;> omega
  | _ => exact ⟨rfl, rfl, rfl, rfl⟩

/-! ## Runs -/

section

variable [DecidableEq ι] [Fintype ι]

/-- Nothing is lost: permits, buffers and anchored URBs are where the code keeps track of them,
and the kernel counts the calls on each file and inside of `usb_open`. -/
structure Counted (p : Pool.Config ι (Sys ι) Local) : Prop where
  permits : Pool.Balanced Local.permits (fun s : Sys ι => s.dev.limitSem + s.writeUrbs.length)
    (fun _ => writesInFlight) p
  buffers : Pool.Balanced Local.buffers (fun s : Sys ι => s.writeUrbs.length) Sys.coherent p
  anchors : Pool.Balanced Local.anchors (fun s : Sys ι => s.writeUrbs.length)
    (fun s => s.dev.submitted) p
  users : ∀ f, Pool.Balanced (Local.uses f) (fun _ : Sys ι => 0) (fun s => s.users f) p
  opens : Pool.Balanced Local.opens (fun _ : Sys ι => 0) Sys.minorRwsem p

omit [DecidableEq ι] in
theorem counted_start (bulkInBuffer : List UInt8) :
    Counted (start bulkInBuffer : Pool.Config ι (Sys ι) Local) := by
  constructor <;> simp [Pool.Balanced, start, probed, Local.uses, Local.opens]

theorem counted_step (ev : Event ι) {p : Pool.Config ι (Sys ι) Local} (h : Counted p) :
    Counted (step ev p).1 := by
  have hmoves : ∀ i e (q : Pool.Config ι (Sys ι) Local) l s os, Counted q →
      act i e (q.locals i) q.shared = some (l, s, os) → _ := fun i e q l s os hq hact =>
    act_moves ((Nat.le_add_right _ _).trans (hq.buffers.le i))
      ((Nat.le_add_right _ _).trans (hq.anchors.le i)) hact
  have hcounts : ∀ f i e (q : Pool.Config ι (Sys ι) Local) l s os, Counted q →
      act i e (q.locals i) q.shared = some (l, s, os) → _ := fun f i e q l s os hq hact =>
    act_counts ((hq.users f).le i) (hq.opens.le i) hact
  have hhard : ∀ f (q : Pool.Config ι (Sys ι) Local) s os, Counted q →
      hardware f q.shared = some (s, os) → _ := fun f q s os hq hf =>
    (hardware_cases hf).moves hq.buffers.le_shared hq.anchors.le_shared
  refine ⟨?_, ?_, ?_, fun f => ?_, ?_⟩
  · refine Pool.Balanced.step (K := Counted) ?_ ?_ ev h h.permits
    · intro i e q l s os hq _ hact
      have := (hmoves i e q l s os hq hact).1
      omega
    · intro f q s os hq _ hf
      have := (hhard f q s os hq hf).1
      omega
  · refine Pool.Balanced.step (K := Counted) ?_ ?_ ev h h.buffers
    · intro i e q l s os hq _ hact
      exact (hmoves i e q l s os hq hact).2.1
    · intro f q s os hq _ hf
      exact (hhard f q s os hq hf).2.1
  · refine Pool.Balanced.step (K := Counted) ?_ ?_ ev h h.anchors
    · intro i e q l s os hq _ hact
      exact (hmoves i e q l s os hq hact).2.2
    · intro f q s os hq _ hf
      exact (hhard f q s os hq hf).2.2.1
  · refine Pool.Balanced.step (K := Counted) ?_ ?_ ev h (h.users f)
    · intro i e q l s os hq _ hact
      exact (hcounts f i e q l s os hq hact).1
    · intro g q s os hq _ hg
      have hcallers := (hhard g q s os hq hg).2.2.2
      rw [show s.users = q.shared.users from congrArg Callers.users hcallers]
  · refine Pool.Balanced.step (K := Counted) ?_ ?_ ev h h.opens
    · intro i e q l s os hq _ hact
      exact (hcounts 0 i e q l s os hq hact).2
    · intro g q s os hq _ hg
      have hcallers := (hhard g q s os hq hg).2.2.2
      rw [show s.minorRwsem = q.shared.minorRwsem from congrArg Callers.minorRwsem hcallers]

theorem counted_run (bulkInBuffer : List UInt8) (es : List (Event ι)) :
    Counted (runFrom bulkInBuffer es) :=
  (Machine.inv_run (G := fun _ => True) (fun ev _ hp => ⟨counted_step ev hp, fun _ _ => trivial⟩) es
    (counted_start bulkInBuffer)).1

/-- In every run no more than `WRITES_IN_FLIGHT` write URBs are in flight, and when no thread is
inside of a call and none is in flight, every permit is back on the semaphore, every buffer
freed, and the anchor empty. -/
theorem writes_limited (bulkInBuffer : List UInt8) (es : List (Event ι)) :
    (runFrom bulkInBuffer es).shared.writeUrbs.length ≤ writesInFlight ∧
      (((∀ i, (runFrom bulkInBuffer es).locals i = .idle) ∧
          (runFrom bulkInBuffer es).shared.writeUrbs = []) →
        (runFrom bulkInBuffer es).shared.dev.limitSem = writesInFlight ∧
          (runFrom bulkInBuffer es).shared.coherent = 0 ∧
          (runFrom bulkInBuffer es).shared.dev.submitted = 0) := by
  have h := counted_run bulkInBuffer es
  generalize runFrom bulkInBuffer es = p at h
  refine ⟨(Nat.le_add_left _ _).trans h.permits.le_shared, fun ⟨hidle, hurbs⟩ => ?_⟩
  have hsum : ∀ w : Local → Nat, w .idle = 0 → ∑ i, w (p.locals i) = 0 := fun w hw => by
    simp [hidle, hw]
  have hp := h.permits
  have hb := h.buffers
  have ha := h.anchors
  simp only [Pool.Balanced, hurbs, List.length_nil] at hp hb ha
  rw [hsum _ rfl] at hp hb ha
  omega

end

end Usb
