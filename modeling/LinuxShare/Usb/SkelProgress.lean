-- SUMMARY: No deadlock in the USB skeleton driver: what a blocked thread waits for can go on, or is up to the hardware.
import LinuxShare.Usb.SkelCounts

/-!
# Progress

A thread waits for `io_mutex`, for a permit, for a transfer to complete, or for `usb_open` to be
left. In every state in which some thread is inside of a call, one of them can take its next
step, without a signal, a time-out or a failure, or a transfer is in flight.
-/

namespace Usb

variable {ι : Type}

/-! ## The claim on the read URB -/

/-- Whether the thread has claimed the read URB and not submitted it yet. -/
@[simp] def ReadPc.claims : ReadPc → Nat
  | .doReadIo _ _ .ongoing => 0
  | .doReadIo _ _ _ => 1
  | _ => 0

@[simp] def Local.claims : Local → Nat
  | .read _ _ _ pc => pc.claims
  | _ => 0

def BulkIn.inFlight (b : BulkIn) : Nat :=
  match b.urb with
  | none => 0
  | some _ => 1

def BulkIn.claimed (b : BulkIn) : Nat :=
  match b.ongoing with
  | false => 0
  | true => 1

theorem BulkIn.inFlight_none {b : BulkIn} (h : b.urb = none) : b.inFlight = 0 := by
  rw [inFlight, h]

theorem BulkIn.claimed_false {b : BulkIn} (h : b.ongoing = false) : b.claimed = 0 := by
  rw [claimed, h]

theorem BulkIn.claimed_true {b : BulkIn} (h : b.ongoing = true) : b.claimed = 1 := by
  rw [claimed, h]

theorem claims_afterDoReadIo (keep : Option Int) (rv : Int) :
    (afterDoReadIo keep rv).claims = 0 := by
  unfold afterDoReadIo
  split
  · rfl
  · split <;> rfl

theorem ReadStep.claims {i : ι} {count : Nat} {s s' : Sys ι} {pc : ReadPc} {n : Next ReadPc}
    {os : List (Out ι)} (h : ReadStep i count s pc n s' os)
    (hknows : pc.Knows s.bulkIn s.dev.disconnected) :
    (∀ p, n = .pc p → p.claims + s'.bulkIn.inFlight + s.bulkIn.claimed =
        pc.claims + s.bulkIn.inFlight + s'.bulkIn.claimed) ∧
      ∀ rv, n = .ret rv → s'.bulkIn.inFlight + s.bulkIn.claimed =
        pc.claims + s.bulkIn.inFlight + s'.bulkIn.claimed := by
  cases h with
  | ongoing =>
      refine ⟨?_, by simp⟩
      rintro p ⟨⟩
      rw [BulkIn.claimed_false hknows.1.idle]
      exact Nat.add_comm 1 _ |>.trans (by simp [BulkIn.inFlight, Sys.bulkIn, BulkIn.claimed])
  | submit =>
      refine ⟨?_, by simp⟩
      rintro p ⟨⟩
      rw [claims_afterDoReadIo, BulkIn.inFlight_none hknows.1.urb]
      rfl
  | failed =>
      refine ⟨?_, by simp⟩
      rintro p ⟨⟩
      rw [claims_afterDoReadIo, BulkIn.claimed_true hknows.1.ongoing,
        BulkIn.inFlight_none hknows.1.urb]
      exact congrArg (· + 1) ((Nat.zero_add _).trans (BulkIn.inFlight_none hknows.1.urb))
  | copy ok hcopy =>
      obtain ⟨rfl, -, ⟨-, rfl⟩ | ⟨-, rfl⟩⟩ := copyChunk_cases hcopy
      all_goals
        refine ⟨?_, by simp⟩
        rintro p ⟨⟩
        rfl
  | stop hpc _ =>
      refine ⟨?_, by simp⟩
      rintro p ⟨⟩
      rcases hpc with rfl | rfl <;> rfl
  | ready hpc _ =>
      refine ⟨?_, by simp⟩
      rintro p ⟨⟩
      rcases hpc with rfl | rfl <;> rfl
  | interrupted => exact ⟨by simp, fun _ _ => by simp [ReadPc.claims]⟩
  | exit => exact ⟨by simp, fun _ _ => by simp [ReadPc.claims]; rfl⟩
  | _ => exact ⟨by rintro p ⟨⟩; rfl, by simp⟩

theorem act_claims {i : ι} {e : Choice} {l l' : Local} {s s' : Sys ι} {os : List (Out ι)}
    (ho : Owns i l s) (h : act i e l s = some (l', s', os)) :
    l'.claims + s'.bulkIn.inFlight + s.bulkIn.claimed =
      l.claims + s.bulkIn.inFlight + s'.bulkIn.claimed := by
  have hother : (∀ f count nb pc, l ≠ .read f count nb pc) → l'.claims = 0 →
      l'.claims + s'.bulkIn.inFlight + s.bulkIn.claimed =
        l.claims + s.bulkIn.inFlight + s'.bulkIn.claimed := by
    intro hl hl'
    have hzero : l.claims = 0 := by
      cases l with
      | read f count nb pc => exact absurd rfl (hl f count nb pc)
      | _ => rfl
    rw [act_bulkIn hl h, hl', hzero]
  cases l with
  | idle =>
      cases e with
      | call c => exact hother (by simp) (by cases enter_cases h <;> rfl)
      | _ => cases h
  | read f count nb pc =>
      obtain ⟨p, hr, rfl⟩ | ⟨rv, s₁, os₁, hr, rfl, rfl, -⟩ := inside_cases h
      · exact ((skelRead_cases hr).claims ho.knows).1 p rfl
      · rw [(leave_view _ s₁).2, show Local.idle.claims = 0 from rfl, Nat.zero_add]
        exact ((skelRead_cases hr).claims ho.knows).2 rv rfl
  | write f data nb pc =>
      obtain ⟨p, hr, rfl⟩ | ⟨rv, s₁, os₁, hr, rfl, -, -⟩ := inside_cases h <;>
        exact hother (by simp) rfl
  | _ =>
      obtain ⟨hio, -⟩ := act_quiet rfl (by simp) h
      refine hother (by simp) ?_
      cases l' with
      | read f count nb pc => cases hio
      | _ => rfl

theorem HardwareStep.claims {s s' : Sys ι} {os : List (Out ι)} (h : HardwareStep s s' os)
    (hok : s.bulkIn.Ok) :
    s'.bulkIn.inFlight + s.bulkIn.claimed = s.bulkIn.inFlight + s'.bulkIn.claimed := by
  have hdone : ∀ n, s.readUrb = some n → s.bulkIn.inFlight = 1 ∧ s.bulkIn.claimed = 1 := by
    intro n hurb
    refine ⟨?_, BulkIn.claimed_true (hok.urb n hurb).2.1⟩
    simp only [BulkIn.inFlight, Sys.bulkIn, hurb]
  cases h with
  | dma _ _ => rfl
  | received hurb _ =>
      obtain ⟨hflight, hclaimed⟩ := hdone _ hurb
      rw [hflight, hclaimed]
      rfl
  | readFailed hurb _ _ =>
      obtain ⟨hflight, hclaimed⟩ := hdone _ hurb
      rw [hflight, hclaimed]
      rfl
  | writeDone _ => rfl

/-! ## Blocked threads -/

/-- What the next step of a thread waits for. -/
@[simp] def DrawPc.Ready (s : Sys ι) : DrawPc → Prop
  | .waitAnchor | .killAnchored => s.dev.submitted = 0
  | .killRead => s.readUrb = none

@[simp] def Local.Ready (s : Sys ι) : Local → Prop
  | .read _ _ _ .lock | .write _ _ _ .lock | .flush _ .lock | .disconnect .lock | .reset .lock =>
    s.dev.ioMutex = none
  | .read _ _ _ .wait => s.dev.ongoingRead = false
  | .write _ _ _ .down => s.dev.limitSem ≠ 0
  | .flush _ (.drawDown pc) | .suspend (.drawDown pc) | .reset (.drawDown pc) => pc.Ready s
  | .disconnect .deregister => s.minorRwsem = 0
  | .disconnect .killRead => s.readUrb = none
  | .disconnect .killAnchored => s.dev.submitted = 0
  | _ => True

theorem inside_isSome {P : Type} {i : ι} {c : Call} {at' : P → Local} {r : Result ι P}
    (h : r.isSome = true) : (inside i c at' r).isSome = true := by
  rwa [inside, Option.isSome_map]

theorem drawDown_isSome {P : Type} {inside : DrawPc → P} {after : Next P} {pc : DrawPc}
    {s : Sys ι} (h : pc.Ready s) : (drawDown inside after .go pc s).isSome = true := by
  rw [drawDown, Option.isSome_map]
  cases pc <;> simp_all [skelDrawDown]

/-- A thread that has what it waits for can go on. -/
theorem act_isSome {i : ι} {l : Local} {s : Sys ι} (hl : l ≠ .idle) (h : l.Ready s) :
    (act i .go l s).isSome = true := by
  cases l with
  | idle => exact absurd rfl hl
  | read f count nb pc =>
      refine inside_isSome ?_
      cases pc with
      | doReadIo want keep pc => cases pc <;> rfl
      | retry =>
          simp only [skelRead]
          split <;> rfl
      | filled =>
          simp only [skelRead]
          split
          · split <;> rfl
          · rfl
      | _ => simp_all [skelRead, copyChunk]
  | write f data nb pc =>
      refine inside_isSome ?_
      cases pc with
      | errors =>
          simp only [skelWrite]
          split <;> rfl
      | disconnected =>
          simp only [skelWrite]
          split <;> rfl
      | _ => simp_all [skelWrite]
  | openFile f pc =>
      refine inside_isSome ?_
      cases pc with
      | getIntfdata =>
          simp only [skelOpen]
          split <;> rfl
      | _ => rfl
  | release f pc =>
      refine inside_isSome ?_
      cases pc <;> rfl
  | flush f pc =>
      refine inside_isSome ?_
      cases pc with
      | drawDown pc => exact drawDown_isSome h
      | _ => simp_all [skelFlush]
  | disconnect pc =>
      refine inside_isSome ?_
      cases pc <;> simp_all [skelDisconnect]
  | suspend pc =>
      refine inside_isSome ?_
      cases pc with
      | drawDown pc => exact drawDown_isSome h
      | getIntfdata =>
          simp only [skelSuspend]
          split <;> rfl
  | reset pc =>
      refine inside_isSome ?_
      cases pc with
      | drawDown pc => exact drawDown_isSome h
      | _ => simp_all [skelReset]

/-! ## Runs -/

section

variable [DecidableEq ι] [Fintype ι]

structure Claiming (p : Pool.Config ι (Sys ι) Local) : Prop where
  safe : Safe p
  counted : Counted p
  claims : Pool.Balanced Local.claims (fun s : Sys ι => s.bulkIn.inFlight)
    (fun s => s.bulkIn.claimed) p

theorem claiming_run (bulkInBuffer : List UInt8) (es : List (Event ι)) :
    Claiming (runFrom bulkInBuffer es) := by
  have hstep : ∀ ev (p : Pool.Config ι (Sys ι) Local), Claiming p → Claiming (step ev p).1 := by
    intro ev p h
    refine ⟨safe_step ev h.safe, counted_step ev h.counted, ?_⟩
    refine Pool.Balanced.step (K := Safe) ?_ ?_ ev h.safe h.claims
    · intro i e q l s os hq _ hact
      exact act_claims (hq.locals i) hact
    · intro f q s os hq _ hf
      exact (hardware_cases hf).claims hq.shared
  refine (Machine.inv_run (G := fun _ => True) (fun ev p hp => ⟨hstep ev p hp, fun _ _ => trivial⟩)
    es ⟨safe_start bulkInBuffer, counted_start bulkInBuffer, ?_⟩).1
  simp [Pool.Balanced, start, probed, BulkIn.inFlight, BulkIn.claimed, Sys.bulkIn]

/-- In every state of every run, no thread is inside of a call, or one of those that are can take
its next step, or a transfer is in flight. -/
theorem never_stuck (bulkInBuffer : List UInt8) (es : List (Event ι)) :
    let p := runFrom bulkInBuffer es
    (∀ i, p.locals i = .idle) ∨
      (∃ i, p.locals i ≠ .idle ∧ (act i .go (p.locals i) p.shared).isSome = true) ∨
        p.shared.readUrb ≠ none ∨ p.shared.writeUrbs ≠ [] := by
  intro p
  have h : Claiming p := claiming_run bulkInBuffer es
  clear_value p
  by_contra hstuck
  simp only [not_or, not_forall, not_exists, not_and, not_not] at hstuck
  obtain ⟨⟨i, hi⟩, hblocked, hread, hwrite⟩ := hstuck
  have hnot : ∀ j, p.locals j ≠ .idle → ¬ (p.locals j).Ready p.shared := fun j hj hready =>
    absurd (act_isSome hj hready) (hblocked j hj)
  -- the anchor is empty: an URB on it would be in flight, or a thread's that can go on
  have hanchor : p.shared.dev.submitted = 0 := by
    by_contra hpos
    obtain ⟨j, hj⟩ := h.counted.anchors.exists_pos (by simp [hwrite]; omega)
    have hready := hnot j
    cases hl : p.locals j with
    | write f data nb pc =>
        rw [hl] at hj hready
        cases pc <;> simp at hj hready
    | _ => simp [hl] at hj
  -- no read is going on, for the same reason
  have hongoing : p.shared.dev.ongoingRead = false := by
    by_contra hon
    have htrue : p.shared.bulkIn.ongoing = true := Bool.eq_true_of_not_eq_false hon
    obtain ⟨j, hj⟩ := h.claims.exists_pos (by
      rw [BulkIn.claimed_true htrue, BulkIn.inFlight_none hread]
      exact one_pos)
    have hready := hnot j
    cases hl : p.locals j with
    | read f count nb pc =>
        rw [hl] at hj hready
        cases pc with
        | doReadIo want keep pc => simp at hready
        | _ => simp at hj
    | _ => simp [hl] at hj
  -- so that the holder of the mutex could go on
  have hmutex : p.shared.dev.ioMutex = none := by
    by_contra hheld
    obtain ⟨j, hj⟩ := Option.ne_none_iff_exists'.mp hheld
    have hholds := ((h.safe.locals j).mutex).mp hj
    have hready := hnot j
    cases hl : p.locals j with
    | read f count nb pc =>
        rw [hl] at hholds hready
        cases pc <;> simp [hongoing] at hholds hready
    | write f data nb pc =>
        rw [hl] at hholds hready
        cases pc <;> simp at hholds hready
    | flush f pc =>
        rw [hl] at hholds hready
        cases pc with
        | drawDown pc => cases pc <;> simp [hanchor, hread] at hready
        | _ => simp at hholds hready
    | disconnect pc =>
        rw [hl] at hholds hready
        cases pc <;> simp at hholds hready
    | reset pc =>
        rw [hl] at hholds hready
        cases pc with
        | drawDown pc => cases pc <;> simp [hanchor, hread] at hready
        | _ => simp at hholds hready
    | _ => simp [hl] at hholds
  -- and the holder of a permit
  have hpermit : p.shared.dev.limitSem ≠ 0 := by
    intro hzero
    obtain ⟨j, hj⟩ := h.counted.permits.exists_pos (by simp [hwrite, hzero, writesInFlight])
    have hready := hnot j
    cases hl : p.locals j with
    | write f data nb pc =>
        rw [hl] at hj hready
        cases pc <;> simp [hmutex] at hj hready
    | _ => simp [hl] at hj
  have hout : p.shared.minorRwsem = 0 := by
    by_contra hpos
    obtain ⟨j, hj⟩ := h.counted.opens.exists_pos (Nat.pos_of_ne_zero hpos)
    have hready := hnot j
    cases hl : p.locals j with
    | openFile f pc =>
        rw [hl] at hready
        simp at hready
    | _ => simp [hl, Local.opens] at hj
  have hdraw : ∀ pc : DrawPc, pc.Ready p.shared := by
    intro pc
    cases pc <;> simp [hanchor, hread]
  have hready := hnot i hi
  cases hl : p.locals i with
  | idle => exact hi hl
  | read f count nb pc => cases pc <;> simp [hl, hmutex, hongoing] at hready
  | write f data nb pc => cases pc <;> simp [hl, hmutex, hpermit] at hready
  | disconnect pc => cases pc <;> simp [hl, hmutex, hanchor, hread, hout] at hready
  | flush f pc =>
      rw [hl] at hready
      cases pc with
      | drawDown pc => exact hready (hdraw pc)
      | _ => simp [hmutex] at hready
  | suspend pc =>
      rw [hl] at hready
      cases pc with
      | drawDown pc => exact hready (hdraw pc)
      | _ => simp at hready
  | reset pc =>
      rw [hl] at hready
      cases pc with
      | drawDown pc => exact hready (hdraw pc)
      | _ => simp [hmutex] at hready
  | _ => simp [hl] at hready

end

end Usb
