-- SUMMARY: What becomes of the bytes that the device sends to the USB skeleton driver.
import LinuxShare.Usb.SkelMutex

/-!
# The stream of a device

What the device sends is settled in the order in which it came, once, up to what waits in
the buffer. A byte is settled when `copy_to_user` has copied its chunk to a reader, but
also when that fails, since `bulk_in_copied` advances all the same, and when its transfer
ends with an error, since `bulk_in_filled` stays at zero then.
-/

namespace Usb

variable {ι : Type}

def Sys.pending (s : Sys ι) : List UInt8 := s.bulkIn.pending

inductive Fate where
  | handed
  | faulted
  | dropped
deriving DecidableEq

@[simp] def Out.sentBytes : Out ι → List UInt8
  | .received _ data => data
  | _ => []

/-- The bytes of a chunk that `copy_to_user` has copied to its end. -/
@[simp] def Out.handedBytes : Out ι → List UInt8
  | .copied _ chunk true => chunk
  | _ => []

/-- The bytes that no call of `skel_read` comes back to. -/
@[simp] def Out.settled : Out ι → List (Fate × UInt8)
  | .received status data => if status = 0 then [] else data.map (Fate.dropped, ·)
  | .copied _ chunk ok => chunk.map (if ok then Fate.handed else Fate.faulted, ·)
  | _ => []

def Out.settledBytes (o : Out ι) : List UInt8 := o.settled.map Prod.snd

/-- The transfer or the copy has not failed. -/
@[simp] def Out.Succeeded : Out ι → Prop
  | .received status _ => status = 0
  | .copied _ _ ok => ok = true
  | _ => True

@[simp] theorem Out.settledBytes_copied (i : ι) (chunk : List UInt8) (ok : Bool) :
    (Out.copied i chunk ok).settledBytes = chunk := by
  simp [Out.settledBytes, Function.comp_def]

@[simp] theorem Out.settledBytes_received (status : Int) (data : List UInt8) :
    (Out.received status data : Out ι).settledBytes = if status = 0 then [] else data := by
  by_cases hstatus : status = 0 <;> simp [Out.settledBytes, hstatus, Function.comp_def]

@[simp] theorem Out.settledBytes_sent (i : ι) (payload : List UInt8) :
    (Out.sent i payload).settledBytes = [] := rfl

@[simp] theorem Out.settledBytes_ret (i : ι) (c : Call) (rv : Int) :
    (Out.ret i c rv).settledBytes = [] := rfl

theorem Out.handed_settled (o : Out ι) :
    (o.settled.filter (·.1 = .handed)).map Prod.snd = o.handedBytes := by
  cases o with
  | received status data => by_cases hstatus : status = 0 <;> simp [hstatus, List.filter_map]
  | copied i chunk ok => cases ok <;> simp [List.filter_map, Function.comp_def]
  | _ => rfl

theorem Out.Succeeded.settledBytes {o : Out ι} (h : o.Succeeded) :
    o.settledBytes = o.handedBytes := by
  cases o with
  | received status data => simp [show status = 0 from h]
  | copied i chunk ok => simp [show ok = true from h]
  | _ => rfl

/-- A step settles what it takes from the pending bytes. -/
def PassesOn (s s' : Sys ι) (os : List (Out ι)) : Prop :=
  s.pending ++ os.flatMap Out.sentBytes = os.flatMap Out.settledBytes ++ s'.pending

theorem PassesOn.of_eq {s s' : Sys ι} {os : List (Out ι)} (hpending : s'.pending = s.pending)
    (hsent : os.flatMap Out.sentBytes = []) (hsettled : os.flatMap Out.settledBytes = []) :
    PassesOn s s' os := by
  rw [PassesOn, hsent, hsettled, hpending, List.append_nil, List.nil_append]

theorem pending_copy {b : BulkIn} {k : Nat} (hk : k ≤ b.filled - b.copied) :
    b.pending = (b.buffer.drop b.copied).take k ++ { b with copied := b.copied + k }.pending := by
  have hlen : b.filled - b.copied = k + (b.filled - (b.copied + k)) := by omega
  rw [BulkIn.pending, BulkIn.pending, hlen, List.take_add, List.drop_drop]

theorem ReadStep.passesOn {i : ι} {count : Nat} {s s' : Sys ι} {pc : ReadPc} {n : Next ReadPc}
    {os : List (Out ι)} (h : ReadStep i count s pc n s' os)
    (hknows : pc.Knows s.bulkIn s.dev.disconnected) : PassesOn s s' os := by
  cases h with
  | copy ok hcopy =>
      obtain ⟨-, rfl, -⟩ := hknows
      obtain ⟨rfl, rfl, -⟩ := copyChunk_cases hcopy
      have hcopied := pending_copy (b := s.bulkIn)
        (Nat.min_le_left (s.bulkIn.filled - s.bulkIn.copied) count)
      simpa [PassesOn, Sys.pending, Sys.bulkIn] using hcopied
  | fill =>
      obtain ⟨-, hempty⟩ := hknows
      exact .of_eq (BulkIn.pending_eq_nil hempty).symm rfl rfl
  | _ => exact .of_eq rfl rfl rfl

theorem HardwareStep.passesOn {s s' : Sys ι} {os : List (Out ι)} (h : HardwareStep s s' os)
    (hok : s.bulkIn.Ok) : PassesOn s s' os := by
  have hempty : ∀ n, s.readUrb = some n → s.dev.bulkInFilled = 0 ∧ s.dev.bulkInCopied = 0 := by
    intro n hurb
    have hfilled : s.dev.bulkInFilled = 0 := (hok.urb n hurb).2.2
    have hcopied : s.dev.bulkInCopied ≤ s.dev.bulkInFilled := hok.copied
    omega
  cases h with
  | dma hurb hlen =>
      obtain ⟨hfilled, hcopied⟩ := hempty _ hurb
      refine .of_eq ?_ rfl rfl
      simp [Sys.pending, Sys.bulkIn, BulkIn.pending, UsbSkel.dma, hfilled]
  | received hurb hlen =>
      obtain ⟨hfilled, hcopied⟩ := hempty _ hurb
      simp [PassesOn, Sys.pending, Sys.bulkIn, BulkIn.pending, UsbSkel.dma, hfilled, hcopied]
  | readFailed hurb hlen hstatus =>
      obtain ⟨hfilled, hcopied⟩ := hempty _ hurb
      simp [PassesOn, Sys.pending, Sys.bulkIn, BulkIn.pending, UsbSkel.dma, hfilled, hstatus]
  | writeDone _ => exact .of_eq rfl rfl rfl

theorem act_passesOn {i : ι} {e : Choice} {l l' : Local} {s s' : Sys ι} {os : List (Out ι)}
    (ho : Owns i l s) (h : act i e l s = some (l', s', os)) : PassesOn s s' os := by
  have hother : (∀ f count nb pc, l ≠ .read f count nb pc) →
      os.flatMap Out.sentBytes = [] → os.flatMap Out.settledBytes = [] → PassesOn s s' os :=
    fun hl hsent hsettled => .of_eq (congrArg BulkIn.pending (act_bulkIn hl h)) hsent hsettled
  cases l with
  | idle =>
      cases e with
      | call c => cases enter_cases h <;> exact hother (by simp) rfl rfl
      | _ => cases h
  | read f count nb pc =>
      obtain ⟨p, hr, -⟩ | ⟨rv, s₁, os₁, hr, -, rfl, rfl⟩ := inside_cases h
      · exact (skelRead_cases hr).passesOn ho.knows
      · simpa [PassesOn, Sys.pending, (leave_view _ s₁).2] using
          (skelRead_cases hr).passesOn ho.knows
  | write f data nb pc =>
      have hnone : ∀ n s₁ os₁, WriteStep i data s pc n s₁ os₁ →
          os₁.flatMap Out.sentBytes = [] ∧ os₁.flatMap Out.settledBytes = [] := by
        intro n s₁ os₁ hr
        cases hr <;> exact ⟨rfl, rfl⟩
      obtain ⟨p, hr, -⟩ | ⟨rv, s₁, os₁, hr, -, -, rfl⟩ := inside_cases h
      all_goals
        obtain ⟨hsent, hsettled⟩ := hnone _ _ _ (skelWrite_cases hr)
        exact hother (by simp) (by simp [hsent]) (by simp [hsettled])
  | _ =>
      obtain ⟨-, rfl | ⟨c, rv, -, rfl⟩⟩ := act_quiet rfl (by simp) h <;>
        exact hother (by simp) rfl rfl

variable [DecidableEq ι]

theorem sent_eq_settled_append_pending (bulkInBuffer : List UInt8) (es : List (Event ι)) :
    (traceFrom bulkInBuffer es).flatMap Out.sentBytes =
      (traceFrom bulkInBuffer es).flatMap Out.settledBytes ++
        (runFrom bulkInBuffer es).shared.pending := by
  have hstep : ∀ ev (p : Pool.Config ι (Sys ι) Local), Safe p →
      PassesOn p.shared (step ev p).1.shared (step ev p).2 := by
    intro ev p hp
    obtain ⟨i, e, l, s, os, -, hact, hstep⟩ | ⟨f, s, os, -, hf, hstep⟩ | hstep :=
      Pool.step_cases act hardware ev p
    · rw [step, hstep]
      exact act_passesOn (hp.locals i) hact
    · rw [step, hstep]
      exact (hardware_cases hf).passesOn hp.shared
    · rw [step, hstep]
      exact .of_eq rfl rfl rfl
  have hrun := Machine.passed_on (fun ev p hp => safe_step ev hp) hstep es
    (safe_start bulkInBuffer)
  have hempty : (start bulkInBuffer : Pool.Config ι (Sys ι) Local).shared.pending = [] :=
    BulkIn.pending_eq_nil rfl
  rwa [hempty, List.nil_append] at hrun

/-- In every run, what the device has sent is what has been settled, byte for byte and in order,
followed by what waits in the buffer. The settled bytes that were handed on are those of the
chunks that were copied; while no transfer and no copy fails these are all of them. -/
theorem stream_settled (bulkInBuffer : List UInt8) (es : List (Event ι)) :
    let os := traceFrom bulkInBuffer es
    let settled := os.flatMap Out.settled
    let pending := (runFrom bulkInBuffer es).shared.pending
    os.flatMap Out.sentBytes = settled.map Prod.snd ++ pending ∧
      (settled.filter (·.1 = .handed)).map Prod.snd = os.flatMap Out.handedBytes ∧
      ((∀ o ∈ os, o.Succeeded) →
        os.flatMap Out.sentBytes = os.flatMap Out.handedBytes ++ pending) := by
  intro os settled pending
  have hsent : os.flatMap Out.sentBytes = os.flatMap Out.settledBytes ++ pending :=
    sent_eq_settled_append_pending bulkInBuffer es
  refine ⟨?_, ?_, fun hok => ?_⟩
  · rw [hsent, List.map_flatMap]
    rfl
  · rw [List.filter_flatMap, List.map_flatMap]
    exact List.flatMap_congr fun o _ => o.handed_settled
  · rw [hsent, List.flatMap_congr fun o ho => (hok o ho).settledBytes]

end Usb
