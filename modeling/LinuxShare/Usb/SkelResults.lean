-- SUMMARY: The results of `skel_read` and `skel_write`, beside the bytes that they have moved.
import LinuxShare.Usb.SkelMutex

/-!
# Results

What a `skel_read` returns is the number of bytes that it was handed. A `skel_write` that
returns `n` has handed the first `n` bytes of its data to the USB core, in one URB, and one
that fails has handed over nothing.
-/

namespace Usb

variable {ι : Type}

/-! ## What can be returned -/

/-- What the result of a `skel_read` of `count` bytes can be: an error, or a number of bytes. -/
def ReadResult (count : Nat) (rv : Int) : Prop := rv < 0 ∨ (0 < rv ∧ rv ≤ count)

@[simp] def ReadPc.Returns (count : Nat) : ReadPc → Prop
  | .clear rv => rv < 0
  | .copy available => available ≠ 0
  | .doReadIo _ keep pc =>
    (∀ rv, keep = some rv → ReadResult count rv) ∧ ∀ rv, pc = .failed rv → rv < 0
  | .exit rv => ReadResult count rv
  | _ => True

@[simp] def WritePc.Returns : WritePc → Prop
  | .unlock rv => rv ≤ 0
  | .unanchor rv | .error rv _ => rv < 0
  | _ => True

@[simp] def Local.Returns : Local → Prop
  | .read _ count _ pc => count ≠ 0 ∧ pc.Returns count
  | .write _ data _ pc => data ≠ [] ∧ pc.Returns
  | _ => True

/-- A read returns nothing only if it was asked for nothing, and a write all that one URB
takes. -/
@[simp] def Out.Honest : Out ι → Prop
  | .ret _ (.read _ count _) rv => ReadResult count rv ∨ (count = 0 ∧ rv = 0)
  | .ret _ (.write _ data _) rv => rv < 0 ∨ rv = writesize data
  | _ => True

theorem returns_afterDoReadIo {count : Nat} {keep : Option Int} {rv : Int}
    (hkeep : ∀ rv', keep = some rv' → ReadResult count rv') :
    (afterDoReadIo keep rv).Returns count := by
  unfold afterDoReadIo
  split
  next rv' => exact hkeep rv' rfl
  next =>
    split
    next hrv => exact .inl hrv
    next => trivial

theorem readResult_copied {count available : Nat} (hcount : count ≠ 0) (havail : available ≠ 0)
    (ok : Bool) :
    ReadResult count (if ok then (min available count : Nat) else -efault) := by
  cases ok with
  | true =>
      right
      simp only [if_true]
      omega
  | false => exact .inl (by simp [efault])

theorem ReadStep.returns {i : ι} {count : Nat} {s s' : Sys ι} {pc : ReadPc} {n : Next ReadPc}
    {os : List (Out ι)} (h : ReadStep i count s pc n s' os) (hcount : count ≠ 0)
    (hpc : pc.Returns count) :
    (∀ p, n = .pc p → p.Returns count) ∧ (∀ rv, n = .ret rv → ReadResult count rv) ∧
      ∀ o ∈ os, o.Honest := by
  cases h with
  | interrupted => exact ⟨by simp, by simp [ReadResult, eintr], by simp⟩
  | gone _ => exact ⟨by simp [ReadResult, enodev], by simp, by simp⟩
  | stop _ hrv => exact ⟨by simp [ReadResult, hrv], by simp, by simp⟩
  | error herror => exact ⟨by simp [herror], by simp, by simp⟩
  | clear hrv => exact ⟨by simpa [ReadResult] using .inl (hrv hpc), by simp, by simp⟩
  | empty _ => exact ⟨by simp, by simp, by simp⟩
  | data hdata => exact ⟨by simpa using hdata, by simp, by simp⟩
  | copy ok hcopy =>
      have hresult := readResult_copied hcount hpc ok
      obtain ⟨-, rfl, ⟨-, rfl⟩ | ⟨-, rfl⟩⟩ := copyChunk_cases hcopy
      · refine ⟨?_, by simp, by simp⟩
        rintro p ⟨⟩
        exact ⟨by rintro rv ⟨⟩; exact hresult, by simp⟩
      · refine ⟨?_, by simp, by simp⟩
        rintro p ⟨⟩
        exact hresult
  | ongoing => exact ⟨by rintro p ⟨⟩; exact ⟨hpc.1, by simp⟩, by simp, by simp⟩
  | fill => exact ⟨by rintro p ⟨⟩; exact ⟨hpc.1, by simp⟩, by simp, by simp⟩
  | submit => exact ⟨by rintro p ⟨⟩; exact returns_afterDoReadIo hpc.1, by simp, by simp⟩
  | refused hrv =>
      exact ⟨by rintro p ⟨⟩; exact ⟨hpc.1, by rintro rv' ⟨⟩; exact hrv⟩, by simp, by simp⟩
  | failed => exact ⟨by rintro p ⟨⟩; exact returns_afterDoReadIo hpc.1, by simp, by simp⟩
  | exit => exact ⟨by simp, by rintro rv ⟨⟩; exact hpc, by simp⟩
  | _ => exact ⟨by simp, by simp, by simp⟩

theorem WriteStep.returns {i : ι} {data : List UInt8} {s s' : Sys ι} {pc : WritePc}
    {n : Next WritePc} {os : List (Out ι)} (h : WriteStep i data s pc n s' os)
    (hpc : pc.Returns) :
    (∀ p, n = .pc p → p.Returns) ∧ (∀ rv, n = .ret rv → rv < 0 ∨ rv = writesize data) ∧
      ∀ o ∈ os, o.Honest := by
  cases h with
  | refused hrv => exact ⟨by simp, by simp [hrv], by simp⟩
  | error hrv => exact ⟨by simp [hrv], by simp, by simp⟩
  | noMemory _ hrv => exact ⟨by simp [hrv], by simp, by simp⟩
  | fault hrv => exact ⟨by simp [hrv], by simp, by simp⟩
  | gone _ hrv => exact ⟨by simp [hrv], by simp, by simp⟩
  | notSubmitted hrv => exact ⟨by rintro p ⟨⟩; exact hrv.le, by simp, by simp⟩
  | failed hrv => exact ⟨by rintro p ⟨⟩; exact lt_of_le_of_ne hpc hrv, by simp, by simp⟩
  | unanchor => exact ⟨by rintro p ⟨⟩; exact hpc, by simp, by simp⟩
  | errorOut => exact ⟨by simp, by rintro rv ⟨⟩; exact .inl hpc, by simp⟩
  | _ => exact ⟨by simp, by simp, by simp⟩

theorem EnterStep.returns {i : ι} {c : Call} {l : Local} {s s' : Sys ι} {os : List (Out ι)}
    (h : EnterStep i s c l s' os) : l.Returns ∧ ∀ o ∈ os, o.Honest := by
  cases h with
  | read _ hcount => exact ⟨⟨hcount, trivial⟩, by simp⟩
  | write _ hdata => exact ⟨⟨hdata, trivial⟩, by simp⟩
  | writeNothing => exact ⟨trivial, by simp [writesize]⟩
  | _ => exact ⟨trivial, by simp⟩

theorem Local.returns_of_io {l : Local} (h : l.io = false) : l.Returns := by
  cases l with
  | read f count nb pc => cases h
  | write f data nb pc => cases h
  | _ => trivial

theorem act_returns {i : ι} {e : Choice} {l l' : Local} {s s' : Sys ι} {os : List (Out ι)}
    (hl : l.Returns) (h : act i e l s = some (l', s', os)) :
    l'.Returns ∧ ∀ o ∈ os, o.Honest := by
  cases l with
  | idle =>
      cases e with
      | call c => exact (enter_cases h).returns
      | _ => cases h
  | read f count nb pc =>
      obtain ⟨p, hr, rfl⟩ | ⟨rv, s₁, os₁, hr, rfl, rfl, rfl⟩ := inside_cases h
      · obtain ⟨hpc, -, hos⟩ := (skelRead_cases hr).returns hl.1 hl.2
        exact ⟨⟨hl.1, hpc p rfl⟩, hos⟩
      · obtain ⟨-, hret, hos⟩ := (skelRead_cases hr).returns hl.1 hl.2
        exact ⟨trivial, List.forall_mem_append.mpr ⟨hos, by simpa using .inl (hret rv rfl)⟩⟩
  | write f data nb pc =>
      obtain ⟨p, hr, rfl⟩ | ⟨rv, s₁, os₁, hr, rfl, rfl, rfl⟩ := inside_cases h
      · obtain ⟨hpc, -, hos⟩ := (skelWrite_cases hr).returns hl.2
        exact ⟨⟨hl.1, hpc p rfl⟩, hos⟩
      · obtain ⟨-, hret, hos⟩ := (skelWrite_cases hr).returns hl.2
        exact ⟨trivial, List.forall_mem_append.mpr ⟨hos, by simpa using hret rv rfl⟩⟩
  | _ =>
      obtain ⟨hio, hos⟩ := act_quiet rfl (by simp) h
      refine ⟨Local.returns_of_io hio, ?_⟩
      rcases hos with rfl | ⟨c, rv, hc, rfl⟩
      · simp
      · cases c with
        | read f count nb => cases hc
        | write f data nb => cases hc
        | _ => simp

/-! ## Who did it -/

@[simp] def Out.author : Out ι → Option ι
  | .received _ _ => none
  | .copied i _ _ | .sent i _ | .ret i _ _ => some i

theorem act_author {i : ι} {e : Choice} {l l' : Local} {s s' : Sys ι} {os : List (Out ι)}
    (h : act i e l s = some (l', s', os)) : ∀ o ∈ os, o.author = some i := by
  cases l with
  | idle =>
      cases e with
      | call c => cases enter_cases h <;> simp
      | _ => cases h
  | read f count nb pc =>
      have hstep : ∀ n s₁ os₁, ReadStep i count s pc n s₁ os₁ → ∀ o ∈ os₁, o.author = some i := by
        intro n s₁ os₁ hr
        cases hr with
        | copy ok hcopy =>
            obtain ⟨-, rfl, -⟩ := copyChunk_cases hcopy
            simp
        | _ => simp
      obtain ⟨p, hr, -⟩ | ⟨rv, s₁, os₁, hr, -, -, rfl⟩ := inside_cases h
      · exact hstep _ _ _ (skelRead_cases hr)
      · exact List.forall_mem_append.mpr ⟨hstep _ _ _ (skelRead_cases hr), by simp⟩
  | write f data nb pc =>
      have hstep : ∀ n s₁ os₁, WriteStep i data s pc n s₁ os₁ → ∀ o ∈ os₁, o.author = some i := by
        intro n s₁ os₁ hr
        cases hr <;> simp
      obtain ⟨p, hr, -⟩ | ⟨rv, s₁, os₁, hr, -, -, rfl⟩ := inside_cases h
      · exact hstep _ _ _ (skelWrite_cases hr)
      · exact List.forall_mem_append.mpr ⟨hstep _ _ _ (skelWrite_cases hr), by simp⟩
  | _ =>
      obtain ⟨-, rfl | ⟨c, rv, -, rfl⟩⟩ := act_quiet rfl (by simp) h <;> simp

/-! ## Accounts of one thread -/

variable [DecidableEq ι]

structure Accountable (p : Pool.Config ι (Sys ι) Local) : Prop where
  safe : Safe p
  returns : ∀ i, (p.locals i).Returns

omit [DecidableEq ι] in
theorem accountable_start (bulkInBuffer : List UInt8) :
    Accountable (start bulkInBuffer : Pool.Config ι (Sys ι) Local) :=
  ⟨safe_start bulkInBuffer, fun _ => trivial⟩

theorem accountable_step (ev : Event ι) {p : Pool.Config ι (Sys ι) Local} (h : Accountable p) :
    Accountable (step ev p).1 ∧ ∀ o ∈ (step ev p).2, o.Honest := by
  have hsafe := safe_step ev h.safe
  obtain ⟨i, e, l, s, os, -, hact, hstep⟩ | ⟨f, s, os, -, hf, hstep⟩ | hstep :=
    Pool.step_cases act hardware ev p
  · obtain ⟨hl, hos⟩ := act_returns (h.returns i) hact
    rw [step, hstep] at hsafe ⊢
    refine ⟨⟨hsafe, fun j => ?_⟩, hos⟩
    by_cases hj : j = i
    · subst hj
      simpa only [Function.update_self] using hl
    · simpa only [Function.update_of_ne hj] using h.returns j
  · rw [step, hstep] at hsafe ⊢
    refine ⟨⟨hsafe, h.returns⟩, ?_⟩
    cases hardware_cases hf <;> simp
  · rw [step, hstep] at hsafe ⊢
    exact ⟨⟨hsafe, h.returns⟩, by simp⟩

/-- What is done inside of the calls of a thread, and what they then report of it, in order. -/
theorem reported_append_owed {B : Type} {i : ι} {done reported : Out ι → List B}
    {owed : Local → List B} (hidle : owed .idle = [])
    (hown : ∀ e l l' (s s' : Sys ι) os, s.bulkIn.Ok → Owns i l s → l.Returns →
      act i e l s = some (l', s', os) → owed l ++ os.flatMap done = os.flatMap reported ++ owed l')
    (hother : ∀ o, o.author ≠ some i → done o = [] ∧ reported o = [])
    (bulkInBuffer : List UInt8) (es : List (Event ι)) :
    (traceFrom bulkInBuffer es).flatMap done =
      (traceFrom bulkInBuffer es).flatMap reported ++
        owed ((runFrom bulkInBuffer es).locals i) := by
  have hnone : ∀ os : List (Out ι), (∀ o ∈ os, o.author ≠ some i) →
      os.flatMap done = [] ∧ os.flatMap reported = [] := by
    intro os hos
    simp only [List.flatMap_eq_nil_iff]
    exact ⟨fun o ho => (hother o (hos o ho)).1, fun o ho => (hother o (hos o ho)).2⟩
  have hstep : ∀ ev (p : Pool.Config ι (Sys ι) Local), Accountable p →
      owed (p.locals i) ++ (step ev p).2.flatMap done =
        (step ev p).2.flatMap reported ++ owed ((step ev p).1.locals i) := by
    intro ev p hp
    obtain ⟨i', e, l, s, os, -, hact, hstep⟩ | ⟨f, s, os, -, hf, hstep⟩ | hstep :=
      Pool.step_cases act hardware ev p
    · rw [step, hstep]
      by_cases hi : i' = i
      · subst hi
        simpa only [Function.update_self] using
          hown _ _ _ _ _ _ hp.safe.shared (hp.safe.locals i') (hp.returns i') hact
      · obtain ⟨hdone, hreported⟩ := hnone os fun o ho => by
          rw [act_author hact o ho]
          simpa using hi
        simp only [hdone, hreported, Function.update_of_ne (Ne.symm hi), List.append_nil,
          List.nil_append]
    · obtain ⟨hdone, hreported⟩ := hnone os fun o ho => by
        cases hardware_cases hf with
        | received _ _ =>
            rw [List.mem_singleton.mp ho]
            simp
        | readFailed _ _ _ =>
            rw [List.mem_singleton.mp ho]
            simp
        | _ => cases ho
      rw [step, hstep, hdone, hreported, List.append_nil, List.nil_append]
    · rw [step, hstep, List.flatMap_nil, List.flatMap_nil, List.append_nil, List.nil_append]
  have hrun := Machine.passed_on (fun ev p hp => (accountable_step ev hp).1) hstep es
    (accountable_start bulkInBuffer)
  have hzero : owed ((start bulkInBuffer : Pool.Config ι (Sys ι) Local).locals i) = [] := hidle
  rwa [hzero, List.nil_append] at hrun

/-! ## Reads -/

/-- A result that stands for bytes. -/
def bytesOf (rv : Int) : List Int := if 0 < rv then [rv] else []

def Out.handedTo (i : ι) : Out ι → List Int
  | .copied j chunk ok => if j = i ∧ ok = true then [chunk.length] else []
  | _ => []

def Out.readBy (i : ι) : Out ι → List Int
  | .ret j (.read _ _ _) rv => if j = i then bytesOf rv else []
  | _ => []

def ReadPc.owed : ReadPc → List Int
  | .exit rv => bytesOf rv
  | .doReadIo _ keep _ => keep.elim [] bytesOf
  | _ => []

def Next.readOwed : Next ReadPc → List Int
  | .pc p => p.owed
  | .ret rv => bytesOf rv

/-- The result that a call of the thread is about to return. -/
def Local.readOwed : Local → List Int
  | .read _ _ _ pc => pc.owed
  | _ => []

theorem bytesOf_of_neg {rv : Int} (h : rv < 0) : bytesOf rv = [] := if_neg (by omega)

theorem owed_afterDoReadIo (keep : Option Int) (rv : Int) :
    (afterDoReadIo keep rv).owed = keep.elim [] bytesOf := by
  cases keep with
  | some rv' => rfl
  | none =>
      simp only [afterDoReadIo]
      split
      · exact bytesOf_of_neg ‹_›
      · rfl

/-- One step of `skel_read` owes what it has handed over. -/
theorem ReadStep.account {i : ι} {count : Nat} {s s' : Sys ι} {pc : ReadPc} {n : Next ReadPc}
    {os : List (Out ι)} (h : ReadStep i count s pc n s' os) (hok : s.bulkIn.Ok)
    (hknows : pc.Knows s.bulkIn s.dev.disconnected) (hcount : count ≠ 0) (hpc : pc.Returns count) :
    pc.owed ++ os.flatMap (Out.handedTo i) = n.readOwed ∧ os.flatMap (Out.readBy i) = [] := by
  cases h with
  | interrupted => exact ⟨rfl, rfl⟩
  | gone _ => exact ⟨rfl, rfl⟩
  | stop hpc hrv =>
      have hnone : bytesOf _ = [] := bytesOf_of_neg hrv
      refine ⟨?_, rfl⟩
      rcases hpc with rfl | rfl <;> exact hnone.symm
  | ready hpc _ => exact ⟨by rcases hpc with rfl | rfl <;> rfl, rfl⟩
  | clear hrv => exact ⟨(bytesOf_of_neg (hrv hpc)).symm, rfl⟩
  | copy ok hcopy =>
      obtain ⟨-, rfl, hpos⟩ := hknows
      have hsize : s.dev.bulkInBuffer.length = s.dev.bulkInSize := hok.size
      have hfilled : s.dev.bulkInFilled ≤ s.dev.bulkInSize := hok.filled
      obtain ⟨-, rfl, ⟨-, rfl⟩ | ⟨-, rfl⟩⟩ := copyChunk_cases hcopy
      all_goals
        refine ⟨?_, rfl⟩
        simp only [Sys.bulkIn] at hpos ⊢
        cases ok with
        | false => simp [Next.readOwed, ReadPc.owed, Out.handedTo, bytesOf, efault]
        | true =>
            have hlen : ((s.dev.bulkInBuffer.drop s.dev.bulkInCopied).take
                (min (s.dev.bulkInFilled - s.dev.bulkInCopied) count)).length =
                min (s.dev.bulkInFilled - s.dev.bulkInCopied) count := by
              rw [List.length_take, List.length_drop]
              omega
            have hchunk : 0 < min (s.dev.bulkInFilled - s.dev.bulkInCopied) count := by omega
            simp only [Next.readOwed, ReadPc.owed, Out.handedTo, bytesOf, Option.elim, List.flatMap_cons, List.flatMap_nil,
              hlen, if_true, and_self, List.append_nil, List.nil_append]
            exact (if_pos (by exact_mod_cast hchunk)).symm
  | submit => exact ⟨(List.append_nil _).trans (owed_afterDoReadIo _ _).symm, rfl⟩
  | failed => exact ⟨(List.append_nil _).trans (owed_afterDoReadIo _ _).symm, rfl⟩
  | exit => exact ⟨List.append_nil _, rfl⟩
  | ongoing => exact ⟨List.append_nil _, rfl⟩
  | fill => exact ⟨List.append_nil _, rfl⟩
  | refused _ => exact ⟨List.append_nil _, rfl⟩
  | _ => exact ⟨rfl, rfl⟩

omit [DecidableEq ι] in
theorem flatMap_of_io {B : Type} {f g : Out ι → List B} {i : ι} {os : List (Out ι)}
    (hf : ∀ c rv, c.io = false → f (.ret i c rv) = [])
    (hg : ∀ c rv, c.io = false → g (.ret i c rv) = [])
    (hos : os = [] ∨ ∃ c rv, c.io = false ∧ os = [.ret i c rv]) :
    os.flatMap f = [] ∧ os.flatMap g = [] := by
  rcases hos with rfl | ⟨c, rv, hc, rfl⟩
  · exact ⟨rfl, rfl⟩
  · simp [hf c rv hc, hg c rv hc]

/-- In every run, the lengths of the chunks that a thread was handed are, in order, the results
of its reads that returned bytes, and the one that its read is about to return. -/
theorem handed_eq_read_append_owed (bulkInBuffer : List UInt8) (es : List (Event ι)) (i : ι) :
    (traceFrom bulkInBuffer es).flatMap (Out.handedTo i) =
      (traceFrom bulkInBuffer es).flatMap (Out.readBy i) ++
        ((runFrom bulkInBuffer es).locals i).readOwed := by
  refine reported_append_owed rfl ?_ ?_ bulkInBuffer es
  · intro e l l' s s' os hok ho hreturns h
    cases l with
    | idle =>
        cases e with
        | call c =>
            cases enter_cases h <;>
              simp [Out.handedTo, Out.readBy, Local.readOwed, ReadPc.owed, bytesOf]
        | _ => cases h
    | read f count nb pc =>
        obtain ⟨p, hr, rfl⟩ | ⟨rv, s₁, os₁, hr, rfl, -, rfl⟩ := inside_cases h
        · obtain ⟨howed, hread⟩ :=
            (skelRead_cases hr).account hok ho.knows hreturns.1 hreturns.2
          rw [hread]
          exact howed
        · obtain ⟨howed, hread⟩ :=
            (skelRead_cases hr).account hok ho.knows hreturns.1 hreturns.2
          simp only [List.flatMap_append, hread, List.flatMap_cons, List.flatMap_nil]
          simpa [Out.handedTo, Out.readBy, Local.readOwed, Next.readOwed] using howed
    | write f data nb pc =>
        have hnone : ∀ n s₁ os₁, WriteStep i data s pc n s₁ os₁ →
            os₁.flatMap (Out.handedTo i) = [] ∧ os₁.flatMap (Out.readBy i) = [] := by
          intro n s₁ os₁ hr
          cases hr <;> exact ⟨rfl, rfl⟩
        obtain ⟨p, hr, rfl⟩ | ⟨rv, s₁, os₁, hr, rfl, -, rfl⟩ := inside_cases h
        all_goals
          obtain ⟨hf, hg⟩ := hnone _ _ _ (skelWrite_cases hr)
          simp [List.flatMap_append, hf, hg, Out.handedTo, Out.readBy, Local.readOwed]
    | _ =>
        obtain ⟨hio, hos⟩ := act_quiet rfl (by simp) h
        obtain ⟨hf, hg⟩ := flatMap_of_io (f := Out.handedTo i) (g := Out.readBy i)
          (fun _ _ _ => rfl) (fun c _ hc => by cases c <;> first | rfl | cases hc) hos
        rw [hf, hg]
        cases l' with
        | read f count nb pc => cases hio
        | _ => rfl
  · intro o ho
    cases o with
    | copied j chunk ok => simp_all [Out.handedTo, Out.readBy]
    | ret j c rv => cases c <;> simp_all [Out.handedTo, Out.readBy]
    | _ => exact ⟨rfl, rfl⟩

/-! ## Writes -/

def Out.sentBy (i : ι) : Out ι → List (List UInt8)
  | .sent j payload => if j = i then [payload] else []
  | _ => []

/-- The bytes that a result stands for. -/
def firstBytes (data : List UInt8) (rv : Int) : List (List UInt8) :=
  if 0 < rv then [data.take rv.toNat] else []

def Out.writtenBy (i : ι) : Out ι → List (List UInt8)
  | .ret j (.write _ data _) rv => if j = i then firstBytes data rv else []
  | _ => []

def WritePc.owed (data : List UInt8) : WritePc → List (List UInt8)
  | .unlock rv => if rv = 0 then [data.take (writesize data)] else []
  | _ => []

def Next.writeOwed (data : List UInt8) : Next WritePc → List (List UInt8)
  | .pc p => p.owed data
  | .ret rv => firstBytes data rv

/-- What a call of the thread has sent and is about to report. -/
def Local.writeOwed : Local → List (List UInt8)
  | .write _ data _ pc => pc.owed data
  | _ => []

theorem firstBytes_of_neg {data : List UInt8} {rv : Int} (h : rv < 0) : firstBytes data rv = [] :=
  if_neg (by omega)

theorem firstBytes_writesize {data : List UInt8} (h : data ≠ []) :
    firstBytes data (writesize data) = [data.take (writesize data)] := by
  have hpos : 0 < writesize data := Nat.lt_min.mpr ⟨List.length_pos_iff.mpr h, by decide⟩
  exact if_pos (by exact_mod_cast hpos)

/-- One step of `skel_write` owes what it has sent. -/
theorem WriteStep.account {i : ι} {data : List UInt8} {s s' : Sys ι} {pc : WritePc}
    {n : Next WritePc} {os : List (Out ι)} (h : WriteStep i data s pc n s' os)
    (hdata : data ≠ []) (hpc : pc.Returns) :
    pc.owed data ++ os.flatMap (Out.sentBy i) = n.writeOwed data ∧
      os.flatMap (Out.writtenBy i) = [] := by
  cases h with
  | refused hrv => exact ⟨(firstBytes_of_neg hrv).symm, rfl⟩
  | noMemory hpc _ => exact ⟨by rcases hpc with rfl | rfl <;> rfl, rfl⟩
  | submit => exact ⟨by simp [WritePc.owed, Next.writeOwed, Out.sentBy], rfl⟩
  | notSubmitted hrv => exact ⟨by simp [WritePc.owed, Next.writeOwed, hrv.ne], rfl⟩
  | sent => exact ⟨by simp [WritePc.owed, Next.writeOwed, firstBytes_writesize hdata], rfl⟩
  | failed hrv => exact ⟨by simp [WritePc.owed, Next.writeOwed, hrv], rfl⟩
  | errorOut => exact ⟨(firstBytes_of_neg hpc).symm, rfl⟩
  | _ => exact ⟨rfl, rfl⟩

/-- In every run, the payloads of the URBs that the core has accepted from a thread are, in
order, the first bytes of its writes' data, as many as each of them returned, and those of the
write that is about to return. -/
theorem sent_eq_written_append_owed (bulkInBuffer : List UInt8) (es : List (Event ι)) (i : ι) :
    (traceFrom bulkInBuffer es).flatMap (Out.sentBy i) =
      (traceFrom bulkInBuffer es).flatMap (Out.writtenBy i) ++
        ((runFrom bulkInBuffer es).locals i).writeOwed := by
  refine reported_append_owed rfl ?_ ?_ bulkInBuffer es
  · intro e l l' s s' os hok ho hreturns h
    cases l with
    | idle =>
        cases e with
        | call c =>
            cases enter_cases h <;>
              simp [Out.sentBy, Out.writtenBy, Local.writeOwed, WritePc.owed, firstBytes]
        | _ => cases h
    | read f count nb pc =>
        have hnone : ∀ n s₁ os₁, ReadStep i count s pc n s₁ os₁ →
            os₁.flatMap (Out.sentBy i) = [] ∧ os₁.flatMap (Out.writtenBy i) = [] := by
          intro n s₁ os₁ hr
          cases hr with
          | copy ok hcopy =>
              obtain ⟨-, rfl, -⟩ := copyChunk_cases hcopy
              exact ⟨rfl, rfl⟩
          | _ => exact ⟨rfl, rfl⟩
        obtain ⟨p, hr, rfl⟩ | ⟨rv, s₁, os₁, hr, rfl, -, rfl⟩ := inside_cases h
        all_goals
          obtain ⟨hf, hg⟩ := hnone _ _ _ (skelRead_cases hr)
          simp [List.flatMap_append, hf, hg, Out.sentBy, Out.writtenBy, Local.writeOwed]
    | write f data nb pc =>
        obtain ⟨p, hr, rfl⟩ | ⟨rv, s₁, os₁, hr, rfl, -, rfl⟩ := inside_cases h
        · obtain ⟨howed, hwritten⟩ := (skelWrite_cases hr).account hreturns.1 hreturns.2
          rw [hwritten]
          exact howed
        · obtain ⟨howed, hwritten⟩ := (skelWrite_cases hr).account hreturns.1 hreturns.2
          simp only [List.flatMap_append, hwritten, List.flatMap_cons, List.flatMap_nil]
          simpa [Out.sentBy, Out.writtenBy, Local.writeOwed, Next.writeOwed] using howed
    | _ =>
        obtain ⟨hio, hos⟩ := act_quiet rfl (by simp) h
        obtain ⟨hf, hg⟩ := flatMap_of_io (f := Out.sentBy i) (g := Out.writtenBy i)
          (fun _ _ _ => rfl) (fun c _ hc => by cases c <;> first | rfl | cases hc) hos
        rw [hf, hg]
        cases l' with
        | write f data nb pc => cases hio
        | _ => rfl
  · intro o ho
    cases o with
    | sent j payload => simp_all [Out.sentBy, Out.writtenBy]
    | ret j c rv => cases c <;> simp_all [Out.sentBy, Out.writtenBy]
    | _ => exact ⟨rfl, rfl⟩

/-- Every call of every run returns an error, or the number of bytes that it moved: between one
and what was asked for, of a read, and all that one URB takes, of a write. -/
theorem results_honest (bulkInBuffer : List UInt8) (es : List (Event ι)) :
    ∀ o ∈ traceFrom bulkInBuffer es, o.Honest :=
  (Machine.inv_run (fun ev _ hp => accountable_step ev hp) es (accountable_start bulkInBuffer)).2

end Usb
