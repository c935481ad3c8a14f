-- SUMMARY: What `io_mutex` protects in the USB skeleton driver: the bulk-in buffer, from every other thread and from the hardware.
import LinuxShare.Usb.SkelSystem

/-!
# The I/O mutex

One thread holds `io_mutex` at a time, and only that thread touches the bulk-in side of the
device. A thread that looks at the buffer knows that no read URB is in flight, so that the
hardware does not write to it meanwhile.
-/

namespace Usb

variable {ι : Type}

/-! ## The bulk-in side -/

structure BulkIn where
  ongoing : Bool
  filled : Nat
  copied : Nat
  size : Nat
  buffer : List UInt8
  urb : Option Nat

def Sys.bulkIn (s : Sys ι) : BulkIn where
  ongoing := s.dev.ongoingRead
  filled := s.dev.bulkInFilled
  copied := s.dev.bulkInCopied
  size := s.dev.bulkInSize
  buffer := s.dev.bulkInBuffer
  urb := s.readUrb

namespace BulkIn

structure Ok (b : BulkIn) : Prop where
  size : b.buffer.length = b.size
  copied : b.copied ≤ b.filled
  filled : b.filled ≤ b.size
  urb : ∀ n, b.urb = some n → n ≤ b.size ∧ b.ongoing = true ∧ b.filled = 0

/-- What has been received and not been handed on yet. -/
def pending (b : BulkIn) : List UInt8 := (b.buffer.drop b.copied).take (b.filled - b.copied)

theorem Ok.urb_none {b : BulkIn} (h : b.Ok) (hidle : b.ongoing = false) : b.urb = none := by
  cases hurb : b.urb with
  | none => rfl
  | some n => exact absurd (h.urb n hurb).2.1 (by simp [hidle])

variable {b : BulkIn}

theorem Ok.copy (h : b.Ok) {k : Nat} (hk : k ≤ b.filled - b.copied) :
    { b with copied := b.copied + k }.Ok :=
  ⟨h.size, by have := h.copied; simp only; omega, h.filled, h.urb⟩

theorem Ok.claim (h : b.Ok) : { b with ongoing := true }.Ok :=
  ⟨h.size, h.copied, h.filled, fun n hn => ⟨(h.urb n hn).1, rfl, (h.urb n hn).2.2⟩⟩

theorem Ok.fill (h : b.Ok) (hurb : b.urb = none) : { b with filled := 0, copied := 0 }.Ok :=
  ⟨h.size, Nat.le_refl 0, Nat.zero_le _, by simp [hurb]⟩

theorem Ok.submit (h : b.Ok) (hongoing : b.ongoing = true) (hfilled : b.filled = 0) (want : Nat) :
    { b with urb := some (min b.size want) }.Ok := by
  refine ⟨h.size, h.copied, h.filled, fun n hn => ?_⟩
  cases hn
  exact ⟨Nat.min_le_left _ _, hongoing, hfilled⟩

theorem Ok.giveUp (h : b.Ok) (hurb : b.urb = none) : { b with ongoing := false }.Ok :=
  ⟨h.size, h.copied, h.filled, by simp [hurb]⟩

/-- While a URB is in flight the hardware may write to the buffer. -/
theorem Ok.dma (h : b.Ok) {n : Nat} (hurb : b.urb = some n) {data : List UInt8}
    (hlen : data.length ≤ n) : { b with buffer := data ++ b.buffer.drop data.length }.Ok := by
  refine ⟨?_, h.copied, h.filled, h.urb⟩
  have hn := (h.urb n hurb).1
  rw [List.length_append, List.length_drop, ← h.size]
  rw [← h.size] at hn
  omega

theorem Ok.complete (h : b.Ok) : { b with ongoing := false, urb := none }.Ok :=
  ⟨h.size, h.copied, h.filled, by simp⟩

theorem Ok.receive (h : b.Ok) {n k : Nat} (hurb : b.urb = some n) (hk : k ≤ n) :
    { b with ongoing := false, urb := none, filled := k }.Ok := by
  obtain ⟨hn, -, hfilled⟩ := h.urb n hurb
  have hcopied := h.copied
  exact ⟨h.size, by simp only; omega, by simp only; omega, by simp⟩

theorem pending_eq_nil (h : b.filled - b.copied = 0) : b.pending = [] := by
  rw [pending, h, List.take_zero]

end BulkIn

/-! ## What a thread knows -/

@[simp] def ReadPc.holdsIo : ReadPc → Bool
  | .lock => false
  | _ => true

@[simp] def WritePc.holdsIo : WritePc → Bool
  | .disconnected | .anchor | .submit | .unlock _ => true
  | _ => false

@[simp] def FlushPc.holdsIo : FlushPc → Bool
  | .lock => false
  | _ => true

@[simp] def DisconnectPc.holdsIo : DisconnectPc → Bool
  | .disconnected | .unlock => true
  | _ => false

@[simp] def ResetPc.holdsIo : ResetPc → Bool
  | .lock => false
  | _ => true

@[simp] def Local.holdsIo : Local → Bool
  | .read _ _ _ pc => pc.holdsIo
  | .write _ _ _ pc => pc.holdsIo
  | .flush _ pc => pc.holdsIo
  | .disconnect pc => pc.holdsIo
  | .reset pc => pc.holdsIo
  | .idle | .openFile _ _ | .release _ _ | .suspend _ => false

/-- The device is there and no read is going on. -/
structure Quiet (b : BulkIn) (disconnected : Bool) : Prop where
  present : disconnected = false
  idle : b.ongoing = false

/-- The device is there, and the thread has claimed the URB and not submitted it yet. -/
structure Claimed (b : BulkIn) (disconnected : Bool) : Prop where
  present : disconnected = false
  ongoing : b.ongoing = true
  urb : b.urb = none

@[simp] def ReadPc.Knows (b : BulkIn) (disconnected : Bool) : ReadPc → Prop
  | .lock | .disconnected | .exit _ => True
  | .retry | .wait => disconnected = false
  | .errors | .clear _ | .filled => Quiet b disconnected
  | .copy available =>
    Quiet b disconnected ∧ available = b.filled - b.copied ∧ b.filled - b.copied ≠ 0
  | .doReadIo _ _ .ongoing => Quiet b disconnected ∧ b.filled - b.copied = 0
  | .doReadIo _ _ .fill => Claimed b disconnected ∧ b.filled - b.copied = 0
  | .doReadIo _ _ .submit | .doReadIo _ _ (.failed _) => Claimed b disconnected ∧ b.filled = 0

@[simp] def WritePc.Knows (disconnected : Bool) : WritePc → Prop
  | .anchor | .submit => disconnected = false
  | _ => True

@[simp] def Local.Knows (b : BulkIn) (disconnected : Bool) : Local → Prop
  | .read _ _ _ pc => pc.Knows b disconnected
  | .write _ _ _ pc => pc.Knows disconnected
  | _ => True

structure Owns (i : ι) (l : Local) (s : Sys ι) : Prop where
  mutex : s.dev.ioMutex = some i ↔ l.holdsIo = true
  knows : l.Knows s.bulkIn s.dev.disconnected

/-- Nothing is known without the mutex. -/
theorem Local.knows_of_holdsIo {l : Local} {b : BulkIn} {d : Bool}
    (h : l.holdsIo = true → l.Knows b d) : l.Knows b d := by
  cases l with
  | read f count nb pc =>
      cases pc with
      | lock => trivial
      | _ => exact h rfl
  | write f data nb pc =>
      cases pc with
      | anchor => exact h rfl
      | submit => exact h rfl
      | _ => trivial
  | _ => trivial

/-! ## What a thread leaves alone -/

/-- The thread `i` takes the mutex when it is free and gives up its own, and touches what the
mutex protects while it holds it. -/
structure Guarantee (i : ι) (s s' : Sys ι) : Prop where
  mutex : s'.dev.ioMutex = s.dev.ioMutex ∨ (s.dev.ioMutex = none ∧ s'.dev.ioMutex = some i) ∨
    (s.dev.ioMutex = some i ∧ s'.dev.ioMutex = none)
  bulkIn : s.dev.ioMutex ≠ some i → s'.bulkIn = s.bulkIn
  disconnected : s.dev.ioMutex ≠ some i → s'.dev.disconnected = s.dev.disconnected

theorem Guarantee.owns {i j : ι} {s s' : Sys ι} {l : Local} (h : Guarantee i s s') (hj : j ≠ i)
    (ho : Owns j l s) : Owns j l s' := by
  have hmutex : s'.dev.ioMutex = some j ↔ s.dev.ioMutex = some j := by
    rcases h.mutex with heq | ⟨hs, hs'⟩ | ⟨hs, hs'⟩
    · rw [heq]
    · simp [hs, hs', hj.symm]
    · simp [hs, hs', hj.symm]
  refine ⟨hmutex.trans ho.mutex, Local.knows_of_holdsIo fun hl => ?_⟩
  have hnot : s.dev.ioMutex ≠ some i := by
    rw [ho.mutex.mpr hl]
    simpa using hj
  rw [h.bulkIn hnot, h.disconnected hnot]
  exact ho.knows

/-! ## The functions -/

/-- A step that is taken from `s` at a place where `held` says whether the thread holds the
mutex. -/
structure Sound {P : Type} (i : ι) (holds : P → Bool) (knows : BulkIn → Bool → P → Prop)
    (s : Sys ι) (n : Next P) (s' : Sys ι) : Prop where
  guarantee : Guarantee i s s'
  ok : s'.bulkIn.Ok
  pc : ∀ p, n = .pc p →
    (s'.dev.ioMutex = some i ↔ holds p = true) ∧ knows s'.bulkIn s'.dev.disconnected p
  ret : ∀ rv, n = .ret rv → s'.dev.ioMutex ≠ some i

section

variable {i : ι} {s s' : Sys ι} {P : Type} {holds : P → Bool} {knows : BulkIn → Bool → P → Prop}
  {n : Next P}

/-- A step that takes the mutex. -/
theorem Sound.take (hok : s.bulkIn.Ok) (hfree : s.dev.ioMutex = none) {p : P}
    (hknows : knows s.bulkIn s.dev.disconnected p) (hholds : holds p = true := by rfl) :
    Sound i holds knows s (.pc p) { s with dev.ioMutex := some i } where
  guarantee := ⟨.inr (.inl ⟨hfree, rfl⟩), fun _ => rfl, fun _ => rfl⟩
  ok := hok
  pc := by
    intro p' hp
    cases hp
    exact ⟨by simp [hholds], hknows⟩
  ret := by simp

/-- A step that gives the mutex up. -/
theorem Sound.drop (hok : s.bulkIn.Ok) (hheld : s.dev.ioMutex = some i)
    (hpc : ∀ p, n = .pc p → holds p = false ∧ knows s.bulkIn s.dev.disconnected p) :
    Sound i holds knows s n { s with dev.ioMutex := none } where
  guarantee := ⟨.inr (.inr ⟨hheld, rfl⟩), fun _ => rfl, fun _ => rfl⟩
  ok := hok
  pc := by
    intro p hp
    obtain ⟨hfree, hknows⟩ := hpc p hp
    exact ⟨by simp [hfree], hknows⟩
  ret := by simp

/-- A step on what the mutex protects, by its holder. -/
theorem Sound.within (hheld : s.dev.ioMutex = some i) (hok : s'.bulkIn.Ok) {p : P}
    (hknows : knows s'.bulkIn s'.dev.disconnected p) (hholds : holds p = true := by rfl)
    (hmutex : s'.dev.ioMutex = s.dev.ioMutex := by rfl) : Sound i holds knows s (.pc p) s' where
  guarantee := ⟨.inl hmutex, fun hnot => absurd hheld hnot, fun hnot => absurd hheld hnot⟩
  ok := hok
  pc := by
    intro p' hp
    cases hp
    exact ⟨by simp [hmutex, hheld, hholds], hknows⟩
  ret := by simp

/-- A step of the holder that changes nothing the mutex protects. -/
theorem Sound.stay (hheld : s.dev.ioMutex = some i) (hok : s.bulkIn.Ok) {p : P}
    (hknows : knows s.bulkIn s.dev.disconnected p) (hholds : holds p = true := by rfl)
    (hbulk : s'.bulkIn = s.bulkIn := by rfl)
    (hmutex : s'.dev.ioMutex = s.dev.ioMutex := by rfl)
    (hgone : s'.dev.disconnected = s.dev.disconnected := by rfl) :
    Sound i holds knows s (.pc p) s' :=
  .within hheld (hbulk ▸ hok) (by rwa [hbulk, hgone]) hholds hmutex

/-- A step without the mutex, to a place that is without it. -/
theorem Sound.outside (hfree : s.dev.ioMutex ≠ some i) (hok : s.bulkIn.Ok)
    (hpc : ∀ p, n = .pc p → holds p = false ∧ knows s.bulkIn s.dev.disconnected p)
    (hbulk : s'.bulkIn = s.bulkIn := by rfl)
    (hmutex : s'.dev.ioMutex = s.dev.ioMutex := by rfl)
    (hgone : s'.dev.disconnected = s.dev.disconnected := by rfl) : Sound i holds knows s n s' where
  guarantee := ⟨.inl hmutex, fun _ => hbulk, fun _ => hgone⟩
  ok := hbulk ▸ hok
  pc := by
    intro p hp
    obtain ⟨hholds, hknows⟩ := hpc p hp
    rw [hbulk, hmutex, hgone]
    exact ⟨by simp [hfree, hholds], hknows⟩
  ret := fun _ _ => hmutex ▸ hfree

end

/-! ### skel_read -/

@[simp] theorem holdsIo_afterDoReadIo (keep : Option Int) (rv : Int) :
    (afterDoReadIo keep rv).holdsIo = true := by
  unfold afterDoReadIo
  split
  · rfl
  · split <;> rfl

theorem knows_afterDoReadIo (keep : Option Int) (rv : Int) (b : BulkIn) :
    (afterDoReadIo keep rv).Knows b false := by
  unfold afterDoReadIo
  split
  · trivial
  · split <;> trivial

/-- The data that is left when a chunk has been copied. -/
theorem copyChunk_cases {i : ι} {count available : Nat} {ok : Bool} {s s' : Sys ι}
    {n : Next ReadPc} {os : List (Out ι)}
    (h : copyChunk i count available ok s = some (n, s', os)) :
    s' = { s with dev.bulkInCopied := s.dev.bulkInCopied + min available count } ∧
    os = [.copied i ((s.dev.bulkInBuffer.drop s.dev.bulkInCopied).take (min available count)) ok] ∧
    ((available < count ∧ n = .pc (.doReadIo (count - min available count)
        (some (if ok then (min available count : Nat) else -efault)) .ongoing)) ∨
      (count ≤ available ∧ n = .pc (.exit (if ok then (min available count : Nat) else -efault)))) := by
  cases h
  refine ⟨rfl, rfl, ?_⟩
  split
  next hlt => exact .inl ⟨hlt, rfl⟩
  next hle => exact .inr ⟨by omega, rfl⟩

theorem ReadStep.sound {i : ι} {count : Nat} {s s' : Sys ι} {pc : ReadPc} {n : Next ReadPc}
    {os : List (Out ι)} (h : ReadStep i count s pc n s' os) (hok : s.bulkIn.Ok)
    (hmutex : s.dev.ioMutex = some i ↔ pc.holdsIo = true)
    (hknows : pc.Knows s.bulkIn s.dev.disconnected) :
    Sound i ReadPc.holdsIo (fun b d p => p.Knows b d) s n s' := by
  cases h with
  | lock hfree => exact .take hok hfree trivial
  | interrupted => exact .outside (by simp [hmutex]) hok (by simp)
  | gone _ => exact .stay (hmutex.mpr rfl) hok trivial
  | present hpresent => exact .stay (hmutex.mpr rfl) hok hpresent
  | stop hpc _ =>
      have hheld : s.dev.ioMutex = some i := by rcases hpc with rfl | rfl <;> exact hmutex.mpr rfl
      exact .stay hheld hok trivial
  | wait => exact .stay (hmutex.mpr rfl) hok hknows
  | ready hpc hidle =>
      have hheld : s.dev.ioMutex = some i := by rcases hpc with rfl | rfl <;> exact hmutex.mpr rfl
      have hpresent : s.dev.disconnected = false := by rcases hpc with rfl | rfl <;> exact hknows
      exact .stay hheld hok ⟨hpresent, hidle⟩
  | error _ => exact .stay (hmutex.mpr rfl) hok hknows
  | clear _ => exact .stay (hmutex.mpr rfl) hok trivial
  | noError => exact .stay (hmutex.mpr rfl) hok hknows
  | empty hempty => exact .stay (hmutex.mpr rfl) hok ⟨hknows, hempty⟩
  | data hdata => exact .stay (hmutex.mpr rfl) hok ⟨hknows, rfl, hdata⟩
  | copy ok hcopy =>
      obtain ⟨hquiet, rfl, -⟩ := hknows
      obtain ⟨rfl, rfl, ⟨hlt, rfl⟩ | ⟨hle, rfl⟩⟩ := copyChunk_cases hcopy
      · have hempty : s.dev.bulkInFilled - (s.dev.bulkInCopied +
            min (s.dev.bulkInFilled - s.dev.bulkInCopied) count) = 0 := by
          simp only [Sys.bulkIn] at hlt
          omega
        exact .within (hmutex.mpr rfl) (hok.copy (Nat.min_le_left _ _))
          ⟨⟨hquiet.present, hquiet.idle⟩, hempty⟩
      · exact .within (hmutex.mpr rfl) (hok.copy (Nat.min_le_left _ _)) trivial
  | ongoing =>
      obtain ⟨hquiet, hempty⟩ := hknows
      refine .within (hmutex.mpr rfl) ?_ ⟨⟨hquiet.present, rfl, hok.urb_none hquiet.idle⟩, hempty⟩
      exact hok.claim
  | fill =>
      obtain ⟨⟨hpresent, hongoing, hurb⟩, -⟩ := hknows
      exact .within (hmutex.mpr rfl) (hok.fill hurb) ⟨⟨hpresent, hongoing, hurb⟩, rfl⟩
  | submit =>
      obtain ⟨⟨hpresent, hongoing, -⟩, hfilled⟩ := hknows
      refine .within (hmutex.mpr rfl) (hok.submit hongoing hfilled _) ?_ (holdsIo_afterDoReadIo _ _)
      rw [hpresent]
      exact knows_afterDoReadIo _ _ _
  | refused _ => exact .stay (hmutex.mpr rfl) hok hknows
  | failed =>
      obtain ⟨⟨hpresent, -, hurb⟩, -⟩ := hknows
      refine .within (hmutex.mpr rfl) ?_ ?_ (holdsIo_afterDoReadIo _ _)
      · exact hok.giveUp hurb
      · rw [hpresent]
        exact knows_afterDoReadIo _ _ _
  | exit => exact .drop hok (hmutex.mpr rfl) (by simp)

/-! ### skel_write -/

theorem WriteStep.sound {i : ι} {data : List UInt8} {s s' : Sys ι} {pc : WritePc}
    {n : Next WritePc} {os : List (Out ι)} (h : WriteStep i data s pc n s' os) (hok : s.bulkIn.Ok)
    (hmutex : s.dev.ioMutex = some i ↔ pc.holdsIo = true) (hknows : pc.Knows s.dev.disconnected) :
    Sound i WritePc.holdsIo (fun _ d p => p.Knows d) s n s' := by
  cases h with
  | lock hfree => exact .take hok hfree trivial
  | gone _ _ => exact .drop hok (hmutex.mpr rfl) (by simp)
  | present hpresent => exact .stay (hmutex.mpr rfl) hok hpresent
  | anchor => exact .stay (hmutex.mpr rfl) hok hknows
  | submit => exact .stay (hmutex.mpr rfl) hok trivial
  | notSubmitted _ => exact .stay (hmutex.mpr rfl) hok trivial
  | sent => exact .drop hok (hmutex.mpr rfl) (by simp)
  | failed _ => exact .drop hok (hmutex.mpr rfl) (by simp)
  | noMemory hpc _ =>
      have hfree : s.dev.ioMutex ≠ some i := by rcases hpc with rfl | rfl <;> simp [hmutex]
      exact .outside hfree hok (by simp)
  | _ => exact .outside (by simp [hmutex]) hok (by simp)

/-! ### The other functions -/

theorem FlushStep.sound {i : ι} {s s' : Sys ι} {pc : FlushPc} {n : Next FlushPc}
    (h : FlushStep i s pc n s') (hok : s.bulkIn.Ok)
    (hmutex : s.dev.ioMutex = some i ↔ pc.holdsIo = true) :
    Sound i FlushPc.holdsIo (fun _ _ _ => True) s n s' := by
  cases h with
  | lock hfree => exact .take hok hfree trivial
  | unlock => exact .drop hok (hmutex.mpr rfl) (by simp)
  | _ => exact .stay (hmutex.mpr rfl) hok trivial

theorem ResetStep.sound {i : ι} {s s' : Sys ι} {pc : ResetPc} {n : Next ResetPc}
    (h : ResetStep i s pc n s') (hok : s.bulkIn.Ok)
    (hmutex : s.dev.ioMutex = some i ↔ pc.holdsIo = true) :
    Sound i ResetPc.holdsIo (fun _ _ _ => True) s n s' := by
  cases h with
  | lock hfree => exact .take hok hfree trivial
  | unlock => exact .drop hok (hmutex.mpr rfl) (by simp)
  | _ => exact .stay (hmutex.mpr rfl) hok trivial

@[simp] theorem bulkIn_krefPut (s : Sys ι) : s.krefPut.bulkIn = s.bulkIn := by
  unfold Sys.krefPut
  split <;> rfl

@[simp] theorem ioMutex_krefPut (s : Sys ι) : s.krefPut.dev.ioMutex = s.dev.ioMutex := by
  unfold Sys.krefPut
  split <;> rfl

@[simp] theorem disconnected_krefPut (s : Sys ι) :
    s.krefPut.dev.disconnected = s.dev.disconnected := by
  unfold Sys.krefPut
  split <;> rfl

theorem DisconnectStep.sound {i : ι} {s s' : Sys ι} {pc : DisconnectPc} {n : Next DisconnectPc}
    (h : DisconnectStep i s pc n s') (hok : s.bulkIn.Ok)
    (hmutex : s.dev.ioMutex = some i ↔ pc.holdsIo = true) :
    Sound i DisconnectPc.holdsIo (fun _ _ _ => True) s n s' := by
  cases h with
  | lock hfree => exact .take hok hfree trivial
  | disconnected =>
      refine .within (hmutex.mpr rfl) ?_ trivial
      exact hok
  | unlock => exact .drop hok (hmutex.mpr rfl) (by simp)
  | krefPut =>
      exact .outside (by simp [hmutex]) hok (by simp) (bulkIn_krefPut s) (ioMutex_krefPut s)
        (disconnected_krefPut s)
  | _ => exact .outside (by simp [hmutex]) hok (by simp)

theorem OpenStep.sound {i : ι} {f : Nat} {s s' : Sys ι} {pc : OpenPc} {n : Next OpenPc}
    (h : OpenStep f s pc n s') (hok : s.bulkIn.Ok) (hfree : s.dev.ioMutex ≠ some i) :
    Sound i (fun _ => false) (fun _ _ _ => True) s n s' := by
  cases h with
  | _ => exact .outside hfree hok (by simp)

theorem ReleaseStep.sound {i : ι} {s s' : Sys ι} {pc : ReleasePc} {n : Next ReleasePc}
    (h : ReleaseStep s pc n s') (hok : s.bulkIn.Ok) (hfree : s.dev.ioMutex ≠ some i) :
    Sound i (fun _ => false) (fun _ _ _ => True) s n s' := by
  cases h with
  | autopmPut => exact .outside hfree hok (by simp)
  | krefPut =>
      exact .outside hfree hok (by simp) (bulkIn_krefPut s) (ioMutex_krefPut s)
        (disconnected_krefPut s)

/-! ## A step of the system -/

theorem leave_view (c : Call) (s : Sys ι) : (leave c s).dev = s.dev ∧ (leave c s).bulkIn = s.bulkIn := by
  cases c <;> exact ⟨rfl, rfl⟩

/-- A function's step, seen by the thread that executes it. -/
theorem Sound.owns {P : Type} {i : ι} {holds : P → Bool} {knows : BulkIn → Bool → P → Prop}
    {s s' : Sys ι} {c : Call} {at' : P → Local} {r : Result ι P} {l : Local} {os : List (Out ι)}
    (h : inside i c at' r = some (l, s', os)) (hholds : ∀ p, (at' p).holdsIo = holds p)
    (hknows : ∀ b d p, knows b d p → (at' p).Knows b d)
    (hr : ∀ n s₁ os₁, r = some (n, s₁, os₁) → Sound i holds knows s n s₁) :
    Guarantee i s s' ∧ s'.bulkIn.Ok ∧ Owns i l s' := by
  obtain ⟨p, hstep, rfl⟩ | ⟨rv, s₁, os₁, hstep, rfl, rfl, -⟩ := inside_cases h
  · have hsound := hr _ _ _ hstep
    obtain ⟨hmutex, hk⟩ := hsound.pc p rfl
    exact ⟨hsound.guarantee, hsound.ok, by rwa [hholds], hknows _ _ _ hk⟩
  · have hsound := hr _ _ _ hstep
    obtain ⟨hdev, hbulk⟩ := leave_view c s₁
    have hfree := hsound.ret rv rfl
    refine ⟨⟨?_, ?_, ?_⟩, hbulk ▸ hsound.ok, by simpa [hdev] using hfree, trivial⟩
    · rw [hdev]
      exact hsound.guarantee.mutex
    · rw [hbulk]
      exact hsound.guarantee.bulkIn
    · rw [hdev]
      exact hsound.guarantee.disconnected

theorem EnterStep.view {i : ι} {c : Call} {l : Local} {s s' : Sys ι} {os : List (Out ι)}
    (h : EnterStep i s c l s' os) :
    s'.dev = s.dev ∧ s'.bulkIn = s.bulkIn ∧ l.holdsIo = false ∧ ∀ b d, l.Knows b d := by
  cases h <;> exact ⟨rfl, rfl, rfl, fun _ _ => trivial⟩

theorem act_sound {i : ι} {e : Choice} {l l' : Local} {s s' : Sys ι} {os : List (Out ι)}
    (hok : s.bulkIn.Ok) (ho : Owns i l s) (h : act i e l s = some (l', s', os)) :
    Guarantee i s s' ∧ s'.bulkIn.Ok ∧ Owns i l' s' := by
  cases l with
  | idle =>
      cases e with
      | call c =>
          obtain ⟨hdev, hbulk, hfree, hknows⟩ := (enter_cases h).view
          refine ⟨⟨.inl (by rw [hdev]), fun _ => hbulk, fun _ => by rw [hdev]⟩, hbulk ▸ hok, ?_,
            hknows _ _⟩
          rw [hdev, hfree]
          simpa using ho.mutex
      | _ => cases h
  | read f count nb pc =>
      exact Sound.owns h (fun _ => rfl) (fun _ _ _ hk => hk)
        (fun _ _ _ hr => (skelRead_cases hr).sound hok ho.mutex ho.knows)
  | write f data nb pc =>
      exact Sound.owns h (fun _ => rfl) (fun _ _ _ hk => hk)
        (fun _ _ _ hr => (skelWrite_cases hr).sound hok ho.mutex ho.knows)
  | openFile f pc =>
      have hfree : s.dev.ioMutex ≠ some i := fun hheld => by simpa using ho.mutex.mp hheld
      exact Sound.owns h (fun _ => rfl) (fun _ _ _ _ => trivial)
        (fun _ _ _ hr => (skelOpen_cases hr).2.sound hok hfree)
  | release f pc =>
      have hfree : s.dev.ioMutex ≠ some i := fun hheld => by simpa using ho.mutex.mp hheld
      exact Sound.owns h (fun _ => rfl) (fun _ _ _ _ => trivial)
        (fun _ _ _ hr => (skelRelease_cases hr).2.sound hok hfree)
  | flush f pc =>
      exact Sound.owns h (fun _ => rfl) (fun _ _ _ _ => trivial)
        (fun _ _ _ hr => (skelFlush_cases hr).2.sound hok ho.mutex)
  | disconnect pc =>
      exact Sound.owns h (fun _ => rfl) (fun _ _ _ _ => trivial)
        (fun _ _ _ hr => (skelDisconnect_cases hr).2.sound hok ho.mutex)
  | suspend pc =>
      have hfree : s.dev.ioMutex ≠ some i := fun hheld => by simpa using ho.mutex.mp hheld
      refine Sound.owns h (fun _ => rfl) (fun _ _ _ (_ : True) => trivial) fun n s₁ os₁ hr => ?_
      obtain ⟨rfl, -, hstep⟩ := skelSuspend_cases hr
      exact .outside hfree hok (by simp)
  | reset pc =>
      exact Sound.owns h (fun _ => rfl) (fun _ _ _ _ => trivial)
        (fun _ _ _ hr => (skelReset_cases hr).2.sound hok ho.mutex)

/-- The other functions leave the bulk-in side alone. -/
theorem act_bulkIn {i : ι} {e : Choice} {l l' : Local} {s s' : Sys ι} {os : List (Out ι)}
    (hl : ∀ f count nb pc, l ≠ .read f count nb pc) (h : act i e l s = some (l', s', os)) :
    s'.bulkIn = s.bulkIn := by
  have hfunction : ∀ {P : Type} {c : Call} {at' : P → Local} {r : Result ι P},
      (∀ n s₁ os₁, r = some (n, s₁, os₁) → s₁.bulkIn = s.bulkIn) →
      inside i c at' r = some (l', s', os) → s'.bulkIn = s.bulkIn := by
    intro P c at' r hr hin
    obtain ⟨p, hstep, -⟩ | ⟨rv, s₁, os₁, hstep, -, rfl, -⟩ := inside_cases hin
    · exact hr _ _ _ hstep
    · exact (leave_view c s₁).2.trans (hr _ _ _ hstep)
  cases l with
  | idle =>
      cases e with
      | call c => exact (enter_cases h).view.2.1
      | _ => cases h
  | read f count nb pc => exact absurd rfl (hl f count nb pc)
  | write f data nb pc =>
      refine hfunction (fun n s₁ os₁ hr => ?_) h
      cases skelWrite_cases hr <;> rfl
  | openFile f pc =>
      refine hfunction (fun n s₁ os₁ hr => ?_) h
      cases (skelOpen_cases hr).2 <;> rfl
  | release f pc =>
      refine hfunction (fun n s₁ os₁ hr => ?_) h
      cases (skelRelease_cases hr).2 with
      | autopmPut => rfl
      | krefPut => exact bulkIn_krefPut s
  | flush f pc =>
      refine hfunction (fun n s₁ os₁ hr => ?_) h
      cases (skelFlush_cases hr).2 <;> rfl
  | disconnect pc =>
      refine hfunction (fun n s₁ os₁ hr => ?_) h
      cases (skelDisconnect_cases hr).2 with
      | krefPut => exact bulkIn_krefPut s
      | _ => rfl
  | suspend pc =>
      refine hfunction (fun n s₁ os₁ hr => ?_) h
      rw [(skelSuspend_cases hr).1]
  | reset pc =>
      refine hfunction (fun n s₁ os₁ hr => ?_) h
      cases (skelReset_cases hr).2 <;> rfl

/-! ## The hardware -/

theorem HardwareStep.view {s s' : Sys ι} {os : List (Out ι)} (h : HardwareStep s s' os)
    (hok : s.bulkIn.Ok) :
    s'.bulkIn.Ok ∧ s'.dev.ioMutex = s.dev.ioMutex ∧ s'.dev.disconnected = s.dev.disconnected ∧
      (s'.bulkIn = s.bulkIn ∨ s.bulkIn.urb ≠ none) := by
  cases h with
  | dma hurb hlen => exact ⟨hok.dma hurb hlen, rfl, rfl, .inr (by simp [Sys.bulkIn, hurb])⟩
  | received hurb hlen =>
      exact ⟨(hok.dma hurb hlen).receive hurb hlen, rfl, rfl, .inr (by simp [Sys.bulkIn, hurb])⟩
  | readFailed hurb hlen _ =>
      exact ⟨(hok.dma hurb hlen).complete, rfl, rfl, .inr (by simp [Sys.bulkIn, hurb])⟩
  | writeDone _ => exact ⟨hok, rfl, rfl, .inl rfl⟩

/-- No thread relies on the buffer while a URB is in flight. -/
theorem Local.knows_of_urb {l : Local} {b b' : BulkIn} {d : Bool} (hok : b.Ok) (hurb : b.urb ≠ none)
    (h : l.Knows b d) : l.Knows b' d := by
  have hquiet : ¬ Quiet b d := fun hq => hurb (hok.urb_none hq.idle)
  have hclaimed : ¬ Claimed b d := fun hc => hurb hc.urb
  cases l with
  | read f count nb pc =>
      cases pc with
      | errors => exact absurd h hquiet
      | clear rv => exact absurd h hquiet
      | filled => exact absurd h hquiet
      | copy available => exact absurd h.1 hquiet
      | doReadIo want keep pc =>
          cases pc with
          | ongoing => exact absurd h.1 hquiet
          | fill => exact absurd h.1 hclaimed
          | submit => exact absurd h.1 hclaimed
          | failed rv => exact absurd h.1 hclaimed
      | _ => exact h
  | _ => exact h

/-! ## Runs -/

/-- Each thread owns what it is about to touch. -/
abbrev Safe (p : Pool.Config ι (Sys ι) Local) : Prop :=
  Pool.Holds (fun s => s.bulkIn.Ok) Owns p

variable [DecidableEq ι]

theorem safe_step (ev : Event ι) {p : Pool.Config ι (Sys ι) Local} (h : Safe p) :
    Safe (step ev p).1 := by
  refine Pool.Holds.step (K := fun _ => True) ?_ ?_ ?_ ev trivial h
  · intro i e p l s os _ h hact
    exact (act_sound h.shared (h.locals i) hact).2
  · intro i e p l s os j _ h hj hact
    exact (act_sound h.shared (h.locals i) hact).1.owns hj (h.locals j)
  · intro f p s os _ h hf
    obtain ⟨hok, hmutex, hgone, hbulk⟩ := (hardware_cases hf).view h.shared
    refine ⟨hok, fun j => ⟨by rw [hmutex]; exact (h.locals j).mutex, ?_⟩⟩
    rw [hgone]
    rcases hbulk with hbulk | hurb
    · rw [hbulk]
      exact (h.locals j).knows
    · exact Local.knows_of_urb h.shared hurb (h.locals j).knows

omit [DecidableEq ι] in
theorem safe_start (bulkInBuffer : List UInt8) : Safe (start bulkInBuffer : Pool.Config ι (Sys ι) Local) where
  shared := ⟨rfl, Nat.le_refl 0, Nat.zero_le _, by simp [start, probed, Sys.bulkIn]⟩
  locals := fun i => ⟨by simp [start, probed], trivial⟩

theorem safe_run (bulkInBuffer : List UInt8) (es : List (Event ι)) :
    Safe (runFrom bulkInBuffer es) :=
  (Machine.inv_run (G := fun _ => True) (fun ev _ hp => ⟨safe_step ev hp, fun _ _ => trivial⟩) es
    (safe_start bulkInBuffer)).1

/-- In every run, one thread at most is inside of the part that `io_mutex` protects, no read URB
is in flight while a thread looks at the buffer or copies from it, and none is submitted while
one is in flight. -/
theorem buffer_exclusive (bulkInBuffer : List UInt8) (es : List (Event ι)) :
    let p := runFrom bulkInBuffer es
    (∀ i j, (p.locals i).holdsIo = true → (p.locals j).holdsIo = true → i = j) ∧
      (∀ i f count nb, p.locals i = .read f count nb .filled → p.shared.readUrb = none) ∧
      (∀ i f count nb available, p.locals i = .read f count nb (.copy available) →
        p.shared.readUrb = none ∧
          available = p.shared.dev.bulkInFilled - p.shared.dev.bulkInCopied ∧
          p.shared.dev.bulkInFilled ≤ p.shared.dev.bulkInBuffer.length) ∧
      ∀ i f count nb want keep, p.locals i = .read f count nb (.doReadIo want keep .submit) →
        p.shared.readUrb = none := by
  intro p
  have h : Safe p := safe_run bulkInBuffer es
  clear_value p
  refine ⟨fun i j hi hj => ?_, fun i f count nb hl => ?_, fun i f count nb available hl => ?_,
    fun i f count nb want keep hl => ?_⟩
  · have hheld := ((h.locals i).mutex).mpr hi
    exact Option.some.inj (hheld.symm.trans (((h.locals j).mutex).mpr hj))
  · have hknows := (h.locals i).knows
    rw [hl] at hknows
    exact h.shared.urb_none hknows.idle
  · have hknows := (h.locals i).knows
    rw [hl] at hknows
    obtain ⟨hquiet, havail, -⟩ := hknows
    exact ⟨h.shared.urb_none hquiet.idle, havail, h.shared.filled.trans_eq h.shared.size.symm⟩
  · have hknows := (h.locals i).knows
    rw [hl] at hknows
    exact hknows.1.urb

end Usb
