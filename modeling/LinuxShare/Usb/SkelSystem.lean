-- SUMMARY: The USB skeleton driver as a system: threads that call it, the USB core and the hardware, in any order.
import LinuxShare.Usb.SkelRead
import LinuxShare.Usb.SkelWrite
import LinuxShare.Usb.SkelFile

/-!
# The driver as a system

A thread is idle, or inside of one of the driver's functions. The kernel sees to it that a
file is released by one thread, after every call on it, and that a call on it comes between
its opening and its release.
-/

namespace Usb

variable {ι : Type}

inductive Local where
  | idle
  | read (f count : Nat) (nonblock : Bool) (pc : ReadPc)
  | write (f : Nat) (data : List UInt8) (nonblock : Bool) (pc : WritePc)
  | openFile (f : Nat) (pc : OpenPc)
  | release (f : Nat) (pc : ReleasePc)
  | flush (f : Nat) (pc : FlushPc)
  | disconnect (pc : DisconnectPc)
  | suspend (pc : SuspendPc)
  | reset (pc : ResetPc)
deriving DecidableEq

/-! ## Entering and leaving -/

def Sys.useFile (s : Sys ι) (f : Nat) : Sys ι :=
  { s with users := Function.update s.users f (s.users f + 1) }

def Sys.unuseFile (s : Sys ι) (f : Nat) : Sys ι :=
  { s with users := Function.update s.users f (s.users f - 1) }

/-- A call begins: the file is there, the file is not used any more, the USB core has the
device to itself. The calls that return before they look at the device are over at once. -/
def enter (i : ι) (c : Call) (s : Sys ι) : Option (Local × Sys ι × List (Out ι)) :=
  match c with
  | .read f count nonblock =>
    if f ∈ s.opened then
      if count = 0 then
        some (.idle, s, [.ret i c 0])
      else
        some (.read f count nonblock .lock, s.useFile f, [])
    else
      none
  | .write f data nonblock =>
    if f ∈ s.opened then
      if data.length = 0 then
        some (.idle, s, [.ret i c 0])
      else
        some (.write f data nonblock .down, s.useFile f, [])
    else
      none
  | .flush f => if f ∈ s.opened then some (.flush f .lock, s.useFile f, []) else none
  | .openFile f =>
    if f ∉ s.opened ∧ s.users f = 0 then
      if s.registered then
        some (.openFile f .findInterface, { s.useFile f with minorRwsem := s.minorRwsem + 1 }, [])
      else
        some (.idle, s, [.ret i c (-enodev)])
    else
      none
  | .release f =>
    if f ∈ s.opened ∧ s.users f = 0 then
      some (.release f .autopmPut, { s with opened := s.opened.erase f }, [])
    else
      none
  | .disconnect =>
    if s.deviceLock.isNone ∧ s.binding = .bound then
      some (.disconnect .setIntfdata,
        { s with deviceLock := some i, binding := .disconnecting }, [])
    else
      none
  | .suspend =>
    if s.deviceLock.isNone ∧ s.binding = .bound then
      some (.suspend .getIntfdata, { s with deviceLock := some i }, [])
    else
      none
  | .reset =>
    if s.deviceLock.isNone ∧ s.binding = .bound then
      some (.reset .lock, { s with deviceLock := some i }, [])
    else
      none

/-- What the caller of the function does when it returns. -/
def leave (c : Call) (s : Sys ι) : Sys ι :=
  match c with
  | .read f _ _ | .write f _ _ | .flush f => s.unuseFile f
  | .openFile f => { s.unuseFile f with minorRwsem := s.minorRwsem - 1 }
  | .release _ => s
  | .disconnect | .suspend | .reset => { s with deviceLock := none }

/-- One step inside of the call `c`. -/
def inside {P : Type} (i : ι) (c : Call) (at' : P → Local) (r : Result ι P) :
    Option (Local × Sys ι × List (Out ι)) :=
  r.map fun x =>
    match x.1 with
    | .pc pc => (at' pc, x.2.1, x.2.2)
    | .ret rv => (.idle, leave c x.2.1, x.2.2 ++ [.ret i c rv])

/-- How a call can begin. -/
inductive EnterStep (i : ι) (s : Sys ι) : Call → Local → Sys ι → List (Out ι) → Prop where
  | readNothing {f : Nat} {nb : Bool} :
    EnterStep i s (.read f 0 nb) .idle s [.ret i (.read f 0 nb) 0]
  | read {f count : Nat} {nb : Bool} (hf : f ∈ s.opened) (hcount : count ≠ 0) :
    EnterStep i s (.read f count nb) (.read f count nb .lock) (s.useFile f) []
  | writeNothing {f : Nat} {nb : Bool} :
    EnterStep i s (.write f [] nb) .idle s [.ret i (.write f [] nb) 0]
  | write {f : Nat} {data : List UInt8} {nb : Bool} (hf : f ∈ s.opened) (hdata : data ≠ []) :
    EnterStep i s (.write f data nb) (.write f data nb .down) (s.useFile f) []
  | flush {f : Nat} (hf : f ∈ s.opened) :
    EnterStep i s (.flush f) (.flush f .lock) (s.useFile f) []
  | notRegistered {f : Nat} :
    EnterStep i s (.openFile f) .idle s [.ret i (.openFile f) (-enodev)]
  | openFile {f : Nat} (hf : f ∉ s.opened) (hfree : s.users f = 0) (hreg : s.registered = true) :
    EnterStep i s (.openFile f) (.openFile f .findInterface)
      { s.useFile f with minorRwsem := s.minorRwsem + 1 } []
  | release {f : Nat} (hf : f ∈ s.opened) (hfree : s.users f = 0) :
    EnterStep i s (.release f) (.release f .autopmPut) { s with opened := s.opened.erase f } []
  | disconnect (hlock : s.deviceLock = none) (hbound : s.binding = .bound) :
    EnterStep i s .disconnect (.disconnect .setIntfdata)
      { s with deviceLock := some i, binding := .disconnecting } []
  | suspend (hlock : s.deviceLock = none) (hbound : s.binding = .bound) :
    EnterStep i s .suspend (.suspend .getIntfdata) { s with deviceLock := some i } []
  | reset (hlock : s.deviceLock = none) (hbound : s.binding = .bound) :
    EnterStep i s .reset (.reset .lock) { s with deviceLock := some i } []

theorem enter_cases {i : ι} {c : Call} {l : Local} {s s' : Sys ι} {os : List (Out ι)}
    (h : enter i c s = some (l, s', os)) : EnterStep i s c l s' os := by
  cases c with
  | read f count nb =>
      simp only [enter, Option.ite_none_right_eq_some] at h
      obtain ⟨hf, h⟩ := h
      split at h
      next hcount =>
        subst hcount
        cases h
        exact .readNothing
      next hcount =>
        cases h
        exact .read hf hcount
  | write f data nb =>
      simp only [enter, Option.ite_none_right_eq_some] at h
      obtain ⟨hf, h⟩ := h
      split at h
      next hdata =>
        obtain rfl := List.eq_nil_of_length_eq_zero hdata
        cases h
        exact .writeNothing
      next hdata =>
        cases h
        exact .write hf (fun hnil => hdata (by rw [hnil]; rfl))
  | flush f =>
      simp only [enter, Option.ite_none_right_eq_some] at h
      obtain ⟨hf, h⟩ := h
      cases h
      exact .flush hf
  | openFile f =>
      simp only [enter, Option.ite_none_right_eq_some] at h
      obtain ⟨⟨hf, hfree⟩, h⟩ := h
      split at h
      next hreg =>
        cases h
        exact .openFile hf hfree hreg
      next =>
        cases h
        exact .notRegistered
  | release f =>
      simp only [enter, Option.ite_none_right_eq_some] at h
      obtain ⟨⟨hf, hfree⟩, h⟩ := h
      cases h
      exact .release hf hfree
  | disconnect =>
      simp only [enter, Option.ite_none_right_eq_some, Option.isNone_iff_eq_none] at h
      obtain ⟨⟨hlock, hbound⟩, h⟩ := h
      cases h
      exact .disconnect hlock hbound
  | suspend =>
      simp only [enter, Option.ite_none_right_eq_some, Option.isNone_iff_eq_none] at h
      obtain ⟨⟨hlock, hbound⟩, h⟩ := h
      cases h
      exact .suspend hlock hbound
  | reset =>
      simp only [enter, Option.ite_none_right_eq_some, Option.isNone_iff_eq_none] at h
      obtain ⟨⟨hlock, hbound⟩, h⟩ := h
      cases h
      exact .reset hlock hbound

/-! ## Steps -/

/-- A step inside of a call: the function goes on, or it has returned. -/
theorem inside_cases {P : Type} {i : ι} {c : Call} {at' : P → Local} {r : Result ι P}
    {l : Local} {s' : Sys ι} {os : List (Out ι)} (h : inside i c at' r = some (l, s', os)) :
    (∃ p, r = some (.pc p, s', os) ∧ l = at' p) ∨
    ∃ rv s₁ os₁, r = some (.ret rv, s₁, os₁) ∧ l = .idle ∧ s' = leave c s₁ ∧
      os = os₁ ++ [.ret i c rv] := by
  simp only [inside, Option.map_eq_some_iff] at h
  obtain ⟨⟨n, s₁, os₁⟩, hr, h⟩ := h
  cases n with
  | pc p =>
      cases h
      exact .inl ⟨p, hr, rfl⟩
  | ret rv =>
      cases h
      exact .inr ⟨rv, s₁, os₁, hr, rfl, rfl, rfl⟩

def act (i : ι) (e : Choice) (l : Local) (s : Sys ι) : Option (Local × Sys ι × List (Out ι)) :=
  match l with
  | .idle =>
    match e with
    | .call c => enter i c s
    | _ => none
  | .read f count nb pc =>
    inside i (.read f count nb) (.read f count nb) (skelRead i count nb e pc s)
  | .write f data nb pc =>
    inside i (.write f data nb) (.write f data nb) (skelWrite i data nb e pc s)
  | .openFile f pc => inside i (.openFile f) (.openFile f) (skelOpen f e pc s)
  | .release f pc => inside i (.release f) (.release f) (skelRelease e pc s)
  | .flush f pc => inside i (.flush f) (.flush f) (skelFlush i e pc s)
  | .disconnect pc => inside i .disconnect .disconnect (skelDisconnect i e pc s)
  | .suspend pc => inside i .suspend .suspend (skelSuspend e pc s)
  | .reset pc => inside i .reset .reset (skelReset i e pc s)

/-- Whether a call moves data. -/
@[simp] def Call.io : Call → Bool
  | .read _ _ _ | .write _ _ _ => true
  | _ => false

@[simp] def Local.io : Local → Bool
  | .read _ _ _ _ | .write _ _ _ _ => true
  | _ => false

/-- The functions that move no data show nothing but their results. -/
theorem act_quiet {i : ι} {e : Choice} {l l' : Local} {s s' : Sys ι} {os : List (Out ι)}
    (hio : l.io = false) (hidle : l ≠ .idle) (h : act i e l s = some (l', s', os)) :
    l'.io = false ∧ (os = [] ∨ ∃ c rv, c.io = false ∧ os = [.ret i c rv]) := by
  have hfunction : ∀ {P : Type} {c : Call} {at' : P → Local} {r : Result ι P}, c.io = false →
      (∀ p, (at' p).io = false) → (∀ n s₁ os₁, r = some (n, s₁, os₁) → os₁ = []) →
      inside i c at' r = some (l', s', os) →
      l'.io = false ∧ (os = [] ∨ ∃ c rv, c.io = false ∧ os = [.ret i c rv]) := by
    intro P c at' r hc hat hr hin
    obtain ⟨p, hstep, rfl⟩ | ⟨rv, s₁, os₁, hstep, rfl, -, rfl⟩ := inside_cases hin
    · exact ⟨hat p, .inl (hr _ _ _ hstep)⟩
    · exact ⟨rfl, .inr ⟨c, rv, hc, by rw [hr _ _ _ hstep, List.nil_append]⟩⟩
  cases l with
  | idle => exact absurd rfl hidle
  | read f count nb pc => cases hio
  | write f data nb pc => cases hio
  | openFile f pc => exact hfunction rfl (fun _ => rfl) (fun _ _ _ hr => (skelOpen_cases hr).1) h
  | release f pc => exact hfunction rfl (fun _ => rfl) (fun _ _ _ hr => (skelRelease_cases hr).1) h
  | flush f pc => exact hfunction rfl (fun _ => rfl) (fun _ _ _ hr => (skelFlush_cases hr).1) h
  | disconnect pc =>
      exact hfunction rfl (fun _ => rfl) (fun _ _ _ hr => (skelDisconnect_cases hr).1) h
  | suspend pc =>
      exact hfunction rfl (fun _ => rfl) (fun _ _ _ hr => (skelSuspend_cases hr).2.1) h
  | reset pc => exact hfunction rfl (fun _ => rfl) (fun _ _ _ hr => (skelReset_cases hr).1) h

/-- The call that a thread is inside of. -/
@[simp] def Local.call : Local → Option Call
  | .idle => none
  | .read f count nb _ => some (.read f count nb)
  | .write f data nb _ => some (.write f data nb)
  | .openFile f _ => some (.openFile f)
  | .release f _ => some (.release f)
  | .flush f _ => some (.flush f)
  | .disconnect _ => some .disconnect
  | .suspend _ => some .suspend
  | .reset _ => some .reset

/-- What the callers of the driver's functions keep. -/
structure Callers (ι : Type) where
  users : Nat → Nat
  minorRwsem : Nat
  deviceLock : Option ι

def Sys.callers (s : Sys ι) : Callers ι := ⟨s.users, s.minorRwsem, s.deviceLock⟩

theorem callers_krefPut (s : Sys ι) : s.krefPut.callers = s.callers := by
  unfold Sys.krefPut
  split <;> rfl

/-- The functions of the driver leave to their callers what is theirs. -/
theorem act_inside {i : ι} {e : Choice} {l l' : Local} {s s' : Sys ι} {os : List (Out ι)} {c : Call}
    (hc : l.call = some c) (h : act i e l s = some (l', s', os)) :
    ∃ s₁ : Sys ι, s₁.callers = s.callers ∧
      ((l'.call = some c ∧ s' = s₁) ∨ (l' = .idle ∧ s' = leave c s₁)) := by
  have hfunction : ∀ {P : Type} {at' : P → Local} {r : Result ι P},
      (∀ p, (at' p).call = some c) → (∀ n s₁ os₁, r = some (n, s₁, os₁) → s₁.callers = s.callers) →
      inside i c at' r = some (l', s', os) → ∃ s₁ : Sys ι, s₁.callers = s.callers ∧
        ((l'.call = some c ∧ s' = s₁) ∨ (l' = .idle ∧ s' = leave c s₁)) := by
    intro P at' r hat hr hin
    obtain ⟨p, hstep, rfl⟩ | ⟨rv, s₁, os₁, hstep, rfl, rfl, -⟩ := inside_cases hin
    · exact ⟨s', hr _ _ _ hstep, .inl ⟨hat p, rfl⟩⟩
    · exact ⟨s₁, hr _ _ _ hstep, .inr ⟨rfl, rfl⟩⟩
  cases l with
  | idle => cases hc
  | read f count nb pc =>
      cases hc
      refine hfunction (fun _ => rfl) (fun n s₁ os₁ hr => ?_) h
      cases skelRead_cases hr with
      | copy ok hcopy => cases hcopy; rfl
      | _ => rfl
  | write f data nb pc =>
      cases hc
      refine hfunction (fun _ => rfl) (fun n s₁ os₁ hr => ?_) h
      cases skelWrite_cases hr <;> rfl
  | openFile f pc =>
      cases hc
      refine hfunction (fun _ => rfl) (fun n s₁ os₁ hr => ?_) h
      cases (skelOpen_cases hr).2 <;> rfl
  | release f pc =>
      cases hc
      refine hfunction (fun _ => rfl) (fun n s₁ os₁ hr => ?_) h
      cases (skelRelease_cases hr).2 with
      | autopmPut => rfl
      | krefPut => exact callers_krefPut s
  | flush f pc =>
      cases hc
      refine hfunction (fun _ => rfl) (fun n s₁ os₁ hr => ?_) h
      cases (skelFlush_cases hr).2 <;> rfl
  | disconnect pc =>
      cases hc
      refine hfunction (fun _ => rfl) (fun n s₁ os₁ hr => ?_) h
      cases (skelDisconnect_cases hr).2 with
      | krefPut => exact callers_krefPut s
      | _ => rfl
  | suspend pc =>
      cases hc
      refine hfunction (fun _ => rfl) (fun n s₁ os₁ hr => ?_) h
      rw [(skelSuspend_cases hr).1]
  | reset pc =>
      cases hc
      refine hfunction (fun _ => rfl) (fun n s₁ os₁ hr => ?_) h
      cases (skelReset_cases hr).2 <;> rfl

variable [DecidableEq ι]

abbrev Event (ι : Type) := (ι × Choice) ⊕ Hardware

def step : Event ι → Pool.Config ι (Sys ι) Local → Pool.Config ι (Sys ι) Local × List (Out ι) :=
  Pool.step act hardware

/-- All threads idle, just after the device has been probed. -/
def start (bulkInBuffer : List UInt8) : Pool.Config ι (Sys ι) Local :=
  ⟨probed bulkInBuffer, fun _ => .idle⟩

def runFrom (bulkInBuffer : List UInt8) (es : List (Event ι)) : Pool.Config ι (Sys ι) Local :=
  Machine.run step (start bulkInBuffer) es

def traceFrom (bulkInBuffer : List UInt8) (es : List (Event ι)) : List (Out ι) :=
  Machine.trace step (start bulkInBuffer) es

end Usb
