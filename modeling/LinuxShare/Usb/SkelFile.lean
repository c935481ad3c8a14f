-- SUMMARY: Opening, closing and flushing the USB skeleton driver (usb_skeleton.c), and its power management and disconnection.
import LinuxShare.Usb.Skeleton

/-!
# Files, power management and disconnection

`skel_open` is called inside of `usb_open`, which keeps `usb_deregister_dev` out. The USB core
calls `skel_disconnect`, `skel_suspend`, `skel_pre_reset` and `skel_post_reset` under the lock
of the device, one after the other.
-/

namespace Usb

variable {ι : Type}

/-! ## skel_open -/

inductive OpenPc where
  | findInterface
  | getIntfdata
  | autopmGet
  | krefGet
deriving DecidableEq

def skelOpen (f : Nat) (e : Choice) (pc : OpenPc) (s : Sys ι) : Result ι OpenPc :=
  match pc, e with
  | .findInterface, .go => some (.pc .getIntfdata, s, [])
  | .findInterface, .fail _ => some (.ret (-enodev), s, [])
  | .getIntfdata, .go =>
    if s.intfdata then some (.pc .autopmGet, s, []) else some (.ret (-enodev), s, [])
  | .autopmGet, .go => some (.pc .krefGet, { s with pmUsage := s.pmUsage + 1 }, [])
  | .autopmGet, .fail rv => if rv < 0 then some (.ret rv, s, []) else none
  | .krefGet, .go =>
    some (.ret 0, { s with dev.kref := s.dev.kref + 1, opened := insert f s.opened }, [])
  | _, _ => none

/-- What a step of `skel_open` can be. -/
inductive OpenStep (f : Nat) (s : Sys ι) : OpenPc → Next OpenPc → Sys ι → Prop where
  | refused {pc : OpenPc} {rv : Int} (hpc : pc ≠ .krefGet) (hrv : rv < 0) :
    OpenStep f s pc (.ret rv) s
  | findInterface : OpenStep f s .findInterface (.pc .getIntfdata) s
  | getIntfdata (hdata : s.intfdata = true) : OpenStep f s .getIntfdata (.pc .autopmGet) s
  | autopmGet : OpenStep f s .autopmGet (.pc .krefGet) { s with pmUsage := s.pmUsage + 1 }
  | krefGet :
    OpenStep f s .krefGet (.ret 0)
      { s with dev.kref := s.dev.kref + 1, opened := insert f s.opened }

theorem skelOpen_cases {f : Nat} {e : Choice} {pc : OpenPc} {s s' : Sys ι} {n : Next OpenPc}
    {os : List (Out ι)} (h : skelOpen f e pc s = some (n, s', os)) :
    os = [] ∧ OpenStep f s pc n s' := by
  cases pc with
  | findInterface =>
      cases e with
      | go =>
          cases h
          exact ⟨rfl, .findInterface⟩
      | fail rv =>
          cases h
          exact ⟨rfl, .refused (by decide) (by decide)⟩
      | _ => cases h
  | getIntfdata =>
      cases e with
      | go =>
          simp only [skelOpen] at h
          split at h
          next hdata =>
            cases h
            exact ⟨rfl, .getIntfdata hdata⟩
          next =>
            cases h
            exact ⟨rfl, .refused (by decide) (by decide)⟩
      | _ => cases h
  | autopmGet =>
      cases e with
      | go =>
          cases h
          exact ⟨rfl, .autopmGet⟩
      | fail rv =>
          simp only [skelOpen, Option.ite_none_right_eq_some] at h
          obtain ⟨hrv, h⟩ := h
          cases h
          exact ⟨rfl, .refused (by decide) hrv⟩
      | _ => cases h
  | krefGet =>
      cases e with
      | go =>
          cases h
          exact ⟨rfl, .krefGet⟩
      | _ => cases h

/-! ## skel_release -/

inductive ReleasePc where
  | autopmPut
  | krefPut
deriving DecidableEq

def skelRelease (e : Choice) (pc : ReleasePc) (s : Sys ι) : Result ι ReleasePc :=
  match pc, e with
  | .autopmPut, .go => some (.pc .krefPut, { s with pmUsage := s.pmUsage - 1 }, [])
  | .krefPut, .go => some (.ret 0, s.krefPut, [])
  | _, _ => none

/-- What a step of `skel_release` can be. -/
inductive ReleaseStep (s : Sys ι) : ReleasePc → Next ReleasePc → Sys ι → Prop where
  | autopmPut : ReleaseStep s .autopmPut (.pc .krefPut) { s with pmUsage := s.pmUsage - 1 }
  | krefPut : ReleaseStep s .krefPut (.ret 0) s.krefPut

theorem skelRelease_cases {e : Choice} {pc : ReleasePc} {s s' : Sys ι} {n : Next ReleasePc}
    {os : List (Out ι)} (h : skelRelease e pc s = some (n, s', os)) :
    os = [] ∧ ReleaseStep s pc n s' := by
  cases e with
  | go =>
      cases pc with
      | autopmPut =>
          cases h
          exact ⟨rfl, .autopmPut⟩
      | krefPut =>
          cases h
          exact ⟨rfl, .krefPut⟩
  | _ => cases pc <;> cases h

/-! ## skel_draw_down -/

inductive DrawPc where
  | waitAnchor
  | killAnchored
  | killRead
deriving DecidableEq

/-- A kill is over when what it kills has been completed. -/
def skelDrawDown (e : Choice) (pc : DrawPc) (s : Sys ι) : Result ι DrawPc :=
  match pc, e with
  | .waitAnchor, .go => if s.dev.submitted = 0 then some (.pc .killRead, s, []) else none
  | .waitAnchor, .timeout => some (.pc .killAnchored, s, [])
  | .killAnchored, .go => if s.dev.submitted = 0 then some (.pc .killRead, s, []) else none
  | .killRead, .go => if s.readUrb.isNone then some (.ret 0, s, []) else none
  | _, _ => none

/-- A function that calls `skel_draw_down` at `at'`, and goes on at `after`. -/
def drawDown {P : Type} (inside : DrawPc → P) (after : Next P) (e : Choice) (pc : DrawPc)
    (s : Sys ι) : Result ι P :=
  (skelDrawDown e pc s).map fun r =>
    (match r.1 with
      | .pc pc' => .pc (inside pc')
      | .ret _ => after, r.2)

/-- `skel_draw_down` changes nothing by itself: it goes on inside, or is over. -/
theorem drawDown_cases {P : Type} {inside : DrawPc → P} {after : Next P} {e : Choice}
    {pc : DrawPc} {s s' : Sys ι} {n : Next P} {os : List (Out ι)}
    (h : drawDown inside after e pc s = some (n, s', os)) :
    s' = s ∧ os = [] ∧ ((∃ pc', n = .pc (inside pc')) ∨ n = after) := by
  simp only [drawDown, Option.map_eq_some_iff] at h
  obtain ⟨⟨n', s₁, os'⟩, hr, h⟩ := h
  cases h
  cases pc with
  | waitAnchor =>
      cases e with
      | go =>
          simp only [skelDrawDown, Option.ite_none_right_eq_some] at hr
          obtain ⟨-, hr⟩ := hr
          cases hr
          exact ⟨rfl, rfl, .inl ⟨_, rfl⟩⟩
      | timeout =>
          cases hr
          exact ⟨rfl, rfl, .inl ⟨_, rfl⟩⟩
      | _ => cases hr
  | killAnchored =>
      cases e with
      | go =>
          simp only [skelDrawDown, Option.ite_none_right_eq_some] at hr
          obtain ⟨-, hr⟩ := hr
          cases hr
          exact ⟨rfl, rfl, .inl ⟨_, rfl⟩⟩
      | _ => cases hr
  | killRead =>
      cases e with
      | go =>
          simp only [skelDrawDown, Option.ite_none_right_eq_some] at hr
          obtain ⟨-, hr⟩ := hr
          cases hr
          exact ⟨rfl, rfl, .inr rfl⟩
      | _ => cases hr

/-! ## skel_flush -/

inductive FlushPc where
  | lock
  | drawDown (pc : DrawPc)
  | errors
  | unlock (res : Int)
deriving DecidableEq

def skelFlush (i : ι) (e : Choice) (pc : FlushPc) (s : Sys ι) : Result ι FlushPc :=
  match pc, e with
  | .lock, .go =>
    if s.dev.ioMutex.isNone then
      some (.pc (.drawDown .waitAnchor), { s with dev.ioMutex := some i }, [])
    else
      none
  | .drawDown pc, e => Usb.drawDown .drawDown (.pc .errors) e pc s
  | .errors, .go =>
    some (.pc (.unlock (if s.dev.errors ≠ 0 then
        if s.dev.errors = -epipe then -epipe else -eio
      else 0)), { s with dev.errors := 0 }, [])
  | .unlock res, .go => some (.ret res, { s with dev.ioMutex := none }, [])
  | _, _ => none

/-- What a step of `skel_flush` can be. -/
inductive FlushStep (i : ι) (s : Sys ι) : FlushPc → Next FlushPc → Sys ι → Prop where
  | lock (hfree : s.dev.ioMutex = none) :
    FlushStep i s .lock (.pc (.drawDown .waitAnchor)) { s with dev.ioMutex := some i }
  | drawDown {pc pc' : DrawPc} : FlushStep i s (.drawDown pc) (.pc (.drawDown pc')) s
  | drawn {pc : DrawPc} : FlushStep i s (.drawDown pc) (.pc .errors) s
  | errors {res : Int} : FlushStep i s .errors (.pc (.unlock res)) { s with dev.errors := 0 }
  | unlock {res : Int} : FlushStep i s (.unlock res) (.ret res) { s with dev.ioMutex := none }

theorem skelFlush_cases {i : ι} {e : Choice} {pc : FlushPc} {s s' : Sys ι} {n : Next FlushPc}
    {os : List (Out ι)} (h : skelFlush i e pc s = some (n, s', os)) :
    os = [] ∧ FlushStep i s pc n s' := by
  cases pc with
  | lock =>
      cases e with
      | go =>
          simp only [skelFlush, Option.ite_none_right_eq_some, Option.isNone_iff_eq_none] at h
          obtain ⟨hfree, h⟩ := h
          cases h
          exact ⟨rfl, .lock hfree⟩
      | _ => cases h
  | drawDown pc =>
      obtain ⟨rfl, rfl, ⟨pc', rfl⟩ | rfl⟩ := drawDown_cases h
      · exact ⟨rfl, .drawDown⟩
      · exact ⟨rfl, .drawn⟩
  | errors =>
      cases e with
      | go =>
          cases h
          exact ⟨rfl, .errors⟩
      | _ => cases h
  | unlock res =>
      cases e with
      | go =>
          cases h
          exact ⟨rfl, .unlock⟩
      | _ => cases h

/-! ## skel_disconnect -/

inductive DisconnectPc where
  | setIntfdata
  | deregister
  | lock
  | disconnected
  | unlock
  | killRead
  | killAnchored
  | krefPut
deriving DecidableEq

def skelDisconnect (i : ι) (e : Choice) (pc : DisconnectPc) (s : Sys ι) : Result ι DisconnectPc :=
  match pc, e with
  | .setIntfdata, .go => some (.pc .deregister, { s with intfdata := false }, [])
  | .deregister, .go =>
    if s.minorRwsem = 0 then some (.pc .lock, { s with registered := false }, []) else none
  | .lock, .go =>
    if s.dev.ioMutex.isNone then
      some (.pc .disconnected, { s with dev.ioMutex := some i }, [])
    else
      none
  | .disconnected, .go => some (.pc .unlock, { s with dev.disconnected := true }, [])
  | .unlock, .go => some (.pc .killRead, { s with dev.ioMutex := none }, [])
  | .killRead, .go => if s.readUrb.isNone then some (.pc .killAnchored, s, []) else none
  | .killAnchored, .go => if s.dev.submitted = 0 then some (.pc .krefPut, s, []) else none
  | .krefPut, .go => some (.ret 0, { s.krefPut with binding := .gone }, [])
  | _, _ => none

/-- What a step of `skel_disconnect` can be. -/
inductive DisconnectStep (i : ι) (s : Sys ι) :
    DisconnectPc → Next DisconnectPc → Sys ι → Prop where
  | setIntfdata : DisconnectStep i s .setIntfdata (.pc .deregister) { s with intfdata := false }
  | deregister (hout : s.minorRwsem = 0) :
    DisconnectStep i s .deregister (.pc .lock) { s with registered := false }
  | lock (hfree : s.dev.ioMutex = none) :
    DisconnectStep i s .lock (.pc .disconnected) { s with dev.ioMutex := some i }
  | disconnected :
    DisconnectStep i s .disconnected (.pc .unlock) { s with dev.disconnected := true }
  | unlock : DisconnectStep i s .unlock (.pc .killRead) { s with dev.ioMutex := none }
  | killRead (hread : s.readUrb = none) : DisconnectStep i s .killRead (.pc .killAnchored) s
  | killAnchored (hwrite : s.dev.submitted = 0) :
    DisconnectStep i s .killAnchored (.pc .krefPut) s
  | krefPut : DisconnectStep i s .krefPut (.ret 0) { s.krefPut with binding := .gone }

theorem skelDisconnect_cases {i : ι} {e : Choice} {pc : DisconnectPc} {s s' : Sys ι}
    {n : Next DisconnectPc} {os : List (Out ι)}
    (h : skelDisconnect i e pc s = some (n, s', os)) :
    os = [] ∧ DisconnectStep i s pc n s' := by
  cases e with
  | go =>
      cases pc with
      | setIntfdata =>
          cases h
          exact ⟨rfl, .setIntfdata⟩
      | deregister =>
          simp only [skelDisconnect, Option.ite_none_right_eq_some] at h
          obtain ⟨hout, h⟩ := h
          cases h
          exact ⟨rfl, .deregister hout⟩
      | lock =>
          simp only [skelDisconnect, Option.ite_none_right_eq_some, Option.isNone_iff_eq_none] at h
          obtain ⟨hfree, h⟩ := h
          cases h
          exact ⟨rfl, .lock hfree⟩
      | disconnected =>
          cases h
          exact ⟨rfl, .disconnected⟩
      | unlock =>
          cases h
          exact ⟨rfl, .unlock⟩
      | killRead =>
          simp only [skelDisconnect, Option.ite_none_right_eq_some, Option.isNone_iff_eq_none] at h
          obtain ⟨hread, h⟩ := h
          cases h
          exact ⟨rfl, .killRead hread⟩
      | killAnchored =>
          simp only [skelDisconnect, Option.ite_none_right_eq_some] at h
          obtain ⟨hwrite, h⟩ := h
          cases h
          exact ⟨rfl, .killAnchored hwrite⟩
      | krefPut =>
          cases h
          exact ⟨rfl, .krefPut⟩
  | _ => cases pc <;> cases h

/-! ## skel_suspend, skel_pre_reset and skel_post_reset -/

inductive SuspendPc where
  | getIntfdata
  | drawDown (pc : DrawPc)
deriving DecidableEq

def skelSuspend (e : Choice) (pc : SuspendPc) (s : Sys ι) : Result ι SuspendPc :=
  match pc, e with
  | .getIntfdata, .go =>
    if s.intfdata then some (.pc (.drawDown .waitAnchor), s, []) else some (.ret 0, s, [])
  | .drawDown pc, e => Usb.drawDown .drawDown (.ret 0) e pc s
  | _, _ => none

/-- What a step of `skel_suspend` can be. -/
inductive SuspendStep : SuspendPc → Next SuspendPc → Prop where
  | drawDown {pc : SuspendPc} {pc' : DrawPc} : SuspendStep pc (.pc (.drawDown pc'))
  | ret {pc : SuspendPc} : SuspendStep pc (.ret 0)

theorem skelSuspend_cases {e : Choice} {pc : SuspendPc} {s s' : Sys ι} {n : Next SuspendPc}
    {os : List (Out ι)} (h : skelSuspend e pc s = some (n, s', os)) :
    s' = s ∧ os = [] ∧ SuspendStep pc n := by
  cases pc with
  | getIntfdata =>
      cases e with
      | go =>
          simp only [skelSuspend] at h
          split at h
          next =>
            cases h
            exact ⟨rfl, rfl, .drawDown⟩
          next =>
            cases h
            exact ⟨rfl, rfl, .ret⟩
      | _ => cases h
  | drawDown pc =>
      obtain ⟨rfl, rfl, ⟨pc', rfl⟩ | rfl⟩ := drawDown_cases h
      · exact ⟨rfl, rfl, .drawDown⟩
      · exact ⟨rfl, rfl, .ret⟩

/-- `skel_pre_reset` up to `drawDown`, and `skel_post_reset` from `errors` on. -/
inductive ResetPc where
  | lock
  | drawDown (pc : DrawPc)
  | errors
  | unlock
deriving DecidableEq

def skelReset (i : ι) (e : Choice) (pc : ResetPc) (s : Sys ι) : Result ι ResetPc :=
  match pc, e with
  | .lock, .go =>
    if s.dev.ioMutex.isNone then
      some (.pc (.drawDown .waitAnchor), { s with dev.ioMutex := some i }, [])
    else
      none
  | .drawDown pc, e => Usb.drawDown .drawDown (.pc .errors) e pc s
  | .errors, .go => some (.pc .unlock, { s with dev.errors := -epipe }, [])
  | .unlock, .go => some (.ret 0, { s with dev.ioMutex := none }, [])
  | _, _ => none

/-- What a step of `skel_pre_reset` or `skel_post_reset` can be. -/
inductive ResetStep (i : ι) (s : Sys ι) : ResetPc → Next ResetPc → Sys ι → Prop where
  | lock (hfree : s.dev.ioMutex = none) :
    ResetStep i s .lock (.pc (.drawDown .waitAnchor)) { s with dev.ioMutex := some i }
  | drawDown {pc pc' : DrawPc} : ResetStep i s (.drawDown pc) (.pc (.drawDown pc')) s
  | drawn {pc : DrawPc} : ResetStep i s (.drawDown pc) (.pc .errors) s
  | errors : ResetStep i s .errors (.pc .unlock) { s with dev.errors := -epipe }
  | unlock : ResetStep i s .unlock (.ret 0) { s with dev.ioMutex := none }

theorem skelReset_cases {i : ι} {e : Choice} {pc : ResetPc} {s s' : Sys ι} {n : Next ResetPc}
    {os : List (Out ι)} (h : skelReset i e pc s = some (n, s', os)) :
    os = [] ∧ ResetStep i s pc n s' := by
  cases pc with
  | lock =>
      cases e with
      | go =>
          simp only [skelReset, Option.ite_none_right_eq_some, Option.isNone_iff_eq_none] at h
          obtain ⟨hfree, h⟩ := h
          cases h
          exact ⟨rfl, .lock hfree⟩
      | _ => cases h
  | drawDown pc =>
      obtain ⟨rfl, rfl, ⟨pc', rfl⟩ | rfl⟩ := drawDown_cases h
      · exact ⟨rfl, .drawDown⟩
      · exact ⟨rfl, .drawn⟩
  | errors =>
      cases e with
      | go =>
          cases h
          exact ⟨rfl, .errors⟩
      | _ => cases h
  | unlock =>
      cases e with
      | go =>
          cases h
          exact ⟨rfl, .unlock⟩
      | _ => cases h

end Usb
