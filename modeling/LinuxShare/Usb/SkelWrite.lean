-- SUMMARY: Writing to the USB skeleton driver (usb_skeleton.c): `skel_write`, step by step.
import LinuxShare.Usb.Skeleton

/-!
# Writing

`skel_write` takes one of the `WRITES_IN_FLIGHT` permits before it allocates anything. The
URB that it submits takes the permit over, and its callback gives it back.
-/

namespace Usb

variable {ι : Type}

/-- The places in `skel_write`. `error` is its label of this name, with `buf` telling whether
the buffer has been allocated; `unanchor` is the label before it. -/
inductive WritePc where
  | down
  | errors
  | allocUrb
  | allocBuf
  | copy
  | lock
  | disconnected
  | anchor
  | submit
  | unlock (rv : Int)
  | unanchor (rv : Int)
  | error (rv : Int) (buf : Bool)
deriving DecidableEq

def writesize (data : List UInt8) : Nat := min data.length maxTransfer

def skelWrite (i : ι) (data : List UInt8) (nonblock : Bool) (e : Choice) (pc : WritePc)
    (s : Sys ι) : Result ι WritePc :=
  match pc, e with
  | .down, .go =>
    if s.dev.limitSem = 0 then
      if nonblock then some (.ret (-eagain), s, []) else none
    else
      some (.pc .errors, { s with dev.limitSem := s.dev.limitSem - 1 }, [])
  | .down, .signal => if nonblock then none else some (.ret (-erestartsys), s, [])
  | .errors, .go =>
    if s.dev.errors < 0 then
      some (.pc (.error (if s.dev.errors = -epipe then s.dev.errors else -eio) false),
        { s with dev.errors := 0 }, [])
    else
      some (.pc .allocUrb, s, [])
  | .allocUrb, .go => some (.pc .allocBuf, s, [])
  | .allocUrb, .fail _ => some (.pc (.error (-enomem) false), s, [])
  | .allocBuf, .go => some (.pc .copy, { s with coherent := s.coherent + 1 }, [])
  | .allocBuf, .fail _ => some (.pc (.error (-enomem) false), s, [])
  | .copy, .go => some (.pc .lock, s, [])
  | .copy, .fail _ => some (.pc (.error (-efault) true), s, [])
  | .lock, .go =>
    if s.dev.ioMutex.isNone then
      some (.pc .disconnected, { s with dev.ioMutex := some i }, [])
    else
      none
  | .disconnected, .go =>
    if s.dev.disconnected then
      some (.pc (.error (-enodev) true), { s with dev.ioMutex := none }, [])
    else
      some (.pc .anchor, s, [])
  | .anchor, .go => some (.pc .submit, { s with dev.submitted := s.dev.submitted + 1 }, [])
  | .submit, .go =>
    some (.pc (.unlock 0), { s with writeUrbs := s.writeUrbs ++ [data.take (writesize data)] },
      [.sent i (data.take (writesize data))])
  | .submit, .fail rv => if rv < 0 then some (.pc (.unlock rv), s, []) else none
  | .unlock rv, .go =>
    some (if rv ≠ 0 then .pc (.unanchor rv) else .ret (writesize data),
      { s with dev.ioMutex := none }, [])
  | .unanchor rv, .go =>
    some (.pc (.error rv true), { s with dev.submitted := s.dev.submitted - 1 }, [])
  | .error rv buf, .go =>
    some (.ret rv,
      { s with
        coherent := if buf then s.coherent - 1 else s.coherent
        dev.limitSem := s.dev.limitSem + 1 }, [])
  | _, _ => none

/-! ## Steps -/

/-- What a step of `skel_write` can be. -/
inductive WriteStep (i : ι) (data : List UInt8) (s : Sys ι) :
    WritePc → Next WritePc → Sys ι → List (Out ι) → Prop where
  | refused {rv : Int} (hrv : rv < 0) : WriteStep i data s .down (.ret rv) s []
  | down (hpermit : s.dev.limitSem ≠ 0) :
    WriteStep i data s .down (.pc .errors) { s with dev.limitSem := s.dev.limitSem - 1 } []
  | error {rv : Int} (hrv : rv < 0) :
    WriteStep i data s .errors (.pc (.error rv false)) { s with dev.errors := 0 } []
  | noError : WriteStep i data s .errors (.pc .allocUrb) s []
  | allocUrb : WriteStep i data s .allocUrb (.pc .allocBuf) s []
  | noMemory {pc : WritePc} {rv : Int} (hpc : pc = .allocUrb ∨ pc = .allocBuf) (hrv : rv < 0) :
    WriteStep i data s pc (.pc (.error rv false)) s []
  | allocBuf : WriteStep i data s .allocBuf (.pc .copy) { s with coherent := s.coherent + 1 } []
  | copy : WriteStep i data s .copy (.pc .lock) s []
  | fault {rv : Int} (hrv : rv < 0) : WriteStep i data s .copy (.pc (.error rv true)) s []
  | lock (hfree : s.dev.ioMutex = none) :
    WriteStep i data s .lock (.pc .disconnected) { s with dev.ioMutex := some i } []
  | gone {rv : Int} (hgone : s.dev.disconnected = true) (hrv : rv < 0) :
    WriteStep i data s .disconnected (.pc (.error rv true)) { s with dev.ioMutex := none } []
  | present (hpresent : s.dev.disconnected = false) :
    WriteStep i data s .disconnected (.pc .anchor) s []
  | anchor :
    WriteStep i data s .anchor (.pc .submit) { s with dev.submitted := s.dev.submitted + 1 } []
  | submit :
    WriteStep i data s .submit (.pc (.unlock 0))
      { s with writeUrbs := s.writeUrbs ++ [data.take (writesize data)] }
      [.sent i (data.take (writesize data))]
  | notSubmitted {rv : Int} (hrv : rv < 0) : WriteStep i data s .submit (.pc (.unlock rv)) s []
  | sent :
    WriteStep i data s (.unlock 0) (.ret (writesize data)) { s with dev.ioMutex := none } []
  | failed {rv : Int} (hrv : rv ≠ 0) :
    WriteStep i data s (.unlock rv) (.pc (.unanchor rv)) { s with dev.ioMutex := none } []
  | unanchor {rv : Int} :
    WriteStep i data s (.unanchor rv) (.pc (.error rv true))
      { s with dev.submitted := s.dev.submitted - 1 } []
  | errorOut {rv : Int} {buf : Bool} :
    WriteStep i data s (.error rv buf) (.ret rv)
      { s with
        coherent := if buf then s.coherent - 1 else s.coherent
        dev.limitSem := s.dev.limitSem + 1 } []

theorem skelWrite_cases {i : ι} {data : List UInt8} {nb : Bool} {e : Choice} {pc : WritePc}
    {s s' : Sys ι} {n : Next WritePc} {os : List (Out ι)}
    (h : skelWrite i data nb e pc s = some (n, s', os)) : WriteStep i data s pc n s' os := by
  cases pc with
  | down =>
      cases e with
      | go =>
          simp only [skelWrite] at h
          split at h
          next =>
            cases nb with
            | true =>
                cases h
                exact .refused (by decide)
            | false => cases h
          next hpermit =>
            cases h
            exact .down hpermit
      | signal =>
          cases nb with
          | true => cases h
          | false =>
              cases h
              exact .refused (by decide)
      | _ => cases h
  | errors =>
      cases e with
      | go =>
          simp only [skelWrite] at h
          split at h
          next herror =>
            cases h
            refine .error ?_
            split
            · exact herror
            · decide
          next =>
            cases h
            exact .noError
      | _ => cases h
  | allocUrb =>
      cases e with
      | go =>
          cases h
          exact .allocUrb
      | fail rv =>
          cases h
          exact .noMemory (.inl rfl) (by decide)
      | _ => cases h
  | allocBuf =>
      cases e with
      | go =>
          cases h
          exact .allocBuf
      | fail rv =>
          cases h
          exact .noMemory (.inr rfl) (by decide)
      | _ => cases h
  | copy =>
      cases e with
      | go =>
          cases h
          exact .copy
      | fail rv =>
          cases h
          exact .fault (by decide)
      | _ => cases h
  | lock =>
      cases e with
      | go =>
          simp only [skelWrite, Option.ite_none_right_eq_some, Option.isNone_iff_eq_none] at h
          obtain ⟨hfree, h⟩ := h
          cases h
          exact .lock hfree
      | _ => cases h
  | disconnected =>
      cases e with
      | go =>
          simp only [skelWrite] at h
          split at h
          next hgone =>
            cases h
            exact .gone hgone (by decide)
          next hpresent =>
            cases h
            exact .present (by simpa using hpresent)
      | _ => cases h
  | anchor =>
      cases e with
      | go =>
          cases h
          exact .anchor
      | _ => cases h
  | submit =>
      cases e with
      | go =>
          cases h
          exact .submit
      | fail rv =>
          simp only [skelWrite, Option.ite_none_right_eq_some] at h
          obtain ⟨hrv, h⟩ := h
          cases h
          exact .notSubmitted hrv
      | _ => cases h
  | unlock rv =>
      cases e with
      | go =>
          cases h
          split
          next hrv => exact .failed hrv
          next hrv =>
            obtain rfl : rv = 0 := not_not.mp hrv
            exact .sent
      | _ => cases h
  | unanchor rv =>
      cases e with
      | go =>
          cases h
          exact .unanchor
      | _ => cases h
  | error rv buf =>
      cases e with
      | go =>
          cases h
          exact .errorOut
      | _ => cases h

end Usb
