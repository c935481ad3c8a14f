-- SUMMARY: Reading from the USB skeleton driver (usb_skeleton.c): `skel_read` and `skel_do_read_io`, step by step.
import LinuxShare.Usb.Skeleton

/-!
# Reading

`skel_read` holds `io_mutex` from its first step to its last one, also while it waits for
a transfer. Its loop goes back to `retry` after each read URB that it has submitted for
itself; the one that it submits ahead, for a reader to come, it does not wait for.
-/

namespace Usb

variable {ι : Type}

inductive DoReadPc where
  | ongoing
  | fill
  | submit
  | failed (rv : Int)
deriving DecidableEq

/-- The places in `skel_read`. In `doReadIo`, `keep` is the result that the caller returns
whatever the submission comes to, if it has one already. -/
inductive ReadPc where
  | lock
  | disconnected
  | retry
  | wait
  | errors
  | clear (rv : Int)
  | filled
  | copy (available : Nat)
  | doReadIo (want : Nat) (keep : Option Int) (pc : DoReadPc)
  | exit (rv : Int)
deriving DecidableEq

/-- What `skel_read` does with the result of `skel_do_read_io`. -/
def afterDoReadIo (keep : Option Int) (rv : Int) : ReadPc :=
  match keep with
  | some rv' => .exit rv'
  | none => if rv < 0 then .exit rv else .retry

def skelDoReadIo (want : Nat) (keep : Option Int) (e : Choice) (pc : DoReadPc) (s : Sys ι) :
    Result ι ReadPc :=
  match pc, e with
  | .ongoing, .go =>
    some (.pc (.doReadIo want keep .fill), { s with dev.ongoingRead := true }, [])
  | .fill, .go =>
    some (.pc (.doReadIo want keep .submit),
      { s with dev.bulkInFilled := 0, dev.bulkInCopied := 0 }, [])
  | .submit, .go =>
    some (.pc (afterDoReadIo keep 0), { s with readUrb := some (min s.dev.bulkInSize want) }, [])
  | .submit, .fail rv =>
    if rv < 0 then
      some (.pc (.doReadIo want keep (.failed (if rv = -enomem then rv else -eio))), s, [])
    else
      none
  | .failed rv, .go =>
    some (.pc (afterDoReadIo keep rv), { s with dev.ongoingRead := false }, [])
  | _, _ => none

/-- `copy_to_user` of the next bytes, and what follows it. -/
def copyChunk (i : ι) (count available : Nat) (ok : Bool) (s : Sys ι) : Result ι ReadPc :=
  let chunk := min available count
  let rv : Int := if ok then chunk else -efault
  some (.pc (if available < count then .doReadIo (count - chunk) (some rv) .ongoing else .exit rv),
    { s with dev.bulkInCopied := s.dev.bulkInCopied + chunk },
    [.copied i ((s.dev.bulkInBuffer.drop s.dev.bulkInCopied).take chunk) ok])

def skelRead (i : ι) (count : Nat) (nonblock : Bool) (e : Choice) (pc : ReadPc) (s : Sys ι) :
    Result ι ReadPc :=
  match pc, e with
  | .lock, .go =>
    if s.dev.ioMutex.isNone then
      some (.pc .disconnected, { s with dev.ioMutex := some i }, [])
    else
      none
  | .lock, .signal => some (.ret (-eintr), s, [])
  | .disconnected, .go =>
    some (.pc (if s.dev.disconnected then .exit (-enodev) else .retry), s, [])
  | .retry, .go =>
    if s.dev.ongoingRead then
      some (.pc (if nonblock then .exit (-eagain) else .wait), s, [])
    else
      some (.pc .errors, s, [])
  | .wait, .go => if s.dev.ongoingRead then none else some (.pc .errors, s, [])
  | .wait, .signal => some (.pc (.exit (-erestartsys)), s, [])
  | .errors, .go => some (.pc (if s.dev.errors < 0 then .clear s.dev.errors else .filled), s, [])
  | .clear rv, .go =>
    some (.pc (.exit (if rv = -epipe then rv else -eio)), { s with dev.errors := 0 }, [])
  | .filled, .go =>
    if s.dev.bulkInFilled ≠ 0 then
      if s.dev.bulkInFilled - s.dev.bulkInCopied = 0 then
        some (.pc (.doReadIo count none .ongoing), s, [])
      else
        some (.pc (.copy (s.dev.bulkInFilled - s.dev.bulkInCopied)), s, [])
    else
      some (.pc (.doReadIo count none .ongoing), s, [])
  | .copy available, .go => copyChunk i count available true s
  | .copy available, .fail _ => copyChunk i count available false s
  | .doReadIo want keep pc, e => skelDoReadIo want keep e pc s
  | .exit rv, .go => some (.ret rv, { s with dev.ioMutex := none }, [])
  | _, _ => none

/-! ## Steps -/

/-- What a step of `skel_read` can be. -/
inductive ReadStep (i : ι) (count : Nat) (s : Sys ι) :
    ReadPc → Next ReadPc → Sys ι → List (Out ι) → Prop where
  | lock (hfree : s.dev.ioMutex = none) :
    ReadStep i count s .lock (.pc .disconnected) { s with dev.ioMutex := some i } []
  | interrupted : ReadStep i count s .lock (.ret (-eintr)) s []
  | gone (hgone : s.dev.disconnected = true) :
    ReadStep i count s .disconnected (.pc (.exit (-enodev))) s []
  | present (hpresent : s.dev.disconnected = false) :
    ReadStep i count s .disconnected (.pc .retry) s []
  | stop {pc : ReadPc} {rv : Int} (hpc : pc = .retry ∨ pc = .wait) (hrv : rv < 0) :
    ReadStep i count s pc (.pc (.exit rv)) s []
  | wait : ReadStep i count s .retry (.pc .wait) s []
  | ready {pc : ReadPc} (hpc : pc = .retry ∨ pc = .wait) (hidle : s.dev.ongoingRead = false) :
    ReadStep i count s pc (.pc .errors) s []
  | error (herror : s.dev.errors < 0) :
    ReadStep i count s .errors (.pc (.clear s.dev.errors)) s []
  | clear {rv rv' : Int} (hrv : rv < 0 → rv' < 0) :
    ReadStep i count s (.clear rv) (.pc (.exit rv')) { s with dev.errors := 0 } []
  | noError : ReadStep i count s .errors (.pc .filled) s []
  | empty (hempty : s.dev.bulkInFilled - s.dev.bulkInCopied = 0) :
    ReadStep i count s .filled (.pc (.doReadIo count none .ongoing)) s []
  | data (hdata : s.dev.bulkInFilled - s.dev.bulkInCopied ≠ 0) :
    ReadStep i count s .filled (.pc (.copy (s.dev.bulkInFilled - s.dev.bulkInCopied))) s []
  | copy {available : Nat} (ok : Bool) {n : Next ReadPc} {s' : Sys ι} {os : List (Out ι)}
    (hcopy : copyChunk i count available ok s = some (n, s', os)) :
    ReadStep i count s (.copy available) n s' os
  | ongoing {want : Nat} {keep : Option Int} :
    ReadStep i count s (.doReadIo want keep .ongoing) (.pc (.doReadIo want keep .fill))
      { s with dev.ongoingRead := true } []
  | fill {want : Nat} {keep : Option Int} :
    ReadStep i count s (.doReadIo want keep .fill) (.pc (.doReadIo want keep .submit))
      { s with dev.bulkInFilled := 0, dev.bulkInCopied := 0 } []
  | submit {want : Nat} {keep : Option Int} :
    ReadStep i count s (.doReadIo want keep .submit) (.pc (afterDoReadIo keep 0))
      { s with readUrb := some (min s.dev.bulkInSize want) } []
  | refused {want : Nat} {keep : Option Int} {rv : Int} (hrv : rv < 0) :
    ReadStep i count s (.doReadIo want keep .submit) (.pc (.doReadIo want keep (.failed rv))) s []
  | failed {want : Nat} {keep : Option Int} {rv : Int} :
    ReadStep i count s (.doReadIo want keep (.failed rv)) (.pc (afterDoReadIo keep rv))
      { s with dev.ongoingRead := false } []
  | exit {rv : Int} :
    ReadStep i count s (.exit rv) (.ret rv) { s with dev.ioMutex := none } []

theorem skelRead_cases {i : ι} {count : Nat} {nb : Bool} {e : Choice} {pc : ReadPc} {s s' : Sys ι}
    {n : Next ReadPc} {os : List (Out ι)}
    (h : skelRead i count nb e pc s = some (n, s', os)) : ReadStep i count s pc n s' os := by
  cases pc with
  | lock =>
      cases e with
      | go =>
          simp only [skelRead, Option.ite_none_right_eq_some, Option.isNone_iff_eq_none] at h
          obtain ⟨hfree, h⟩ := h
          cases h
          exact .lock hfree
      | signal =>
          cases h
          exact .interrupted
      | _ => cases h
  | disconnected =>
      cases e with
      | go =>
          cases h
          split
          next hgone => exact .gone hgone
          next hpresent => exact .present (by simpa using hpresent)
      | _ => cases h
  | retry =>
      cases e with
      | go =>
          simp only [skelRead] at h
          split at h
          next =>
            cases h
            cases nb
            · exact .wait
            · exact .stop (.inl rfl) (by decide)
          next hidle =>
            cases h
            exact .ready (.inl rfl) (by simpa using hidle)
      | _ => cases h
  | wait =>
      cases e with
      | go =>
          simp only [skelRead, Option.ite_none_left_eq_some] at h
          obtain ⟨hidle, h⟩ := h
          cases h
          exact .ready (.inr rfl) (by simpa using hidle)
      | signal =>
          cases h
          exact .stop (.inr rfl) (by decide)
      | _ => cases h
  | errors =>
      cases e with
      | go =>
          cases h
          split
          next herror => exact .error herror
          next => exact .noError
      | _ => cases h
  | clear rv =>
      cases e with
      | go =>
          cases h
          refine .clear fun hrv => ?_
          split
          · exact hrv
          · decide
      | _ => cases h
  | filled =>
      cases e with
      | go =>
          simp only [skelRead] at h
          split at h
          next =>
            split at h
            next hempty =>
              cases h
              exact .empty hempty
            next hdata =>
              cases h
              exact .data hdata
          next hfilled =>
            cases h
            exact .empty (by omega)
      | _ => cases h
  | copy available =>
      cases e with
      | go => exact .copy true h
      | fail rv => exact .copy false h
      | _ => cases h
  | doReadIo want keep pc =>
      cases pc with
      | submit =>
          cases e with
          | go =>
              cases h
              exact .submit
          | fail rv =>
              simp only [skelRead, skelDoReadIo, Option.ite_none_right_eq_some] at h
              obtain ⟨hrv, h⟩ := h
              cases h
              refine .refused ?_
              split
              · exact hrv
              · decide
          | _ => cases h
      | ongoing =>
          cases e with
          | go =>
              cases h
              exact .ongoing
          | _ => cases h
      | fill =>
          cases e with
          | go =>
              cases h
              exact .fill
          | _ => cases h
      | failed rv =>
          cases e with
          | go =>
              cases h
              exact .failed
          | _ => cases h
  | exit rv =>
      cases e with
      | go =>
          cases h
          exact .exit
      | _ => cases h

end Usb
