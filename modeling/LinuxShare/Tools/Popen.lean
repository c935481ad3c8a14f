-- SUMMARY: Running a command and reading its output (tools.c): what the caller gets, and when.
import LinuxShare.Lib.Bytes
import LinuxShare.Lib.Stream
import Mathlib.Algebra.Order.Ring.Rat

/-!
# common_popen_return_result

The function makes the command's output non-blocking, waits once until there is something
to read, and reads once. Whatever fails in between, it closes the stream and returns what
that yields.
-/

namespace Tools

open Bytes Stream

/-- What the system calls yield, and how the output of the command arrives. Times are seconds
after the call of `select`; `clock` says when `fread` makes its calls of `read`. -/
structure Env where
  popen : Bool
  setfl : Bool
  select : Bool
  delivery : Delivery ℚ UInt8
  clock : Nat → ℚ
  mono : Monotone clock
  ready_le : delivery.ready ≤ clock 0
  pclose : Bool

namespace Env

variable (e : Env)

/-- Everything that the command writes. -/
def output : List UInt8 := e.delivery.output

/-- `timeout.tv_sec = 5; timeout.tv_usec = 0;` -/
def timedOut : Bool := 5 < e.delivery.ready

/-- `fread(result, result_len, 1, stream)`: what it stores. -/
def fread (resultLen : Nat) : List UInt8 := readUpTo e.delivery e.clock resultLen 0 []

end Env

/-- What the caller finds. `stored` is a ghost: how many bytes `fread` has put into the buffer. -/
structure Outcome where
  ret : Int
  result : Mem
  messages : List String
  stored : Nat

/-- `end_handle: ret = pclose(stream); …` -/
def endHandle (e : Env) (result : Mem) (messages : List String) (stored : Nat) : Outcome :=
  { ret := if e.pclose then 0 else -1, result, messages, stored }

/-- `pCmd` may be null, and so may `result`, which holds `buf` if it is not. -/
def commonPopenReturnResult (pCmd : Option String) (isNull : Bool) (buf : Mem) (resultLen : Int)
    (e : Env) : Outcome :=
  match pCmd with
  | none => { ret := -1, result := buf, messages := [], stored := 0 }
  | some cmd =>
    if isNull = true ∨ resultLen ≤ 0 then { ret := -1, result := buf, messages := [], stored := 0 }
    else if e.popen = false then { ret := -1, result := buf, messages := [], stored := 0 }
    else if e.setfl = false then endHandle e buf ["fcntl:"] 0
    else if e.select = false then endHandle e buf [cmd ++ ":select failed\n"] 0
    else if e.timedOut = true then endHandle e buf [cmd ++ " select timeout\n"] 0
    else
      let bytes := e.fread resultLen.toNat
      endHandle e (buf.write 0 bytes) [] bytes.length

/-! ## What the caller may rely on -/

/-- As much of the output as the buffer takes. -/
def Env.need (e : Env) (resultLen : Int) : Nat := min resultLen.toNat e.output.length

/-- With zero the buffer begins with the output; a failure in between is an error; and zero is
not returned with nothing read of a command that has written something. -/
structure Promise (resultLen : Int) (e : Env) (o : Outcome) : Prop where
  isPrefix : o.ret = 0 → o.result.slice 0 (e.need resultLen) = e.output.take (e.need resultLen)
  failed : e.setfl = false ∨ e.select = false ∨ e.timedOut = true → o.ret = -1
  nonempty : o.ret = 0 → e.output ≠ [] → o.stored ≠ 0

/-- The calls in between succeed, and whenever `fread` looks for more there is more, until the
buffer is full or the output complete. -/
structure Env.Ready (e : Env) (resultLen : Int) : Prop where
  setfl : e.setfl = true
  select : e.select = true
  inTime : e.timedOut = false
  steady : Steady e.delivery e.clock (e.need resultLen)

variable {cmd : String} {buf : Mem} {resultLen : Int} {e : Env} {o : Outcome}

theorem promise_of_error (h : o.ret = -1) : Promise resultLen e o where
  isPrefix := fun hret => by simp [h] at hret
  failed := fun _ => h
  nonempty := fun hret => by simp [h] at hret

theorem fread_eq_take (e : Env) (n : Nat) :
    e.fread n = e.output.take (e.fread n).length ∧ (e.fread n).length ≤ n :=
  readUpTo_eq_take List.take_zero.symm (Nat.zero_le n)

theorem need_le_length_fread : e.need resultLen ≤ (e.fread resultLen.toNat).length ↔
    Steady e.delivery e.clock (e.need resultLen) :=
  le_length_readUpTo_zero e.mono (Nat.min_le_left _ _)

/-- The path on which `fread` is called. -/
theorem run_of_read (hpos : 0 < resultLen) (hpopen : e.popen = true) (hsetfl : e.setfl = true)
    (hselect : e.select = true) (htime : e.timedOut = false) (buf : Mem) :
    commonPopenReturnResult (some cmd) false buf resultLen e =
      endHandle e (buf.write 0 (e.fread resultLen.toNat)) [] (e.fread resultLen.toNat).length := by
  have hlen : ¬ resultLen ≤ 0 := by omega
  simp [commonPopenReturnResult, hlen, hpopen, hsetfl, hselect, htime]

/-- On the other paths from `popen` on the buffer is left alone. -/
theorem run_of_failure (cmd : String) (hpos : 0 < resultLen) (hpopen : e.popen = true)
    (hfail : e.setfl = false ∨ e.select = false ∨ e.timedOut = true) (buf : Mem) :
    ∃ messages, commonPopenReturnResult (some cmd) false buf resultLen e = endHandle e buf messages 0 := by
  have hlen : ¬ resultLen ≤ 0 := by omega
  unfold commonPopenReturnResult
  dsimp only
  rw [if_neg (by simp [hlen]), if_neg (by simp [hpopen])]
  split
  · exact ⟨_, rfl⟩
  · split
    · exact ⟨_, rfl⟩
    · next hsetfl hselect =>
        have htime : e.timedOut = true := by
          rcases hfail with h | h | h
          · exact absurd h hsetfl
          · exact absurd h hselect
          · exact h
        rw [if_pos htime]
        exact ⟨_, rfl⟩

/-- Once the command runs, the result of `pclose` is the result of the call. -/
theorem ret_of_popen (cmd : String) (hpos : 0 < resultLen) (hpopen : e.popen = true) (buf : Mem) :
    (commonPopenReturnResult (some cmd) false buf resultLen e).ret = if e.pclose then 0 else -1 := by
  by_cases hfail : e.setfl = false ∨ e.select = false ∨ e.timedOut = true
  · obtain ⟨messages, hrun⟩ := run_of_failure cmd hpos hpopen hfail buf
    rw [hrun, endHandle]
  · simp only [not_or, Bool.not_eq_false, Bool.not_eq_true] at hfail
    obtain ⟨hsetfl, hselect, htime⟩ := hfail
    rw [run_of_read hpos hpopen hsetfl hselect htime, endHandle]

/-- A buffer that shows that a byte has not been written. -/
def unlike (bytes : List UInt8) : Mem := fun i => Mem.ofList bytes i + 1

theorem add_one_ne_self (b : UInt8) : b + 1 ≠ b := by
  intro heq
  have hnat := congrArg UInt8.toNat heq
  have hlt := b.toNat_lt
  rw [UInt8.toNat_add, UInt8.toNat_one] at hnat
  omega

/-- Whatever the buffer held, it begins with the output, just when enough has been stored. -/
theorem slice_write_take_iff {bytes output : List UInt8} {need : Nat}
    (hbytes : bytes = output.take bytes.length) :
    (∀ buf : Mem, (buf.write 0 bytes).slice 0 need = output.take need) ↔ need ≤ bytes.length := by
  constructor
  · intro h
    by_contra hshort
    have hlt : bytes.length < need := Nat.lt_of_not_le hshort
    have hbyte := congrArg (fun bs => bs.getD bytes.length 0) (h (unlike output))
    have hold : ((unlike output).write 0 bytes) bytes.length = unlike output bytes.length :=
      Mem.write_of_ge (by omega)
    have hnew : (output.take need).getD bytes.length 0 = Mem.ofList output bytes.length := by
      simp only [Mem.ofList, List.getD, List.getElem?_take_of_lt hlt]
    simp only [Mem.getD_slice hlt, Nat.zero_add, hold, hnew, unlike] at hbyte
    exact add_one_ne_self _ hbyte
  · intro hle buf
    rw [← Mem.take_slice _ _ hle, Mem.slice_write_self]
    conv_lhs => rw [hbytes, List.take_take, Nat.min_eq_left hle]

theorem promise_of_ready (hready : e.Ready resultLen) (hpos : 0 < resultLen) (hpopen : e.popen = true)
    (buf : Mem) : Promise resultLen e (commonPopenReturnResult (some cmd) false buf resultLen e) := by
  obtain ⟨hsetfl, hselect, htime, hsteady⟩ := hready
  rw [run_of_read hpos hpopen hsetfl hselect htime]
  have hle := need_le_length_fread.mpr hsteady
  obtain ⟨htake, _⟩ := fread_eq_take e resultLen.toNat
  refine ⟨fun _ => (slice_write_take_iff htake).mpr hle buf, ?_, fun _ hout => ?_⟩
  · rintro (h | h | h)
    · exact absurd hsetfl (by simp [h])
    · exact absurd hselect (by simp [h])
    · exact absurd htime (by simp [h])
  · have hlen := List.length_pos_iff.mpr hout
    have hneed : 0 < e.need resultLen := by
      unfold Env.need
      omega
    change (e.fread resultLen.toNat).length ≠ 0
    omega

theorem ready_of_promise (hpos : 0 < resultLen) (hpopen : e.popen = true) (hpclose : e.pclose = true)
    (h : ∀ buf, Promise resultLen e (commonPopenReturnResult (some cmd) false buf resultLen e)) :
    e.Ready resultLen := by
  by_cases hfail : e.setfl = false ∨ e.select = false ∨ e.timedOut = true
  · have hret := (h fun _ => 0).failed hfail
    rw [ret_of_popen cmd hpos hpopen, hpclose] at hret
    cases hret
  · simp only [not_or, Bool.not_eq_false, Bool.not_eq_true] at hfail
    obtain ⟨hsetfl, hselect, htime⟩ := hfail
    refine ⟨hsetfl, hselect, htime, need_le_length_fread.mp ?_⟩
    obtain ⟨htake, _⟩ := fread_eq_take e resultLen.toNat
    refine (slice_write_take_iff htake).mp fun buf => ?_
    have hbegin := (h buf).isPrefix (by rw [ret_of_popen cmd hpos hpopen, hpclose]; rfl)
    rw [run_of_read hpos hpopen hsetfl hselect htime] at hbegin
    exact hbegin

/-- For every command and every way in which its output arrives: the caller may rely on the
result, whatever the buffer held, if and only if the call cannot start, `pclose` fails, or
everything in between succeeds and `fread` never finds the pipe empty too early. -/
theorem promise_iff_ready (cmd : String) (resultLen : Int) (e : Env) :
    (∀ buf, Promise resultLen e (commonPopenReturnResult (some cmd) false buf resultLen e)) ↔
      resultLen ≤ 0 ∨ e.popen = false ∨ e.pclose = false ∨ e.Ready resultLen := by
  constructor
  · intro h
    by_contra hnot
    simp only [not_or, Bool.not_eq_false, Int.not_le] at hnot
    obtain ⟨hpos, hpopen, hpclose, hready⟩ := hnot
    exact hready (ready_of_promise hpos hpopen hpclose h)
  · intro h buf
    by_cases hpos : resultLen ≤ 0
    · exact promise_of_error (by simp [commonPopenReturnResult, hpos])
    · cases hpopen : e.popen with
      | false => exact promise_of_error (by simp [commonPopenReturnResult, hpos, hpopen])
      | true =>
          simp only [hpos, hpopen, Bool.true_eq_false, false_or] at h
          rcases h with hpclose | hready
          · exact promise_of_error (by rw [ret_of_popen cmd (by omega) hpopen, hpclose]; rfl)
          · exact promise_of_ready hready (by omega) hpopen buf

/-- `a` at once and `b` a second later, read at once. -/
def twoChunks : Env where
  popen := true
  setfl := true
  select := true
  delivery :=
    { chunks := [(0, [97]), (1, [98])], eof := 1, sorted := by decide, nonempty := by decide }
  clock := fun _ => 0
  mono := monotone_const
  ready_le := le_refl _
  pclose := true

/-- The second call of `read` finds nothing new. -/
theorem fread_twoChunks : twoChunks.fread 2 = [97] := by
  have hseen : ∀ k, seen twoChunks.delivery twoChunks.clock (k + 1) = 1 := by
    intro k
    change (twoChunks.delivery.arrived 0).length = 1
    decide
  have hone : 1 ≤ (twoChunks.fread 2).length := by
    refine (le_length_readUpTo_zero twoChunks.mono (by decide)).mpr fun k hk => ?_
    cases k with
    | zero => exact (hseen 0).symm ▸ hk
    | succ k => simp [hseen k] at hk
  have htwo : ¬ 2 ≤ (twoChunks.fread 2).length := by
    intro h
    have hmore := (le_length_readUpTo_zero twoChunks.mono (by decide)).mp h 1 (by simp [hseen 0])
    simp [hseen 0, hseen 1] at hmore
  have hlen : (twoChunks.fread 2).length = 1 := by omega
  rw [(fread_eq_take twoChunks 2).1, hlen]
  rfl

/-- Zero is returned for `ab` with `a` in the buffer. -/
theorem twoChunks_cut :
    (commonPopenReturnResult (some "cmd") false (fun _ => 0) 2 twoChunks).ret = 0 ∧
      (commonPopenReturnResult (some "cmd") false (fun _ => 0) 2 twoChunks).result.slice 0 2 = [97, 0] ∧
      twoChunks.output = [97, 98] ∧
      ¬ Promise 2 twoChunks (commonPopenReturnResult (some "cmd") false (fun _ => 0) 2 twoChunks) := by
  have hrun : commonPopenReturnResult (some "cmd") false (fun _ => 0) 2 twoChunks =
      endHandle twoChunks (Mem.write (fun _ => 0) 0 [97]) [] 1 := by
    have htwo : Int.toNat 2 = 2 := rfl
    rw [run_of_read (by decide) rfl rfl rfl (by decide), htwo, fread_twoChunks]
    rfl
  have hslice : (Mem.write (fun _ => 0) 0 [97]).slice 0 2 = [97, 0] := by decide
  rw [hrun]
  refine ⟨rfl, hslice, rfl, fun h => ?_⟩
  have hbegin := h.isPrefix rfl
  change (Mem.write (fun _ => 0) 0 [97]).slice 0 2 = [97, 98] at hbegin
  rw [hslice] at hbegin
  exact absurd hbegin (by decide)

end Tools
