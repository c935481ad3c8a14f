-- SUMMARY: The actuator driver (hw_control.c): when one of its four pins is driven high without having been asked for.
import LinuxShare.Gpio.Port
import LinuxShare.Lib.UserCopy
import Mathlib.Data.List.Induction

/-!
# Fan, heater, pump and lamp

A high level on GPF3 to GPF6 switches the hardware on. The latch of a pin survives the
close that makes the pin an input, and the next open makes it an output again before it
lowers the latch. A write sets the pins whether or not there was anything to copy.
-/

namespace Gpio

namespace HwControl

open Bytes UserCopy

def low : Bool := false

def high : Bool := true

/-- `for(i=3;i<7;i++)` -/
def pins : List Nat := List.range' 3 4

def hwControlOpen : List Access := pins.flatMap fun i => [.cfgpin i .output, .setpin i low]

/-- Pin `i` gets byte `i - 3`, which is the `j` of the loop. -/
def hwControlWrite (dataBuf : Mem) : List Access :=
  pins.map fun i => .setpin i (if dataBuf (i - 3) ≠ 0 then high else low)

/-- `for(i=2;i<8;i++)` -/
def hwControlClose : List Access := (List.range' 2 6).map fun i => .cfgpin i .input

/-- A call of one of the three functions. The user's bytes are `buf`; `copy_from_user`
does not copy the last `left` of four, and has `rest` in their place. -/
inductive Call where
  | opening
  | write (size : Nat) (buf rest : Mem) (left : Nat)
  | close

namespace Call

/-- The register accesses, in order. -/
def accesses : Call → List Access
  | opening => hwControlOpen
  | write _ buf rest left => hwControlWrite (copyFromUser 4 buf rest left)
  | close => hwControlClose

/-- A write whose copy fails, or that is too short. -/
def Fails : Call → Prop
  | write size _ _ left => left ≠ 0 ∨ size < 4
  | _ => False

instance : DecidablePred Fails
  | opening => inferInstanceAs (Decidable False)
  | write _ _ _ _ => inferInstanceAs (Decidable (_ ∨ _))
  | close => inferInstanceAs (Decidable False)

/-- What the call asks for pin `i`, if it says anything: an open withdraws what was asked
before, and a successful write asks for the pins with a nonzero byte. -/
def asks (i : Nat) : Call → Option Bool
  | opening => some false
  | write size buf _ left => if left ≠ 0 ∨ size < 4 then none else some (decide (buf (i - 3) ≠ 0))
  | close => none

/-- The call counts for pin `i` after its first `n` accesses: an open from its start, any
other call once it has accessed the pin. -/
def CountsFor (i n : Nat) (c : Call) : Prop := c = opening ∨ ∃ a ∈ c.accesses.take n, a.pin = i

end Call

/-- The last call that says anything about pin `i` has asked for it. -/
def Asked (i : Nat) (cs : List Call) : Prop := (cs.filterMap (Call.asks i)).getLast? = some true

/-- The port after the calls `pre` and the first `n` accesses of `c`. -/
def portAt (p : Port) (pre : List Call) (c : Call) (n : Nat) : Port :=
  execAll (execAll p (pre.flatMap Call.accesses)) (c.accesses.take n)

/-- The most recent call that says anything about pin `i` has asked for it, when `n`
accesses of `c` have been made. -/
def Supplied (pre : List Call) (c : Call) (n i : Nat) : Prop :=
  (c.CountsFor i n → Asked i (pre ++ [c])) ∧ (¬ c.CountsFor i n → Asked i pre)

/-- In every state of the run a pin is driven high only if it has been asked for, and a
write that fails changes nothing. -/
structure Safe (p : Port) (cs : List Call) : Prop where
  start : ∀ i ∈ pins, ¬ (p i).High
  driven : ∀ pre c post, cs = pre ++ c :: post → ∀ n, 0 < n → ∀ i ∈ pins,
    (portAt p pre c n i).High → Supplied pre c n i
  kept : ∀ pre c post, cs = pre ++ c :: post → c.Fails → ∀ n, portAt p pre c n = portAt p pre c 0

/-- An open finds the latches low; a write that fails finds them as it sets them. -/
def Call.Finds (p : Port) : Call → Prop
  | opening => ∀ i ∈ pins, (p i).latch = false
  | write size buf rest left => left ≠ 0 ∨ size < 4 →
    ∀ i ∈ pins, (p i).latch = decide (copyFromUser 4 buf rest left (i - 3) ≠ 0)
  | close => True

/-- No pin is driven high at the start, and every call finds the latches as it should. -/
structure Lowered (p : Port) (cs : List Call) : Prop where
  start : ∀ i ∈ pins, ¬ (p i).High
  finds : ∀ pre c post, cs = pre ++ c :: post → c.Finds (portAt p pre c 0)

/-! ## What has been asked for -/

variable {p : Port} {cs pre : List Call} {c : Call} {i n : Nat}

theorem asked_snoc :
    Asked i (cs ++ [c]) ↔ c.asks i = some true ∨ c.asks i = none ∧ Asked i cs := by
  unfold Asked
  rw [List.filterMap_append]
  cases h : c.asks i with
  | none => simp [h]
  | some b => simp [h]

theorem not_asked_opening : ¬ Asked i (cs ++ [.opening]) := by
  simp [asked_snoc, Call.asks]

/-- A run of the loop of `hw_control_write`, up to some access. -/
theorem execAll_take_write (q : Port) (dataBuf : Mem) (n i : Nat) :
    execAll q ((hwControlWrite dataBuf).take n) i =
      if i ∈ pins.take n then { q i with latch := decide (dataBuf (i - 3) ≠ 0) } else q i := by
  rw [hwControlWrite, ← List.map_take, execAll_setpins]
  simp [high, low]

theorem countsFor_write {size left : Nat} {buf rest : Mem} :
    (Call.write size buf rest left).CountsFor i n ↔ i ∈ pins.take n := by
  rw [Call.CountsFor, Call.accesses, hwControlWrite, ← List.map_take]
  simp only [reduceCtorEq, false_or, List.mem_map, exists_exists_and_eq_and, Access.pin,
    exists_eq_right]

/-- An open lowers no latch before it makes the pin an output. -/
theorem open_high (q : Port) (hi : i ∈ pins) (hlatch : (q i).latch = true) :
    ∃ n, 0 < n ∧ (execAll q (hwControlOpen.take n) i).High := by
  have hcases : i = 3 ∨ i = 4 ∨ i = 5 ∨ i = 6 := by simpa [pins, List.range'] using hi
  refine ⟨2 * (i - 3) + 1, by omega, ?_⟩
  rcases hcases with rfl | rfl | rfl | rfl <;>
    simp [hwControlOpen, pins, List.range', Pin.High, hlatch]

/-- With low latches an open drives nothing. -/
theorem not_high_open {q : Port} (hlatch : (q i).latch = false) (n : Nat) :
    ¬ (execAll q (hwControlOpen.take n) i).High := by
  have hset : .setpin i true ∉ hwControlOpen.take n := fun hmem => by
    simpa [hwControlOpen, low] using List.mem_of_mem_take hmem
  simp [Pin.High, latch_execAll_of_low hlatch hset]

/-- A close drives nothing that has not been driven before. -/
theorem high_of_close {q : Port} (h : (execAll q (hwControlClose.take n) i).High) : (q i).High := by
  rw [hwControlClose, ← List.map_take, execAll_cfgpins] at h
  split at h
  · exact absurd h.1 (by simp)
  · exact h

/-! ## One call -/

/-- When a call finds the latches as it should, it keeps the port in line with what has
been asked for, in all of its states. -/
theorem supplied_of_finds (hi : i ∈ pins) (hfinds : c.Finds (portAt p pre c 0))
    (hpre : (portAt p pre c 0 i).High → Asked i pre) (n : Nat) (hhigh : (portAt p pre c n i).High) :
    Supplied pre c n i := by
  cases c with
  | opening => exact absurd hhigh (not_high_open (hfinds i hi) n)
  | close =>
      have hasked : Asked i pre := hpre (high_of_close hhigh)
      exact ⟨fun _ => asked_snoc.mpr (.inr ⟨rfl, hasked⟩), fun _ => hasked⟩
  | write size buf rest left =>
      rw [portAt, Call.accesses, execAll_take_write] at hhigh
      rw [Supplied, countsFor_write, asked_snoc, Call.asks]
      split at hhigh
      · next hmem =>
          have hbyte : decide (copyFromUser 4 buf rest left (i - 3) ≠ 0) = true := hhigh.2
          refine ⟨fun _ => ?_, fun hnot => absurd hmem hnot⟩
          by_cases hfails : left ≠ 0 ∨ size < 4
          · rw [if_pos hfails]
            have hlatch := hfinds hfails i hi
            refine .inr ⟨rfl, hpre ⟨hhigh.1, hlatch.trans hbyte⟩⟩
          · have hleft : left = 0 := not_not.mp fun hne => hfails (.inl hne)
            have hlt : i - 3 < 4 := by
              have hrange := (List.mem_range'_1.mp hi).2
              omega
            rw [hleft, copyFromUser_zero hlt] at hbyte
            rw [if_neg hfails, hbyte]
            exact .inl rfl
      · next hmem => exact ⟨fun hin => absurd hin hmem, fun _ => hpre hhigh⟩

/-- A write that fails and finds the latches as it sets them changes nothing. -/
theorem kept_of_finds {q : Port} {size left : Nat} {buf rest : Mem}
    (hfails : left ≠ 0 ∨ size < 4) (hfinds : (Call.write size buf rest left).Finds q) (n : Nat) :
    execAll q ((hwControlWrite (copyFromUser 4 buf rest left)).take n) = q := by
  funext i
  rw [execAll_take_write]
  split
  · next hmem => rw [← hfinds hfails i (List.mem_of_mem_take hmem)]
  · rfl

/-! ## Runs -/

/-- A whole call counts for each of the four pins. -/
theorem countsFor_all (c : Call) (hi : i ∈ pins) : c.CountsFor i c.accesses.length := by
  cases c with
  | opening => exact .inl rfl
  | write size buf rest left =>
      rw [countsFor_write, List.take_of_length_le (by simp [Call.accesses, hwControlWrite])]
      exact hi
  | close =>
      have hrange := List.mem_range'_1.mp hi
      refine .inr ⟨.cfgpin i .input, ?_, rfl⟩
      rw [List.take_length]
      exact List.mem_map_of_mem (List.mem_range'_1.mpr (by omega))

theorem portAt_length :
    portAt p pre c c.accesses.length = execAll p ((pre ++ [c]).flatMap Call.accesses) := by
  rw [portAt, List.take_length, ← execAll_append]
  simp

/-- All along a run in which every call finds the latches as it should, a pin that is
driven high has been asked for. -/
theorem Lowered.asked (h : Lowered p cs) (hi : i ∈ pins) (hpre : pre <+: cs)
    (hhigh : (execAll p (pre.flatMap Call.accesses) i).High) : Asked i pre := by
  induction pre using List.reverseRecOn with
  | nil => exact absurd hhigh (h.start i hi)
  | append_singleton pre c ih =>
      obtain ⟨post, hpost⟩ := hpre
      have hsplit : cs = pre ++ c :: post := by simpa using hpost.symm
      rw [← portAt_length] at hhigh
      have hsupplied := supplied_of_finds hi (h.finds pre c post hsplit)
        (ih ⟨c :: post, hsplit.symm⟩) _ hhigh
      exact hsupplied.1 (countsFor_all c hi)

/-- Every state of every run is safe if and only if no pin is driven high at the start
and every call finds the latches as it should. -/
theorem safe_iff_lowered (p : Port) (cs : List Call) : Safe p cs ↔ Lowered p cs := by
  constructor
  · intro h
    refine ⟨h.start, fun pre c post hsplit => ?_⟩
    cases c with
    | close => trivial
    | opening =>
        intro i hi
        by_contra hlatch
        obtain ⟨n, hn, hhigh⟩ := open_high _ hi (eq_true_of_ne_false hlatch)
        exact not_asked_opening ((h.driven pre .opening post hsplit n hn i hi hhigh).1 (.inl rfl))
    | write size buf rest left =>
        intro hfails i hi
        have hkept := congrFun (h.kept pre _ post hsplit hfails 4) i
        rw [portAt, Call.accesses, execAll_take_write, if_pos (by simpa [pins] using hi)] at hkept
        rw [← hkept]
  · intro h
    refine ⟨h.start, fun pre c post hsplit n _ i hi hhigh => ?_, fun pre c post hsplit hfails n => ?_⟩
    · exact supplied_of_finds hi (h.finds pre c post hsplit)
        (fun h₀ => h.asked hi ⟨c :: post, hsplit.symm⟩ h₀) n hhigh
    · cases c with
      | opening => exact absurd hfails not_false
      | close => exact absurd hfails not_false
      | write size buf rest left => exact kept_of_finds hfails (h.finds pre _ post hsplit) n

/-- All pins are inputs, and all latches low. -/
def quiet : Port := fun _ => { func := .input, latch := false }

/-- The heater on GPF3 is switched on. -/
def heaterOn : Call := .write 4 (Mem.ofList [1]) (fun _ => 0) 0

/-- The same write, and nothing can be copied. -/
def heaterLost : Call := .write 4 (Mem.ofList [1]) (fun _ => 0) 4

/-- The heater is on again as soon as the device is opened for the second time, and a
write of which nothing can be copied switches it off. -/
theorem heater_unasked :
    ((portAt quiet [.opening, heaterOn, .close] .opening 1 3).High ∧
      ¬ Safe quiet [.opening, heaterOn, .close, .opening]) ∧
    ((portAt quiet [.opening, heaterOn] heaterLost 0 3).High ∧
      ¬ (portAt quiet [.opening, heaterOn] heaterLost 4 3).High ∧
      ¬ Safe quiet [.opening, heaterOn, heaterLost]) := by
  have hopen : (portAt quiet [.opening, heaterOn, .close] .opening 1 3).High := by decide
  have hbefore : (portAt quiet [.opening, heaterOn] heaterLost 0 3).High := by decide
  have hafter : ¬ (portAt quiet [.opening, heaterOn] heaterLost 4 3).High := by decide
  have hfails : heaterLost.Fails := by decide
  refine ⟨⟨hopen, fun h => ?_⟩, hbefore, hafter, fun h => ?_⟩
  · have hsupplied := h.driven [.opening, heaterOn, .close] .opening [] rfl 1 Nat.one_pos 3 (by decide)
      hopen
    exact not_asked_opening (hsupplied.1 (.inl rfl))
  · rw [h.kept [.opening, heaterOn] heaterLost [] rfl hfails 4] at hafter
    exact hafter hbefore

end HwControl

end Gpio
