-- SUMMARY: The humidity sensor (am2305.c, am2305_test.c): from the bits on the wire to the numbers printed.
import LinuxShare.Lib.CInt
import LinuxShare.Lib.Machine
import LinuxShare.Lib.Serial
import LinuxShare.Lib.UserCopy

/-!
# Temperature and humidity

The sensor sends five bytes, high bit first: humidity, temperature and the sum of
these four as a checksum. The driver hands them to the user as they are, and the
test program prints whatever its buffer holds.
-/

namespace Sensor

namespace Am2305

open Bytes CInt Machine Serial UserCopy

/-! ## The driver -/

/-- The bits of a frame in the order in which the sensor sends them. -/
def wire (frame : Mem) : Nat → Bool := fun i => bit (frame (i / 8)) (7 - i % 8)

/-- `bits` are the levels 30 microseconds after each rising edge. -/
def readSensorData (bits : Nat → Bool) (measureCnt : Nat) : UInt8 :=
  receive pushLow (fun i => bits (8 * measureCnt + i)) 8

/-- The sensor may not answer; then there are no bits. `left` is what `copy_to_user` returns,
a value that fits in a `char` of either kind. The size is not looked at. -/
def am2305Read (_size : Nat) (bits : Option (Nat → Bool)) (left : Fin 6) : Answer :=
  match bits with
  | some bits => { ret := left, data := copyToUser ((List.range 5).map (readSensorData bits)) left }
  | none => { ret := -1, data := [] }

/-- The loop receives the byte that was sent. -/
theorem readSensorData_wire (frame : Mem) (k : Nat) : readSensorData (wire frame) k = frame k := by
  refine Eq.trans (receive_congr fun i hi => ?_) (receive_high_eight (frame k))
  have hdiv : (8 * k + i) / 8 = k := by omega
  have hmod : (8 * k + i) % 8 = i := by omega
  rw [wire, hdiv, hmod]

/-- A copy that is complete delivers the frame. -/
theorem am2305Read_wire (frame : Mem) {i : Nat} (h : i < 5) :
    (am2305Read 5 (some (wire frame)) 0).data.getD i 0 = frame i := by
  simp only [am2305Read, Fin.val_zero, copyToUser_zero]
  simp [List.getD, h, readSensorData_wire]

/-! ## The test program -/

/-- The arguments of the `printf`. -/
structure Reading where
  tempBig : Int
  tempLittle : Int
  humBig : Int
  humLittle : Int
  deriving DecidableEq

/-- `h * 256 + l`, assigned to an `unsigned`. -/
def combine (signed : Bool) (h l : UInt8) : Int :=
  toUnsigned (ofChar signed h * 256 + ofChar signed l)

/-- A number of tenths in its two parts. -/
def reading (hum temp : Int) : Reading where
  tempBig := temp / 10
  tempLittle := temp % 10
  humBig := hum / 10
  humLittle := hum % 10

/-- One pass of the loop: what the sensor and the copy do, and what is typed. -/
structure Round where
  frame : Option Mem
  left : Fin 6
  typed : List UInt8

/-- The first character that ends the loop around `getchar`: `n`, `q` or `t`. -/
def Round.key (r : Round) : Option UInt8 := r.typed.find? fun ch => ch = 110 ∨ ch = 113 ∨ ch = 116

/-- `main` in its loop, with `buf`. -/
structure Test where
  buf : Mem
  running : Bool

/-- The result of `read` is not looked at. Without one of the three characters the program
never gets out of the loop around `getchar`. -/
def pass (signed : Bool) (r : Round) (s : Test) : Test × List Reading :=
  if s.running then
    let buf := s.buf.write 0 (am2305Read 5 (r.frame.map wire) r.left).data
    let hum := combine signed (buf 0) (buf 1)
    let temp := combine signed (buf 2) (buf 3)
    match r.key with
    | none => ({ buf, running := false }, [])
    | some ch => ({ buf, running := ch ≠ 113 }, if ch = 110 then [reading hum temp] else [])
  else
    (s, [])

/-! ## What may be printed -/

/-- The checksum is the sum of the other four bytes. -/
def ChecksumOk (frame : Mem) : Prop :=
  ((frame 0).toNat + (frame 1).toNat + (frame 2).toNat + (frame 3).toNat) % 256 = (frame 4).toNat

instance : DecidablePred ChecksumOk := fun _ => inferInstanceAs (Decidable (_ = _))

/-- The read succeeds with a frame that is not corrupted. -/
def Round.Good (r : Round) (frame : Mem) : Prop :=
  r.frame = some frame ∧ r.left = 0 ∧ ChecksumOk frame

/-- What the sensor has measured. -/
def measured (frame : Mem) : Reading :=
  reading (256 * (frame 0).toNat + (frame 1).toNat) (256 * (frame 2).toNat + (frame 3).toNat)

/-- On `n` the program prints what has been measured in this pass, and nothing if that
cannot be known; otherwise it prints nothing. -/
def Honest (signed : Bool) (r : Round) (s : Test) : Prop :=
  (s.running = true → r.key = some 110 →
    (∀ frame, r.Good frame → (pass signed r s).2 = [measured frame]) ∧
    ((∀ frame, ¬ r.Good frame) → (pass signed r s).2 = [])) ∧
  (¬ (s.running = true ∧ r.key = some 110) → (pass signed r s).2 = [])

/-- On `n` the read has succeeded with a good frame, in which, where `char` is signed, no
byte of a measurement is 128 or above. -/
def Readable (signed : Bool) (r : Round) (s : Test) : Prop :=
  s.running = true → r.key = some 110 →
    ∃ frame, r.Good frame ∧ (signed = true → ∀ i < 4, (frame i).toNat < 128)

variable {signed : Bool} {r : Round} {s : Test}

theorem reading_inj {hum temp hum' temp' : Int} :
    reading hum temp = reading hum' temp' ↔ hum = hum' ∧ temp = temp' := by
  constructor
  · intro h
    simp only [reading, Reading.mk.injEq] at h
    omega
  · rintro ⟨rfl, rfl⟩
    rfl

/-- The two bytes make up the value unless one of them is taken for a negative number. -/
theorem combine_eq_iff {h l : UInt8} :
    combine signed h l = 256 * h.toNat + l.toNat ↔
      (signed = true → h.toNat < 128 ∧ l.toNat < 128) := by
  have hh := h.toNat_lt
  have hl := l.toNat_lt
  cases signed with
  | false => simp only [combine, ofChar, toUnsigned]; grind
  | true => simp only [combine, ofChar, toUnsigned]; grind

/-- The buffer of a pass in which everything has been copied. -/
theorem write_am2305Read (buf frame : Mem) {i : Nat} (h : i < 5) :
    buf.write 0 (am2305Read 5 (some (wire frame)) 0).data i = frame i := by
  rw [Mem.write_of_mem (Nat.zero_le i) (by simpa [am2305Read] using h), Nat.sub_zero,
    am2305Read_wire frame h]

/-- On `n` there is always one reading. -/
theorem pass_press (signed : Bool) (hrun : s.running = true) (hkey : r.key = some 110) :
    ∃ out, (pass signed r s).2 = [out] := by
  simp only [pass, hrun, hkey, if_true]
  exact ⟨_, rfl⟩

/-- Without `n` there is none. -/
theorem pass_quiet (h : ¬ (s.running = true ∧ r.key = some 110)) : (pass signed r s).2 = [] := by
  rw [pass]
  split
  · next hrun =>
      cases hkey : r.key with
      | none => rfl
      | some ch =>
          have hch : ch ≠ 110 := fun heq => h ⟨hrun, by rw [hkey, heq]⟩
          exact if_neg hch
  · rfl

/-- The reading of a good frame. -/
theorem pass_good {frame : Mem} (hrun : s.running = true) (hkey : r.key = some 110)
    (hgood : r.Good frame) :
    (pass signed r s).2 =
      [reading (combine signed (frame 0) (frame 1)) (combine signed (frame 2) (frame 3))] := by
  obtain ⟨hframe, hleft, -⟩ := hgood
  simp only [pass, hrun, hkey, hframe, hleft, if_true, Option.map_some]
  rw [write_am2305Read _ _ (by decide), write_am2305Read _ _ (by decide),
    write_am2305Read _ _ (by decide), write_am2305Read _ _ (by decide)]

theorem pass_measured_iff {frame : Mem} (hrun : s.running = true) (hkey : r.key = some 110)
    (hgood : r.Good frame) :
    (pass signed r s).2 = [measured frame] ↔
      (signed = true → ∀ i < 4, (frame i).toNat < 128) := by
  rw [pass_good hrun hkey hgood, measured, List.singleton_inj, reading_inj, combine_eq_iff,
    combine_eq_iff]
  constructor
  · intro h hsigned i hi
    have h₀ := h.1 hsigned
    have h₁ := h.2 hsigned
    have hcases : i = 0 ∨ i = 1 ∨ i = 2 ∨ i = 3 := by omega
    rcases hcases with rfl | rfl | rfl | rfl
    exacts [h₀.1, h₀.2, h₁.1, h₁.2]
  · intro h
    exact ⟨fun hsigned => ⟨h hsigned 0 (by decide), h hsigned 1 (by decide)⟩,
      fun hsigned => ⟨h hsigned 2 (by decide), h hsigned 3 (by decide)⟩⟩

/-- One pass. -/
theorem honest_iff_readable : Honest signed r s ↔ Readable signed r s := by
  constructor
  · intro h hrun hkey
    obtain ⟨hprint, hnothing⟩ := h.1 hrun hkey
    by_cases hgood : ∃ frame, r.Good frame
    · obtain ⟨frame, hgood⟩ := hgood
      exact ⟨frame, hgood, (pass_measured_iff hrun hkey hgood).mp (hprint frame hgood)⟩
    · obtain ⟨out, hout⟩ := pass_press signed hrun hkey
      rw [hnothing fun frame hframe => hgood ⟨frame, hframe⟩] at hout
      cases hout
  · intro h
    refine ⟨fun hrun hkey => ?_, pass_quiet⟩
    obtain ⟨frame, hgood, hbytes⟩ := h hrun hkey
    refine ⟨fun frame' hgood' => ?_, fun hnone => absurd hgood (hnone frame)⟩
    have hsame : frame' = frame := Option.some.inj (hgood'.1.symm.trans hgood.1)
    subst hsame
    exact (pass_measured_iff hrun hkey hgood').mpr hbytes

/-- A run of the program prints what has been measured, and nothing else, if and only if
every read before an `n` succeeds with a good frame that `char` can hold. -/
theorem honest_iff_reads (signed : Bool) (s : Test) (rs : List Round) :
    Along (pass signed) (Honest signed) s rs ↔ Along (pass signed) (Readable signed) s rs :=
  along_congr (I := fun _ => True) (fun _ _ _ => trivial) (fun _ _ _ => honest_iff_readable) trivial

/-- The loop is reached with nothing in `buf`. -/
def atLoop : Test := { buf := fun _ => 0, running := true }

/-- `n` after a frame whose checksum is wrong. -/
def corrupted : Round where
  frame := some (Mem.ofList [0, 0, 0, 0, 1])
  left := 0
  typed := [110]

/-- `n` after a good frame: 65.2 % and 35.1 degrees. -/
def humid : Round where
  frame := some (Mem.ofList [2, 140, 1, 95, 238])
  left := 0
  typed := [110]

/-- The corrupted frame is printed, and a signed `char` shows 39.6 % for 65.2 %. -/
theorem corrupted_printed :
    ((pass false corrupted atLoop).2 = [⟨0, 0, 0, 0⟩] ∧
      ¬ Along (pass false) (Honest false) atLoop [corrupted]) ∧
    (pass true humid atLoop).2 = [⟨35, 1, 39, 6⟩] ∧
      ¬ Along (pass true) (Honest true) atLoop [humid] := by
  have hzero : (pass false corrupted atLoop).2 = [⟨0, 0, 0, 0⟩] := by decide
  have hhumid : (pass true humid atLoop).2 = [⟨35, 1, 39, 6⟩] := by decide
  refine ⟨⟨hzero, fun h => ?_⟩, hhumid, fun h => ?_⟩
  · have hbad : ∀ frame, ¬ corrupted.Good frame := by
      rintro frame ⟨hframe, -, hsum⟩
      cases hframe
      exact absurd hsum (by decide)
    have hnothing := (h.1.1 rfl rfl).2 hbad
    rw [hzero] at hnothing
    cases hnothing
  · have hprint := (h.1.1 rfl rfl).1 _ ⟨rfl, rfl, by decide⟩
    rw [hhumid] at hprint
    exact absurd hprint (by decide)

end Am2305

end Sensor
