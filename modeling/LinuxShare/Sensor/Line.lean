-- SUMMARY: The sensor driver at its line (am2305.c): on which samples a read comes back.
import LinuxShare.Lib.Polling
import LinuxShare.Sensor.Am2305

/-!
# Reading the line of the sensor

The driver waits for the edges of the line in loops that end with the edge and in no other
way. Only the wait after the last bit gives up, after one look.
-/

namespace Sensor

namespace Am2305

namespace Line

open Bytes Polling Poll Serial UserCopy

/-- `s3c2410_gpio_getpin(am_data)` -/
def getpin : Poll Bool := sample ret

def udelay (us : Nat) : Poll Unit := delay us (ret ())

def mdelay (ms : Nat) : Poll Unit := udelay (1000 * ms)

/-- `while (s3c2410_gpio_getpin(am_data) == level);` -/
def whileLevel (level : Bool) : Poll Unit := waitWhile level (ret ())

/-- The pin is driven low for the first delay and is an input from then on. -/
def am2305FindSuccess : Poll Bool := do
  mdelay 2
  udelay 30
  let tmpPin ← getpin
  return !tmpPin

/-- The wait for the end of a high level, in whose body the last bit has a `break`. -/
def whileHigh (measureCnt i : Nat) : Poll Unit :=
  if measureCnt = 4 ∧ i = 7 then getpin.bind fun _ => ret () else whileLevel true

/-- One pass of the loop in `read_SensorData`. -/
def readBit (measureCnt i : Nat) (buffer : UInt8) : Poll UInt8 := do
  whileLevel false
  udelay 30
  let tmp ← getpin
  whileHigh measureCnt i
  return pushLow buffer tmp

def readSensorData (measureCnt : Nat) : Poll UInt8 := loop (readBit measureCnt) 0 8

/-- The loop in `am2305_read`, with what is in `data_buf` so far. -/
def readFrame : Poll (List UInt8) :=
  loop (fun i dataBuf => do return dataBuf ++ [← readSensorData i]) [] 5

/-- What follows when the sensor has answered: its response, the frame and the copy. -/
def receive (left : Fin 6) : Poll Answer := do
  whileLevel false
  whileLevel true
  let dataBuf ← readFrame
  return { ret := left, data := copyToUser dataBuf left }

def am2305Read (left : Fin 6) : Poll Answer := do
  if ← am2305FindSuccess then receive left else return { ret := -1, data := [] }

variable {left : Fin 6} {s : Nat → Bool} {a : Answer}

/-- Nothing but the first sample decides whether the sensor has answered. -/
theorem am2305Read_eq (left : Fin 6) : am2305Read left =
    delay 2000 (delay 30 (sample fun tmpPin =>
      if tmpPin then ret { ret := -1, data := [] } else receive left)) := by
  simp only [am2305Read, am2305FindSuccess, mdelay, udelay, getpin, bind_eq, delay_bind, ret_bind,
    sample_bind, pure_eq]
  congr 3
  funext tmpPin
  cases tmpPin <;> rfl

theorem readBit_eq (measureCnt i : Nat) (buffer : UInt8) : readBit measureCnt i buffer =
    waitWhile false (delay 30 (sample fun tmp =>
      (whileHigh measureCnt i).bind fun _ => ret (pushLow buffer tmp))) := rfl

theorem receive_eq (left : Fin 6) : receive left =
    waitWhile false (waitWhile true (readFrame.bind fun dataBuf =>
      ret { ret := left, data := copyToUser dataBuf left })) := rfl

/-! ## What comes back -/

theorem yields_readFrame : Yields (fun dataBuf : List UInt8 => dataBuf.length = 5) readFrame := by
  refine Yields.loop (I := fun i (dataBuf : List UInt8) => dataBuf.length = i) rfl (fun i (dataBuf : List UInt8) hlen => ?_) 5
  refine (yields_true (readSensorData i)).bind fun b _ => .ret ?_
  rw [List.length_append, List.length_singleton, hlen]

/-- A frame and its copy. -/
def Copied (left : Fin 6) (a : Answer) : Prop :=
  ∃ dataBuf : List UInt8, dataBuf.length = 5 ∧ a = { ret := left, data := copyToUser dataBuf left }

theorem yields_receive (left : Fin 6) : Yields (Copied left) (receive left) := by
  rw [receive_eq]
  exact .waitWhile false (.waitWhile true (yields_readFrame.bind fun dataBuf hlen =>
    .ret ⟨dataBuf, hlen, rfl⟩))

theorem Copied.length_data (h : Copied left a) : a.data.length = 5 - left.val := by
  obtain ⟨dataBuf, hlen, rfl⟩ := h
  simp only [copyToUser, List.length_take, hlen]
  omega

theorem Copied.nonneg (h : Copied left a) : 0 ≤ a.ret := by
  obtain ⟨dataBuf, _, rfl⟩ := h
  exact Int.natCast_nonneg left.val

/-- The bytes of a frame, received from its bits. -/
theorem map_readSensorData_wire (frame : Mem) :
    (List.range 5).map (Am2305.readSensorData (wire frame)) = frame.slice 0 5 := by
  rw [List.map_congr_left fun k _ => readSensorData_wire frame k]
  rfl

/-- What the driver gives its caller is what it gives for some levels of the bits. -/
theorem exists_bits_of_returns (size : Nat) (h : (am2305Read left).Returns s a) :
    ∃ bits, a = Am2305.am2305Read size bits left := by
  rw [am2305Read_eq, returns_delay, returns_delay, returns_sample] at h
  split at h
  · exact ⟨none, (returns_ret.mp h).symm⟩
  · obtain ⟨dataBuf, hlen, rfl⟩ := (yields_receive left).of_returns h
    refine ⟨some (wire (Mem.ofList dataBuf)), ?_⟩
    rw [Am2305.am2305Read, map_readSensorData_wire, ← hlen, Mem.slice_ofList]

/-! ## On which samples -/

/-- The looks of one bit. -/
def bitPieces (measureCnt i : Nat) : List Piece :=
  [.reach true, .one, if measureCnt = 4 ∧ i = 7 then .one else .reach false]

/-- The looks of a read after the first one. -/
def readPieces : List Piece :=
  [.reach true, .reach false] ++
    (List.range 5).flatMap fun measureCnt => (List.range 8).flatMap (bitPieces measureCnt)

theorem shaped_whileHigh (measureCnt i : Nat) :
    Shaped (whileHigh measureCnt i) [if measureCnt = 4 ∧ i = 7 then .one else .reach false] := by
  unfold whileHigh
  split
  · exact .sample fun _ => .ret ()
  · exact .waitWhile true (.ret ())

theorem shaped_readBit (measureCnt i : Nat) (buffer : UInt8) :
    Shaped (readBit measureCnt i buffer) (bitPieces measureCnt i) := by
  rw [readBit_eq]
  exact .waitWhile false (.delay 30 (.sample fun tmp =>
    (shaped_whileHigh measureCnt i).bind fun _ => .ret (pushLow buffer tmp)))

theorem shaped_readSensorData (measureCnt : Nat) :
    Shaped (readSensorData measureCnt) ((List.range 8).flatMap (bitPieces measureCnt)) :=
  Shaped.loop (fun i buffer => shaped_readBit measureCnt i buffer) 0 8

theorem shaped_readFrame :
    Shaped readFrame ((List.range 5).flatMap fun i => (List.range 8).flatMap (bitPieces i)) := by
  refine Shaped.loop (fun i dataBuf => ?_) [] 5
  rw [← List.append_nil ((List.range 8).flatMap (bitPieces i))]
  exact (shaped_readSensorData i).bind fun b => .ret (dataBuf ++ [b])

theorem shaped_receive (left : Fin 6) : Shaped (receive left) readPieces := by
  rw [receive_eq]
  refine .waitWhile false (.waitWhile true ?_)
  rw [← List.append_nil ((List.range 5).flatMap _)]
  exact shaped_readFrame.bind fun dataBuf => .ret _

/-- The call has delivered five bytes, or says that it has failed. -/
def Settled (a : Answer) : Prop := a.data.length = 5 ∨ a.ret < 0

/-- For every sequence of samples: the read comes back after finitely many of them, with five
bytes or an error, if and only if the sensor does not answer, or the copy is complete and the
edges that are waited for come. -/
theorem settles_iff_occur (left : Fin 6) (s : Nat → Bool) :
    (∃ a, (am2305Read left).Returns s a ∧ Settled a) ↔
      s 0 = true ∨ (left = 0 ∧ Occur readPieces (rest 1 s)) := by
  simp only [am2305Read_eq, returns_delay, returns_sample]
  cases s 0 with
  | true => exact iff_of_true ⟨_, returns_ret.mpr rfl, .inr (by decide)⟩ (.inl rfl)
  | false =>
      simp only [Bool.false_eq_true, if_false, false_or]
      rw [← (shaped_receive left).returns_iff]
      constructor
      · rintro ⟨a, hret, hsettled⟩
        have hcopied := (yields_receive left).of_returns hret
        have hlen := hcopied.length_data
        have hnonneg := hcopied.nonneg
        refine ⟨?_, a, hret⟩
        rcases hsettled with hfive | hneg
        · omega
        · omega
      · rintro ⟨hleft, a, hret⟩
        have hlen := ((yields_receive left).of_returns hret).length_data
        exact ⟨a, hret, .inl (by rw [hlen, hleft]; rfl)⟩

/-- A line that stays low is an answer of the sensor that never ends. -/
theorem stuckLow_never_returns : ¬ ∃ a, (am2305Read 0).Returns (fun _ => false) a := by
  rintro ⟨a, hret⟩
  rw [am2305Read_eq, returns_delay, returns_delay, returns_sample] at hret
  obtain ⟨n, hn, _⟩ := (shaped_receive 0).returns_iff.mp ⟨a, hret⟩
  exact Bool.false_ne_true hn

end Line

end Am2305

end Sensor
