-- SUMMARY: The key driver (key_input.c): four interrupts that share one slot and one timer, and the presses they lose.
import LinuxShare.Lib.Lists
import LinuxShare.Lib.Machine
import LinuxShare.Input.Report

/-!
# The keys

A key's interrupt leaves its `key_infos` entry in `irq_info` and restarts the timer.
When the timer expires, its function reads the pin of the key it finds there, reports
a press if the pin is low, and clears `irq_info`. Interrupts of any key may come before
each of these accesses.
-/

namespace Input

namespace KeyInput

open Machine

/-- A key is an index into `key_infos`. -/
abbrev Key : Type := Fin 4

/-- `struct key_infos`, as far as the two functions use it. Pins are bits of port F. -/
structure KeyInfo where
  pin : UInt32
  keyVal : Nat

def keyInfos : Key → KeyInfo
  | 0 => { pin := 4, keyVal := keyL }
  | 1 => { pin := 5, keyVal := keyS }
  | 2 => { pin := 6, keyVal := keyEnter }
  | 3 => { pin := 7, keyVal := keyLeftshift }

/-- `s3c2410_gpio_getpin`, when the data register of port F is `gpfdat`. -/
def getpin (gpfdat pin : UInt32) : UInt32 := gpfdat &&& (1 : UInt32) <<< pin

/-- Where the timer function is: not running, before it reads the pin, or after. -/
inductive Phase where
  | idle
  | loaded (theIrq : Key)
  | sampled
  deriving DecidableEq

/-- `irq_info`, and whether `my_timer` is pending. -/
structure Keys where
  irqInfo : Option Key
  pending : Bool
  phase : Phase
  deriving DecidableEq

/-- After `key_input_init`. -/
def keyInputInit : Keys := { irqInfo := none, pending := true, phase := .idle }

inductive Event where
  /-- `key_input_handleirq` with `dev_id` -/
  | irq (devId : Key)
  /-- `my_timer_func` is called and reads `irq_info` -/
  | expire
  /-- it reads the pin, and reports -/
  | sample (gpfdat : UInt32)
  /-- it clears `irq_info` and returns -/
  | clear
  deriving DecidableEq

/-- The report of a press of the key. -/
def press (k : Key) : List Report := [.key (keyInfos k).keyVal 1, .sync]

def step : Event → Keys → Keys × List Report
  | .irq devId, s => ({ s with irqInfo := some devId, pending := true }, [])
  | .expire, s =>
    match s.irqInfo with
    | none => ({ s with pending := false }, [])
    | some theIrq => ({ s with pending := false, phase := .loaded theIrq }, [])
  | .sample gpfdat, s =>
    match s.phase with
    | .loaded theIrq =>
      ({ s with phase := .sampled },
        if getpin gpfdat (keyInfos theIrq).pin = 0 then press theIrq else [])
    | _ => (s, [])
  | .clear, s => ({ s with irqInfo := none, phase := .idle }, [])

/-- The timer expires when it is pending and its function is not running, and the
function goes through its accesses in order. -/
def Enabled : Event → Keys → Prop
  | .irq _, _ => True
  | .expire, s => s.pending = true ∧ s.phase = .idle
  | .sample _, s => ∃ k, s.phase = .loaded k
  | .clear, s => s.phase = .sampled

/-- Whenever the pin of the key is read, it is low. -/
def LowFor (k : Key) (es : List Event) : Prop :=
  ∀ gpfdat, .sample gpfdat ∈ es → getpin gpfdat (keyInfos k).pin = 0

/-- From an interrupt of `k` to the end of the next expiry: `mid` comes before the expiry
and `fin` while its function runs. The pin of `k` is low all the time. -/
structure Window (s : Keys) (k : Key) (mid fin : List Event) : Prop where
  enabled : Along step Enabled s (.irq k :: mid ++ .expire :: fin)
  not_mem_mid : .expire ∉ mid
  not_mem_fin : .expire ∉ fin
  idle : (run step s (.irq k :: mid ++ .expire :: fin)).phase = .idle
  low : LowFor k (mid ++ fin)

/-- A press of `k` is reported within the window. -/
def PressReported (s : Keys) (k : Key) (mid fin : List Event) : Prop :=
  press k <:+: trace step s (.irq k :: mid ++ .expire :: fin)

def Event.setsIrqInfo : Event → Bool
  | irq _ | clear => true
  | _ => false

/-- When the timer expires, `irq_info` was last set by an interrupt of `k`. -/
def Kept (k : Key) (mid : List Event) : Prop :=
  Lists.lastSuch Event.setsIrqInfo (.irq k :: mid) = some (.irq k)

/-! ## The slot -/

/-- Only an interrupt and the end of the timer function set `irq_info`. -/
theorem irqInfo_step {e : Event} (s : Keys) (h : e.setsIrqInfo = false) :
    (step e s).1.irqInfo = s.irqInfo := by
  cases e with
  | irq k => cases h
  | clear => cases h
  | expire =>
      simp only [step]
      split <;> rfl
  | sample g =>
      simp only [step]
      split <;> rfl

theorem irqInfo_run (s : Keys) (es : List Event) :
    (run step s es).irqInfo =
      match Lists.lastSuch Event.setsIrqInfo es with
      | none => s.irqInfo
      | some (.irq k) => some k
      | some _ => none := by
  induction es using List.reverseRecOn with
  | nil => rfl
  | append_singleton es e ih =>
      rw [run_snoc, Lists.lastSuch_append_singleton]
      cases e with
      | irq k => rfl
      | clear => rfl
      | expire =>
          rw [irqInfo_step _ rfl, ih]
          rfl
      | sample g =>
          rw [irqInfo_step _ rfl, ih]
          rfl

theorem kept_iff (s : Keys) (k : Key) (mid : List Event) :
    Kept k mid ↔ (run step s (.irq k :: mid)).irqInfo = some k := by
  have hset : (Lists.lastSuch Event.setsIrqInfo (.irq k :: mid)).isSome := by
    simp [Lists.lastSuch, Event.setsIrqInfo, List.filter_cons]
  obtain ⟨e, he⟩ := Option.isSome_iff_exists.mp hset
  rw [irqInfo_run, Kept, he]
  cases e <;> simp

/-! ## The timer function -/

theorem keyVal_inj : ∀ j k, (keyInfos j).keyVal = (keyInfos k).keyVal → j = k := by decide

theorem eq_of_mem_press {j k : Key} (h : .key (keyInfos k).keyVal 1 ∈ press j) : j = k := by
  simp only [press, List.mem_cons, Report.key.injEq, and_true, reduceCtorEq, List.not_mem_nil,
    or_false] at h
  exact (keyVal_inj k j h).symm

/-- Only reading a pin makes a report. -/
theorem trace_of_not_loaded {s : Keys} {es : List Event} (hexp : .expire ∉ es)
    (hphase : ∀ k, s.phase ≠ .loaded k) : trace step s es = [] := by
  induction es generalizing s with
  | nil => rfl
  | cons e es ih =>
      have hes : .expire ∉ es := fun h => hexp (List.mem_cons_of_mem e h)
      rw [trace_cons]
      cases e with
      | irq k => exact ih hes hphase
      | expire => exact absurd List.mem_cons_self hexp
      | clear => exact ih hes (by simp [step])
      | sample g =>
          have hstep : step (.sample g) s = (s, []) := by
            cases hp : s.phase with
            | loaded k => exact absurd hp (hphase k)
            | idle => simp [step, hp]
            | sampled => simp [step, hp]
          rw [hstep]
          exact ih hes hphase

/-- The function reads the pin of the key it has found before it returns. -/
theorem exists_sample {s : Keys} {es : List Event} {k : Key} (hen : Along step Enabled s es)
    (hexp : .expire ∉ es) (hidle : (run step s es).phase = .idle) (hphase : s.phase = .loaded k) :
    ∃ g, .sample g ∈ es ∧
      trace step s es = if getpin g (keyInfos k).pin = 0 then press k else [] := by
  induction es generalizing s with
  | nil => cases hphase.symm.trans hidle
  | cons e es ih =>
      have hes : .expire ∉ es := fun h => hexp (List.mem_cons_of_mem e h)
      cases e with
      | irq j =>
          obtain ⟨g, hmem, htrace⟩ := ih hen.2 hes hidle hphase
          exact ⟨g, List.mem_cons_of_mem _ hmem, htrace⟩
      | expire => exact absurd List.mem_cons_self hexp
      | clear =>
          have hsampled : s.phase = .sampled := hen.1
          cases hphase.symm.trans hsampled
      | sample g =>
          refine ⟨g, List.mem_cons_self, ?_⟩
          have hstep : step (.sample g) s = ({ s with phase := .sampled },
              if getpin g (keyInfos k).pin = 0 then press k else []) := by
            simp only [step, hphase]
          rw [trace_cons, hstep, trace_of_not_loaded hes (by simp), List.append_nil]

variable {s : Keys} {es : List Event} {k : Key}

/-- The key that is reported is the one that the function has found. -/
theorem loaded_of_mem_trace (hen : Along step Enabled s es) (hexp : .expire ∉ es)
    (hidle : (run step s es).phase = .idle)
    (h : .key (keyInfos k).keyVal 1 ∈ trace step s es) : s.phase = .loaded k := by
  cases hphase : s.phase with
  | idle =>
      rw [trace_of_not_loaded hexp (by simp [hphase])] at h
      cases h
  | sampled =>
      rw [trace_of_not_loaded hexp (by simp [hphase])] at h
      cases h
  | loaded j =>
      obtain ⟨g, _, htrace⟩ := exists_sample hen hexp hidle hphase
      rw [htrace] at h
      split at h
      · rw [eq_of_mem_press h]
      · cases h

theorem trace_of_low (hen : Along step Enabled s es) (hexp : .expire ∉ es)
    (hidle : (run step s es).phase = .idle) (hphase : s.phase = .loaded k) (hlow : LowFor k es) :
    trace step s es = press k := by
  obtain ⟨g, hmem, htrace⟩ := exists_sample hen hexp hidle hphase
  rw [htrace, if_pos (hlow g hmem)]

theorem expire_phase (hidle : s.phase = .idle) :
    (step .expire s).1.phase = .loaded k ↔ s.irqInfo = some k := by
  cases hslot : s.irqInfo with
  | none => simp [step, hslot, hidle]
  | some j => simp [step, hslot]

theorem expire_reports (s : Keys) : (step .expire s).2 = [] := by
  simp only [step]
  split <;> rfl

/-! ## Presses -/

/-- A press is reported by the expiry that ends the window if `irq_info` is still that key,
and by the one in whose course the interrupt comes if that has yet to read the pin of the key. -/
theorem Window.pressReported_iff {mid fin : List Event} (h : Window s k mid fin) :
    PressReported s k mid fin ↔ Kept k mid ∨ s.phase = .loaded k := by
  obtain ⟨hen, hmid, hfin, hidle, hlow⟩ := h
  let s₁ := (step (.irq k) s).1
  let s₂ := run step s₁ mid
  let s₃ := (step .expire s₂).1
  obtain ⟨hen₁, hexp, hen₃⟩ : Along step Enabled s₁ mid ∧ (s₂.pending = true ∧ s₂.phase = .idle) ∧
      Along step Enabled s₃ fin := by
    obtain ⟨hbefore, hafter⟩ := along_append.mp hen
    exact ⟨hbefore.2, hafter.1, hafter.2⟩
  have hend : (run step s₃ fin).phase = .idle := by
    rw [run_append] at hidle
    exact hidle
  have htrace : trace step s (.irq k :: mid ++ .expire :: fin) =
      trace step s₁ mid ++ trace step s₃ fin := by
    rw [trace_append, trace_cons, trace_cons, run_cons, expire_reports, List.nil_append]
    rfl
  have hlowmid : LowFor k mid := fun g hg => hlow g (List.mem_append_left fin hg)
  have hlowfin : LowFor k fin := fun g hg => hlow g (List.mem_append_right mid hg)
  have hkept : Kept k mid ↔ s₃.phase = .loaded k := by
    rw [kept_iff s, expire_phase hexp.2]
    rfl
  rw [PressReported, htrace, hkept]
  constructor
  · intro hpress
    have hmem : .key (keyInfos k).keyVal 1 ∈ trace step s₁ mid ++ trace step s₃ fin :=
      hpress.mem List.mem_cons_self
    rcases List.mem_append.mp hmem with hmem | hmem
    · have hloaded : s₁.phase = .loaded k := loaded_of_mem_trace hen₁ hmid hexp.2 hmem
      exact .inr hloaded
    · exact .inl (loaded_of_mem_trace hen₃ hfin hend hmem)
  · rintro (hloaded | hloaded)
    · rw [trace_of_low hen₃ hfin hend hloaded hlowfin]
      exact (List.suffix_append _ _).isInfix
    · rw [trace_of_low (s := s₁) hen₁ hmid hexp.2 hloaded hlowmid]
      exact (List.prefix_append _ _).isInfix

/-- A press is reported only of a key whose pin has just been read as low. -/
theorem low_of_press {e : Event} {v : Nat} (h : .key v 1 ∈ (step e s).2) :
    ∃ k g, e = .sample g ∧ s.phase = .loaded k ∧ getpin g (keyInfos k).pin = 0 ∧
      v = (keyInfos k).keyVal ∧ (step e s).2 = press k := by
  cases e with
  | irq k => cases h
  | clear => cases h
  | expire =>
      rw [expire_reports] at h
      cases h
  | sample g =>
      cases hphase : s.phase with
      | idle => simp [step, hphase] at h
      | sampled => simp [step, hphase] at h
      | loaded k =>
          by_cases hlow : getpin g (keyInfos k).pin = 0
          · have hstep : (step (.sample g) s).2 = press k := by simp [step, hphase, hlow]
            rw [hstep] at h
            have hv : v = (keyInfos k).keyVal := by simpa [press] using h
            exact ⟨k, g, rfl, rfl, hlow, hv, hstep⟩
          · simp [step, hphase, hlow] at h

/-- In every run, a press is reported in a window if and only if its key is still in the
slot when the timer expires, or is about to be read when its interrupt comes. No press
is reported of a key whose pin is not read as low, and the report is followed by a sync. -/
theorem presses_reported (es : List Event) (hen : Along step Enabled keyInputInit es) :
    (∀ pre k mid fin post, es = pre ++ (.irq k :: mid ++ .expire :: fin) ++ post →
      .expire ∉ mid → .expire ∉ fin →
      (run step keyInputInit (pre ++ (.irq k :: mid ++ .expire :: fin))).phase = .idle →
      LowFor k (mid ++ fin) →
      (PressReported (run step keyInputInit pre) k mid fin ↔
        Kept k mid ∨ (run step keyInputInit pre).phase = .loaded k)) ∧
    ∀ pre e post, es = pre ++ e :: post → ∀ v, .key v 1 ∈ (step e (run step keyInputInit pre)).2 →
      ∃ k g, e = .sample g ∧ (run step keyInputInit pre).phase = .loaded k ∧
        getpin g (keyInfos k).pin = 0 ∧ v = (keyInfos k).keyVal ∧
        (step e (run step keyInputInit pre)).2 = press k := by
  constructor
  · rintro pre k mid fin post rfl hmid hfin hidle hlow
    rw [run_append] at hidle
    exact Window.pressReported_iff
      ⟨(along_append.mp (along_append.mp hen).1).2, hmid, hfin, hidle, hlow⟩
  · exact fun pre e post _ v hv => low_of_press hv

/-- KEY_S bounces, with an interrupt of KEY_L in between, and KEY_ENTER comes while the
timer function runs. -/
def threeKeys : List Event := [.irq 1, .irq 0, .irq 1, .expire, .irq 2, .sample 0, .clear]

theorem lowFor_zero {k : Key} {es : List Event} (h : ∀ g, .sample g ∈ es → g = 0) : LowFor k es := by
  intro g hg
  rw [h g hg]
  revert k
  decide

/-- The press of KEY_S is reported. -/
theorem presses_reported_threeKeys :
    PressReported keyInputInit 1 [.irq 0, .irq 1] [.irq 2, .sample 0, .clear] :=
  ((presses_reported threeKeys
    ⟨trivial, trivial, trivial, ⟨rfl, rfl⟩, trivial, ⟨1, rfl⟩, rfl, trivial⟩).1
      [] 1 [.irq 0, .irq 1] [.irq 2, .sample 0, .clear] [] rfl (by decide) (by decide) rfl
      (lowFor_zero (by simp))).mpr (.inl rfl)

/-- KEY_L and KEY_S are pressed within one debounce time and both held. The press of
KEY_L is lost. -/
theorem twoKeys_lost :
    Window keyInputInit 0 [.irq 1] [.sample 0, .clear] ∧
      trace step keyInputInit [.irq 0, .irq 1, .expire, .sample 0, .clear] = press 1 ∧
      ¬ PressReported keyInputInit 0 [.irq 1] [.sample 0, .clear] := by
  have hwindow : Window keyInputInit 0 [.irq 1] [.sample 0, .clear] :=
    { enabled := ⟨trivial, trivial, ⟨rfl, rfl⟩, ⟨1, rfl⟩, rfl, trivial⟩
      not_mem_mid := by decide
      not_mem_fin := by decide
      idle := rfl
      low := lowFor_zero (by simp) }
  have htrace : trace step keyInputInit [.irq 0, .irq 1, .expire, .sample 0, .clear] = press 1 := rfl
  refine ⟨hwindow, htrace, fun hpress => ?_⟩
  have hmem : .key (keyInfos 0).keyVal 1 ∈ press 1 := htrace ▸ hpress.mem List.mem_cons_self
  exact absurd (eq_of_mem_press hmem) (by decide)

end KeyInput

end Input
