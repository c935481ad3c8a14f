-- SUMMARY: The memory copy through a DMA channel (the_dma.c): calls that share two buffers, a channel and a flag.
import LinuxShare.Lib.Bytes
import LinuxShare.Lib.Machine

/-!
# Copying by DMA

Every call fills the two buffers, clears `expert` and copies one buffer to the other,
itself or through the channel. In the second case it waits until the interrupt of the
channel has set `expert`, or until a signal arrives, and then compares the buffers.
-/

namespace Dma

open Bytes Machine

/-- `TRANS_SIZE` -/
def transSize : Nat := 200 * 1024

inductive Cmd where
  | memNoDma
  | memDma
  | other
  deriving DecidableEq

/-- Where a call is; a number is the next byte of a loop. -/
inductive Pc where
  | fillSrc (i : Nat)
  | fillDst (i : Nat)
  | clear
  | copy (i : Nat)
  | start
  | wait
  | compare (i : Nat)
  | done
  deriving DecidableEq

structure Call where
  cmd : Cmd
  pc : Pc
  deriving DecidableEq

/-- What the channel is doing, and the call that has started it. -/
structure Transfer where
  owner : Nat
  next : Nat
  deriving DecidableEq

/-- `completed` says of which calls a transfer has run to its end; the code has no such table. -/
structure St where
  src : Mem
  dst : Mem
  expert : Bool
  channel : Option Transfer
  irq : Bool
  calls : Nat → Option Call
  completed : Nat → Bool

inductive Message where
  | noDmaTransOk
  | noDmaTransError
  | dmaTransOk
  | dmaTransError
  | theCmdIsError
  deriving DecidableEq

/-- What can be seen of a step: a buffer is written, with or without a transfer in flight;
the buffers are compared, with the call's own transfer completed or not; a call returns,
with a transfer of its own running or not. -/
inductive Obs where
  | wrote (k : Nat) (inFlight : Bool)
  | compared (k : Nat) (cmd : Cmd) (completed : Bool)
  | printk (k : Nat) (m : Message)
  | returned (k : Nat) (ret : Int) (running : Bool)
  deriving DecidableEq

/-- Calls begin, and do their next step: a loop handles `n + 1` bytes before anything else
happens. A signal can end a wait. The channel moves `n + 1` bytes. -/
inductive Event where
  | call (k : Nat) (cmd : Cmd)
  | step (k n : Nat)
  | signal (k : Nat)
  | engine (n : Nat)
  | interrupt

namespace St

def setPc (s : St) (k : Nat) (c : Call) (pc : Pc) : St :=
  { s with calls := fun j => if j = k then some { c with pc } else s.calls j }

/-- Whether a transfer of call `k` is in flight. -/
def running (s : St) (k : Nat) : Bool := s.channel.any fun t => t.owner = k

end St

/-- The memory with the bytes of `[i, i + n + 1)` that lie in the buffer taken from `bs`. -/
def store (m bs : Mem) (i n : Nat) : Mem :=
  fun j => if i ≤ j ∧ j < i + (n + 1) ∧ j < transSize then bs j else m j

/-- The end of the loop or its next byte. -/
def next (i n : Nat) (loop : Nat → Pc) (after : Pc) : Pc :=
  if i + (n + 1) < transSize then loop (i + (n + 1)) else after

def verdict (cmd : Cmd) (same : Bool) : Message :=
  match cmd, same with
  | .memDma, true => .dmaTransOk
  | .memDma, false => .dmaTransError
  | _, true => .noDmaTransOk
  | _, false => .noDmaTransError

/-- Call `k` comes back from `my_ioctl`. -/
def finish (s : St) (k : Nat) (c : Call) (m : Message) (ret : Int) : St × List Obs :=
  (s.setPc k c .done, [.printk k m, .returned k ret (s.running k)])

/-- `memcmp` reads on until it finds a difference or the end. -/
def compareStep (s : St) (k : Nat) (c : Call) (i n : Nat) : St × List Obs :=
  let same := (List.range (n + 1)).all fun j => i + j ≥ transSize || s.src (i + j) == s.dst (i + j)
  let seen := .compared k c.cmd (s.completed k)
  if same && i + (n + 1) < transSize then
    (s.setPc k c (.compare (i + (n + 1))), [seen])
  else
    let r := finish s k c (verdict c.cmd same) 0
    (r.1, seen :: r.2)

/-- `again` is what the channel does when it is started during a transfer. -/
def callStep (again : Transfer → Nat → Option Transfer) (s : St) (k : Nat) (c : Call) (n : Nat) :
    St × List Obs :=
  match c.pc with
  | .fillSrc i =>
    ({ s.setPc k c (next i n .fillSrc (.fillDst 0)) with src := store s.src (fun _ => 0x11) i n },
      [.wrote k s.channel.isSome])
  | .fillDst i =>
    ({ s.setPc k c (next i n .fillDst .clear) with dst := store s.dst (fun _ => 0xff) i n },
      [.wrote k s.channel.isSome])
  | .clear =>
    let s := { s with expert := false }
    match c.cmd with
    | .memNoDma => (s.setPc k c (.copy 0), [])
    | .memDma => (s.setPc k c .start, [])
    -- -ENOTTY
    | .other => finish s k c .theCmdIsError (-25)
  | .copy i =>
    ({ s.setPc k c (next i n .copy (.compare 0)) with dst := store s.dst s.src i n },
      [.wrote k s.channel.isSome])
  -- every call writes the same values into the registers; the last write starts the channel
  | .start =>
    let channel := match s.channel with
      | none => some { owner := k, next := 0 }
      | some t => again t k
    ({ s.setPc k c .wait with channel }, [])
  | .wait => (if s.expert then s.setPc k c (.compare 0) else s, [])
  | .compare i => compareStep s k c i n
  | .done => (s, [])

/-- The channel copies; at the end it raises its interrupt. -/
def engineStep (s : St) (n : Nat) : St :=
  match s.channel with
  | none => s
  | some t =>
    let s := { s with dst := store s.dst s.src t.next n }
    if t.next + (n + 1) < transSize then
      { s with channel := some { t with next := t.next + (n + 1) } }
    else
      { s with
        channel := none
        irq := true
        completed := fun j => j = t.owner || s.completed j }

def myDmaFunc (s : St) : St := { s with expert := true }

/-- One step of the system. A wait that is ended by a signal goes on with the comparison,
since its result is not looked at; with `expert` set it ends without the signal. -/
def step (again : Transfer → Nat → Option Transfer) (e : Event) (s : St) : St × List Obs :=
  match e with
  | .call k cmd =>
    if s.calls k = none then (s.setPc k { cmd, pc := .done } (.fillSrc 0), []) else (s, [])
  | .step k n =>
    match s.calls k with
    | none => (s, [])
    | some c => callStep again s k c n
  | .signal k =>
    match s.calls k with
    | some c => if c.pc = .wait ∧ s.expert = false then (s.setPc k c (.compare 0), []) else (s, [])
    | none => (s, [])
  | .engine n => (engineStep s n, [])
  | .interrupt => (if s.irq then myDmaFunc { s with irq := false } else s, [])

/-- After `my_dma_init`, whatever is in the buffers. -/
def myDmaInit (src dst : Mem) : St where
  src := src
  dst := dst
  expert := false
  channel := none
  irq := false
  calls := fun _ => none
  completed := fun _ => false

/-! ## What is required -/

/-- No buffer is written during a transfer, a call compares after its own transfer, and
returns without one. -/
def Obs.Good : Obs → Prop
  | .wrote _ inFlight => inFlight = false
  | .compared _ cmd completed => cmd = .memDma → completed = true
  | .printk _ _ => True
  | .returned _ _ running => running = false

theorem good_nil : ∀ o ∈ ([] : List Obs), o.Good := List.forall_mem_nil _

/-- Call `k` is in `wait_event_interruptible`. -/
def St.Waiting (s : St) (k : Nat) : Prop := ∃ c, s.calls k = some c ∧ c.pc = .wait

/-- The step writes one of the buffers. -/
def Pc.Writes : Pc → Prop
  | .fillSrc _ | .fillDst _ | .copy _ => True
  | _ => False

/-- A call writes a buffer only while no call is waiting, it starts the channel only then and
with `expert` clear, and no signal ends a wait. -/
def Apart (e : Event) (s : St) : Prop :=
  match e with
  | .step k _ => ∀ c, s.calls k = some c →
    (c.pc.Writes → ∀ j, ¬ s.Waiting j) ∧ (c.pc = .start → s.expert = false ∧ ∀ j, ¬ s.Waiting j)
  | .signal k => s.Waiting k → s.expert = true
  | _ => True

/-! ## The state between the steps -/

/-- Only calls without DMA copy themselves, and a call with DMA compares when its transfer
has completed. -/
def Pc.Allows (cmd : Cmd) (completed : Bool) : Pc → Prop
  | .copy _ => cmd ≠ .memDma
  | .compare _ => cmd = .memDma → completed = true
  | _ => True

/-- At most one call waits. A transfer in flight is that of a waiting call, with `expert`
clear and no interrupt pending; `expert` is clear as long as the interrupt is pending, and
its call still waits. A waiting call whose transfer is not in flight has completed it. -/
structure Inv (s : St) : Prop where
  alone : ∀ j k, s.Waiting j → s.Waiting k → j = k
  inFlight : ∀ t, s.channel = some t → s.Waiting t.owner ∧ s.expert = false ∧ s.irq = false
  pending : s.irq = true → s.expert = false ∧ ∃ k, s.Waiting k
  waiting : ∀ k, s.Waiting k → (∃ t, s.channel = some t ∧ t.owner = k) ∨ s.completed k = true
  allowed : ∀ k c, s.calls k = some c → c.pc.Allows c.cmd (s.completed k)

variable {s s' : St} {k n : Nat} {c : Call} {pc : Pc}

theorem inv_myDmaInit (src dst : Mem) : Inv (myDmaInit src dst) where
  alone := by rintro j k ⟨c, hc, -⟩; cases hc
  inFlight := by intro t ht; cases ht
  pending := by intro h; cases h
  waiting := by rintro k ⟨c, hc, -⟩; cases hc
  allowed := by intro k c hc; cases hc

theorem St.waiting_setPc {j : Nat} :
    (s.setPc k c pc).Waiting j ↔ if j = k then pc = .wait else s.Waiting j := by
  by_cases h : j = k <;> simp [St.Waiting, St.setPc, h]

/-- A call goes to a place where it may be. -/
theorem Inv.allowed_setPc (h : Inv s) (hpc : pc.Allows c.cmd (s.completed k)) (j : Nat) (c' : Call)
    (hj : (s.setPc k c pc).calls j = some c') : c'.pc.Allows c'.cmd (s.completed j) := by
  simp only [St.setPc] at hj
  split at hj
  · next heq =>
      cases hj
      exact heq ▸ hpc
  · exact h.allowed j c' hj

/-- Only the calls, the channel and the two flags matter. -/
theorem Inv.congr (h : Inv s) (hcalls : s'.calls = s.calls) (hchannel : s'.channel = s.channel)
    (hirq : s'.irq = s.irq) (hcompleted : s'.completed = s.completed)
    (hexpert : s'.expert = true → s.expert = true) : Inv s' := by
  have hclear : s.expert = false → s'.expert = false := fun hfalse =>
    eq_false_of_ne_true fun htrue => by rw [hexpert htrue] at hfalse; cases hfalse
  have hwaiting : ∀ j, s'.Waiting j ↔ s.Waiting j := fun j => by rw [St.Waiting, St.Waiting, hcalls]
  refine ⟨fun j k hj hk => ?_, fun t ht => ?_, fun hpending => ?_, fun j hj => ?_, ?_⟩
  · exact h.alone j k ((hwaiting j).mp hj) ((hwaiting k).mp hk)
  · obtain ⟨howner, hoff, hnone⟩ := h.inFlight t (hchannel ▸ ht)
    exact ⟨(hwaiting _).mpr howner, hclear hoff, hirq.trans hnone⟩
  · obtain ⟨hoff, k, hk⟩ := h.pending (hirq ▸ hpending)
    exact ⟨hclear hoff, k, (hwaiting k).mpr hk⟩
  · rw [hchannel, hcompleted]
    exact h.waiting j ((hwaiting j).mp hj)
  · rw [hcalls, hcompleted]
    exact h.allowed

/-- A call that does not wait goes on, and does not wait afterwards. -/
theorem Inv.setPc (h : Inv s) (hk : ¬ s.Waiting k) (hwait : pc ≠ .wait)
    (hpc : pc.Allows c.cmd (s.completed k)) : Inv (s.setPc k c pc) := by
  have hwaiting : ∀ j, (s.setPc k c pc).Waiting j ↔ s.Waiting j := by
    intro j
    rw [St.waiting_setPc]
    split
    · next heq => exact iff_of_false hwait (heq ▸ hk)
    · exact Iff.rfl
  refine ⟨fun i j hi hj => ?_, fun t ht => ?_, fun hpending => ?_, fun j hj => ?_,
    h.allowed_setPc hpc⟩
  · exact h.alone i j ((hwaiting i).mp hi) ((hwaiting j).mp hj)
  · obtain ⟨howner, hflags⟩ := h.inFlight t ht
    exact ⟨(hwaiting _).mpr howner, hflags⟩
  · obtain ⟨hoff, j, hj⟩ := h.pending hpending
    exact ⟨hoff, j, (hwaiting j).mpr hj⟩
  · exact h.waiting j ((hwaiting j).mp hj)

/-- With `expert` set the transfer of a waiting call has completed, and no other is in flight. -/
theorem Inv.completed_of_expert (h : Inv s) (hk : s.Waiting k) (hexpert : s.expert = true) :
    s.completed k = true ∧ s.channel = none ∧ s.irq = false := by
  have hset : s.expert ≠ false := by simp [hexpert]
  have hnone : s.channel = none :=
    Option.eq_none_iff_forall_ne_some.mpr fun t ht => hset (h.inFlight t ht).2.1
  have hirq : s.irq = false := eq_false_of_ne_true fun hirq => hset (h.pending hirq).1
  obtain ⟨t, ht, -⟩ | hcompleted := h.waiting k hk
  · cases hnone.symm.trans ht
  · exact ⟨hcompleted, hnone, hirq⟩

/-- A wait that ends because `expert` is set leaves nobody waiting. -/
theorem Inv.wake (h : Inv s) (hk : s.Waiting k) (hexpert : s.expert = true) :
    Inv (s.setPc k c (.compare 0)) := by
  obtain ⟨hcompleted, hnone, hirq⟩ := h.completed_of_expert hk hexpert
  have hnobody : ∀ j, ¬ (s.setPc k c (.compare 0)).Waiting j := by
    intro j hj
    rw [St.waiting_setPc] at hj
    split at hj
    · cases hj
    · next hne => exact hne (h.alone j k hj hk)
  refine ⟨fun j _ hj => absurd hj (hnobody j), fun t ht => ?_, fun hpending => ?_,
    fun j hj => absurd hj (hnobody j), h.allowed_setPc fun _ => hcompleted⟩
  · cases hnone.symm.trans ht
  · cases hirq.symm.trans hpending

/-- While nobody waits the channel is idle and its interrupt served. -/
theorem Inv.idle (h : Inv s) (hnobody : ∀ j, ¬ s.Waiting j) : s.channel = none ∧ s.irq = false := by
  refine ⟨Option.eq_none_iff_forall_ne_some.mpr fun t ht => hnobody _ (h.inFlight t ht).1,
    eq_false_of_ne_true fun hirq => ?_⟩
  obtain ⟨-, j, hj⟩ := h.pending hirq
  exact hnobody j hj

/-- A call starts the idle channel, with `expert` clear. -/
theorem Inv.start (h : Inv s) (hnobody : ∀ j, ¬ s.Waiting j) (hoff : s.expert = false) :
    Inv { s.setPc k c .wait with channel := some { owner := k, next := 0 } } := by
  have hirq := (h.idle hnobody).2
  have hwaiting : ∀ j, (s.setPc k c .wait).Waiting j ↔ j = k := by
    intro j
    rw [St.waiting_setPc]
    split
    · next heq => exact iff_of_true rfl heq
    · next hne => exact iff_of_false (hnobody j) hne
  refine ⟨fun i j hi hj => ?_, fun t ht => ?_, fun hpending => ?_, fun j hj => ?_,
    h.allowed_setPc trivial⟩
  · exact ((hwaiting i).mp hi).trans ((hwaiting j).mp hj).symm
  · cases ht
    exact ⟨(hwaiting k).mpr rfl, hoff, hirq⟩
  · cases hirq.symm.trans hpending
  · exact .inl ⟨_, rfl, ((hwaiting j).mp hj).symm⟩

/-- What may be done before a transfer has completed may be done afterwards. -/
theorem Pc.Allows.mono {cmd : Cmd} {b b' : Bool} (h : pc.Allows cmd b) (hb : b = true → b' = true) :
    pc.Allows cmd b' := by
  cases pc with
  | compare i => exact fun hcmd => hb (h hcmd)
  | _ => exact h

/-- The channel copies, and at the end its call is the one that has completed. -/
theorem Inv.engineStep (h : Inv s) (n : Nat) : Inv (engineStep s n) := by
  rw [Dma.engineStep]
  cases hchannel : s.channel with
  | none => exact h
  | some t =>
      obtain ⟨howner, hoff, hirq⟩ := h.inFlight t hchannel
      dsimp only
      split
      · refine ⟨h.alone, fun t' ht' => ?_, h.pending, fun j hj => .inl ⟨_, rfl, ?_⟩, h.allowed⟩
        · cases ht'
          exact ⟨howner, hoff, hirq⟩
        · exact h.alone _ _ howner hj
      · refine ⟨h.alone, fun t' ht' => ?_, fun _ => ⟨hoff, t.owner, howner⟩, fun j hj => .inr ?_,
          fun j c hc => (h.allowed j c hc).mono fun hcompleted => ?_⟩
        · cases ht'
        · simp [h.alone j t.owner hj howner]
        · simp [hcompleted]

/-- The handler runs when no transfer is in flight. -/
theorem Inv.interrupt (h : Inv s) (hirq : s.irq = true) : Inv (myDmaFunc { s with irq := false }) := by
  refine ⟨h.alone, fun t ht => ?_, fun hpending => ?_, h.waiting, h.allowed⟩
  · cases hirq.symm.trans (h.inFlight t ht).2.2
  · cases hpending

/-! ## The steps of a call -/

/-- A call that does not wait has no transfer in flight. -/
theorem Inv.running (h : Inv s) (hk : ¬ s.Waiting k) : s.running k = false := by
  cases hchannel : s.channel with
  | none => simp [St.running, hchannel]
  | some t =>
      have hne : t.owner ≠ k := fun heq => hk (heq ▸ (h.inFlight t hchannel).1)
      simp [St.running, hchannel, hne]

/-- The end of a call that does not wait. -/
theorem Inv.finish (h : Inv s) (hk : ¬ s.Waiting k) (m : Message) (ret : Int) :
    Inv (finish s k c m ret).1 ∧ ∀ o ∈ (finish s k c m ret).2, o.Good := by
  refine ⟨h.setPc hk (by decide) trivial, fun o ho => ?_⟩
  rcases List.mem_pair.mp ho with rfl | rfl
  · trivial
  · exact h.running hk

/-- A loop over a buffer goes on while nobody waits. -/
theorem Inv.writeStep (h : Inv s) (hnobody : ∀ j, ¬ s.Waiting j)
    (hpc : pc ≠ .wait ∧ pc.Allows c.cmd (s.completed k)) (src dst : Mem) :
    Inv { s.setPc k c pc with src, dst } ∧ ∀ o ∈ [Obs.wrote k s.channel.isSome], o.Good := by
  refine ⟨(h.setPc (hnobody k) hpc.1 hpc.2).congr rfl rfl rfl rfl id, fun o ho => ?_⟩
  rw [List.mem_singleton.mp ho, (h.idle hnobody).1]
  rfl

/-- A comparison that may begin goes on or ends. -/
theorem Inv.compareStep (h : Inv s) (hk : ¬ s.Waiting k) (i n : Nat)
    (hcompleted : c.cmd = .memDma → s.completed k = true) :
    Inv (compareStep s k c i n).1 ∧ ∀ o ∈ (compareStep s k c i n).2, o.Good := by
  rw [Dma.compareStep]
  dsimp only
  split
  · refine ⟨h.setPc hk (by simp) hcompleted, fun o ho => ?_⟩
    rw [List.mem_singleton.mp ho]
    exact hcompleted
  · obtain ⟨hinv, hgood⟩ := h.finish (c := c) hk (verdict c.cmd _) 0
    refine ⟨hinv, fun o ho => ?_⟩
    rcases List.mem_cons.mp ho with rfl | ho
    · exact hcompleted
    · exact hgood o ho

/-- What holds at the next byte of a loop and at its end. -/
theorem next_of {P : Pc → Prop} {i : Nat} {loop : Nat → Pc} {after : Pc} (hloop : ∀ i, P (loop i))
    (hafter : P after) : P (next i n loop after) := by
  rw [next]
  split
  · exact hloop _
  · exact hafter

/-- What a step of a call does when it meets the condition. -/
theorem callStep_safe (again : Transfer → Nat → Option Transfer) (h : Inv s)
    (hc : s.calls k = some c) (hapart : Apart (.step k n) s) :
    Inv (callStep again s k c n).1 ∧ ∀ o ∈ (callStep again s k c n).2, o.Good := by
  obtain ⟨hwrites, hstart⟩ := hapart c hc
  have hallowed := h.allowed k c hc
  have hnot : c.pc ≠ .wait → ¬ s.Waiting k := by
    rintro hpc ⟨c', hc', hwait⟩
    cases hc.symm.trans hc'
    exact hpc hwait
  let Goes : Pc → Prop := fun pc => pc ≠ .wait ∧ pc.Allows c.cmd (s.completed k)
  cases hpc : c.pc with
  | fillSrc i =>
      simp only [callStep, hpc]
      refine h.writeStep (hwrites (by rw [hpc]; trivial)) ?_ _ s.dst
      exact next_of (P := Goes) (fun _ => ⟨by simp, trivial⟩) ⟨by simp, trivial⟩
  | fillDst i =>
      simp only [callStep, hpc]
      refine h.writeStep (hwrites (by rw [hpc]; trivial)) ?_ s.src _
      exact next_of (P := Goes) (fun _ => ⟨by simp, trivial⟩) ⟨by simp, trivial⟩
  | copy i =>
      rw [hpc] at hallowed
      simp only [callStep, hpc]
      refine h.writeStep (hwrites (by rw [hpc]; trivial)) ?_ s.src _
      exact next_of (P := Goes) (fun _ => ⟨by simp, hallowed⟩)
        ⟨by simp, fun hcmd => absurd hcmd hallowed⟩
  | clear =>
      have hk := hnot (by simp [hpc])
      have hclear : Inv { s with expert := false } := h.congr rfl rfl rfl rfl (by simp)
      simp only [callStep, hpc]
      cases hcmd : c.cmd with
      | memNoDma => exact ⟨hclear.setPc hk (by simp) (by simp [Pc.Allows, hcmd]), good_nil⟩
      | memDma => exact ⟨hclear.setPc hk (by simp) trivial, good_nil⟩
      | other => exact hclear.finish hk .theCmdIsError (-25)
  | start =>
      obtain ⟨hoff, hnobody⟩ := hstart hpc
      simp only [callStep, hpc, (h.idle hnobody).1]
      exact ⟨h.start hnobody hoff, good_nil⟩
  | wait =>
      simp only [callStep, hpc]
      split
      · next hexpert => exact ⟨h.wake ⟨c, hc, hpc⟩ hexpert, good_nil⟩
      · exact ⟨h, good_nil⟩
  | compare i =>
      rw [hpc] at hallowed
      simp only [callStep, hpc]
      exact h.compareStep (hnot (by simp [hpc])) i n hallowed
  | done =>
      simp only [callStep, hpc]
      exact ⟨h, good_nil⟩

/-- Every step that meets the condition. -/
theorem step_safe (again : Transfer → Nat → Option Transfer) (e : Event) (s : St) (h : Inv s)
    (hapart : Apart e s) : Inv (step again e s).1 ∧ ∀ o ∈ (step again e s).2, o.Good := by
  cases e with
  | call k cmd =>
      simp only [step]
      split
      · next hnone =>
          have hk : ¬ s.Waiting k := by
            rintro ⟨c, hc, -⟩
            cases hnone.symm.trans hc
          exact ⟨h.setPc hk (by simp) trivial, good_nil⟩
      · exact ⟨h, good_nil⟩
  | step k n =>
      cases hc : s.calls k with
      | none => simpa only [step, hc] using ⟨h, good_nil⟩
      | some c =>
          simp only [step, hc]
          exact callStep_safe again h hc hapart
  | signal k =>
      cases hc : s.calls k with
      | none => simpa only [step, hc] using ⟨h, good_nil⟩
      | some c =>
          simp only [step, hc]
          split
          · next hends =>
              have hexpert := hapart ⟨c, hc, hends.1⟩
              cases hends.2.symm.trans hexpert
          · exact ⟨h, good_nil⟩
  | engine n => exact ⟨h.engineStep n, good_nil⟩
  | interrupt =>
      simp only [step]
      split
      · next hirq => exact ⟨h.interrupt hirq, good_nil⟩
      · exact ⟨h, good_nil⟩

/-- For every channel, all contents of the buffers and any number of calls, in any order of
their steps with those of the channel, its interrupt and signals: when every step meets the
condition, the buffers are written and compared and the calls return as required. -/
theorem transfers_apart (again : Transfer → Nat → Option Transfer) (src dst : Mem) (es : List Event)
    (h : Along (step again) Apart (myDmaInit src dst) es) :
    ∀ o ∈ trace (step again) (myDmaInit src dst) es, o.Good :=
  (Along.inv (step_safe again) h (inv_myDmaInit src dst)).2

/-- A call up to the start of the channel, with nothing else happening. -/
def untilStart (k : Nat) : List Event :=
  [.call k .memDma, .step k (transSize - 1), .step k (transSize - 1), .step k 0]

/-- The start, the transfer, its interrupt and the end of the wait. -/
def transfer (k : Nat) : List Event :=
  [.step k 0, .engine (transSize - 1), .interrupt, .step k 0]

/-- The observations of a run from empty buffers, on a channel that ignores a start during a
transfer. -/
def observed (es : List Event) : List Obs :=
  trace (step fun t _ => some t) (myDmaInit (fun _ => 0) (fun _ => 0)) es

/-- Of call `k`, from its first write to where it starts the channel. -/
def filling (k : Nat) : List Event :=
  [.step k (transSize - 1), .step k (transSize - 1), .step k 0]

/-- The start, the transfer in two parts, its interrupt, a signal that comes too late to end
the wait, its end, and the first byte of the comparison. -/
def transferSignalled (k : Nat) : List Event :=
  [.step k 0, .engine 4095, .engine (transSize - 4097), .interrupt, .signal k, .step k 0, .step k 0]

/-- The second call begins before the first one writes, and goes on after its transfer. -/
def twoCalls : List Event :=
  [.call 0 .memDma, .call 1 .memDma] ++ filling 0 ++ transferSignalled 0 ++ filling 1 ++
    transferSignalled 1

theorem transfers_apart_twoCalls : ¬ ∃ o ∈ observed twoCalls, ¬ o.Good := by
  rintro ⟨o, ho, hbad⟩
  refine hbad (transfers_apart _ _ _ _ ?_ o ho)
  simp only [twoCalls, filling, transferSignalled, List.cons_append, List.nil_append]
  simp [Along, Apart, step, callStep, engineStep, compareStep, store, myDmaFunc, myDmaInit,
    St.Waiting, St.setPc, next, transSize, Pc.Writes, List.range_succ]
  refine ⟨?_, ?_, ?_, ?_, ?_, ?_⟩ <;> grind

/-- After a signal a call compares too early and returns while the channel still copies; a
second call writes the buffers during the transfer of the first; and a call that has
cleared `expert` before the interrupt of another call's transfer does not wait at all. -/
theorem transfers_mixed :
    ¬ (∀ o ∈ observed (untilStart 0 ++ [.step 0 0, .signal 0, .step 0 0]), o.Good) ∧
    ¬ (∀ o ∈ observed (untilStart 0 ++ [.step 0 0, .call 1 .memNoDma, .step 1 0]), o.Good) ∧
    ¬ ∀ o ∈ observed (untilStart 0 ++ untilStart 1 ++ transfer 0 ++
      [.step 1 0, .step 1 0, .step 1 0]), o.Good := by
  refine ⟨fun h => ?_, fun h => ?_, fun h => ?_⟩
  · have hreturned : (Obs.returned 0 0 true).Good := h _ (by decide)
    cases hreturned
  · have hwrote : (Obs.wrote 1 true).Good := h _ (by decide)
    cases hwrote
  · have hcompared : (Obs.compared 1 .memDma false).Good := h _ (by decide)
    cases hcompared rfl

end Dma
