-- SUMMARY: The lock of blk_simp's queue (blk_simp.c): who takes it, and what becomes of the requests.
import LinuxShare.Block.DoQueue
import LinuxShare.Lib.Machine

/-!
# my_do_queue and my_lock

`blk_init_queue(my_do_queue,&my_lock)` makes `my_lock` the lock of the queue. The block
layer calls `my_do_queue` with the lock held, and `blk_end_request_all` takes and
releases it. One event of the machine is one round of the driver's loop, together with
the requests that have arrived since the round before.
-/

namespace Block

open Machine

/-- Where the call of `my_do_queue` is: in its loop, back, spinning on a lock that it holds
itself, or lost after a copy outside the disk. -/
inductive Phase where
  | looping | returned | spinning | overrun
  deriving DecidableEq

/-- What a round does. `acquire` says whether the context holds the lock already. -/
inductive QueueObs (Page : Type) where
  | fetch (req : Option (Request Page))
  | acquire (held : Bool)
  | complete (req : Request Page) (error : Int)
  | release

structure Context (Page : Type) where
  queue : List (Request Page)
  dev : Dev
  held : Bool
  phase : Phase

section

variable {Page : Type}

/-- The block layer calls `my_do_queue` with the lock held. -/
def doQueueEntry (queue : List (Request Page)) (dev : Dev) : Context Page :=
  { queue, dev, held := true, phase := .looping }

/-- `blk_end_request_all(req,error)`. Where `smp` does not hold, spin locks do nothing. -/
def blkEndRequestAll (smp : Bool) (req : Request Page) (error : Int) (c : Context Page) :
    Context Page × List (QueueObs Page) :=
  if smp && c.held then ({ c with phase := .spinning }, [.acquire true])
  else ({ c with held := false }, [.acquire c.held, .complete req error, .release])

/-- The copy of the `switch`; both cases then end the request with 0. -/
def BlkSimp.transfer (kmap : Page → Nat) (req : Request Page) (d : Dev) : Except Fault Dev :=
  match req.dataDir with
  | .read => d.fromDisk (req.buffer kmap) (req.blkRqPos <<< 9) req.blkRqBytes
  | .write => d.toDisk (req.buffer kmap) (req.blkRqPos <<< 9) req.blkRqBytes

/-- `while((req=blk_fetch_request(q))!=NULL)` and its body, once. -/
def BlkSimp.round (smp : Bool) (kmap : Page → Nat) (arrivals : List (Request Page))
    (c : Context Page) : Context Page × List (QueueObs Page) :=
  match c.phase with
  | .looping =>
    match c.queue ++ arrivals with
    | [] => ({ c with queue := [], phase := .returned }, [.fetch none])
    | req :: queue =>
      match BlkSimp.transfer kmap req c.dev with
      | .error _ => ({ c with queue, phase := .overrun }, [.fetch (some req)])
      | .ok dev =>
        let (c, obs) := blkEndRequestAll smp req 0 { c with queue, dev }
        (c, .fetch (some req) :: obs)
  | _ => ({ c with queue := c.queue ++ arrivals }, [])

/-- The requests that have been fetched. -/
def fetched (tr : List (QueueObs Page)) : List (Request Page) :=
  tr.filterMap fun
    | .fetch req => req
    | _ => none

/-- The requests that have been completed, and with what. -/
def completed (tr : List (QueueObs Page)) : List (Request Page × Int) :=
  tr.filterMap fun
    | .complete req error => some (req, error)
    | _ => none

/-- Every request that is fetched is completed once, in order, and the lock is never taken by
the context that holds it. -/
structure LockClean (tr : List (QueueObs Page)) : Prop where
  completed : (completed tr).map Prod.fst = fetched tr
  acquired : .acquire true ∉ tr

@[simp] theorem fetched_append (l l' : List (QueueObs Page)) :
    fetched (l ++ l') = fetched l ++ fetched l' := List.filterMap_append

@[simp] theorem completed_append (l l' : List (QueueObs Page)) :
    completed (l ++ l') = completed l ++ completed l' := List.filterMap_append

variable {smp : Bool} {kmap : Page → Nat} {c : Context Page} {req : Request Page}
  {queue arrivals : List (Request Page)} {batches : List (List (Request Page))}

/-! ## Rounds -/

/-- Nothing is done outside the loop. -/
theorem trace_round_of_left (h : c.phase ≠ .looping) : trace (BlkSimp.round smp kmap) c batches = [] := by
  induction batches generalizing c with
  | nil => rfl
  | cons arrivals batches ih =>
      have hround : BlkSimp.round smp kmap arrivals c = ({ c with queue := c.queue ++ arrivals }, []) := by
        unfold BlkSimp.round
        cases hphase : c.phase with
        | looping => exact absurd hphase h
        | returned => rfl
        | spinning => rfl
        | overrun => rfl
      rw [trace_cons, hround]
      exact ih h

theorem round_of_empty (hphase : c.phase = .looping) (hqueue : c.queue ++ arrivals = []) :
    BlkSimp.round smp kmap arrivals c = ({ c with queue := [], phase := .returned }, [.fetch none]) := by
  unfold BlkSimp.round
  rw [hphase, hqueue]

theorem round_of_overrun {e : Fault} (hphase : c.phase = .looping)
    (hqueue : c.queue ++ arrivals = req :: queue) (hcopy : BlkSimp.transfer kmap req c.dev = .error e) :
    BlkSimp.round smp kmap arrivals c =
      ({ c with queue := queue, phase := .overrun }, [.fetch (some req)]) := by
  unfold BlkSimp.round
  rw [hphase, hqueue]
  dsimp only
  rw [hcopy]

theorem round_of_request {d : Dev} (hphase : c.phase = .looping)
    (hqueue : c.queue ++ arrivals = req :: queue) (hcopy : BlkSimp.transfer kmap req c.dev = .ok d) :
    BlkSimp.round smp kmap arrivals c =
      ((blkEndRequestAll smp req 0 { c with queue := queue, dev := d }).1,
        .fetch (some req) :: (blkEndRequestAll smp req 0 { c with queue := queue, dev := d }).2) := by
  unfold BlkSimp.round
  rw [hphase, hqueue]
  dsimp only
  rw [hcopy]

/-! ## Without locks -/

theorem transfer_ok (kmap : Page → Nat) (hin : req.InRange) (d : Dev) :
    ∃ d', BlkSimp.transfer kmap req d = .ok d' := by
  have hle : req.blkRqPos <<< 9 + req.blkRqBytes ≤ diskSize := hin.off_add_le
  unfold BlkSimp.transfer
  cases req.dataDir with
  | read =>
      obtain ⟨d', hd', _⟩ := d.fromDisk_spec (req.buffer kmap) hle
      exact ⟨d', hd'⟩
  | write =>
      obtain ⟨d', hd', _⟩ := d.toDisk_spec (req.buffer kmap) hle
      exact ⟨d', hd'⟩

/-- Where spin locks do nothing, the requests are completed in the order in which they have
been fetched. -/
theorem completed_eq_fetched (kmap : Page → Nat) (hqueue : ∀ req ∈ c.queue, req.InRange)
    (hbatches : ∀ arrivals ∈ batches, ∀ req ∈ arrivals, req.InRange) :
    completed (trace (BlkSimp.round false kmap) c batches) =
      (fetched (trace (BlkSimp.round false kmap) c batches)).map fun req => (req, 0) := by
  induction batches generalizing c with
  | nil => rfl
  | cons arrivals batches ih =>
      obtain ⟨harrivals, hrest⟩ := List.forall_mem_cons.mp hbatches
      have hall : ∀ req ∈ c.queue ++ arrivals, req.InRange := by
        intro req hreq
        rcases List.mem_append.mp hreq with hreq | hreq
        · exact hqueue req hreq
        · exact harrivals req hreq
      by_cases hphase : c.phase = .looping
      · rw [trace_cons, completed_append, fetched_append, List.map_append]
        cases hsplit : c.queue ++ arrivals with
        | nil =>
            rw [round_of_empty hphase hsplit, ih (by simp) hrest]
            rfl
        | cons req queue =>
            rw [hsplit] at hall
            obtain ⟨hreq, htail⟩ := List.forall_mem_cons.mp hall
            obtain ⟨d, hcopy⟩ := transfer_ok kmap hreq c.dev
            rw [round_of_request hphase hsplit hcopy, ih htail hrest]
            rfl
      · rw [trace_round_of_left hphase]
        rfl

theorem myDoQueue_cons_eq (kmap : Page → Nat) (req : Request Page) (q : List (Request Page)) (d : Dev) :
    BlkSimp.myDoQueue kmap (req :: q) d =
      (BlkSimp.transfer kmap req d).bind fun d =>
        (BlkSimp.myDoQueue kmap q d).bind fun x => .ok (0 :: x.1, x.2) := by
  rw [BlkSimp.myDoQueue]
  unfold BlkSimp.transfer
  cases req.dataDir with
  | read => rfl
  | write => rfl

/-- If nothing arrives, the rounds are those of `my_do_queue` on the queue. -/
theorem run_round_eq_myDoQueue {q : List (Request Page)} {d d' : Dev} {ended : List Int} (held : Bool)
    (h : BlkSimp.myDoQueue kmap q d = .ok (ended, d')) :
    run (BlkSimp.round false kmap) ⟨q, d, held, .looping⟩ (List.replicate q.length []) =
        ⟨[], d', held && q.isEmpty, .looping⟩ ∧
      completed (trace (BlkSimp.round false kmap) ⟨q, d, held, .looping⟩ (List.replicate q.length [])) =
        q.zip ended := by
  induction q generalizing d ended held with
  | nil =>
      cases h
      exact ⟨by simp, rfl⟩
  | cons req q ih =>
      rw [myDoQueue_cons_eq] at h
      cases hcopy : BlkSimp.transfer kmap req d with
      | error e =>
          rw [hcopy] at h
          cases h
      | ok d₁ =>
          rw [hcopy, Except.bind] at h
          cases hrest : BlkSimp.myDoQueue kmap q d₁ with
          | error e =>
              rw [hrest] at h
              cases h
          | ok x =>
              rw [hrest] at h
              cases h
              obtain ⟨hrun, hcompleted⟩ := ih false hrest
              have hround : BlkSimp.round false kmap [] ⟨req :: q, d, held, .looping⟩ = _ :=
                round_of_request rfl (List.append_nil (req :: q)) hcopy
              rw [List.length_cons, List.replicate_succ, run_cons, trace_cons, completed_append, hround]
              refine ⟨?_, ?_⟩
              · refine Eq.trans hrun ?_
                simp
              · rw [List.zip_cons_cons, ← hcompleted]
                rfl

/-! ## With the lock -/

theorem lockClean_of_empty (hphase : c.phase = .looping) (hqueue : c.queue ++ arrivals = []) :
    LockClean (trace (BlkSimp.round smp kmap) c (arrivals :: batches)) := by
  rw [trace_cons, round_of_empty hphase hqueue, trace_round_of_left (by simp)]
  exact ⟨rfl, by simp⟩

/-- A request that is fetched with the lock held is not completed, or the lock is taken twice. -/
theorem not_lockClean_of_request (hphase : c.phase = .looping) (hheld : c.held = true)
    (hqueue : c.queue ++ arrivals = req :: queue) :
    ¬ LockClean (trace (BlkSimp.round smp kmap) c (arrivals :: batches)) := by
  intro h
  cases hcopy : BlkSimp.transfer kmap req c.dev with
  | error e =>
      have hcompleted := h.completed
      rw [trace_cons, round_of_overrun hphase hqueue hcopy, trace_round_of_left (by simp)] at hcompleted
      simp [completed, fetched] at hcompleted
  | ok d =>
      apply h.acquired
      rw [trace_cons, round_of_request hphase hqueue hcopy]
      cases smp with
      | true => simp [blkEndRequestAll, hheld]
      | false => simp [blkEndRequestAll, hheld]

/-- A call keeps to the protocol of the lock and completes what it fetches, if and only if there
is no request when it looks for the first one. -/
theorem lockClean_iff_empty (smp : Bool) (kmap : Page → Nat) (q : List (Request Page)) (d : Dev)
    (batches : List (List (Request Page))) :
    LockClean (trace (BlkSimp.round smp kmap) (doQueueEntry q d) batches) ↔
      batches = [] ∨ q ++ batches.headD [] = [] := by
  cases batches with
  | nil => exact iff_of_true ⟨rfl, by simp⟩ (.inl rfl)
  | cons arrivals batches =>
      constructor
      · intro h
        refine .inr ?_
        cases hqueue : q ++ arrivals with
        | nil => exact hqueue
        | cons req queue => exact absurd h (not_lockClean_of_request rfl rfl hqueue)
      · rintro (hnil | hempty)
        · cases hnil
        · exact lockClean_of_empty rfl hempty

end

/-- On a machine with several processors the first request is never completed. -/
theorem twoPages_spins :
    (run (BlkSimp.round true (twoPagesAt 4352)) (doQueueEntry [twoPages] (.init fun _ => 7)) [[], []]).phase =
      .spinning ∧
    completed (trace (BlkSimp.round true (twoPagesAt 4352)) (doQueueEntry [twoPages] (.init fun _ => 7))
      [[], []]) = [] ∧
    ¬ LockClean (trace (BlkSimp.round true (twoPagesAt 4352)) (doQueueEntry [twoPages] (.init fun _ => 7))
      [[], []]) := by
  refine ⟨rfl, rfl, ?_⟩
  exact not_lockClean_of_request rfl rfl rfl

end Block
