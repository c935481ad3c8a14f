-- SUMMARY: The interface table under all schedules of the receiver thread and a client thread.
import LinuxShare.Netif.Interleaving

/-!
# All schedules

The mutex protects the list but not what a thread has found out under it: the address
of a node, that a name is not in the list, and the value of `list_sum`. A schedule is
safe when no step acts on one of these after the other thread has changed it.
-/

namespace Netif

open Bytes Resumable

/-- No two nodes have the same name, and between two calls the nodes are counted. -/
structure World.Intact (w : World) : Prop where
  distinct : (w.sys.table.map fun p => p.2.ifname).Nodup
  counted : (∀ u, w.Idle u) → w.sys.listSum = w.sys.nodes.length

theorem World.Inv.intact {w : World} {u : Tid} {t : Table} {K K' : Know} (h : w.Inv u t K K') :
    w.Intact where
  distinct := by
    rw [h.linked.table_eq]
    exact h.names.distinct
  counted := by
    intro hidle
    have hsum := h.sum
    have hsmall := h.small
    rw [(h.idle (hidle u)).2, (h.symm.idle (hidle u.other)).2] at hsum
    rw [h.linked.nodes_eq, List.length_map]
    omega

/-- If no step of a schedule acts on what the other thread has changed, and the messages
can be copied, then no step uses a freed node or faults otherwise, no two nodes get the
same name, and `list_sum` is right between calls. -/
theorem threads_safe (M : Malloc) (ls : List Sched)
    (h : Machine.Along (Sched.step M) Sched.Undisturbed World.init ls) :
    Machine.trace (Sched.step M) World.init ls = [] ∧
      (Machine.run (Sched.step M) World.init ls).Intact := by
  have hstep : ∀ (l : Sched) (w : World), w.Sound .receiver → l.Undisturbed w →
      (l.step M w).1.Sound .receiver ∧ ∀ m ∈ (l.step M w).2, False := by
    intro l w hw hl
    obtain ⟨hsound, hnone⟩ := World.Sound.step hw hl
    exact ⟨hsound, List.eq_nil_iff_forall_not_mem.mp hnone⟩
  obtain ⟨⟨t, K, K', hinv⟩, hnone⟩ := h.inv hstep World.sound_init
  exact ⟨List.eq_nil_iff_forall_not_mem.mpr hnone, hinv.intact⟩

/-! ## Schedules to look at -/

/-- The test of `Sched.Undisturbed` that can be executed; it takes a deletion for a
disturbance whenever the other thread is in a call. -/
def Sched.undisturbed : Sched → World → Bool
  | .receive m, _ => decide m.Copyable
  | .run u, w =>
    match (w.thread u).code with
    | .call (.link _ ifname) _ =>
      decide (ifname ∉ (w.thread u).overtaken ∧ ifname.length < ifnameSize ∧
        w.sys.nodes.length + 1 < 2 ^ 32)
    | .call (.storeSum _) _ => !(w.thread u).stale
    | .call (.del _) _ => (w.thread u.other).code.isRet
    | _ => true
  | _, _ => true

theorem Threaded.not_uses_of_isRet {code : Threaded.Code Unit} (h : code.isRet = true)
    (ifname : List UInt8) : ¬ Threaded.Uses ifname code := by
  cases code with
  | ret _ => exact not_false
  | call o k => cases h

theorem Sched.undisturbed_of {l : Sched} {w : World} (h : l.undisturbed w = true) :
    l.Undisturbed w := by
  cases l with
  | receive m =>
      have hcopy : m.Copyable := of_decide_eq_true h
      exact hcopy
  | call c => trivial
  | run u =>
      cases hc : (w.thread u).code with
      | ret _ => simp only [Sched.Undisturbed, hc]
      | call o k =>
          simp only [Sched.undisturbed, hc] at h
          simp only [Sched.Undisturbed, hc]
          cases o with
          | link a ifname =>
              have hlink := of_decide_eq_true h
              exact hlink
          | storeSum n => exact (Bool.not_eq_true' _).mp h
          | del ifname => exact Threaded.not_uses_of_isRet h ifname
          | _ => trivial

/-- The client looks up a name and adds it. -/
def addByClient (ifname : List UInt8) (n : Nat) : List Sched :=
  [.call (.find ifname), .run .client, .call (.add ifname)] ++ List.replicate n (.run .client)

/-- The receiver handles a link message for `eth0`, up to its `n`-th step. -/
def eth0ByReceiver (n : Nat) : List Sched :=
  .receive (eth0Link rtmNewlink 1) :: List.replicate n (.run .receiver)

/-- Both threads miss their names and allocate, the receiver links and counts `eth0`
between the client's link and count of `lo`, and then they take turns; at last the client
deletes `lo`, and the receiver handles an address message. -/
def takingTurns : List Sched :=
  [.call (.find lo), .receive (eth0Link rtmNewlink 1), .run .client, .run .receiver, .run .receiver,
    .run .receiver, .call (.add lo), .run .client, .run .receiver, .run .client, .run .receiver,
    .run .client, .run .client, .run .receiver, .run .receiver, .run .receiver, .run .receiver,
    .run .client, .run .receiver, .run .client] ++ List.replicate 12 (.run .receiver) ++
  [.call (.del lo), .run .client, .receive (eth0Addr rtmNewaddr 1), .run .receiver, .run .client,
    .run .receiver, .run .client] ++ List.replicate 12 (.run .receiver)

theorem threads_safe_eth0 :
    Machine.trace (Sched.step .bump) World.init takingTurns = [] ∧
    (Machine.run (Sched.step .bump) World.init takingTurns).Intact := by
  have hund : Machine.Along (Sched.step .bump) (fun l w => l.undisturbed w = true) World.init
      takingTurns := by
    decide +kernel
  exact threads_safe .bump _ (hund.imp fun l w => Sched.undisturbed_of)

/-- The receiver updates a node that the client has deleted after it was found. -/
def useAfterDelete : List Sched :=
  addByClient eth0 6 ++ eth0ByReceiver 3 ++ [.call (.del eth0), .run .client, .run .receiver]

/-- The receiver adds a name between the client's search for it and the client's own node. -/
def addTwice : List Sched :=
  [.call (.find eth0), .run .client] ++ eth0ByReceiver 20 ++ [.call (.add eth0)] ++
    List.replicate 6 (.run .client)

/-- The receiver counts its node between the client's load and store of `list_sum`. -/
def lostCount : List Sched := addByClient lo 5 ++ eth0ByReceiver 20 ++ [.run .client]

/-- Each part of what is safe without disturbance fails with one. -/
theorem disturbed_threads :
    (Mishap.usesFreed ∈ Machine.trace (Sched.step .bump) World.init useAfterDelete ∧
      Mishap.fault .badPointer ∈ Machine.trace (Sched.step .bump) World.init useAfterDelete) ∧
    ¬ ((Machine.run (Sched.step .bump) World.init addTwice).sys.table.map fun p => p.2.ifname).Nodup ∧
    ((∀ u, (Machine.run (Sched.step .bump) World.init lostCount).Idle u) ∧
      (Machine.run (Sched.step .bump) World.init lostCount).sys.listSum ≠
        (Machine.run (Sched.step .bump) World.init lostCount).sys.nodes.length) := by
  refine ⟨⟨?_, ?_⟩, ?_, ?_, ?_⟩
  · decide +kernel
  · decide +kernel
  · decide +kernel
  · intro u
    cases u with
    | receiver => decide +kernel
    | client => decide +kernel
  · decide +kernel

end Netif
