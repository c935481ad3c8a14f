-- SUMMARY: The list and its counter over runs of messages and deletions.
import LinuxShare.Netif.Runs

/-!
# The integrity of the table

Messages and `netif_node_del` calls in any order keep the list well formed, its names
distinct and the counter right. What they depend on is that no attribute copy leaves
the block of its node, and that the 32-bit counter can count the nodes.
-/

namespace Netif

open Bytes Resumable Ring

/-! ## One operation -/

/-- An operation on the table. -/
inductive Op where
  | message (m : NlMsg)
  | del (ifname : List UInt8)

namespace Op

/-- The name in a message fits the local array, and a name to delete is a string. -/
def Input : Op → Prop
  | message m => m.NameFits
  | del ifname => 0 ∉ ifname

instance : (o : Op) → Decidable o.Input
  | message m => inferInstanceAs (Decidable m.NameFits)
  | del ifname => inferInstanceAs (Decidable (0 ∉ ifname))

def exec (M : Malloc) : Op → Step Unit
  | message m => m.handle M
  | del ifname => do
    let _ ← netifNodeDel ifname
    pure ()

/-- No copy leaves the node's block, and there are fewer than `2 ^ 32 - 1` nodes when
one is added. -/
def Contained (M : Malloc) (s : Sys) : Op → Prop
  | message m => (m.targetIn M s).isSome →
    m.InBlock ∧ (s.attrOf m.name = none → s.nodes.length + 1 < 2 ^ 32)
  | del _ => True

end Op

/-- The list is a circular doubly linked list of allocated nodes with distinct names,
and the counter counts them. -/
structure WellFormed (s : Sys) : Prop where
  ring : IsRing s.links headAddr s.nodes
  nodes : s.table.map Prod.fst = s.nodes
  distinct : (s.table.map fun p => p.2.ifname).Nodup
  sum : s.listSum = s.nodes.length

theorem Good.nodes_eq {s : Sys} (h : Good s) : s.nodes = s.table.map Prod.fst := h.repr.nodes_eq

theorem Good.wellFormed {s : Sys} (h : Good s) (hlen : s.nodes.length < 2 ^ 32) : WellFormed s where
  ring := h.nodes_eq ▸ h.repr.ring
  nodes := h.nodes_eq.symm
  distinct := h.named.distinct
  sum := by
    have hsum := h.repr.sum
    rw [h.nodes_eq, List.length_map] at hlen ⊢
    rwa [Nat.mod_eq_of_lt hlen] at hsum

/-- Node counts after a message: one more if a node was added. -/
theorem Handled.length_nodes {M : Malloc} {m : NlMsg} {s s' : Sys} (h : Handled M m s s')
    (hs : Good s) : s'.nodes.length ≤ s.nodes.length ∨
      (m.targetIn M s).isSome ∧ s.attrOf m.name = none ∧
        s'.nodes.length = s.nodes.length + 1 := by
  rw [hs.nodes_eq, h.good.nodes_eq, h.table]
  simp only [List.length_map]
  unfold NlMsg.step NlMsg.targetIn NlMsg.target Sys.attrOf
  by_cases hempty : m.name = []
  · rw [if_pos hempty]
    exact .inl (Nat.le_refl _)
  · simp only [if_neg hempty]
    cases s.table.attrOf m.name with
    | some x => exact .inl (Table.length_modify _ _ _).le
    | none =>
        cases m.allocIn M s with
        | none => exact .inl (Nat.le_refl _)
        | some a => exact .inr ⟨rfl, rfl, rfl⟩

/-! ## Deletions -/

/-- `netif_node_del` returned `r`: 0 if and only if there was a node of that name, and
then it removed that node and nothing else; else it changed nothing. -/
structure Deleted (ifname : List UInt8) (s s' : Sys) (r : Int) : Prop where
  run : (netifNodeDel ifname).run s = .ok r s'
  found : r = 0 ↔ (s.attrOf ifname).isSome
  kept : r ≠ 0 → s' = s
  removed : r = 0 → ∃ t₁ p t₂, s.table = t₁ ++ p :: t₂ ∧ p.2.ifname = ifname ∧
    s'.table = t₁ ++ t₂

theorem Good.deleted {s : Sys} (h : Good s) {ifname : List UInt8} (hname : 0 ∉ ifname) :
    ∃ s' r, Deleted ifname s s' r ∧ Good s' ∧ s'.nodes.length ≤ s.nodes.length := by
  cases hfind : s.table.find ifname with
  | none =>
      have hnone : s.attrOf ifname = none := (h.named.find_eq_none hname).mp hfind
      refine ⟨s, -1, ⟨run_netifNodeDel_none h.repr hfind, ?_, fun _ => rfl, fun h => nomatch h⟩, h,
        Nat.le_refl _⟩
      rw [hnone]
      exact ⟨(nomatch ·), (nomatch ·)⟩
  | some a =>
      obtain ⟨t₁, x, t₂, htable, hx, hfirst⟩ := h.named.find_eq_some hname hfind
      have hrepr := h.repr
      have hnamed := h.named
      rw [htable] at hrepr hnamed hfind
      obtain ⟨s', hrun, hrepr', _, _⟩ := run_netifNodeDel_some hrepr hfind
      have hgood : Good s' := .of_repr hrepr' hnamed.remove
      refine ⟨s', 0, ⟨hrun, ?_, fun h => absurd rfl h, fun _ => ?_⟩, hgood, ?_⟩
      · rw [Sys.attrOf, htable, Table.attrOf_append_cons hx hfirst]
        exact ⟨fun _ => rfl, fun _ => rfl⟩
      · exact ⟨t₁, (a, x), t₂, htable, hx, hrepr'.table_eq⟩
      · rw [h.nodes_eq, hgood.nodes_eq, htable, hrepr'.table_eq]
        simp

/-! ## Runs -/

/-- Executing `ops` from the empty table ends in `s`. -/
def OpsReach (M : Malloc) (ops : List Op) (s : Sys) : Prop :=
  (ops.forM (Op.exec M)).run Sys.init = .ok () s

/-- What an operation does besides keeping the table well formed. -/
def OpEffect (M : Malloc) (s s' : Sys) : Op → Prop
  | .message m => s.attrOf m.name = none → m.allocIn M s = none →
    s'.links = s.links ∧ s'.attrs = s.attrs ∧ s'.listSum = s.listSum ∧ s'.mutex = s.mutex
  | .del ifname => ∃ r, Deleted ifname s s' r

/-- In a state with fewer than `2 ^ 32` nodes, each contained operation ends well. -/
theorem op_step {M : Malloc} {o : Op} {s : Sys} (h : Good s) (hlen : s.nodes.length < 2 ^ 32)
    (hin : o.Input) (hc : o.Contained M s) :
    ∃ s', (o.exec M).run s = .ok () s' ∧ Good s' ∧ s'.nodes.length < 2 ^ 32 ∧ OpEffect M s s' o := by
  cases o with
  | message m =>
      obtain ⟨s', hh⟩ := h.handled M hin fun htarget => (hc htarget).1
      refine ⟨s', hh.run, hh.good, ?_, fun hnone halloc => ?_⟩
      · rcases hh.length_nodes h with hle | ⟨htarget, hnone, heq⟩
        · exact hle.trans_lt hlen
        · rw [heq]
          exact (hc htarget).2 hnone
      · have htarget : m.targetIn M s = none := by
          unfold NlMsg.targetIn NlMsg.target
          rw [Sys.attrOf] at hnone
          rw [hnone, halloc]
          simp
        have hrun := (NlMsg.run_handle_none (M := M) h.repr h.named hin htarget).1
        obtain rfl := Outcome.ok_unique hh.run hrun
        exact ⟨rfl, rfl, rfl, rfl⟩
  | del ifname =>
      obtain ⟨s', r, hdel, hgood, hle⟩ := h.deleted hin
      refine ⟨s', ?_, hgood, hle.trans_lt hlen, r, hdel⟩
      rw [Op.exec, Prog.run_bind, hdel.run]
      rfl

/-- In every run of contained operations every state is well formed, a failed
allocation leaves the table as it was, and deletions do what they return. -/
theorem ops_wellFormed (M : Malloc) (ops : List Op) (hin : ∀ o ∈ ops, o.Input)
    (hc : ∀ pre o post s, ops = pre ++ o :: post → OpsReach M pre s → o.Contained M s) :
    (∀ pre, pre <+: ops → ∃ s, OpsReach M pre s ∧ WellFormed s) ∧
    ∀ pre o, pre ++ [o] <+: ops → ∃ s s', OpsReach M pre s ∧ OpsReach M (pre ++ [o]) s' ∧
      OpEffect M s s' o := by
  have hinv : ∀ pre, pre <+: ops →
      ∃ s, OpsReach M pre s ∧ Good s ∧ s.nodes.length < 2 ^ 32 := by
    intro pre hpre
    obtain ⟨rest, rfl⟩ := hpre
    refine Prog.forM_invariant (P := fun _ s => Good s ∧ s.nodes.length < 2 ^ 32)
      ⟨good_init, ?_⟩ ?_
    · rw [repr_init.nodes_eq]
      decide
    · intro front o post s hsplit hrun hs
      have hmem : o ∈ pre ++ rest := by simp [hsplit]
      have hwhole : pre ++ rest = front ++ o :: (post ++ rest) := by simp [hsplit]
      obtain ⟨s', hrun', hgood', hlen', _⟩ :=
        op_step hs.1 hs.2 (hin o hmem) (hc front o (post ++ rest) s hwhole hrun)
      exact ⟨s', hrun', hgood', hlen'⟩
  refine ⟨fun pre hpre => ?_, fun pre o hpre => ?_⟩
  · obtain ⟨s, hreach, hgood, hlen⟩ := hinv pre hpre
    exact ⟨s, hreach, hgood.wellFormed hlen⟩
  · obtain ⟨s, hreach, hgood, hlen⟩ := hinv pre ((List.prefix_append pre [o]).trans hpre)
    obtain ⟨rest, hrest⟩ := hpre
    have hsplit : ops = pre ++ o :: rest := by simp [← hrest]
    obtain ⟨s', hrun', _, _, heffect⟩ :=
      op_step hgood hlen (hin o (by simp [hsplit])) (hc pre o rest s hsplit hreach)
    exact ⟨s, s', hreach, Prog.run_forM_snoc hreach hrun', heffect⟩

theorem ops_wellFormed_eth0 :
    (∀ pre, pre <+: [.message (eth0Addr rtmNewaddr 1), .del eth0] →
      ∃ s, OpsReach .bump pre s ∧ WellFormed s) ∧
    ∀ pre o, pre ++ [o] <+: [.message (eth0Addr rtmNewaddr 1), .del eth0] →
      ∃ s s', OpsReach .bump pre s ∧ OpsReach .bump (pre ++ [o]) s' ∧ OpEffect .bump s s' o :=
  ops_wellFormed .bump _ (by decide +kernel) (by
    intro pre o post s hsplit hreach
    cases pre with
    | nil =>
        obtain ⟨rfl, _⟩ := List.cons.inj hsplit
        obtain rfl : Sys.init = s := Outcome.ok_unique (Prog.run_pure () Sys.init) hreach
        exact fun _ => ⟨by decide +kernel, fun _ => by decide +kernel⟩
    | cons _ pre =>
        obtain ⟨_, hrest⟩ := List.cons.inj hsplit
        cases pre with
        | nil =>
            obtain ⟨rfl, _⟩ := List.cons.inj hrest
            exact trivial
        | cons _ _ => simp at hrest)

/-- A hardware address of 20 bytes, as an InfiniBand interface has, leaves the block of
the node. -/
theorem long_hwaddr_overruns :
    (∀ o ∈ [Op.message (eth0Hwaddr (List.replicate 20 255) (by decide))], o.Input) ∧
    ¬ ∃ s, OpsReach .bump [.message (eth0Hwaddr (List.replicate 20 255) (by decide))] s ∧
      WellFormed s := by
  have hstuck : (([Op.message (eth0Hwaddr (List.replicate 20 255) (by decide))].forM
      (Op.exec .bump)).run Sys.init).okAnd (fun _ => true) = false := by
    decide +kernel
  refine ⟨by decide +kernel, ?_⟩
  rintro ⟨s, hreach, _⟩
  rw [Outcome.okAnd_of_eq_ok hreach] at hstuck
  cases hstuck

end Netif
