-- SUMMARY: Handling one message turns the memory of one table into the memory of the next.
import LinuxShare.Netif.Effect

/-!
# Handling a message

The table after a message is `NlMsg.step` of the table before it: nothing for a
message without a name, else `NlMsg.node` on the node of that name, which is put
in front of the list first if there is none. The name comes out of a local array,
and the array is what the message can break: a payload that is too long for it,
or that fills it without a terminator.
-/

namespace Netif

open Bytes Resumable

/-! ## New nodes -/

theorem strncpy_eq {n : Nat} {src : List UInt8} (h : src.length ≤ n) :
    strncpy n src = src ++ List.replicate (n - src.length) 0 := by
  rw [strncpy, List.take_of_length_le h]

theorem cstr_append_replicate {name : List UInt8} {k : Nat} (h : 0 ∉ name) (hk : k ≠ 0) :
    cstr (name ++ List.replicate k 0) = name := by
  have hall : ∀ b ∈ name, (decide (b ≠ 0)) = true := by
    intro b hb
    exact decide_eq_true fun heq => h (heq ▸ hb)
  cases k with
  | zero => exact absurd rfl hk
  | succ k => rw [cstr, List.takeWhile_append_of_pos hall]; simp [List.replicate_succ]

/-- The attributes of a node that `netif_node_add` has just made. -/
def freshAttr (name : List UInt8) : Attr := Attr.zero.setIfname name

theorem slice_freshAttr {name : List UInt8} (hlen : name.length < ifnameSize) :
    (freshAttr name).slice 0 ifnameSize =
      name ++ List.replicate (ifnameSize - name.length) 0 := by
  have hsize : (strncpy ifnameSize name).length = ifnameSize := by
    rw [strncpy_eq hlen.le, List.length_append, List.length_replicate]
    omega
  have hslice := Mem.slice_write_self Attr.zero 0 (strncpy ifnameSize name)
  rw [hsize, strncpy_eq hlen.le] at hslice
  rw [freshAttr, Attr.setIfname, strncpy_eq hlen.le, hslice]

theorem zero_mem_freshAttr {name : List UInt8} (hlen : name.length < ifnameSize) :
    0 ∈ (freshAttr name).slice 0 ifnameSize := by
  rw [slice_freshAttr hlen]
  exact List.mem_append_right name (by simp; omega)

theorem ifname_freshAttr {name : List UInt8} (h : 0 ∉ name) (hlen : name.length < ifnameSize) :
    (freshAttr name).ifname = name := by
  rw [Attr.ifname, slice_freshAttr hlen, cstr_append_replicate h (by omega)]

theorem streq_freshAttr {name : List UInt8} (h : 0 ∉ name) (hlen : name.length < ifnameSize) :
    streq (freshAttr name) 0 name = true :=
  (streq_iff h (zero_mem_freshAttr hlen)).mpr (ifname_freshAttr h hlen)

/-- All other attributes of a new node are zero. -/
theorem agree_freshAttr (name : List UInt8) (hi : Nat) :
    (freshAttr name).Agree Attr.zero ifnameSize hi := by
  refine Mem.agree_write (.inr ?_)
  simp only [strncpy, List.length_append, List.length_take, List.length_replicate]
  omega

theorem up_freshAttr (name : List UInt8) : (freshAttr name).up = false :=
  Attr.up_congr ((agree_freshAttr name 17).mono (by decide) (Nat.le_refl 17))

theorem ipaddr_freshAttr (name : List UInt8) : (freshAttr name).ipaddr = List.replicate 4 0 :=
  Mem.slice_congr ((agree_freshAttr name 38).mono (by decide) (Nat.le_refl 38))

theorem currentState_freshAttr (name : List UInt8) : (freshAttr name).currentState = 0 :=
  Mem.le32_congr ((agree_freshAttr name 28).mono (by decide) (Nat.le_refl 28))

/-! ## The name of a message -/

/-- The state with `evs` added to what has been observed. -/
def Sys.emits (s : Sys) (evs : List Event) : Sys := { s with trace := s.trace ++ evs }

theorem Repr.emits {s : Sys} {t : Table} (h : Repr s t) (evs : List Event) : Repr (s.emits evs) t :=
  h.congr rfl rfl rfl rfl rfl

@[simp] theorem Sys.emits_nil (s : Sys) : s.emits [] = s := by simp [Sys.emits]

theorem run_dispatchPayload_ifname {s : Sys} {payload : List UInt8}
    (h : payload.length ≤ ifnameSize) :
    (dispatchPayload payload (Mem.ofList []) copyToIfname).run s =
      .ok (Mem.ofList payload) (s.emits (copyEvents .ifname payload)) := by
  unfold dispatchPayload copyEvents
  cases payload with
  | nil => simp
  | cons b bs =>
      rw [if_pos (by simp), if_pos (by simp), copyToIfname, Prog.run_atom, if_pos h]
      rfl

theorem run_dispatchPayload_ifname_overrun {s : Sys} {payload : List UInt8}
    (h : ¬ payload.length ≤ ifnameSize) :
    (dispatchPayload payload (Mem.ofList []) copyToIfname).run s =
      .fault .overrun (s.emit (.copy .ifname payload.length)) := by
  have hpos : 0 < payload.length := by omega
  rw [dispatchPayload, if_pos hpos, copyToIfname, Prog.run_atom, if_neg h]

namespace NlMsg

variable {m : NlMsg} {s : Sys} {t : Table} {M : Malloc}

theorem zero_notMem_name (m : NlMsg) : 0 ∉ m.name := zero_notMem_cstr _

theorem NameFits.length_name (h : m.NameFits) : m.name.length < ifnameSize := by
  have hlt := length_cstr_lt h.2
  rwa [Mem.length_slice] at hlt

/-- The state in which the handler has its name. -/
def afterName (m : NlMsg) (s : Sys) : Sys := s.emits (copyEvents .ifname m.namePayload)

/-- Up to the name, a handler only reads. -/
theorem run_handle_name (h : m.NameFits) :
    (m.handle M).run s =
      (if m.name = [] then pure ()
        else findOrAdd M m.name >>= fun r => match r with
          | none => pure ()
          | some node => m.body m.name node).run (m.afterName s) := by
  have hlocal : localString (Mem.ofList m.namePayload) = pure m.name := if_pos h.2
  rw [handle_eq, withNode, Prog.run_bind, run_dispatchPayload_ifname h.1, Outcome.bind_ok, hlocal,
    pure_bind]
  simp only [List.length_eq_zero_iff]
  rfl

theorem run_handle_fault (h : ¬ m.NameFits) : ∃ e s', (m.handle M).run s = .fault e s' := by
  rw [handle_eq, withNode, Prog.run_bind]
  by_cases hlen : m.namePayload.length ≤ ifnameSize
  · have hterm : ¬ 0 ∈ (Mem.ofList m.namePayload).slice 0 ifnameSize := fun hz => h ⟨hlen, hz⟩
    rw [run_dispatchPayload_ifname hlen, Outcome.bind_ok, Prog.run_bind, localString, if_neg hterm]
    exact ⟨_, _, by rw [fail, Prog.run_atom]; rfl⟩
  · rw [run_dispatchPayload_ifname_overrun hlen]
    exact ⟨_, _, rfl⟩

/-! ## The table after a message -/

/-- The attributes that the handler starts from: the named node's, or a new
node's when `alloc` is where `malloc` put one. -/
def target (m : NlMsg) (alloc : Option Addr) (t : Table) : Option Attr :=
  if m.name = [] then none
  else match t.attrOf m.name with
    | some x => some x
    | none => alloc.map fun _ => freshAttr m.name

/-- The table after the message. -/
def step (m : NlMsg) (alloc : Option Addr) (t : Table) : Table :=
  if m.name = [] then t
  else match t.attrOf m.name, alloc with
    | some _, _ => Table.modify m.name m.node t
    | none, some a => (a, m.node (freshAttr m.name)) :: t
    | none, none => t

/-- What the handling of the message adds to the trace. -/
def eventsOn (m : NlMsg) (alloc : Option Addr) (t : Table) : List Event :=
  copyEvents .ifname m.namePayload ++ (m.target alloc t).elim [] m.events

theorem isLink_or_isAddr (h : m.name ≠ []) : m.IsLink ∨ m.IsAddr := by
  by_contra hnot
  have hnone : m.namePayload = [] := if_neg hnot
  exact h (by rw [name, hnone]; rfl)

/-- Where there is no node for the message, nothing but the name's copy happens. -/
theorem run_handle_none (h : Repr s t) (hn : t.Named) (hname : m.NameFits)
    (htarget : m.target (M.choose (m.afterName s)) t = none) :
    (m.handle M).run s = .ok () (m.afterName s) ∧ m.step (M.choose (m.afterName s)) t = t := by
  have h₀ : Repr (m.afterName s) t := h.emits _
  rw [run_handle_name hname]
  unfold target at htarget
  unfold step
  by_cases hempty : m.name = []
  · simp only [if_pos hempty]
    exact ⟨rfl, trivial⟩
  · rw [if_neg hempty] at htarget
    cases hattr : t.attrOf m.name with
    | some x =>
        rw [hattr] at htarget
        cases htarget
    | none =>
        rw [hattr] at htarget
        have hM : M.choose (m.afterName s) = none := Option.map_eq_none_iff.mp htarget
        have hfind := (hn.find_eq_none m.zero_notMem_name).mpr hattr
        simp only [if_neg hempty, Prog.run_bind, findOrAdd, run_netifNodeFind h₀ m.name, hfind,
          Outcome.bind_ok, run_netifNodeAdd_none hM, hM]
        exact ⟨rfl, trivial⟩

/-- Otherwise the handler goes on with the node, in a memory that has it. -/
theorem run_handle_some (h : Repr s t) (hn : t.Named) (hname : m.NameFits) {x : Attr}
    (htarget : m.target (M.choose (m.afterName s)) t = some x) :
    ∃ s₁ t₁ a t₂, (m.handle M).run s = (m.body m.name a).run s₁ ∧
      Repr s₁ (t₁ ++ (a, x) :: t₂) ∧ streq x 0 m.name = true ∧
      (∀ p ∈ t₁, streq p.2 0 m.name = false) ∧ s₁.trace = (m.afterName s).trace ∧
      s₁.early = s.early ∧
      m.step (M.choose (m.afterName s)) t = t₁ ++ (a, m.node x) :: t₂ ∧
      (t.attrOf m.name = some x → s₁ = m.afterName s) := by
  have h₀ : Repr (m.afterName s) t := h.emits _
  have hzero := m.zero_notMem_name
  rw [run_handle_name hname]
  unfold target at htarget
  unfold step
  by_cases hempty : m.name = []
  · rw [if_pos hempty] at htarget
    cases htarget
  · simp only [if_neg hempty] at htarget
    simp only [if_neg hempty, Prog.run_bind, findOrAdd, run_netifNodeFind h₀ m.name, Outcome.bind_ok]
    cases hfind : t.find m.name with
    | some a =>
        obtain ⟨t₁, y, t₂, rfl, hy, hfirst⟩ := hn.find_eq_some hzero hfind
        have hstreq : ∀ p ∈ t₁ ++ (a, y) :: t₂, streq p.2 0 m.name = decide (Attr.ifname p.2 = m.name) :=
          fun p hp => hn.streq_eq hp hzero
        rw [Table.attrOf_append_cons hy hfirst] at htarget ⊢
        obtain rfl := Option.some.inj htarget
        refine ⟨m.afterName s, t₁, a, t₂, rfl, h₀, ?_, ?_, rfl, rfl, ?_, fun _ => rfl⟩
        · exact (hstreq (a, y) (by simp)).trans (decide_eq_true hy)
        · exact fun p hp => (hstreq p (by simp [hp])).trans (decide_eq_false (hfirst p hp))
        · exact Table.modify_append_cons hy hfirst
    | none =>
        have hattr := (hn.find_eq_none hzero).mp hfind
        rw [hattr] at htarget ⊢
        obtain ⟨a, hM, rfl⟩ := Option.map_eq_some_iff.mp htarget
        obtain ⟨s₁, hadd, hrepr₁, htrace₁, hearly₁⟩ := run_netifNodeAdd_some h₀ hM m.name
        refine ⟨s₁, [], a, t, ?_, hrepr₁, streq_freshAttr hzero hname.length_name, by simp, htrace₁,
          hearly₁, by rw [hM]; rfl, (nomatch ·)⟩
        simp only [hadd, Outcome.bind_ok]

/-- The body of a handler on the first node that has the name. -/
theorem run_body_of_repr {t₁ t₂ : Table} {a : Addr} {x : Attr}
    (h : Repr s (t₁ ++ (a, x) :: t₂)) (hm : m.IsLink ∨ m.IsAddr) (hb : m.InBlock)
    (hname : m.NameFits) (hx : streq x 0 m.name = true)
    (hfirst : ∀ p ∈ t₁, streq p.2 0 m.name = false) :
    (m.body m.name a).run s = .ok () (s.focus .unlocked a (m.node x) (m.events x)) := by
  have hfocus : (m.body m.name a).run (s.focus .unlocked a x []) =
      .ok () (s.focus .unlocked a (m.node x) ([] ++ m.events x)) :=
    NlMsg.run_body hm hb (h.foundAt hfirst) hx hname.length_name
  rwa [focus_self h.mutex h.lookup_mid] at hfocus

/-- Handling a message whose name fits, and whose attributes stay inside the node if
there is one to copy them into, from the memory of `t`. -/
theorem run_handle (h : Repr s t) (hn : t.Named) (hname : m.NameFits)
    (hb : (m.target (M.choose (m.afterName s)) t).isSome → m.InBlock) :
    ∃ s', (m.handle M).run s = .ok () s' ∧ Repr s' (m.step (M.choose (m.afterName s)) t) ∧
      s'.trace = s.trace ++ m.eventsOn (M.choose (m.afterName s)) t ∧ s'.early = s.early := by
  unfold eventsOn
  cases htarget : m.target (M.choose (m.afterName s)) t with
  | none =>
      obtain ⟨hrun, hstep⟩ := run_handle_none h hn hname htarget
      rw [hstep]
      exact ⟨_, hrun, h.emits _, by simp [afterName, Sys.emits], rfl⟩
  | some x =>
      obtain ⟨s₁, t₁, a, t₂, hrun, hrepr, hx, hfirst, htrace, hearly, hstep, _⟩ :=
        run_handle_some h hn hname htarget
      have hempty : m.name ≠ [] := by
        intro hempty
        rw [target, if_pos hempty] at htarget
        cases htarget
      have hbody := run_body_of_repr hrepr (isLink_or_isAddr hempty) (hb (by rw [htarget]; rfl)) hname
        hx hfirst
      rw [hstep]
      refine ⟨_, hrun.trans hbody, hrepr.focus (m.node x) _, ?_, hearly⟩
      rw [focus_trace, htrace, afterName, Sys.emits, List.append_assoc]
      rfl

/-! ## Names after a message -/

theorem slice_node (x : Attr) : (m.node x).slice 0 ifnameSize = x.slice 0 ifnameSize :=
  Mem.slice_congr (m.agree_node.mono (Nat.le_refl 0) (by decide))

theorem ifname_node (x : Attr) : (m.node x).ifname = x.ifname := by
  rw [Attr.ifname, slice_node, Attr.ifname]

/-- The table after a message has names again. -/
theorem named_step (h : t.Named) (hname : m.NameFits) (alloc : Option Addr) :
    (m.step alloc t).Named := by
  unfold step
  by_cases hempty : m.name = []
  · rwa [if_pos hempty]
  · rw [if_neg hempty]
    cases hattr : t.attrOf m.name with
    | some x => exact h.modify slice_node
    | none =>
        cases alloc with
        | none => exact h
        | some a =>
            have hifname : (m.node (freshAttr m.name)).ifname = m.name := by
              rw [ifname_node, ifname_freshAttr m.zero_notMem_name hname.length_name]
            apply h.cons
            · rw [slice_node]
              exact zero_mem_freshAttr hname.length_name
            · rwa [hifname]
            · rwa [hifname]

/-- A message only changes the node it names. -/
theorem attrOf_step (h : t.Named) (hname : m.NameFits) (alloc : Option Addr) (n : List UInt8) :
    (m.step alloc t).attrOf n =
      if n = m.name then (m.target alloc t).map m.node else t.attrOf n := by
  unfold step target
  by_cases hempty : m.name = []
  · have hnone : t.attrOf [] = none := Table.attrOf_eq_none.mpr h.nonempty
    simp only [if_pos hempty]
    split
    · next hn => rw [hn, hempty, hnone]; rfl
    · rfl
  · simp only [if_neg hempty]
    cases hattr : t.attrOf m.name with
    | some x => rw [Table.attrOf_modify slice_node, hattr]
    | none =>
        cases alloc with
        | none =>
            by_cases hn : n = m.name
            · rw [if_pos hn, hn, hattr]
              rfl
            · rw [if_neg hn]
        | some a =>
            have hifname : (m.node (freshAttr m.name)).ifname = m.name := by
              rw [ifname_node, ifname_freshAttr m.zero_notMem_name hname.length_name]
            rw [Table.attrOf_cons, hifname]
            simp only [eq_comm]
            rfl

end NlMsg

end Netif
