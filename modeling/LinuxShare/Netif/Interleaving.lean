-- SUMMARY: What every step of the receiver and the client keeps, and under which condition.
import LinuxShare.Netif.Discipline
import LinuxShare.Netif.LinkedNodes

/-!
# Steps of two threads

In every state between two steps, the list is well formed, each thread knows what its
next operation needs, and `list_sum` is the number of nodes up to what the threads
still owe to it. A step keeps this unless it acts on something that the other thread
has changed since.
-/

namespace Netif

open Bytes Resumable

/-! ## What a thread knows -/

theorem length_strncpy (n : Nat) (src : List UInt8) : (strncpy n src).length = n := by
  rw [strncpy, List.length_append, List.length_take, List.length_replicate]
  omega

theorem slice_setIfname (x : Attr) (name : List UInt8) :
    (x.setIfname name).slice 0 ifnameSize = strncpy ifnameSize name := by
  have hslice := Mem.slice_write_self x 0 (strncpy ifnameSize name)
  rwa [length_strncpy] at hslice

/-- A name that fits is terminated, and read back as it was written. -/
theorem name_of_slice {x : Attr} {name : List UInt8} (hzero : 0 ∉ name)
    (hlen : name.length < ifnameSize) (hx : x.slice 0 ifnameSize = strncpy ifnameSize name) :
    0 ∈ x.slice 0 ifnameSize ∧ x.ifname = name := by
  have hfresh : x.slice 0 ifnameSize = (freshAttr name).slice 0 ifnameSize := by
    rw [hx, freshAttr, slice_setIfname]
  exact ⟨hfresh ▸ zero_mem_freshAttr hlen, (congrArg cstr hfresh).trans (ifname_freshAttr hzero hlen)⟩

/-- What the thread knows is so. -/
structure Know.Holds (K : Know) (th : Thread) (s : Sys) (t : Table) : Prop where
  node : ∀ a n, K.node = some (a, n) → a ∉ th.freed ∧ ∃ x, (a, x) ∈ t ∧ x.ifname = n
  new : ∀ a o, K.new = some (a, o) → a ∉ th.freed ∧ a ∉ headAddr :: t.map Prod.fst ∧
    ∃ x, s.attrs.lookup a = some x ∧ ∀ n, o = some n → x.slice 0 ifnameSize = strncpy ifnameSize n
  absent : ∀ n ∈ K.absent, n ∈ th.notFound
  notFound : ∀ n ∈ th.notFound, n ∉ th.overtaken → ∀ p ∈ t, p.2.ifname ≠ n
  seen : ∀ v, K.seen = some v → th.stale = false → s.listSum = v

namespace Know.Holds

variable {K : Know} {th : Thread} {s s' : Sys} {t t' : Table}

theorem withCode (h : K.Holds th s t) (code : Threaded.Code Unit) :
    K.Holds { th with code := code } s t := ⟨h.node, h.new, h.absent, h.notFound, h.seen⟩

/-- A step that keeps nodes, names and `list_sum`, and the thread's own new node. -/
theorem frame (h : K.Holds th s t) (hnode : ∀ p ∈ t, ∃ y, (p.1, y) ∈ t' ∧ y.ifname = p.2.ifname)
    (hback : ∀ q ∈ t', ∃ p ∈ t, p.1 = q.1 ∧ p.2.ifname = q.2.ifname)
    (hnew : ∀ a o, K.new = some (a, o) → s'.attrs.lookup a = s.attrs.lookup a)
    (hsum : s'.listSum = s.listSum) : K.Holds th s' t' where
  node := by
    intro a n hK
    obtain ⟨hfreed, x, hx, hname⟩ := h.node a n hK
    obtain ⟨y, hy, hyname⟩ := hnode (a, x) hx
    exact ⟨hfreed, y, hy, hyname.trans hname⟩
  new := by
    intro a o hK
    obtain ⟨hfreed, hout, x, hx, hname⟩ := h.new a o hK
    refine ⟨hfreed, fun hmem => hout ?_, x, (hnew a o hK).trans hx, hname⟩
    rcases List.mem_cons.mp hmem with rfl | hmem
    · exact List.mem_cons_self
    · obtain ⟨q, hq, rfl⟩ := List.mem_map.mp hmem
      obtain ⟨p, hp, heq, _⟩ := hback q hq
      exact List.mem_cons_of_mem _ (heq ▸ List.mem_map_of_mem hp)
  absent := h.absent
  notFound := by
    intro n hn hover q hq
    obtain ⟨p, hp, _, hname⟩ := hback q hq
    exact hname ▸ h.notFound n hn hover p hp
  seen := fun v hv hstale => hsum.trans (h.seen v hv hstale)

theorem frame_same (h : K.Holds th s t)
    (hnew : ∀ a o, K.new = some (a, o) → s'.attrs.lookup a = s.attrs.lookup a)
    (hsum : s'.listSum = s.listSum) : K.Holds th s' t :=
  h.frame (fun p hp => ⟨p.2, hp, rfl⟩) (fun q hq => ⟨q, hq, rfl, rfl⟩) hnew hsum

/-- The thread has found that the list has no node of the name. -/
theorem find_none {ifname : List UInt8} (h : K.Holds th s t) (hout : ∀ p ∈ t, p.2.ifname ≠ ifname) :
    Know.Holds { K with node := none, absent := ifname :: K.absent }
      ((TableOp.find ifname).mark none th) s t where
  node := by simp
  new := h.new
  absent := List.forall_mem_cons.mpr ⟨List.mem_cons_self,
    fun n hn => List.mem_cons_of_mem _ (h.absent n hn)⟩
  notFound := by
    intro n hn hover
    by_cases heq : n = ifname
    · exact heq ▸ hout
    · refine h.notFound n ((List.mem_cons.mp hn).resolve_left heq) fun hmem => hover ?_
      exact List.mem_filter.mpr ⟨hmem, by simpa using heq⟩
  seen := h.seen

/-- The thread has found a node. -/
theorem find_some {a : Addr} {x : Attr} {ifname : List UInt8} (h : K.Holds th s t) (hx : (a, x) ∈ t)
    (hname : x.ifname = ifname) :
    Know.Holds { K with node := some (a, ifname), absent := K.absent.filter (· ≠ ifname) }
      ((TableOp.find ifname).mark (some a) th) s t where
  node := by
    intro b n hK
    cases hK
    exact ⟨by simp [TableOp.mark], x, hx, hname⟩
  new := by
    intro b o hK
    obtain ⟨hfreed, hrest⟩ := h.new b o hK
    exact ⟨fun hmem => hfreed (List.mem_filter.mp hmem).1, hrest⟩
  absent := by
    intro n hn
    obtain ⟨hn, hne⟩ := List.mem_filter.mp hn
    exact List.mem_filter.mpr ⟨h.absent n hn, hne⟩
  notFound := fun n hn => h.notFound n (List.mem_filter.mp hn).1
  seen := h.seen

/-- The thread has linked its new node. -/
theorem link_own {a : Addr} {x : Attr} {ifname : List UInt8} {links : Ring.LinkMem Addr}
    (h : K.Holds th s t) (hfreed : a ∉ th.freed) (hname : x.ifname = ifname) :
    Know.Holds
      { K with
        node := some (a, ifname)
        new := none
        absent := K.absent.filter (· ≠ ifname)
        owed := 1 }
      ((TableOp.link a ifname).mark () th) { s with links := links } ((a, x) :: t) where
  node := by
    intro b n hK
    cases hK
    exact ⟨hfreed, x, List.mem_cons_self, hname⟩
  new := by simp
  absent := by
    intro n hn
    obtain ⟨hn, hne⟩ := List.mem_filter.mp hn
    exact List.mem_filter.mpr ⟨h.absent n hn, hne⟩
  notFound := by
    intro n hn hover p hp
    obtain ⟨hn, hne⟩ := List.mem_filter.mp hn
    rcases List.mem_cons.mp hp with rfl | hp
    · rw [hname]
      exact fun heq => by simp [heq] at hne
    · exact h.notFound n hn hover p hp
  seen := h.seen

/-- The other thread has linked a node. -/
theorem link_other {a : Addr} {x : Attr} {ifname : List UInt8} {links : Ring.LinkMem Addr}
    (h : K.Holds th s t) (hname : x.ifname = ifname) (hapart : ∀ o, K.new ≠ some (a, o)) :
    K.Holds ((TableOp.link a ifname).overtake () th) { s with links := links } ((a, x) :: t) where
  node := by
    intro b n hK
    obtain ⟨hfreed, y, hy, hyname⟩ := h.node b n hK
    exact ⟨hfreed, y, List.mem_cons_of_mem _ hy, hyname⟩
  new := by
    intro b o hK
    obtain ⟨hfreed, hout, hrest⟩ := h.new b o hK
    refine ⟨hfreed, fun hmem => ?_, hrest⟩
    rcases List.mem_cons.mp hmem with rfl | hmem
    · exact hout List.mem_cons_self
    · rcases List.mem_cons.mp hmem with rfl | hmem
      · exact hapart o hK
      · exact hout (List.mem_cons_of_mem _ hmem)
  absent := h.absent
  notFound := by
    intro n hn hover p hp
    obtain ⟨hne, hover⟩ := not_or.mp fun hmem => hover (List.mem_cons.mpr hmem)
    rcases List.mem_cons.mp hp with rfl | hp
    · rw [hname]
      exact fun heq => hne heq.symm
    · exact h.notFound n hn hover p hp
  seen := h.seen

/-- A node that the thread does not know is deleted. -/
theorem deleted {t₁ t₂ : Table} {a : Addr} {x : Attr} {ifname : List UInt8}
    (h : K.Holds th s (t₁ ++ (a, x) :: t₂))
    (hdistinct : Table.Distinct (t₁ ++ (a, x) :: t₂)) (hx : x.ifname = ifname)
    (hnode : ∀ n, K.node ≠ some (a, n)) (hattrs : s'.attrs = s.attrs.erase a)
    (hsum : s'.listSum = s.listSum) :
    K.Holds ((TableOp.del ifname).delete (some a) th) s' (t₁ ++ t₂) where
  node := by
    intro b n hK
    obtain ⟨hfreed, y, hy, hyname⟩ := h.node b n hK
    have hne : b ≠ a := fun heq => hnode n (heq ▸ hK)
    refine ⟨fun hmem => ?_, y, ?_, hyname⟩
    · exact hfreed ((List.mem_cons.mp hmem).resolve_left hne)
    · rcases List.mem_append.mp hy with hy | hy
      · exact List.mem_append_left _ hy
      · refine List.mem_append_right _ ((List.mem_cons.mp hy).resolve_left fun heq => hne ?_)
        exact congrArg Prod.fst heq
  new := by
    intro b o hK
    obtain ⟨hfreed, hout, y, hy, hyname⟩ := h.new b o hK
    have hne : b ≠ a := by
      rintro rfl
      exact hout (by simp)
    refine ⟨fun hmem => ?_, fun hmem => hout ?_, y, ?_, hyname⟩
    · exact hfreed ((List.mem_cons.mp hmem).resolve_left hne)
    · rw [List.map_append, List.mem_cons, List.mem_append] at hmem
      rw [List.map_append, List.map_cons, List.mem_cons, List.mem_append, List.mem_cons]
      exact hmem.imp_right (Or.imp_right .inr)
    · rw [hattrs, Finmap.lookup_erase_ne hne, hy]
  absent := h.absent
  notFound := by
    intro n hn hover p hp
    by_cases heq : n = ifname
    · rw [heq, ← hx]
      exact hdistinct.ne_of_mem_rest p hp
    · refine h.notFound n hn (fun hmem => hover ?_) p ?_
      · exact List.mem_filter.mpr ⟨hmem, by simpa using heq⟩
      · rcases List.mem_append.mp hp with hp | hp <;> simp [hp]
  seen := fun v hv hstale => hsum.trans (h.seen v hv hstale)

end Know.Holds

/-! ## Two threads -/

/-- The operation acts on what the thread has found before: the name that it links has
not been linked by the other thread since, `list_sum` has not been stored by the other
thread since, and the other thread does not use the node that it deletes any more. Names
fit their array, and the counter can count the nodes. -/
def TableOp.Undisturbed (th other : Thread) (s : Sys) : {β : Type} → TableOp β → Prop
  | _, .link _ ifname =>
    ifname ∉ th.overtaken ∧ ifname.length < ifnameSize ∧ s.nodes.length + 1 < 2 ^ 32
  | _, .storeSum _ => th.stale = false
  | _, .del ifname => ¬ Threaded.Uses ifname other.code
  | _, _ => True

namespace Tid

theorem other_ne (u : Tid) : u.other ≠ u := by cases u <;> decide

theorem other_other (u : Tid) : u.other.other = u := by cases u <;> rfl

end Tid

theorem TableOp.code_overtake {β : Type} (o : TableOp β) (b : β) (th : Thread) :
    (o.delete b (o.overtake b th)).code = th.code := by
  cases o with
  | del ifname => cases b <;> rfl
  | _ => rfl

namespace World

variable {w : World} {u : Tid} {β : Type} {o : TableOp β} {b : β} {s : Sys}
  {code : Threaded.Code Unit}

theorem after_self : (w.after u o b s code).thread u =
    { o.delete b (o.mark b (w.thread u)) with code := code } := if_pos rfl

theorem after_other : (w.after u o b s code).thread u.other =
    o.delete b (o.overtake b (w.thread u.other)) := if_neg u.other_ne

/-- The list is `t`, thread `u` knows `K` and the other one `K'`. -/
structure Inv (w : World) (u : Tid) (t : Table) (K K' : Know) : Prop where
  defined : w.undefined = false
  linked : Linked w.sys t
  names : t.Distinct
  small : t.length < 2 ^ 32
  sum : (w.sys.listSum : Int) = (t.length - (K.owed + K'.owed)) % 2 ^ 32
  code : Disciplined (fun _ K => K.Idle) K (w.thread u).code
  holds : K.Holds (w.thread u) w.sys t
  code' : Disciplined (fun _ K => K.Idle) K' (w.thread u.other).code
  holds' : K'.Holds (w.thread u.other) w.sys t
  apart : ∀ a o o', K.new = some (a, o) → K'.new ≠ some (a, o')

/-- The invariant of all schedules. -/
def Sound (w : World) (u : Tid) : Prop := ∃ t K K', w.Inv u t K K'

theorem Inv.symm {t : Table} {K K' : Know} (h : w.Inv u t K K') : w.Inv u.other t K' K where
  defined := h.defined
  linked := h.linked
  names := h.names
  small := h.small
  sum := by rw [Int.add_comm, h.sum]
  code := h.code'
  holds := h.holds'
  code' := by rw [u.other_other]; exact h.code
  holds' := by rw [u.other_other]; exact h.holds
  apart := fun a o o' hK' hK => h.apart a o' o hK hK'

theorem Sound.swap (h : w.Sound u) (v : Tid) : w.Sound v := by
  obtain ⟨t, K, K', h⟩ := h
  by_cases hv : v = u
  · exact ⟨t, K, K', hv ▸ h⟩
  · have hother : v = u.other := by cases u <;> cases v <;> first | rfl | exact absurd rfl hv
    exact ⟨t, K', K, hother ▸ h.symm⟩

theorem Inv.of_after {t : Table} {K K' : Know} (defined : w.undefined = false)
    (linked : Linked s t) (names : t.Distinct) (small : t.length < 2 ^ 32)
    (sum : (s.listSum : Int) = (t.length - (K.owed + K'.owed)) % 2 ^ 32)
    (hcode : Disciplined (fun _ K => K.Idle) K code)
    (holds : K.Holds (o.delete b (o.mark b (w.thread u))) s t)
    (hcode' : Disciplined (fun _ K => K.Idle) K' (w.thread u.other).code)
    (holds' : K'.Holds (o.delete b (o.overtake b (w.thread u.other))) s t)
    (apart : ∀ a o o', K.new = some (a, o) → K'.new ≠ some (a, o')) :
    (w.after u o b s code).Inv u t K K' where
  defined := defined
  linked := linked
  names := names
  small := small
  sum := sum
  code := by rw [after_self]; exact hcode
  holds := by rw [after_self]; exact holds.withCode code
  code' := by rw [after_other, o.code_overtake]; exact hcode'
  holds' := by rw [after_other]; exact holds'
  apart := apart

/-- What may come of thread `u` executing `o` and going on with `k`. -/
def Goes (M : Malloc) (w : World) (u : Tid) (o : TableOp β) (k : β → Threaded.Code Unit) : Prop :=
  ¬ o.UsesFreed (w.thread u) ∧
    ∃ b s, (o.exec M).run w.sys = .ok b s ∧ (w.after u o b s (k b)).Sound u

namespace Inv

variable {t : Table} {K K' : Know} {M : Malloc} {a : Addr} {ifname : List UInt8}

theorem own {p : Step β} {k : β → Threaded.Code Unit} (h : w.Inv u t K K')
    (hcode : (w.thread u).code = .call (.own p) k) : w.Goes M u (.own p) k := by
  obtain ⟨hp, hk⟩ : OnOwn p ∧ ∀ b, _ → Disciplined _ K (k b) := hcode ▸ h.code
  obtain ⟨b, evs, hrun⟩ := hp w.sys
  refine ⟨not_false, b, w.sys.emits evs, hrun, t, K, K', ?_⟩
  exact .of_after h.defined (h.linked.emits evs) h.names h.small h.sum (hk b ⟨_, _, hrun⟩)
    (h.holds.frame_same (fun _ _ _ => rfl) rfl) h.code'
    (h.holds'.frame_same (fun _ _ _ => rfl) rfl) h.apart

theorem find {k : Option Addr → Threaded.Code Unit} (h : w.Inv u t K K')
    (hcode : (w.thread u).code = .call (.find ifname) k) : w.Goes M u (.find ifname) k := by
  obtain ⟨hname, hsome, hnone⟩ : 0 ∉ ifname ∧ (∀ a, Disciplined _ _ (k (some a))) ∧
      Disciplined _ _ (k none) := hcode ▸ h.code
  have hrun : ((TableOp.find ifname).exec M).run w.sys = .ok (t.find ifname) w.sys :=
    h.linked.run_netifNodeFind ifname
  refine ⟨not_false, t.find ifname, w.sys, hrun, t, ?_⟩
  cases hfind : t.find ifname with
  | none =>
      have hout := (Table.find_eq_none_iff h.names.terminated hname).mp hfind
      exact ⟨{ K with node := none, absent := ifname :: K.absent }, K', .of_after h.defined h.linked h.names
        h.small h.sum hnone (h.holds.find_none hout) h.code' h.holds' h.apart⟩
  | some a =>
      obtain ⟨t₁, x, t₂, ht, hx, _⟩ := Table.ifname_of_find h.names.terminated hname hfind
      have hmem : (a, x) ∈ t := by simp [ht]
      exact ⟨{ K with node := some (a, ifname), absent := K.absent.filter (· ≠ ifname) }, K',
        .of_after h.defined h.linked h.names h.small h.sum (hsome a) (h.holds.find_some hmem hx) h.code'
          h.holds' h.apart⟩

/-- A block that is new to the list is none of the other thread's. -/
theorem malloc {k : Option Addr → Threaded.Code Unit} (h : w.Inv u t K K')
    (hcode : (w.thread u).code = .call .malloc k) : w.Goes M u .malloc k := by
  obtain ⟨hnew, hsome, hnone⟩ : K.new = none ∧ (∀ a, Disciplined _ _ (k (some a))) ∧
      Disciplined _ _ (k none) := hcode ▸ h.code
  refine ⟨not_false, ?_⟩
  cases hM : M.choose w.sys with
  | none =>
      refine ⟨none, w.sys, by simp [TableOp.exec, Netif.malloc, hM], t, K, K', ?_⟩
      exact .of_after h.defined h.linked h.names h.small h.sum hnone h.holds h.code' h.holds' h.apart
  | some a =>
      have hfresh : ¬ w.sys.Live a := (M.fresh w.sys a hM).2
      have hout : a ∉ headAddr :: t.map Prod.fst := fun hmem => hfresh (h.linked.live hmem)
      have hne : ∀ b o, K'.new = some (b, o) → b ≠ a := by
        intro b o hK heq
        obtain ⟨_, _, x, hx, _⟩ := h.holds'.new b o hK
        exact hfresh (.inr (Finmap.mem_iff.mpr ⟨x, heq ▸ hx⟩))
      refine ⟨some a, { w.sys with attrs := w.sys.attrs.insert a (M.junk w.sys) }, ?_, t,
        { K with new := some (a, none) }, K', ?_⟩
      · simp [TableOp.exec, Netif.malloc, hM]
      · refine .of_after h.defined (h.linked.insert_new hout _) h.names h.small h.sum (hsome a) ?_ h.code'
          (h.holds'.frame_same ?_ rfl) ?_
        · refine ⟨fun b n hK => ?_, fun b o hK => ?_, h.holds.absent, h.holds.notFound, h.holds.seen⟩
          · obtain ⟨hfreed, hin⟩ := h.holds.node b n hK
            exact ⟨fun hmem => hfreed (List.mem_filter.mp hmem).1, hin⟩
          · cases hK
            refine ⟨by simp [TableOp.mark, TableOp.delete], hout, _, Finmap.lookup_insert _, ?_⟩
            simp
        · exact fun b o hK => Finmap.lookup_insert_of_ne _ (hne b o hK)
        · intro b o o' hK hK'
          cases hK
          exact hne a o' hK' rfl

/-- A write to the thread's own new node. -/
theorem storeNew {f : Attr → Attr} {o' : Option (List UInt8)} {o : Option (List UInt8)}
    {p : TableOp Unit} {k : Unit → Threaded.Code Unit} (h : w.Inv u t K K')
    (hexec : p.exec M = storeAttr a f) (hmark : p.mark () (w.thread u) = w.thread u)
    (hself : p.delete () (w.thread u) = w.thread u)
    (hother : p.delete () (p.overtake () (w.thread u.other)) = w.thread u.other)
    (huses : p.UsesFreed (w.thread u) ↔ a ∈ (w.thread u).freed) (hnew : K.new = some (a, o))
    (hk : Disciplined (fun _ K => K.Idle) { K with new := some (a, o') } (k ()))
    (hf : ∀ x n, o' = some n → (f x).slice 0 ifnameSize = strncpy ifnameSize n) :
    w.Goes M u p k := by
  obtain ⟨hfreed, hout, x, hx, _⟩ := h.holds.new a o hnew
  refine ⟨fun hu => hfreed (huses.mp hu), (), { w.sys with attrs := w.sys.attrs.insert a (f x) },
    ?_, t, { K with new := some (a, o') }, K', ?_⟩
  · rw [hexec, storeAttr, Prog.run_atom, hx]
  · refine .of_after h.defined (h.linked.insert_new hout _) h.names h.small h.sum hk ?_ h.code' ?_ ?_
    · rw [hmark, hself]
      refine ⟨h.holds.node, fun b o' hK => ?_, h.holds.absent, h.holds.notFound, h.holds.seen⟩
      cases hK
      exact ⟨hfreed, hout, f x, Finmap.lookup_insert _, hf x⟩
    · rw [hother]
      refine h.holds'.frame_same (fun b o' hK => Finmap.lookup_insert_of_ne _ ?_) rfl
      rintro rfl
      exact h.apart b o o' hnew hK
    · intro b o₁ o₂ hK
      cases hK
      exact h.apart a o o₂ hnew

theorem loadSum {k : Nat → Threaded.Code Unit} (h : w.Inv u t K K')
    (hcode : (w.thread u).code = .call .loadSum k) : w.Goes M u .loadSum k := by
  have hk : ∀ v, Disciplined _ { K with seen := some v } (k v) := hcode ▸ h.code
  refine ⟨not_false, w.sys.listSum, w.sys, rfl, t, { K with seen := some w.sys.listSum }, K', ?_⟩
  refine .of_after h.defined h.linked h.names h.small h.sum (hk _) ?_ h.code' h.holds' h.apart
  refine ⟨h.holds.node, h.holds.new, h.holds.absent, h.holds.notFound, fun v hv _ => ?_⟩
  cases hv
  rfl

private theorem settle (l d d' : Int) :
    ((l - (d + d')) % 2 ^ 32 + d) % 2 ^ 32 = (l - (0 + d')) % 2 ^ 32 := by
  omega

/-- What is stored is right when nobody has stored in between. -/
theorem storeSum {n : Nat} {k : Unit → Threaded.Code Unit} (h : w.Inv u t K K')
    (hcode : (w.thread u).code = .call (.storeSum n) k)
    (hund : (TableOp.storeSum n).Undisturbed (w.thread u) (w.thread u.other) w.sys) :
    w.Goes M u (.storeSum n) k := by
  obtain ⟨v, hseen, hn, hk⟩ : ∃ v, K.seen = some v ∧ (n : Int) = (v + K.owed) % 2 ^ 32 ∧
      Disciplined _ _ (k ()) := hcode ▸ h.code
  have hv : w.sys.listSum = v := h.holds.seen v hseen hund
  refine ⟨not_false, (), { w.sys with listSum := n }, rfl, t,
    { K with owed := 0, seen := none }, K', ?_⟩
  refine .of_after h.defined (h.linked.setSum n) h.names h.small ?_ hk ?_ h.code' ?_ h.apart
  · dsimp only
    rw [hn, ← hv, h.sum, settle]
  · exact ⟨h.holds.node, h.holds.new, h.holds.absent, h.holds.notFound, by simp⟩
  · refine ⟨h.holds'.node, h.holds'.new, h.holds'.absent, h.holds'.notFound, fun v _ hstale => ?_⟩
    cases hstale

theorem memset {k : Unit → Threaded.Code Unit} (h : w.Inv u t K K')
    (hcode : (w.thread u).code = .call (.memset a) k) : w.Goes M u (.memset a) k := by
  obtain ⟨⟨o, hnew⟩, hk⟩ : (∃ o, K.new = some (a, o)) ∧ Disciplined _ _ (k ()) := hcode ▸ h.code
  exact h.storeNew rfl rfl rfl rfl Iff.rfl hnew hk (by simp)

theorem strncpy {k : Unit → Threaded.Code Unit} (h : w.Inv u t K K')
    (hcode : (w.thread u).code = .call (.strncpy a ifname) k) : w.Goes M u (.strncpy a ifname) k := by
  obtain ⟨⟨o, hnew⟩, hk⟩ : (∃ o, K.new = some (a, o)) ∧ Disciplined _ _ (k ()) := hcode ▸ h.code
  refine h.storeNew rfl rfl rfl rfl Iff.rfl hnew hk fun x n hn => ?_
  cases hn
  exact slice_setIfname x ifname

/-- The list has no other node of the name that is linked. -/
theorem link {k : Unit → Threaded.Code Unit} (h : w.Inv u t K K')
    (hcode : (w.thread u).code = .call (.link a ifname) k)
    (hund : (TableOp.link a ifname).Undisturbed (w.thread u) (w.thread u.other) w.sys) :
    w.Goes M u (.link a ifname) k := by
  obtain ⟨hnew, hzero, habsent, howed, hk⟩ : K.new = some (a, some ifname) ∧ 0 ∉ ifname ∧
      ifname ∈ K.absent ∧ K.owed = 0 ∧ Disciplined _ _ (k ()) := hcode ▸ h.code
  obtain ⟨hover, hlen, hsmall⟩ := hund
  obtain ⟨hfreed, hout, x, hx, hslice⟩ := h.holds.new a _ hnew
  obtain ⟨hterm, hname⟩ := name_of_slice hzero hlen (hslice ifname rfl)
  have hrun : ((TableOp.link a ifname).exec M).run w.sys = .ok () _ :=
    h.linked.run_link (Finmap.mem_iff.mpr ⟨x, hx⟩)
  have hothers : ∀ p ∈ t, p.2.ifname ≠ ifname :=
    h.holds.notFound ifname (h.holds.absent ifname habsent) hover
  rw [h.linked.nodes_eq, List.length_map] at hsmall
  refine ⟨hfreed, (), _, hrun, (a, x) :: t,
    { K with
      node := some (a, ifname)
      new := none
      absent := K.absent.filter (· ≠ ifname)
      owed := 1 }, K', ?_⟩
  have hcount : (w.sys.listSum : Int) = (((a, x) :: t).length - (1 + K'.owed)) % 2 ^ 32 := by
    rw [h.sum, howed, List.length_cons]
    congr 1
    push_cast
    omega
  exact .of_after h.defined (h.linked.link hout hx) (h.names.cons hterm (hname ▸ hothers)) hsmall hcount hk
    (h.holds.link_own hfreed hname) h.code' (h.holds'.link_other hname fun o => h.apart a _ o hnew)
    (by simp)

/-- An access to the node changes nothing else, and leaves its name. -/
theorem node {p : Step β} {k : β → Threaded.Code Unit} (h : w.Inv u t K K')
    (hcode : (w.thread u).code = .call (.node ifname a p) k) : w.Goes M u (.node ifname a p) k := by
  obtain ⟨hnode, hp, hk⟩ : K.node = some (a, ifname) ∧ OnNode a p ∧ ∀ b, Disciplined _ K (k b) :=
    hcode ▸ h.code
  obtain ⟨hfreed, x, hx, _⟩ := h.holds.node a ifname hnode
  obtain ⟨b, y, evs, hrun, hname⟩ := hp w.sys x h.linked.mutex (h.linked.attrs _ hx)
  obtain ⟨t₁, t₂, rfl⟩ := List.append_of_mem hx
  have hif : y.ifname = x.ifname := congrArg cstr hname
  have hframe : ∀ {L : Know} {th : Thread}, L.Holds th w.sys (t₁ ++ (a, x) :: t₂) →
      L.Holds th (w.sys.focus .unlocked a y evs) (t₁ ++ (a, y) :: t₂) := by
    intro L th hL
    refine hL.frame (fun q hq => ?_) (fun q hq => ?_) (fun c o hc => ?_) rfl
    · rcases List.mem_append.mp hq with hq | hq
      · exact ⟨q.2, List.mem_append_left _ hq, rfl⟩
      · rcases List.mem_cons.mp hq with rfl | hq
        · exact ⟨y, by simp, hif⟩
        · exact ⟨q.2, by simp [hq], rfl⟩
    · rcases List.mem_append.mp hq with hq | hq
      · exact ⟨q, List.mem_append_left _ hq, rfl, rfl⟩
      · rcases List.mem_cons.mp hq with rfl | hq
        · exact ⟨(a, x), by simp, rfl, hif.symm⟩
        · exact ⟨q, by simp [hq], rfl, rfl⟩
    · refine Finmap.lookup_insert_of_ne _ ?_
      rintro rfl
      exact (hL.new c o hc).2.1 (by simp)
  have hlen : (t₁ ++ (a, y) :: t₂).length = (t₁ ++ (a, x) :: t₂).length := by simp
  refine ⟨hfreed, b, _, hrun, t₁ ++ (a, y) :: t₂, K, K', ?_⟩
  exact .of_after h.defined (h.linked.focus y evs) (h.names.replace hname) (hlen ▸ h.small)
    (hlen ▸ h.sum) (hk b) (hframe h.holds) h.code' (hframe h.holds') h.apart

/-- A thread that does not use the node of a name any more need not know it. -/
theorem forgets {t₁ t₂ : Table} {x : Attr} (h : w.Inv u (t₁ ++ (a, x) :: t₂) K K')
    (hx : x.ifname = ifname) (hund : ¬ Threaded.Uses ifname (w.thread u.other).code) :
    ∃ L, Disciplined (fun _ K => K.Idle) L (w.thread u.other).code ∧
      L.Holds (w.thread u.other) w.sys (t₁ ++ (a, x) :: t₂) ∧ (∀ n, L.node ≠ some (a, n)) ∧
      L.new = K'.new ∧ L.owed = K'.owed := by
  by_cases hheld : ∃ n, K'.node = some (a, n)
  · obtain ⟨n, hn⟩ := hheld
    obtain ⟨_, y, hy, hyname⟩ := h.holds'.node a n hn
    have hxy : x = y :=
      Option.some.inj ((h.linked.attrs (a, x) (by simp)).symm.trans (h.linked.attrs (a, y) hy))
    have hname : n = ifname := by rw [← hyname, ← hxy, hx]
    refine ⟨{ K' with node := none }, h.code'.forget hn (hname ▸ hund), ?_, by simp, rfl, rfl⟩
    exact ⟨by simp, h.holds'.new, h.holds'.absent, h.holds'.notFound, h.holds'.seen⟩
  · exact ⟨K', h.code', h.holds', fun n hn => hheld ⟨n, hn⟩, rfl, rfl⟩

/-- The other thread does not lose a node that it still uses. -/
theorem del {k : Option Addr → Threaded.Code Unit} (h : w.Inv u t K K')
    (hcode : (w.thread u).code = .call (.del ifname) k)
    (hund : (TableOp.del ifname).Undisturbed (w.thread u) (w.thread u.other) w.sys) :
    w.Goes M u (.del ifname) k := by
  obtain ⟨hzero, howed, hsome, hnone⟩ : 0 ∉ ifname ∧ K.owed = 0 ∧
      (∀ a, Disciplined _ _ (k (some a))) ∧ Disciplined _ _ (k none) := hcode ▸ h.code
  refine ⟨not_false, ?_⟩
  cases hfind : t.find ifname with
  | none =>
      refine ⟨none, w.sys, h.linked.run_del_none hfind, t, { K with node := none }, K', ?_⟩
      refine .of_after h.defined h.linked h.names h.small h.sum hnone ?_ h.code' h.holds' h.apart
      exact ⟨by simp, h.holds.new, h.holds.absent, h.holds.notFound, h.holds.seen⟩
  | some a =>
      obtain ⟨t₁, x, t₂, rfl, hx, _⟩ := Table.ifname_of_find h.names.terminated hzero hfind
      have hrun := h.linked.run_del (M := M) hfind
      obtain ⟨L, hL, hLholds, hLnode, hLnew, hLowed⟩ := h.forgets hx hund
      refine ⟨some a, _, hrun, t₁ ++ t₂, { K with node := none, owed := -1 }, L, ?_⟩
      refine .of_after h.defined h.linked.unlink h.names.remove ?_ ?_ (hsome a) ?_ hL ?_ (hLnew ▸ h.apart)
      · have hsmall := h.small
        simp only [List.length_append, List.length_cons] at hsmall ⊢
        omega
      · have hcount := h.sum
        rw [howed] at hcount
        dsimp only
        rw [hcount, hLowed]
        simp only [List.length_append, List.length_cons]
        congr 1
        push_cast
        omega
      · have hself : ({ K with node := none, owed := -1 } : Know).Holds (w.thread u) w.sys
            (t₁ ++ (a, x) :: t₂) :=
          ⟨by simp, h.holds.new, h.holds.absent, h.holds.notFound, h.holds.seen⟩
        exact hself.deleted h.names hx (by simp) rfl rfl
      · exact hLholds.deleted h.names hx hLnode rfl rfl

/-- Whatever the operation is. -/
theorem goes {k : β → Threaded.Code Unit} (h : w.Inv u t K K')
    (hcode : (w.thread u).code = .call o k)
    (hund : o.Undisturbed (w.thread u) (w.thread u.other) w.sys) : w.Goes M u o k := by
  cases o with
  | own p => exact h.own hcode
  | find ifname => exact h.find hcode
  | malloc => exact h.malloc hcode
  | memset a => exact h.memset hcode
  | strncpy a ifname => exact h.strncpy hcode
  | link a ifname => exact h.link hcode hund
  | loadSum => exact h.loadSum hcode
  | storeSum n => exact h.storeSum hcode hund
  | del ifname => exact h.del hcode hund
  | node ifname a p => exact h.node hcode

/-- Between two calls, nothing is left to be done. -/
theorem idle (h : w.Inv u t K K') (hidle : w.Idle u) : K.Idle := by
  have hd := h.code
  unfold World.Idle at hidle
  cases hc : (w.thread u).code with
  | ret _ =>
      rw [hc] at hd
      exact hd
  | call o k =>
      rw [hc] at hidle
      cases hidle

/-- A thread between two calls may begin another one. -/
theorem start {code : Threaded.Code Unit} (h : w.Inv u t K K') (hidle : w.Idle u)
    (hcode : Disciplined (fun _ K => K.Idle) { absent := (w.thread u).notFound } code) :
    (w.start u code).Sound u := by
  have hself : (w.start u code).thread u = { w.thread u with code := code } :=
    Function.update_self _ _ _
  have hother : (w.start u code).thread u.other = w.thread u.other :=
    Function.update_of_ne u.other_ne _ _
  refine ⟨t, { absent := (w.thread u).notFound }, K', ?_⟩
  constructor
  · exact h.defined
  · exact h.linked
  · exact h.names
  · exact h.small
  · have hsum := h.sum
    rw [(h.idle hidle).2] at hsum
    exact hsum
  · rw [hself]
    exact hcode
  · rw [hself]
    exact ⟨by simp, by simp, fun n hn => hn, h.holds.notFound, by simp⟩
  · rw [hother]
    exact h.code'
  · rw [hother]
    exact h.holds'
  · simp

end Inv

theorem Sound.exec {M : Malloc} (h : w.Sound u)
    (hund : ∀ {β : Type} (o : TableOp β) (k : β → Threaded.Code Unit),
      (w.thread u).code = .call o k → o.Undisturbed (w.thread u) (w.thread u.other) w.sys) :
    (w.exec M u).1.Sound u ∧ (w.exec M u).2 = [] := by
  obtain ⟨t, K, K', h⟩ := h
  unfold World.exec
  cases hc : (w.thread u).code with
  | ret _ => exact ⟨⟨t, K, K', h⟩, rfl⟩
  | call o k =>
      obtain ⟨huses, b, s, hrun, hsound⟩ := h.goes (M := M) hc (hund o k hc)
      simp only [hrun, if_neg huses]
      exact ⟨hsound, trivial⟩

end World

/-! ## Schedules -/

/-- The step is on what the thread has found before, see `TableOp.Undisturbed`, and the
receiver takes a message only if its name and its attributes have room where they are
copied to. -/
def Sched.Undisturbed : Sched → World → Prop
  | .receive m, _ => m.Copyable
  | .run u, w =>
    match (w.thread u).code with
    | .ret _ => True
    | .call o _ => o.Undisturbed (w.thread u) (w.thread u.other) w.sys
  | _, _ => True

theorem Sched.Undisturbed.op {w : World} {u : Tid} (h : (Sched.run u).Undisturbed w) {β : Type}
    (o : TableOp β) (k : β → Threaded.Code Unit) (hcode : (w.thread u).code = .call o k) :
    o.Undisturbed (w.thread u) (w.thread u.other) w.sys := by
  simp only [Sched.Undisturbed, hcode] at h
  exact h

theorem World.sound_init : World.init.Sound .receiver := by
  refine ⟨[], {}, {}, ?_⟩
  have hholds : ∀ u, ({} : Know).Holds (World.init.thread u) Sys.init [] :=
    fun u => ⟨by simp, by simp, by simp, by simp [World.init], by simp⟩
  exact ⟨rfl, repr_init.linked, .nil, by decide, rfl, ⟨rfl, rfl⟩, hholds _, ⟨rfl, rfl⟩, hholds _, by simp⟩

/-- A step that is not disturbed keeps the invariant, and nothing goes wrong in it. -/
theorem World.Sound.step {M : Malloc} {w : World} (h : w.Sound .receiver) {l : Sched}
    (hund : l.Undisturbed w) : (l.step M w).1.Sound .receiver ∧ (l.step M w).2 = [] := by
  have hdefined : ¬ w.undefined = true := by
    obtain ⟨t, K, K', hinv⟩ := h
    rw [hinv.defined]
    exact Bool.false_ne_true
  unfold Sched.step
  rw [if_neg hdefined]
  cases l with
  | receive m =>
      dsimp only
      split
      · next hidle =>
          obtain ⟨t, K, K', hinv⟩ := h
          exact ⟨hinv.start hidle (Threaded.disciplined_handle hund ⟨rfl, rfl⟩), rfl⟩
      · exact ⟨h, rfl⟩
  | call c =>
      dsimp only
      split
      · next hcall =>
          obtain ⟨t, K, K', hinv⟩ := h.swap .client
          refine ⟨(hinv.start hcall.1 ?_).swap .receiver, rfl⟩
          exact Call.disciplined ⟨rfl, rfl⟩ hcall.2 fun n hn => hn
      · exact ⟨h, rfl⟩
  | run u =>
      obtain ⟨hsound, hnone⟩ := (h.swap u).exec (M := M) fun o k hcode => hund.op o k hcode
      exact ⟨hsound.swap .receiver, hnone⟩

end Netif
