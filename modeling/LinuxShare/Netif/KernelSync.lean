-- SUMMARY: When the table's link attributes follow the kernel's, from the cold boot request on.
import LinuxShare.Lib.Keyed
import LinuxShare.Netif.Copies
import Mathlib.Data.Finset.Basic

/-!
# The table and the kernel

`netif_coldboot` asks for the assigned addresses, and only for these. The kernel
answers with one message per address and then reports each change. A node that an
address message creates has `up` at zero until the next link message for its name,
so it is wrong about an interface that was up before the program started.
-/

namespace Netif

open Resumable

/-! ## netif_coldboot -/

def afInet : Nat := 2

def rtmGetaddr : Nat := 22

def nlmFRequest : Nat := 0x1

def nlmFDump : Nat := 0x300

/-- The request that `netif_coldboot` sends: `struct nlmsghdr`, `struct ifaddrmsg`. -/
structure Request where
  nlmsgLen : Nat
  nlmsgType : Nat
  nlmsgFlags : Nat
  nlmsgSeq : Nat
  ifaFamily : Nat

/-- `req` of `netif_coldboot`, whose argument `family` is not used. -/
def netifColdboot (_family type : Nat) : Request where
  nlmsgLen := nlmsgHdrlen + 8
  nlmsgType := type
  nlmsgFlags := nlmFRequest ||| nlmFDump
  nlmsgSeq := 1
  ifaFamily := afInet

/-- What `netif_event_server_init` asks for. -/
def coldbootRequest : Request := netifColdboot afInet rtmGetaddr

/-! ## The kernel's side -/

/-- An interface as the kernel has it: `IFF_UP` and its IPv4 addresses. -/
structure Iface where
  up : Bool
  addrs : Finset (List UInt8)

/-- The interfaces by name. -/
abbrev Kernel := List UInt8 → Option Iface

/-- `IFF_UP` of the interface of that name, if there is one. -/
def Kernel.up (k : Kernel) (name : List UInt8) : Option Bool := (k name).map Iface.up

/-- The answer to the request. Only what is asked for is told: one `RTM_NEWADDR` for
each assigned address, labelled with the interface's name. -/
structure Kernel.Answers (k : Kernel) (req : Request) (dump : List NlMsg) : Prop where
  asked : req.nlmsgType = rtmGetaddr ∧ req.nlmsgFlags = nlmFRequest ||| nlmFDump ∧
    req.ifaFamily = afInet
  newaddr : ∀ m ∈ dump, m.type = rtmNewaddr
  once : (dump.map fun m => (m.name, m.ipaddr)).Nodup
  complete : ∀ n A, (n, A) ∈ dump.map (fun m => (m.name, m.ipaddr)) ↔
    ∃ i, k n = some i ∧ A ∈ i.addrs

/-- A later change on the kernel's side. A new interface and a change of the flags of an
old one are both a `link`. -/
inductive Change where
  | link (name : List UInt8) (up : Bool)
  | remove (name : List UInt8)
  | newaddr (name ipaddr : List UInt8)
  | deladdr (name ipaddr : List UInt8)

namespace Change

def name : Change → List UInt8
  | link name _ => name
  | remove name => name
  | newaddr name _ => name
  | deladdr name _ => name

/-- What the change makes of the interface of its name. -/
def act : Change → Option Iface → Option Iface
  | link _ up, o => some ⟨up, (o.map Iface.addrs).getD ∅⟩
  | remove _, _ => none
  | newaddr _ ipaddr, o => o.map fun i => { i with addrs := insert ipaddr i.addrs }
  | deladdr _ ipaddr, o => o.map fun i => { i with addrs := i.addrs.erase ipaddr }

/-- The message that reports the change; its other contents are open. -/
def Announces (c : Change) (m : NlMsg) : Prop :=
  m.name = c.name ∧
    match c with
    | link _ up => m.type = rtmNewlink ∧ m.up = up
    | remove _ => m.type = rtmDellink
    | newaddr _ ipaddr => m.type = rtmNewaddr ∧ m.ipaddr = ipaddr
    | deladdr _ ipaddr => m.type = rtmDeladdr ∧ m.ipaddr = ipaddr

end Change

/-- The kernel after changes that have each been reported. -/
def Kernel.after (k : Kernel) (cs : List (Change × NlMsg)) : Kernel :=
  Keyed.run Change.name Change.act k (cs.map Prod.fst)

/-- Each node has the flag of the kernel's interface of its name. -/
def Synced (k : Kernel) (s : Sys) : Prop :=
  ∀ p ∈ s.table, ∀ b, k.up p.2.ifname = some b → p.2.up = b

/-- The message makes a node without knowing that its interface is up. -/
def CreatesUp (M : Malloc) (k : Kernel) (m : NlMsg) (s : Sys) : Prop :=
  m.IsAddr ∧ s.attrOf m.name = none ∧ (m.targetIn M s).isSome ∧ k.up m.name = some true

/-- Every message can be handled, and no node is made by an address message while the
interface of that name is up. -/
structure Informed (M : Malloc) (k : Kernel) (dump : List NlMsg) (cs : List (Change × NlMsg)) :
    Prop where
  answer : Along M (fun _ m s => m.Handleable M s ∧ ¬ CreatesUp M k m s) dump
  changes : ∀ pre c post s, cs = pre ++ c :: post → Reaches M (dump ++ pre.map Prod.snd) s →
    c.2.Handleable M s ∧ ¬ CreatesUp M (k.after pre) c.2 s

/-! ## One message -/

section

variable {M : Malloc} {k k' : Kernel} {m : NlMsg} {s s' : Sys}

theorem Good.synced_iff (h : Good s) :
    Synced k s ↔ ∀ n x, s.attrOf n = some x → ∀ b, k.up n = some b → x.up = b :=
  h.forall_table_iff (P := fun n x => ∀ b, k.up n = some b → x.up = b)

/-- An address message leaves the flags of all nodes as they are, so it repairs nothing;
it breaks something when it makes a node for an interface that is up. -/
theorem Handled.synced_addr_iff (h : Handled M m s s') (hs : Good s) (haddr : m.IsAddr) :
    Synced k s' ↔ Synced k s ∧ ¬ CreatesUp M k m s := by
  rw [h.good.synced_iff, hs.synced_iff]
  constructor
  · refine fun hall => ⟨fun n x hx b hb => ?_, ?_⟩
    · by_cases hn : n = m.name
      · subst hn
        rw [← NlMsg.up_node_of_addr haddr]
        exact hall m.name _ (by rw [h.attrOf, if_pos rfl, hs.targetIn_of_some M hx]; rfl) b hb
      · exact hall n x (by rw [h.attrOf, if_neg hn, hx]) b hb
    · rintro ⟨_, hnone, hsome, hup⟩
      obtain ⟨x, hx⟩ := Option.isSome_iff_exists.mp hsome
      have hnode := hall m.name (m.node x) (by rw [h.attrOf, if_pos rfl, hx]; rfl) true hup
      rw [NlMsg.up_node_of_addr haddr] at hnode
      rcases targetIn_cases hx with hold | ⟨_, rfl⟩
      · cases hnone.symm.trans hold
      · cases (up_freshAttr m.name).symm.trans hnode
  · rintro ⟨hall, hnew⟩ n y hy b hb
    rw [h.attrOf] at hy
    split at hy
    · next hn =>
        subst hn
        obtain ⟨x, hx, rfl⟩ := Option.map_eq_some_iff.mp hy
        rw [NlMsg.up_node_of_addr haddr]
        rcases targetIn_cases hx with hold | ⟨hnone, rfl⟩
        · exact hall m.name x hold b hb
        · rw [up_freshAttr]
          cases b with
          | false => rfl
          | true => exact absurd ⟨haddr, hnone, by rw [hx]; rfl, hb⟩ hnew
    · exact hall n y hy b hb

/-- A link message sets the flag of its node to what the kernel has, if it has anything. -/
theorem Handled.synced_link (h : Handled M m s s') (hs : Good s) (hlink : m.IsLink)
    (hother : ∀ n, n ≠ m.name → k'.up n = k.up n) (hself : ∀ b, k'.up m.name = some b → m.up = b)
    (hsynced : Synced k s) : Synced k' s' := by
  rw [h.good.synced_iff]
  intro n y hy b hb
  rw [h.attrOf] at hy
  split at hy
  · next hn =>
      obtain ⟨x, hx, rfl⟩ := Option.map_eq_some_iff.mp hy
      rw [NlMsg.up_node_of_link hlink]
      exact hself b (hn ▸ hb)
  · next hn =>
      rw [hother n hn] at hb
      exact hs.synced_iff.mp hsynced n y hy b hb

theorem Kernel.up_apply (c : Change) (n : List UInt8) :
    Kernel.up (Keyed.apply Change.name Change.act k c) n =
      if n = c.name then (c.act (k c.name)).map Iface.up else k.up n := by
  unfold Kernel.up
  split
  · next hn => rw [hn, Keyed.apply_of_eq rfl]
  · next hn => rw [Keyed.apply_of_ne (Ne.symm hn)]

/-- An address change leaves all flags as they are. -/
theorem Kernel.up_apply_of_addr {c : Change}
    (hc : (c.act (k c.name)).map Iface.up = (k c.name).map Iface.up) :
    Kernel.up (Keyed.apply Change.name Change.act k c) = k.up := by
  funext n
  rw [Kernel.up_apply]
  split
  · next hn => rw [hc, hn]; rfl
  · rfl

theorem Synced.congr (h : k.up = k'.up) : Synced k s ↔ Synced k' s := by
  unfold Synced
  rw [h]

/-- The message that reports a change carries the change over to the table, unless it
makes a node for an interface that is up. -/
theorem Handled.synced_announced {c : Change} (h : Handled M m s s') (hs : Good s)
    (hc : c.Announces m) (hsynced : Synced k s) :
    Synced (Keyed.apply Change.name Change.act k c) s' ↔ ¬ CreatesUp M k m s := by
  obtain ⟨hname, hreport⟩ := hc
  have hother : ∀ n, n ≠ m.name →
      Kernel.up (Keyed.apply Change.name Change.act k c) n = k.up n := by
    intro n hn
    rw [Kernel.up_apply, if_neg fun heq => hn (heq.trans hname.symm)]
  have hself : Kernel.up (Keyed.apply Change.name Change.act k c) m.name =
      (c.act (k c.name)).map Iface.up := by
    rw [Kernel.up_apply, if_pos hname]
  cases c with
  | link name up =>
      have hlink : m.IsLink := .inl hreport.1
      refine iff_of_true (h.synced_link hs hlink hother ?_ hsynced) fun hnew => hnew.1.type_ne.2 hlink
      intro b hb
      rw [hself] at hb
      exact hreport.2.trans (Option.some.inj hb)
  | remove name =>
      have hlink : m.IsLink := .inr hreport
      refine iff_of_true (h.synced_link hs hlink hother ?_ hsynced) fun hnew => hnew.1.type_ne.2 hlink
      intro b hb
      rw [hself] at hb
      cases hb
  | newaddr name ipaddr =>
      have hkeep := Kernel.up_apply_of_addr (k := k) (c := .newaddr name ipaddr) (by
        simp only [Change.act, Option.map_map]
        rfl)
      rw [Synced.congr hkeep, h.synced_addr_iff hs (.inl hreport.1), and_iff_right hsynced]
  | deladdr name ipaddr =>
      have hkeep := Kernel.up_apply_of_addr (k := k) (c := .deladdr name ipaddr) (by
        simp only [Change.act, Option.map_map]
        rfl)
      rw [Synced.congr hkeep, h.synced_addr_iff hs (.inr hreport.1), and_iff_right hsynced]

end

/-! ## Runs -/

section

variable {M : Malloc} {k : Kernel} {dump : List NlMsg} {cs : List (Change × NlMsg)}

/-- Address messages break nothing if and only if none of them does. -/
theorem synced_dump_iff (hdump : ∀ m ∈ dump, m.IsAddr) :
    (∃ s, Reaches M dump s ∧ Synced k s) ↔
      Along M (fun _ m s => m.Handleable M s ∧ ¬ CreatesUp M k m s) dump := by
  induction dump using List.reverseRecOn with
  | nil =>
      refine iff_of_true ⟨_, reaches_nil M, ?_⟩ fun pre m post s hsplit => by simp at hsplit
      exact good_init.synced_iff.mpr fun n x hx => by rw [attrOf_init] at hx; cases hx
  | append_singleton dump m ih =>
      have hold := ih fun m' hm' => hdump m' (List.mem_append_left _ hm')
      have haddr := hdump m (by simp)
      rw [along_snoc, ← hold]
      constructor
      · rintro ⟨s', hreach', hsynced'⟩
        obtain ⟨s, hreach, hrun⟩ := Prog.run_forM_snoc_eq_ok.mp hreach'
        have hgood := good_of_reaches hreach
        obtain ⟨hsynced, hnew⟩ :=
          ((hgood.handled_of_run hrun).2.synced_addr_iff hgood haddr).mp hsynced'
        refine ⟨⟨s, hreach, hsynced⟩, fun s₁ hreach₁ => ?_⟩
        rw [hreach₁.eq hreach]
        exact ⟨hgood.handleable_of_run hrun, hnew⟩
      · rintro ⟨⟨s, hreach, hsynced⟩, hnew⟩
        have hgood := good_of_reaches hreach
        obtain ⟨⟨hname, hblock⟩, hnew⟩ := hnew s hreach
        obtain ⟨s', hh⟩ := hgood.handled M hname hblock
        exact ⟨s', hreach.snoc hh.run, (hh.synced_addr_iff hgood haddr).mpr ⟨hsynced, hnew⟩⟩

@[simp] theorem Kernel.after_nil : k.after [] = k := rfl

theorem Kernel.after_snoc (c : Change × NlMsg) :
    k.after (cs ++ [c]) = Keyed.apply Change.name Change.act (k.after cs) c.1 := by
  rw [Kernel.after, List.map_append, List.map_singleton, Keyed.run_append_singleton]
  rfl

theorem map_snoc (dump : List NlMsg) (cs : List (Change × NlMsg)) (c : Change × NlMsg) :
    dump ++ (cs ++ [c]).map Prod.snd = (dump ++ cs.map Prod.snd) ++ [c.2] := by
  simp

end

/-- From the answer to the cold boot request on, and after each change, the table has
the kernel's flags if and only if all messages can be handled and no address message
makes a node for an interface that is up at the time. -/
theorem synced_iff_informed (M : Malloc) (k : Kernel) (dump : List NlMsg) (cs : List (Change × NlMsg))
    (hdump : k.Answers coldbootRequest dump) (hcs : ∀ c ∈ cs, c.1.Announces c.2) :
    (∀ pre, pre <+: cs →
      ∃ s, Reaches M (dump ++ pre.map Prod.snd) s ∧ Synced (k.after pre) s) ↔
      Informed M k dump cs := by
  have hnewaddr : ∀ m ∈ dump, m.IsAddr := fun m hm => .inl (hdump.newaddr m hm)
  constructor
  · intro hall
    refine ⟨(synced_dump_iff hnewaddr).mp ?_, ?_⟩
    · simpa using hall [] List.nil_prefix
    · intro pre c post s hsplit hreach
      have hc : c ∈ cs := by simp [hsplit]
      obtain ⟨s₁, hreach₁, hsynced⟩ := hall pre ⟨c :: post, hsplit.symm⟩
      obtain rfl := hreach.eq hreach₁
      obtain ⟨s', hreach', hsynced'⟩ := hall (pre ++ [c]) ⟨post, by simp [hsplit]⟩
      rw [map_snoc] at hreach'
      rw [Kernel.after_snoc] at hsynced'
      have hgood := good_of_reaches hreach
      have hh := (hreach'.handled hreach).2
      exact ⟨hgood.handleable_of_run hh.run,
        (hh.synced_announced hgood (hcs c hc) hsynced).mp hsynced'⟩
  · intro hinf pre
    induction pre using List.reverseRecOn with
    | nil => exact fun _ => by simpa using (synced_dump_iff hnewaddr).mpr hinf.answer
    | append_singleton pre c ih =>
        rintro ⟨post, hsplit⟩
        have hsplit' : cs = pre ++ c :: post := by simpa using hsplit.symm
        have hc : c ∈ cs := by simp [hsplit']
        obtain ⟨s, hreach, hsynced⟩ := ih ⟨c :: post, hsplit'.symm⟩
        have hgood := good_of_reaches hreach
        obtain ⟨⟨hname, hblock⟩, hnew⟩ := hinf.changes pre c post s hsplit' hreach
        obtain ⟨s', hh⟩ := hgood.handled M hname hblock
        rw [map_snoc, Kernel.after_snoc]
        exact ⟨s', hreach.snoc hh.run, (hh.synced_announced hgood (hcs c hc) hsynced).mpr hnew⟩

/-- `eth0` with 10.0.0.1. -/
def eth0Kernel (up : Bool) : Kernel := fun n => if n = eth0 then some ⟨up, {[10, 0, 0, 1]}⟩ else none

theorem eth0Kernel_answers (up : Bool) :
    (eth0Kernel up).Answers coldbootRequest [eth0Addr rtmNewaddr 1] where
  asked := ⟨rfl, rfl, rfl⟩
  newaddr := by decide +kernel
  once := by decide +kernel
  complete n A := by
    have hmap : [eth0Addr rtmNewaddr 1].map (fun m => (m.name, m.ipaddr)) =
        [(eth0, [10, 0, 0, 1])] := by decide +kernel
    rw [hmap, eth0Kernel]
    by_cases hn : n = eth0 <;> simp [hn]

/-- An interface that was down when the program started, and then comes up. -/
theorem synced_iff_informed_eth0 :
    (∀ pre, pre <+: [(Change.link eth0 true, eth0Link rtmNewlink iffUp)] →
      ∃ s, Reaches .bump ([eth0Addr rtmNewaddr 1] ++ pre.map Prod.snd) s ∧
        Synced ((eth0Kernel false).after pre) s) ↔
      Informed .bump (eth0Kernel false) [eth0Addr rtmNewaddr 1]
        [(Change.link eth0 true, eth0Link rtmNewlink iffUp)] := by
  refine synced_iff_informed .bump (eth0Kernel false) _ _ (eth0Kernel_answers false) fun c hc => ?_
  obtain rfl := List.mem_singleton.mp hc
  exact ⟨by decide +kernel, by decide +kernel⟩

/-- `eth0` was up before the program started, and the table has it down. -/
theorem coldboot_misses_up :
    (eth0Kernel true).Answers coldbootRequest [eth0Addr rtmNewaddr 1] ∧
    ∃ s x, Reaches .bump [eth0Addr rtmNewaddr 1] s ∧ s.attrOf eth0 = some x ∧ x.up = false ∧
      (eth0Kernel true).up eth0 = some true ∧ ¬ Synced (eth0Kernel true) s := by
  have hrun : ((handleAll .bump [eth0Addr rtmNewaddr 1]).run Sys.init).okAnd (fun s =>
      (s.attrOf eth0).any fun x => x.up = false) = true := by
    decide +kernel
  obtain ⟨_, s, hreach, hseen⟩ := Outcome.exists_of_okAnd hrun
  obtain ⟨x, hx, hup⟩ := (Option.any_eq_true _ _).mp hseen
  have hdown : x.up = false := of_decide_eq_true hup
  refine ⟨eth0Kernel_answers true, s, x, hreach, hx, hdown, rfl, fun hsynced => ?_⟩
  cases hdown.symm.trans ((good_of_reaches hreach).synced_iff.mp hsynced eth0 x hx true rfl)

end Netif
