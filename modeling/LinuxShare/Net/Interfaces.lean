-- SUMMARY: Listing the interfaces of the system (netif_op.c): by index, and with their addresses.
import LinuxShare.Lib.Probe

/-!
# Listing interfaces

One function asks for the names of the interfaces with the indices from 1 on until the
kernel has none; the other asks for the addresses of all interfaces, in an array of ten.
Each stops at something else than the end of what there is to list.
-/

namespace NetifOp

open Probe

/-- An interface. Each of its addresses has a label that is listed with it. -/
structure Iface where
  index : Nat
  name : String
  addrs : List (String × UInt32)

/-- The interfaces that are present. -/
structure Kernel where
  ifaces : List Iface
  pos : ∀ f ∈ ifaces, 0 < f.index
  distinct : (ifaces.map Iface.index).Nodup

namespace Kernel

/-- Indices with names. -/
def names (k : Kernel) : List (Nat × String) := k.ifaces.map fun f => (f.index, f.name)

/-- Every address of every interface, as `SIOCGIFCONF` goes through them. -/
def addrs (k : Kernel) : List (String × UInt32) := k.ifaces.flatMap Iface.addrs

def indices (k : Kernel) : List Nat := k.ifaces.map Iface.index

/-- `SIOCGIFNAME`: the name, or an error. -/
def siocgifname (k : Kernel) (index : Nat) : Option String := value k.names index

/-- `SIOCGIFCONF` with an entry of `size` bytes: as many whole entries as fit, and their bytes. -/
def siocgifconf (k : Kernel) (size len : Nat) : List (String × UInt32) × Nat :=
  let req := k.addrs.take (len / size)
  (req, req.length * size)

end Kernel

/-! ## The functions -/

/-- The lines that are printed within a number of rounds of the loop, if it ends in them. -/
def demoSiocgifname (k : Kernel) (rounds : Nat) : Option (List (Nat × String)) :=
  probe k.siocgifname rounds 1

/-- The lines for the entries of `req[10]`; `size` is `sizeof(struct ifreq)`. -/
def demoSiocgifconf (k : Kernel) (size : Nat) : List (String × UInt32) :=
  let (req, ifcLen) := k.siocgifconf size (10 * size)
  req.take (ifcLen / size)

/-! ## What is listed -/

/-- The first function ends and prints every interface once, the second prints every address. -/
structure Lists (k : Kernel) (size : Nat) : Prop where
  names : ∃ rounds lines, demoSiocgifname k rounds = some lines ∧ lines.Perm k.names
  addrs : (demoSiocgifconf k size).Perm k.addrs

variable {k : Kernel} {size : Nat}

theorem map_fst_names (k : Kernel) : k.names.map Prod.fst = k.indices := by
  rw [Kernel.names, List.map_map]
  rfl

/-- The loop over the indices ends, whatever the interfaces are. -/
theorem demoSiocgifname_ends (k : Kernel) : ∃ rounds lines, demoSiocgifname k rounds = some lines := by
  obtain ⟨lines, rounds, hlines⟩ := exists_finds k.names
  exact ⟨rounds, lines, hlines⟩

theorem names_listed_iff (k : Kernel) :
    (∃ rounds lines, demoSiocgifname k rounds = some lines ∧ lines.Perm k.names) ↔ Contiguous k.indices := by
  have hnodup : (k.names.map Prod.fst).Nodup := by
    rw [map_fst_names]
    exact k.distinct
  have hpos : ∀ e ∈ k.names, 0 < e.1 := by
    intro e he
    obtain ⟨f, hf, rfl⟩ := List.mem_map.mp he
    exact k.pos f hf
  rw [← map_fst_names]
  constructor
  · rintro ⟨rounds, lines, hlines, hperm⟩
    exact (Finds.perm_iff ⟨rounds, hlines⟩ hnodup hpos).mp hperm
  · intro hcont
    obtain ⟨rounds, lines, hlines⟩ := demoSiocgifname_ends k
    exact ⟨rounds, lines, hlines, (Finds.perm_iff ⟨rounds, hlines⟩ hnodup hpos).mpr hcont⟩

theorem demoSiocgifconf_eq (k : Kernel) (h : 0 < size) : demoSiocgifconf k size = k.addrs.take 10 := by
  simp only [demoSiocgifconf, Kernel.siocgifconf, Nat.mul_div_cancel _ h, List.take_length]

theorem addrs_listed_iff (k : Kernel) (h : 0 < size) :
    (demoSiocgifconf k size).Perm k.addrs ↔ k.addrs.length ≤ 10 := by
  rw [demoSiocgifconf_eq k h]
  constructor
  · intro hperm
    have hlen := hperm.length_eq
    rw [List.length_take] at hlen
    omega
  · intro hle
    rw [List.take_of_length_le hle]

/-- For every set of interfaces, their names and addresses: both functions list everything if
and only if no index is missing and there are at most ten addresses. The loop always ends. -/
theorem lists_iff (k : Kernel) (h : 0 < size) :
    (Lists k size ↔ Contiguous k.indices ∧ k.addrs.length ≤ 10) ∧
      ∃ rounds lines, demoSiocgifname k rounds = some lines := by
  refine ⟨?_, demoSiocgifname_ends k⟩
  rw [← names_listed_iff, ← addrs_listed_iff k h]
  exact ⟨fun hlists => ⟨hlists.names, hlists.addrs⟩, fun hlists => ⟨hlists.1, hlists.2⟩⟩

/-- `lo` and one more interface, with as many addresses as are given. -/
def loAnd (index : Nat) (hpos : 0 < index) (hne : 1 ≠ index) (addrs : List UInt32) : Kernel where
  ifaces := [{ index := 1, name := "lo", addrs := [("lo", 0x7f000001)] },
    { index, name := "eth0", addrs := addrs.map fun a => ("eth0", a) }]
  pos := by simp [hpos]
  distinct := by simp [hne]

theorem lists_eth0 :
    (Lists (loAnd 2 (by decide) (by decide) [0xc0a80001]) 40 ↔
      Contiguous (loAnd 2 (by decide) (by decide) [0xc0a80001]).indices ∧
        (loAnd 2 (by decide) (by decide) [0xc0a80001]).addrs.length ≤ 10) ∧
      ∃ rounds lines, demoSiocgifname (loAnd 2 (by decide) (by decide) [0xc0a80001]) rounds = some lines :=
  lists_iff (loAnd 2 (by decide) (by decide) [0xc0a80001]) (by decide)

/-- 192.168.0.1 and the addresses that follow it. -/
def manyAddrs : List UInt32 := (List.range 10).map fun i => 0xc0a80001 + UInt32.ofNat i

/-- An interface behind a removed one is not listed, nor is an eleventh address. -/
theorem eth0_not_listed :
    demoSiocgifname (loAnd 3 (by decide) (by decide) [0xc0a80001]) 5 = some [(1, "lo")] ∧
    (demoSiocgifconf (loAnd 2 (by decide) (by decide) manyAddrs) 40).length = 10 ∧
    (loAnd 2 (by decide) (by decide) manyAddrs).addrs.length = 11 ∧
    ¬ Lists (loAnd 3 (by decide) (by decide) [0xc0a80001]) 40 := by
  refine ⟨by decide, by decide, by decide, fun hlists => ?_⟩
  have hgap := (names_listed_iff _).mp hlists.names 1 (by decide)
  exact absurd hgap (by decide)

end NetifOp
