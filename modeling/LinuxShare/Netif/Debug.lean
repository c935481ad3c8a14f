-- SUMMARY: The debug decoders of link and address messages (netif_event.c), and when they agree with the handlers.
import LinuxShare.Lib.Layout
import LinuxShare.Netif.Runs

/-!
# The debug decoders

`debug_rtattr_to_lfla` and `debug_rtattr_to_lfa` lay the attributes of a message out in
an `IFLA_ATTR` or an `IFA_ATTR`, which are parts of the global `ifall`. They copy as many
bytes as an attribute has, in the order of an array of types. An `IFLA_ATTR` has room for
what the kernel sends. The name in an `IFA_ATTR` has six bytes, and the two addresses
behind it have been copied when the label is.
-/

namespace Netif

open Bytes CInt Resumable

/-! ## netif_event.h -/

def iflaUnspec : Nat := 0
def iflaBroadcast : Nat := 2
def iflaLink : Nat := 5
def iflaQdisc : Nat := 6
def iflaStats : Nat := 7

def ifaUnspec : Nat := 0
def ifaLocal : Nat := 2
def ifaBroadcast : Nat := 4
def ifaAnycast : Nat := 5
def ifaCacheinfo : Nat := 6

namespace IflaAttr

def l2LocalAddr : Extent := ⟨0, 6⟩
def l2BroadcastAddr : Extent := ⟨6, 6⟩
def ifname : Extent := ⟨12, 16⟩
def mtu : Extent := ⟨28, 4⟩
def linkType : Extent := ⟨32, 4⟩
def qdisc : Extent := ⟨36, 36 + 1⟩

/-- `sizeof(IFLA_ATTR)`, with the padding behind `qdisc`. -/
def size : Nat := 76

end IflaAttr

namespace IfaAttr

def ifname : Extent := ⟨0, 6⟩
def protocalInterfaceAddr : Extent := ⟨6, 4⟩
def protocalLocalAddr : Extent := ⟨10, 4⟩
def protocalBroadcastAddr : Extent := ⟨14, 4⟩
def protocalAnycastAddr : Extent := ⟨18, 4⟩

/-- `sizeof(IFA_ATTR)`. -/
def size : Nat := 22

end IfaAttr

namespace IfAllinfo

def ifUp : Nat := 0
def linkUp : Nat := 4
def newAddr : Nat := 8
def lfla : Nat := 12
def lfa : Nat := 88

end IfAllinfo

/-! ## netif_event.c -/

def lflaArray : List Nat :=
  [iflaUnspec, iflaAddress, iflaBroadcast, iflaIfname, iflaMtu, iflaLink, iflaQdisc, iflaStats]

def lfaArray : List Nat :=
  [ifaUnspec, ifaAddress, ifaLocal, ifaLabel, ifaBroadcast, ifaAnycast, ifaCacheinfo]

/-- The `switch` of `debug_rtattr_to_lfla`: the field that an attribute is copied to. -/
def lflaField : Layout Nat := fun type =>
  if type = iflaUnspec ∨ type = iflaStats then none
  else if type = iflaAddress then some IflaAttr.l2LocalAddr
  else if type = iflaBroadcast then some IflaAttr.l2BroadcastAddr
  else if type = iflaIfname then some IflaAttr.ifname
  else if type = iflaMtu then some IflaAttr.mtu
  else if type = iflaLink then some IflaAttr.linkType
  else if type = iflaQdisc then some IflaAttr.qdisc
  else none

/-- The `switch` of `debug_rtattr_to_lfa`. -/
def lfaField : Layout Nat := fun type =>
  if type = ifaUnspec ∨ type = ifaCacheinfo then none
  else if type = ifaAddress then some IfaAttr.protocalInterfaceAddr
  else if type = ifaLocal then some IfaAttr.protocalLocalAddr
  else if type = ifaLabel then some IfaAttr.ifname
  else if type = ifaBroadcast then some IfaAttr.protocalBroadcastAddr
  else if type = ifaAnycast then some IfaAttr.protocalAnycastAddr
  else none

/-- `tb` in both handlers of a link message. -/
def linkTable (buf : Mem) (nlh : Nat) : AttrTable :=
  parseRtattr .zero iflaMax buf (nlmsgData nlh + nlmsgAlign 16)
    (toInt (nlmsgLen buf nlh - nlmsgSpace 16))

/-- `tb` in both handlers of an address message. -/
def addrTable (buf : Mem) (nlh : Nat) : AttrTable :=
  parseRtattr .zero ifaMax buf (nlmsgData nlh + nlmsgAlign 8)
    (toInt (nlmsgLen buf nlh - nlmsgSpace 8))

/-- The body of the loop in both decoders: `memcpy(field,data,datalen)`, if there are data
and the `switch` has a field for them. -/
def debugCopy (field : Layout Nat) (buf : Mem) (rta : AttrTable) (base : Nat) (mem : Mem)
    (type : Nat) : Mem :=
  if 0 < (rtaPayload buf rta type).length then
    match field type with
    | none => mem
    | some f => mem.write (base + f.addr) (rtaPayload buf rta type)
  else mem

/-- What the decoders share: `memset`, then the loop over the array. The structure has
`size` bytes and stands at `base`. -/
def debugRtattrTo (field : Layout Nat) (array : List Nat) (size : Nat) (buf : Mem)
    (rta : AttrTable) (base : Nat) (mem : Mem) : Mem :=
  array.foldl (debugCopy field buf rta base) (mem.write base (List.replicate size 0))

def debugRtattrToLfla (buf : Mem) (rta : AttrTable) (ifla : Nat) (mem : Mem) : Mem :=
  debugRtattrTo lflaField lflaArray IflaAttr.size buf rta ifla mem

def debugRtattrToLfa (buf : Mem) (rta : AttrTable) (ifa : Nat) (mem : Mem) : Mem :=
  debugRtattrTo lfaField lfaArray IfaAttr.size buf rta ifa mem

/-- An `int` that is 1 or 0. -/
def intOfBool (b : Bool) : List UInt8 := Mem.bytes32 (if b then 1 else 0)

/-- Up to the print, which only reads. `ifall` is the address of the global. -/
def debugIfinfomsgHandle (buf : Mem) (nlh : Nat) (ifall : Nat) (mem : Mem) : Mem :=
  let mem := mem.write (ifall + IfAllinfo.ifUp) (intOfBool (flagSet (ifiFlags buf nlh) iffUp))
  let mem := mem.write (ifall + IfAllinfo.linkUp) (intOfBool (flagSet (ifiFlags buf nlh) iffLowerUp))
  debugRtattrToLfla buf (linkTable buf nlh) (ifall + IfAllinfo.lfla) mem

/-- Up to the print, as `debugIfinfomsgHandle`. -/
def debugIfaddrmsgHandle (buf : Mem) (nlh : Nat) (ifall : Nat) (mem : Mem) : Mem :=
  let mem := mem.write (ifall + IfAllinfo.newAddr) (intOfBool (nlmsgType buf nlh = rtmNewaddr))
  debugRtattrToLfa buf (addrTable buf nlh) (ifall + IfAllinfo.lfa) mem

/-! ## The decoders as copies to a layout -/

section Decoders

variable {field : Layout Nat} {buf mem : Mem} {rta : AttrTable} {base : Nat} {data : Nat → List UInt8}

theorem debugCopy_eq {type : Nat} (h : rtaPayload buf rta type = data type) :
    debugCopy field buf rta base mem type = field.copy base data mem type := by
  unfold debugCopy Layout.copy
  rw [h]
  cases hdata : data type with
  | nil => cases field type <;> simp
  | cons b bs =>
      refine (if_pos (by simp)).trans ?_
      cases field type <;> rfl

theorem debugRtattrTo_eq {array : List Nat} {size : Nat}
    (h : ∀ type ∈ array, rtaPayload buf rta type = data type) :
    debugRtattrTo field array size buf rta base mem = field.build base size data mem array := by
  unfold debugRtattrTo Layout.build Layout.fill
  exact List.foldl_ext _ _ _ fun mem type htype => debugCopy_eq (h type htype)

/-- A payload that fits its field changes nothing else. -/
theorem debugCopy_of_outside {type i : Nat} (h : rtaPayload buf rta type = data type)
    (hfit : ∀ f ∈ field type, (data type).length ≤ f.len)
    (hout : ∀ f ∈ field type, i < base + f.addr ∨ base + f.addr + f.len ≤ i) :
    debugCopy field buf rta base mem type i = mem i := by
  have hagree : (field.copy base data mem type).Agree mem i (i + 1) := by
    apply Layout.agree_copy
    intro f hf
    have hle := hfit f hf
    have hi := hout f hf
    omega
  rw [debugCopy_eq h]
  exact hagree i (Nat.le_refl i) (Nat.lt_succ_self i)

theorem debugRtattrTo_of_outside {array : List Nat} {size i : Nat}
    (h : ∀ type ∈ array, rtaPayload buf rta type = data type)
    (hend : ∀ type ∈ array, ∀ f ∈ field type, f.addr + (data type).length ≤ size)
    (hout : i < base ∨ base + size ≤ i) :
    debugRtattrTo field array size buf rta base mem i = mem i := by
  have hagree : (field.build base size data mem array).Agree mem i (i + 1) :=
    Layout.agree_build hend (by omega)
  rw [debugRtattrTo_eq h]
  exact hagree i (Nat.le_refl i) (Nat.lt_succ_self i)

end Decoders

theorem separate_lflaField : lflaField.Separate lflaArray := by decide

theorem separate_lfaField : lfaField.Separate lfaArray := by decide

theorem size_lflaField : ∀ type ∈ lflaArray, ∀ f ∈ lflaField type, f.addr + f.len ≤ IflaAttr.size := by
  decide

theorem size_lfaField : ∀ type ∈ lfaArray, ∀ f ∈ lfaField type, f.addr + f.len ≤ IfaAttr.size := by
  decide

theorem fits_lflaField {data : Nat → List UInt8} :
    lflaField.Fits data lflaArray ↔ (data iflaAddress).length ≤ 6 ∧ (data iflaBroadcast).length ≤ 6 ∧
      (data iflaIfname).length ≤ 16 ∧ (data iflaMtu).length ≤ 4 ∧ (data iflaLink).length ≤ 4 ∧
      (data iflaQdisc).length ≤ 37 := by
  simp [Layout.Fits, lflaArray, lflaField, iflaUnspec, iflaAddress, iflaBroadcast, iflaIfname, iflaMtu,
    iflaLink, iflaQdisc, iflaStats, IflaAttr.l2LocalAddr, IflaAttr.l2BroadcastAddr, IflaAttr.ifname,
    IflaAttr.mtu, IflaAttr.linkType, IflaAttr.qdisc]

theorem fits_lfaField {data : Nat → List UInt8} :
    lfaField.Fits data lfaArray ↔ (data ifaAddress).length ≤ 4 ∧ (data ifaLocal).length ≤ 4 ∧
      (data ifaLabel).length ≤ 6 ∧ (data ifaBroadcast).length ≤ 4 ∧ (data ifaAnycast).length ≤ 4 := by
  simp [Layout.Fits, lfaArray, lfaField, ifaUnspec, ifaAddress, ifaLocal, ifaLabel, ifaBroadcast,
    ifaAnycast, ifaCacheinfo, IfaAttr.protocalInterfaceAddr, IfaAttr.protocalLocalAddr, IfaAttr.ifname,
    IfaAttr.protocalBroadcastAddr, IfaAttr.protocalAnycastAddr]

/-! ## Messages of the kernel -/

/-- A string of `lo` to 15 characters, with its zero. -/
def KernelString (lo : Nat) (bs : List UInt8) : Prop :=
  ∃ name, bs = name ++ [0] ∧ 0 ∉ name ∧ lo ≤ name.length ∧ name.length ≤ 15

theorem KernelString.length_le {lo : Nat} {bs : List UInt8} (h : KernelString lo bs) :
    bs.length ≤ 16 := by
  obtain ⟨name, rfl, _, _, hle⟩ := h
  rw [List.length_append, List.length_singleton]
  omega

theorem KernelString.zero_mem {lo : Nat} {bs : List UInt8} (h : KernelString lo bs) : 0 ∈ bs := by
  obtain ⟨name, rfl, _⟩ := h
  exact List.mem_append_right name (List.mem_singleton_self 0)

namespace NlMsg

/-- The attributes of a link message are absent or have the kernel's lengths. -/
structure LinkLengths (m : NlMsg) : Prop where
  address : m.payload iflaAddress = [] ∨ (m.payload iflaAddress).length = 6
  broadcast : m.payload iflaBroadcast = [] ∨ (m.payload iflaBroadcast).length = 6
  ifname : m.payload iflaIfname = [] ∨ KernelString 1 (m.payload iflaIfname)
  mtu : m.payload iflaMtu = [] ∨ (m.payload iflaMtu).length = 4
  link : m.payload iflaLink = [] ∨ (m.payload iflaLink).length = 4
  qdisc : m.payload iflaQdisc = [] ∨ KernelString 0 (m.payload iflaQdisc)

/-- So are those of an address message. -/
structure AddrLengths (m : NlMsg) : Prop where
  interfaceAddr : m.payload ifaAddress = [] ∨ (m.payload ifaAddress).length = 4
  localAddr : m.payload ifaLocal = [] ∨ (m.payload ifaLocal).length = 4
  label : m.payload ifaLabel = [] ∨ KernelString 1 (m.payload ifaLabel)
  broadcast : m.payload ifaBroadcast = [] ∨ (m.payload ifaBroadcast).length = 4
  anycast : m.payload ifaAnycast = [] ∨ (m.payload ifaAnycast).length = 4

/-- The lengths of a message's attributes are the kernel's. -/
structure KernelLengths (m : NlMsg) : Prop where
  link : m.IsLink → m.LinkLengths
  addr : m.IsAddr → m.AddrLengths

/-- The name, the MTU and the hardware address of the node `y` are in the `IFLA_ATTR` at
`ifla`, if the message has them. -/
structure LinkStored (m : NlMsg) (mem : Mem) (ifla : Nat) (y : Attr) : Prop where
  ifname : cstr (mem.field ifla IflaAttr.ifname) = y.ifname
  mtu : m.mtu ≠ [] → mem.field ifla IflaAttr.mtu = y.mtu
  hwaddr : m.hwaddr ≠ [] → mem.field ifla IflaAttr.l2LocalAddr = y.hwaddr

/-- The name and the address that the handler copies into the node are in the `IFA_ATTR` at
`ifa`. The node is `z` after the copies and `y` in the end: `net_event_notify` clears an
address that has been deleted. -/
structure AddrStored (m : NlMsg) (mem : Mem) (ifa : Nat) (z y : Attr) : Prop where
  ifname : cstr (mem.field ifa IfaAttr.ifname) = y.ifname
  copied : m.ipaddr ≠ [] → mem.field ifa IfaAttr.protocalInterfaceAddr = z.ipaddr
  kept : m.type = rtmNewaddr → m.ipaddr ≠ [] →
    mem.field ifa IfaAttr.protocalInterfaceAddr = y.ipaddr

/-- The link message stands at `nlh`, and `ifall` anywhere in `mem`. Every field of the
`IFLA_ATTR` holds the payload of its attribute, no round of the loop changes a byte outside
its own field and no byte outside the structure is changed but for the two flags before it;
the handler, in any state, ends with a node that has what the structure has. -/
structure LinkAgrees (m : NlMsg) (buf : Mem) (nlh ifall : Nat) (mem : Mem) : Prop where
  fields : lflaField.Holds (ifall + IfAllinfo.lfla) m.payload
    (debugIfinfomsgHandle buf nlh ifall mem) lflaArray
  rounds : ∀ type ∈ lflaArray, ∀ base mem₁ i,
    (∀ f ∈ lflaField type, i < base + f.addr ∨ base + f.addr + f.len ≤ i) →
    debugCopy lflaField buf (linkTable buf nlh) base mem₁ type i = mem₁ i
  outside : ∀ i, i < ifall + IfAllinfo.ifUp ∨ ifall + IfAllinfo.newAddr ≤ i →
    i < ifall + IfAllinfo.lfla ∨ ifall + IfAllinfo.lfla + IflaAttr.size ≤ i →
    debugIfinfomsgHandle buf nlh ifall mem i = mem i
  stored : ∀ M s x, Good s → m.targetIn M s = some x →
    ∃ s', (m.handle M).run s = .ok () s' ∧ s'.attrOf m.name = some (m.node x) ∧
      m.LinkStored (debugIfinfomsgHandle buf nlh ifall mem) (ifall + IfAllinfo.lfla) (m.node x)

/-- The same for an address message and the `IFA_ATTR`. -/
structure AddrAgrees (m : NlMsg) (buf : Mem) (nlh ifall : Nat) (mem : Mem) : Prop where
  fields : lfaField.Holds (ifall + IfAllinfo.lfa) m.payload
    (debugIfaddrmsgHandle buf nlh ifall mem) lfaArray
  rounds : ∀ type ∈ lfaArray, ∀ base mem₁ i,
    (∀ f ∈ lfaField type, i < base + f.addr ∨ base + f.addr + f.len ≤ i) →
    debugCopy lfaField buf (addrTable buf nlh) base mem₁ type i = mem₁ i
  outside : ∀ i, i < ifall + IfAllinfo.newAddr ∨ ifall + IfAllinfo.lfla ≤ i →
    i < ifall + IfAllinfo.lfa ∨ ifall + IfAllinfo.lfa + IfaAttr.size ≤ i →
    debugIfaddrmsgHandle buf nlh ifall mem i = mem i
  stored : ∀ M s x, Good s → m.targetIn M s = some x →
    ∃ s', (m.handle M).run s = .ok () s' ∧ s'.attrOf m.name = some (m.node x) ∧
      m.AddrStored (debugIfaddrmsgHandle buf nlh ifall mem) (ifall + IfAllinfo.lfa) (m.update x)
        (m.node x)

/-- Wherever the message and `ifall` stand, the debug decoder agrees with the handler. -/
def DebugAgrees (m : NlMsg) : Prop :=
  ∀ buf nlh ifall mem, m.At buf nlh →
    (m.IsLink → m.LinkAgrees buf nlh ifall mem) ∧ (m.IsAddr → m.AddrAgrees buf nlh ifall mem)

variable {m : NlMsg} {buf mem : Mem} {nlh ifall : Nat}

/-! ## What the decoders find -/

theorem At.rtaPayload_linkTable (h : m.At buf nlh) (hlink : m.IsLink) :
    ∀ type ∈ lflaArray, rtaPayload buf (linkTable buf nlh) type = m.payload type := by
  intro type htype
  have hmax : ∀ type ∈ lflaArray, type ≤ iflaMax := by decide
  exact h.foundPayload_of_link hlink (hmax type htype)

theorem At.rtaPayload_addrTable (h : m.At buf nlh) (haddr : m.IsAddr) :
    ∀ type ∈ lfaArray, rtaPayload buf (addrTable buf nlh) type = m.payload type := by
  intro type htype
  have hmax : ∀ type ∈ lfaArray, type ≤ ifaMax := by decide
  exact h.foundPayload_of_addr haddr (hmax type htype)

theorem length_le_of_absent_or {bs : List UInt8} {n : Nat} (h : bs = [] ∨ bs.length = n) :
    bs.length ≤ n := by
  rcases h with rfl | h
  · exact Nat.zero_le n
  · exact h.le

theorem length_le_of_absent_or_string {bs : List UInt8} {lo : Nat} (h : bs = [] ∨ KernelString lo bs) :
    bs.length ≤ 16 := by
  rcases h with rfl | h
  · exact Nat.zero_le 16
  · exact h.length_le

/-- What the kernel sends about a link has room in an `IFLA_ATTR`. -/
theorem LinkLengths.fits (h : m.LinkLengths) : lflaField.Fits m.payload lflaArray :=
  fits_lflaField.mpr ⟨length_le_of_absent_or h.address, length_le_of_absent_or h.broadcast,
    length_le_of_absent_or_string h.ifname, length_le_of_absent_or h.mtu,
    length_le_of_absent_or h.link, (length_le_of_absent_or_string h.qdisc).trans (by decide)⟩

/-- In an `IFA_ATTR` only the label may be too long. -/
theorem AddrLengths.fits_iff (h : m.AddrLengths) :
    lfaField.Fits m.payload lfaArray ↔ (m.payload ifaLabel).length ≤ 6 := by
  rw [fits_lfaField]
  exact ⟨fun hfits => hfits.2.2.1, fun hlabel => ⟨length_le_of_absent_or h.interfaceAddr,
    length_le_of_absent_or h.localAddr, hlabel, length_le_of_absent_or h.broadcast,
    length_le_of_absent_or h.anycast⟩⟩

/-- The longest label ends in the structure. -/
theorem AddrLengths.ends (h : m.AddrLengths) : ∀ type ∈ lfaArray, ∀ f ∈ lfaField type,
    f.addr + (m.payload type).length ≤ IfaAttr.size := by
  have hinterface := length_le_of_absent_or h.interfaceAddr
  have hlocal := length_le_of_absent_or h.localAddr
  have hlabel := length_le_of_absent_or_string h.label
  have hbroadcast := length_le_of_absent_or h.broadcast
  have hanycast := length_le_of_absent_or h.anycast
  simp [lfaArray, lfaField, ifaUnspec, ifaAddress, ifaLocal, ifaLabel, ifaBroadcast, ifaAnycast,
    ifaCacheinfo, IfaAttr.protocalInterfaceAddr, IfaAttr.protocalLocalAddr, IfaAttr.ifname,
    IfaAttr.protocalBroadcastAddr, IfaAttr.protocalAnycastAddr, IfaAttr.size] at *
  omega

/-! ## What the handlers store -/

theorem KernelLengths.exact (h : m.KernelLengths) : m.Exact :=
  ⟨fun hlink => ⟨(h.link hlink).mtu, (h.link hlink).address⟩,
    fun haddr => (h.addr haddr).interfaceAddr⟩

theorem namePayload_of_link (hlink : m.IsLink) : m.namePayload = m.payload iflaIfname :=
  if_pos (.inl hlink)

theorem namePayload_of_addr (haddr : m.IsAddr) : m.namePayload = m.payload ifaLabel :=
  if_pos (.inr haddr)

theorem KernelLengths.namePayload (h : m.KernelLengths) :
    m.namePayload = [] ∨ KernelString 1 m.namePayload := by
  by_cases hlink : m.IsLink
  · rw [namePayload_of_link hlink]
    exact (h.link hlink).ifname
  · by_cases haddr : m.IsAddr
    · rw [namePayload_of_addr haddr]
      exact (h.addr haddr).label
    · exact .inl (if_neg (not_or.mpr ⟨hlink, haddr⟩))

theorem KernelLengths.nameFits (h : m.KernelLengths) : m.NameFits := by
  have hle := length_le_of_absent_or_string h.namePayload
  refine ⟨hle, ?_⟩
  rw [slice_ofList_rightpad hle, List.rightpad]
  rcases h.namePayload with hnil | hname
  · rw [hnil]
    decide
  · exact List.mem_append_left _ hname.zero_mem

theorem KernelLengths.name_eq (h : m.KernelLengths) : m.name = cstr m.namePayload := by
  rw [name, slice_ofList_rightpad (length_le_of_absent_or_string h.namePayload), cstr_rightpad]

end NlMsg

theorem Good.ifname_of_targetIn {M : Malloc} {m : NlMsg} {s : Sys} {x : Attr} (h : Good s)
    (hname : m.NameFits) (hx : m.targetIn M s = some x) : x.ifname = m.name := by
  rcases targetIn_cases hx with hattr | ⟨_, rfl⟩
  · obtain ⟨_, _, hifname⟩ := h.named.attrOf_eq_some.mp hattr
    exact hifname
  · exact ifname_freshAttr m.zero_notMem_name hname.length_name

/-- The handler does not fault, and ends with the node that `node` says. -/
theorem Good.run_handle_target {M : Malloc} {m : NlMsg} {s : Sys} {x : Attr} (h : Good s)
    (hlen : m.KernelLengths) (hx : m.targetIn M s = some x) :
    ∃ s', (m.handle M).run s = .ok () s' ∧ s'.attrOf m.name = some (m.node x) := by
  obtain ⟨s', hh⟩ := h.handled M hlen.nameFits fun _ => hlen.exact.fits.inBlock
  exact ⟨s', hh.run, by rw [hh.attrOf, if_pos rfl, hx, Option.map_some]⟩

namespace NlMsg

variable {m : NlMsg} {buf mem : Mem} {nlh ifall : Nat}

theorem LinkLengths.stored {base : Nat} {x : Attr} (h : m.LinkLengths) (hlink : m.IsLink)
    (hexact : m.Exact) (hifname : x.ifname = cstr (m.payload iflaIfname))
    (hfields : lflaField.Holds base m.payload mem lflaArray) : m.LinkStored mem base (m.node x) := by
  obtain ⟨_, _, hmtu, hhw⟩ := link_fields_of_link (x := x) hlink hexact
  refine ⟨?_, fun hne => ?_, fun hne => ?_⟩
  · rw [hfields iflaIfname (by decide) _ rfl, cstr_rightpad, ifname_node, hifname]
  · rw [hfields iflaMtu (by decide) _ rfl, hmtu, if_neg hne]
    exact rightpad_of_length (h.mtu.resolve_left hne)
  · rw [hfields iflaAddress (by decide) _ rfl, hhw, if_neg hne]
    exact rightpad_of_length (h.address.resolve_left hne)

theorem AddrLengths.stored {base : Nat} {x : Attr} (h : m.AddrLengths) (haddr : m.IsAddr)
    (hifname : x.ifname = cstr (m.payload ifaLabel))
    (hfields : lfaField.Holds base m.payload mem lfaArray) :
    m.AddrStored mem base (m.update x) (m.node x) := by
  have hfield : m.ipaddr ≠ [] → mem.field base IfaAttr.protocalInterfaceAddr = m.ipaddr := by
    intro hne
    rw [hfields ifaAddress (by decide) _ rfl]
    exact rightpad_of_length (h.interfaceAddr.resolve_left hne)
  refine ⟨?_, fun hne => ?_, fun htype hne => ?_⟩
  · rw [hfields ifaLabel (by decide) _ rfl, cstr_rightpad, ifname_node, hifname]
  · rw [hfield hne, ipaddr_update_of_addr haddr (h.interfaceAddr.resolve_left hne)]
  · rw [hfield hne, ipaddr_node_of_newaddr htype (h.interfaceAddr.resolve_left hne)]

/-! ## Agreement -/

theorem write_intOfBool {b : Bool} {o i : Nat} (h : i < o ∨ o + 4 ≤ i) :
    mem.write o (intOfBool b) i = mem i := by
  rcases h with hlt | hge
  · exact Mem.write_of_lt hlt
  · exact Mem.write_of_ge hge

theorem At.holds_debugIfinfomsgHandle (h : m.At buf nlh) (hlink : m.IsLink) (hlen : m.LinkLengths)
    (ifall : Nat) (mem : Mem) :
    lflaField.Holds (ifall + IfAllinfo.lfla) m.payload (debugIfinfomsgHandle buf nlh ifall mem)
      lflaArray := by
  unfold debugIfinfomsgHandle debugRtattrToLfla
  rw [debugRtattrTo_eq (h.rtaPayload_linkTable hlink)]
  exact (Layout.holds_build_iff separate_lflaField size_lflaField).mpr hlen.fits

theorem At.debugIfinfomsgHandle_of_outside (h : m.At buf nlh) (hlink : m.IsLink)
    (hlen : m.LinkLengths) {i : Nat}
    (hflags : i < ifall + IfAllinfo.ifUp ∨ ifall + IfAllinfo.newAddr ≤ i)
    (hstruct : i < ifall + IfAllinfo.lfla ∨ ifall + IfAllinfo.lfla + IflaAttr.size ≤ i) :
    debugIfinfomsgHandle buf nlh ifall mem i = mem i := by
  have hend : ∀ type ∈ lflaArray, ∀ f ∈ lflaField type,
      f.addr + (m.payload type).length ≤ IflaAttr.size := fun type htype f hf =>
    (Nat.add_le_add_left (hlen.fits type htype f hf) _).trans (size_lflaField type htype f hf)
  have hifUp : i < ifall + IfAllinfo.ifUp ∨ ifall + IfAllinfo.ifUp + 4 ≤ i := by
    simp only [IfAllinfo.ifUp, IfAllinfo.newAddr] at *
    omega
  have hlinkUp : i < ifall + IfAllinfo.linkUp ∨ ifall + IfAllinfo.linkUp + 4 ≤ i := by
    simp only [IfAllinfo.ifUp, IfAllinfo.linkUp, IfAllinfo.newAddr] at *
    omega
  unfold debugIfinfomsgHandle debugRtattrToLfla
  rw [debugRtattrTo_of_outside (h.rtaPayload_linkTable hlink) hend hstruct, write_intOfBool hlinkUp,
    write_intOfBool hifUp]

theorem At.linkAgrees (h : m.At buf nlh) (hlink : m.IsLink) (hlen : m.KernelLengths) :
    m.LinkAgrees buf nlh ifall mem := by
  have hlengths := hlen.link hlink
  have hfields := h.holds_debugIfinfomsgHandle hlink hlengths ifall mem
  refine ⟨hfields, fun type htype base mem₁ i hout => ?_, fun i hflags hstruct => ?_,
    fun M s x hs hx => ?_⟩
  · exact debugCopy_of_outside (h.rtaPayload_linkTable hlink type htype) (hlengths.fits type htype)
      hout
  · exact h.debugIfinfomsgHandle_of_outside hlink hlengths hflags hstruct
  · obtain ⟨s', hrun, hnode⟩ := hs.run_handle_target hlen hx
    refine ⟨s', hrun, hnode, hlengths.stored hlink hlen.exact ?_ hfields⟩
    rw [hs.ifname_of_targetIn hlen.nameFits hx, hlen.name_eq, namePayload_of_link hlink]

theorem At.holds_debugIfaddrmsgHandle_iff (h : m.At buf nlh) (haddr : m.IsAddr)
    (hlen : m.AddrLengths) (ifall : Nat) (mem : Mem) :
    lfaField.Holds (ifall + IfAllinfo.lfa) m.payload (debugIfaddrmsgHandle buf nlh ifall mem)
      lfaArray ↔ (m.payload ifaLabel).length ≤ 6 := by
  unfold debugIfaddrmsgHandle debugRtattrToLfa
  rw [debugRtattrTo_eq (h.rtaPayload_addrTable haddr),
    Layout.holds_build_iff separate_lfaField size_lfaField, hlen.fits_iff]

/-- However long the label is, no byte outside the structure changes but for `new_addr`. -/
theorem At.debugIfaddrmsgHandle_of_outside (h : m.At buf nlh) (haddr : m.IsAddr)
    (hlen : m.AddrLengths) {i : Nat}
    (hflag : i < ifall + IfAllinfo.newAddr ∨ ifall + IfAllinfo.lfla ≤ i)
    (hstruct : i < ifall + IfAllinfo.lfa ∨ ifall + IfAllinfo.lfa + IfaAttr.size ≤ i) :
    debugIfaddrmsgHandle buf nlh ifall mem i = mem i := by
  unfold debugIfaddrmsgHandle debugRtattrToLfa
  rw [debugRtattrTo_of_outside (h.rtaPayload_addrTable haddr) hlen.ends hstruct, write_intOfBool]
  simp only [IfAllinfo.newAddr, IfAllinfo.lfla] at *
  omega

/-- The label stands behind the two addresses in the array, so all of it stays, up to where
the broadcast address starts. -/
theorem At.debugIfaddrmsgHandle_label (h : m.At buf nlh) (haddr : m.IsAddr) {i : Nat}
    (hi : i < (m.payload ifaLabel).length) (hlt : i < IfaAttr.protocalBroadcastAddr.addr) :
    debugIfaddrmsgHandle buf nlh ifall mem (ifall + IfAllinfo.lfa + i) =
      (m.payload ifaLabel).getD i 0 := by
  unfold debugIfaddrmsgHandle debugRtattrToLfa
  rw [debugRtattrTo_eq (h.rtaPayload_addrTable haddr)]
  have hpost : ∀ type ∈ [ifaBroadcast, ifaAnycast, ifaCacheinfo], ∀ f ∈ lfaField type,
      IfaAttr.protocalBroadcastAddr.addr ≤ f.addr := by
    decide
  refine Layout.fill_apply_of_last [ifaUnspec, ifaAddress, ifaLocal] (k := ifaLabel)
    (f := IfaAttr.ifname) rfl hi fun type htype f hf => .inl ?_
  have hle := hpost type htype f hf
  simp only [IfaAttr.ifname] at *
  omega

theorem At.addrAgrees_iff (h : m.At buf nlh) (haddr : m.IsAddr) (hlen : m.KernelLengths) :
    m.AddrAgrees buf nlh ifall mem ↔ (m.payload ifaLabel).length ≤ 6 := by
  have hlengths := hlen.addr haddr
  have hholds := h.holds_debugIfaddrmsgHandle_iff haddr hlengths ifall mem
  refine ⟨fun hagrees => hholds.mp hagrees.fields, fun hlabel => ?_⟩
  have hfits := hlengths.fits_iff.mpr hlabel
  have hfields := hholds.mpr hlabel
  refine ⟨hfields, fun type htype base mem₁ i hout => ?_, fun i hflag hstruct => ?_,
    fun M s x hs hx => ?_⟩
  · exact debugCopy_of_outside (h.rtaPayload_addrTable haddr type htype) (hfits type htype) hout
  · exact h.debugIfaddrmsgHandle_of_outside haddr hlengths hflag hstruct
  · obtain ⟨s', hrun, hnode⟩ := hs.run_handle_target hlen hx
    refine ⟨s', hrun, hnode, hlengths.stored haddr ?_ hfields⟩
    rw [hs.ifname_of_targetIn hlen.nameFits hx, hlen.name_eq, namePayload_of_addr haddr]

end NlMsg

/-- The debug decoders agree with the handlers on every link message, and on an address
message if and only if its label is absent or has at most five characters. -/
theorem debug_agrees_iff (m : NlMsg) (hlen : m.KernelLengths) :
    m.DebugAgrees ↔ (m.IsAddr → (m.payload ifaLabel).length ≤ 6) := by
  constructor
  · intro h haddr
    exact (m.at_mem.addrAgrees_iff haddr hlen).mp ((h m.mem 0 0 m.mem m.at_mem).2 haddr)
  · intro h buf nlh ifall mem hat
    exact ⟨fun hlink => hat.linkAgrees hlink hlen,
      fun haddr => (hat.addrAgrees_iff haddr hlen).mpr (h haddr)⟩

/-- `eth0` fits, whatever else stands in the message. -/
theorem debug_agrees_eth0 : (eth0Addr rtmNewaddr 1).DebugAgrees := by
  have haddr : (eth0Addr rtmNewaddr 1).IsAddr := by decide +kernel
  have hlabel : (eth0Addr rtmNewaddr 1).payload ifaLabel = eth0 ++ [0] := by decide +kernel
  have hlengths : (eth0Addr rtmNewaddr 1).AddrLengths :=
    ⟨by decide +kernel, by decide +kernel,
      .inr ⟨eth0, hlabel, by decide, by decide, by decide⟩, by decide +kernel, by decide +kernel⟩
  have hlen : (eth0Addr rtmNewaddr 1).KernelLengths :=
    ⟨fun hlink => absurd hlink haddr.type_ne.2, fun _ => hlengths⟩
  refine (debug_agrees_iff _ hlen).mpr fun _ => ?_
  rw [hlabel]
  decide

/-- The string `enp0s3`. -/
def enp0s3 : List UInt8 := [101, 110, 112, 48, 115, 51]

/-- An address message for `enp0s3` and 10.0.0.5. -/
def enp0s3Addr : NlMsg :=
  .build rtmNewaddr (List.replicate 8 0 ++ rtattrBytes ifaAddress [10, 0, 0, 5] ++
    rtattrBytes ifaLabel (enp0s3 ++ [0])) (by simp [rtattrBytes, enp0s3])

/-- The zero behind `enp0s3` is copied over the first byte of the address: the handler stores
10.0.0.5, and the debug decoder shows 0.0.0.5. -/
theorem enp0s3_overruns : enp0s3Addr.IsAddr ∧ enp0s3Addr.KernelLengths ∧
    (∃ s', (enp0s3Addr.handle .bump).run Sys.init = .ok () s' ∧
      (s'.attrOf enp0s3).map Attr.ipaddr = some [10, 0, 0, 5]) ∧
    (debugIfaddrmsgHandle enp0s3Addr.mem 0 0 (Mem.ofList [])).field IfAllinfo.lfa
      IfaAttr.protocalInterfaceAddr = [0, 0, 0, 5] ∧
    ¬ enp0s3Addr.DebugAgrees := by
  have haddr : enp0s3Addr.IsAddr := by decide +kernel
  have hip : enp0s3Addr.payload ifaAddress = [10, 0, 0, 5] := by decide +kernel
  have hlabel : enp0s3Addr.payload ifaLabel = enp0s3 ++ [0] := by decide +kernel
  have hlengths : enp0s3Addr.AddrLengths :=
    ⟨by rw [hip]; decide, by decide +kernel,
      .inr ⟨enp0s3, hlabel, by decide, by decide, by decide⟩, by decide +kernel, by decide +kernel⟩
  have hruns : ((enp0s3Addr.handle .bump).run Sys.init).okAnd (fun s' =>
      (s'.attrOf enp0s3).map Attr.ipaddr = some [10, 0, 0, 5]) = true := by
    decide +kernel
  have hshown : (debugIfaddrmsgHandle enp0s3Addr.mem 0 0 (Mem.ofList [])).field IfAllinfo.lfa
      IfaAttr.protocalInterfaceAddr = [0, 0, 0, 5] := by
    decide +kernel
  obtain ⟨_, s', hrun, hstored⟩ := Outcome.exists_of_okAnd hruns
  refine ⟨haddr, ⟨fun hlink => absurd hlink haddr.type_ne.2, fun _ => hlengths⟩,
    ⟨s', hrun, of_decide_eq_true hstored⟩, hshown, fun hagrees => ?_⟩
  have hagree := (hagrees enp0s3Addr.mem 0 0 (Mem.ofList []) enp0s3Addr.at_mem).2 haddr
  have hfield := hagree.fields ifaAddress (by decide) IfaAttr.protocalInterfaceAddr rfl
  rw [Nat.zero_add, hshown, hip] at hfield
  exact absurd hfield (by decide)

end Netif
