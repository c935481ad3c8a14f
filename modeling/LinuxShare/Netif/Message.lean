-- SUMMARY: Netlink messages as values: what a handler reads of one, and why nothing else matters to it.
import LinuxShare.Netif.NetifEvent

/-!
# Messages

`NlMsg` is a message as `NLMSG_OK` lets it through, cut out of the buffer: its
bytes and nothing else. The handlers work on a pointer into the receive buffer;
here it is shown that what they do there is what they do on the message alone,
and that this depends on a handful of values: its type, its flags and the last
attribute of each type of interest.
-/

namespace Netif

open Bytes CInt Records Resumable

/-! ## The switch of the message loop -/

/-- The body of the loop in `netlink_event_handle`. -/
def dispatchMsg (M : Malloc) (buf : Mem) (nlh : Nat) : Step Unit :=
  let type := nlmsgType buf nlh
  if type = nlmsgDone ∨ type = nlmsgError then pure ()
  else if type = rtmNewlink ∨ type = rtmDellink then ifinfomsgHandle M type buf nlh
  else if type = rtmNewaddr ∨ type = rtmDeladdr then ifaddrmsgHandle M type buf nlh
  else pure ()

/-! ## Messages as values -/

/-- A message that `NLMSG_OK` accepts: at least a header, of the length that the
header says, which is a positive `int`. -/
structure NlMsg where
  bytes : List UInt8
  valid : nlmsg.Valid bytes
  isInt : bytes.length < 2 ^ 31

namespace NlMsg

variable (m : NlMsg)

def mem : Mem := Mem.ofList m.bytes

def type : Nat := nlmsgType m.mem 0

/-- The messages that `ifinfomsg_handle` gets. -/
def IsLink : Prop := m.type = rtmNewlink ∨ m.type = rtmDellink

/-- The messages that `ifaddrmsg_handle` gets. -/
def IsAddr : Prop := m.type = rtmNewaddr ∨ m.type = rtmDeladdr

instance : Decidable m.IsLink := inferInstanceAs (Decidable (_ ∨ _))

instance : Decidable m.IsAddr := inferInstanceAs (Decidable (_ ∨ _))

/-- Where the attributes start: after the `ifinfomsg` or the `ifaddrmsg`. -/
def attrsOff : Nat := if m.IsLink then 32 else 24

def attrs : List (List UInt8) :=
  rtattr.records m.mem m.attrsOff ((m.bytes.length : Int) - m.attrsOff)

/-- The payload of the last attribute of a type; empty when there is none. -/
def payload (type : Nat) : List UInt8 := lastPayload m.attrs type

/-- `ifi_flags` of a link message. -/
def flags : Nat := ifiFlags m.mem 0

/-- The payload of `IFLA_IFNAME` or `IFA_LABEL`, which have the same number. -/
def namePayload : List UInt8 := if m.IsLink ∨ m.IsAddr then m.payload iflaIfname else []

def mtu : List UInt8 := m.payload iflaMtu

def hwaddr : List UInt8 := m.payload iflaAddress

def ipaddr : List UInt8 := m.payload ifaAddress

/-- The name that a handler finds in its local array. -/
def name : List UInt8 := cstr ((Mem.ofList m.namePayload).slice 0 ifnameSize)

/-- The name's bytes fit the local array and leave a terminator in it. -/
def NameFits : Prop :=
  m.namePayload.length ≤ ifnameSize ∧ 0 ∈ (Mem.ofList m.namePayload).slice 0 ifnameSize

instance : Decidable m.NameFits := inferInstanceAs (Decidable (_ ∧ _))

/-- The handling of one message, cut out of its buffer. -/
def handle (M : Malloc) : Step Unit := dispatchMsg M m.mem 0

/-- The message stands at offset `nlh` of the buffer. -/
def At (buf : Mem) (nlh : Nat) : Prop := buf.slice nlh m.bytes.length = m.bytes

end NlMsg

/-! ## Writing messages -/

/-- An attribute as the kernel writes it, with its padding. -/
def rtattrBytes (type : Nat) (payload : List UInt8) : List UInt8 :=
  (Mem.bytes32 (rtaHdrlen + payload.length + 65536 * type)) ++ payload ++
    List.replicate (rtattr.pad payload.length - payload.length) 0

namespace NlMsg

/-- The message of the given type with `body` after its header. -/
def build (type : Nat) (body : List UInt8) (h : body.length + 16 < 2 ^ 31) : NlMsg where
  bytes := Mem.bytes32 (body.length + 16) ++
    (Mem.bytes32 type ++ List.replicate 8 0 ++ body)
  valid := by
    have hlen : (Mem.bytes32 (body.length + 16) ++
        (Mem.bytes32 type ++ List.replicate 8 0 ++ body)).length = body.length + 16 := by
      simp only [List.length_append, Mem.length_bytes32, List.length_replicate]
      omega
    refine ⟨hlen ▸ Nat.le_add_left 16 body.length, ?_⟩
    rw [hlen]
    exact Mem.le32_ofList_bytes32 (h.trans (by decide)) _
  isInt := by
    simp only [List.length_append, Mem.length_bytes32, List.length_replicate]
    omega

end NlMsg

/-- The string `eth0`. -/
def eth0 : List UInt8 := [101, 116, 104, 48]

/-- An address message for `eth0` and 10.0.0.`host`. -/
def eth0Addr (type : Nat) (host : UInt8) : NlMsg :=
  .build type (List.replicate 8 0 ++ rtattrBytes ifaAddress [10, 0, 0, host] ++
    rtattrBytes ifaLabel (eth0 ++ [0])) (by simp [rtattrBytes, eth0])

/-- A link message for `eth0`. -/
def eth0Link (type flags : Nat) : NlMsg :=
  .build type (List.replicate 8 0 ++ Mem.bytes32 flags ++ List.replicate 4 0 ++
    rtattrBytes iflaIfname (eth0 ++ [0])) (by simp [rtattrBytes, eth0])

/-- The string `lo`. -/
def lo : List UInt8 := [108, 111]

/-- A link message for `lo`. -/
def loLink (type flags : Nat) : NlMsg :=
  .build type (List.replicate 8 0 ++ Mem.bytes32 flags ++ List.replicate 4 0 ++
    rtattrBytes iflaIfname (lo ++ [0])) (by simp [rtattrBytes, lo])

/-- A link message for `eth0` with a hardware address, which need not be of 6 bytes. -/
def eth0Hwaddr (hwaddr : List UInt8) (h : hwaddr.length ≤ 32) : NlMsg :=
  .build rtmNewlink (List.replicate 16 0 ++ rtattrBytes iflaAddress hwaddr ++
    rtattrBytes iflaIfname (eth0 ++ [0])) (by
      have hpad : rtattr.pad hwaddr.length ≤ hwaddr.length + 7 := by
        rw [rtattr_pad]
        omega
      simp [rtattrBytes, eth0]
      omega)

/-! ## The handlers on what they read -/

/-- `dispatch_rta` on a payload. -/
def dispatchPayload {α : Type} (payload : List UInt8) (old : α) (memcpy : List UInt8 → Step α) :
    Step α :=
  if 0 < payload.length then memcpy payload else pure old

/-- What the handlers share: the name, then the node, then `body` on both. -/
def withNode (M : Malloc) (namePayload : List UInt8) (body : List UInt8 → Addr → Step Unit) :
    Step Unit := do
  let ifname ← dispatchPayload namePayload (Mem.ofList []) copyToIfname
  let ifname ← localString ifname
  if ifname.length = 0 then pure ()
  else do
    match ← findOrAdd M ifname with
    | none => pure ()
    | some node => body ifname node

/-- `ifinfomsg_handle` from the point where it has the node. -/
def linkBody (type flags : Nat) (mtu hwaddr ifname : List UInt8) (node : Addr) : Step Unit := do
  lock
  storeAttr node fun a => a.setUp (flagSet flags iffUp)
  storeAttr node fun a => a.setPortLink (flagSet flags iffLowerUp)
  dispatchPayload mtu () (copyToNode node .mtu)
  dispatchPayload hwaddr () (copyToNode node .hwaddr)
  unlock
  if type = rtmNewlink then do
    let up ← loadAttr node Attr.up
    log (.rtmNewlink ifname up)
    let up ← loadAttr node Attr.up
    netEventNotify ifname (if up then .ifUp else .ifDown)
  else if type = rtmDellink then do
    let up ← loadAttr node Attr.up
    log (.rtmDellink ifname up)
    netEventNotify ifname .ifDown
  else pure ()

/-- `ifaddrmsg_handle` from the point where it has the node. -/
def addrBody (type : Nat) (ipaddr ifname : List UInt8) (node : Addr) : Step Unit := do
  lock
  dispatchPayload ipaddr () (copyToNode node .ipaddr)
  unlock
  if type = rtmNewaddr then do
    log (.rtmNewaddr ifname)
    netEventNotify ifname .ifNewaddr
  else if type = rtmDeladdr then do
    log (.rtmDeladdr ifname)
    netEventNotify ifname .ifDeladdr
  else pure ()

/-- The payload that either handler finds for attribute type `t`, with its fixed
header of `hdr` bytes. -/
def foundPayload (buf : Mem) (nlh hdr max t : Nat) : List UInt8 :=
  rtaPayload buf
    (parseRtattr .zero max buf (nlmsgData nlh + nlmsgAlign hdr)
      (toInt (nlmsgLen buf nlh - nlmsgSpace hdr))) t

theorem ifinfomsgHandle_eq (M : Malloc) (type : Nat) (buf : Mem) (nlh : Nat) :
    ifinfomsgHandle M type buf nlh = withNode M (foundPayload buf nlh 16 iflaMax iflaIfname)
      (linkBody type (ifiFlags buf nlh) (foundPayload buf nlh 16 iflaMax iflaMtu)
        (foundPayload buf nlh 16 iflaMax iflaAddress)) :=
  rfl

theorem ifaddrmsgHandle_eq (M : Malloc) (type : Nat) (buf : Mem) (nlh : Nat) :
    ifaddrmsgHandle M type buf nlh = withNode M (foundPayload buf nlh 8 ifaMax ifaLabel)
      (addrBody type (foundPayload buf nlh 8 ifaMax ifaAddress)) :=
  rfl

/-- Without a name nothing happens. -/
theorem withNode_nil (M : Malloc) (body : List UInt8 → Addr → Step Unit) :
    withNode M [] body = pure () := by
  have hlocal : localString (Mem.ofList []) = pure [] := if_pos (by decide)
  simp [withNode, dispatchPayload, hlocal]

namespace NlMsg

variable {m : NlMsg} {buf : Mem} {nlh : Nat}

theorem at_mem (m : NlMsg) : m.At m.mem 0 := Mem.slice_ofList m.bytes

theorem At.agree (h : m.At buf nlh) : (buf.shift nlh).Agree m.mem 0 m.bytes.length := by
  have hslice : (buf.shift nlh).slice 0 m.bytes.length = m.mem.slice 0 m.bytes.length := by
    rw [Mem.slice_shift, Nat.add_zero, m.at_mem]
    exact h
  simpa using Mem.agree_of_slice_eq hslice

theorem hdr_le (m : NlMsg) : 16 ≤ m.bytes.length := m.valid.1

theorem At.nlmsgLen_eq (h : m.At buf nlh) : nlmsgLen buf nlh = m.bytes.length := by
  have hfield : m.mem.le32 0 = m.bytes.length := m.valid.2
  have hle := m.hdr_le
  have hagree := Mem.le32_congr (h.agree.mono (Nat.le_refl 0) (by omega : 0 + 4 ≤ m.bytes.length))
  rw [nlmsgLen, ← hfield, ← hagree, Mem.le32_shift, Nat.add_zero]

theorem At.nlmsgType_eq (h : m.At buf nlh) : nlmsgType buf nlh = m.type := by
  have hle := m.hdr_le
  have hagree := Mem.le16_congr (h.agree.mono (Nat.zero_le 4) (by omega : 4 + 2 ≤ m.bytes.length))
  rw [NlMsg.type, nlmsgType, nlmsgType, Nat.zero_add, ← hagree, Mem.le16_shift]

/-- What the parser finds in the buffer is what stands in the message. -/
theorem At.foundPayload_eq (h : m.At buf nlh) {hdr max t : Nat} (hspace : nlmsgSpace hdr = hdr + 16)
    (halign : nlmsgAlign hdr = hdr) (hhdr : hdr ≤ 16) (ht : t ≤ max) :
    foundPayload buf nlh hdr max t =
      lastPayload (rtattr.records m.mem (hdr + 16) ((m.bytes.length : Int) - (hdr + 16 : Nat))) t := by
  have hle := m.hdr_le
  have hlt := m.isInt
  have hint : IsInt ((m.bytes.length : Int) - (hdr + 16 : Nat)) := by constructor <;> omega
  have hagree : (buf.shift nlh).Agree m.mem (hdr + 16)
      (hdr + 16 + ((m.bytes.length : Int) - (hdr + 16 : Nat)).toNat) := by
    intro i hlo hhi
    exact h.agree i (Nat.zero_le i) (by omega)
  have hoff : nlmsgData nlh + nlmsgAlign hdr = nlh + (hdr + 16) := by
    rw [halign, nlmsgData, Nat.add_assoc, Nat.add_comm nlmsgHdrlen]
  rw [foundPayload, h.nlmsgLen_eq, hspace, toInt_of_isInt hint, hoff,
    rtaPayload_parse_zero hint (by exact_mod_cast ht), ← Framing.records_shift,
    Framing.records_congr hagree]

/-- A message that is shorter than its fixed header has no attributes. -/
theorem payload_of_short (h : m.bytes.length < m.attrsOff + rtaHdrlen) (t : Nat) :
    m.payload t = [] := by
  have hnot : ¬ rtattr.Fits m.mem m.attrsOff ((m.bytes.length : Int) - m.attrsOff) := by
    rintro ⟨hlen, _, _⟩
    rw [rtattr_hdr] at hlen
    omega
  rw [payload, attrs, Framing.records_of_not_fits hnot]
  rfl

/-- Nor has it a name. -/
theorem name_of_short (h : m.bytes.length < m.attrsOff) : m.name = [] := by
  have hname : m.namePayload = [] := by
    unfold namePayload
    split
    · exact payload_of_short (by omega) iflaIfname
    · rfl
  rw [name, hname]
  rfl

theorem At.flags_eq (h : m.At buf nlh) (hlen : 28 ≤ m.bytes.length) :
    ifiFlags buf nlh = m.flags := by
  have hagree := Mem.le32_congr (h.agree.mono (Nat.zero_le 24) hlen)
  rw [Mem.le32_shift] at hagree
  exact hagree

theorem IsLink.type_ne (h : m.IsLink) : ¬ (m.type = nlmsgDone ∨ m.type = nlmsgError) := by
  rcases h with h | h <;> rw [h] <;> decide

theorem IsAddr.type_ne (h : m.IsAddr) :
    ¬ (m.type = nlmsgDone ∨ m.type = nlmsgError) ∧ ¬ m.IsLink := by
  unfold IsLink
  rcases h with h | h <;> rw [h] <;> decide

/-- A handler from the point where it has the node, on the values it reads of the
message. -/
def body (m : NlMsg) : List UInt8 → Addr → Step Unit :=
  if m.IsLink then linkBody m.type m.flags m.mtu m.hwaddr else addrBody m.type m.ipaddr

theorem At.foundPayload_of_link (h : m.At buf nlh) (hlink : m.IsLink) {t : Nat} (ht : t ≤ iflaMax) :
    foundPayload buf nlh 16 iflaMax t = m.payload t := by
  have hoff : m.attrsOff = 32 := if_pos hlink
  rw [h.foundPayload_eq (by decide) (by decide) (Nat.le_refl 16) ht, payload, attrs, hoff]

theorem At.foundPayload_of_addr (h : m.At buf nlh) (haddr : m.IsAddr) {t : Nat} (ht : t ≤ ifaMax) :
    foundPayload buf nlh 8 ifaMax t = m.payload t := by
  have hoff : m.attrsOff = 24 := if_neg haddr.type_ne.2
  rw [h.foundPayload_eq (by decide) (by decide) (by decide) ht, payload, attrs, hoff]

/-- Flags are read only when there is a name, and then the message has them. -/
theorem At.ifinfomsgHandle_eq (h : m.At buf nlh) (hlink : m.IsLink) (M : Malloc) :
    ifinfomsgHandle M m.type buf nlh =
      withNode M m.namePayload (linkBody m.type m.flags m.mtu m.hwaddr) := by
  have hoff : m.attrsOff = 32 := if_pos hlink
  have hname : m.namePayload = m.payload iflaIfname := if_pos (.inl hlink)
  rw [Netif.ifinfomsgHandle_eq, h.foundPayload_of_link hlink (by decide),
    h.foundPayload_of_link hlink (by decide), h.foundPayload_of_link hlink (by decide), hname]
  by_cases hlen : 28 ≤ m.bytes.length
  · rw [h.flags_eq hlen]
    rfl
  · rw [m.payload_of_short (by rw [hoff]; omega), withNode_nil, withNode_nil]

theorem At.ifaddrmsgHandle_eq (h : m.At buf nlh) (haddr : m.IsAddr) (M : Malloc) :
    ifaddrmsgHandle M m.type buf nlh = withNode M m.namePayload (addrBody m.type m.ipaddr) := by
  have hname : m.namePayload = m.payload ifaLabel := if_pos (.inr haddr)
  rw [Netif.ifaddrmsgHandle_eq, h.foundPayload_of_addr haddr (by decide),
    h.foundPayload_of_addr haddr (by decide), hname]
  rfl

/-- Wherever a message stands in whatever buffer, handling it is the same program. -/
theorem At.dispatchMsg_eq (h : m.At buf nlh) (M : Malloc) :
    dispatchMsg M buf nlh = withNode M m.namePayload m.body := by
  unfold dispatchMsg body
  rw [h.nlmsgType_eq]
  by_cases hlink : m.IsLink
  · simp only [if_neg hlink.type_ne, if_pos hlink, ← h.ifinfomsgHandle_eq hlink M]
    exact if_pos hlink
  · by_cases haddr : m.IsAddr
    · simp only [if_neg haddr.type_ne.1, if_neg hlink, ← h.ifaddrmsgHandle_eq haddr M]
      exact (if_neg hlink).trans (if_pos haddr)
    · have hname : m.namePayload = [] := if_neg (not_or.mpr ⟨hlink, haddr⟩)
      rw [hname, withNode_nil]
      dsimp only
      split
      · rfl
      · exact (if_neg hlink).trans (if_neg haddr)

theorem handle_eq (m : NlMsg) (M : Malloc) : m.handle M = withNode M m.namePayload m.body :=
  m.at_mem.dispatchMsg_eq M

theorem handle_of_other (h : ¬ (m.IsLink ∨ m.IsAddr)) (M : Malloc) : m.handle M = pure () := by
  have hname : m.namePayload = [] := if_neg h
  rw [m.handle_eq, hname, withNode_nil]

end NlMsg

/-- Messages handled one after the other. -/
def handleAll (M : Malloc) (ms : List NlMsg) : Step Unit := ms.forM fun m => m.handle M

theorem handleAll_cons (M : Malloc) (m : NlMsg) (ms : List NlMsg) :
    handleAll M (m :: ms) = (m.handle M >>= fun _ => handleAll M ms) := rfl

theorem handleAll_append (M : Malloc) (ms ms' : List NlMsg) :
    handleAll M (ms ++ ms') = (handleAll M ms >>= fun _ => handleAll M ms') :=
  Prog.forM_append ms ms'

end Netif
