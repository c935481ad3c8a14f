-- SUMMARY: The link and address message handlers (netif_event.c).
import LinuxShare.Netif.Rtnetlink
import LinuxShare.Netif.NetifList

/-!
# netif_event.c: message handlers

`ifinfomsg_handle` and `ifaddrmsg_handle` take a message in the receive buffer,
find or create the node it names, copy attributes into the node and announce the
event. Both parse the message's attributes first; where the message is shorter
than its fixed header, the attribute length is negative and nothing is found.
-/

namespace Netif

open Bytes CInt Resumable

/-- `dispatch_rta(rta,type,buf)`: copy the payload, unless it is absent or empty.
`memcpy` is the copy into `buf`, and `old` what stands there if none is made. -/
def dispatchRta {α : Type} (buf : Mem) (rta : AttrTable) (type : Nat) (old : α)
    (memcpy : List UInt8 → Step α) : Step α :=
  if 0 < (rtaPayload buf rta type).length then memcpy (rtaPayload buf rta type) else pure old

/-- `NETIF_EVENT_TYPE`. -/
inductive NetifEventType where
  | ifDown | ifUp | ifDeladdr | ifNewaddr
  deriving DecidableEq

def NetifEventType.val : NetifEventType → Nat
  | ifDown => 1
  | ifUp => 2
  | ifDeladdr => 3
  | ifNewaddr => 4

def netEventNotify (ifname : List UInt8) (type : NetifEventType) : Step Unit := do
  match ← netifNodeFind ifname with
  | none => pure ()
  | some node => do
    let current ← loadAttr node Attr.currentState
    if current ≠ type.val then
      match type with
      | .ifUp => log (.up ifname)
      | .ifDown => log (.down ifname)
      | .ifNewaddr => do
        let ipaddr ← loadAttr node Attr.ipaddr
        log (.newAddr ipaddr)
      | .ifDeladdr => do
        log (.delAddr ifname)
        lock
        storeAttr node Attr.clearIpaddr
        unlock
        let ipaddr ← loadAttr node Attr.ipaddr
        log (.nowAddr ipaddr)
    lock
    storeAttr node fun a => a.setCurrentState type.val
    unlock

/-- `strlen` of the local `ifname` array, and the string it holds. A missing
terminator makes it read past the array. -/
def localString (ifname : Mem) : Step (List UInt8) :=
  if 0 ∈ ifname.slice 0 ifnameSize then pure (cstr (ifname.slice 0 ifnameSize))
  else fail .unterminated

/-- The node of that name, created if there is none. -/
def findOrAdd (M : Malloc) (ifname : List UInt8) : Step (Option Addr) := do
  match ← netifNodeFind ifname with
  | some node => pure (some node)
  | none => netifNodeAdd M ifname

/-- The byte offset of `ifi_flags` in a link message. -/
def ifiFlags (buf : Mem) (nlh : Nat) : Nat := buf.le32 (nlmsgData nlh + 8)

/-- `flags & bit`, for a single bit. -/
def flagSet (flags bit : Nat) : Bool := flags &&& bit ≠ 0

def ifinfomsgHandle (M : Malloc) (type : Nat) (buf : Mem) (nlh : Nat) : Step Unit := do
  let len := toInt (nlmsgLen buf nlh - nlmsgSpace 16)
  let tb := parseRtattr .zero iflaMax buf (nlmsgData nlh + nlmsgAlign 16) len
  let ifname ← dispatchRta buf tb iflaIfname (Mem.ofList []) copyToIfname
  let ifname ← localString ifname
  if ifname.length = 0 then pure ()
  else do
    match ← findOrAdd M ifname with
    | none => pure ()
    | some node => do
      lock
      storeAttr node fun a => a.setUp (flagSet (ifiFlags buf nlh) iffUp)
      storeAttr node fun a => a.setPortLink (flagSet (ifiFlags buf nlh) iffLowerUp)
      dispatchRta buf tb iflaMtu () (copyToNode node .mtu)
      dispatchRta buf tb iflaAddress () (copyToNode node .hwaddr)
      unlock
      if type = rtmNewlink then do
        let up ← loadAttr node Attr.up
        log (.rtmNewlink ifname up)
        let up ← loadAttr node Attr.up
        netEventNotify ifname (if up then .ifUp else .ifDown)
      else if type = rtmDellink then do
        let up ← loadAttr node Attr.up
        log (.rtmDellink ifname up)
        netEventNotify ifname .ifDown
      else pure ()

def ifaddrmsgHandle (M : Malloc) (type : Nat) (buf : Mem) (nlh : Nat) : Step Unit := do
  let len := toInt (nlmsgLen buf nlh - nlmsgSpace 8)
  let tb := parseRtattr .zero ifaMax buf (nlmsgData nlh + nlmsgAlign 8) len
  let ifname ← dispatchRta buf tb ifaLabel (Mem.ofList []) copyToIfname
  let ifname ← localString ifname
  if ifname.length = 0 then pure ()
  else do
    match ← findOrAdd M ifname with
    | none => pure ()
    | some node => do
      lock
      dispatchRta buf tb ifaAddress () (copyToNode node .ipaddr)
      unlock
      if type = rtmNewaddr then do
        log (.rtmNewaddr ifname)
        netEventNotify ifname .ifNewaddr
      else if type = rtmDeladdr then do
        log (.rtmDeladdr ifname)
        netEventNotify ifname .ifDeladdr
      else pure ()

end Netif
