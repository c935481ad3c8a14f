-- SUMMARY: The interface table's node operations (netif_list.c).
import LinuxShare.Netif.State

/-!
# netif_list.c

Adding, deleting and finding a node by name. A C string is the list of its bytes
without the terminator.
-/

namespace Netif

open Bytes Resumable

/-- `netif_node_add`, for a name that is not NULL. -/
def netifNodeAdd (M : Malloc) (ifname : List UInt8) : Step (Option Addr) := do
  match ← malloc M with
  | none => pure none
  | some newNode => do
    storeAttr newNode fun _ => Attr.zero
    storeAttr newNode fun a => a.setIfname ifname
    lock
    linkNode newNode headAddr
    unlock
    let n ← loadSum
    storeSum ((n + 1) % 2 ^ 32)
    pure (some newNode)

/-- The search that `netif_node_find` and `netif_node_del` share:
`common_list_for_each` with a `strcmp` per node, up to the first match. The first
argument bounds the rounds; see `blockCount`. -/
def findLoop (ifname : List UInt8) : Nat → Addr → Step (Option Addr)
  | 0, pos => if pos = headAddr then pure none else fail .diverges
  | n + 1, pos =>
    if pos = headAddr then pure none
    else do
      if ← loadAttr pos fun a => streq a 0 ifname then pure (some pos)
      else do
        let next ← loadNext pos
        findLoop ifname n next

/-- The walk from the list head, with the mutex held. -/
def findNode (ifname : List UInt8) : Step (Option Addr) := do
  let first ← loadNext headAddr
  let n ← blockCount
  findLoop ifname (n + 1) first

def netifNodeFind (ifname : List UInt8) : Step (Option Addr) := do
  lock
  let node ← findNode ifname
  unlock
  pure node

/-- `netif_node_del`. `list_sum--` is made in `unsigned`. -/
def netifNodeDel (ifname : List UInt8) : Step Int := do
  lock
  match ← findNode ifname with
  | some node => do
    unlinkNode node
    free node
    unlock
    let n ← loadSum
    storeSum ((n + (2 ^ 32 - 1)) % 2 ^ 32)
    pure 0
  | none => do
    unlock
    pure (-1)

end Netif
