-- SUMMARY: What an operation under the mutex does to a list that need not be counted.
import LinuxShare.Netif.Threads

/-!
# The linked nodes

While a thread is in the middle of a call there are blocks that are not in the list
and `list_sum` is late. What the sections under the mutex do to the list itself does
not depend on that.
-/

namespace Netif

open Resumable

namespace Linked

variable {s : Sys} {t t₁ t₂ : Table} {a : Addr} {x : Attr} {M : Malloc} {ifname : List UInt8}

theorem emits (h : Linked s t) (evs : List Event) : Linked (s.emits evs) t :=
  ⟨h.ring, h.attrs, h.mutex, h.ready⟩

/-- A new block is put in front. -/
theorem run_link (h : Linked s t) (ha : a ∈ s.attrs) :
    ((TableOp.link a ifname).exec M).run s =
      .ok () { s with links := commonListAdd s.links a headAddr } := by
  have hlink := h.run_linkNode ha
  have hmutex := h.mutex
  obtain ⟨links, attrs, sum, mutex, ready, early, trace⟩ := s
  obtain rfl : mutex = .unlocked := hmutex
  simp [TableOp.exec, lock, hlink, unlock]

/-- The node that is found is unlinked and freed. -/
theorem run_del (h : Linked s (t₁ ++ (a, x) :: t₂))
    (hfind : Table.find (t₁ ++ (a, x) :: t₂) ifname = some a) :
    ((TableOp.del ifname).exec M).run s =
      .ok (some a) { s with links := commonListDel s.links a, attrs := s.attrs.erase a } := by
  have hwalk := run_lock_findNode h ifname
  have hunlink := h.run_unlinkNode
  have hmutex := h.mutex
  obtain ⟨links, attrs, sum, mutex, ready, early, trace⟩ := s
  obtain rfl : mutex = .unlocked := hmutex
  rw [TableOp.exec, ← bind_assoc, Prog.run_bind, hwalk, hfind]
  simp [hunlink, free, unlock]

theorem run_del_none (h : Linked s t) (hfind : t.find ifname = none) :
    ((TableOp.del ifname).exec M).run s = .ok none s := by
  have hwalk := run_lock_findNode h ifname
  rw [TableOp.exec, ← bind_assoc, Prog.run_bind, hwalk, hfind]
  simp [unlock, h.unlock_eq]

end Linked

end Netif
