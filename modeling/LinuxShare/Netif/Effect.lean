-- SUMMARY: What one message does to the attributes of the node it names, as a function.
import LinuxShare.Netif.Message
import LinuxShare.Netif.Table

/-!
# The effect of a message on a node

The handlers' writes to one node, put together: `linkAttr` and `addrAttr` are the
attribute copies, `notifyAttr` and `notifyLog` are `net_event_notify`. A field
keeps its value under every write that ends before it or starts after it.
-/

namespace Netif

open Bytes Resumable

/-! ## Fields under writes -/

namespace Attr

variable {x : Attr} {o n : Nat} {bs : List UInt8} {b : Bool}

theorem up_write (h : 17 ≤ o ∨ o + bs.length ≤ 16) : up (x.write o bs) = x.up := by
  rw [up, Mem.agree_write h 16 (Nat.le_refl 16) (Nat.lt_succ_self 16)]
  rfl

theorem portLink_write (h : 18 ≤ o ∨ o + bs.length ≤ 17) :
    portLink (x.write o bs) = x.portLink := by
  rw [portLink, Mem.agree_write h 17 (Nat.le_refl 17) (Nat.lt_succ_self 17)]
  rfl

theorem up_congr {y : Attr} (h : x.Agree y 16 17) : x.up = y.up := by
  rw [up, h 16 (Nat.le_refl 16) (Nat.lt_succ_self 16), up]

theorem portLink_congr {y : Attr} (h : x.Agree y 17 18) : x.portLink = y.portLink := by
  rw [portLink, h 17 (Nat.le_refl 17) (Nat.lt_succ_self 17), portLink]

theorem mtu_write (h : 24 ≤ o ∨ o + bs.length ≤ 20) : mtu (x.write o bs) = x.mtu :=
  Mem.slice_write_of_disjoint h

theorem hwaddr_write (h : 34 ≤ o ∨ o + bs.length ≤ 28) : hwaddr (x.write o bs) = x.hwaddr :=
  Mem.slice_write_of_disjoint h

theorem ipaddr_write (h : 38 ≤ o ∨ o + bs.length ≤ 34) : ipaddr (x.write o bs) = x.ipaddr :=
  Mem.slice_write_of_disjoint h

@[simp] theorem up_setUp : (x.setUp b).up = b := by
  rw [up, setUp, Mem.write_of_mem (Nat.le_refl 16) (by simp)]
  cases b <;> rfl

@[simp] theorem portLink_setPortLink : (x.setPortLink b).portLink = b := by
  rw [portLink, setPortLink, Mem.write_of_mem (Nat.le_refl 17) (by simp)]
  cases b <;> rfl

@[simp] theorem currentState_setCurrentState (h : n < 2 ^ 32) :
    (x.setCurrentState n).currentState = n :=
  Mem.le32_write_bytes32 x 24 n h

@[simp] theorem ipaddr_clearIpaddr : x.clearIpaddr.ipaddr = List.replicate 4 0 :=
  Mem.slice_write_self x 34 (List.replicate 4 0)

end Attr

/-! ## net_event_notify on a node -/

/-- `node->attr` after `net_event_notify`. -/
def notifyAttr (type : NetifEventType) (x : Attr) : Attr :=
  (if x.currentState ≠ type.val ∧ type = .ifDeladdr then x.clearIpaddr else x).setCurrentState
    type.val

/-- The lines that `net_event_notify` logs. -/
def notifyLog (ifname : List UInt8) (type : NetifEventType) (x : Attr) : List LogLine :=
  if x.currentState ≠ type.val then
    match type with
    | .ifUp => [.up ifname]
    | .ifDown => [.down ifname]
    | .ifNewaddr => [.newAddr x.ipaddr]
    | .ifDeladdr => [.delAddr ifname, .nowAddr x.clearIpaddr.ipaddr]
  else []

/-- The search for `name` finds node `a`, whatever the other attributes of `a` are. -/
def FoundAt (s : Sys) (a : Addr) (name : List UInt8) : Prop :=
  ∀ x evs, streq x 0 name = true →
    (netifNodeFind name).run (s.focus .unlocked a x evs) = .ok (some a) (s.focus .unlocked a x evs)

theorem Repr.foundAt {s : Sys} {t₁ t₂ : Table} {a : Addr} {x : Attr} {name : List UInt8}
    (h : Repr s (t₁ ++ (a, x) :: t₂)) (hfirst : ∀ p ∈ t₁, streq p.2 0 name = false) :
    FoundAt s a name := by
  intro y evs hy
  rw [run_netifNodeFind (h.focus y evs) name, Table.find_append_cons hy hfirst]

theorem run_netEventNotify {s : Sys} {a : Addr} {name : List UInt8} {x : Attr} {evs : List Event}
    (hfound : FoundAt s a name) (hx : streq x 0 name = true) (type : NetifEventType) :
    (netEventNotify name type).run (s.focus .unlocked a x evs) =
      .ok () (s.focus .unlocked a (notifyAttr type x)
        (evs ++ (notifyLog name type x).map .log)) := by
  unfold netEventNotify notifyAttr notifyLog
  rw [Prog.run_bind, hfound x evs hx, Outcome.bind_ok]
  by_cases hstate : x.currentState = type.val
  · simp [hstate]
  · cases type <;> simp [hstate]

/-! ## The attribute copies -/

theorem Dst.add_le_attrSize {dst : Dst} {n : Nat} (h : n ≤ attrSize - dst.off) :
    dst.off + n ≤ attrSize :=
  Nat.add_le_of_le_sub' (by cases dst <;> decide) h

/-- A copy is made only of a payload that is there. -/
def copyEvents (dst : Dst) (payload : List UInt8) : List Event :=
  if 0 < payload.length then [.copy dst payload.length] else []

def linkAttr (flags : Nat) (mtu hwaddr : List UInt8) (x : Attr) : Attr :=
  (((x.setUp (flagSet flags iffUp)).setPortLink (flagSet flags iffLowerUp)).write Dst.mtu.off
    mtu).write Dst.hwaddr.off hwaddr

def addrAttr (ipaddr : List UInt8) (x : Attr) : Attr := x.write Dst.ipaddr.off ipaddr

theorem run_dispatchPayload_node {s : Sys} {mu : Mutex} {a : Addr} {x : Attr} {evs : List Event}
    {dst : Dst} {payload : List UInt8} (h : dst.off + payload.length ≤ attrSize) :
    (dispatchPayload payload () (copyToNode a dst)).run (s.focus mu a x evs) =
      .ok () (s.focus mu a (x.write dst.off payload) (evs ++ copyEvents dst payload)) := by
  unfold dispatchPayload copyEvents
  cases payload with
  | nil => simp
  | cons b bs => simp [run_copyToNode_focus h]

theorem run_dispatchPayload_node_overrun {s : Sys} {mu : Mutex} {a : Addr} {x : Attr}
    {evs : List Event} {dst : Dst} {payload : List UInt8} (h : ¬ dst.off + payload.length ≤ attrSize) :
    ∃ s', (dispatchPayload payload () (copyToNode a dst)).run (s.focus mu a x evs) =
      .fault .overrun s' := by
  unfold dispatchPayload
  cases payload with
  | nil => exact absurd (by cases dst <;> decide) h
  | cons b bs =>
      rw [if_pos (by simp)]
      exact ⟨_, run_copyToNode_focus_overrun h⟩

/-! ## The fields of a node after a message -/

section Fields

variable {x : Attr} {type : NetifEventType} {flags : Nat} {mtu hwaddr ipaddr : List UInt8}

theorem currentState_notifyAttr : (notifyAttr type x).currentState = type.val := by
  unfold notifyAttr
  exact Attr.currentState_setCurrentState (by cases type <;> decide)

theorem ipaddr_notifyAttr : (notifyAttr type x).ipaddr =
    if x.currentState ≠ type.val ∧ type = .ifDeladdr then List.replicate 4 0 else x.ipaddr := by
  unfold notifyAttr Attr.setCurrentState
  rw [Attr.ipaddr_write (.inr (by simp))]
  split
  · exact Attr.ipaddr_clearIpaddr
  · rfl

/-- `net_event_notify` changes `current_state` and `ipaddr` only. -/
theorem agree_notifyAttr {lo hi : Nat} (h : hi ≤ 24 ∨ 28 ≤ lo ∧ hi ≤ 34 ∨ 38 ≤ lo) :
    (notifyAttr type x).Agree x lo hi := by
  have hstate : ∀ y : Attr, (y.setCurrentState type.val).Agree y lo hi := fun y =>
    Mem.agree_write (by simp only [Mem.length_bytes32]; omega)
  have hclear : x.clearIpaddr.Agree x lo hi :=
    Mem.agree_write (by simp only [List.length_replicate]; omega)
  unfold notifyAttr
  intro i hlo hhi
  rw [hstate _ i hlo hhi]
  split
  · exact hclear i hlo hhi
  · rfl

theorem up_linkAttr : (linkAttr flags mtu hwaddr x).up = flagSet flags iffUp := by
  unfold linkAttr
  rw [Attr.up_write (.inl (by decide)), Attr.up_write (.inl (by decide)), Attr.setPortLink,
    Attr.up_write (.inl (by decide)), Attr.up_setUp]

theorem portLink_linkAttr : (linkAttr flags mtu hwaddr x).portLink = flagSet flags iffLowerUp := by
  unfold linkAttr
  rw [Attr.portLink_write (.inl (by decide)), Attr.portLink_write (.inl (by decide)),
    Attr.portLink_setPortLink]

/-- Nothing that a link message copies reaches the name, and what fits its field
leaves `current_state` and `ipaddr` alone. -/
theorem agree_linkAttr {lo hi : Nat} (hmtu : mtu.length ≤ Dst.mtu.size)
    (hhw : hwaddr.length ≤ Dst.hwaddr.size)
    (h : hi ≤ 16 ∨ 18 ≤ lo ∧ hi ≤ 20 ∨ 24 ≤ lo ∧ hi ≤ 28 ∨ 34 ≤ lo) :
    (linkAttr flags mtu hwaddr x).Agree x lo hi := by
  have hmtu' : mtu.length ≤ 4 := hmtu
  have hhw' : hwaddr.length ≤ 6 := hhw
  have hup : ∀ y : Attr, (y.setUp (flagSet flags iffUp)).Agree y lo hi := fun y =>
    Mem.agree_write (by simp only [List.length_singleton]; omega)
  have hport : ∀ y : Attr, (y.setPortLink (flagSet flags iffLowerUp)).Agree y lo hi := fun y =>
    Mem.agree_write (by simp only [List.length_singleton]; omega)
  have hcopy : ∀ y : Attr, (y.write 20 mtu).Agree y lo hi := fun y => Mem.agree_write (by omega)
  have hcopy' : ∀ y : Attr, (y.write 28 hwaddr).Agree y lo hi := fun y => Mem.agree_write (by omega)
  intro i hlo hhi
  unfold linkAttr
  exact (hcopy' _ i hlo hhi).trans <| (hcopy _ i hlo hhi).trans <|
    (hport _ i hlo hhi).trans (hup x i hlo hhi)

/-- An absent MTU leaves the field alone. -/
theorem mtu_linkAttr (h : mtu = [] ∨ mtu.length = 4) :
    (linkAttr flags mtu hwaddr x).mtu = if mtu = [] then x.mtu else mtu := by
  unfold linkAttr
  rw [Attr.mtu_write (.inl (by decide))]
  rcases h with rfl | hlen
  · rw [if_pos rfl, Mem.write_nil, Attr.setPortLink, Attr.mtu_write (.inr (by simp)), Attr.setUp,
      Attr.mtu_write (.inr (by simp))]
  · have hself := Mem.slice_write_self
      ((x.setUp (flagSet flags iffUp)).setPortLink (flagSet flags iffLowerUp)) 20 mtu
    rw [hlen] at hself
    rw [if_neg fun hnil => by simp [hnil] at hlen]
    exact hself

theorem hwaddr_linkAttr (hmtu : mtu = [] ∨ mtu.length = 4) (h : hwaddr = [] ∨ hwaddr.length = 6) :
    (linkAttr flags mtu hwaddr x).hwaddr = if hwaddr = [] then x.hwaddr else hwaddr := by
  have hmtu' : mtu.length ≤ 4 := by
    rcases hmtu with rfl | hlen
    · exact Nat.zero_le 4
    · exact hlen.le
  unfold linkAttr
  rcases h with rfl | hlen
  · rw [if_pos rfl, Mem.write_nil, Attr.hwaddr_write (.inr (by simp only [Dst.off]; omega)),
      Attr.setPortLink, Attr.hwaddr_write (.inr (by simp)), Attr.setUp,
      Attr.hwaddr_write (.inr (by simp))]
  · have hself := Mem.slice_write_self
      (((x.setUp (flagSet flags iffUp)).setPortLink (flagSet flags iffLowerUp)).write Dst.mtu.off mtu)
      28 hwaddr
    rw [hlen] at hself
    rw [if_neg fun hnil => by simp [hnil] at hlen]
    exact hself

end Fields

section Bodies

variable {s : Sys} {a : Addr} {x : Attr} {evs : List Event} {name : List UInt8}

theorem run_linkBody {type flags : Nat} {mtu hwaddr : List UInt8}
    (htype : type = rtmNewlink ∨ type = rtmDellink) (hmtu : Dst.mtu.off + mtu.length ≤ attrSize)
    (hhw : Dst.hwaddr.off + hwaddr.length ≤ attrSize) (hfound : FoundAt s a name)
    (hx : streq (linkAttr flags mtu hwaddr x) 0 name = true) :
    (linkBody type flags mtu hwaddr name a).run (s.focus .unlocked a x evs) =
      .ok () (s.focus .unlocked a
        (notifyAttr (if type = rtmNewlink ∧ flagSet flags iffUp then .ifUp else .ifDown)
          (linkAttr flags mtu hwaddr x))
        (evs ++ ((copyEvents .mtu mtu ++ copyEvents .hwaddr hwaddr) ++
          ((if type = rtmNewlink then .rtmNewlink name (flagSet flags iffUp)
            else .rtmDellink name (flagSet flags iffUp)) ::
            notifyLog name (if type = rtmNewlink ∧ flagSet flags iffUp then .ifUp else .ifDown)
              (linkAttr flags mtu hwaddr x)).map .log))) := by
  have hup : (linkAttr flags mtu hwaddr x).up = flagSet flags iffUp := up_linkAttr
  unfold linkAttr at hup hx ⊢
  unfold linkBody
  rcases htype with rfl | rfl
  · simp only [Prog.run_bind, run_lock_focus, run_storeAttr_focus, Outcome.bind_ok,
      run_dispatchPayload_node hmtu, run_dispatchPayload_node hhw, run_unlock_focus, if_true,
      run_loadAttr_focus, run_log_focus, hup, true_and, run_netEventNotify hfound hx]
    simp
  · have hne : ¬ rtmDellink = rtmNewlink := by decide
    simp only [Prog.run_bind, run_lock_focus, run_storeAttr_focus, Outcome.bind_ok,
      run_dispatchPayload_node hmtu, run_dispatchPayload_node hhw, run_unlock_focus, hne, if_false,
      if_true, run_loadAttr_focus, run_log_focus, hup, false_and, run_netEventNotify hfound hx]
    simp

theorem run_addrBody {type : Nat} {ipaddr : List UInt8}
    (htype : type = rtmNewaddr ∨ type = rtmDeladdr) (hip : Dst.ipaddr.off + ipaddr.length ≤ attrSize)
    (hfound : FoundAt s a name) (hx : streq (addrAttr ipaddr x) 0 name = true) :
    (addrBody type ipaddr name a).run (s.focus .unlocked a x evs) =
      .ok () (s.focus .unlocked a
        (notifyAttr (if type = rtmNewaddr then .ifNewaddr else .ifDeladdr) (addrAttr ipaddr x))
        (evs ++ (copyEvents .ipaddr ipaddr ++
          ((if type = rtmNewaddr then .rtmNewaddr name else .rtmDeladdr name) ::
            notifyLog name (if type = rtmNewaddr then .ifNewaddr else .ifDeladdr)
              (addrAttr ipaddr x)).map .log))) := by
  unfold addrAttr at hx ⊢
  unfold addrBody
  rcases htype with rfl | rfl
  · simp only [Prog.run_bind, run_lock_focus, Outcome.bind_ok, run_dispatchPayload_node hip,
      run_unlock_focus, if_true, run_log_focus, run_netEventNotify hfound hx]
    simp
  · have hne : ¬ rtmDeladdr = rtmNewaddr := by decide
    simp only [Prog.run_bind, run_lock_focus, Outcome.bind_ok, run_dispatchPayload_node hip,
      run_unlock_focus, hne, if_false, if_true, run_log_focus, run_netEventNotify hfound hx]
    simp

end Bodies

/-! ## One message on a node -/

namespace NlMsg

variable (m : NlMsg)

/-- The attributes that the handler copies into the node are no longer than `lim`. -/
def Within (lim : Dst → Nat) : Prop :=
  (m.IsLink → m.mtu.length ≤ lim .mtu ∧ m.hwaddr.length ≤ lim .hwaddr) ∧
    (m.IsAddr → m.ipaddr.length ≤ lim .ipaddr)

instance (lim : Dst → Nat) : Decidable (m.Within lim) := inferInstanceAs (Decidable (_ ∧ _))

/-- Every copied attribute fits its field. -/
abbrev Fits : Prop := m.Within Dst.size

/-- Every copied attribute ends inside the block that the node was allocated in. -/
abbrev InBlock : Prop := m.Within fun dst => attrSize - dst.off

theorem Fits.inBlock {m : NlMsg} (h : m.Fits) : m.InBlock := by
  refine ⟨fun hlink => ?_, fun haddr => ?_⟩
  · obtain ⟨hmtu, hhw⟩ := h.1 hlink
    exact ⟨hmtu.trans (by decide), hhw.trans (by decide)⟩
  · exact (h.2 haddr).trans (by decide)

def copies : List Event :=
  if m.IsLink then copyEvents .mtu m.mtu ++ copyEvents .hwaddr m.hwaddr
  else copyEvents .ipaddr m.ipaddr

/-- The node after the attribute copies. -/
def update (x : Attr) : Attr :=
  if m.IsLink then linkAttr m.flags m.mtu m.hwaddr x else addrAttr m.ipaddr x

/-- `IFF_UP` of a link message. -/
def up : Bool := flagSet m.flags iffUp

/-- `IFF_LOWER_UP` of a link message. -/
def lowerUp : Bool := flagSet m.flags iffLowerUp

def notifyType : NetifEventType :=
  if m.IsLink then if m.type = rtmNewlink ∧ m.up then .ifUp else .ifDown
  else if m.type = rtmNewaddr then .ifNewaddr else .ifDeladdr

/-- The line that the handler itself logs. -/
def line : LogLine :=
  if m.IsLink then if m.type = rtmNewlink then .rtmNewlink m.name m.up else .rtmDellink m.name m.up
  else if m.type = rtmNewaddr then .rtmNewaddr m.name else .rtmDeladdr m.name

/-- The node after the message. -/
def node (x : Attr) : Attr := notifyAttr m.notifyType (m.update x)

/-- What the handler does that can be observed, with the node in hand. -/
def events (x : Attr) : List Event :=
  m.copies ++ (m.line :: notifyLog m.name m.notifyType (m.update x)).map .log

variable {m} {s : Sys} {a : Addr} {x : Attr} {evs : List Event}

/-- No write of a handler reaches the name. -/
theorem agree_update : (m.update x).Agree x 0 ifnameSize := by
  unfold update linkAttr addrAttr
  split
  · intro i _ hi
    rw [Mem.write_of_lt (hi.trans_le (by decide)), Mem.write_of_lt (hi.trans_le (by decide)),
      Attr.setPortLink, Mem.write_of_lt (hi.trans_le (by decide)), Attr.setUp,
      Mem.write_of_lt (hi.trans_le (by decide))]
  · exact Mem.agree_write (.inl (by decide))

theorem agree_node : (m.node x).Agree x 0 ifnameSize :=
  fun i hlo hhi => (agree_notifyAttr (.inl (by decide)) i hlo hhi).trans (agree_update i hlo hhi)

/-- With the node in focus, a handler does to it what `node` and `events` say. -/
theorem run_body (hm : m.IsLink ∨ m.IsAddr) (hb : m.InBlock) (hfound : FoundAt s a m.name)
    (hx : streq x 0 m.name = true) (hlen : m.name.length < ifnameSize) :
    (m.body m.name a).run (s.focus .unlocked a x evs) =
      .ok () (s.focus .unlocked a (m.node x) (evs ++ m.events x)) := by
  have hupd : streq (m.update x) 0 m.name = true := by
    rw [← hx]
    exact streq_congr (agree_update.mono (Nat.le_refl 0) (by omega))
  unfold body node events update copies notifyType line at *
  by_cases hlink : m.IsLink
  · obtain ⟨hmtu, hhw⟩ := hb.1 hlink
    simp only [if_pos hlink] at hupd ⊢
    exact run_linkBody hlink (Dst.add_le_attrSize hmtu) (Dst.add_le_attrSize hhw) hfound hupd
  · have haddr : m.IsAddr := hm.resolve_left hlink
    simp only [if_neg hlink] at hupd ⊢
    exact run_addrBody haddr (Dst.add_le_attrSize (hb.2 haddr)) hfound hupd

/-! ### Fields -/

theorem isAddr_of_newaddr (h : m.type = rtmNewaddr) : m.IsAddr := .inl h

theorem isAddr_of_deladdr (h : m.type = rtmDeladdr) : m.IsAddr := .inr h

theorem notifyType_of_newaddr (h : m.type = rtmNewaddr) : m.notifyType = .ifNewaddr := by
  rw [notifyType, if_neg (isAddr_of_newaddr h).type_ne.2, if_pos h]

theorem notifyType_of_deladdr (h : m.type = rtmDeladdr) : m.notifyType = .ifDeladdr := by
  rw [notifyType, if_neg (isAddr_of_deladdr h).type_ne.2, h]
  rfl

theorem notifyType_of_link (h : m.IsLink) :
    m.notifyType = if m.type = rtmNewlink ∧ m.up then .ifUp else .ifDown :=
  if_pos h

theorem currentState_node : (m.node x).currentState = m.notifyType.val := currentState_notifyAttr

theorem update_of_addr (h : m.IsAddr) : m.update x = addrAttr m.ipaddr x := if_neg h.type_ne.2

theorem update_of_link (h : m.IsLink) : m.update x = linkAttr m.flags m.mtu m.hwaddr x := if_pos h

/-- `up` comes from a link message's flags, however long its attributes are. -/
theorem up_node_of_link (h : m.IsLink) : (m.node x).up = m.up := by
  rw [node, Attr.up_congr (agree_notifyAttr (by omega)), update_of_link h]
  exact up_linkAttr

theorem up_node_of_addr (h : m.IsAddr) : (m.node x).up = x.up := by
  rw [node, Attr.up_congr (agree_notifyAttr (by omega)), update_of_addr h]
  exact Attr.up_write (.inl (by decide))

/-- Copying an address changes no other field. -/
theorem agree_addrAttr {ipaddr : List UInt8} {lo hi : Nat} (hip : ipaddr.length ≤ Dst.ipaddr.size)
    (h : hi ≤ 34 ∨ 38 ≤ lo) : (addrAttr ipaddr x).Agree x lo hi := by
  have hip' : ipaddr.length ≤ 4 := hip
  exact Mem.agree_write (by simp only [Dst.off]; omega)

theorem currentState_update (h : m.IsLink ∨ m.IsAddr) (hfits : m.Fits) :
    (m.update x).currentState = x.currentState := by
  rcases h with hlink | haddr
  · rw [update_of_link hlink]
    obtain ⟨hmtu, hhw⟩ := hfits.1 hlink
    exact Mem.le32_congr (agree_linkAttr hmtu hhw (by omega))
  · rw [update_of_addr haddr]
    exact Mem.le32_congr (agree_addrAttr (hfits.2 haddr) (by omega))

theorem ipaddr_node_of_link (hlink : m.IsLink) (hfits : m.Fits) :
    (m.node x).ipaddr = x.ipaddr := by
  obtain ⟨hmtu, hhw⟩ := hfits.1 hlink
  have hupd : (m.update x).ipaddr = x.ipaddr := by
    rw [update_of_link hlink]
    exact Mem.slice_congr (agree_linkAttr hmtu hhw (by omega))
  have htype : m.notifyType ≠ .ifDeladdr := by
    rw [notifyType_of_link hlink]
    split <;> decide
  rw [node, ipaddr_notifyAttr, if_neg fun h => htype h.2, hupd]

theorem ipaddr_update_of_addr (haddr : m.IsAddr) (hlen : m.ipaddr.length = 4) :
    (m.update x).ipaddr = m.ipaddr := by
  have hself := Mem.slice_write_self x 34 m.ipaddr
  rw [hlen] at hself
  rw [update_of_addr haddr]
  exact hself

theorem ipaddr_node_of_newaddr (h : m.type = rtmNewaddr) (hlen : m.ipaddr.length = 4) :
    (m.node x).ipaddr = m.ipaddr := by
  rw [node, ipaddr_notifyAttr, notifyType_of_newaddr h,
    ipaddr_update_of_addr (isAddr_of_newaddr h) hlen]
  exact if_neg fun hdel => nomatch hdel.2

/-- Whether a removed address is cleared depends on the event before it. -/
theorem ipaddr_node_of_deladdr (h : m.type = rtmDeladdr) (hlen : m.ipaddr.length = 4) :
    (m.node x).ipaddr =
      if x.currentState ≠ NetifEventType.ifDeladdr.val then List.replicate 4 0 else m.ipaddr := by
  have haddr := isAddr_of_deladdr h
  have hstate : (m.update x).currentState = x.currentState := by
    rw [update_of_addr haddr]
    exact Mem.le32_congr (agree_addrAttr hlen.le (by omega))
  rw [node, ipaddr_notifyAttr, notifyType_of_deladdr h, ipaddr_update_of_addr haddr hlen, hstate]
  simp only [and_true]

/-- The copied attributes are absent or as long as their fields. -/
def Exact (m : NlMsg) : Prop :=
  (m.IsLink → (m.mtu = [] ∨ m.mtu.length = 4) ∧ (m.hwaddr = [] ∨ m.hwaddr.length = 6)) ∧
    (m.IsAddr → m.ipaddr = [] ∨ m.ipaddr.length = 4)

instance : Decidable m.Exact := inferInstanceAs (Decidable (_ ∧ _))

theorem Exact.fits {m : NlMsg} (h : m.Exact) : m.Fits := by
  have hle : ∀ {l : List UInt8} {n : Nat}, l = [] ∨ l.length = n → l.length ≤ n := by
    intro l n hl
    rcases hl with rfl | hl
    · exact Nat.zero_le n
    · exact hl.le
  exact ⟨fun hlink => ⟨hle (h.1 hlink).1, hle (h.1 hlink).2⟩, fun haddr => hle (h.2 haddr)⟩

/-- What a link message leaves in the four link fields of the node. -/
theorem link_fields_of_link (hlink : m.IsLink) (hexact : m.Exact) :
    (m.node x).up = m.up ∧ (m.node x).portLink = m.lowerUp ∧
      (m.node x).mtu = (if m.mtu = [] then x.mtu else m.mtu) ∧
      (m.node x).hwaddr = (if m.hwaddr = [] then x.hwaddr else m.hwaddr) := by
  obtain ⟨hmtu, hhw⟩ := hexact.1 hlink
  unfold node
  rw [Attr.up_congr (agree_notifyAttr (by omega)), Attr.portLink_congr (agree_notifyAttr (by omega)),
    Attr.mtu, Mem.slice_congr (agree_notifyAttr (by omega)), Attr.hwaddr,
    Mem.slice_congr (agree_notifyAttr (by omega)), update_of_link hlink]
  exact ⟨up_linkAttr, portLink_linkAttr, mtu_linkAttr hmtu, hwaddr_linkAttr hmtu hhw⟩

/-- An address message leaves the link fields alone. -/
theorem link_fields_of_addr (haddr : m.IsAddr) (hexact : m.Exact) :
    (m.node x).up = x.up ∧ (m.node x).portLink = x.portLink ∧ (m.node x).mtu = x.mtu ∧
      (m.node x).hwaddr = x.hwaddr := by
  have hagree : ∀ {lo hi : Nat}, hi ≤ 34 → hi ≤ 24 ∨ 28 ≤ lo → (m.node x).Agree x lo hi := by
    intro lo hi hle hout i hlo hhi
    have hupd : (m.update x).Agree x lo hi := by
      rw [update_of_addr haddr]
      exact agree_addrAttr (hexact.fits.2 haddr) (.inl hle)
    rw [node, agree_notifyAttr (by omega) i hlo hhi, hupd i hlo hhi]
  refine ⟨Attr.up_congr ?_, Attr.portLink_congr ?_, Mem.slice_congr ?_, Mem.slice_congr ?_⟩
  · exact hagree (by decide) (.inl (by decide))
  · exact hagree (by decide) (.inl (by decide))
  · exact hagree (by decide) (.inl (by decide))
  · exact hagree (by decide) (.inr (by decide))

end NlMsg

end Netif
