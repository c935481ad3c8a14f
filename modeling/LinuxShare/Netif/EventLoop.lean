-- SUMMARY: netlink_event_handle: receiving datagrams and walking the messages in each of them.
import LinuxShare.Netif.Handle

/-!
# netlink_event_handle

The loop over the messages of one datagram, and the loop that receives
datagrams into a buffer which is never cleared. `visited` and `examined` follow
the inner loop's control: the offsets at which its body runs, and those at which
`NLMSG_OK` reads a header.
-/

namespace Netif

open Bytes CInt Records Resumable

theorem nlmsgNextLen_lt {buff : Mem} {nlh : Nat} {rSize : Int} (hok : NlmsgOk buff nlh rSize) :
    (nlmsgNextLen buff nlh rSize).toNat < rSize.toNat := by
  by_cases hint : rSize < 2 ^ 31
  · have hlen : IsInt rSize := ⟨by have := hok.1; omega, hint⟩
    rw [(nlmsgNext_eq hlen hok).2.1]
    exact Framing.Fits.lt ((nlmsgOk_iff hlen).mp hok)
  · have hlt : nlmsgNextLen buff nlh rSize < 2 ^ 31 := toInt_lt _
    omega

/-! ## The loop over the messages -/

/-- The `for` loop over the first `rSize` bytes of the buffer. -/
def messageLoop (M : Malloc) (buff : Mem) (nlh : Nat) (rSize : Int) : Step Unit :=
  if _h : NlmsgOk buff nlh rSize then do
    dispatchMsg M buff nlh
    messageLoop M buff (nlmsgNext buff nlh) (nlmsgNextLen buff nlh rSize)
  else pure ()
termination_by rSize.toNat
decreasing_by exact nlmsgNextLen_lt _h

/-- The values of `nlh` for which the loop body runs. -/
def visited (buff : Mem) (nlh : Nat) (rSize : Int) : List Nat :=
  if _h : NlmsgOk buff nlh rSize then
    nlh :: visited buff (nlmsgNext buff nlh) (nlmsgNextLen buff nlh rSize)
  else []
termination_by rSize.toNat
decreasing_by exact nlmsgNextLen_lt _h

/-- The values of `nlh` at which `NLMSG_OK` reads a header: it does not when fewer
bytes than a header remain. -/
def examined (buff : Mem) (nlh : Nat) (rSize : Int) : List Nat :=
  if (nlmsgHdrlen : Int) ≤ rSize then
    if _h : NlmsgOk buff nlh rSize then
      nlh :: examined buff (nlmsgNext buff nlh) (nlmsgNextLen buff nlh rSize)
    else [nlh]
  else []
termination_by rSize.toNat
decreasing_by exact nlmsgNextLen_lt _h

/-- A call of a handler: the type that it is given, and where its message stands. -/
inductive HandlerCall where
  | ifinfomsg (type nlh : Nat)
  | ifaddrmsg (type nlh : Nat)
  deriving DecidableEq

def HandlerCall.exec (M : Malloc) (buff : Mem) : HandlerCall → Step Unit
  | ifinfomsg type nlh => ifinfomsgHandle M type buff nlh
  | ifaddrmsg type nlh => ifaddrmsgHandle M type buff nlh

/-- What the `switch` of the loop body calls. -/
def calledAt (buff : Mem) (nlh : Nat) : List HandlerCall :=
  let type := nlmsgType buff nlh
  if type = nlmsgDone ∨ type = nlmsgError then []
  else if type = rtmNewlink ∨ type = rtmDellink then [.ifinfomsg type nlh]
  else if type = rtmNewaddr ∨ type = rtmDeladdr then [.ifaddrmsg type nlh]
  else []

/-- The calls of the loop, in order. -/
def called (buff : Mem) (rSize : Int) : List HandlerCall :=
  (visited buff 0 rSize).flatMap (calledAt buff)

/-- One call for each link and each address message of `ms`, where the first message
stands at `nlh` and each of the others at the next multiple of 4. -/
def callsFor : Nat → List NlMsg → List HandlerCall
  | _, [] => []
  | nlh, m :: ms =>
    (if m.IsLink then [.ifinfomsg m.type nlh]
      else if m.IsAddr then [.ifaddrmsg m.type nlh]
      else []) ++ callsFor (nlh + nlmsg.pad m.bytes.length) ms

/-- The call for the message alone, cut out of the buffer. -/
def NlMsg.call (M : Malloc) (m : NlMsg) : Step Unit :=
  if m.IsLink then ifinfomsgHandle M m.type m.mem 0 else ifaddrmsgHandle M m.type m.mem 0

section

variable {M : Malloc} {buff : Mem} {nlh : Nat} {rSize : Int}

/-- The loop is its body at each visited offset, in order. -/
theorem messageLoop_eq_forM :
    messageLoop M buff nlh rSize = (visited buff nlh rSize).forM (dispatchMsg M buff) := by
  induction nlh, rSize using visited.induct buff with
  | case1 nlh rSize hok ih =>
      rw [messageLoop, dif_pos hok, visited, dif_pos hok, ih]
      rfl
  | case2 nlh rSize hok =>
      rw [messageLoop, dif_neg hok, visited, dif_neg hok]
      rfl

theorem visited_eq_walk (hint : IsInt rSize) : visited buff nlh rSize = nlmsg.walk buff nlh rSize := by
  induction nlh, rSize using visited.induct buff with
  | case1 nlh rSize hok ih =>
      obtain ⟨hnext, hnextlen, hint'⟩ := nlmsgNext_eq hint hok
      rw [hnext, hnextlen] at ih
      rw [visited, dif_pos hok, hnext, hnextlen, ih hint',
        Framing.walk_of_fits ((nlmsgOk_iff hint).mp hok)]
  | case2 nlh rSize hok =>
      rw [visited, dif_neg hok, Framing.walk_of_not_fits fun hfit => hok ((nlmsgOk_iff hint).mpr hfit)]

theorem examined_eq_heads (hint : IsInt rSize) :
    examined buff nlh rSize = nlmsg.heads buff nlh rSize := by
  induction nlh, rSize using examined.induct buff with
  | case1 nlh rSize hr hok ih =>
      obtain ⟨hnext, hnextlen, hint'⟩ := nlmsgNext_eq hint hok
      have hheads : nlmsg.heads buff nlh rSize = nlh :: nlmsg.heads buff
          (nlh + nlmsg.pad (nlmsg.len buff nlh)) (rSize - nlmsg.pad (nlmsg.len buff nlh)) := by
        rw [Framing.heads, nlmsg_hdr, if_pos hr, dif_pos ((nlmsgOk_iff hint).mp hok)]
      rw [hnext, hnextlen] at ih
      rw [examined, if_pos hr, dif_pos hok, hnext, hnextlen, ih hint', hheads]
  | case2 nlh rSize hr hok =>
      rw [examined, if_pos hr, dif_neg hok, Framing.heads, nlmsg_hdr, if_pos hr,
        dif_neg fun hfit => hok ((nlmsgOk_iff hint).mpr hfit)]
  | case3 nlh rSize hr =>
      rw [examined, if_neg hr, Framing.heads, nlmsg_hdr, if_neg hr]

/-- The messages of the first `rSize` bytes, as the records of those bytes. -/
theorem records_slice : nlmsg.records (Mem.ofList (buff.slice 0 rSize.toNat)) 0
    (buff.slice 0 rSize.toNat).length = nlmsg.records buff 0 rSize := by
  rw [Mem.length_slice]
  by_cases hr : 0 ≤ rSize
  · rw [Int.toNat_of_nonneg hr]
    apply Framing.records_congr
    intro i hlo hhi
    simpa using Mem.agree_ofList_slice buff 0 rSize.toNat i hlo (by omega)
  · have hnone : ∀ (m : Mem) (r : Int), r ≤ 0 → nlmsg.records m 0 r = [] := by
      intro m r hle
      apply Framing.records_of_not_fits
      rintro ⟨hhdr, _⟩
      have hpos : (0 : Int) < nlmsg.hdr := by decide
      omega
    rw [hnone _ _ (by omega), hnone _ _ (by omega)]

/-- Every message that is visited is a value of `NlMsg`. -/
theorem exists_messages (buff : Mem) (hint : IsInt rSize) :
    ∃ ms : List NlMsg, ms.map NlMsg.bytes = nlmsg.records buff 0 rSize := by
  have hall : ∀ bs : List (List UInt8), (∀ b ∈ bs, nlmsg.Valid b ∧ b.length < 2 ^ 31) →
      ∃ ms : List NlMsg, ms.map NlMsg.bytes = bs := by
    intro bs
    induction bs with
    | nil => exact fun _ => ⟨[], rfl⟩
    | cons b bs ih =>
        intro h
        obtain ⟨hb, hbs⟩ := List.forall_mem_cons.mp h
        obtain ⟨ms, rfl⟩ := ih hbs
        exact ⟨⟨b, hb.1, hb.2⟩ :: ms, rfl⟩
  apply hall
  intro b hb
  refine ⟨Framing.valid_of_mem_records hb, ?_⟩
  obtain ⟨p, hp, rfl⟩ := List.mem_map.mp hb
  have hend := (Framing.mem_walk hp).2.2
  have hlt := hint.2
  rw [Mem.length_slice]
  omega

/-- A message is handled at an offset of the buffer as it is on its own. -/
theorem forM_dispatchMsg {ps : List Nat} {ms : List NlMsg}
    (h : ms.map NlMsg.bytes = ps.map fun p => buff.slice p (nlmsg.len buff p)) :
    ps.forM (dispatchMsg M buff) = handleAll M ms := by
  induction ps generalizing ms with
  | nil =>
      obtain rfl : ms = [] := by simpa using h
      rfl
  | cons p ps ih =>
      cases ms with
      | nil => simp at h
      | cons m ms =>
          obtain ⟨hm, hms⟩ := List.cons.inj h
          have hat : m.At buff p := by
            rw [NlMsg.At, hm, Mem.length_slice]
          rw [Prog.forM_cons, handleAll_cons, hat.dispatchMsg_eq, ← m.handle_eq, ih hms]

/-- The body of the loop is what it calls. -/
theorem dispatchMsg_eq_calledAt (M : Malloc) (buff : Mem) (nlh : Nat) :
    dispatchMsg M buff nlh = (calledAt buff nlh).forM (HandlerCall.exec M buff) := by
  unfold dispatchMsg calledAt
  dsimp only
  split
  · rfl
  · split
    · exact (bind_pure _).symm
    · split
      · exact (bind_pure _).symm
      · rfl

theorem messageLoop_eq_called :
    messageLoop M buff 0 rSize = (called buff rSize).forM (HandlerCall.exec M buff) := by
  rw [messageLoop_eq_forM, called]
  induction visited buff 0 rSize with
  | nil => rfl
  | cons p ps ih => rw [Prog.forM_cons, List.flatMap_cons, Prog.forM_append, ih, dispatchMsg_eq_calledAt]

/-- The message at `nlh` decides what is called there. -/
theorem NlMsg.At.calledAt_eq {m : NlMsg} (h : m.At buff nlh) :
    calledAt buff nlh = if m.IsLink then [.ifinfomsg m.type nlh]
      else if m.IsAddr then [.ifaddrmsg m.type nlh] else [] := by
  unfold calledAt
  rw [h.nlmsgType_eq]
  by_cases hlink : m.IsLink
  · simp only [if_neg hlink.type_ne, if_pos hlink]
    exact if_pos hlink
  · by_cases haddr : m.IsAddr
    · simp only [if_neg haddr.type_ne.1, if_neg hlink, if_pos haddr]
      exact (if_neg hlink).trans (if_pos haddr)
    · simp only [if_neg hlink, if_neg haddr]
      split
      · rfl
      · exact (if_neg hlink).trans (if_neg haddr)

theorem calledAt_walk {ms : List NlMsg} (h : ms.map NlMsg.bytes = nlmsg.records buff nlh rSize) :
    (nlmsg.walk buff nlh rSize).flatMap (calledAt buff) = callsFor nlh ms := by
  induction ms generalizing nlh rSize with
  | nil =>
      have hnone : nlmsg.walk buff nlh rSize = [] := by
        simpa [Framing.records] using h.symm
      rw [hnone]
      rfl
  | cons m ms ih =>
      by_cases hfit : nlmsg.Fits buff nlh rSize
      · rw [Framing.records, Framing.walk_of_fits hfit, List.map_cons, List.map_cons] at h
        obtain ⟨hm, hms⟩ := List.cons.inj h
        have hlen : nlmsg.len buff nlh = m.bytes.length := by rw [hm, Mem.length_slice]
        have hat : m.At buff nlh := by rw [NlMsg.At, ← hlen, hm]
        rw [hlen] at hms
        rw [Framing.walk_of_fits hfit, List.flatMap_cons, hat.calledAt_eq, callsFor, hlen, ih hms]
      · rw [Framing.records_of_not_fits hfit] at h
        cases h

/-- The calls on framed bytes. -/
theorem called_of_framed (hint : IsInt rSize) {ms : List NlMsg}
    (h : nlmsg.Framed (ms.map NlMsg.bytes) (buff.slice 0 rSize.toNat)) :
    called buff rSize = callsFor 0 ms := by
  rw [called, visited_eq_walk hint]
  apply calledAt_walk
  rw [← h.records_eq, records_slice]

/-- Only link and address messages reach a handler. -/
theorem handleAll_filter (ms : List NlMsg) :
    handleAll M ms = handleAll M (ms.filter fun m => m.IsLink ∨ m.IsAddr) := by
  induction ms with
  | nil => rfl
  | cons m ms ih =>
      by_cases hm : m.IsLink ∨ m.IsAddr
      · rw [List.filter_cons_of_pos (by simpa using hm), handleAll_cons, handleAll_cons, ih]
      · rw [List.filter_cons_of_neg (by simpa using hm), handleAll_cons, m.handle_of_other hm, ih]
        rfl

theorem forM_call (ms : List NlMsg) :
    handleAll M (ms.filter fun m => m.IsLink ∨ m.IsAddr) =
      (ms.filter fun m => m.IsLink ∨ m.IsAddr).forM (NlMsg.call M) := by
  induction ms with
  | nil => rfl
  | cons m ms ih =>
      by_cases hm : m.IsLink ∨ m.IsAddr
      · rw [List.filter_cons_of_pos (by simpa using hm), handleAll_cons, Prog.forM_cons, ih]
        congr 1
        rw [m.handle_eq, NlMsg.call, NlMsg.body]
        by_cases hlink : m.IsLink
        · rw [if_pos hlink, if_pos hlink, m.at_mem.ifinfomsgHandle_eq hlink]
        · rw [if_neg hlink, if_neg hlink, m.at_mem.ifaddrmsgHandle_eq (hm.resolve_left hlink)]
      · rw [List.filter_cons_of_neg (by simpa using hm), ih]

/-- The loop on framed bytes: each message of the framing is handled, and nothing else. -/
theorem messageLoop_of_framed (hint : IsInt rSize) {ms : List NlMsg}
    (h : nlmsg.Framed (ms.map NlMsg.bytes) (buff.slice 0 rSize.toNat)) :
    messageLoop M buff 0 rSize = handleAll M ms := by
  rw [messageLoop_eq_forM, visited_eq_walk hint]
  apply forM_dispatchMsg
  rw [← h.records_eq, records_slice]
  rfl

/-- The message loop, for every content of the buffer and every `int` that
`recvfrom` may return: it takes at most one round per 16 bytes, reads headers and
hands out messages only inside the received bytes and without overlap. On bytes framed
as `ms` it calls `ifinfomsg_handle` for each link message of `ms` and `ifaddrmsg_handle`
for each address message, where they stand, in order and nothing else, and each call does
what it does on the message alone. All bytes are framed by some messages. -/
theorem messageLoop_framing (M : Malloc) (buff : Mem) (rSize : Int) (hint : IsInt rSize) :
    (visited buff 0 rSize).length * nlmsgHdrlen ≤ rSize.toNat ∧
    (∀ p ∈ examined buff 0 rSize, ((p + nlmsgHdrlen : Nat) : Int) ≤ rSize) ∧
    (∀ p ∈ visited buff 0 rSize, nlmsgHdrlen ≤ nlmsgLen buff p ∧
      ((p + nlmsgLen buff p : Nat) : Int) ≤ rSize) ∧
    (visited buff 0 rSize).Pairwise (fun p q => p + nlmsgLen buff p ≤ q) ∧
    messageLoop M buff 0 rSize = (visited buff 0 rSize).forM (dispatchMsg M buff) ∧
    messageLoop M buff 0 rSize = (called buff rSize).forM (HandlerCall.exec M buff) ∧
    (∀ ms : List NlMsg, nlmsg.Framed (ms.map NlMsg.bytes) (buff.slice 0 rSize.toNat) →
      called buff rSize = callsFor 0 ms ∧
      messageLoop M buff 0 rSize =
        (ms.filter fun m => m.IsLink ∨ m.IsAddr).forM (NlMsg.call M)) ∧
    ∃ ms : List NlMsg, nlmsg.Framed (ms.map NlMsg.bytes) (buff.slice 0 rSize.toNat) := by
  refine ⟨?_, ?_, ?_, ?_, messageLoop_eq_forM, messageLoop_eq_called, ?_, ?_⟩
  · rw [visited_eq_walk hint]
    exact Framing.length_walk_le buff 0 rSize
  · intro p hp
    rw [examined_eq_heads hint] at hp
    simpa using (Framing.mem_heads hp).2
  · intro p hp
    rw [visited_eq_walk hint] at hp
    simpa using (Framing.mem_walk hp).2
  · rw [visited_eq_walk hint]
    simpa using Framing.walk_pairwise (F := nlmsg) buff 0 rSize
  · intro ms hms
    refine ⟨called_of_framed hint hms, ?_⟩
    rw [messageLoop_of_framed hint hms, handleAll_filter, forM_call]
  · obtain ⟨ms, hms⟩ := exists_messages buff hint
    refine ⟨ms, ?_⟩
    rw [hms, ← records_slice]
    exact Framing.framed_records _

/-- A link message, a route message, which no handler gets, an address message and a tail. -/
theorem messageLoop_framing_eth0 :
    called (Mem.ofList ((eth0Link rtmNewlink iffUp).bytes ++ (eth0Addr 24 1).bytes ++
      (eth0Addr rtmNewaddr 1).bytes ++ [1, 2, 3])) 135 =
    [.ifinfomsg rtmNewlink 0, .ifaddrmsg rtmNewaddr 88] := by
  have hcalled := ((messageLoop_framing .bump (Mem.ofList ((eth0Link rtmNewlink iffUp).bytes ++
    (eth0Addr 24 1).bytes ++ (eth0Addr rtmNewaddr 1).bytes ++ [1, 2, 3])) 135
    ⟨by decide, by decide⟩).2.2.2.2.2.2.1 [eth0Link rtmNewlink iffUp, eth0Addr 24 1,
      eth0Addr rtmNewaddr 1] (Framing.framed_iff.mpr (by decide +kernel))).1
  rw [hcalled]
  decide +kernel

/-- A message that `NLMSG_OK` accepts is a value of `NlMsg`. -/
theorem exists_at (hint : IsInt rSize) (hok : NlmsgOk buff nlh rSize) :
    ∃ m : NlMsg, m.At buff nlh ∧ m.bytes.length = nlmsgLen buff nlh := by
  obtain ⟨h₁, h₂, h₃⟩ := (nlmsgOk_iff hint).mp hok
  have hlt := hint.2
  simp only [nlmsg_framing_len] at h₂ h₃
  have hvalid : nlmsg.Valid (buff.slice nlh (nlmsgLen buff nlh)) := by
    refine ⟨by simpa using h₂, ?_⟩
    rw [Mem.length_slice, ← nlmsg_framing_len]
    exact nlmsg.field_congr ((Mem.agree_ofList_slice buff nlh _).mono (Nat.le_refl 0) h₂)
  refine ⟨⟨buff.slice nlh (nlmsgLen buff nlh), hvalid, ?_⟩, ?_, ?_⟩
  · rw [Mem.length_slice]
    omega
  · exact congrArg (buff.slice nlh) (Mem.length_slice buff nlh _)
  · exact Mem.length_slice buff nlh _

/-- The rest of the buffer plays no part in how a message is handled, and a link or
address message without a name, or without room for one, changes nothing and
announces nothing. -/
theorem dispatchMsg_local (M : Malloc) {buff' : Mem} {nlh' : Nat} (hint : IsInt rSize)
    (hok : NlmsgOk buff nlh rSize)
    (hsame : buff'.slice nlh' (nlmsgLen buff nlh) = buff.slice nlh (nlmsgLen buff nlh)) (s : Sys) :
    (dispatchMsg M buff' nlh').run s = (dispatchMsg M buff nlh).run s ∧
    ∀ m : NlMsg, m.At buff nlh → m.NameFits → m.IsLink ∨ m.IsAddr →
      m.bytes.length < m.attrsOff ∨ m.name = [] →
      ∃ evs, (dispatchMsg M buff nlh).run s = .ok () (s.emits evs) ∧ ∀ line, .log line ∉ evs := by
  refine ⟨?_, ?_⟩
  · obtain ⟨m, hat, hlen⟩ := exists_at hint hok
    have hat' : m.At buff' nlh' := by
      rw [NlMsg.At, hlen, hsame, ← hlen]
      exact hat
    rw [hat'.dispatchMsg_eq, hat.dispatchMsg_eq]
  · intro m hat hname _ hnothing
    have hempty : m.name = [] := by
      rcases hnothing with hshort | hempty
      · exact m.name_of_short hshort
      · exact hempty
    refine ⟨copyEvents .ifname m.namePayload, ?_, ?_⟩
    · rw [hat.dispatchMsg_eq, ← m.handle_eq, NlMsg.run_handle_name hname, if_pos hempty]
      rfl
    · intro line
      unfold copyEvents
      split <;> simp

theorem dispatchMsg_local_eth0 :
    (dispatchMsg .bump (Mem.ofList ([1, 2, 3] ++ (eth0Addr rtmNewaddr 1).bytes)) 3).run Sys.init =
      (dispatchMsg .bump (Mem.ofList ((eth0Addr rtmNewaddr 1).bytes ++ [4, 5])) 0).run Sys.init :=
  (dispatchMsg_local .bump (show IsInt 46 from ⟨by decide, by decide⟩) (by decide +kernel)
    (by decide +kernel) Sys.init).1

end

/-! ## The loop over the datagrams -/

/-- `sizeof(buff)`. -/
def buffSize : Nat := 2048

/-- What the socket has ready at a `recvfrom`. -/
inductive Received where
  | datagram (bytes : List UInt8)
  | error

/-- `recvfrom` stores what fits of a datagram, drops the rest and returns the number
of bytes stored; after an error the buffer is as it was and the result is -1. -/
def recvfrom (buff : Mem) : Received → Mem × Int
  | .datagram bytes => (buff.write 0 (bytes.take buffSize), (bytes.take buffSize).length)
  | .error => (buff, -1)

/-- `netlink_event_handle` for as long as the socket delivers `rs`. -/
def netlinkEventHandle (M : Malloc) : List Received → Mem → Step Unit
  | [], _ => pure ()
  | r :: rs, buff => do
    messageLoop M (recvfrom buff r).1 0 (recvfrom buff r).2
    netlinkEventHandle M rs (recvfrom buff r).1

/-- The bytes of the messages that the loop body runs on. -/
def visitedMsgs (buff : Mem) (rSize : Int) : List (List UInt8) :=
  (visited buff 0 rSize).map fun p => buff.slice p (nlmsgLen buff p)

/-- The messages that `netlink_event_handle` handles, in order. -/
def handled : List Received → Mem → List (List UInt8)
  | [], _ => []
  | r :: rs, buff =>
    visitedMsgs (recvfrom buff r).1 (recvfrom buff r).2 ++ handled rs (recvfrom buff r).1

/-- `bytes` is the messages `bs`, each followed by its padding. -/
inductive Packed : List (List UInt8) → List UInt8 → Prop where
  | nil : Packed [] []
  | cons {b p rest : List UInt8} {bs : List (List UInt8)} : nlmsg.Valid b →
      b.length + p.length = nlmsg.pad b.length → Packed bs rest → Packed (b :: bs) (b ++ p ++ rest)

theorem Packed.framed {bs : List (List UInt8)} {bytes : List UInt8} (h : Packed bs bytes) :
    nlmsg.Framed bs bytes := by
  induction h with
  | nil =>
      apply Framing.Framed.tail
      rintro ⟨hle, _⟩
      exact absurd hle (by decide)
  | cons hb hp _ ih => exact .cons hb hp ih

/-- The handled messages of one datagram are the records of what was stored of it. -/
theorem visitedMsgs_recvfrom (buff : Mem) {bytes : List UInt8} (hlen : bytes.length ≤ buffSize) :
    visitedMsgs (buff.write 0 bytes) bytes.length =
      nlmsg.records (Mem.ofList bytes) 0 bytes.length := by
  have hint : IsInt (bytes.length : Int) := by
    have hsize : buffSize = 2048 := rfl
    constructor <;> omega
  have hagree : (buff.write 0 bytes).Agree (Mem.ofList bytes) 0 (0 + (bytes.length : Int).toNat) := by
    intro i _ hi
    rw [Mem.write_of_mem (Nat.zero_le i) (by omega)]
    rfl
  rw [← Framing.records_congr hagree, visitedMsgs, visited_eq_walk hint]
  simp only [Framing.records, nlmsg_framing_len]

/-- A datagram cut short at a multiple of four has lost its last message. -/
theorem Packed.length_records_take {bs : List (List UInt8)} {bytes : List UInt8}
    (h : Packed bs bytes) {k : Nat} (hk : 4 ∣ k) (hlt : k < bytes.length) :
    (nlmsg.records (Mem.ofList (bytes.take k)) 0 (bytes.take k).length).length < bs.length := by
  induction h generalizing k with
  | nil => exact absurd hlt (Nat.not_lt_zero k)
  | @cons b p rest bs hb hp _ ih =>
      by_cases hcut : k < b.length
      · have htake : (b ++ p ++ rest).take k = b.take k := by
          rw [List.append_assoc, List.take_append_of_le_length hcut.le]
        rw [htake, Framing.records_take hb hcut]
        exact Nat.succ_pos _
      · have hpad : (b ++ p).length ≤ k := by
          rw [List.length_append, hp, nlmsg_pad]
          omega
        have htake : (b ++ p ++ rest).take k = b ++ p ++ rest.take (k - (b ++ p).length) := by
          rw [List.take_append, List.take_of_length_le hpad]
        have hlt' : k - (b ++ p).length < rest.length := by
          simp only [List.length_append] at hlt hpad ⊢
          omega
        have hdvd : 4 ∣ k - (b ++ p).length := by
          rw [List.length_append, hp, nlmsg_pad]
          omega
        rw [htake, Framing.records_append_padded hb hp]
        exact Nat.succ_lt_succ (ih hdvd hlt')

/-- What is handled of one packed datagram: all of it if it fits the buffer, else
fewer messages than it has. -/
theorem visitedMsgs_packed (buff : Mem) {bs : List (List UInt8)} {bytes : List UInt8}
    (h : Packed bs bytes) :
    (bytes.length ≤ buffSize → visitedMsgs (recvfrom buff (.datagram bytes)).1
      (recvfrom buff (.datagram bytes)).2 = bs) ∧
    (buffSize < bytes.length → (visitedMsgs (recvfrom buff (.datagram bytes)).1
      (recvfrom buff (.datagram bytes)).2).length < bs.length) := by
  have hstored : (bytes.take buffSize).length ≤ buffSize := by
    rw [List.length_take]
    exact Nat.min_le_left _ _
  simp only [recvfrom, visitedMsgs_recvfrom buff hstored]
  refine ⟨fun hle => ?_, fun hlt => ?_⟩
  · rw [List.take_of_length_le hle]
    exact h.framed.records_eq
  · exact h.length_records_take (by decide) hlt

theorem isInt_recvfrom (buff : Mem) (r : Received) : IsInt (recvfrom buff r).2 := by
  have hsize : buffSize = 2048 := rfl
  cases r with
  | datagram bytes =>
      simp only [recvfrom, List.length_take]
      constructor <;> omega
  | error => simp only [recvfrom]; constructor <;> decide

/-- `handled` is what the program's handlers are run on. -/
theorem netlinkEventHandle_eq (M : Malloc) (rs : List Received) (buff : Mem) :
    ∃ ms : List NlMsg, ms.map NlMsg.bytes = handled rs buff ∧
      netlinkEventHandle M rs buff = handleAll M ms := by
  induction rs generalizing buff with
  | nil => exact ⟨[], rfl, rfl⟩
  | cons r rs ih =>
      have hint := isInt_recvfrom buff r
      obtain ⟨ms₁, hms₁⟩ := exists_messages (recvfrom buff r).1 hint
      obtain ⟨ms₂, hms₂, hrun⟩ := ih (recvfrom buff r).1
      have hloop : messageLoop M (recvfrom buff r).1 0 (recvfrom buff r).2 = handleAll M ms₁ := by
        rw [messageLoop_eq_forM, visited_eq_walk hint]
        exact forM_dispatchMsg hms₁
      refine ⟨ms₁ ++ ms₂, ?_, ?_⟩
      · rw [List.map_append, hms₁, hms₂, handled, visitedMsgs, visited_eq_walk hint]
        simp only [Framing.records, nlmsg_framing_len]
      · rw [handleAll_append, netlinkEventHandle, hloop, hrun]

section

variable {ds : List (List (List UInt8) × List UInt8)}

theorem handled_of_fits (hds : ∀ d ∈ ds, Packed d.1 d.2) (hfits : ∀ d ∈ ds, d.2.length ≤ buffSize)
    (buff : Mem) :
    handled (ds.map fun d => .datagram d.2) buff = (ds.map Prod.fst).flatten := by
  induction ds generalizing buff with
  | nil => rfl
  | cons d ds ih =>
      obtain ⟨hd, hds⟩ := List.forall_mem_cons.mp hds
      obtain ⟨hfit, hfits⟩ := List.forall_mem_cons.mp hfits
      rw [List.map_cons, handled, (visitedMsgs_packed buff hd).1 hfit, ih hds hfits]
      rfl

theorem length_handled (hds : ∀ d ∈ ds, Packed d.1 d.2) (buff : Mem) :
    (handled (ds.map fun d => .datagram d.2) buff).length ≤ (ds.map Prod.fst).flatten.length ∧
    ((∃ d ∈ ds, buffSize < d.2.length) →
      (handled (ds.map fun d => .datagram d.2) buff).length < (ds.map Prod.fst).flatten.length) := by
  induction ds generalizing buff with
  | nil => exact ⟨Nat.le_refl 0, by simp⟩
  | cons d ds ih =>
      obtain ⟨hd, hds⟩ := List.forall_mem_cons.mp hds
      obtain ⟨hle, hlt⟩ := ih hds (recvfrom buff (.datagram d.2)).1
      obtain ⟨hfit, hlong⟩ := visitedMsgs_packed buff hd
      simp only [List.map_cons, List.flatten_cons, handled, List.length_append]
      by_cases hsize : d.2.length ≤ buffSize
      · rw [hfit hsize]
        refine ⟨Nat.add_le_add_left hle _, fun hex => ?_⟩
        obtain ⟨d', hd', hlen⟩ := hex
        rcases List.mem_cons.mp hd' with rfl | hmem
        · exact absurd hsize (Nat.not_le.mpr hlen)
        · exact Nat.add_lt_add_left (hlt ⟨d', hmem, hlen⟩) _
      · have hshort := hlong (Nat.not_le.mp hsize)
        refine ⟨(Nat.add_lt_add_of_lt_of_le hshort hle).le, fun _ => ?_⟩
        exact Nat.add_lt_add_of_lt_of_le hshort hle

end

/-- The handlers are run on the handled messages, and these are all messages of all
datagrams, in order, if and only if no datagram is longer than the buffer. -/
theorem handled_eq_iff (M : Malloc) (buff : Mem) (ds : List (List (List UInt8) × List UInt8))
    (hds : ∀ d ∈ ds, Packed d.1 d.2) :
    (∃ ms : List NlMsg, ms.map NlMsg.bytes = handled (ds.map fun d => .datagram d.2) buff ∧
      netlinkEventHandle M (ds.map fun d => .datagram d.2) buff = handleAll M ms) ∧
    (handled (ds.map fun d => .datagram d.2) buff = (ds.map Prod.fst).flatten ↔
      ∀ d ∈ ds, d.2.length ≤ buffSize) := by
  refine ⟨netlinkEventHandle_eq M _ buff, ?_, fun hfits => handled_of_fits hds hfits buff⟩
  intro heq d hd
  by_contra hlong
  have hlt := (length_handled hds buff).2 ⟨d, hd, Nat.not_le.mp hlong⟩
  rw [heq] at hlt
  exact Nat.lt_irrefl _ hlt

/-- Whole messages whose length is a multiple of four need no padding. -/
theorem packed_flatten {bs : List (List UInt8)}
    (hbs : ∀ b ∈ bs, nlmsg.Valid b ∧ nlmsg.pad b.length = b.length) : Packed bs bs.flatten := by
  induction bs with
  | nil => exact .nil
  | cons b bs ih =>
      obtain ⟨⟨hvalid, hpad⟩, hbs⟩ := List.forall_mem_cons.mp hbs
      have hcons : Packed (b :: bs) (b ++ [] ++ bs.flatten) :=
        .cons hvalid (by simpa using hpad.symm) (ih hbs)
      rwa [List.append_nil] at hcons

theorem packed_msgs {ms : List NlMsg} (hms : ∀ m ∈ ms, nlmsg.pad m.bytes.length = m.bytes.length) :
    Packed (ms.map NlMsg.bytes) (ms.map NlMsg.bytes).flatten := by
  refine packed_flatten fun b hb => ?_
  obtain ⟨m, hm, rfl⟩ := List.mem_map.mp hb
  exact ⟨m.valid, hms m hm⟩

/-- `eth0` comes up and gets an address in one datagram, and loses it in the next. -/
def eth0Datagrams : List (List NlMsg) :=
  [[eth0Link rtmNewlink iffUp, eth0Addr rtmNewaddr 1], [eth0Addr rtmDeladdr 1]]

theorem handled_eq_iff_eth0 :
    handled (eth0Datagrams.map fun ms => .datagram (ms.map NlMsg.bytes).flatten) (Mem.ofList []) =
      eth0Datagrams.flatten.map NlMsg.bytes := by
  have hpad : ∀ ms ∈ eth0Datagrams, ∀ m ∈ ms, nlmsg.pad m.bytes.length = m.bytes.length := by
    decide +kernel
  have hlen : ∀ ms ∈ eth0Datagrams, (ms.map NlMsg.bytes).flatten.length ≤ buffSize := by
    decide +kernel
  have hall := (handled_eq_iff .bump (Mem.ofList [])
    (eth0Datagrams.map fun ms => (ms.map NlMsg.bytes, (ms.map NlMsg.bytes).flatten))
    (List.forall_mem_map.mpr fun ms hms => packed_msgs (hpad ms hms))).2.mpr
    (List.forall_mem_map.mpr hlen)
  rw [List.map_map, List.map_map] at hall
  rw [List.map_flatten]
  exact hall

/-- A dump of 47 addresses in one datagram is longer than the buffer, and not all of
its messages are handled. -/
theorem dump_truncated :
    Packed (List.replicate 47 (eth0Addr rtmNewaddr 1).bytes)
      (List.replicate 47 (eth0Addr rtmNewaddr 1).bytes).flatten ∧
    handled [.datagram (List.replicate 47 (eth0Addr rtmNewaddr 1).bytes).flatten] (Mem.ofList []) ≠
      List.replicate 47 (eth0Addr rtmNewaddr 1).bytes := by
  have hpacked : Packed (List.replicate 47 (eth0Addr rtmNewaddr 1).bytes)
      (List.replicate 47 (eth0Addr rtmNewaddr 1).bytes).flatten := by
    refine packed_flatten fun b hb => ?_
    rw [List.eq_of_mem_replicate hb]
    exact ⟨(eth0Addr rtmNewaddr 1).valid, by decide +kernel⟩
  have hlong : buffSize < (List.replicate 47 (eth0Addr rtmNewaddr 1).bytes).flatten.length := by
    decide +kernel
  refine ⟨hpacked, fun heq => ?_⟩
  have hlt := (visitedMsgs_packed (Mem.ofList []) hpacked).2 hlong
  have hone := congrArg List.length heq
  simp only [handled, List.append_nil] at hone
  rw [hone] at hlt
  exact Nat.lt_irrefl _ hlt

end Netif
