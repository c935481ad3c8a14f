-- SUMMARY: The network device that answers pings by itself (vir_net.c): which requests it turns into replies.
import LinuxShare.Lib.Bytes
import LinuxShare.Lib.Checksum

/-!
# False packets

The device swaps the addresses of every frame it is given, stores a 32-bit zero behind an
IP header of 20 bytes, rebuilds the checksum of the IP header, and hands the frame back
as received. The zero is meant for the type of the ICMP message; it covers the code and
the checksum too, or, when the header is longer, IP options instead.
-/

namespace VirNet

open Bytes Checksum

structure Skb where
  data : Mem
  len : Nat

/-- The length of an IP header behind the Ethernet header, in words. -/
def ihl (m : Mem) : Nat := (m 14).toNat % 16

/-- Where the ICMP message begins. -/
def icmp (m : Mem) : Nat := 14 + 4 * ihl m

/-! ## The driver -/

/-- `h_dest` is saved in `my_tmp`. -/
def swapMacs (m : Mem) : Mem := m.exchange 0 6 6

/-- `daddr` is saved in `my_iptmp`. -/
def swapAddrs (m : Mem) : Mem := m.exchange 30 26 4

/-- `*type = 0` with an `int` behind a `struct iphdr`. -/
def clearType (m : Mem) : Mem := m.write 34 [0, 0, 0, 0]

/-- `ip_fast_csum` sums up the header with zero in the place of the checksum. -/
def rebuildCheck (m : Mem) : Mem :=
  let m := m.write 24 (be16 0)
  m.write 24 (be16 (checksum (m.slice 14 (4 * ihl m))))

def falsePacket (skb : Skb) : Skb where
  data := rebuildCheck (clearType (swapAddrs (swapMacs skb.data)))
  len := skb.len

/-- The frames that have gone to `netif_rx`, with their Ethernet headers, and the statistics,
`unsigned long`s of an ARM; `count` is an `unsigned int`. -/
structure Dev where
  received : List Skb
  rxBytes : UInt32
  rxPackets : UInt32
  txBytes : UInt32
  txPackets : UInt32
  count : UInt32

/-- What `eth_type_trans` leaves of a length, behind the Ethernet header. -/
def ethTypeTrans (len : Nat) : Nat := len - 14

def constructFalsePacket (skb : Skb) (dev : Dev) : Dev :=
  let rxSkb := falsePacket skb
  { dev with
    received := dev.received ++ [rxSkb]
    rxBytes := dev.rxBytes + UInt32.ofNat (ethTypeTrans rxSkb.len)
    rxPackets := dev.rxPackets + 1 }

/-- `len` is read after `dev_kfree_skb`; `stale` is what it is by then. -/
def ndoStartXmit (skb : Skb) (stale : UInt32) (dev : Dev) : Dev :=
  let dev := { dev with count := dev.count + 1 }
  let dev := constructFalsePacket skb dev
  { dev with txBytes := dev.txBytes + stale, txPackets := dev.count }

/-! ## Requests and replies -/

/-- The big-endian value at `o`. -/
def word (m : Mem) (o : Nat) : Nat := 256 * (m o).toNat + (m (o + 1)).toNat

/-- An IPv4 frame with an ICMP echo request, both checksums correct. -/
structure EchoRequest (skb : Skb) : Prop where
  ethertype : word skb.data 12 = 0x0800
  version : (skb.data 14).toNat / 16 = 4
  header : 5 ≤ ihl skb.data
  total : word skb.data 16 + 14 = skb.len
  protocol : skb.data 23 = 1
  headerValid : Valid (skb.data.slice 14 (4 * ihl skb.data))
  room : icmp skb.data + 8 ≤ skb.len
  type : skb.data (icmp skb.data) = 8
  valid : Valid (skb.data.slice (icmp skb.data) (skb.len - icmp skb.data))

/-- `rx` is the reply to `skb`. -/
structure EchoReply (skb rx : Skb) : Prop where
  len : rx.len = skb.len
  macs : rx.data.slice 0 6 = skb.data.slice 6 6 ∧ rx.data.slice 6 6 = skb.data.slice 0 6
  header : rx.data.slice 12 12 = skb.data.slice 12 12
  headerValid : Valid (rx.data.slice 14 (4 * ihl rx.data))
  addrs : rx.data.slice 26 4 = skb.data.slice 30 4 ∧ rx.data.slice 30 4 = skb.data.slice 26 4
  options : rx.data.slice 34 (icmp skb.data - 34) = skb.data.slice 34 (icmp skb.data - 34)
  type : rx.data (icmp skb.data) = 0
  code : rx.data (icmp skb.data + 1) = skb.data (icmp skb.data + 1)
  rest : rx.data.slice (icmp skb.data + 4) (skb.len - (icmp skb.data + 4)) =
    skb.data.slice (icmp skb.data + 4) (skb.len - (icmp skb.data + 4))
  valid : Valid (rx.data.slice (icmp skb.data) (skb.len - icmp skb.data))

/-- The header has no options, the code is zero, and the checksum is the one that a request
with these words has when the checksum of the reply is zero. -/
structure Fits (skb : Skb) : Prop where
  header : ihl skb.data = 5
  code : skb.data 35 = 0
  check : word skb.data 36 = 0xf7ff
  rest : ∃ i, 38 ≤ i ∧ i < skb.len ∧ skb.data i ≠ 0

/-- `rx` is `skb` with the addresses exchanged and a correct IP header; apart from the word
behind the addresses nothing else has changed, and nothing behind the frame. -/
structure SentBack (skb rx : Skb) : Prop where
  len : rx.len = skb.len
  macs : rx.data.slice 0 6 = skb.data.slice 6 6 ∧ rx.data.slice 6 6 = skb.data.slice 0 6
  addrs : rx.data.slice 26 4 = skb.data.slice 30 4 ∧ rx.data.slice 30 4 = skb.data.slice 26 4
  header : ihl rx.data = ihl skb.data ∧ 14 + 4 * ihl rx.data ≤ rx.len
  headerValid : Valid (rx.data.slice 14 (4 * ihl rx.data))
  rest : ∀ i, 12 ≤ i → (i < 24 ∨ 34 ≤ i) → (i < 34 ∨ 38 ≤ i) → rx.data i = skb.data i
  behind : ∀ i, skb.len ≤ i → rx.data i = skb.data i

/-! ## Some frames -/

/-- A frame with the given bytes. -/
def frame (bs : List UInt8) : Skb where
  data := Mem.ofList bs
  len := bs.length

/-- The addresses of the frames below and an IP header of 20 bytes. -/
def plainHeader : List UInt8 :=
  [2, 0, 0, 0, 0, 1, 2, 0, 0, 0, 0, 2, 8, 0,
    69, 0, 0, 28, 0, 0, 0, 0, 64, 1, 102, 223, 10, 0, 0, 1, 10, 0, 0, 2]

/-- Identifier 0xffff and sequence number 0. -/
def luckyPing : Skb := frame (plainHeader ++ [8, 0, 0xf7, 0xff, 0xff, 0xff, 0, 0])

/-- Identifier and sequence number 1. -/
def firstPing : Skb := frame (plainHeader ++ [8, 0, 0xf7, 0xfd, 0, 1, 0, 1])

/-- The same behind four bytes of IP options. -/
def optionPing : Skb :=
  frame [2, 0, 0, 0, 0, 1, 2, 0, 0, 0, 0, 2, 8, 0,
    70, 0, 0, 32, 0, 0, 0, 0, 64, 1, 99, 218, 10, 0, 0, 1, 10, 0, 0, 2, 1, 1, 1, 0,
    8, 0, 0xf7, 0xfd, 0, 1, 0, 1]

def newDev : Dev where
  received := []
  rxBytes := 0
  rxPackets := 0
  txBytes := 0
  txPackets := 0
  count := 0

/-! ## Where the bytes go -/

variable {m : Mem} {skb : Skb} {i : Nat}

theorem clearType_of_mem (h : 34 ≤ i) (hi : i < 38) : clearType m i = 0 := by
  have hcases : i = 34 ∨ i = 35 ∨ i = 36 ∨ i = 37 := by omega
  rcases hcases with rfl | rfl | rfl | rfl <;> rfl

theorem clearType_of_not_mem (h : i < 34 ∨ 38 ≤ i) : clearType m i = m i := by
  rcases h with h | h
  · exact Mem.write_of_lt h
  · exact Mem.write_of_ge h

theorem rebuildCheck_of_not_mem (h : i < 24 ∨ 26 ≤ i) : rebuildCheck m i = m i := by
  rcases h with h | h
  · rw [rebuildCheck, Mem.write_of_lt h, Mem.write_of_lt h]
  · rw [rebuildCheck, Mem.write_of_ge h, Mem.write_of_ge h]

/-- The header around its checksum. -/
theorem slice_header (m : Mem) (n k : Nat) :
    (m.write 24 (be16 n)).slice 14 (10 + 2 + k) = m.slice 14 10 ++ be16 n ++ m.slice 26 k :=
  Mem.slice_write m 14 10 k (be16 n)

/-- The checksum of the header is correct afterwards. -/
theorem valid_rebuildCheck (h : 5 ≤ ihl m) :
    Valid ((rebuildCheck m).slice 14 (4 * ihl (rebuildCheck m))) := by
  have hihl : ihl (rebuildCheck m) = ihl m := by
    rw [ihl, ihl, rebuildCheck_of_not_mem (.inl (by decide))]
  have hzero : ihl (m.write 24 (be16 0)) = ihl m := by
    rw [ihl, ihl, Mem.write_of_lt (by decide)]
  have hlen : 4 * ihl m = 10 + 2 + (4 * ihl m - 12) := by omega
  have hbefore : (m.write 24 (be16 0)).slice 14 10 = m.slice 14 10 :=
    Mem.slice_write_of_disjoint (.inl (by decide))
  have hafter : ∀ k, (m.write 24 (be16 0)).slice 26 k = m.slice 26 k := fun k =>
    Mem.slice_write_of_disjoint (.inr (by simp))
  rw [hihl, rebuildCheck, hzero, hlen, slice_header, slice_header, hbefore, hafter]
  exact valid_checksum (by rw [Mem.length_slice])

theorem falsePacket_data (skb : Skb) :
    (falsePacket skb).data = rebuildCheck (clearType (swapAddrs (swapMacs skb.data))) := rfl

/-- Outside of the addresses, the checksum and the word of the type nothing changes. -/
theorem falsePacket_of_not_mem (h : 12 ≤ i) (hcheck : i < 24 ∨ 34 ≤ i) (htype : i < 34 ∨ 38 ≤ i) :
    (falsePacket skb).data i = skb.data i := by
  rw [falsePacket_data, rebuildCheck_of_not_mem (by omega), clearType_of_not_mem htype, swapAddrs,
    Mem.exchange_of_not_mem (by omega) (by omega), swapMacs,
    Mem.exchange_of_not_mem (by omega) (by omega)]

theorem falsePacket_type (h : 34 ≤ i) (hi : i < 38) : (falsePacket skb).data i = 0 := by
  rw [falsePacket_data, rebuildCheck_of_not_mem (by omega), clearType_of_mem h hi]

theorem falsePacket_slice {o n : Nat} (h : 12 ≤ o) (hcheck : o + n ≤ 24 ∨ 34 ≤ o)
    (htype : o + n ≤ 34 ∨ 38 ≤ o) : (falsePacket skb).data.slice o n = skb.data.slice o n :=
  Mem.slice_congr fun i hlo hhi => falsePacket_of_not_mem (by omega) (by omega) (by omega)

theorem falsePacket_ihl (skb : Skb) : ihl (falsePacket skb).data = ihl skb.data := by
  rw [ihl, ihl, falsePacket_of_not_mem (by decide) (.inl (by decide)) (.inl (by decide))]

theorem falsePacket_macs (skb : Skb) :
    (falsePacket skb).data.slice 0 6 = skb.data.slice 6 6 ∧
      (falsePacket skb).data.slice 6 6 = skb.data.slice 0 6 := by
  have hkept : ∀ o, o + 6 ≤ 12 →
      (falsePacket skb).data.slice o 6 = (swapMacs skb.data).slice o 6 := fun o ho =>
    Mem.slice_congr fun i hlo hhi => by
      rw [falsePacket_data, rebuildCheck_of_not_mem (by omega), clearType_of_not_mem (by omega),
        swapAddrs, Mem.exchange_of_not_mem (by omega) (by omega)]
  rw [hkept 0 (by decide), hkept 6 (by decide)]
  exact Mem.slice_exchange (.inl (by decide))

theorem falsePacket_addrs (skb : Skb) :
    (falsePacket skb).data.slice 26 4 = skb.data.slice 30 4 ∧
      (falsePacket skb).data.slice 30 4 = skb.data.slice 26 4 := by
  have hkept : ∀ o, 26 ≤ o → o + 4 ≤ 34 →
      (falsePacket skb).data.slice o 4 = (swapAddrs (swapMacs skb.data)).slice o 4 :=
    fun o ho ho' => Mem.slice_congr fun i hlo hhi => by
      rw [falsePacket_data, rebuildCheck_of_not_mem (by omega), clearType_of_not_mem (by omega)]
  have hmacs : ∀ o, 12 ≤ o → (swapMacs skb.data).slice o 4 = skb.data.slice o 4 := fun o ho =>
    Mem.slice_congr fun i hlo hhi => Mem.exchange_of_not_mem (by omega) (by omega)
  rw [hkept 26 (by decide) (by decide), hkept 30 (by decide) (by decide), ← hmacs 26 (by decide),
    ← hmacs 30 (by decide)]
  exact (Mem.slice_exchange (.inr (by decide))).symm

/-- The header of the frame that is handed back is correct. -/
theorem falsePacket_header (h : 5 ≤ ihl skb.data) :
    Valid ((falsePacket skb).data.slice 14 (4 * ihl (falsePacket skb).data)) := by
  rw [falsePacket_data]
  refine valid_rebuildCheck ?_
  have hihl := falsePacket_ihl skb
  rw [falsePacket_data, ihl, ihl, rebuildCheck_of_not_mem (.inl (by decide))] at hihl
  rw [ihl, hihl]
  exact h

/-! ## Frames that are handed back -/

theorem falsePacket_sentBack (hihl : 5 ≤ ihl skb.data) (hlen : max 38 (14 + 4 * ihl skb.data) ≤ skb.len) :
    SentBack skb (falsePacket skb) where
  len := rfl
  macs := falsePacket_macs skb
  addrs := falsePacket_addrs skb
  header := by
    refine ⟨falsePacket_ihl skb, ?_⟩
    rw [falsePacket_ihl]
    exact (Nat.le_max_right _ _).trans hlen
  headerValid := falsePacket_header hihl
  rest := fun _ => falsePacket_of_not_mem
  behind := fun i hi => by
    have hend : 38 ≤ i := (Nat.le_max_left _ _).trans (hlen.trans hi)
    exact falsePacket_of_not_mem (by omega) (.inr (by omega)) (.inr hend)

/-- Whatever the header length, the options and the payload: one frame is handed back, with
the addresses exchanged, a correct header and the rest as it was, and it is counted. -/
theorem constructFalsePacket_spec (skb : Skb) (dev : Dev) (hihl : 5 ≤ ihl skb.data)
    (hlen : max 38 (14 + 4 * ihl skb.data) ≤ skb.len) :
    ∃ rx, (constructFalsePacket skb dev).received = dev.received ++ [rx] ∧ SentBack skb rx ∧
      (constructFalsePacket skb dev).rxPackets = dev.rxPackets + 1 ∧
      (constructFalsePacket skb dev).rxBytes + 14 = dev.rxBytes + UInt32.ofNat skb.len := by
  refine ⟨falsePacket skb, rfl, falsePacket_sentBack hihl hlen, rfl, ?_⟩
  have hheader : 14 ≤ skb.len := le_trans (by omega) ((Nat.le_max_left _ _).trans hlen)
  have hlen : UInt32.ofNat (skb.len - 14) + UInt32.ofNat 14 = UInt32.ofNat skb.len := by
    rw [← UInt32.ofNat_add, Nat.sub_add_cancel hheader]
  show dev.rxBytes + UInt32.ofNat (skb.len - 14) + 14 = dev.rxBytes + UInt32.ofNat skb.len
  rw [UInt32.add_assoc, ← hlen]
  rfl

/-- The store of the type hits the options here. -/
theorem optionPing_sentBack :
    ∃ rx, (constructFalsePacket optionPing newDev).received = [rx] ∧ SentBack optionPing rx ∧
      (constructFalsePacket optionPing newDev).rxPackets = 1 ∧
      (constructFalsePacket optionPing newDev).rxBytes + 14 = 46 := by
  have hspec := constructFalsePacket_spec optionPing newDev (by decide) (by decide)
  exact hspec

/-! ## Replies -/

/-- A message behind a header without options: two words, and what the reply has to keep. -/
theorem sum16_message (m : Mem) {len : Nat} (h : 38 ≤ len) :
    sum16 (m.slice 34 (len - 34)) = word m 34 + word m 36 + sum16 (m.slice 38 (len - 38)) := by
  have hlen : len - 34 = len - 38 + 1 + 1 + 1 + 1 := by omega
  rw [hlen]
  simp only [Mem.slice_succ, sum16, word, Nat.reduceAdd, Nat.add_assoc]

theorem sum16_rest_pos_iff {len : Nat} :
    0 < sum16 (m.slice 38 (len - 38)) ↔ ∃ i, 38 ≤ i ∧ i < len ∧ m i ≠ 0 := by
  rw [Nat.pos_iff_ne_zero, ne_eq, sum16_eq_zero_iff]
  constructor
  · intro h
    by_contra hnone
    refine h fun b hb => ?_
    obtain ⟨i, hlo, hhi, rfl⟩ := Mem.mem_slice.mp hb
    by_contra hne
    exact hnone ⟨i, hlo, by omega, hne⟩
  · rintro ⟨i, hlo, hhi, hne⟩ hzero
    exact hne (hzero _ (Mem.mem_slice.mpr ⟨i, hlo, by omega, rfl⟩))

theorem word_lt (m : Mem) (o : Nat) : word m o < 65536 := by
  have hhigh := (m o).toNat_lt
  have hlow := (m (o + 1)).toNat_lt
  rw [word]
  omega

/-- A message that begins with two zero words in place of those of the request is correct
for one checksum of the request only. -/
theorem reply_valid_iff (h : EchoRequest skb) (hihl : ihl skb.data = 5) (hcode : skb.data 35 = 0) :
    Valid ((falsePacket skb).data.slice 34 (skb.len - 34)) ↔
      word skb.data 36 = 0xf7ff ∧ ∃ i, 38 ≤ i ∧ i < skb.len ∧ skb.data i ≠ 0 := by
  have hicmp : icmp skb.data = 34 := by rw [icmp, hihl]
  have hroom := h.room
  have hvalid := h.valid
  have htype := h.type
  rw [hicmp] at hroom hvalid htype
  have hrest : (falsePacket skb).data.slice 38 (skb.len - 38) = skb.data.slice 38 (skb.len - 38) :=
    falsePacket_slice (by decide) (.inr (by decide)) (.inr (by decide))
  have hzero : ∀ o, 34 ≤ o → o + 1 < 38 → word (falsePacket skb).data o = 0 := fun o ho ho' => by
    rw [word, falsePacket_type ho (by omega), falsePacket_type (by omega) ho']
    rfl
  have hfirst : word skb.data 34 = 2048 := by
    rw [word, htype, hcode]
    rfl
  have hcheck := word_lt skb.data 36
  rw [Valid, fold_eq_iff, sum16_message _ (by omega), hfirst] at hvalid
  rw [Valid, fold_eq_iff, sum16_message _ (by omega), hrest, hzero 34 (by decide) (by decide),
    hzero 36 (by decide) (by decide), ← sum16_rest_pos_iff]
  omega

/-- A request is answered by its reply just when it fits. -/
theorem reply_iff_fits (h : EchoRequest skb) : EchoReply skb (falsePacket skb) ↔ Fits skb := by
  have hheader := h.header
  constructor
  · intro hreply
    have hihl : ihl skb.data = 5 := by
      by_contra hne
      -- behind options the type is out of reach of the store
      have htype := hreply.type
      rw [falsePacket_of_not_mem (by simp only [icmp]; omega) (by simp only [icmp]; omega)
        (by simp only [icmp]; omega), h.type] at htype
      cases htype
    have hicmp : icmp skb.data = 34 := by rw [icmp, hihl]
    have hcode : skb.data 35 = 0 := by
      have hkept := hreply.code
      rw [hicmp, falsePacket_type (by decide) (by decide)] at hkept
      exact hkept.symm
    have hvalid := hreply.valid
    rw [hicmp, reply_valid_iff h hihl hcode] at hvalid
    exact ⟨hihl, hcode, hvalid.1, hvalid.2⟩
  · intro hfits
    have hicmp : icmp skb.data = 34 := by rw [icmp, hfits.header]
    refine ⟨rfl, falsePacket_macs skb, ?_, falsePacket_header hheader, falsePacket_addrs skb,
      ?_, ?_, ?_, ?_, ?_⟩
    · exact falsePacket_slice (by decide) (.inl (by decide)) (.inl (by decide))
    · rw [hicmp, Nat.sub_self, Mem.slice_zero, Mem.slice_zero]
    · rw [hicmp, falsePacket_type (by decide) (by decide)]
    · rw [hicmp, hfits.code, falsePacket_type (by decide) (by decide)]
    · rw [hicmp]
      exact falsePacket_slice (by decide) (.inr (by decide)) (.inr (by decide))
    · rw [hicmp, reply_valid_iff h hfits.header hfits.code]
      exact ⟨hfits.check, hfits.rest⟩

/-- Every echo request that is sent, from any state of the device: what is received is its
reply if and only if the request has no options, code 0, and the one checksum that leaves
a reply with checksum 0 correct. -/
theorem echoed_iff (skb : Skb) (stale : UInt32) (dev : Dev) (h : EchoRequest skb) :
    (∃ rx, (ndoStartXmit skb stale dev).received = dev.received ++ [rx] ∧ EchoReply skb rx) ↔
      Fits skb := by
  rw [← reply_iff_fits h]
  constructor
  · rintro ⟨rx, hreceived, hreply⟩
    have hrx : falsePacket skb = rx := by simpa [ndoStartXmit, constructFalsePacket] using hreceived
    rwa [hrx]
  · intro hreply
    exact ⟨falsePacket skb, rfl, hreply⟩

theorem echoed_luckyPing :
    ∃ rx, (ndoStartXmit luckyPing 42 newDev).received = [rx] ∧ EchoReply luckyPing rx := by
  refine (echoed_iff luckyPing 42 newDev ?_).mpr ⟨by decide, by decide, by decide, 38, ?_⟩
  · refine ⟨?_, ?_, ?_, ?_, ?_, ?_, ?_, ?_, ?_⟩ <;> decide
  · decide

/-- The answer to a simple ping has a wrong checksum; with options it is still a request. -/
theorem ping_not_echoed :
    (EchoRequest firstPing ∧ ¬ Valid ((falsePacket firstPing).data.slice 34 8) ∧
      ¬ ∃ rx, (ndoStartXmit firstPing 42 newDev).received = [rx] ∧ EchoReply firstPing rx) ∧
    EchoRequest optionPing ∧ (falsePacket optionPing).data 38 = 8 ∧
      ¬ ∃ rx, (ndoStartXmit optionPing 46 newDev).received = [rx] ∧ EchoReply optionPing rx := by
  have hfirst : ¬ Valid ((falsePacket firstPing).data.slice 34 8) := by decide
  have htype : (falsePacket optionPing).data 38 = 8 := by decide
  refine ⟨⟨?_, hfirst, ?_⟩, ?_, htype, ?_⟩
  · refine ⟨?_, ?_, ?_, ?_, ?_, ?_, ?_, ?_, ?_⟩ <;> decide
  · rintro ⟨rx, hreceived, hreply⟩
    cases hreceived
    exact hfirst hreply.valid
  · refine ⟨?_, ?_, ?_, ?_, ?_, ?_, ?_, ?_, ?_⟩ <;> decide
  · rintro ⟨rx, hreceived, hreply⟩
    cases hreceived
    cases htype.symm.trans hreply.type

end VirNet
