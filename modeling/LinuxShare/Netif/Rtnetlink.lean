-- SUMMARY: The rtnetlink message and attribute macros, and the attribute parser, as netif_event.c uses them.
import LinuxShare.Lib.CInt
import LinuxShare.Lib.Records

/-!
# Netlink messages and routing attributes

The macros quoted in `netif_event.c` and its attribute parser. A receive buffer
is a byte memory and a pointer into it an offset. Fields are little-endian, as
on the machines the program is built for.
-/

namespace Netif

open Bytes CInt Records

/-! ## Constants -/

def nlmsgError : Nat := 2
def nlmsgDone : Nat := 3
def rtmNewlink : Nat := 16
def rtmDellink : Nat := 17
def rtmNewaddr : Nat := 20
def rtmDeladdr : Nat := 21

def iflaAddress : Nat := 1
def iflaIfname : Nat := 3
def iflaMtu : Nat := 4

/-- The value in the 4.15 headers, whose text the file quotes. Later headers only
make it larger; nothing below uses more than that it is at least `iflaMtu`. -/
def iflaMax : Nat := 46

def ifaAddress : Nat := 1
def ifaLabel : Nat := 3

/-- As `iflaMax`, of which only `ifaLabel ≤ ifaMax` is used. -/
def ifaMax : Nat := 8

def iffUp : Nat := 0x1
def iffLowerUp : Nat := 0x10000

/-! ## Message macros -/

/-- `sizeof(struct nlmsghdr)`, which is also `NLMSG_HDRLEN`. -/
abbrev nlmsgHdrlen : Nat := 16

def nlmsgLen (buf : Mem) (nlh : Nat) : Nat := buf.le32 nlh

def nlmsgType (buf : Mem) (nlh : Nat) : Nat := buf.le16 (nlh + 4)

def nlmsgAlign (len : Nat) : Nat := align4 len

def nlmsgSpace (len : Nat) : Nat := nlmsgAlign (len + nlmsgHdrlen)

def nlmsgData (nlh : Nat) : Nat := nlh + nlmsgHdrlen

/-- The last comparison is between an `unsigned` and an `int`, so it is made in
`unsigned`. -/
def NlmsgOk (buf : Mem) (nlh : Nat) (len : Int) : Prop :=
  (nlmsgHdrlen : Int) ≤ len ∧ nlmsgHdrlen ≤ nlmsgLen buf nlh ∧
    (nlmsgLen buf nlh : Int) ≤ toUnsigned len

instance (buf : Mem) (nlh : Nat) (len : Int) : Decidable (NlmsgOk buf nlh len) :=
  inferInstanceAs (Decidable (_ ∧ _ ∧ _))

/-- The pointer that `NLMSG_NEXT` yields. -/
def nlmsgNext (buf : Mem) (nlh : Nat) : Nat := nlh + nlmsgAlign (nlmsgLen buf nlh)

/-- What `NLMSG_NEXT` leaves in its length argument. -/
def nlmsgNextLen (buf : Mem) (nlh : Nat) (len : Int) : Int :=
  toInt (len - nlmsgAlign (nlmsgLen buf nlh))

/-! ## Attribute macros -/

/-- `sizeof(struct rtattr)`. -/
abbrev rtaHdrlen : Nat := 4

def rtaLen (buf : Mem) (rta : Nat) : Nat := buf.le16 rta

def rtaType (buf : Mem) (rta : Nat) : Nat := buf.le16 (rta + 2)

def rtaAlign (len : Nat) : Nat := align4 len

def RtaOk (buf : Mem) (rta : Nat) (len : Int) : Prop :=
  (rtaHdrlen : Int) ≤ len ∧ rtaHdrlen ≤ rtaLen buf rta ∧ (rtaLen buf rta : Int) ≤ len

instance (buf : Mem) (rta : Nat) (len : Int) : Decidable (RtaOk buf rta len) :=
  inferInstanceAs (Decidable (_ ∧ _ ∧ _))

def rtaNext (buf : Mem) (rta : Nat) : Nat := rta + rtaAlign (rtaLen buf rta)

def rtaNextLen (buf : Mem) (rta : Nat) (attrlen : Int) : Int :=
  toInt (attrlen - rtaAlign (rtaLen buf rta))

def rtaData (rta : Nat) : Nat := rta + rtaHdrlen

/-! ## The macros as record formats -/

/-- Netlink messages as length-prefixed records. -/
def nlmsg : Framing where
  hdr := nlmsgHdrlen
  field := fun m => m.le32 0
  pad := fun n => (n + 3) / 4 * 4
  hdr_pos := by decide
  le_pad := fun n => by omega
  field_congr := fun h => Mem.le32_congr (h.mono (Nat.le_refl 0) (by decide))

/-- Routing attributes as length-prefixed records. -/
def rtattr : Framing where
  hdr := rtaHdrlen
  field := fun m => m.le16 0
  pad := fun n => (n + 3) / 4 * 4
  hdr_pos := by decide
  le_pad := fun n => by omega
  field_congr := fun h => Mem.le16_congr (h.mono (Nat.le_refl 0) (by decide))

@[simp] theorem nlmsg_hdr : nlmsg.hdr = nlmsgHdrlen := rfl

@[simp] theorem rtattr_hdr : rtattr.hdr = rtaHdrlen := rfl

@[simp] theorem nlmsg_pad (n : Nat) : nlmsg.pad n = (n + 3) / 4 * 4 := rfl

@[simp] theorem rtattr_pad (n : Nat) : rtattr.pad n = (n + 3) / 4 * 4 := rfl

@[simp] theorem nlmsg_framing_len (buf : Mem) (nlh : Nat) : nlmsg.len buf nlh = nlmsgLen buf nlh := by
  simp [Framing.len, nlmsg, nlmsgLen]

@[simp] theorem rtattr_framing_len (buf : Mem) (rta : Nat) : rtattr.len buf rta = rtaLen buf rta := by
  simp [Framing.len, rtattr, rtaLen]

theorem nlmsgOk_iff {buf : Mem} {nlh : Nat} {len : Int} (hlen : IsInt len) :
    NlmsgOk buf nlh len ↔ nlmsg.Fits buf nlh len := by
  simp only [NlmsgOk, Framing.Fits, nlmsg_hdr, nlmsg_framing_len]
  by_cases h : (nlmsgHdrlen : Int) ≤ len
  · rw [toUnsigned_of_nonneg (by omega) hlen]
  · simp only [h, false_and]

theorem rtaOk_iff {buf : Mem} {rta : Nat} {len : Int} :
    RtaOk buf rta len ↔ rtattr.Fits buf rta len := by
  simp only [RtaOk, Framing.Fits, rtattr_hdr, rtattr_framing_len]

theorem nlmsgAlign_eq {len : Nat} (h : (len : Int) < 2 ^ 31) : nlmsgAlign len = nlmsg.pad len :=
  align4_eq (by omega)

theorem rtaAlign_eq {buf : Mem} {rta : Nat} :
    rtaAlign (rtaLen buf rta) = rtattr.pad (rtaLen buf rta) := by
  have hlt := Mem.le16_lt buf rta
  exact align4_eq (by simp only [rtaLen]; omega)

theorem nlmsgNext_eq {buf : Mem} {nlh : Nat} {len : Int} (hlen : IsInt len)
    (hok : NlmsgOk buf nlh len) :
    nlmsgNext buf nlh = nlh + nlmsg.pad (nlmsg.len buf nlh) ∧
      nlmsgNextLen buf nlh len = len - nlmsg.pad (nlmsg.len buf nlh) ∧
      IsInt (len - nlmsg.pad (nlmsg.len buf nlh)) := by
  obtain ⟨h₁, h₂, h₃⟩ := (nlmsgOk_iff hlen).mp hok
  obtain ⟨_, hhi⟩ := hlen
  simp only [nlmsg_framing_len] at h₃ ⊢
  have halign : nlmsgAlign (nlmsgLen buf nlh) = nlmsg.pad (nlmsgLen buf nlh) :=
    nlmsgAlign_eq (by omega)
  have hint : IsInt (len - nlmsg.pad (nlmsgLen buf nlh)) := by
    simp only [nlmsg_pad]
    constructor <;> omega
  rw [nlmsgNext, nlmsgNextLen, halign, toInt_of_isInt hint]
  exact ⟨rfl, rfl, hint⟩

theorem rtaNext_eq {buf : Mem} {rta : Nat} {len : Int} (hlen : IsInt len)
    (hok : RtaOk buf rta len) :
    rtaNext buf rta = rta + rtattr.pad (rtattr.len buf rta) ∧
      rtaNextLen buf rta len = len - rtattr.pad (rtattr.len buf rta) ∧
      IsInt (len - rtattr.pad (rtattr.len buf rta)) := by
  obtain ⟨h₁, h₂, h₃⟩ := rtaOk_iff.mp hok
  obtain ⟨_, hhi⟩ := hlen
  simp only [rtattr_framing_len] at h₃ ⊢
  have hint : IsInt (len - rtattr.pad (rtaLen buf rta)) := by
    simp only [rtattr_pad]
    constructor <;> omega
  rw [rtaNext, rtaNextLen, rtaAlign_eq, toInt_of_isInt hint]
  exact ⟨rfl, rfl, hint⟩

theorem rtaNextLen_lt {buf : Mem} {rta : Nat} {len : Int} (hok : RtaOk buf rta len) :
    (rtaNextLen buf rta len).toNat < len.toNat := by
  obtain ⟨h₁, h₂, h₃⟩ := hok
  have hle : toInt (len - rtaAlign (rtaLen buf rta)) ≤ len - rtaAlign (rtaLen buf rta) := by
    apply toInt_le
    rw [rtaAlign_eq, rtattr_pad]
    omega
  rw [rtaAlign_eq, rtattr_pad] at hle
  simp only [rtaNextLen, rtaAlign_eq, rtattr_pad, rtaHdrlen] at *
  omega

/-! ## The attribute parser -/

/-- The local `struct rtattr *tb[MAX + 1]`: for each type the offset of an
attribute, or NULL. -/
abbrev AttrTable := Nat → Option Nat

/-- `bzero(tb, sizeof(tb))`. -/
def AttrTable.zero : AttrTable := fun _ => none

/-- The body of the loop: `if(attr->rta_type <= max) tb[attr->rta_type] = attr;`. -/
def AttrTable.store (tb : AttrTable) (max : Int) (buf : Mem) (attr : Nat) : AttrTable :=
  if (rtaType buf attr : Int) ≤ max then Function.update tb (rtaType buf attr) (some attr) else tb

def parseRtattr (tb : AttrTable) (max : Int) (buf : Mem) (attr : Nat) (len : Int) : AttrTable :=
  if _h : RtaOk buf attr len then
    parseRtattr (tb.store max buf attr) max buf (rtaNext buf attr) (rtaNextLen buf attr len)
  else tb
termination_by len.toNat
decreasing_by exact rtaNextLen_lt _h

/-- `RTA_DATA` of `tb[type]` and its `datalen` bytes, none where `tb[type]` is
NULL. `datalen` is an `unsigned short`. -/
def rtaPayload (buf : Mem) (tb : AttrTable) (type : Nat) : List UInt8 :=
  match tb type with
  | none => []
  | some rta => buf.slice (rtaData rta) ((rtaLen buf rta - rtaHdrlen) % 2 ^ 16)

/-! ## What the parser finds -/

/-- The type of an attribute given as its own bytes. -/
def attrType (attr : List UInt8) : Nat := (Mem.ofList attr).le16 2

/-- The payload of the last attribute of type `t`; empty when there is none. -/
def lastPayload (attrs : List (List UInt8)) (t : Nat) : List UInt8 :=
  attrs.foldl (fun acc attr => if attrType attr = t then attr.drop rtaHdrlen else acc) []

theorem attrType_slice {buf : Mem} {rta n : Nat} (hn : rtaHdrlen ≤ n) :
    attrType (buf.slice rta n) = rtaType buf rta := by
  have hagree : (Mem.ofList (buf.slice rta n)).Agree (buf.shift rta) 2 (2 + 2) :=
    (Mem.agree_ofList_slice buf rta n).mono (by omega) (by simpa using hn)
  rw [attrType, Mem.le16_congr hagree, Mem.le16_shift, rtaType]

theorem drop_slice_eq_payload {buf : Mem} {rta : Nat} (h : rtaHdrlen ≤ rtaLen buf rta) :
    (buf.slice rta (rtaLen buf rta)).drop rtaHdrlen =
      buf.slice (rtaData rta) ((rtaLen buf rta - rtaHdrlen) % 2 ^ 16) := by
  have hlt : rtaLen buf rta < 2 ^ 16 := Mem.le16_lt buf rta
  rw [Mem.drop_slice, rtaData, Nat.mod_eq_of_lt (by omega)]

/-- The parser leaves in `tb[t]` the last attribute of type `t` that the walk
over the attributes visits. -/
theorem rtaPayload_parse {tb : AttrTable} {max : Int} {buf : Mem} {attr : Nat} {len : Int} {t : Nat}
    (hlen : IsInt len) (ht : (t : Int) ≤ max) :
    rtaPayload buf (parseRtattr tb max buf attr len) t =
      (rtattr.records buf attr len).foldl
        (fun acc a => if attrType a = t then a.drop rtaHdrlen else acc) (rtaPayload buf tb t) := by
  induction tb, attr, len using parseRtattr.induct max buf with
  | case1 tb attr len hok ih =>
      obtain ⟨hnext, hnextlen, hint⟩ := rtaNext_eq hlen hok
      have hfit := rtaOk_iff.mp hok
      have hhdr : rtaHdrlen ≤ rtaLen buf attr := hok.2.1
      rw [hnext, hnextlen] at ih
      rw [parseRtattr, dif_pos hok, hnext, hnextlen, Framing.records_of_fits hfit, List.foldl_cons,
        ih hint]
      congr 1
      rw [rtattr_framing_len, attrType_slice hhdr]
      by_cases htype : rtaType buf attr = t
      · subst htype
        simp only [AttrTable.store, if_pos ht, rtaPayload, Function.update_self, if_true,
          drop_slice_eq_payload hhdr]
      · have hkeep : tb.store max buf attr t = tb t := by
          rw [AttrTable.store]
          split
          · exact Function.update_of_ne (Ne.symm htype) _ _
          · rfl
        simp only [rtaPayload, hkeep, if_neg htype]
  | case2 tb attr len hok =>
      rw [parseRtattr, dif_neg hok, Framing.records_of_not_fits (fun hfit => hok (rtaOk_iff.mpr hfit)),
        List.foldl_nil]

theorem rtaPayload_parse_zero {max : Int} {buf : Mem} {attr : Nat} {len : Int} {t : Nat}
    (hlen : IsInt len) (ht : (t : Int) ≤ max) :
    rtaPayload buf (parseRtattr .zero max buf attr len) t =
      lastPayload (rtattr.records buf attr len) t :=
  rtaPayload_parse hlen ht

end Netif
