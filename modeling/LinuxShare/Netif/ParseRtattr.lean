-- SUMMARY: The attribute parser (netif_event.c) on any bytes: what it reads and writes, and what it finds.
import LinuxShare.Lib.Lists
import LinuxShare.Netif.Rtnetlink

/-!
# parse_rtattr on its own

The lengths come out of the buffer, and the length of the buffer from the message
header, so it may be zero or negative. The parser visits the longest well-formed prefix,
and nothing outside the buffer.
-/

namespace Netif

open Bytes CInt Records

/-! ## Accesses -/

/-- An access to the buffer, or to the table. -/
inductive Access where
  | read (addr width : Nat)
  | write (type attr : Nat)

/-- What `parse_rtattr` reads and writes, in order. What a round reads again is not repeated. -/
def parseAccesses (max : Int) (buf : Mem) (attr : Nat) (len : Int) : List Access :=
  if (rtaHdrlen : Int) ≤ len then
    .read attr 2 ::
      if _h : RtaOk buf attr len then
        .read (attr + 2) 2 ::
          ((if (rtaType buf attr : Int) ≤ max then [.write (rtaType buf attr) attr] else []) ++
            parseAccesses max buf (rtaNext buf attr) (rtaNextLen buf attr len))
      else []
  else []
termination_by len.toNat
decreasing_by exact rtaNextLen_lt _h

/-- What a write leaves in the table. -/
def AttrTable.apply (tb : AttrTable) : Access → AttrTable
  | .read _ _ => tb
  | .write type attr => Function.update tb type (some attr)

/-- A read stays in the `len` bytes from `attr` on. What is written is a whole attribute that
lies in them, at its type, and this is an index up to `max`. -/
def Access.Safe (max : Int) (buf : Mem) (attr : Nat) (len : Int) : Access → Prop
  | .read addr width => attr ≤ addr ∧ ((addr + width : Nat) : Int) ≤ attr + len
  | .write type rta => (type : Int) ≤ max ∧ type = rtaType buf rta ∧ rtaHdrlen ≤ rtaLen buf rta ∧
      attr ≤ rta ∧ ((rta + rtaLen buf rta : Nat) : Int) ≤ attr + len

variable {tb : AttrTable} {max : Int} {buf : Mem} {attr : Nat} {len : Int}

theorem parseAccesses_of_ok (hok : RtaOk buf attr len) :
    parseAccesses max buf attr len = .read attr 2 :: .read (attr + 2) 2 ::
      ((if (rtaType buf attr : Int) ≤ max then [.write (rtaType buf attr) attr] else []) ++
        parseAccesses max buf (rtaNext buf attr) (rtaNextLen buf attr len)) := by
  rw [parseAccesses, if_pos hok.1, dif_pos hok]

theorem parseAccesses_of_not_ok (hok : ¬ RtaOk buf attr len) :
    parseAccesses max buf attr len = if (rtaHdrlen : Int) ≤ len then [.read attr 2] else [] := by
  rw [parseAccesses, dif_neg hok]

/-- The table is what the writes make of it. -/
theorem foldl_parseAccesses :
    (parseAccesses max buf attr len).foldl AttrTable.apply tb = parseRtattr tb max buf attr len := by
  induction tb, attr, len using parseRtattr.induct max buf with
  | case1 tb attr len hok ih =>
      rw [parseAccesses_of_ok hok, parseRtattr, dif_pos hok, ← ih, AttrTable.store]
      split
      · rfl
      · rfl
  | case2 tb attr len hok =>
      rw [parseAccesses_of_not_ok hok, parseRtattr, dif_neg hok]
      split
      · rfl
      · rfl

theorem Access.Safe.mono {a : Access} {attr' : Nat} {len' : Int} (h : a.Safe max buf attr' len')
    (hlo : attr ≤ attr') (hhi : (attr' : Int) + len' ≤ attr + len) : a.Safe max buf attr len := by
  cases a with
  | read addr width =>
      obtain ⟨hge, hle⟩ := h
      exact ⟨hlo.trans hge, by omega⟩
  | write type rta =>
      obtain ⟨hmax, htype, hhdr, hge, hle⟩ := h
      exact ⟨hmax, htype, hhdr, hlo.trans hge, by omega⟩

/-- Whatever the bytes are, no access goes wrong. -/
theorem safe_parseAccesses (hlen : IsInt len) :
    ∀ a ∈ parseAccesses max buf attr len, a.Safe max buf attr len := by
  induction attr, len using parseAccesses.induct buf with
  | case1 attr len hhdr ih =>
      have hlen₄ : (4 : Int) ≤ len := hhdr
      by_cases hok : RtaOk buf attr len
      · obtain ⟨hnext, hnextlen, hint⟩ := rtaNext_eq hlen hok
        have hrest := ih hok
        have hle := hok.2.2
        rw [hnext, hnextlen] at hrest
        rw [parseAccesses_of_ok hok, hnext, hnextlen]
        simp only [List.forall_mem_cons, List.forall_mem_append]
        refine ⟨⟨Nat.le_refl _, by omega⟩, ⟨by omega, by omega⟩, ?_, ?_⟩
        · intro a ha
          split at ha
          · next hmax =>
              rw [List.mem_singleton.mp ha]
              exact ⟨hmax, rfl, hok.2.1, Nat.le_refl _, by omega⟩
          · cases ha
        · intro a ha
          exact (hrest hint a ha).mono (by omega) (by omega)
      · rw [parseAccesses_of_not_ok hok, if_pos hhdr]
        simp only [List.forall_mem_singleton]
        exact ⟨Nat.le_refl _, by omega⟩
  | case2 attr len hhdr =>
      rw [parseAccesses, if_neg hhdr]
      simp

/-! ## What is found -/

/-- The parser stores the attributes that it visits, in order. -/
theorem parseRtattr_eq_foldl (hlen : IsInt len) :
    parseRtattr tb max buf attr len =
      (rtattr.walk buf attr len).foldl (fun tb rta => tb.store max buf rta) tb := by
  induction tb, attr, len using parseRtattr.induct max buf with
  | case1 tb attr len hok ih =>
      obtain ⟨hnext, hnextlen, hint⟩ := rtaNext_eq hlen hok
      rw [hnext, hnextlen] at ih
      rw [parseRtattr, dif_pos hok, hnext, hnextlen, Framing.walk_of_fits (rtaOk_iff.mp hok),
        List.foldl_cons, ih hint]
  | case2 tb attr len hok =>
      rw [parseRtattr, dif_neg hok, Framing.walk_of_not_fits fun hfit => hok (rtaOk_iff.mpr hfit),
        List.foldl_nil]

/-- The attributes of type `t`. -/
def hasType (buf : Mem) (t rta : Nat) : Bool := rtaType buf rta == t

theorem foldl_store (rtas : List Nat) (t : Nat) :
    rtas.foldl (fun tb rta => tb.store max buf rta) tb t =
      if (t : Int) ≤ max then (Lists.lastSuch (hasType buf t) rtas).or (tb t) else tb t := by
  induction rtas using List.reverseRecOn with
  | nil => simp
  | append_singleton rtas rta ih =>
      rw [List.foldl_append, List.foldl_cons, List.foldl_nil, Lists.lastSuch_append_singleton,
        AttrTable.store]
      by_cases htype : rtaType buf rta = t
      · subst htype
        by_cases hmax : (rtaType buf rta : Int) ≤ max
        · simp [hmax, hasType]
        · rw [if_neg hmax, ih, if_neg hmax, if_neg hmax]
      · have hkeep : hasType buf t rta = false := by simp [hasType, htype]
        rw [hkeep, if_neg Bool.false_ne_true, ← ih]
        split
        · exact Function.update_of_ne (Ne.symm htype) _ _
        · rfl

/-- In `tb[t]` is the last attribute of type `t` that the parser has visited, if there is one. -/
theorem parseRtattr_apply (tb : AttrTable) (max : Int) (buf : Mem) (attr : Nat) (hlen : IsInt len)
    (t : Nat) :
    parseRtattr tb max buf attr len t = if (t : Int) ≤ max then
      (Lists.lastSuch (hasType buf t) (rtattr.walk buf attr len)).or (tb t) else tb t := by
  rw [parseRtattr_eq_foldl hlen, foldl_store]

/-! ## Attributes that have been serialised -/

/-- A type and a payload whose attribute's length fits its field. -/
structure Rta where
  type : UInt16
  payload : List UInt8
  fits : rtaHdrlen + payload.length < 2 ^ 16

namespace Rta

/-- The header and the payload; `rta_len` does not count the padding. -/
def bytes (a : Rta) : List UInt8 :=
  Mem.bytes16 (rtaHdrlen + a.payload.length) ++ (Mem.bytes16 a.type.toNat ++ a.payload)

variable (a : Rta)

@[simp] theorem length_bytes : a.bytes.length = rtaHdrlen + a.payload.length := by
  simp only [bytes, List.length_append, Mem.length_bytes16, ← Nat.add_assoc]

theorem valid_bytes : rtattr.Valid a.bytes := by
  refine ⟨by simp, ?_⟩
  rw [length_bytes]
  exact Mem.le16_ofList_bytes16 a.fits _

@[simp] theorem attrType_bytes : attrType a.bytes = a.type.toNat := by
  have hshift := Mem.ofList_append_shift (Mem.bytes16 (rtaHdrlen + a.payload.length))
    (Mem.bytes16 a.type.toNat ++ a.payload)
  rw [Mem.length_bytes16] at hshift
  rw [attrType, bytes, ← Nat.add_zero 2, ← Mem.le16_shift, hshift]
  exact Mem.le16_ofList_bytes16 a.type.toNat_lt _

@[simp] theorem drop_bytes : a.bytes.drop rtaHdrlen = a.payload := rfl

end Rta

/-- The attributes one after the other, each padded to four bytes. -/
def serialise (as : List Rta) : List UInt8 := rtattr.serialise (as.map Rta.bytes)

/-- The last pair of type `t`. -/
def lastRta (as : List Rta) (t : Nat) : Option Rta := Lists.lastSuch (fun a => a.type.toNat == t) as

/-- The walk over serialised attributes visits them. -/
theorem records_of_serialise {as : List Rta} (hlen : len = (serialise as).length)
    (hbuf : buf.slice attr (serialise as).length = serialise as) :
    rtattr.records buf attr len = as.map Rta.bytes := by
  have hvalid : ∀ b ∈ as.map Rta.bytes, rtattr.Valid b := by
    intro b hb
    obtain ⟨a, _, rfl⟩ := List.mem_map.mp hb
    exact a.valid_bytes
  have hagree : (buf.shift attr).Agree (Mem.ofList (serialise as)) 0 (0 + (len.toNat)) := by
    have hself := Mem.agree_ofList_slice buf attr (serialise as).length
    rw [hbuf] at hself
    intro i hlo hhi
    exact (hself i hlo (by omega)).symm
  rw [← Nat.add_zero attr, ← Framing.records_shift, Framing.records_congr hagree, hlen]
  exact (Framing.framed_serialise hvalid).records_eq

theorem hasType_eq {rta : Nat} (h : rta ∈ rtattr.walk buf attr len) (t : Nat) :
    hasType buf t rta = (attrType (buf.slice rta (rtattr.len buf rta)) == t) := by
  rw [attrType_slice (Framing.mem_walk h).2.1]
  rfl

/-- The last attribute of a type is the one of the last pair. -/
theorem lastSuch_of_serialise {as : List Rta} (hlen : len = (serialise as).length)
    (hbuf : buf.slice attr (serialise as).length = serialise as) (t : Nat) :
    (Lists.lastSuch (hasType buf t) (rtattr.walk buf attr len)).map
      (fun rta => buf.slice rta (rtattr.len buf rta)) = (lastRta as t).map Rta.bytes := by
  have hrecords : (rtattr.walk buf attr len).map (fun rta => buf.slice rta (rtattr.len buf rta)) =
      as.map Rta.bytes := records_of_serialise hlen hbuf
  have hmap := congrArg (Lists.lastSuch fun b => attrType b == t) hrecords
  simp only [Lists.lastSuch_map, Rta.attrType_bytes] at hmap
  rw [Lists.lastSuch_congr fun rta hrta => hasType_eq hrta t]
  exact hmap

/-- The table holds the payload of the last pair of each type. -/
theorem rtaPayload_of_serialise {as : List Rta} (hint : IsInt len) (hlen : len = (serialise as).length)
    (hbuf : buf.slice attr (serialise as).length = serialise as) {t : Nat} (ht : (t : Int) ≤ max) :
    (lastRta as t = none → parseRtattr tb max buf attr len t = tb t) ∧
    ∀ a, lastRta as t = some a → (parseRtattr tb max buf attr len t).isSome ∧
      rtaPayload buf (parseRtattr tb max buf attr len) t = a.payload := by
  have hlast := lastSuch_of_serialise hlen hbuf t
  have happly := parseRtattr_apply tb max buf attr hint t
  rw [if_pos ht] at happly
  refine ⟨fun hnone => ?_, fun a hsome => ?_⟩
  · rw [hnone, Option.map_none, Option.map_eq_none_iff] at hlast
    rw [happly, hlast, Option.none_or]
  · rw [hsome, Option.map_some, Option.map_eq_some_iff] at hlast
    obtain ⟨rta, hrta, hslice⟩ := hlast
    have hhdr : rtaHdrlen ≤ rtattr.len buf rta := (Framing.mem_walk (Lists.mem_of_lastSuch hrta).1).2.1
    rw [rtattr_framing_len] at hslice hhdr
    rw [hrta, Option.some_or] at happly
    refine ⟨by simp [happly], ?_⟩
    simp only [rtaPayload, happly]
    rw [← drop_slice_eq_payload hhdr, hslice, Rta.drop_bytes]

/-- The parser depends on the `len` bytes from `attr` on alone. -/
theorem parseRtattr_congr {buf' : Mem} (hlen : IsInt len) (h : buf.Agree buf' attr (attr + len.toNat)) :
    parseRtattr tb max buf attr len = parseRtattr tb max buf' attr len := by
  funext t
  rw [parseRtattr_apply _ _ _ _ hlen, parseRtattr_apply _ _ _ _ hlen, ← Framing.walk_congr h]
  have htype : ∀ rta ∈ rtattr.walk buf attr len, hasType buf t rta = hasType buf' t rta := by
    intro rta hrta
    obtain ⟨hge, hhdr, hle⟩ := Framing.mem_walk hrta
    have hhdr₄ : 4 ≤ rtattr.len buf rta := hhdr
    simp only [hasType, rtaType]
    rw [Mem.le16_congr (h.mono (by omega) (by omega))]
  rw [Lists.lastSuch_congr htype]

/-- On any bytes the parser reads nothing but the first `len`, and writes nothing but whole
attributes among them at the types up to `max`; each of these entries becomes the last
attribute of its type in the longest well-formed prefix, or stays what it was. That prefix
has at most `len / 4` attributes, so the loop ends. From serialised attributes the payload
of the last pair of each type is recovered. -/
theorem parseRtattr_spec (tb : AttrTable) (max : Int) (buf : Mem) (attr : Nat) {len : Int}
    (hlen : IsInt len) :
    ((parseAccesses max buf attr len).foldl AttrTable.apply tb = parseRtattr tb max buf attr len ∧
      ∀ a ∈ parseAccesses max buf attr len, a.Safe max buf attr len) ∧
    (∀ buf', buf.Agree buf' attr (attr + len.toNat) →
      parseRtattr tb max buf attr len = parseRtattr tb max buf' attr len) ∧
    (∃ rtas, rtattr.Longest buf attr len rtas ∧ rtas.length * rtaHdrlen ≤ len.toNat ∧
      ∀ t, parseRtattr tb max buf attr len t =
        if (t : Int) ≤ max then (Lists.lastSuch (hasType buf t) rtas).or (tb t) else tb t) ∧
    ∀ as : List Rta, len = (serialise as).length →
      buf.slice attr (serialise as).length = serialise as → ∀ t : Nat,
        ((t : Int) ≤ max → (lastRta as t = none → parseRtattr tb max buf attr len t = tb t) ∧
          ∀ a, lastRta as t = some a → (parseRtattr tb max buf attr len t).isSome ∧
            rtaPayload buf (parseRtattr tb max buf attr len) t = a.payload) ∧
        (max < t → parseRtattr tb max buf attr len t = tb t) := by
  refine ⟨⟨foldl_parseAccesses, safe_parseAccesses hlen⟩, fun buf' h => parseRtattr_congr hlen h,
    ⟨_, Framing.longest_walk buf attr len, Framing.length_walk_le buf attr len, parseRtattr_apply tb max buf attr hlen⟩,
    fun as has hbuf t => ?_⟩
  refine ⟨fun ht => rtaPayload_of_serialise hlen has hbuf ht, fun ht => ?_⟩
  rw [parseRtattr_apply _ _ _ _ hlen, if_neg (by omega)]

/-- Two attributes of one type, the first of which needs padding. -/
def twoMtus : List Rta := [⟨4, [1], by decide⟩, ⟨4, [2, 3, 4, 5], by decide⟩]

/-- The second one is found, in 16 bytes. -/
theorem parseRtattr_spec_twoMtus :
    rtaPayload (Mem.ofList (serialise twoMtus))
      (parseRtattr .zero 46 (Mem.ofList (serialise twoMtus)) 0 16) 4 = [2, 3, 4, 5] := by
  have hint : IsInt 16 := ⟨by decide, by decide⟩
  have hspec := (parseRtattr_spec .zero 46 (Mem.ofList (serialise twoMtus)) 0 hint).2.2.2 twoMtus
    (by decide) (Mem.slice_ofList _) 4
  exact ((hspec.1 (by decide)).2 _ rfl).2

end Netif
