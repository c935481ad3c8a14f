-- SUMMARY: Buffers of length-prefixed, padded records: the walk over them, its bounds, its locality and its framing.
import LinuxShare.Lib.Bytes

/-!
# Length-prefixed records

A record starts with a header that holds the record's own length, header
included, and is padded before the next one. A walk starts at an offset with a
number of bytes remaining and goes on while a whole record fits. The remaining
length is an integer: the padding of the last record may drive it below zero.
-/

namespace Records

open Bytes

/-- A record format: the size of its header, how the length is read from a
header that starts at offset 0, and the padded size of a record. -/
structure Framing where
  hdr : Nat
  field : Mem → Nat
  pad : Nat → Nat
  hdr_pos : 0 < hdr
  le_pad : ∀ n, n ≤ pad n
  field_congr : ∀ {m m' : Mem}, m.Agree m' 0 hdr → field m = field m'

namespace Framing

variable (F : Framing)

/-- The length stored in the header at offset `o`. -/
def len (m : Mem) (o : Nat) : Nat := F.field (m.shift o)

/-- A whole record starts at `o` when `r` bytes remain. -/
def Fits (m : Mem) (o : Nat) (r : Int) : Prop :=
  (F.hdr : Int) ≤ r ∧ F.hdr ≤ F.len m o ∧ (F.len m o : Int) ≤ r

instance (m : Mem) (o : Nat) (r : Int) : Decidable (F.Fits m o r) :=
  inferInstanceAs (Decidable (_ ∧ _ ∧ _))

variable {F}

/-- Skipping a record leaves fewer bytes to walk. -/
theorem Fits.lt {m : Mem} {o : Nat} {r : Int} (h : F.Fits m o r) :
    (r - F.pad (F.len m o)).toNat < r.toNat := by
  have hpos := F.hdr_pos
  have hpad := F.le_pad (F.len m o)
  obtain ⟨h₁, h₂, h₃⟩ := h
  omega

variable (F)

/-- The offsets of the records that a walk visits. -/
def walk (m : Mem) (o : Nat) (r : Int) : List Nat :=
  if _h : F.Fits m o r then
    o :: walk m (o + F.pad (F.len m o)) (r - F.pad (F.len m o))
  else []
termination_by r.toNat
decreasing_by exact _h.lt

/-- The offsets of the headers that a walk reads: those of the records and the
one it stops at, unless it stops because no header is left. -/
def heads (m : Mem) (o : Nat) (r : Int) : List Nat :=
  if (F.hdr : Int) ≤ r then
    if _h : F.Fits m o r then
      o :: heads m (o + F.pad (F.len m o)) (r - F.pad (F.len m o))
    else [o]
  else []
termination_by r.toNat
decreasing_by exact _h.lt

/-- The records that a walk visits, as their own bytes. -/
def records (m : Mem) (o : Nat) (r : Int) : List (List UInt8) :=
  (F.walk m o r).map fun p => m.slice p (F.len m p)

variable {F}

theorem walk_of_fits {m : Mem} {o : Nat} {r : Int} (h : F.Fits m o r) :
    F.walk m o r = o :: F.walk m (o + F.pad (F.len m o)) (r - F.pad (F.len m o)) := by
  rw [walk, dif_pos h]

theorem walk_of_not_fits {m : Mem} {o : Nat} {r : Int} (h : ¬ F.Fits m o r) :
    F.walk m o r = [] := by
  rw [walk, dif_neg h]

theorem records_of_fits {m : Mem} {o : Nat} {r : Int} (h : F.Fits m o r) :
    F.records m o r = m.slice o (F.len m o) ::
      F.records m (o + F.pad (F.len m o)) (r - F.pad (F.len m o)) := by
  simp only [records, walk_of_fits h, List.map_cons]

theorem records_of_not_fits {m : Mem} {o : Nat} {r : Int} (h : ¬ F.Fits m o r) :
    F.records m o r = [] := by
  simp only [records, walk_of_not_fits h, List.map_nil]

/-! ## Bounds and progress -/

/-- Every record that is visited lies inside the walked bytes. -/
theorem mem_walk {m : Mem} {o p : Nat} {r : Int} (h : p ∈ F.walk m o r) :
    o ≤ p ∧ F.hdr ≤ F.len m p ∧ ((p + F.len m p : Nat) : Int) ≤ o + r := by
  induction o, r using walk.induct (F := F) (m := m) with
  | case1 o r hfit ih =>
      rw [walk_of_fits hfit, List.mem_cons] at h
      obtain ⟨_, h₂, h₃⟩ := hfit
      rcases h with rfl | h
      · exact ⟨Nat.le_refl p, h₂, by omega⟩
      · obtain ⟨h₄, h₅, h₆⟩ := ih h
        exact ⟨by omega, h₅, by omega⟩
  | case2 o r hfit =>
      rw [walk_of_not_fits hfit] at h
      cases h

/-- The records that are visited do not overlap. -/
theorem walk_pairwise (m : Mem) (o : Nat) (r : Int) :
    (F.walk m o r).Pairwise fun p q => p + F.len m p ≤ q := by
  induction o, r using walk.induct (F := F) (m := m) with
  | case1 o r hfit ih =>
      rw [walk_of_fits hfit]
      refine List.Pairwise.cons ?_ ih
      intro q hq
      have hle := (mem_walk hq).1
      have hpad := F.le_pad (F.len m o)
      omega
  | case2 o r hfit =>
      rw [walk_of_not_fits hfit]
      exact List.Pairwise.nil

/-- Every round of the walk uses up at least a header. -/
theorem length_walk_le (m : Mem) (o : Nat) (r : Int) :
    (F.walk m o r).length * F.hdr ≤ r.toNat := by
  induction o, r using walk.induct (F := F) (m := m) with
  | case1 o r hfit ih =>
      rw [walk_of_fits hfit, List.length_cons, Nat.add_mul, Nat.one_mul]
      have hpad := F.le_pad (F.len m o)
      obtain ⟨h₁, h₂, h₃⟩ := hfit
      by_cases hr : (F.pad (F.len m o) : Int) ≤ r
      · omega
      · -- the padding of this record was cut off, so the walk ends here
        have hzero : (r - F.pad (F.len m o)).toNat = 0 := by omega
        rw [hzero] at ih
        omega
  | case2 o r hfit =>
      rw [walk_of_not_fits hfit]
      simp

/-- Every header that is read lies inside the walked bytes. -/
theorem mem_heads {m : Mem} {o p : Nat} {r : Int} (h : p ∈ F.heads m o r) :
    o ≤ p ∧ ((p + F.hdr : Nat) : Int) ≤ o + r := by
  induction o, r using heads.induct (F := F) (m := m) with
  | case1 o r hr hfit ih =>
      rw [heads, if_pos hr, dif_pos hfit, List.mem_cons] at h
      rcases h with rfl | h
      · exact ⟨Nat.le_refl p, by omega⟩
      · obtain ⟨h₁, h₂⟩ := ih h
        exact ⟨by omega, by omega⟩
  | case2 o r hr hfit =>
      rw [heads, if_pos hr, dif_neg hfit, List.mem_singleton] at h
      exact ⟨by omega, by omega⟩
  | case3 o r hr =>
      rw [heads, if_neg hr] at h
      cases h

/-! ## Locality -/

theorem len_congr {m m' : Mem} {o : Nat} (h : m.Agree m' o (o + F.hdr)) :
    F.len m o = F.len m' o := by
  have hshift : (m.shift o).Agree (m'.shift o) 0 F.hdr := Mem.Agree.shift h
  exact F.field_congr hshift

theorem fits_congr {m m' : Mem} {o : Nat} {r : Int} (h : m.Agree m' o (o + r.toNat)) :
    F.Fits m o r ↔ F.Fits m' o r := by
  by_cases hr : (F.hdr : Int) ≤ r
  · have hlen : F.len m o = F.len m' o := len_congr (h.mono (Nat.le_refl o) (by omega))
    simp only [Fits, hlen]
  · simp only [Fits, hr, false_and]

/-- A walk reads only the bytes that it was given. -/
theorem walk_congr {m m' : Mem} {o : Nat} {r : Int} (h : m.Agree m' o (o + r.toNat)) :
    F.walk m o r = F.walk m' o r := by
  induction o, r using walk.induct (F := F) (m := m) with
  | case1 o r hfit ih =>
      have hfit' := (fits_congr h).mp hfit
      have hlen : F.len m o = F.len m' o :=
        len_congr (h.mono (Nat.le_refl o) (by have := hfit.1; omega))
      have hrest := ih fun i hlo hhi => h i (by omega) (by have := hfit.lt; omega)
      rw [walk_of_fits hfit, walk_of_fits hfit', hrest, hlen]
  | case2 o r hfit =>
      rw [walk_of_not_fits hfit, walk_of_not_fits (fun h' => hfit ((fits_congr h).mpr h'))]

theorem records_congr {m m' : Mem} {o : Nat} {r : Int} (h : m.Agree m' o (o + r.toNat)) :
    F.records m o r = F.records m' o r := by
  simp only [records, ← walk_congr h]
  apply List.map_congr_left
  intro p hp
  obtain ⟨h₁, h₂, h₃⟩ := mem_walk hp
  have hlen : F.len m p = F.len m' p := len_congr (h.mono (by omega) (by omega))
  rw [← hlen]
  exact Mem.slice_congr (h.mono (by omega) (by omega))

theorem len_shift (m : Mem) (d o : Nat) : F.len (m.shift d) o = F.len m (d + o) := by
  rw [len, len, Mem.shift_shift]

/-- A walk of a moved buffer visits the moved records. -/
theorem walk_shift (m : Mem) (d o : Nat) (r : Int) :
    F.walk m (d + o) r = (F.walk (m.shift d) o r).map (d + ·) := by
  induction o, r using walk.induct (F := F) (m := m.shift d) with
  | case1 o r hfit ih =>
      have hfit' : F.Fits m (d + o) r := by simpa only [Fits, len_shift] using hfit
      rw [len_shift] at ih
      rw [walk_of_fits hfit, walk_of_fits hfit', len_shift, Nat.add_assoc, ih, List.map_cons]
  | case2 o r hfit =>
      have hfit' : ¬ F.Fits m (d + o) r := by simpa only [Fits, len_shift] using hfit
      rw [walk_of_not_fits hfit, walk_of_not_fits hfit', List.map_nil]

theorem records_shift (m : Mem) (d o : Nat) (r : Int) :
    F.records (m.shift d) o r = F.records m (d + o) r := by
  simp only [records, walk_shift, List.map_map]
  apply List.map_congr_left
  intro p _
  simp only [Function.comp_apply, len_shift, Mem.slice_shift]

/-! ## Well-formed prefixes -/

variable (F)

/-- Whole records start at the offsets, one behind the other, from `o` on. -/
inductive Chain (m : Mem) : Nat → Int → List Nat → Prop where
  | nil {o : Nat} {r : Int} : Chain m o r []
  | cons {o : Nat} {r : Int} {ps : List Nat} : F.Fits m o r →
      Chain m (o + F.pad (F.len m o)) (r - F.pad (F.len m o)) ps → Chain m o r (o :: ps)

/-- Every well-formed prefix is a part of this one. -/
structure Longest (m : Mem) (o : Nat) (r : Int) (ps : List Nat) : Prop where
  chain : F.Chain m o r ps
  longest : ∀ qs, F.Chain m o r qs → qs <+: ps

variable {F}

theorem Chain.prefix_walk {m : Mem} {o : Nat} {r : Int} {ps : List Nat} (h : F.Chain m o r ps) :
    ps <+: F.walk m o r := by
  induction h with
  | nil => exact List.nil_prefix
  | cons hfit _ ih =>
      rw [walk_of_fits hfit]
      exact (List.cons_prefix_cons).mpr ⟨rfl, ih⟩

/-- A walk visits the longest well-formed prefix. -/
theorem longest_walk (m : Mem) (o : Nat) (r : Int) : F.Longest m o r (F.walk m o r) := by
  refine ⟨?_, fun _ hqs => hqs.prefix_walk⟩
  induction o, r using walk.induct (F := F) (m := m) with
  | case1 o r hfit ih =>
      rw [walk_of_fits hfit]
      exact .cons hfit ih
  | case2 o r hfit =>
      rw [walk_of_not_fits hfit]
      exact .nil

/-! ## Framing -/

variable (F)

/-- The bytes of a whole record: its header holds its length. -/
def Valid (b : List UInt8) : Prop := F.hdr ≤ b.length ∧ F.field (Mem.ofList b) = b.length

/-- `bytes` is the records `bs`, each padded, and then a tail at which no whole
record starts. The last record may lack some or all of its padding. -/
inductive Framed : List (List UInt8) → List UInt8 → Prop where
  | tail {t : List UInt8} : ¬ F.Fits (Mem.ofList t) 0 t.length → Framed [] t
  | last {b p : List UInt8} : F.Valid b → b.length + p.length < F.pad b.length → Framed [b] (b ++ p)
  | cons {b p rest : List UInt8} {bs : List (List UInt8)} : F.Valid b →
      b.length + p.length = F.pad b.length → Framed bs rest → Framed (b :: bs) (b ++ p ++ rest)

variable {F}

/-- Every record that is visited is a whole record. -/
theorem valid_of_mem_records {m : Mem} {o : Nat} {r : Int} {b : List UInt8}
    (h : b ∈ F.records m o r) : F.Valid b := by
  obtain ⟨p, hp, rfl⟩ := List.mem_map.mp h
  obtain ⟨_, h₂, _⟩ := mem_walk hp
  refine ⟨by simpa using h₂, ?_⟩
  rw [Mem.length_slice]
  exact F.field_congr ((Mem.agree_ofList_slice m p _).mono (Nat.le_refl 0) h₂)

/-- A record at the front of the bytes is read off first. -/
theorem records_append {b rest : List UInt8} (hb : F.Valid b) :
    F.records (Mem.ofList (b ++ rest)) 0 (b ++ rest).length =
      b :: F.records (Mem.ofList (b ++ rest)) (F.pad b.length)
        ((b ++ rest).length - F.pad b.length) := by
  have hagree : (Mem.ofList (b ++ rest)).Agree (Mem.ofList b) 0 b.length := by
    intro i _ hi
    simp only [Mem.ofList, List.getD, List.getElem?_append_left hi]
  have hlen : F.len (Mem.ofList (b ++ rest)) 0 = b.length := by
    rw [len, Mem.shift_zero, F.field_congr (hagree.mono (Nat.le_refl 0) hb.1), hb.2]
  have hfit : F.Fits (Mem.ofList (b ++ rest)) 0 (b ++ rest).length := by
    refine ⟨?_, ?_, ?_⟩
    · have := hb.1
      simp only [List.length_append]
      omega
    · rw [hlen]
      exact hb.1
    · rw [hlen, List.length_append]
      omega
  have hslice : (Mem.ofList (b ++ rest)).slice 0 b.length = b := by
    rw [Mem.slice_congr (by simpa using hagree), Mem.slice_ofList]
  rw [records_of_fits hfit, hlen, hslice, Nat.zero_add]

/-- After a padded record the walk goes on with the bytes behind it. -/
theorem records_append_padded {b p rest : List UInt8} (hb : F.Valid b)
    (hp : b.length + p.length = F.pad b.length) :
    F.records (Mem.ofList (b ++ p ++ rest)) 0 (b ++ p ++ rest).length =
      b :: F.records (Mem.ofList rest) 0 rest.length := by
  have hbp : (b ++ p).length = F.pad b.length := by simpa using hp
  have hlen : ((b ++ p ++ rest).length : Int) - F.pad b.length = rest.length := by
    rw [List.length_append, hbp]
    omega
  rw [List.append_assoc, records_append hb, ← List.append_assoc, hlen, ← hbp,
    ← Nat.add_zero (b ++ p).length, ← records_shift, Mem.ofList_append_shift]

/-- The walk over framed bytes reads exactly the framed records. -/
theorem Framed.records_eq {bs : List (List UInt8)} {bytes : List UInt8} (h : F.Framed bs bytes) :
    F.records (Mem.ofList bytes) 0 bytes.length = bs := by
  induction h with
  | tail hfit => exact records_of_not_fits hfit
  | @last b p hb hp =>
      rw [records_append hb, records_of_not_fits]
      intro hfit
      have hpos := F.hdr_pos
      have hle := hfit.1
      simp only [List.length_append] at hle
      omega
  | cons hb hp _ ih => rw [records_append_padded hb hp, ih]

/-- Nothing is read of bytes that end inside their first record. -/
theorem records_take {b : List UInt8} {k : Nat} (hb : F.Valid b) (hk : k < b.length) :
    F.records (Mem.ofList (b.take k)) 0 (b.take k).length = [] := by
  have hlen : (b.take k).length = k := by rw [List.length_take, Nat.min_eq_left hk.le]
  apply records_of_not_fits
  rintro ⟨hhdr, _, hle⟩
  rw [hlen] at hhdr hle
  have hagree : (Mem.ofList (b.take k)).Agree (Mem.ofList b) 0 F.hdr := by
    intro i _ hi
    simp only [Mem.ofList, List.getD, List.getElem?_take_of_lt (show i < k by omega)]
  rw [len, Mem.shift_zero, F.field_congr hagree, hb.2] at hle
  omega

/-- The record that the walk reads first. -/
theorem valid_take {bytes : List UInt8} (hfit : F.Fits (Mem.ofList bytes) 0 bytes.length) :
    F.Valid (bytes.take (F.len (Mem.ofList bytes) 0)) := by
  have hle : F.len (Mem.ofList bytes) 0 ≤ bytes.length := Int.ofNat_le.mp hfit.2.2
  rw [← Mem.slice_ofList_take hle]
  apply valid_of_mem_records
  rw [records_of_fits hfit]
  exact List.mem_cons_self

/-- Framed bytes are framed by the records that the walk reads. -/
theorem Framed.framed_records {bs : List (List UInt8)} {bytes : List UInt8} (h : F.Framed bs bytes) :
    F.Framed (F.records (Mem.ofList bytes) 0 bytes.length) bytes := by
  rwa [h.records_eq]

/-- The bytes of the first record, its padding and the rest. -/
theorem append_take_drop_pad (bytes : List UInt8) (k : Nat) :
    bytes.take k ++ (bytes.drop k).take (F.pad k - k) ++ bytes.drop (F.pad k) = bytes := by
  have hdrop : bytes.drop (F.pad k) = (bytes.drop k).drop (F.pad k - k) := by
    rw [List.drop_drop, Nat.add_sub_cancel' (F.le_pad k)]
  rw [List.append_assoc, hdrop, List.take_append_drop, List.take_append_drop]

/-- Any bytes are framed, by the records that the walk reads. -/
theorem framed_records (bytes : List UInt8) :
    F.Framed (F.records (Mem.ofList bytes) 0 bytes.length) bytes := by
  induction hn : bytes.length using Nat.strong_induction_on generalizing bytes with
  | h n ih =>
      subst hn
      by_cases hfit : F.Fits (Mem.ofList bytes) 0 bytes.length
      · have hb := valid_take hfit
        obtain ⟨_, h₂, h₃⟩ := hfit
        generalize F.len (Mem.ofList bytes) 0 = k at hb h₂ h₃
        have hlen : (bytes.take k).length = k := by
          rw [List.length_take, Nat.min_eq_left (Int.ofNat_le.mp h₃)]
        by_cases hpad : bytes.length < F.pad k
        · have hlast : F.Framed [bytes.take k] (bytes.take k ++ bytes.drop k) := by
            apply Framed.last hb
            rw [hlen, List.length_drop]
            omega
          rw [List.take_append_drop] at hlast
          exact hlast.framed_records
        · have hle := F.le_pad k
          have hpos := F.hdr_pos
          have hrest := ih (bytes.drop (F.pad k)).length (by rw [List.length_drop]; omega) _ rfl
          have hmid : (bytes.take k).length + ((bytes.drop k).take (F.pad k - k)).length =
              F.pad (bytes.take k).length := by
            rw [hlen, List.length_take, List.length_drop]
            omega
          have hcons := Framed.cons hb hmid hrest
          rw [append_take_drop_pad] at hcons
          exact hcons.framed_records
      · rw [records_of_not_fits hfit]
        exact Framed.tail hfit

/-- The records one after the other, each with the zeros that pad it. -/
def serialise (F : Framing) (bs : List (List UInt8)) : List UInt8 :=
  bs.flatMap fun b => b ++ List.replicate (F.pad b.length - b.length) 0

theorem framed_serialise {bs : List (List UInt8)} (h : ∀ b ∈ bs, F.Valid b) :
    F.Framed bs (F.serialise bs) := by
  induction bs with
  | nil =>
      refine .tail fun hfit => ?_
      have hpos := F.hdr_pos
      have hle := hfit.1
      rw [serialise, List.flatMap_nil, List.length_nil] at hle
      omega
  | cons b bs ih =>
      obtain ⟨hb, hbs⟩ := List.forall_mem_cons.mp h
      refine .cons hb ?_ (ih hbs)
      rw [List.length_replicate, Nat.add_sub_cancel' (F.le_pad _)]

theorem framed_iff {bs : List (List UInt8)} {bytes : List UInt8} :
    F.Framed bs bytes ↔ F.records (Mem.ofList bytes) 0 bytes.length = bs :=
  ⟨Framed.records_eq, fun h => h ▸ framed_records bytes⟩

end Framing

end Records
