-- SUMMARY: Scatter/gather lists over a byte memory, and contents given by a log of writes.
import LinuxShare.Lib.Bytes
import LinuxShare.Lib.Lists
import Mathlib.Algebra.GroupWithZero.Nat
import Mathlib.Data.List.GetD

/-!
# Scatter/gather lists

A list of extents stands for the bytes of its ranges, one range after the other. It is
read by concatenating the ranges and written by cutting the data up along them, in
order: where ranges overlap the last one wins. `addrAt` says where the byte at each
position stands, and the list is `Contiguous` when that is one range again.
-/

namespace Bytes

open Lists

/-- The bytes `[addr, addr + len)` of a memory. -/
structure Extent where
  addr : Nat
  len : Nat
  deriving DecidableEq

namespace Extent

def Covers (e : Extent) (i : Nat) : Prop := e.addr ≤ i ∧ i < e.addr + e.len

instance (e : Extent) (i : Nat) : Decidable (e.Covers i) := inferInstanceAs (Decidable (_ ∧ _))

def total (es : List Extent) : Nat := (es.map len).sum

/-- Where the byte at position `p` of the extents stands. -/
def addrAt : List Extent → Nat → Nat
  | [], _ => 0
  | e :: es, p => if p < e.len then e.addr + p else addrAt es (p - e.len)

/-- The extents that are not empty follow each other without a gap, from `a` on. -/
def Contiguous : Nat → List Extent → Prop
  | _, [] => True
  | a, e :: es => (e.len = 0 ∨ e.addr = a) ∧ Contiguous (a + e.len) es

instance decidableContiguous : (a : Nat) → (es : List Extent) → Decidable (Contiguous a es)
  | _, [] => inferInstanceAs (Decidable True)
  | a, e :: es =>
    have := decidableContiguous (a + e.len) es
    inferInstanceAs (Decidable (_ ∧ _))

@[simp] theorem total_nil : total [] = 0 := rfl

@[simp] theorem total_cons (e : Extent) (es : List Extent) : total (e :: es) = e.len + total es := by
  simp [total]

theorem total_append (es es' : List Extent) : total (es ++ es') = total es + total es' := by
  simp [total]

end Extent

open Extent

namespace Mem

def gather (m : Mem) (es : List Extent) : List UInt8 := es.flatMap fun e => m.slice e.addr e.len

def scatter : Mem → List Extent → List UInt8 → Mem
  | m, [], _ => m
  | m, e :: es, bs => scatter (m.write e.addr (bs.take e.len)) es (bs.drop e.len)

variable {m m' : Mem} {a i : Nat} {e : Extent} {es es' : List Extent} {bs bs' : List UInt8}

@[simp] theorem gather_nil (m : Mem) : m.gather [] = [] := rfl

@[simp] theorem gather_cons (m : Mem) (e : Extent) (es : List Extent) :
    m.gather (e :: es) = m.slice e.addr e.len ++ m.gather es := rfl

@[simp] theorem scatter_nil (m : Mem) (bs : List UInt8) : m.scatter [] bs = m := rfl

theorem scatter_cons (m : Mem) (e : Extent) (es : List Extent) (bs : List UInt8) :
    m.scatter (e :: es) bs = (m.write e.addr (bs.take e.len)).scatter es (bs.drop e.len) := rfl

@[simp] theorem length_gather (m : Mem) (es : List Extent) : (m.gather es).length = total es := by
  induction es with
  | nil => rfl
  | cons e es ih => simp [ih]

theorem gather_append (m : Mem) (es es' : List Extent) :
    m.gather (es ++ es') = m.gather es ++ m.gather es' := by
  simp [gather]

/-- The data for two lists one after the other. -/
theorem scatter_append (h : bs.length = total es) :
    m.scatter (es ++ es') (bs ++ bs') = (m.scatter es bs).scatter es' bs' := by
  induction es generalizing m bs with
  | nil =>
      obtain rfl := List.eq_nil_of_length_eq_zero h
      rfl
  | cons e es ih =>
      have hle : e.len ≤ bs.length := by rw [h, total_cons]; exact Nat.le_add_right _ _
      have hrest : (bs.drop e.len).length = total es := by rw [List.length_drop, h, total_cons]; omega
      rw [List.cons_append, scatter_cons, scatter_cons, List.take_append_of_le_length hle,
        List.drop_append_of_le_length hle, ih hrest]

/-- Scattering only changes bytes that an extent covers. -/
theorem scatter_apply_of_not_covers (h : ∀ e ∈ es, ¬ e.Covers i) : m.scatter es bs i = m i := by
  induction es generalizing m bs with
  | nil => rfl
  | cons e es ih =>
      rw [scatter_cons, ih fun e' he' => h e' (List.mem_cons_of_mem e he')]
      have hlen : (bs.take e.len).length ≤ e.len := List.length_take_le _ _
      have hout := h e List.mem_cons_self
      unfold Covers at hout
      by_cases hlo : i < e.addr
      · exact write_of_lt hlo
      · exact write_of_ge (by omega)

theorem getD_gather {p : Nat} (h : p < total es) :
    (m.gather es).getD p 0 = m (addrAt es p) := by
  induction es generalizing p with
  | nil => exact absurd h (Nat.not_lt_zero p)
  | cons e es ih =>
      unfold addrAt
      by_cases hp : p < e.len
      · rw [if_pos hp, gather_cons, List.getD_append _ _ _ _ (by simpa using hp), getD_slice hp]
      · have hle : (m.slice e.addr e.len).length ≤ p := by simpa using hp
        rw [if_neg hp, gather_cons, List.getD_append_right _ _ _ _ hle, length_slice,
          ih (by rw [total_cons] at h; omega)]

/-- A byte under some extent ends up with the data at one position, that of the last
extent over it, whatever the data are. -/
theorem exists_scatter_apply (h : ∃ e ∈ es, e.Covers i) :
    ∃ p, p < total es ∧ addrAt es p = i ∧
      ∀ (m : Mem) (bs : List UInt8), bs.length = total es → m.scatter es bs i = bs.getD p 0 := by
  induction es with
  | nil =>
      obtain ⟨_, he, _⟩ := h
      cases he
  | cons e es ih =>
      have hdrop : ∀ bs : List UInt8, bs.length = total (e :: es) →
          (bs.drop e.len).length = total es := by
        intro bs hbs
        rw [List.length_drop, hbs, total_cons]
        omega
      by_cases hlater : ∃ e' ∈ es, e'.Covers i
      · obtain ⟨p, hp, haddr, hval⟩ := ih hlater
        have hnot : ¬ e.len + p < e.len := by omega
        refine ⟨e.len + p, by rw [total_cons]; omega, ?_, fun m bs hbs => ?_⟩
        · rw [addrAt, if_neg hnot, Nat.add_sub_cancel_left, haddr]
        · rw [scatter_cons, hval _ _ (hdrop bs hbs)]
          simp [List.getD]
      · obtain ⟨e', he', hcov⟩ := h
        have heq : e' = e := (List.mem_cons.mp he').resolve_right fun hin => hlater ⟨e', hin, hcov⟩
        subst heq
        obtain ⟨hlo, hhi⟩ := hcov
        have hlt : i - e'.addr < e'.len := by omega
        refine ⟨i - e'.addr, by rw [total_cons]; omega, ?_, fun m bs hbs => ?_⟩
        · rw [addrAt, if_pos hlt]
          omega
        · have hlen : (bs.take e'.len).length = e'.len := by
            rw [List.length_take, hbs, total_cons]
            omega
          rw [scatter_cons, scatter_apply_of_not_covers fun e₁ he₁ hc => hlater ⟨e₁, he₁, hc⟩,
            write_of_mem hlo (by omega)]
          simp [List.getD, hlt]

/-! ## Contiguous extents -/

theorem gather_of_contiguous (h : Contiguous a es) : m.gather es = m.slice a (total es) := by
  induction es generalizing a with
  | nil => rfl
  | cons e es ih =>
      rw [gather_cons, total_cons, slice_add, ih h.2]
      rcases h.1 with hlen | rfl
      · simp [hlen]
      · rfl

theorem scatter_of_contiguous (h : Contiguous a es) (hbs : bs.length = total es) :
    m.scatter es bs = m.write a bs := by
  induction es generalizing a m bs with
  | nil =>
      obtain rfl := List.eq_nil_of_length_eq_zero hbs
      simp
  | cons e es ih =>
      rw [total_cons] at hbs
      have htake : (bs.take e.len).length = e.len := by rw [List.length_take]; omega
      have hrest : (bs.drop e.len).length = total es := by rw [List.length_drop]; omega
      have hsplit := write_append m a (bs.take e.len) (bs.drop e.len)
      rw [List.take_append_drop, htake] at hsplit
      rw [scatter_cons, ih h.2 hrest, hsplit]
      rcases h.1 with hlen | rfl
      · simp [hlen]
      · rfl

end Mem

theorem Extent.contiguous_iff {a : Nat} {es : List Extent} :
    Contiguous a es ↔ ∀ p, p < total es → addrAt es p = a + p := by
  induction es generalizing a with
  | nil => exact iff_of_true trivial fun p hp => absurd hp (Nat.not_lt_zero p)
  | cons e es ih =>
      rw [Contiguous, ih]
      constructor
      · rintro ⟨hhead, hrest⟩ p hp
        unfold addrAt
        by_cases hlt : p < e.len
        · rw [if_pos hlt, hhead.resolve_left (by omega)]
        · rw [if_neg hlt, hrest (p - e.len) (by rw [total_cons] at hp; omega)]
          omega
      · intro hall
        refine ⟨?_, fun p hp => ?_⟩
        · by_cases hlen : e.len = 0
          · exact .inl hlen
          · have hzero := hall 0 (by rw [total_cons]; omega)
            rw [addrAt, if_pos (by omega)] at hzero
            exact .inr hzero
        · have hp' := hall (e.len + p) (by rw [total_cons]; omega)
          rw [addrAt, if_neg (by omega), Nat.add_sub_cancel_left] at hp'
          omega

/-- An address under some extent is where one of the positions stands. -/
theorem Extent.covers_addrAt {es : List Extent} {p : Nat} (h : p < total es) :
    ∃ e ∈ es, e.Covers (addrAt es p) := by
  induction es generalizing p with
  | nil => exact absurd h (Nat.not_lt_zero p)
  | cons e es ih =>
      unfold addrAt
      by_cases hlt : p < e.len
      · refine ⟨e, List.mem_cons_self, ?_⟩
        rw [if_pos hlt]
        exact ⟨Nat.le_add_right _ _, by omega⟩
      · obtain ⟨e', he', hcov⟩ := ih (p := p - e.len) (by rw [total_cons] at h; omega)
        rw [if_neg hlt]
        exact ⟨e', List.mem_cons_of_mem e he', hcov⟩

/-! ## Contents given by a log of writes -/

/-- `data` was written at offset `off`. -/
structure Write where
  off : Nat
  data : List UInt8

/-- What was written last at each offset, and zero where nothing was written. -/
def latest (ws : List Write) : Mem := fun i =>
  match lastSuch (fun w : Write => w.off ≤ i ∧ i < w.off + w.data.length) ws with
  | some w => w.data.getD (i - w.off) 0
  | none => 0

theorem latest_snoc (ws : List Write) (w : Write) :
    latest (ws ++ [w]) = (latest ws).write w.off w.data := by
  funext i
  unfold latest
  rw [lastSuch_append_singleton]
  by_cases h : w.off ≤ i ∧ i < w.off + w.data.length
  · simp [Mem.write, h]
  · rw [if_neg (by simpa using h), Mem.write, if_neg h]

end Bytes
