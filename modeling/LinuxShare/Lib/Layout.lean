-- SUMMARY: Structures in a byte memory, and the copying of data to their fields.
import LinuxShare.Lib.Scatter

/-!
# Layouts

A structure is given by its fields, and where it stands in memory by the address of
its first byte. `fill` copies to one field after the other as many bytes as there are
data, as `memcpy` does, so data that are longer than their field go on in the bytes
behind it. Where the data fit and no two fields overlap, each field holds its own
data in the end.
-/

namespace Bytes

/-! ## Data with zeros behind them -/

theorem rightpad_of_length {bs : List UInt8} {n : Nat} (h : bs.length = n) : bs.rightpad n 0 = bs := by
  simp [List.rightpad, h]

/-- A string ends where the zeros begin. -/
theorem cstr_rightpad (bs : List UInt8) (n : Nat) : cstr (bs.rightpad n 0) = cstr bs := by
  have hzeros : ∀ k, (List.replicate k (0 : UInt8)).takeWhile (· ≠ 0) = [] := by
    intro k
    cases k <;> simp [List.replicate_succ]
  rw [cstr, List.rightpad, List.takeWhile_append, hzeros, List.append_nil, cstr]
  split
  · next h => exact ((List.takeWhile_prefix _).eq_of_length h).symm
  · rfl

theorem slice_ofList_rightpad {bs : List UInt8} {n : Nat} (h : bs.length ≤ n) :
    (Mem.ofList bs).slice 0 n = bs.rightpad n 0 := by
  apply List.ext_getElem
  · rw [Mem.length_slice, List.length_rightpad]
    exact (Nat.max_eq_left h).symm
  · intro i hi hi'
    rw [Mem.getElem_slice, Nat.zero_add, Mem.ofList]
    by_cases hlt : i < bs.length
    · simp [List.rightpad, hlt]
    · simp [List.rightpad, hlt, List.getElem_append_right (Nat.le_of_not_lt hlt)]

/-! ## Fields -/

/-- The extents have no byte in common. -/
def Extent.Apart (e e' : Extent) : Prop := e.addr + e.len ≤ e'.addr ∨ e'.addr + e'.len ≤ e.addr

instance (e e' : Extent) : Decidable (e.Apart e') := inferInstanceAs (Decidable (_ ∨ _))

/-- A field of the structure at `base`, by its extent in the structure. -/
def Mem.field (m : Mem) (base : Nat) (f : Extent) : List UInt8 := m.slice (base + f.addr) f.len

/-- The field of each key, if it has one, by its offset in the structure. -/
abbrev Layout (κ : Type*) := κ → Option Extent

namespace Layout

variable {κ : Type*} (L : Layout κ)

/-- The fields of different keys do not overlap. -/
def Separate (ks : List κ) : Prop := ks.Pairwise fun k k' => ∀ f ∈ L k, ∀ f' ∈ L k', f.Apart f'

/-- No key has more data than its field has bytes. -/
def Fits (data : κ → List UInt8) (ks : List κ) : Prop :=
  ∀ k ∈ ks, ∀ f ∈ L k, (data k).length ≤ f.len

/-- Each field of the structure at `base` holds its data, and zeros behind them. -/
def Holds (base : Nat) (data : κ → List UInt8) (m : Mem) (ks : List κ) : Prop :=
  ∀ k ∈ ks, ∀ f ∈ L k, m.field base f = (data k).rightpad f.len 0

/-- The data of one key, copied to its field in the structure at `base`. -/
def copy (base : Nat) (data : κ → List UInt8) (m : Mem) (k : κ) : Mem :=
  match L k with
  | none => m
  | some f => m.write (base + f.addr) (data k)

/-- The data of the keys, one after the other. -/
def fill (base : Nat) (data : κ → List UInt8) (m : Mem) (ks : List κ) : Mem :=
  ks.foldl (L.copy base data) m

/-- The structure of `size` bytes at `base`, set to zero and then filled. -/
def build (base size : Nat) (data : κ → List UInt8) (m : Mem) (ks : List κ) : Mem :=
  L.fill base data (m.write base (List.replicate size 0)) ks

variable {L} {base size lo hi : Nat} {data : κ → List UInt8} {m : Mem} {k : κ} {ks : List κ}
  {f : Extent}

instance decidableSeparate : Decidable (L.Separate ks) := List.instDecidablePairwise ks

theorem fill_cons : L.fill base data m (k :: ks) = L.fill base data (L.copy base data m k) ks := rfl

theorem agree_copy
    (h : ∀ f ∈ L k, hi ≤ base + f.addr ∨ base + f.addr + (data k).length ≤ lo) :
    (L.copy base data m k).Agree m lo hi := by
  unfold copy
  cases hf : L k with
  | none => exact fun _ _ _ => rfl
  | some f => exact Mem.agree_write (h f hf)

/-- Bytes that no copy reaches stay as they are. -/
theorem agree_fill
    (h : ∀ k ∈ ks, ∀ f ∈ L k, hi ≤ base + f.addr ∨ base + f.addr + (data k).length ≤ lo) :
    (L.fill base data m ks).Agree m lo hi := by
  induction ks generalizing m with
  | nil => exact fun _ _ _ => rfl
  | cons k ks ih =>
      have hrest := ih (m := L.copy base data m k) fun k' hk' => h k' (List.mem_cons_of_mem k hk')
      intro i hlo hhi
      rw [fill_cons, hrest i hlo hhi]
      exact agree_copy (h k List.mem_cons_self) i hlo hhi

/-- What a copy leaves of a field that it does not fill. -/
theorem field_copy (hf : L k = some f) (hlen : (data k).length ≤ f.len) :
    (L.copy base data m k).field base f =
      data k ++ m.slice (base + f.addr + (data k).length) (f.len - (data k).length) := by
  have hwrite := Mem.slice_write m (base + f.addr) 0 (f.len - (data k).length) (data k)
  rw [Nat.zero_add, Nat.add_sub_cancel' hlen, Nat.add_zero, Mem.slice_zero, List.nil_append]
    at hwrite
  simpa only [Mem.field, copy, hf] using hwrite

/-- Data that fit stay in their field, behind them what stood there before. -/
theorem field_fill (hsep : L.Separate ks) (hfit : L.Fits data ks) (hk : k ∈ ks) (hf : L k = some f) :
    (L.fill base data m ks).field base f =
      data k ++ m.slice (base + f.addr + (data k).length) (f.len - (data k).length) := by
  induction ks generalizing m with
  | nil => cases hk
  | cons k₀ ks ih =>
      obtain ⟨hfirst, hrest⟩ := List.pairwise_cons.mp hsep
      have hfit' : L.Fits data ks := fun k' hk' => hfit k' (List.mem_cons_of_mem k₀ hk')
      rw [fill_cons]
      rcases List.mem_cons.mp hk with rfl | hmem
      · have hlater : (L.fill base data (L.copy base data m k) ks).Agree (L.copy base data m k)
            (base + f.addr) (base + f.addr + f.len) := by
          apply agree_fill
          intro k' hk' f' hf'
          have hle := hfit' k' hk' f' hf'
          have hapart : f.addr + f.len ≤ f'.addr ∨ f'.addr + f'.len ≤ f.addr :=
            hfirst k' hk' f hf f' hf'
          omega
        rw [Mem.field, Mem.slice_congr hlater, ← Mem.field,
          field_copy hf (hfit k List.mem_cons_self f hf)]
      · have hearlier : (L.copy base data m k₀).Agree m (base + f.addr) (base + f.addr + f.len) := by
          apply agree_copy
          intro f₀ hf₀
          have hle := hfit k₀ List.mem_cons_self f₀ hf₀
          have hapart : f₀.addr + f₀.len ≤ f.addr ∨ f.addr + f.len ≤ f₀.addr :=
            hfirst k hmem f₀ hf₀ f hf
          omega
        have hle := hfit' k hmem f hf
        rw [ih hrest hfit' hmem, Mem.slice_congr (hearlier.mono (Nat.le_add_right _ _) (by omega))]

/-- The last copy that reaches a byte decides what it is, whether or not it belongs there. -/
theorem fill_apply_of_last (pre : List κ) {post : List κ} {i : Nat} (hf : L k = some f)
    (hi : i < (data k).length)
    (hpost : ∀ k' ∈ post, ∀ f' ∈ L k',
      f.addr + i < f'.addr ∨ f'.addr + (data k').length ≤ f.addr + i) :
    L.fill base data m (pre ++ k :: post) (base + f.addr + i) = (data k).getD i 0 := by
  have hlater : ∀ m₁ : Mem, (L.fill base data m₁ post).Agree m₁ (base + f.addr + i)
      (base + f.addr + i + 1) := by
    intro m₁
    apply agree_fill
    intro k' hk' f' hf'
    have hout := hpost k' hk' f' hf'
    omega
  rw [fill, List.foldl_append, List.foldl_cons, ← fill, ← fill,
    hlater _ _ (Nat.le_refl _) (Nat.lt_succ_self _), copy, hf]
  dsimp only
  rw [Mem.write_of_mem (Nat.le_add_right _ _) (Nat.add_lt_add_left hi _), Nat.add_sub_cancel_left]

theorem slice_zeroed {o n : Nat} (hlo : base ≤ o) (hhi : o + n ≤ base + size) :
    (m.write base (List.replicate size 0)).slice o n = List.replicate n 0 := by
  apply List.ext_getElem
  · simp
  · intro i hi hi'
    have hlt : i < n := by simpa using hi'
    rw [Mem.getElem_slice, Mem.write_of_mem (by omega) (by rw [List.length_replicate]; omega)]
    simp

/-- The fields hold their data in the end if and only if no data are too long. -/
theorem holds_build_iff (hsep : L.Separate ks) (hsize : ∀ k ∈ ks, ∀ f ∈ L k, f.addr + f.len ≤ size) :
    L.Holds base data (L.build base size data m ks) ks ↔ L.Fits data ks := by
  constructor
  · intro h k hk f hf
    have hlen := congrArg List.length (h k hk f hf)
    rw [Mem.field, Mem.length_slice, List.length_rightpad] at hlen
    exact hlen ▸ Nat.le_max_right _ _
  · intro h k hk f hf
    have hle := h k hk f hf
    have hend := hsize k hk f hf
    rw [build, field_fill hsep h hk hf, slice_zeroed (by omega) (by omega), List.rightpad]

/-- Nothing outside the structure changes when no copy goes past its end. -/
theorem agree_build (h : ∀ k ∈ ks, ∀ f ∈ L k, f.addr + (data k).length ≤ size)
    (hout : hi ≤ base ∨ base + size ≤ lo) : (L.build base size data m ks).Agree m lo hi := by
  have hfill : (L.build base size data m ks).Agree (m.write base (List.replicate size 0)) lo hi := by
    apply agree_fill
    intro k hk f hf
    have hle := h k hk f hf
    omega
  intro i hlo hhi
  rw [hfill i hlo hhi]
  exact Mem.agree_write (by rwa [List.length_replicate]) i hlo hhi

end Layout

end Bytes
