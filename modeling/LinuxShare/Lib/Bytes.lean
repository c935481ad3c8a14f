-- SUMMARY: Byte-addressed memories: slices, block copies, little-endian fields and zero-terminated strings.
import Mathlib.Algebra.Group.Nat.Defs
import Mathlib.Data.List.TakeWhile
import Mathlib.Tactic.Common

/-!
# Byte memories

A memory is a total map from offsets to bytes. Objects and buffers of a fixed
size are memories together with a bound that the operations on them check; the
facts here are about the bytes alone.
-/

namespace Bytes

abbrev Mem := Nat → UInt8

namespace Mem

/-- The memory that holds `bs` from offset 0 and zeros after it. -/
def ofList (bs : List UInt8) : Mem := fun i => bs.getD i 0

/-- The memory as seen from a pointer to offset `o`. -/
def shift (m : Mem) (o : Nat) : Mem := fun i => m (o + i)

/-- The `n` bytes from offset `o`. -/
def slice (m : Mem) (o : Nat) : Nat → List UInt8
  | 0 => []
  | n + 1 => m o :: slice m (o + 1) n

/-- Copy `bs` to offset `o`. -/
def write (m : Mem) (o : Nat) (bs : List UInt8) : Mem :=
  fun i => if o ≤ i ∧ i < o + bs.length then bs.getD (i - o) 0 else m i

/-- The little-endian 16-bit value at `o`. -/
def le16 (m : Mem) (o : Nat) : Nat := (m o).toNat + 256 * (m (o + 1)).toNat

/-- The little-endian 32-bit value at `o`. -/
def le32 (m : Mem) (o : Nat) : Nat := le16 m o + 65536 * le16 m (o + 2)

/-- The two memories hold the same bytes in `[lo, hi)`. -/
def Agree (m m' : Mem) (lo hi : Nat) : Prop := ∀ i, lo ≤ i → i < hi → m i = m' i

theorem Agree.mono {m m' : Mem} {lo hi lo' hi' : Nat} (h : Agree m m' lo hi)
    (hlo : lo ≤ lo') (hhi : hi' ≤ hi) : Agree m m' lo' hi' :=
  fun i hi hi' => h i (by omega) (by omega)

theorem Agree.shift {m m' : Mem} {o lo hi : Nat} (h : Agree m m' (o + lo) (o + hi)) :
    Agree (m.shift o) (m'.shift o) lo hi :=
  fun i hlo hhi => h (o + i) (by omega) (by omega)

@[simp] theorem shift_apply (m : Mem) (o i : Nat) : m.shift o i = m (o + i) := rfl

@[simp] theorem shift_zero (m : Mem) : m.shift 0 = m := by
  funext i
  simp [shift]

theorem shift_shift (m : Mem) (o o' : Nat) : (m.shift o).shift o' = m.shift (o + o') := by
  funext i
  simp [shift, Nat.add_assoc]

/-! ## Slices -/

@[simp] theorem slice_zero (m : Mem) (o : Nat) : m.slice o 0 = [] := rfl

theorem slice_succ (m : Mem) (o n : Nat) : m.slice o (n + 1) = m o :: m.slice (o + 1) n := rfl

@[simp] theorem length_slice (m : Mem) (o n : Nat) : (m.slice o n).length = n := by
  induction n generalizing o with
  | zero => rfl
  | succ n ih => simp [slice_succ, ih]

@[simp] theorem getElem_slice (m : Mem) (o n i : Nat) (h : i < (m.slice o n).length) :
    (m.slice o n)[i] = m (o + i) := by
  induction n generalizing o i with
  | zero => simp at h
  | succ n ih =>
      cases i with
      | zero => simp [slice_succ]
      | succ i =>
          have hadd : o + 1 + i = o + (i + 1) := by omega
          simp [slice_succ, ih, hadd]

theorem getD_slice {m : Mem} {o n i : Nat} (h : i < n) : (m.slice o n).getD i 0 = m (o + i) := by
  simp [List.getD, h]

theorem mem_slice {m : Mem} {o n : Nat} {b : UInt8} :
    b ∈ m.slice o n ↔ ∃ i, o ≤ i ∧ i < o + n ∧ m i = b := by
  induction n generalizing o with
  | zero =>
      simp only [slice_zero, List.not_mem_nil, false_iff, not_exists]
      omega
  | succ n ih =>
      rw [slice_succ, List.mem_cons, ih]
      constructor
      · rintro (rfl | ⟨i, hlo, hhi, hi⟩)
        · exact ⟨o, Nat.le_refl o, by omega, rfl⟩
        · exact ⟨i, by omega, by omega, hi⟩
      · rintro ⟨i, hlo, hhi, hi⟩
        rcases Nat.eq_or_lt_of_le hlo with rfl | hlt
        · exact .inl hi.symm
        · exact .inr ⟨i, hlt, by omega, hi⟩

theorem slice_congr {m m' : Mem} {o n : Nat} (h : Agree m m' o (o + n)) :
    m.slice o n = m'.slice o n := by
  induction n generalizing o with
  | zero => rfl
  | succ n ih =>
      rw [slice_succ, slice_succ, h o (by omega) (by omega)]
      rw [ih (h.mono (by omega) (by omega))]

/-- Equal slices are equal bytes. -/
theorem agree_of_slice_eq {m m' : Mem} {o n : Nat} (h : m.slice o n = m'.slice o n) :
    Agree m m' o (o + n) := by
  intro i hlo hhi
  have hi := congrArg (fun l => l.getD (i - o) 0) h
  have hadd : o + (i - o) = i := by omega
  simpa only [getD_slice (show i - o < n by omega), hadd] using hi

theorem slice_shift (m : Mem) (o o' n : Nat) : (m.shift o).slice o' n = m.slice (o + o') n := by
  induction n generalizing o' with
  | zero => rfl
  | succ n ih => simp [slice_succ, ih, Nat.add_assoc]

theorem drop_slice (m : Mem) (o n k : Nat) : (m.slice o n).drop k = m.slice (o + k) (n - k) := by
  induction k generalizing o n with
  | zero => simp
  | succ k ih =>
      cases n with
      | zero => simp
      | succ n =>
          have hadd : o + 1 + k = o + (k + 1) := by omega
          simp [slice_succ, ih, hadd]

theorem slice_add (m : Mem) (o n k : Nat) : m.slice o (n + k) = m.slice o n ++ m.slice (o + n) k := by
  induction n generalizing o with
  | zero => simp
  | succ n ih =>
      have hsucc : n + 1 + k = n + k + 1 := by omega
      have hadd : o + 1 + n = o + (n + 1) := by omega
      rw [hsucc, slice_succ, slice_succ, ih, hadd, List.cons_append]

theorem take_slice (m : Mem) (o : Nat) {n k : Nat} (h : k ≤ n) :
    (m.slice o n).take k = m.slice o k := by
  obtain ⟨d, rfl⟩ := Nat.exists_eq_add_of_le h
  rw [slice_add, List.take_append_of_le_length (by simp)]
  exact List.take_of_length_le (by simp)

theorem slice_ofList_take {bs : List UInt8} {n : Nat} (h : n ≤ bs.length) :
    (ofList bs).slice 0 n = bs.take n := by
  apply List.ext_getElem
  · simp [h]
  · intro i hi _
    have hin : i < bs.length := (Nat.lt_of_lt_of_eq hi (length_slice _ 0 n)).trans_le h
    simp [ofList, hin]

theorem slice_ofList (bs : List UInt8) : (ofList bs).slice 0 bs.length = bs :=
  (slice_ofList_take (Nat.le_refl _)).trans List.take_length

/-- A slice read back as a memory agrees with the memory it came from. -/
theorem agree_ofList_slice (m : Mem) (o n : Nat) :
    Agree (ofList (m.slice o n)) (m.shift o) 0 n := by
  intro i _ hi
  simp only [ofList, shift_apply]
  exact getD_slice hi

/-! ## Little-endian fields -/

theorem le16_lt (m : Mem) (o : Nat) : m.le16 o < 2 ^ 16 := by
  have h₀ := (m o).toNat_lt
  have h₁ := (m (o + 1)).toNat_lt
  simp only [le16]
  omega

theorem le16_congr {m m' : Mem} {o : Nat} (h : Agree m m' o (o + 2)) : m.le16 o = m'.le16 o := by
  simp only [le16, h o (by omega) (by omega), h (o + 1) (by omega) (by omega)]

theorem le32_congr {m m' : Mem} {o : Nat} (h : Agree m m' o (o + 4)) : m.le32 o = m'.le32 o := by
  simp only [le32, le16_congr (h.mono (Nat.le_refl o) (by omega : o + 2 ≤ o + 4)),
    le16_congr (h.mono (by omega : o ≤ o + 2) (by omega : o + 2 + 2 ≤ o + 4))]

@[simp] theorem le16_shift (m : Mem) (o o' : Nat) : (m.shift o).le16 o' = m.le16 (o + o') := by
  simp [le16, Nat.add_assoc]

@[simp] theorem le32_shift (m : Mem) (o o' : Nat) : (m.shift o).le32 o' = m.le32 (o + o') := by
  simp [le32, Nat.add_assoc]

/-- The two bytes of a 16-bit value, least significant first. -/
def bytes16 (n : Nat) : List UInt8 := [UInt8.ofNat n, UInt8.ofNat (n / 256)]

@[simp] theorem length_bytes16 (n : Nat) : (bytes16 n).length = 2 := rfl

/-- A 16-bit value that bytes begin with is read back. -/
theorem le16_ofList_bytes16 {n : Nat} (h : n < 2 ^ 16) (bs : List UInt8) :
    (ofList (bytes16 n ++ bs)).le16 0 = n := by
  simp only [le16, ofList, bytes16, List.getD, List.cons_append, Nat.reduceAdd,
    List.getElem?_cons_zero, List.getElem?_cons_succ, Option.getD_some, UInt8.toNat_ofNat']
  omega

/-- What stands behind other bytes. -/
theorem ofList_append_shift (xs ys : List UInt8) : (ofList (xs ++ ys)).shift xs.length = ofList ys := by
  funext i
  simp only [ofList, shift_apply, List.getD]
  rw [List.getElem?_append_right (by omega), Nat.add_sub_cancel_left]

/-- The four bytes of a 32-bit value, least significant first. -/
def bytes32 (n : Nat) : List UInt8 :=
  [UInt8.ofNat n, UInt8.ofNat (n / 256), UInt8.ofNat (n / 65536), UInt8.ofNat (n / 16777216)]

@[simp] theorem length_bytes32 (n : Nat) : (bytes32 n).length = 4 := rfl

/-- A 32-bit value that bytes begin with is read back. -/
theorem le32_ofList_bytes32 {n : Nat} (h : n < 2 ^ 32) (bs : List UInt8) :
    (ofList (bytes32 n ++ bs)).le32 0 = n := by
  simp only [le32, le16, ofList, bytes32, List.getD, List.cons_append, Nat.reduceAdd,
    List.getElem?_cons_zero, List.getElem?_cons_succ, Option.getD_some, UInt8.toNat_ofNat']
  omega

/-! ## Block copies -/

theorem write_of_lt {m : Mem} {o i : Nat} {bs : List UInt8} (h : i < o) :
    m.write o bs i = m i := by
  simp [write, show ¬ o ≤ i by omega]

theorem write_of_ge {m : Mem} {o i : Nat} {bs : List UInt8} (h : o + bs.length ≤ i) :
    m.write o bs i = m i := by
  simp [write, show ¬ i < o + bs.length by omega]

theorem write_of_mem {m : Mem} {o i : Nat} {bs : List UInt8} (hlo : o ≤ i)
    (hhi : i < o + bs.length) : m.write o bs i = bs.getD (i - o) 0 := by
  simp [write, hlo, hhi]

@[simp] theorem write_nil (m : Mem) (o : Nat) : m.write o [] = m := by
  funext i
  simp only [write, List.length_nil]
  rw [if_neg (by omega)]

/-- One copy is as good as two that follow each other. -/
theorem write_append (m : Mem) (o : Nat) (bs bs' : List UInt8) :
    m.write o (bs ++ bs') = (m.write o bs).write (o + bs.length) bs' := by
  funext i
  by_cases hlo : i < o
  · rw [write_of_lt hlo, write_of_lt (by omega), write_of_lt hlo]
  · by_cases hmid : i < o + bs.length
    · have hin : i - o < bs.length := by omega
      rw [write_of_lt hmid, write_of_mem (by omega) (by simp; omega), write_of_mem (by omega) hmid]
      simp [List.getD, List.getElem?_append, hin]
    · by_cases hhi : i < o + bs.length + bs'.length
      · have hout : ¬ i - o < bs.length := by omega
        have hsub : i - o - bs.length = i - (o + bs.length) := by omega
        rw [write_of_mem (by omega) (by simp; omega), write_of_mem (by omega) hhi]
        simp [List.getD, List.getElem?_append, hout, hsub]
      · rw [write_of_ge (by simp; omega), write_of_ge (by omega), write_of_ge (by omega)]

/-- A write is invisible outside the bytes it covers. -/
theorem agree_write {m : Mem} {o lo hi : Nat} {bs : List UInt8}
    (h : hi ≤ o ∨ o + bs.length ≤ lo) : Agree (m.write o bs) m lo hi := by
  intro i hlo hhi
  rcases h with h | h
  · exact write_of_lt (by omega)
  · exact write_of_ge (by omega)

theorem slice_write_of_disjoint {m : Mem} {o o' n : Nat} {bs : List UInt8}
    (h : o' + n ≤ o ∨ o + bs.length ≤ o') : (m.write o bs).slice o' n = m.slice o' n :=
  slice_congr (agree_write h)

theorem slice_write_self (m : Mem) (o : Nat) (bs : List UInt8) :
    (m.write o bs).slice o bs.length = bs := by
  apply List.ext_getElem
  · simp
  · intro i hi hi'
    rw [getElem_slice, write_of_mem (by omega) (by omega)]
    simp [hi']

/-- What a slice around a write consists of. -/
theorem slice_write (m : Mem) (o n k : Nat) (bs : List UInt8) :
    (m.write (o + n) bs).slice o (n + bs.length + k) =
      m.slice o n ++ bs ++ m.slice (o + (n + bs.length)) k := by
  rw [slice_add, slice_add, slice_write_self, slice_write_of_disjoint (.inl (Nat.le_refl _)),
    slice_write_of_disjoint (.inr (by omega))]

/-- The `n` bytes at `a` and at `b` change places, over a copy of the first ones. -/
def exchange (m : Mem) (a b n : Nat) : Mem := (m.write a (m.slice b n)).write b (m.slice a n)

theorem slice_exchange {m : Mem} {a b n : Nat} (h : a + n ≤ b ∨ b + n ≤ a) :
    (m.exchange a b n).slice a n = m.slice b n ∧ (m.exchange a b n).slice b n = m.slice a n := by
  have hself : ∀ (m' : Mem) o o', (m'.write o (m.slice o' n)).slice o n = m.slice o' n :=
    fun m' o o' => by simpa using slice_write_self m' o (m.slice o' n)
  refine ⟨?_, hself _ _ _⟩
  rw [exchange, slice_write_of_disjoint (by simpa using h), hself]

theorem exchange_of_not_mem {m : Mem} {a b n i : Nat} (ha : i < a ∨ a + n ≤ i)
    (hb : i < b ∨ b + n ≤ i) : m.exchange a b n i = m i := by
  have hwrite : ∀ (m' : Mem) o o', i < o ∨ o + n ≤ i → m'.write o (m.slice o' n) i = m' i := by
    rintro m' o o' (h | h)
    · exact write_of_lt h
    · exact write_of_ge (by simpa using h)
  rw [exchange, hwrite _ _ _ hb, hwrite _ _ _ ha]

/-- The value a 32-bit store leaves behind. -/
theorem le32_write_bytes32 (m : Mem) (o n : Nat) (h : n < 2 ^ 32) :
    (m.write o (bytes32 n)).le32 o = n := by
  have hbyte : ∀ k, k < 4 → (m.write o (bytes32 n)) (o + k) = (bytes32 n).getD k 0 := by
    intro k hk
    rw [write_of_mem (by omega) (by simp; omega), Nat.add_sub_cancel_left]
  have h₀ := hbyte 0 (by omega)
  have h₁ := hbyte 1 (by omega)
  have h₂ := hbyte 2 (by omega)
  have h₃ := hbyte 3 (by omega)
  simp only [Nat.add_zero] at h₀
  simp only [le32, le16, h₀, h₁, h₂, h₃, Nat.add_assoc, Nat.reduceAdd]
  simp only [bytes32, List.getD, List.getElem?_cons_zero, List.getElem?_cons_succ,
    Option.getD_some, UInt8.toNat_ofNat']
  omega

/-! ## Zero-terminated strings -/

end Mem

/-- The C string that an array of bytes holds: what stands before its first zero. -/
def cstr (bs : List UInt8) : List UInt8 := bs.takeWhile (· ≠ 0)

/-- Whether `strcmp` of the string `name` with the string at offset `o` returns 0:
it reads both sides until they differ or both have ended. -/
def streq (m : Mem) (o : Nat) : List UInt8 → Bool
  | [] => m o == 0
  | c :: cs => m o == c && streq m (o + 1) cs

theorem zero_notMem_cstr (bs : List UInt8) : 0 ∉ cstr bs := by
  intro h
  simpa using List.mem_takeWhile_imp h

theorem length_cstr_lt {bs : List UInt8} (h : 0 ∈ bs) : (cstr bs).length < bs.length := by
  induction bs with
  | nil => cases h
  | cons b bs ih =>
      by_cases hb : b = 0
      · simp [cstr, hb]
      · have hbs : 0 ∈ bs := by simpa [Ne.symm hb] using h
        simpa [cstr, List.takeWhile_cons, hb] using ih hbs

/-- A comparison reads no further than the terminator of `name`. -/
theorem streq_congr {m m' : Mem} {o : Nat} {name : List UInt8}
    (h : m.Agree m' o (o + name.length + 1)) : streq m o name = streq m' o name := by
  induction name generalizing o with
  | nil => simp only [streq, h o (Nat.le_refl o) (Nat.lt_succ_self o)]
  | cons c cs ih =>
      have hhead : m o = m' o := h o (Nat.le_refl o) (by omega)
      have htail := ih (h.mono (Nat.le_succ o) (by simp only [List.length_cons]; omega))
      simp only [streq, hhead, htail]

/-- Comparing with a terminated array is comparing with the string it holds. -/
theorem streq_iff {m : Mem} {o n : Nat} {name : List UInt8} (hname : 0 ∉ name)
    (hterm : 0 ∈ m.slice o n) : streq m o name = true ↔ cstr (m.slice o n) = name := by
  induction n generalizing o name with
  | zero => simp at hterm
  | succ n ih =>
      cases name with
      | nil =>
          by_cases hb : m o = 0 <;> simp [streq, cstr, Mem.slice_succ, hb]
      | cons c cs =>
          have hc : c ≠ 0 := fun h => hname (by simp [h])
          have hcs : 0 ∉ cs := fun h => hname (by simp [h])
          by_cases hb : m o = 0
          · have hne : m o ≠ c := fun h => hc (by rw [← h, hb])
            simp [streq, cstr, Mem.slice_succ, hb, Ne.symm hc]
          · have hrest : 0 ∈ m.slice (o + 1) n := by
              simpa [Mem.slice_succ, Ne.symm hb] using hterm
            have hih := ih hcs hrest
            simp only [cstr] at hih
            simp [streq, cstr, Mem.slice_succ, hb, hih]

end Bytes
