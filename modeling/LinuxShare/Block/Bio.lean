-- SUMMARY: Bios, the memory of a RAM disk, and the copies between the disk and the segments.
import LinuxShare.Lib.Scatter

/-!
# Bios and RAM disks

What the RAM-disk drivers share: the disk is one buffer of 2 MiB that `kzalloc` has
zeroed, and a bio is a sector with a list of segments in pages. A page is whatever
`kmap` takes, and where `kmap` puts it is a parameter, so segments may lie anywhere in
kernel memory and may overlap. Kernel memory and the disk buffer are separate objects.
A copy that would leave the disk buffer is undefined.
-/

namespace Block

open Bytes

/-- The bytes that `my_blk_init` allocates for `my_diskbuffer`. -/
abbrev diskSize : Nat := 1024 * 1024 * 2

/-- The argument of `set_capacity`, in sectors. -/
abbrev capacity : Nat := 1024 * 1024 * 2 / 512

theorem capacity_mul : capacity * 512 = diskSize := rfl

inductive Fault where
  | overrun
  deriving DecidableEq

/-! ## Bios -/

/-- What `bio_rw` yields. -/
inductive BioRw where
  | read | write | reada | other
  deriving DecidableEq

/-- `struct bio_vec`. -/
structure BioVec (Page : Type) where
  bvPage : Page
  bvLen : Nat
  bvOffset : Nat

structure Bio (Page : Type) where
  biSector : Nat
  biRw : BioRw
  biIoVec : List (BioVec Page)

section

variable {Page : Type} (kmap : Page → Nat)

/-- Where `kmap(my_vec->bv_page)+my_vec->bv_offset` points, and how far it goes. -/
def BioVec.extent (v : BioVec Page) : Extent := ⟨kmap v.bvPage + v.bvOffset, v.bvLen⟩

namespace Bio

def extents (b : Bio Page) : List Extent := b.biIoVec.map (BioVec.extent kmap)

/-- The offset of the bio's first sector in the disk buffer. -/
def off (b : Bio Page) : Nat := b.biSector <<< 9

/-- The bytes of all segments. -/
def bytes (b : Bio Page) : Nat := (b.biIoVec.map BioVec.bvLen).sum

/-- The sectors of the bio end before the capacity of the disk, as the block layer checks. -/
def InRange (b : Bio Page) : Prop := b.biSector + (b.bytes + 511) / 512 ≤ capacity

instance (b : Bio Page) : Decidable b.InRange := inferInstanceAs (Decidable (_ ≤ _))

@[simp] theorem total_extents (b : Bio Page) : Extent.total (b.extents kmap) = b.bytes := by
  simp only [Extent.total, extents, bytes, List.map_map]
  rfl

theorem off_eq (b : Bio Page) : b.off = b.biSector * 512 := Nat.shiftLeft_eq _ _

theorem InRange.extents_le {b : Bio Page} (h : b.InRange) :
    b.off + Extent.total (b.extents kmap) ≤ diskSize := by
  unfold InRange at h
  rw [total_extents, off_eq, ← capacity_mul]
  omega

end Bio

end

/-! ## The RAM disk -/

/-- A line of `printk`: `%d: have read` and `%d: have write`. -/
inductive Line where
  | haveRead (count : Int)
  | haveWrite (count1 : Int)

/-- The memory that a driver works on. `touched` and `diskTouched` are ghosts: the
ranges of kernel memory and of the disk buffer that were accessed. -/
structure Dev where
  disk : Mem
  mem : Mem
  count : Int
  count1 : Int
  printk : List Line
  touched : List Extent
  diskTouched : List Extent

namespace Dev

/-- After `my_blk_init`, with whatever kernel memory holds. -/
def init (mem : Mem) : Dev where
  disk := fun _ => 0
  mem := mem
  count := 0
  count1 := 0
  printk := []
  touched := []
  diskTouched := []

/-- `memcpy(addr,my_diskbuffer+base,len);` -/
def fromDisk (d : Dev) (addr base len : Nat) : Except Fault Dev :=
  if base + len ≤ diskSize then
    .ok { d with
      mem := d.mem.write addr (d.disk.slice base len)
      touched := d.touched ++ [⟨addr, len⟩]
      diskTouched := d.diskTouched ++ [⟨base, len⟩] }
  else .error .overrun

/-- `memcpy(my_diskbuffer+base,addr,len);` -/
def toDisk (d : Dev) (addr base len : Nat) : Except Fault Dev :=
  if base + len ≤ diskSize then
    .ok { d with
      disk := d.disk.write base (d.mem.slice addr len)
      touched := d.touched ++ [⟨addr, len⟩]
      diskTouched := d.diskTouched ++ [⟨base, len⟩] }
  else .error .overrun

end Dev

/-- The disk bytes from `base` on have gone into the extents `es`, and nothing else has
been changed or accessed. -/
structure Fetched (es : List Extent) (base : Nat) (d d' : Dev) : Prop where
  disk : d'.disk = d.disk
  mem : d'.mem = d.mem.scatter es (d.disk.slice base (Extent.total es))
  touched : d'.touched = d.touched ++ es
  diskTouched : ∃ ds, d'.diskTouched = d.diskTouched ++ ds ∧
    ∀ e ∈ ds, base ≤ e.addr ∧ e.addr + e.len ≤ base + Extent.total es

/-- The bytes of the extents `es` have gone to the disk from `base` on, and nothing else
has been changed or accessed. -/
structure Stored (es : List Extent) (base : Nat) (d d' : Dev) : Prop where
  disk : d'.disk = d.disk.write base (d.mem.gather es)
  mem : d'.mem = d.mem
  touched : d'.touched = d.touched ++ es
  diskTouched : ∃ ds, d'.diskTouched = d.diskTouched ++ ds ∧
    ∀ e ∈ ds, base ≤ e.addr ∧ e.addr + e.len ≤ base + Extent.total es

theorem Dev.fromDisk_spec (d : Dev) (addr : Nat) {base len : Nat} (h : base + len ≤ diskSize) :
    ∃ d', d.fromDisk addr base len = .ok d' ∧ Fetched [⟨addr, len⟩] base d d' := by
  refine ⟨_, if_pos h, rfl, ?_, rfl, [⟨base, len⟩], rfl, ?_⟩
  · simp [Mem.scatter_cons, List.take_of_length_le]
  · simp

theorem Dev.toDisk_spec (d : Dev) (addr : Nat) {base len : Nat} (h : base + len ≤ diskSize) :
    ∃ d', d.toDisk addr base len = .ok d' ∧ Stored [⟨addr, len⟩] base d d' := by
  refine ⟨_, if_pos h, ?_, rfl, rfl, [⟨base, len⟩], rfl, ?_⟩
  · simp
  · simp

/-- Ranges of the disk that lie in two adjacent ranges. -/
theorem within_append {ds ds' : List Extent} {base n k : Nat}
    (h : ∀ e ∈ ds, base ≤ e.addr ∧ e.addr + e.len ≤ base + n)
    (h' : ∀ e ∈ ds', base + n ≤ e.addr ∧ e.addr + e.len ≤ base + n + k) :
    ∀ e ∈ ds ++ ds', base ≤ e.addr ∧ e.addr + e.len ≤ base + (n + k) := by
  intro e he
  rcases List.mem_append.mp he with hin | hin
  · have := h e hin
    omega
  · have := h' e hin
    omega

/-- A copy goes on where the one before it has stopped. -/
theorem Fetched.append {es es' : List Extent} {base : Nat} {d d' d'' : Dev} (h : Fetched es base d d')
    (h' : Fetched es' (base + Extent.total es) d' d'') : Fetched (es ++ es') base d d'' := by
  obtain ⟨ds, hds, hin⟩ := h.diskTouched
  obtain ⟨ds', hds', hin'⟩ := h'.diskTouched
  refine ⟨h'.disk.trans h.disk, ?_, ?_, ds ++ ds', ?_, ?_⟩
  · rw [h'.mem, h.mem, h.disk, Extent.total_append, Mem.slice_add, Mem.scatter_append (by simp)]
  · rw [h'.touched, h.touched, List.append_assoc]
  · rw [hds', hds, List.append_assoc]
  · rw [Extent.total_append]
    exact within_append hin hin'

theorem Stored.append {es es' : List Extent} {base : Nat} {d d' d'' : Dev} (h : Stored es base d d')
    (h' : Stored es' (base + Extent.total es) d' d'') : Stored (es ++ es') base d d'' := by
  obtain ⟨ds, hds, hin⟩ := h.diskTouched
  obtain ⟨ds', hds', hin'⟩ := h'.diskTouched
  refine ⟨?_, h'.mem.trans h.mem, ?_, ds ++ ds', ?_, ?_⟩
  · rw [h'.disk, h.disk, h.mem, Mem.gather_append, Mem.write_append, Mem.length_gather]
  · rw [h'.touched, h.touched, List.append_assoc]
  · rw [hds', hds, List.append_assoc]
  · rw [Extent.total_append]
    exact within_append hin hin'

theorem fetched_nil (base : Nat) (d : Dev) : Fetched [] base d d :=
  ⟨rfl, rfl, (List.append_nil _).symm, [], (List.append_nil _).symm, by simp⟩

theorem stored_nil (base : Nat) (d : Dev) : Stored [] base d d :=
  ⟨by simp, rfl, (List.append_nil _).symm, [], (List.append_nil _).symm, by simp⟩

end Block
