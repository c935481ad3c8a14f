-- SUMMARY: The driver that takes requests (blk_simp.c), and when it does what the bio drivers do.
import LinuxShare.Block.MakeQueue

/-!
# my_do_queue

A request is a run of bios for consecutive sectors that the block layer has merged.
blk_simp copies all of its bytes in one go, from or to `req->buffer`, which is where
the data of the request's first segment are. That is right as long as the other
segments follow in memory, and is a copy of other memory where they do not.
-/

namespace Block

open Bytes

/-- What `rq_data_dir` yields: one bit, so the `default` of its switch is never taken. -/
inductive DataDir where
  | read | write
  deriving DecidableEq

/-- The bios that go into a request of the direction. -/
def DataDir.Takes : DataDir → BioRw → Prop
  | read, rw => rw = .read ∨ rw = .reada
  | write, rw => rw = .write

section

variable {Page : Type}

/-- The bios are for consecutive ranges of the disk, from offset `off` on. -/
def Consecutive : Nat → List (Bio Page) → Prop
  | _, [] => True
  | off, b :: bs => b.off = off ∧ Consecutive (off + b.bytes) bs

/-- `struct request`, as the block layer builds it. -/
structure Request (Page : Type) where
  blkRqPos : Nat
  dataDir : DataDir
  bios : List (Bio Page)
  takes : ∀ b ∈ bios, dataDir.Takes b.biRw
  consecutive : Consecutive (blkRqPos <<< 9) bios

namespace Request

variable (kmap : Page → Nat)

def extents (r : Request Page) : List Extent := r.bios.flatMap (Bio.extents kmap)

/-- `req->buffer`: the address of the data of the first segment. -/
def buffer (r : Request Page) : Nat :=
  match r.extents kmap with
  | [] => 0
  | e :: _ => e.addr

/-- The bytes of all segments of all bios. -/
def blkRqBytes (r : Request Page) : Nat := (r.bios.map Bio.bytes).sum

def off (r : Request Page) : Nat := r.blkRqPos <<< 9

/-- The sectors of the request end before the capacity of the disk. -/
def InRange (r : Request Page) : Prop := r.blkRqPos + (r.blkRqBytes + 511) / 512 ≤ capacity

/-- The segments, apart from empty ones, follow each other in memory without a gap. -/
def Adjacent (r : Request Page) : Prop := Extent.Contiguous (r.buffer kmap) (r.extents kmap)

instance (r : Request Page) : Decidable r.InRange := inferInstanceAs (Decidable (_ ≤ _))

instance (r : Request Page) : Decidable (r.Adjacent kmap) :=
  inferInstanceAs (Decidable (Extent.Contiguous _ _))

end Request

variable (kmap : Page → Nat)

/-- `my_do_queue` on the requests that `blk_fetch_request` will yield. The result is what
`blk_end_request_all` is given for each. -/
def BlkSimp.myDoQueue : List (Request Page) → Dev → Except Fault (List Int × Dev)
  | [], d => .ok ([], d)
  | req :: q, d => do
    let d ← match req.dataDir with
      | .read => d.fromDisk (req.buffer kmap) (req.blkRqPos <<< 9) req.blkRqBytes
      | .write => d.toDisk (req.buffer kmap) (req.blkRqPos <<< 9) req.blkRqBytes
    let (ended, d) ← BlkSimp.myDoQueue q d
    pure (0 :: ended, d)

/-- The bios one after the other through `my_make_queue` of blk_hard. -/
def BlkHard.serve : List (Bio Page) → Dev → Except Fault Dev
  | [], d => .ok d
  | b :: bs, d => do
    let (_, d) ← BlkHard.myMakeQueue kmap b d
    BlkHard.serve bs d

/-- Address `i` belongs to a segment of some request. -/
def Covered (q : List (Request Page)) (i : Nat) : Prop :=
  ∃ r ∈ q, ∃ e ∈ r.extents kmap, e.Covers i

/-- On memory `d`, blk_simp leaves the same disk and the same bytes in every segment as
blk_hard, and accesses no memory but the segments. -/
def Agrees (q : List (Request Page)) (d : Dev) : Prop :=
  ∃ ended d₁ d₂, BlkSimp.myDoQueue kmap q d = .ok (ended, d₁) ∧
    BlkHard.serve kmap (q.flatMap Request.bios) d = .ok d₂ ∧
    d₁.disk = d₂.disk ∧ (∀ i, Covered kmap q i → d₁.mem i = d₂.mem i) ∧
    ∀ e ∈ d₁.touched.drop d.touched.length, ∀ i, e.Covers i → Covered kmap q i

/-! ## One request -/

variable {kmap}

namespace Request

variable {r : Request Page}

theorem total_extents (kmap : Page → Nat) (r : Request Page) : Extent.total (r.extents kmap) = r.blkRqBytes := by
  have hbios : ∀ bs : List (Bio Page),
      Extent.total (bs.flatMap (Bio.extents kmap)) = (bs.map Bio.bytes).sum := by
    intro bs
    induction bs with
    | nil => rfl
    | cons b bs ih => simp [Extent.total_append, ih]
  exact hbios r.bios

theorem InRange.off_add_le (h : r.InRange) : r.off + r.blkRqBytes ≤ diskSize := by
  unfold InRange at h
  rw [off, Nat.shiftLeft_eq, ← capacity_mul]
  omega

/-- The ranges of the bios of a request end where the request does. -/
theorem inRange_of_consecutive {bs : List (Bio Page)} {off : Nat} (h : Consecutive off bs)
    (hle : off + (bs.map Bio.bytes).sum ≤ diskSize) : ∀ b ∈ bs, b.InRange := by
  induction bs generalizing off with
  | nil => simp
  | cons b bs ih =>
      rw [List.map_cons, List.sum_cons] at hle
      refine List.forall_mem_cons.mpr ⟨?_, ih h.2 (by omega)⟩
      have hoff := h.1
      rw [Bio.off_eq] at hoff
      rw [← capacity_mul] at hle
      unfold Bio.InRange
      omega

end Request

/-- What serving a request comes to: `es` is where the bytes are taken from or put. -/
def Moved (dir : DataDir) (es : List Extent) (base : Nat) (d d' : Dev) : Prop :=
  match dir with
  | .read => Fetched es base d d'
  | .write => Stored es base d d'

theorem Moved.append {dir : DataDir} {es es' : List Extent} {base : Nat} {d d' d'' : Dev}
    (h : Moved dir es base d d') (h' : Moved dir es' (base + Extent.total es) d' d'') :
    Moved dir (es ++ es') base d d'' := by
  cases dir with
  | read => exact Fetched.append h h'
  | write => exact Stored.append h h'

theorem moved_nil (dir : DataDir) (base : Nat) (d : Dev) : Moved dir [] base d d := by
  cases dir with
  | read => exact fetched_nil base d
  | write => exact stored_nil base d

theorem BlkHard.serve_append (bs bs' : List (Bio Page)) (d : Dev) :
    BlkHard.serve kmap (bs ++ bs') d = (BlkHard.serve kmap bs d).bind (BlkHard.serve kmap bs') := by
  induction bs generalizing d with
  | nil => rfl
  | cons b bs ih =>
      rw [List.cons_append, BlkHard.serve, BlkHard.serve]
      cases BlkHard.myMakeQueue kmap b d with
      | error e => rfl
      | ok x => exact ih x.2

theorem BlkHard.serve_bios {bs : List (Bio Page)} {dir : DataDir} {off : Nat}
    (htakes : ∀ b ∈ bs, dir.Takes b.biRw) (hin : ∀ b ∈ bs, b.InRange) (h : Consecutive off bs)
    (d : Dev) :
    ∃ d', BlkHard.serve kmap bs d = .ok d' ∧ Moved dir (bs.flatMap (Bio.extents kmap)) off d d' := by
  induction bs generalizing off d with
  | nil => exact ⟨d, rfl, moved_nil dir off d⟩
  | cons b bs ih =>
      obtain ⟨hb, hbs⟩ := List.forall_mem_cons.mp htakes
      obtain ⟨hbin, hbsin⟩ := List.forall_mem_cons.mp hin
      obtain ⟨hoff, hrest⟩ := h
      have hrw : b.biRw ≠ .other := by
        intro hother
        rw [hother] at hb
        cases dir with
        | read => rcases hb with h | h <;> cases h
        | write => cases hb
      obtain ⟨d', hrun, hserved⟩ := BlkHard.myMakeQueue_spec kmap hbin hrw d
      have hmoved : Moved dir (b.extents kmap) off d d' := by
        unfold Served at hserved
        rw [hoff] at hserved
        cases dir with
        | read =>
            rw [if_neg (by rcases hb with h | h <;> rw [h] <;> decide)] at hserved
            exact hserved
        | write =>
            have hw : b.biRw = .write := hb
            rw [if_pos hw] at hserved
            exact hserved
      obtain ⟨d'', hruns, hmoveds⟩ := ih hbs hbsin hrest d'
      refine ⟨d'', ?_, ?_⟩
      · rw [BlkHard.serve, hrun]
        exact hruns
      · rw [← Bio.total_extents kmap b] at hmoveds
        exact hmoved.append hmoveds

theorem BlkHard.serve_request (kmap : Page → Nat) {r : Request Page} (hin : r.InRange) (d : Dev) :
    ∃ d', BlkHard.serve kmap r.bios d = .ok d' ∧ Moved r.dataDir (r.extents kmap) r.off d d' :=
  BlkHard.serve_bios r.takes
    (Request.inRange_of_consecutive r.consecutive hin.off_add_le) r.consecutive d

/-- blk_simp takes the bytes of a request to be one range of memory. -/
theorem BlkSimp.myDoQueue_cons (kmap : Page → Nat) {r : Request Page} (hin : r.InRange)
    (q : List (Request Page)) (d : Dev) : ∃ d', Moved r.dataDir [⟨r.buffer kmap, r.blkRqBytes⟩] r.off d d' ∧
      ∀ ended d'', BlkSimp.myDoQueue kmap q d' = .ok (ended, d'') →
        BlkSimp.myDoQueue kmap (r :: q) d = .ok (0 :: ended, d'') := by
  have hle : r.blkRqPos <<< 9 + r.blkRqBytes ≤ diskSize := hin.off_add_le
  cases hdir : r.dataDir with
  | read =>
      obtain ⟨d', hrun, hmoved⟩ := d.fromDisk_spec (r.buffer kmap) hle
      refine ⟨d', hmoved, fun ended d'' hq => ?_⟩
      simp only [BlkSimp.myDoQueue, hdir, hrun, bind, Except.bind, hq]
      rfl
  | write =>
      obtain ⟨d', hrun, hmoved⟩ := d.toDisk_spec (r.buffer kmap) hle
      refine ⟨d', hmoved, fun ended d'' hq => ?_⟩
      simp only [BlkSimp.myDoQueue, hdir, hrun, bind, Except.bind, hq]
      rfl

theorem Moved.touched {dir : DataDir} {es : List Extent} {base : Nat} {d d' : Dev}
    (h : Moved dir es base d d') : d'.touched = d.touched ++ es := by
  cases dir with
  | read => exact Fetched.touched h
  | write => exact Stored.touched h

/-- The disk and kernel memory are the same. -/
def SameBytes (d d' : Dev) : Prop := d.disk = d'.disk ∧ d.mem = d'.mem

/-- Adjacent extents are as good as one range. -/
theorem Moved.sameBytes {dir : DataDir} {es : List Extent} {a base : Nat} {d₁ d₁' d₂ d₂' : Dev}
    (hsame : SameBytes d₁ d₂) (h : Extent.Contiguous a es)
    (h₁ : Moved dir [⟨a, Extent.total es⟩] base d₁ d₁') (h₂ : Moved dir es base d₂ d₂') :
    SameBytes d₁' d₂' := by
  obtain ⟨hdisk, hmem⟩ := hsame
  cases dir with
  | read =>
      obtain ⟨hdisk₁, hmem₁, _, _⟩ : Fetched _ _ _ _ := h₁
      obtain ⟨hdisk₂, hmem₂, _, _⟩ : Fetched _ _ _ _ := h₂
      refine ⟨by rw [hdisk₁, hdisk₂, hdisk], ?_⟩
      rw [hmem₁, hmem₂, Mem.scatter_of_contiguous h (by simp), hdisk, hmem]
      simp [Mem.scatter_cons, List.take_of_length_le]
  | write =>
      obtain ⟨hdisk₁, hmem₁, _, _⟩ : Stored _ _ _ _ := h₁
      obtain ⟨hdisk₂, hmem₂, _, _⟩ : Stored _ _ _ _ := h₂
      refine ⟨?_, by rw [hmem₁, hmem₂, hmem]⟩
      rw [hdisk₁, hdisk₂, Mem.gather_of_contiguous h, hdisk, hmem]
      simp

/-! ## Queues -/

/-- An adjacent request's range of memory consists of its segments. -/
theorem Request.Adjacent.covered {r : Request Page} {q : List (Request Page)} (h : r.Adjacent kmap)
    (hr : r ∈ q) {i : Nat} (hi : Extent.Covers ⟨r.buffer kmap, r.blkRqBytes⟩ i) :
    Covered kmap q i := by
  obtain ⟨hlo, hhi⟩ := hi
  dsimp only at hlo hhi
  have hp : i - r.buffer kmap < Extent.total (r.extents kmap) := by
    rw [Request.total_extents]
    omega
  obtain ⟨e, he, hcov⟩ := Extent.covers_addrAt hp
  rw [Extent.contiguous_iff.mp h _ hp, Nat.add_sub_cancel' hlo] at hcov
  exact ⟨r, hr, e, he, hcov⟩

/-- On the same bytes, both drivers go the same way through adjacent requests. -/
theorem myDoQueue_sameBytes {q : List (Request Page)} (hin : ∀ r ∈ q, r.InRange)
    (hadj : ∀ r ∈ q, r.Adjacent kmap) {d₁ d₂ : Dev} (hsame : SameBytes d₁ d₂) :
    ∃ ended d₁' d₂' es, BlkSimp.myDoQueue kmap q d₁ = .ok (ended, d₁') ∧
      BlkHard.serve kmap (q.flatMap Request.bios) d₂ = .ok d₂' ∧ SameBytes d₁' d₂' ∧
      d₁'.touched = d₁.touched ++ es ∧ ∀ e ∈ es, ∀ i, e.Covers i → Covered kmap q i := by
  induction q generalizing d₁ d₂ with
  | nil => exact ⟨[], d₁, d₂, [], rfl, rfl, hsame, (List.append_nil _).symm, by simp⟩
  | cons r q ih =>
      obtain ⟨hr, hq⟩ := List.forall_mem_cons.mp hin
      obtain ⟨hradj, hqadj⟩ := List.forall_mem_cons.mp hadj
      obtain ⟨d₁', hmoved₁, hrun₁⟩ := BlkSimp.myDoQueue_cons kmap hr q d₁
      obtain ⟨d₂', hrun₂, hmoved₂⟩ := BlkHard.serve_request kmap hr d₂
      have htouched := hmoved₁.touched
      rw [← Request.total_extents kmap] at hmoved₁
      obtain ⟨ended, d₁'', d₂'', es, hq₁, hq₂, hsame', hes, hin'⟩ :=
        ih hq hqadj (Moved.sameBytes hsame hradj hmoved₁ hmoved₂)
      refine ⟨0 :: ended, d₁'', d₂'', ⟨r.buffer kmap, r.blkRqBytes⟩ :: es, hrun₁ _ _ hq₁, ?_, hsame',
        ?_, ?_⟩
      · rw [List.flatMap_cons, BlkHard.serve_append, hrun₂]
        exact hq₂
      · rw [hes, htouched, List.append_assoc]
        rfl
      · refine List.forall_mem_cons.mpr ⟨fun i hi => hradj.covered List.mem_cons_self hi, ?_⟩
        intro e he i hi
        obtain ⟨r', hr', hcov⟩ := hin' e he i hi
        exact ⟨r', List.mem_cons_of_mem r hr', hcov⟩

theorem agrees_of_adjacent {q : List (Request Page)} (hin : ∀ r ∈ q, r.InRange)
    (hadj : ∀ r ∈ q, r.Adjacent kmap) (d : Dev) : Agrees kmap q d := by
  obtain ⟨ended, d₁, d₂, es, hsimp, hhard, hsame, hes, hcov⟩ :=
    myDoQueue_sameBytes hin hadj (⟨rfl, rfl⟩ : SameBytes d d)
  refine ⟨ended, d₁, d₂, hsimp, hhard, hsame.1, fun i _ => by rw [hsame.2], ?_⟩
  rw [hes, List.drop_left]
  exact hcov

/-! ## Layouts that are not adjacent -/

/-- A memory that is zero but for one byte. -/
def onlyAt (a : Nat) : Mem := fun i => if i = a then 1 else 0

theorem eq_of_onlyAt {a b : Nat} (h : onlyAt a a = onlyAt a b) : b = a := by
  by_contra hne
  simp [onlyAt, hne] at h

theorem covered_singleton {r : Request Page} {i : Nat} :
    Covered kmap [r] i ↔ ∃ e ∈ r.extents kmap, e.Covers i := by
  simp [Covered]

/-- What both drivers do with a single request. -/
theorem Agrees.moved {r : Request Page} (hin : r.InRange) {d : Dev} (h : Agrees kmap [r] d) :
    ∃ d₁ d₂, Moved r.dataDir [⟨r.buffer kmap, r.blkRqBytes⟩] r.off d d₁ ∧
      Moved r.dataDir (r.extents kmap) r.off d d₂ ∧ d₁.disk = d₂.disk ∧
      (∀ i, Covered kmap [r] i → d₁.mem i = d₂.mem i) ∧
      ∀ i, Extent.Covers ⟨r.buffer kmap, r.blkRqBytes⟩ i → Covered kmap [r] i := by
  obtain ⟨ended, d₁, d₂, hsimp, hhard, hdisk, hmem, hcov⟩ := h
  obtain ⟨d₁', hmoved₁, hrun₁⟩ := BlkSimp.myDoQueue_cons kmap hin [] d
  obtain ⟨d₂', hrun₂, hmoved₂⟩ := BlkHard.serve_request kmap hin d
  cases hsimp.symm.trans (hrun₁ _ _ rfl)
  have hbios : [r].flatMap Request.bios = r.bios := List.flatMap_singleton _ _
  rw [hbios] at hhard
  cases hhard.symm.trans hrun₂
  refine ⟨d₁, d₂, hmoved₁, hmoved₂, hdisk, hmem, fun i hi => hcov _ ?_ i hi⟩
  rw [hmoved₁.touched, List.drop_left]
  exact List.mem_singleton_self _

/-- A write takes its bytes from the segments whatever they hold, only if they are adjacent. -/
theorem adjacent_of_write {r : Request Page} (hin : r.InRange) (hdir : r.dataDir = .write)
    (h : ∀ d, Agrees kmap [r] d) : r.Adjacent kmap := by
  refine Extent.contiguous_iff.mpr fun p hp => ?_
  obtain ⟨d₁, d₂, hmoved₁, hmoved₂, hdisk, _⟩ := (h (.init (onlyAt (r.buffer kmap + p)))).moved hin
  rw [hdir] at hmoved₁ hmoved₂
  have hdata : (onlyAt (r.buffer kmap + p)).slice (r.buffer kmap) r.blkRqBytes =
      (onlyAt (r.buffer kmap + p)).gather (r.extents kmap) := by
    have hdisk₁ : d₁.disk = Mem.write _ _ _ := Stored.disk hmoved₁
    have hdisk₂ : d₂.disk = Mem.write _ _ _ := Stored.disk hmoved₂
    have hread := congrArg (fun m => Mem.slice m r.off r.blkRqBytes) hdisk
    simp only [hdisk₁, hdisk₂, Mem.gather_cons, Mem.gather_nil, List.append_nil] at hread
    have hself₁ := Mem.slice_write_self (Dev.init (onlyAt (r.buffer kmap + p))).disk r.off
      ((onlyAt (r.buffer kmap + p)).slice (r.buffer kmap) r.blkRqBytes)
    have hself₂ := Mem.slice_write_self (Dev.init (onlyAt (r.buffer kmap + p))).disk r.off
      ((onlyAt (r.buffer kmap + p)).gather (r.extents kmap))
    rw [Mem.length_slice] at hself₁
    rw [Mem.length_gather, Request.total_extents] at hself₂
    exact hself₁.symm.trans (hread.trans hself₂)
  have hbyte := congrArg (fun bs => bs.getD p 0) hdata
  rw [Mem.getD_gather hp, Mem.getD_slice (by rwa [Request.total_extents] at hp)] at hbyte
  exact eq_of_onlyAt hbyte

/-- A read puts its bytes into the segments, and nowhere else, only if they are adjacent. -/
theorem adjacent_of_read {r : Request Page} (hin : r.InRange) (hdir : r.dataDir = .read)
    (h : ∀ d, Agrees kmap [r] d) : r.Adjacent kmap := by
  refine Extent.contiguous_iff.mpr fun p hp => ?_
  have hlt : p < r.blkRqBytes := by rwa [Request.total_extents] at hp
  obtain ⟨d₁, d₂, hmoved₁, hmoved₂, _, hmem, hcov⟩ :=
    (h { Dev.init (fun _ => 0) with disk := onlyAt (r.off + p) }).moved hin
  rw [hdir] at hmoved₁ hmoved₂
  have hcovered : Covered kmap [r] (r.buffer kmap + p) :=
    hcov _ ⟨Nat.le_add_right _ _, Nat.add_lt_add_left hlt _⟩
  -- the last segment over this byte decides what blk_hard leaves in it
  obtain ⟨k, hk, haddr, hval⟩ := Mem.exists_scatter_apply (covered_singleton.mp hcovered)
  have hklt : k < r.blkRqBytes := by rwa [Request.total_extents] at hk
  have hbyte := hmem _ hcovered
  have hmem₁ : d₁.mem = Mem.scatter _ _ _ := Fetched.mem hmoved₁
  have hmem₂ : d₂.mem = Mem.scatter _ _ _ := Fetched.mem hmoved₂
  rw [hmem₁, hmem₂, hval _ _ (by simp), Request.total_extents, Mem.getD_slice hklt] at hbyte
  have hone : Mem.scatter (fun _ => 0) [⟨r.buffer kmap, r.blkRqBytes⟩]
      ((onlyAt (r.off + p)).slice r.off r.blkRqBytes) (r.buffer kmap + p) =
        onlyAt (r.off + p) (r.off + p) := by
    rw [Mem.scatter_cons, Mem.scatter_nil, List.take_of_length_le (by simp),
      Mem.write_of_mem (Nat.le_add_right _ _) (by simpa using hlt), Nat.add_sub_cancel_left,
      Mem.getD_slice hlt]
  have htotal : Extent.total [⟨r.buffer kmap, r.blkRqBytes⟩] = r.blkRqBytes := by simp
  rw [htotal] at hbyte
  have hkp : r.off + k = r.off + p := eq_of_onlyAt (hone.symm.trans hbyte)
  obtain rfl : k = p := Nat.add_left_cancel hkp
  exact haddr

/-- In a queue of adjacent requests blk_simp does what blk_hard does with their bios,
whatever the disk and memory hold; and a request is served so for all contents only if
its segments are adjacent. -/
theorem doQueue_agrees (kmap : Page → Nat) (q : List (Request Page)) (hin : ∀ r ∈ q, r.InRange) :
    ((∀ r ∈ q, r.Adjacent kmap) → ∀ d, Agrees kmap q d) ∧
    ∀ r ∈ q, ((∀ d, Agrees kmap [r] d) ↔ r.Adjacent kmap) := by
  refine ⟨fun hadj d => agrees_of_adjacent hin hadj d, fun r hr => ⟨fun h => ?_, fun h d => ?_⟩⟩
  · cases hdir : r.dataDir with
    | read => exact adjacent_of_read (hin r hr) hdir h
    | write => exact adjacent_of_write (hin r hr) hdir h
  · exact agrees_of_adjacent (by simpa using hin r hr) (by simpa using h) d

end

/-- A write of one sector, half of it in the page `false` and half in the page `true`. -/
def twoPages : Request Bool where
  blkRqPos := 0
  dataDir := .write
  bios := [⟨0, .write, [⟨false, 256, 0⟩, ⟨true, 256, 0⟩]⟩]
  takes := by simp [DataDir.Takes]
  consecutive := ⟨rfl, trivial⟩

/-- Where the pages are, next to each other or not. -/
def twoPagesAt (addr : Nat) : Bool → Nat := fun page => if page then addr else 4096

theorem doQueue_agrees_twoPages :
    Agrees (twoPagesAt 4352) [twoPages] (.init fun i => UInt8.ofNat (i % 251)) :=
  (doQueue_agrees (twoPagesAt 4352) [twoPages] (by decide)).1 (by decide) _

/-- The second half of the sector is not what stands in the second page. -/
theorem twoPages_disagree :
    twoPages.InRange ∧
    (BlkSimp.myDoQueue (twoPagesAt 12288) [twoPages] (.init (onlyAt 12288))).map
      (fun x => x.2.disk 256) = .ok 0 ∧
    (BlkHard.serve (twoPagesAt 12288) twoPages.bios (.init (onlyAt 12288))).map
      (fun d => d.disk 256) = .ok 1 ∧
    ¬ Agrees (twoPagesAt 12288) [twoPages] (.init (onlyAt 12288)) := by
  have hsimp : (BlkSimp.myDoQueue (twoPagesAt 12288) [twoPages] (.init (onlyAt 12288))).map
      (fun x => x.2.disk 256) = .ok 0 := by
    decide +kernel
  have hhard : (BlkHard.serve (twoPagesAt 12288) twoPages.bios (.init (onlyAt 12288))).map
      (fun d => d.disk 256) = .ok 1 := by
    decide +kernel
  refine ⟨by decide, hsimp, hhard, ?_⟩
  rintro ⟨ended, d₁, d₂, hrun₁, hrun₂, hdisk, _⟩
  have hbios : [twoPages].flatMap Request.bios = twoPages.bios := List.flatMap_singleton _ _
  rw [hrun₁] at hsimp
  rw [hbios] at hrun₂
  rw [hrun₂] at hhard
  have h₁ : d₁.disk 256 = 0 := Except.ok.inj hsimp
  have h₂ : d₂.disk 256 = 1 := Except.ok.inj hhard
  rw [hdisk, h₂] at h₁
  cases h₁

end Block
