-- SUMMARY: The drivers that take bios (blk_mid.c, blk_hard.c), and why they are an array of bytes.
import LinuxShare.Block.Bio
import LinuxShare.Lib.CInt

/-!
# my_make_queue

Both drivers walk over the segments of a bio with a running pointer into the disk
buffer. They differ in what they do with a read-ahead bio, and in that blk_mid logs
each segment. `ArrayDisk` is what such a disk is for: each byte is the one that was
written last, or zero, and a read puts these bytes into its segments in order.
-/

namespace Block

open Bytes

/-! ## The drivers -/

/-- `-EIO`, which ends a bio that is neither read nor written. -/
def eio : Int := 5

section

variable {Page : Type} (kmap : Page → Nat)

/-- `bio_for_each_segment` in `my_make_queue`, from the position `my_base_addr` in the
disk buffer on, with the copy of the `case` that `bio_rw(bio)` selects. Yields what
`bio_endio` is given. -/
def segmentLoop (copy : Option (Dev → Nat → Nat → Nat → Except Fault Dev)) :
    List (BioVec Page) → Nat → Dev → Except Fault (Int × Dev)
  | [], _, d => .ok (0, d)
  | v :: vs, base, d =>
    match copy with
    | some copy => do
      let d ← copy d (kmap v.bvPage + v.bvOffset) base v.bvLen
      segmentLoop copy vs (base + v.bvLen) d
    | none => .ok (-eio, d)

namespace BlkHard

def myMakeQueue (bio : Bio Page) (d : Dev) : Except Fault (Int × Dev) :=
  segmentLoop kmap
    (match bio.biRw with
    | .reada | .read => some Dev.fromDisk
    | .write => some Dev.toDisk
    | .other => none)
    bio.biIoVec (bio.biSector <<< 9) d

end BlkHard

namespace BlkMid

/-- `printk("%d: have read\n",count++);` -/
def printRead (d : Dev) : Dev :=
  { d with printk := d.printk ++ [.haveRead d.count], count := CInt.toInt (d.count + 1) }

/-- `printk("%d: have write\n",count1++);` -/
def printWrite (d : Dev) : Dev :=
  { d with printk := d.printk ++ [.haveWrite d.count1], count1 := CInt.toInt (d.count1 + 1) }

def myMakeQueue (bio : Bio Page) (d : Dev) : Except Fault (Int × Dev) :=
  segmentLoop kmap
    (match bio.biRw with
    | .read => some fun d => Dev.fromDisk (printRead d)
    | .write => some fun d => Dev.toDisk (printWrite d)
    | .reada | .other => none)
    bio.biIoVec (bio.biSector <<< 9) d

end BlkMid

/-! ## One bio -/

variable {kmap}

/-- If the copy of one segment is a step of `R`, so is the loop over all of them. -/
theorem segmentLoop_spec {copy : Dev → Nat → Nat → Nat → Except Fault Dev}
    {R : List Extent → Nat → Dev → Dev → Prop} (hnil : ∀ base d, R [] base d d)
    (happend : ∀ {es es' base d d' d''}, R es base d d' → R es' (base + Extent.total es) d' d'' →
      R (es ++ es') base d d'')
    (hcopy : ∀ d addr base len, base + len ≤ diskSize →
      ∃ d', copy d addr base len = .ok d' ∧ R [⟨addr, len⟩] base d d')
    {vs : List (BioVec Page)} {base : Nat} {d : Dev}
    (h : base + Extent.total (vs.map (BioVec.extent kmap)) ≤ diskSize) :
    ∃ d', segmentLoop kmap (some copy) vs base d = .ok (0, d') ∧
      R (vs.map (BioVec.extent kmap)) base d d' := by
  induction vs generalizing base d with
  | nil => exact ⟨d, rfl, hnil base d⟩
  | cons v vs ih =>
      have hlen : (v.extent kmap).len = v.bvLen := rfl
      rw [List.map_cons, Extent.total_cons, hlen] at h
      obtain ⟨d', hrun, hstep⟩ := hcopy d (kmap v.bvPage + v.bvOffset) base v.bvLen (by omega)
      have hle : base + v.bvLen + Extent.total (vs.map (BioVec.extent kmap)) ≤ diskSize := by omega
      obtain ⟨d'', hloop, hrest⟩ := ih (d := d') hle
      refine ⟨d'', ?_, happend hstep hrest⟩
      simp only [segmentLoop, hrun]
      exact hloop

/-- A bio has been served: as a write, or as a read. -/
def Served (kmap : Page → Nat) (b : Bio Page) (d d' : Dev) : Prop :=
  if b.biRw = .write then Stored (b.extents kmap) b.off d d' else Fetched (b.extents kmap) b.off d d'

theorem served_of_write {b : Bio Page} {d : Dev} (hin : b.InRange) (hw : b.biRw = .write)
    {copy : Dev → Nat → Nat → Nat → Except Fault Dev}
    (hcopy : ∀ d addr base len, base + len ≤ diskSize →
      ∃ d', copy d addr base len = .ok d' ∧ Stored [⟨addr, len⟩] base d d') :
    ∃ d', segmentLoop kmap (some copy) b.biIoVec b.off d = .ok (0, d') ∧ Served kmap b d d' := by
  obtain ⟨d', hrun, hstored⟩ := segmentLoop_spec stored_nil Stored.append hcopy (d := d) (hin.extents_le kmap)
  exact ⟨d', hrun, (if_pos hw).mpr hstored⟩

theorem served_of_read {b : Bio Page} {d : Dev} (hin : b.InRange) (hr : b.biRw ≠ .write)
    {copy : Dev → Nat → Nat → Nat → Except Fault Dev}
    (hcopy : ∀ d addr base len, base + len ≤ diskSize →
      ∃ d', copy d addr base len = .ok d' ∧ Fetched [⟨addr, len⟩] base d d') :
    ∃ d', segmentLoop kmap (some copy) b.biIoVec b.off d = .ok (0, d') ∧ Served kmap b d d' := by
  obtain ⟨d', hrun, hfetched⟩ := segmentLoop_spec fetched_nil Fetched.append hcopy (d := d) (hin.extents_le kmap)
  exact ⟨d', hrun, (if_neg hr).mpr hfetched⟩

/-- blk_hard serves read-ahead bios as well. -/
theorem BlkHard.myMakeQueue_spec (kmap : Page → Nat) {b : Bio Page} (hin : b.InRange)
    (hrw : b.biRw ≠ .other) (d : Dev) :
    ∃ d', BlkHard.myMakeQueue kmap b d = .ok (0, d') ∧ Served kmap b d d' := by
  unfold BlkHard.myMakeQueue
  cases hb : b.biRw with
  | read => exact served_of_read hin (by rw [hb]; decide) fun d _ _ _ h => d.fromDisk_spec _ h
  | write => exact served_of_write hin hb fun d _ _ _ h => d.toDisk_spec _ h
  | reada => exact served_of_read hin (by rw [hb]; decide) fun d _ _ _ h => d.fromDisk_spec _ h
  | other => exact absurd hb hrw

theorem BlkMid.myMakeQueue_spec {b : Bio Page} (hin : b.InRange)
    (hrw : b.biRw = .read ∨ b.biRw = .write) (d : Dev) :
    ∃ d', BlkMid.myMakeQueue kmap b d = .ok (0, d') ∧ Served kmap b d d' := by
  unfold BlkMid.myMakeQueue
  rcases hrw with hb | hb
  · rw [hb]
    refine served_of_read hin (by rw [hb]; decide) fun d addr base len h => ?_
    obtain ⟨d', hrun, hstep⟩ := (printRead d).fromDisk_spec addr h
    exact ⟨d', hrun, hstep.disk, hstep.mem, hstep.touched, hstep.diskTouched⟩
  · rw [hb]
    refine served_of_write hin hb fun d addr base len h => ?_
    obtain ⟨d', hrun, hstep⟩ := (printWrite d).toDisk_spec addr h
    exact ⟨d', hrun, hstep.disk, hstep.mem, hstep.touched, hstep.diskTouched⟩

/-- blk_mid refuses read-ahead bios that have anything to read. -/
theorem BlkMid.myMakeQueue_reada {b : Bio Page} (hrw : b.biRw = .reada) (hne : b.biIoVec ≠ [])
    (d : Dev) : BlkMid.myMakeQueue kmap b d = .ok (-eio, d) := by
  obtain ⟨v, vs, hvs⟩ := List.exists_cons_of_ne_nil hne
  rw [BlkMid.myMakeQueue, hrw, hvs]
  rfl

/-! ## Runs -/

/-- What happens to the disk and to kernel memory: a bio arrives, or somebody else
changes the contents of kernel memory to `mem`. -/
inductive Io (Page : Type) where
  | bio (b : Bio Page)
  | cpu (mem : Mem)

inductive Driver where
  | mid | hard

def Driver.myMakeQueue (drv : Driver) (kmap : Page → Nat) (b : Bio Page) (d : Dev) :
    Except Fault (Int × Dev) :=
  match drv with
  | mid => BlkMid.myMakeQueue kmap b d
  | hard => BlkHard.myMakeQueue kmap b d

def Driver.exec (drv : Driver) (kmap : Page → Nat) (d : Dev) : Io Page → Except Fault Dev
  | .bio b => (drv.myMakeQueue kmap b d).map Prod.snd
  | .cpu mem => .ok { d with mem := mem }

def Driver.run (drv : Driver) (kmap : Page → Nat) (ios : List (Io Page)) (d : Dev) :
    Except Fault Dev :=
  ios.foldlM (drv.exec kmap) d

/-- A flat array of bytes, by what has been written to it, beside kernel memory. -/
structure ArrayDisk where
  writes : List Write
  mem : Mem

namespace ArrayDisk

/-- The array: the byte written last at each offset, or zero. -/
def contents (s : ArrayDisk) : Mem := latest s.writes

def apply (kmap : Page → Nat) (s : ArrayDisk) : Io Page → ArrayDisk
  | .bio b =>
    if b.biRw = .write then
      { s with writes := s.writes ++ [⟨b.off, s.mem.gather (b.extents kmap)⟩] }
    else { s with mem := s.mem.scatter (b.extents kmap) (s.contents.slice b.off b.bytes) }
  | .cpu mem => { s with mem := mem }

def run (kmap : Page → Nat) (ios : List (Io Page)) (s : ArrayDisk) : ArrayDisk :=
  ios.foldl (apply kmap) s

/-- The driver's memory is that of the array. -/
structure Refines (d : Dev) (s : ArrayDisk) : Prop where
  disk : d.disk = s.contents
  mem : d.mem = s.mem

theorem refines_init (mem : Mem) : Refines (Dev.init mem) ⟨[], mem⟩ := ⟨rfl, rfl⟩

/-- A bio that has been served has done what it does to the array. -/
theorem Refines.served {d d' : Dev} {s : ArrayDisk} {b : Bio Page} (h : Refines d s)
    (hb : Served kmap b d d') : Refines d' (s.apply kmap (.bio b)) := by
  unfold Served at hb
  simp only [apply]
  split at hb
  · next hw =>
      rw [if_pos hw]
      refine ⟨?_, hb.mem.trans h.mem⟩
      rw [contents, latest_snoc, hb.disk, h.disk, h.mem]
      rfl
  · next hw =>
      rw [if_neg hw]
      refine ⟨hb.disk.trans h.disk, ?_⟩
      rw [hb.mem, h.mem, h.disk, Bio.total_extents]

end ArrayDisk

theorem Driver.myMakeQueue_spec (drv : Driver) (kmap : Page → Nat) {b : Bio Page} (hin : b.InRange)
    (hrw : b.biRw = .read ∨ b.biRw = .write) (d : Dev) :
    ∃ d', drv.myMakeQueue kmap b d = .ok (0, d') ∧ Served kmap b d d' := by
  cases drv with
  | mid => exact BlkMid.myMakeQueue_spec hin hrw d
  | hard =>
      refine BlkHard.myMakeQueue_spec kmap hin (fun hother => ?_) d
      rw [hother] at hrw
      rcases hrw with h | h <;> cases h

theorem Driver.run_snoc (drv : Driver) (ios : List (Io Page)) (io : Io Page) (d : Dev) :
    drv.run kmap (ios ++ [io]) d = (drv.run kmap ios d).bind fun d => drv.exec kmap d io := by
  unfold Driver.run
  rw [List.foldlM_append]
  cases List.foldlM (drv.exec kmap) d ios with
  | error e => rfl
  | ok d =>
      cases hexec : drv.exec kmap d io with
      | error e => simp [bind, Except.bind, hexec]
      | ok d' => simp [bind, Except.bind, hexec, pure, Except.pure]

theorem ArrayDisk.run_snoc (ios : List (Io Page)) (io : Io Page) (s : ArrayDisk) :
    ArrayDisk.run kmap (ios ++ [io]) s = (ArrayDisk.run kmap ios s).apply kmap io := by
  simp [ArrayDisk.run]

/-- Reads and writes within the capacity, and anything that happens to kernel memory in
between: no copy leaves the disk buffer, after every step the buffer is the array and
kernel memory what the array's reads have made of it, and each bio ends without an error
after accessing its segments and its range of the disk, and nothing else. -/
theorem makeQueue_refines (kmap : Page → Nat) (drv : Driver) (ios : List (Io Page)) (mem : Mem)
    (h : ∀ b, .bio b ∈ ios → b.InRange ∧ (b.biRw = .read ∨ b.biRw = .write)) :
    (∀ pre, pre <+: ios → ∃ d, drv.run kmap pre (Dev.init mem) = .ok d ∧
      ArrayDisk.Refines d (ArrayDisk.run kmap pre ⟨[], mem⟩)) ∧
    ∀ pre b post d, ios = pre ++ .bio b :: post → drv.run kmap pre (Dev.init mem) = .ok d →
      ∃ d', drv.myMakeQueue kmap b d = .ok (0, d') ∧ Served kmap b d d' := by
  refine ⟨fun pre => ?_, fun pre b post d hsplit _ => ?_⟩
  · induction pre using List.reverseRecOn with
    | nil => exact fun _ => ⟨_, rfl, ArrayDisk.refines_init mem⟩
    | append_singleton pre io ih =>
        rintro ⟨post, hsplit⟩
        have hsplit' : ios = pre ++ io :: post := by simpa using hsplit.symm
        obtain ⟨d, hrun, href⟩ := ih ⟨io :: post, hsplit'.symm⟩
        rw [Driver.run_snoc, hrun, ArrayDisk.run_snoc]
        cases io with
        | cpu mem' => exact ⟨_, rfl, href.disk, rfl⟩
        | bio b =>
            obtain ⟨hin, hrw⟩ := h b (by simp [hsplit'])
            obtain ⟨d', hbio, hserved⟩ := drv.myMakeQueue_spec kmap hin hrw d
            refine ⟨d', ?_, href.served hserved⟩
            simp only [Except.bind, Driver.exec, hbio]
            rfl
  · obtain ⟨hin, hrw⟩ := h b (by simp [hsplit])
    exact drv.myMakeQueue_spec kmap hin hrw d

end

/-- A bio at sector 4095 whose two segments are the halves of the page at 4096, swapped. -/
def swappedHalves (rw : BioRw) : Bio Unit where
  biSector := 4095
  biRw := rw
  biIoVec := [⟨(), 256, 256⟩, ⟨(), 256, 0⟩]

/-- It is written, the page is cleared, and it is read back. -/
def writtenAndRead : List (Io Unit) :=
  [.bio (swappedHalves .write), .cpu fun _ => 0, .bio (swappedHalves .read)]

theorem makeQueue_refines_swapped :
    ∃ d, Driver.mid.run (fun _ => 4096) writtenAndRead (Dev.init fun i => UInt8.ofNat (i % 251)) =
        .ok d ∧
      ArrayDisk.Refines d
        (ArrayDisk.run (fun _ => 4096) writtenAndRead ⟨[], fun i => UInt8.ofNat (i % 251)⟩) := by
  refine (makeQueue_refines (fun _ => 4096) .mid _ (fun i => UInt8.ofNat (i % 251))
    fun b hb => ?_).1 _ List.prefix_rfl
  simp only [writtenAndRead, List.mem_cons, Io.bio.injEq, List.not_mem_nil, or_false,
    reduceCtorEq, false_or] at hb
  rcases hb with rfl | rfl
  · exact ⟨by decide, .inr rfl⟩
  · exact ⟨by decide, .inl rfl⟩

end Block
