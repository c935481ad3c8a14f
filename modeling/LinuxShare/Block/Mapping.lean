-- SUMMARY: The pages that my_make_queue maps (blk_mid.c, blk_hard.c), and the end of the bio, on every path out.
import LinuxShare.Block.MakeQueue
import Mathlib.Data.Multiset.AddSub

/-!
# kmap and kunmap

Each segment's page is mapped before the `switch` and unmapped by its branches. The
branch for bios that are neither read nor written ends the bio and returns, and does
not unmap the page.
-/

namespace Block

open Bytes

/-- The calls of `my_make_queue` that must be paired, or made once. -/
inductive Call (Page : Type) where
  | kmap (page : Page)
  | kunmap (page : Page)
  | bioEndio (error : Int)
  deriving DecidableEq

section

variable {Page : Type}

/-- What `bio_endio` is given, call by call. -/
def endings (calls : List (Call Page)) : List Int :=
  calls.filterMap fun
    | .bioEndio error => some error
    | _ => none

/-- `segmentLoop` with the calls that it makes. -/
def segmentCalls (kmap : Page → Nat) (copy : Option (Dev → Nat → Nat → Nat → Except Fault Dev)) :
    List (BioVec Page) → Nat → Dev → Except Fault (List (Call Page) × Dev)
  | [], _, d => .ok ([.bioEndio 0], d)
  | v :: vs, base, d =>
    match copy with
    | some copy => do
      let d ← copy d (kmap v.bvPage + v.bvOffset) base v.bvLen
      let (calls, d) ← segmentCalls kmap (some copy) vs (base + v.bvLen) d
      .ok (.kmap v.bvPage :: .kunmap v.bvPage :: calls, d)
    | none => .ok ([.kmap v.bvPage, .bioEndio (-eio)], d)

/-- The `case` that `bio_rw(bio)` selects, if it is not the default. -/
def BlkHard.caseOf : BioRw → Option (Dev → Nat → Nat → Nat → Except Fault Dev)
  | .reada | .read => some Dev.fromDisk
  | .write => some Dev.toDisk
  | .other => none

def BlkMid.caseOf : BioRw → Option (Dev → Nat → Nat → Nat → Except Fault Dev)
  | .read => some fun d => Dev.fromDisk (BlkMid.printRead d)
  | .write => some fun d => Dev.toDisk (BlkMid.printWrite d)
  | .reada | .other => none

def Driver.caseOf : Driver → BioRw → Option (Dev → Nat → Nat → Nat → Except Fault Dev)
  | mid => BlkMid.caseOf
  | hard => BlkHard.caseOf

/-- `my_make_queue` with the calls that it makes. -/
def Driver.myMakeQueueCalls (drv : Driver) (kmap : Page → Nat) (bio : Bio Page) (d : Dev) :
    Except Fault (List (Call Page) × Dev) :=
  segmentCalls kmap (drv.caseOf bio.biRw) bio.biIoVec (bio.biSector <<< 9) d

/-! ## The same program -/

theorem segmentLoop_eq (kmap : Page → Nat) (copy : Option (Dev → Nat → Nat → Nat → Except Fault Dev))
    (vs : List (BioVec Page)) (base : Nat) (d : Dev) :
    segmentLoop kmap copy vs base d =
      (segmentCalls kmap copy vs base d).map fun x => ((endings x.1).headD 0, x.2) := by
  induction vs generalizing base d with
  | nil => rfl
  | cons v vs ih =>
      cases copy with
      | none => rfl
      | some copy =>
          rw [segmentLoop, segmentCalls]
          cases hcopy : copy d (kmap v.bvPage + v.bvOffset) base v.bvLen with
          | error e => rfl
          | ok d' =>
              simp only [bind, Except.bind, ih]
              cases hrest : segmentCalls kmap (some copy) vs (base + v.bvLen) d' with
              | error e => rfl
              | ok x => rfl

/-- Without its calls it is the function that is known to be an array of bytes. -/
theorem Driver.myMakeQueue_eq (drv : Driver) (kmap : Page → Nat) (b : Bio Page) (d : Dev) :
    drv.myMakeQueue kmap b d =
      (drv.myMakeQueueCalls kmap b d).map fun x => ((endings x.1).headD 0, x.2) := by
  rw [Driver.myMakeQueueCalls, ← segmentLoop_eq]
  cases drv with
  | mid => cases b with | mk sector rw vecs => cases rw <;> rfl
  | hard => cases b with | mk sector rw vecs => cases rw <;> rfl

/-! ## Pages and paths out -/

/-- The driver serves bios of the direction. -/
def Driver.Serves : Driver → BioRw → Prop
  | mid, rw => rw = .read ∨ rw = .write
  | hard, rw => rw = .read ∨ rw = .reada ∨ rw = .write

variable {kmap : Page → Nat} {b : Bio Page} {d d' : Dev} {calls : List (Call Page)} {drv : Driver}

theorem Driver.serves_iff :
    drv.Serves b.biRw ↔ ∃ copy, drv.caseOf b.biRw = some copy := by
  cases drv with
  | mid => cases hrw : b.biRw <;> simp [Driver.Serves, Driver.caseOf, BlkMid.caseOf]
  | hard => cases hrw : b.biRw <;> simp [Driver.Serves, Driver.caseOf, BlkHard.caseOf]

/-- The default branch leaves the page of the first segment mapped. -/
theorem myMakeQueueCalls_default {v : BioVec Page} {vs : List (BioVec Page)}
    (hserves : ¬ drv.Serves b.biRw) (hvecs : b.biIoVec = v :: vs) :
    drv.myMakeQueueCalls kmap b d = .ok ([.kmap v.bvPage, .bioEndio (-eio)], d) := by
  have hnone : drv.caseOf b.biRw = none := by
    rw [Driver.serves_iff] at hserves
    exact Option.eq_none_iff_forall_ne_some.mpr fun copy hcopy => hserves ⟨copy, hcopy⟩
  rw [Driver.myMakeQueueCalls, hnone, hvecs]
  rfl

/-- Inside the disk there is always a path out. -/
theorem exists_path_out (drv : Driver) (kmap : Page → Nat) (hin : b.InRange) (d : Dev) :
    ∃ calls d', drv.myMakeQueueCalls kmap b d = .ok (calls, d') := by
  have hrun : ∃ x, drv.myMakeQueue kmap b d = .ok x := by
    by_cases hempty : b.biIoVec = []
    · rw [Driver.myMakeQueue_eq, Driver.myMakeQueueCalls, hempty]
      exact ⟨_, rfl⟩
    · obtain ⟨v, vs, hvecs⟩ := List.exists_cons_of_ne_nil hempty
      by_cases hserves : drv.Serves b.biRw
      · cases drv with
        | mid =>
            obtain ⟨d', hd', _⟩ : ∃ d', BlkMid.myMakeQueue kmap b d = .ok (0, d') ∧ Served kmap b d d' :=
              BlkMid.myMakeQueue_spec hin hserves d
            exact ⟨_, hd'⟩
        | hard =>
            have hrw : b.biRw ≠ .other := by
              rcases hserves with h | h | h <;> rw [h] <;> decide
            obtain ⟨d', hd', _⟩ := BlkHard.myMakeQueue_spec kmap hin hrw d
            exact ⟨_, hd'⟩
      · rw [Driver.myMakeQueue_eq, myMakeQueueCalls_default hserves hvecs]
        exact ⟨_, rfl⟩
  obtain ⟨x, hx⟩ := hrun
  rw [Driver.myMakeQueue_eq] at hx
  cases hcalls : drv.myMakeQueueCalls kmap b d with
  | error e =>
      rw [hcalls] at hx
      cases hx
  | ok y => exact ⟨y.1, y.2, rfl⟩

section Mapped

variable [DecidableEq Page]

/-- The pages that are mapped after a call; there is none after a `kunmap` of a page that is
not mapped. -/
def mapped (pages : Multiset Page) : Call Page → Option (Multiset Page)
  | .kmap page => some (page ::ₘ pages)
  | .kunmap page => if page ∈ pages then some (pages.erase page) else none
  | .bioEndio _ => some pages

/-- Each `kmap` is matched by one later `kunmap` of the page, and each `kunmap` by a `kmap`. -/
def Matched (calls : List (Call Page)) : Prop := calls.foldlM mapped 0 = some 0

instance (calls : List (Call Page)) : Decidable (Matched calls) := inferInstanceAs (Decidable (_ = _))

theorem Matched.cons_pair {calls : List (Call Page)} (h : Matched calls) (page : Page) :
    Matched (.kmap page :: .kunmap page :: calls) := by
  simpa [Matched, mapped] using h

theorem not_matched_of_left (page : Page) (error : Int) :
    ¬ Matched [Call.kmap page, .bioEndio error] := by
  simp [Matched, mapped]

/-- What is expected of every path out of `my_make_queue`. -/
structure CleanExit (kmap : Page → Nat) (b : Bio Page) (d : Dev) (calls : List (Call Page)) (d' : Dev) :
    Prop where
  matched : Matched calls
  endedOnce : (endings calls).length = 1
  untouched : -eio ∈ endings calls →
    d'.disk = d.disk ∧ ∀ e ∈ b.extents kmap, ∀ i, e.Covers i → d'.mem i = d.mem i

/-- The branches that copy unmap what has been mapped, segment by segment. -/
theorem segmentCalls_some {copy : Dev → Nat → Nat → Nat → Except Fault Dev} {vs : List (BioVec Page)}
    {base : Nat} (h : segmentCalls kmap (some copy) vs base d = .ok (calls, d')) :
    Matched calls ∧ endings calls = [0] := by
  induction vs generalizing base d calls with
  | nil =>
      cases h
      exact ⟨rfl, rfl⟩
  | cons v vs ih =>
      rw [segmentCalls] at h
      cases hcopy : copy d (kmap v.bvPage + v.bvOffset) base v.bvLen with
      | error e =>
          rw [hcopy] at h
          cases h
      | ok d₁ =>
          simp only [hcopy, bind, Except.bind] at h
          cases hrest : segmentCalls kmap (some copy) vs (base + v.bvLen) d₁ with
          | error e =>
              rw [hrest] at h
              cases h
          | ok x =>
              rw [hrest] at h
              cases h
              obtain ⟨hmatched, hend⟩ := ih hrest
              exact ⟨hmatched.cons_pair v.bvPage, hend⟩

theorem cleanExit_of_served (hserves : drv.Serves b.biRw)
    (h : drv.myMakeQueueCalls kmap b d = .ok (calls, d')) : CleanExit kmap b d calls d' := by
  obtain ⟨copy, hcopy⟩ := Driver.serves_iff.mp hserves
  rw [Driver.myMakeQueueCalls, hcopy] at h
  obtain ⟨hmatched, hend⟩ := segmentCalls_some h
  refine ⟨hmatched, by simp [hend], fun heio => ?_⟩
  rw [hend] at heio
  exact absurd heio (by decide)

theorem cleanExit_of_empty (hempty : b.biIoVec = [])
    (h : drv.myMakeQueueCalls kmap b d = .ok (calls, d')) : CleanExit kmap b d calls d' := by
  rw [Driver.myMakeQueueCalls, hempty, segmentCalls] at h
  cases h
  exact ⟨rfl, rfl, fun heio => absurd heio (by simp [endings, eio])⟩

/-- On every path out the pages are unmapped, the bio is ended once and a refused one has
changed nothing, if and only if the driver serves the direction or there is no segment. -/
theorem cleanExit_iff_served (drv : Driver) (kmap : Page → Nat) (b : Bio Page) (d : Dev) :
    (b.InRange → ∃ calls d', drv.myMakeQueueCalls kmap b d = .ok (calls, d')) ∧
    ((∀ calls d', drv.myMakeQueueCalls kmap b d = .ok (calls, d') → CleanExit kmap b d calls d') ↔
      drv.Serves b.biRw ∨ b.biIoVec = []) := by
  refine ⟨fun hin => exists_path_out drv kmap hin d, ?_, ?_⟩
  · intro hclean
    by_contra hnot
    obtain ⟨hserves, hempty⟩ := not_or.mp hnot
    obtain ⟨v, vs, hvecs⟩ := List.exists_cons_of_ne_nil hempty
    exact not_matched_of_left v.bvPage (-eio)
      (hclean _ _ (myMakeQueueCalls_default hserves hvecs)).matched
  · rintro (hserves | hempty) calls d' hrun
    · exact cleanExit_of_served hserves hrun
    · exact cleanExit_of_empty hempty hrun

end Mapped

end

/-- A bio of one segment. -/
def oneSegment (rw : BioRw) : Bio Unit where
  biSector := 0
  biRw := rw
  biIoVec := [⟨(), 512, 0⟩]

theorem cleanExit_iff_served_write : ∃ calls d',
    Driver.hard.myMakeQueueCalls (fun _ => 4096) (oneSegment .write) (.init fun _ => 7) = .ok (calls, d') :=
  (cleanExit_iff_served .hard (fun _ => 4096) (oneSegment .write) (.init fun _ => 7)).1 (by decide)

/-- blk_mid ends a read-ahead bio with its page still mapped. -/
theorem reada_left_mapped :
    (Driver.mid.myMakeQueueCalls (fun _ => 4096) (oneSegment .reada) (.init fun _ => 7)).map Prod.fst =
      .ok [.kmap (), .bioEndio (-eio)] ∧
    ¬ ∀ calls d', Driver.mid.myMakeQueueCalls (fun _ => 4096) (oneSegment .reada) (.init fun _ => 7) =
      .ok (calls, d') → CleanExit (fun _ => 4096) (oneSegment .reada) (.init fun _ => 7) calls d' := by
  refine ⟨rfl, fun hclean => ?_⟩
  exact not_matched_of_left () (-eio) (hclean _ _ rfl).matched

end Block
