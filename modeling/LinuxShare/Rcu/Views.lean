-- SUMMARY: What the readers of the RCU demo print: whole updates, none older than the one before, one in each pass.
import LinuxShare.Rcu.Safety

/-!
# Views

A reader prints three values that it has read one after the other. They are always the values
of one update, each print is of an update that is not older than the one before, and each pass
between `rcu_read_lock` and `rcu_read_unlock` prints one block.
-/

namespace RcuDemo

open Rcu (Protected)

/-! ## Whose outputs -/

/-- The thread that the output is from. -/
@[simp] def Out.by : Out → Option Task
  | .info i _ _ _ | .unlocked i | .noMemory i => some i
  | .oops i => i
  | .reclaimed .. => none

section

variable {s : Sys} {i : Task} {l : Local} {p : Ptr} {e : Choice}

theorem Sys.access_by {k : Nat → Foo → Step} (hk : ∀ q foo, ∀ o ∈ (k q foo).2.2, o.by = some i) :
    ∀ o ∈ (s.access i p k).2.2, o.by = some i := by
  cases p with
  | none => simp [access, fault]
  | some q =>
      cases hq : s.heap q with
      | none => simp [access, fault, hq]
      | some foo =>
          rw [access_eq hq]
          exact hk q foo

theorem prInfo_by {within : InfoPc → Local} {after : Local} (pc : InfoPc) :
    ∀ o ∈ (prInfo i p s within after pc).2.2, o.by = some i := by
  cases pc <;> exact Sys.access_by (by simp)

theorem storeStep_by {f : Foo → Foo} : ∀ o ∈ (storeStep i p s f l).2.2, o.by = some i :=
  Sys.access_by (by simp)

theorem whileCnt_by {body : Nat → Local} (cnt : Nat) :
    ∀ o ∈ (whileCnt s cnt body).2.2, o.by = some i := by
  cases cnt <;> simp [whileCnt]

theorem kzallocStep_by {after : Ptr → Local} :
    ∀ o ∈ (kzallocStep i e s after).2.2, o.by = some i := by
  cases e <;> simp [kzallocStep]

theorem Sys.orFault_by (s' : Option Sys) : ∀ o ∈ (s.orFault i l s').2.2, o.by = some i := by
  cases s' <;> simp [orFault, fault]

/-- A thread's outputs are its own. -/
theorem act_by {st : Step} (hrole : l.Of i) (h : act i e l s = some st) :
    ∀ o ∈ st.2.2, o.by = some i := by
  cases l with
  | reader cnt pc =>
      cases hrole
      cases h
      cases pc with
      | loop => exact whileCnt_by cnt
      | info p pc => exact prInfo_by pc
      | _ => simp [rcuReader]
  | updater cnt value pc =>
      cases hrole
      cases h
      cases pc with
      | loop => exact whileCnt_by cnt
      | kzalloc => exact kzallocStep_by
      | readOld new => simp [rcuUpdater]
      | copy new old => exact Sys.access_by fun _ _ => storeStep_by
      | assign new old => simp [rcuUpdater]
      | info new old pc => exact prInfo_by pc
      | callRcu old => exact Sys.access_by (by simp)
      | _ => exact storeStep_by
  | readerList cnt pc =>
      cases hrole
      cases h
      cases pc with
      | loop => exact whileCnt_by cnt
      | info p pc => exact prInfo_by pc
      | next p => exact Sys.access_by (by simp)
      | _ => simp [rcuReaderList]
  | updaterList cnt value pc =>
      cases hrole
      cases pc with
      | wait p =>
          simp only [act, rcuUpdaterList] at h
          split at h
          · cases h
            simp
          · cases h
      | loop =>
          cases h
          exact whileCnt_by cnt
      | first =>
          cases h
          simp
      | kzalloc p =>
          cases h
          exact kzallocStep_by
      | copy p q =>
          cases h
          exact Sys.access_by fun _ _ => storeStep_by
      | replaceLinks p q =>
          cases h
          exact Sys.access_by fun _ _ => storeStep_by
      | replaceNext p q =>
          cases h
          exact Sys.access_by fun _ _ => Sys.orFault_by _
      | replacePrev p q =>
          cases h
          exact Sys.access_by fun _ _ => Sys.orFault_by _
      | info p q pc =>
          cases h
          exact prInfo_by pc
      | synchronize p =>
          cases h
          simp
      | kfree p =>
          cases h
          exact Sys.orFault_by _
      | _ =>
          cases h
          exact storeStep_by
  | returned => cases h
  | oops => cases h

end

/-! ## A reader's step -/

def Root.reader : Root → Task
  | .pointer => .reader
  | .list => .readerList

/-- The block that a reader is using. -/
def Local.using : Local → Ptr
  | .reader _ (.info p _) => p
  | .readerList _ (.info p _) => p
  | .readerList _ (.next p) => p
  | _ => none

/-- Whether a reader has printed a block in this pass. -/
def Local.shown : Local → Bool
  | .reader _ .unlock => true
  | .readerList _ (.next _) => true
  | .readerList _ .unlock => true
  | _ => false

/-- What a step of the reader of `r` can be. -/
inductive Viewed (r : Root) (s : Sys) (l : Local) : Step → Prop
  | quiet {l' : Local} (d : Rcu.Domain Task Token) (husing : l'.using = l.using)
      (hshown : l'.shown = l.shown) : Viewed r s l (l', { s with rcu := d }, [])
  | come {l' : Local} (husing : l.using = none) (husing' : l'.using = s.root r)
      (hshown : l.shown = false) (hshown' : l'.shown = false) : Viewed r s l (l', s, [])
  | print {l' : Local} {p : Nat} {foo : Foo} (husing : l.using = some p)
      (hfoo : s.heap p = some foo) (husing' : l'.using = some p ∨ l'.using = none)
      (hshown : l.shown = false) (hshown' : l'.shown = true) :
      Viewed r s l (l', s, [.info r.reader foo.a foo.b foo.c])
  | leave {l' : Local} (husing' : l'.using = none) (hshown : l.shown = true)
      (hshown' : l'.shown = true) : Viewed r s l (l', s, [])
  | unlock {l' : Local} (d : Rcu.Domain Task Token) (husing : l.using = none)
      (husing' : l'.using = none) (hshown : l.shown = true) (hshown' : l'.shown = false) :
      Viewed r s l (l', { s with rcu := d }, [.unlocked r.reader])

section

variable {life life' : Life} {s s' : Sys} {i : Task} {l : Local} {r : Root} {p : Nat} {foo : Foo}
  {cnt : Nat} {e : Choice}

theorem rcuReader_viewed {pc : ReaderPc} (ho : Owns life .reader (.reader cnt pc) s) :
    Viewed .pointer s (.reader cnt pc) (rcuReader cnt s pc) := by
  cases pc with
  | loop => cases cnt <;> exact .quiet s.rcu rfl rfl
  | lock => exact .quiet _ rfl rfl
  | dereference => exact .come rfl rfl rfl rfl
  | info p pc =>
      rw [rcuReader]
      obtain ⟨pc', hstep, -⟩ | ⟨foo, hstep, q, rfl, hfoo, -⟩ := Using.prInfo_cases ho.reads
        (fun pc => .reader cnt (.info p pc)) (.reader cnt .unlock)
      · rw [hstep]
        exact .quiet s.rcu rfl rfl
      · rw [hstep]
        exact .print rfl hfoo (.inr rfl) rfl rfl
  | unlock => exact .unlock _ rfl rfl rfl rfl

theorem rcuReaderList_viewed {pc : ReaderListPc} (hs : Sound life s)
    (ho : Owns life .readerList (.readerList cnt pc) s) :
    Viewed .list s (.readerList cnt pc) (rcuReaderList cnt s pc) := by
  cases pc with
  | loop => cases cnt <;> exact .quiet s.rcu rfl rfl
  | lock => exact .quiet _ rfl rfl
  | first =>
      obtain ⟨p, hvisit, hp⟩ := hs.visit_listNext
      rw [rcuReaderList, hvisit]
      exact .come rfl hp.symm rfl rfl
  | info p pc =>
      rw [rcuReaderList]
      obtain ⟨pc', hstep, -⟩ | ⟨foo, hstep, q, rfl, hfoo, -⟩ := Using.prInfo_cases
        ho.reads (fun pc => .readerList cnt (.info p pc)) (.readerList cnt (.next p))
      · rw [hstep]
        exact .quiet s.rcu rfl rfl
      · rw [hstep]
        exact .print rfl hfoo (.inl rfl) rfl rfl
  | next p =>
      obtain ⟨q, foo, rfl, hfoo, hnext⟩ := Using.next hs ho.reads
      rw [rcuReaderList, Sys.access_eq hfoo, hnext]
      exact .leave rfl rfl rfl
  | unlock => exact .unlock _ rfl rfl rfl rfl

theorem act_viewed {st : Step} (hs : Sound life s) (ho : Owns life r.reader l s)
    (h : act r.reader e l s = some st) : Viewed r s l st := by
  have hrole := ho.role
  cases l with
  | reader cnt pc =>
      obtain rfl : r = .pointer := by cases r <;> first | rfl | cases hrole
      cases h
      exact rcuReader_viewed ho
  | readerList cnt pc =>
      obtain rfl : r = .list := by cases r <;> first | rfl | cases hrole
      cases h
      exact rcuReaderList_viewed hs ho
  | updater cnt value pc => cases r <;> cases hrole
  | updaterList cnt value pc => cases r <;> cases hrole
  | returned => cases h
  | oops => cases h

/-- What a reader is using is a whole update, and not newer than the newest one. -/
theorem Owns.using (hs : Sound life s) (ho : Owns life r.reader l s) (h : l.using = some p) :
    ∃ foo, s.heap p = some foo ∧ Protected s.rcu life r.reader r p ∧ Whole foo.a foo.b foo.c ∧
      foo.a ≤ s.top r := by
  have hreads : ∃ pc, Using life s r.reader r (some p) pc := by
    have hrole := ho.role
    have hreads := ho.reads
    cases l with
    | reader cnt pc =>
        obtain rfl : r = .pointer := by cases r <;> first | rfl | cases hrole
        cases pc with
        | info q pc =>
            cases h
            exact ⟨pc, hreads⟩
        | _ => cases h
    | readerList cnt pc =>
        obtain rfl : r = .list := by cases r <;> first | rfl | cases hrole
        cases pc with
        | info q pc =>
            cases h
            exact ⟨pc, hreads⟩
        | next q =>
            cases h
            exact ⟨.a, hreads⟩
        | _ => cases h
    | _ => cases h
  obtain ⟨pc, q, foo, hq, hprot, hfoo, -⟩ := hreads
  cases hq
  obtain ⟨st, hlife, hst⟩ := id hprot
  have hfits := hs.fits p foo r st hfoo hlife (by rintro rfl; exact hst)
  exact ⟨foo, hfoo, hprot, hfits.1.whole, hfits.2⟩

/-! ## Runs -/

/-- The values of `a` that a thread prints. -/
@[simp] def Out.shownBy (i : Task) : Out → List Int
  | .info j a _ _ => if j = i then [a] else []
  | _ => []

/-- One for each block that a thread prints. -/
@[simp] def Out.printBy (i : Task) : Out → List Unit
  | .info j _ _ _ => if j = i then [()] else []
  | _ => []

/-- One for each pass that a thread completes. -/
@[simp] def Out.passBy (i : Task) : Out → List Unit
  | .unlocked j => if j = i then [()] else []
  | _ => []

/-- The value that the reader of `r` prints, if it prints the block that it is using, or comes
by one now. -/
def view (r : Root) (l : Local) (s : Sys) : Int :=
  match l.using with
  | some q =>
    match s.heap q with
    | some foo => foo.a
    | none => 0
  | none => s.top r

theorem view_using (h : l.using = some p) (hfoo : s.heap p = some foo) : view r l s = foo.a := by
  simp only [view, h, hfoo]

theorem view_none (h : l.using = none) : view r l s = s.top r := by
  simp only [view, h]

theorem view_rcu {l' : Local} (h : l'.using = l.using) (d : Rcu.Domain Task Token) :
    view r l' { s with rcu := d } = view r l s := by
  simp only [view, h, Sys.top_rcu]

/-- A step that is not the reader's. -/
theorem view_le (hs : Sound life s) (ho : Owns life r.reader l s)
    (hu : Unseen life s life' s' r.reader) (htop : s.top r ≤ s'.top r) :
    view r l s ≤ view r l s' := by
  cases husing : l.using with
  | none => rwa [view_none husing, view_none husing]
  | some q =>
      obtain ⟨foo, hfoo, hprot, -, -⟩ := ho.using hs husing
      obtain ⟨-, foo', hfoo', ha, -⟩ := hu.reads r q foo hprot hfoo
      rw [view_using husing hfoo, view_using husing hfoo', ha]

/-- The reader's own step. -/
theorem Viewed.view_le {st : Step} (hs : Sound life s) (ho : Owns life r.reader l s)
    (h : Viewed r s l st) :
    view r l s ≤ view r st.1 st.2.1 ∧ (st.2.2.flatMap (Out.shownBy r.reader)).Pairwise (· ≤ ·) ∧
      ∀ v ∈ st.2.2.flatMap (Out.shownBy r.reader), view r l s ≤ v ∧ v ≤ view r st.1 st.2.1 := by
  cases h with
  | quiet d husing _ =>
      exact ⟨(view_rcu husing d).ge, by simp, by simp⟩
  | come husing husing' _ _ =>
      refine ⟨?_, by simp, by simp⟩
      obtain ⟨q, foo, hq, -, hfoo, htop⟩ := hs.exists_root r
      rw [view_none husing, view_using (husing'.trans hq) hfoo, htop]
  | @print l' q foo husing hfoo husing' _ _ =>
      obtain ⟨foo', hfoo', -, -, htop⟩ := ho.using hs husing
      obtain rfl : foo = foo' := Option.some.inj (hfoo.symm.trans hfoo')
      have hafter : foo.a ≤ view r l' s := by
        rcases husing' with h | h
        · exact (view_using h hfoo).ge
        · exact htop.trans (view_none h).ge
      refine ⟨(view_using husing hfoo).trans_le hafter, by simp, ?_⟩
      simpa using ⟨(view_using husing hfoo).le, hafter⟩
  | leave husing' _ _ =>
      refine ⟨?_, by simp, by simp⟩
      rw [view_none husing']
      cases husing : l.using with
      | none => exact (view_none husing).le
      | some q =>
          obtain ⟨foo, hfoo, -, -, htop⟩ := ho.using hs husing
          exact (view_using husing hfoo).trans_le htop
  | unlock d husing husing' _ _ =>
      exact ⟨(view_rcu (husing'.trans husing.symm) d).ge, by simp, by simp⟩

/-- The outputs of the other threads show nothing of this one's. -/
theorem flatMap_by {B : Type} {f : Out → List B} {os : List Out} {j : Option Task}
    (hf : ∀ o, o.by ≠ some i → f o = []) (hos : ∀ o ∈ os, o.by = j) (hj : j ≠ some i) :
    os.flatMap f = [] :=
  List.flatMap_eq_nil_iff.mpr fun o ho => hf o ((hos o ho).symm ▸ hj)

theorem Out.shownBy_eq_nil {o : Out} (h : o.by ≠ some i) : o.shownBy i = [] := by
  cases o <;> simp_all

theorem Out.printBy_eq_nil {o : Out} (h : o.by ≠ some i) : o.printBy i = [] := by
  cases o <;> simp_all

theorem Out.passBy_eq_nil {o : Out} (h : o.by ≠ some i) : o.passBy i = [] := by
  cases o <;> simp_all

/-- The block that a reader has printed in this pass. -/
def Local.printed (l : Local) : List Unit := if l.shown = true then [()] else []

theorem Viewed.printed {st : Step} (h : Viewed r s l st) :
    l.printed ++ st.2.2.flatMap (Out.printBy r.reader) =
      st.2.2.flatMap (Out.passBy r.reader) ++ st.1.printed := by
  cases h with
  | quiet d _ hshown => simp [Local.printed, hshown]
  | come _ _ hshown hshown' => simp [Local.printed, hshown, hshown']
  | print _ _ _ hshown hshown' => simp [Local.printed, hshown, hshown']
  | leave _ hshown hshown' => simp [Local.printed, hshown, hshown']
  | unlock d _ _ hshown hshown' => simp [Local.printed, hshown, hshown']

/-- What one step is for the reader of `r`: its own, or one that it does not see. -/
theorem step_reader (r : Root) (ev : Event) {p : Pool.Config Task Sys Local} (h : Owned p) :
    ∃ life, Sound life p.shared ∧ Owns life r.reader (p.locals r.reader) p.shared ∧
      (Viewed r p.shared (p.locals r.reader)
          ((step ev p).1.locals r.reader, (step ev p).1.shared, (step ev p).2) ∨
        (step ev p).1.locals r.reader = p.locals r.reader ∧
          (∃ life', Unseen life p.shared life' (step ev p).1.shared r.reader) ∧
          p.shared.top r ≤ (step ev p).1.shared.top r ∧
          ∃ j, j ≠ some r.reader ∧ ∀ o ∈ (step ev p).2, o.by = j) := by
  obtain ⟨life, hp⟩ := h
  refine ⟨life, hp.shared, hp.locals r.reader, ?_⟩
  obtain ⟨i, e, l, s, os, -, hact, hstep⟩ | ⟨f, s, os, -, hf, hstep⟩ | hstep :=
    Pool.step_cases act rcuReclaimer ev p
  · rw [step, hstep]
    by_cases hi : i = r.reader
    · subst hi
      left
      simpa only [Function.update_self] using act_viewed hp.shared (hp.locals r.reader) hact
    · right
      obtain ⟨⟨life', -, -, hunseen, -, htop⟩, -, -⟩ := act_good hp.shared (hp.locals i) hact
      refine ⟨Function.update_of_ne (Ne.symm hi) .., ⟨life', hunseen _ (Ne.symm hi)⟩, htop r,
        some i, by simpa using hi, act_by (hp.locals i).role hact⟩
  · right
    rw [step, hstep]
    obtain ⟨life', -, hunseen, hapart⟩ := rcuReclaimer_keeps hp.shared hf
    obtain ⟨foo, -, -, -, rfl, -⟩ := rcuReclaimer_cases hp.shared hf
    exact ⟨rfl, ⟨life', hunseen _⟩, (hapart r).top.ge, none, by simp, by simp⟩
  · right
    rw [step, hstep]
    exact ⟨rfl, ⟨life, unseen_refl _⟩, le_rfl, none, by simp, by simp⟩

/-- In every run, each of the two readers prints values that ascend: none is of an update older
than the one before. -/
theorem views_ascend (r : Root) (es : List Event) :
    ((trace es).flatMap (Out.shownBy r.reader)).Pairwise (· ≤ ·) := by
  refine (Machine.ascending (fun p => view r (p.locals r.reader) p.shared)
    (fun ev p hp => owned_step ev hp) (fun ev p hp => ?_) es owned_start).1
  obtain ⟨life, hs, ho, hview | ⟨hlocal, ⟨life', hunseen⟩, htop, j, hj, hby⟩⟩ :=
    step_reader r ev hp
  · exact hview.view_le hs ho
  · rw [hlocal, flatMap_by (fun o => Out.shownBy_eq_nil) hby hj]
    exact ⟨view_le hs ho hunseen htop, by simp, by simp⟩

/-- In every run, each of the two readers has printed one block for each pass that it has
completed, and one more if it has printed one in the present pass. -/
theorem one_block_each_pass (r : Root) (es : List Event) :
    (trace es).flatMap (Out.printBy r.reader) =
      (trace es).flatMap (Out.passBy r.reader) ++ ((run es).locals r.reader).printed := by
  have hstep : ∀ ev p, Owned p →
      (p.locals r.reader).printed ++ (step ev p).2.flatMap (Out.printBy r.reader) =
        (step ev p).2.flatMap (Out.passBy r.reader) ++
          ((step ev p).1.locals r.reader).printed := by
    intro ev p hp
    obtain ⟨life, hs, ho, hview | ⟨hlocal, -, -, j, hj, hby⟩⟩ := step_reader r ev hp
    · exact hview.printed
    · rw [flatMap_by (fun o => Out.printBy_eq_nil) hby hj,
        flatMap_by (fun o => Out.passBy_eq_nil) hby hj, hlocal, List.append_nil, List.nil_append]
  have hstart : (start.locals r.reader).printed = [] := by cases r <;> rfl
  have h := Machine.passed_on (fun ev p hp => owned_step ev hp) hstep es owned_start
  rwa [hstart, List.nil_append] at h

/-- Every print of a reader, and of the reclaimer, shows one update as a whole. -/
@[simp] def Out.Consistent : Out → Prop
  | .info i a b c => i = .reader ∨ i = .readerList → Whole a b c
  | .reclaimed a b c => Whole a b c
  | _ => True

theorem Viewed.consistent {st : Step} (hs : Sound life s) (ho : Owns life r.reader l s)
    (h : Viewed r s l st) : ∀ o ∈ st.2.2, o.Consistent := by
  cases h with
  | print husing hfoo _ _ _ =>
      obtain ⟨foo', hfoo', -, hwhole, -⟩ := ho.using hs husing
      obtain rfl := Option.some.inj (hfoo'.symm.trans hfoo)
      simpa using fun _ => hwhole
  | _ => simp

theorem Out.consistent_of_by {o : Out} (h : o.by = some i) (hr : i ≠ .reader)
    (hl : i ≠ .readerList) : o.Consistent := by
  cases o <;> simp_all

/-- In every run, what a reader prints are the values of one update, although it reads them one
after the other while the updater publishes others. -/
theorem views_whole (es : List Event) : ∀ o ∈ trace es, o.Consistent := by
  refine (Machine.inv_run (I := Owned) (fun ev p hp => ⟨owned_step ev hp, ?_⟩) es owned_start).2
  obtain ⟨life, hp⟩ := hp
  obtain ⟨i, e, l, s, os, -, hact, hstep⟩ | ⟨f, s, os, -, hf, hstep⟩ | hstep :=
    Pool.step_cases act rcuReclaimer ev p
  · rw [step, hstep]
    have ho := hp.locals i
    by_cases hr : ∃ r : Root, i = r.reader
    · obtain ⟨r, rfl⟩ := hr
      exact (act_viewed hp.shared ho hact).consistent hp.shared ho
    · refine fun o hmem => Out.consistent_of_by (act_by ho.role hact o hmem) ?_ ?_
      · rintro rfl
        exact hr ⟨.pointer, rfl⟩
      · rintro rfl
        exact hr ⟨.list, rfl⟩
  · rw [step, hstep]
    obtain ⟨foo, hfoo, hlife, -, rfl, -⟩ := rcuReclaimer_cases hp.shared hf
    simpa using (hp.shared.fits f foo _ _ hfoo hlife (by simp)).1.whole
  · rw [step, hstep]
    simp

/-- The reader has come by the first block when the updater replaces it. -/
def overtaken : List Event :=
  List.replicate 3 (.inl (.reader, .go)) ++ List.replicate 13 (.inl (.updater, .go)) ++ [.inr 0] ++
    List.replicate 4 (.inl (.reader, .go)) ++ [.inr 0]

theorem whole_while_updated :
    .info .reader 0 0 0 ∈ trace overtaken ∧ (Out.info .reader 0 0 0).Consistent :=
  ⟨by decide, views_whole overtaken (.info .reader 0 0 0) (by decide)⟩

/-- It prints that block, and the callback runs only after it has left. -/
example : trace overtaken =
    [.info .updater 1 2 3, .info .reader 0 0 0, .unlocked .reader, .reclaimed 0 0 0] := rfl

end

end RcuDemo
