-- SUMMARY: The steps of the RCU demo keep what every thread owns, so that no block is used after it was freed.
import LinuxShare.Rcu.Ownership

/-!
# Safety

Every step of a thread keeps what it owns and knows, and what the others do. An access that
finds nothing is one through a pointer that `kzalloc` has returned as `NULL`.
-/

namespace RcuDemo

open Rcu (Protected)

/-- `kzalloc` has given the thread no memory. -/
@[simp] def Local.starved : Local → Bool
  | .updater _ _ (.readOld none) | .updater _ _ (.copy none _) => true
  | .updaterList _ _ (.copy _ none) => true
  | .oops => true
  | _ => false

/-- What a step of thread `i` from `l` comes to. -/
structure Good (life : Life) (s : Sys) (i : Task) (l : Local) (st : Step) : Prop where
  keeps : Keeps life s i st.1 st.2.1
  oops : ∀ j, .oops j ∈ st.2.2 → j = some i ∧ l.starved = true
  starved : st.1.starved = true → l.starved = true ∨ .noMemory i ∈ st.2.2

section

variable {life life' : Life} {s s' : Sys} {i j : Task} {l l' : Local} {r : Root} {p q : Nat}
  {foo : Foo} {cnt : Nat} {value : Int} {ptr : Ptr} {k : Nat → Foo → Step}

theorem Good.of_keeps {os : List Out} (h : Keeps life s i l' s') (hstarved : l'.starved = false)
    (hos : ∀ j, .oops j ∉ os) : Good life s i l (l', s', os) where
  keeps := h
  oops := fun j hj => absurd hj (hos j)
  starved := fun hl => absurd (hstarved.symm.trans hl) Bool.false_ne_true

theorem Sys.access_eq (hfoo : s.heap p = some foo) : s.access i (some p) k = k p foo := by
  simp only [access, hfoo]

/-! ## The readers -/

theorem Owns.of_reader (hi : i = .reader ∨ i = .readerList) (hrole : l.Of i)
    (hinside : i ∈ s.rcu.readers ↔ l.inside = true) (hreads : l.Reads life s i) :
    Owns life i l s where
  role := hrole
  inside := hinside
  reads := hreads
  hand := by
    rintro r rfl
    cases r <;> simp [Root.updater] at hi
  knows := by
    cases l <;> simp_all
  waits := by
    rintro rfl
    simp at hi

theorem Keeps.lock (hs : Sound life s) (ho : Owns life i l { s with rcu := s.rcu.lock i }) :
    Keeps life s i l { s with rcu := s.rcu.lock i } :=
  ⟨life, hs.lock i, ho, fun j hj => unseen_lock j i hj,
    fun r _ => apart_rcu (s.rcu.lock i) Iff.rfl r, fun _ => (Sys.top_rcu _).ge⟩

theorem Keeps.unlock (hs : Sound life s) (ho : Owns life i l { s with rcu := s.rcu.unlock i }) :
    Keeps life s i l { s with rcu := s.rcu.unlock i } :=
  ⟨life, hs.unlock i, ho, fun j hj => unseen_unlock j i hj,
    fun r _ => apart_rcu _ Rcu.Domain.unlock_waits_eq_none r, fun _ => (Sys.top_rcu _).ge⟩

/-- What a reader comes by at a root. -/
theorem Sound.using_root (hs : Sound life s) (hi : i ∈ s.rcu.readers) (r : Root) :
    Using life s i r (s.root r) .a := by
  obtain ⟨p, foo, hp, hlife, hfoo, -⟩ := hs.exists_root r
  exact ⟨p, foo, hp, ⟨.linked, hlife, hi⟩, hfoo, trivial⟩

/-- What `pr_info` comes to for a reader. -/
theorem Using.prInfo_cases {pc : InfoPc} (h : Using life s i r ptr pc)
    (within : InfoPc → Local) (after : Local) :
    (∃ pc', prInfo i ptr s within after pc = (within pc', s, []) ∧ Using life s i r ptr pc') ∨
      ∃ foo, prInfo i ptr s within after pc = (after, s, [.info i foo.a foo.b foo.c]) ∧
        ∃ p, ptr = some p ∧ s.heap p = some foo ∧ Protected s.rcu life i r p := by
  obtain ⟨p, foo, rfl, hprot, hfoo, hseen⟩ := h
  cases pc with
  | a =>
      refine .inl ⟨.b foo.a, ?_, p, foo, rfl, hprot, hfoo, rfl⟩
      rw [prInfo, Sys.access_eq hfoo]
  | b x =>
      refine .inl ⟨.c x foo.b, ?_, p, foo, rfl, hprot, hfoo, hseen, rfl⟩
      rw [prInfo, Sys.access_eq hfoo]
  | c x y =>
      obtain ⟨rfl, rfl⟩ := hseen
      refine .inr ⟨foo, ?_, p, rfl, hfoo, hprot⟩
      rw [prInfo, Sys.access_eq hfoo]

theorem Keeps.reader (hs : Sound life s) (ho : Owns life i l s)
    (hi : i = .reader ∨ i = .readerList) (l' : Local) (hrole : l'.Of i)
    (hinside : l'.inside = l.inside) (hreads : l'.Reads life s i) :
    Keeps life s i l' s :=
  .refl hs (.of_reader hi hrole (hinside ▸ ho.inside) hreads)

theorem rcuReader_good {pc : ReaderPc} (hs : Sound life s)
    (ho : Owns life .reader (.reader cnt pc) s) :
    Good life s .reader (.reader cnt pc) (rcuReader cnt s pc) := by
  have hkeeps := Keeps.reader hs ho (.inl rfl)
  cases pc with
  | loop =>
      cases cnt with
      | zero => exact .of_keeps (hkeeps .returned trivial rfl trivial) rfl (by simp)
      | succ cnt => exact .of_keeps (hkeeps (.reader cnt .lock) rfl rfl trivial) rfl (by simp)
  | lock =>
      exact .of_keeps (.lock hs (.of_reader (.inl rfl) rfl (by simp) trivial)) rfl (by simp)
  | dereference =>
      have husing := hs.using_root (ho.inside.mpr rfl) .pointer
      exact .of_keeps (hkeeps (.reader cnt (.info s.gPfoo .a)) rfl rfl husing) rfl (by simp)
  | info p pc =>
      rw [rcuReader]
      obtain ⟨pc', hstep, husing⟩ | ⟨foo, hstep, -⟩ := Using.prInfo_cases ho.reads
        (fun pc => .reader cnt (.info p pc)) (.reader cnt .unlock)
      · rw [hstep]
        exact .of_keeps (hkeeps _ rfl rfl husing) rfl (by simp)
      · rw [hstep]
        exact .of_keeps (hkeeps _ rfl rfl trivial) rfl (by simp)
  | unlock =>
      exact .of_keeps (.unlock hs (.of_reader (.inl rfl) rfl (by simp) trivial)) rfl (by simp)

/-- What the list reader comes by at the head of the list. -/
theorem Sound.visit_listNext (hs : Sound life s) :
    ∃ p, ReaderListPc.visit s.listNext = .info (some p) .a ∧ s.root .list = some p := by
  obtain ⟨p, -, hp, -⟩ := hs.exists_root .list
  rw [Sys.listNext_of_root hp]
  exact ⟨p, rfl, hp⟩

/-- The block that a reader of the list is using is the last one. -/
theorem Using.next {pc : InfoPc} (hs : Sound life s) (h : Using life s i .list ptr pc) :
    ∃ p foo, ptr = some p ∧ s.heap p = some foo ∧ foo.next = .head := by
  obtain ⟨p, foo, rfl, ⟨st, hlife, hst⟩, hfoo, -⟩ := h
  refine ⟨p, foo, rfl, hfoo, (hs.fits p foo .list st hfoo hlife ?_).1.next rfl⟩
  rintro rfl
  exact hst

theorem rcuReaderList_good {pc : ReaderListPc} (hs : Sound life s)
    (ho : Owns life .readerList (.readerList cnt pc) s) :
    Good life s .readerList (.readerList cnt pc) (rcuReaderList cnt s pc) := by
  have hkeeps := Keeps.reader hs ho (.inr rfl)
  cases pc with
  | loop =>
      cases cnt with
      | zero => exact .of_keeps (hkeeps .returned trivial rfl trivial) rfl (by simp)
      | succ cnt => exact .of_keeps (hkeeps (.readerList cnt .lock) rfl rfl trivial) rfl (by simp)
  | lock =>
      exact .of_keeps (.lock hs (.of_reader (.inr rfl) rfl (by simp) trivial)) rfl (by simp)
  | first =>
      obtain ⟨p, hvisit, hp⟩ := hs.visit_listNext
      have husing := hs.using_root (ho.inside.mpr rfl) .list
      rw [hp] at husing
      rw [rcuReaderList, hvisit]
      exact .of_keeps (hkeeps _ rfl rfl husing) rfl (by simp)
  | info p pc =>
      rw [rcuReaderList]
      obtain ⟨pc', hstep, husing⟩ | ⟨foo, hstep, q, rfl, hfoo, hprot⟩ := Using.prInfo_cases
        ho.reads (fun pc => .readerList cnt (.info p pc)) (.readerList cnt (.next p))
      · rw [hstep]
        exact .of_keeps (hkeeps _ rfl rfl husing) rfl (by simp)
      · rw [hstep]
        exact .of_keeps (hkeeps _ rfl rfl ⟨q, foo, rfl, hprot, hfoo, trivial⟩) rfl (by simp)
  | next p =>
      obtain ⟨q, foo, rfl, hfoo, hnext⟩ := Using.next hs ho.reads
      rw [rcuReaderList, Sys.access_eq hfoo, hnext]
      exact .of_keeps (hkeeps _ rfl rfl trivial) rfl (by simp)
  | unlock =>
      exact .of_keeps (.unlock hs (.of_reader (.inr rfl) rfl (by simp) trivial)) rfl (by simp)

/-! ## The updaters -/

theorem Root.updater_injective {r r' : Root} (h : r.updater = r'.updater) : r = r' := by
  cases r <;> cases r' <;> first | rfl | cases h

/-- What one updater owns. -/
theorem Owns.of_updater (r : Root) (hrole : l.Of r.updater) (hinside : l.inside = false)
    (hreading : r.updater ∉ s.rcu.readers) (hreads : l.Reads life s r.updater)
    (hhand : l.hand.Holds life r) (hknows : l.Knows s)
    (hwaits : r = .list → (s.rcu.waits .sync = none ↔ l.waits = false)) :
    Owns life r.updater l s where
  role := hrole
  inside := ⟨fun h => absurd h hreading, fun h => absurd (hinside.symm.trans h) Bool.false_ne_true⟩
  reads := hreads
  hand := fun _ hr => Root.updater_injective hr ▸ hhand
  knows := hknows
  waits := fun hr => hwaits (Root.updater_injective hr)

theorem Hand.Holds.kzalloc (h : Hand.Holds ⟨none, none, none⟩ life r) :
    Hand.Holds ⟨some s.brk, none, none⟩ (Function.update life s.brk (some (r, .owned))) r := by
  refine ⟨fun p => ?_, fun p => ?_, fun p => ?_⟩ <;> by_cases hp : p = s.brk
  · simp [hp]
  · rw [Function.update_of_ne hp, h.owned]
    simp [Ne.symm hp]
  · simp [hp]
  · rw [Function.update_of_ne hp, h.unlinked]
  · simp [hp]
  · rw [Function.update_of_ne hp, h.retired]

theorem Hand.Holds.replace (h : Hand.Holds ⟨some q, none, none⟩ life r)
    (hp : life p = some (r, .linked)) :
    Hand.Holds ⟨none, some p, none⟩ (Life.replace life r p q) r := by
  have hq := (h.owned q).mpr rfl
  have hpq : p ≠ q := by
    rintro rfl
    rw [hp] at hq
    cases hq
  refine ⟨fun x => ?_, fun x => ?_, fun x => ?_⟩ <;> by_cases hxq : x = q
  · simp [hxq]
  · by_cases hxp : x = p
    · simp [hxp, Life.replace_old hpq]
    · rw [Life.replace_of_ne hxp hxq, h.owned]
      simp [Ne.symm hxq]
  · simp [hxq, hpq]
  · by_cases hxp : x = p
    · simp [hxp, Life.replace_old hpq]
    · rw [Life.replace_of_ne hxp hxq, h.unlinked]
      simp [Ne.symm hxp]
  · simp [hxq]
  · by_cases hxp : x = p
    · simp [hxp, Life.replace_old hpq]
    · rw [Life.replace_of_ne hxp hxq, h.retired]

theorem Hand.Holds.retire (h : Hand.Holds ⟨none, some p, none⟩ life r) :
    Hand.Holds ⟨none, none, if r.token p = .sync then some p else none⟩
      (Function.update life p (some (r, .retired (r.token p)))) r := by
  refine ⟨fun x => ?_, fun x => ?_, fun x => ?_⟩ <;> by_cases hx : x = p
  · simp [hx]
  · rw [Function.update_of_ne hx, h.owned]
  · simp [hx]
  · rw [Function.update_of_ne hx, h.unlinked]
    simp [Ne.symm hx]
  · subst hx
    simp
  · rw [Function.update_of_ne hx, h.retired]
    split <;> simp [Ne.symm hx]

theorem Hand.Holds.free (h : Hand.Holds ⟨none, none, some p⟩ life r) :
    Hand.Holds ⟨none, none, none⟩ (Function.update life p none) r := by
  refine ⟨fun x => ?_, fun x => ?_, fun x => ?_⟩ <;> by_cases hx : x = p
  · simp [hx]
  · rw [Function.update_of_ne hx, h.owned]
  · simp [hx]
  · rw [Function.update_of_ne hx, h.unlinked]
  · simp [hx]
  · rw [Function.update_of_ne hx, h.retired]
    simp [Ne.symm hx]

/-- A write to the block that the updater has in hand. -/
theorem Sound.write_owned (hs : Sound life s) (hq : life q = some (r, .owned))
    (hfoo : s.heap q = some foo) (new : Foo) :
    Sound life (s.write q new) ∧ Moved r life s life (s.write q new) ∧
      (s.write q new).top r = s.top r := by
  have hkeep : ∀ r' st, life q = some (r', st) → st ≠ .owned →
      new.Fits r' st ∧ new.a = foo.a := by
    intro r' st hlife hst
    rw [hq] at hlife
    cases hlife
    exact absurd rfl hst
  exact ⟨hs.write hfoo hkeep, .write hs hq hfoo fun hst => absurd rfl hst,
    hs.write_top hfoo fun r' st hlife hst => (hkeep r' st hlife hst).2⟩

/-- `p->... = ...` on the block that the updater has in hand. -/
theorem storeStep_good {P : Foo → Prop} {f : Foo → Foo} (hs : Sound life s)
    (howned : ∀ p, ptr = some p → life p = some (r, .owned)) (hbuilt : Built s ptr P)
    (hstarved : l'.starved = false)
    (hown : ∀ p foo, ptr = some p → P foo → (s.write p (f foo)).top r = s.top r →
      Owns life r.updater l' (s.write p (f foo))) :
    Good life s r.updater l (storeStep r.updater ptr s f l') := by
  obtain ⟨p, foo, rfl, hfoo, hP⟩ := hbuilt
  obtain ⟨hs', hm, htop⟩ := hs.write_owned (howned p rfl) hfoo (f foo)
  rw [storeStep, Sys.access_eq hfoo]
  exact .of_keeps (.of_moved r hs hs' (hown p foo rfl hP htop) hm) hstarved (by simp)

/-- A thread that has returned, or has failed with nothing in hand. -/
theorem Keeps.done (hs : Sound life s) (r : Root) (hreading : r.updater ∉ s.rcu.readers)
    (hhand : Hand.Holds ⟨none, none, none⟩ life r)
    (hwaits : r = .list → s.rcu.waits .sync = none) (hl : l = .returned ∨ l = .oops) :
    Keeps life s r.updater l s := by
  rcases hl with rfl | rfl
  · exact .refl hs (.of_updater r trivial rfl hreading trivial hhand trivial
      fun hr => by simp [hwaits hr])
  · exact .refl hs (.of_updater r trivial rfl hreading trivial hhand trivial
      fun hr => by simp [hwaits hr])

/-- What `pr_info` comes to for a block that is there. -/
theorem Built.prInfo_cases {pc : InfoPc} {within : InfoPc → Local} {after : Local} {P : Foo → Prop}
    (h : Built s ptr P) :
    (∃ pc', prInfo i ptr s within after pc = (within pc', s, [])) ∨
      ∃ x y z, prInfo i ptr s within after pc = (after, s, [.info i x y z]) := by
  obtain ⟨p, foo, rfl, hfoo, -⟩ := h
  cases pc with
  | a => exact .inl ⟨.b foo.a, by rw [prInfo, Sys.access_eq hfoo]⟩
  | b x => exact .inl ⟨.c x foo.b, by rw [prInfo, Sys.access_eq hfoo]⟩
  | c x y => exact .inr ⟨x, y, foo.c, by rw [prInfo, Sys.access_eq hfoo]⟩

theorem Sound.built_root (hs : Sound life s) (r : Root) : Built s (s.root r) fun _ => True := by
  obtain ⟨p, foo, hp, -, hfoo, -⟩ := hs.exists_root r
  exact ⟨p, foo, hp, hfoo, trivial⟩

section Updater

variable {pc : UpdaterPc}

theorem Owns.updater (hreading : Task.updater ∉ s.rcu.readers)
    (hhand : pc.hand.Holds life .pointer) (htop : s.top .pointer ≤ value)
    (hknows : pc.Knows s value) : Owns life .updater (.updater cnt value pc) s :=
  .of_updater .pointer rfl rfl hreading trivial hhand ⟨htop, hknows⟩ (by simp)

theorem rcuUpdater_good (e : Choice) (hs : Sound life s)
    (ho : Owns life .updater (.updater cnt value pc) s) :
    Good life s .updater (.updater cnt value pc) (rcuUpdater e cnt value s pc) := by
  have hreading : Task.updater ∉ s.rcu.readers := fun h => by simpa using ho.inside.mp h
  have hhand : pc.hand.Holds life .pointer := ho.hand .pointer rfl
  obtain ⟨htop, hknows⟩ := ho.knows
  have hstays : ∀ {n} pc', UpdaterPc.hand pc' = pc.hand → pc'.Knows s value →
      Keeps life s .updater (.updater n value pc') s := fun pc' heq hk =>
    .refl hs (.updater hreading (heq ▸ hhand) htop hk)
  have hstore : ∀ {new : Ptr} {P : Foo → Prop} {f : Foo → Foo} {pc' : UpdaterPc},
      pc.hand.owned = new → pc'.hand = pc.hand → Built s new P →
      (Local.updater cnt value pc').starved = false →
      (∀ p foo, new = some p → P foo → pc'.Knows (s.write p (f foo)) value) →
      Good life s .updater (.updater cnt value pc)
        (storeStep .updater new s f (.updater cnt value pc')) := by
    intro new P f pc' howned heq hbuilt hstarved hk
    refine storeStep_good (r := .pointer) hs (fun p hp => ?_) hbuilt hstarved ?_
    · exact (hhand.owned p).mpr (howned.trans hp)
    · exact fun p foo hp hP htop' =>
        .updater hreading (heq ▸ hhand) (htop'.trans_le htop) (hk p foo hp hP)
  cases pc with
  | loop =>
      cases cnt with
      | zero =>
          exact .of_keeps (.done hs .pointer hreading hhand (by simp) (.inl rfl)) rfl (by simp)
      | succ cnt => exact .of_keeps (hstays .kzalloc rfl trivial) rfl (by simp)
  | kzalloc =>
      cases e with
      | go =>
          have hown : Owns (Function.update life s.brk (some (.pointer, .owned))) .updater
              (.updater cnt value (.readOld (some s.brk))) s.kzalloc.2 :=
            .updater hreading hhand.kzalloc (hs.kzalloc_top.trans_le htop) trivial
          exact .of_keeps (.of_moved .pointer hs (hs.kzalloc .pointer) hown (.kzalloc hs .pointer)) rfl
            (by simp)
      | fail =>
          exact ⟨hstays (.readOld none) rfl trivial, by simp [rcuUpdater, kzallocStep],
            fun _ => .inr (List.mem_singleton_self _)⟩
  | readOld new =>
      refine ⟨hstays (.copy new s.gPfoo) rfl rfl, by simp [rcuUpdater], fun h => .inl ?_⟩
      cases new with
      | none => rfl
      | some q => cases h
  | copy new old =>
      obtain ⟨p, foo, hp, -, hfoo, -⟩ := hs.exists_root .pointer
      rw [rcuUpdater, show s.gPfoo = some p from hp, Sys.access_eq hfoo]
      cases new with
      | none =>
          exact ⟨.done hs .pointer hreading hhand (by simp) (.inr rfl),
            by simp [storeStep, Sys.access, Sys.fault], fun _ => .inl rfl⟩
      | some q =>
          obtain ⟨foo', hfoo'⟩ := hs.heap_of_life ((hhand.owned q).mpr rfl)
          refine hstore (P := fun _ => True) rfl rfl ⟨q, foo', rfl, hfoo', trivial⟩ rfl ?_
          exact fun _ _ hq _ => ⟨hknows.trans Sys.write_root.symm, _, _, hq, Sys.write_heap_self,
            trivial⟩
  | setA new old =>
      refine hstore rfl rfl hknows.2 rfl fun _ _ hq _ => ?_
      exact ⟨hknows.1.trans Sys.write_root.symm, _, _, hq, Sys.write_heap_self, rfl⟩
  | setB new old =>
      refine hstore rfl rfl hknows.2 rfl fun _ _ hq ha => ?_
      exact ⟨hknows.1.trans Sys.write_root.symm, _, _, hq, Sys.write_heap_self, ha, rfl⟩
  | setC new old =>
      refine hstore rfl rfl hknows.2 rfl fun _ _ hq hab => ?_
      exact ⟨hknows.1.trans Sys.write_root.symm, _, _, hq, Sys.write_heap_self, hab.1, hab.2, rfl⟩
  | assign new old =>
      obtain ⟨rfl, q, foo, rfl, hfoo, ha, hb, hc⟩ := hknows
      obtain ⟨p, -, hp, hlife, -⟩ := hs.exists_root .pointer
      have hq := (hhand.owned q).mpr rfl
      have hfits : foo.Fits .pointer .linked :=
        ⟨.inr ⟨by rw [hb, ha], by rw [hc, ha]⟩, by simp, by simp⟩
      have hs' := hs.replace hlife hq hfoo hfits (htop.trans_eq ha.symm)
      have hhand' : Hand.Holds ⟨none, s.root .pointer, none⟩ _ _ := hp ▸ hhand.replace hlife
      have hown : Owns (Life.replace life .pointer p q) .updater
          (.updater cnt value (.info (some q) (s.root .pointer) .a)) (s.link q .pointer) :=
        .updater hreading hhand' ((Sys.link_top_self hfoo).trans ha).le ⟨rfl, hs.rooted .pointer⟩
      exact .of_keeps (.of_moved .pointer hs hs' hown
        (.replace hlife hq hfoo (htop.trans_eq ha.symm))) rfl (by simp)
  | info new old pc =>
      obtain ⟨rfl, hold⟩ := hknows
      rw [rcuUpdater]
      obtain ⟨pc', hstep⟩ | ⟨x, y, z, hstep⟩ := (hs.built_root .pointer).prInfo_cases
      · rw [hstep]
        exact .of_keeps (hstays (.info _ old pc') rfl ⟨rfl, hold⟩) rfl (by simp)
      · rw [hstep]
        exact .of_keeps (hstays (.callRcu old) rfl hold) rfl (by simp)
  | callRcu old =>
      obtain ⟨p, rfl⟩ := Option.ne_none_iff_exists'.mp hknows
      have hp := (hhand.unlinked p).mpr rfl
      obtain ⟨foo, hfoo⟩ := hs.heap_of_life hp
      rw [rcuUpdater, Sys.access_eq hfoo]
      have hown : Owns _ .updater (.updater cnt (value + 1) .loop)
          { s with rcu := s.rcu.begin (Root.pointer.token p) } :=
        .updater hreading (by simpa [Root.token] using hhand.retire)
          ((Sys.top_rcu _).trans_le (htop.trans (by omega))) trivial
      exact .of_keeps (.of_moved .pointer hs (hs.retire hp) hown (.retire hp)) rfl (by simp)

end Updater

section UpdaterList

variable {pc : UpdaterListPc}

theorem Owns.updaterList (hreading : Task.updaterList ∉ s.rcu.readers)
    (hhand : pc.hand.Holds life .list) (htop : s.top .list ≤ value) (hknows : pc.Knows s value)
    (hwaits : s.rcu.waits .sync = none ↔ (Local.updaterList cnt value pc).waits = false) :
    Owns life .updaterList (.updaterList cnt value pc) s :=
  .of_updater .list rfl rfl hreading trivial hhand ⟨htop, hknows⟩ fun _ => hwaits

theorem rcuUpdaterList_good (e : Choice) {st : Step} (hs : Sound life s)
    (ho : Owns life .updaterList (.updaterList cnt value pc) s)
    (h : rcuUpdaterList e cnt value s pc = some st) :
    Good life s .updaterList (.updaterList cnt value pc) st := by
  have hreading : Task.updaterList ∉ s.rcu.readers := fun h => by simpa using ho.inside.mp h
  have hhand : pc.hand.Holds life .list := ho.hand .list rfl
  have hwaits := ho.waits rfl
  obtain ⟨htop, hknows⟩ := ho.knows
  have hstays : ∀ {n} pc', UpdaterListPc.hand pc' = pc.hand → pc'.Knows s value →
      (Local.updaterList n value pc').waits = (Local.updaterList cnt value pc).waits →
      Keeps life s .updaterList (.updaterList n value pc') s := fun pc' heq hk hw =>
    .refl hs (.updaterList hreading (heq ▸ hhand) htop hk (hwaits.trans (by rw [hw])))
  have hstore : ∀ {q : Ptr} {P : Foo → Prop} {f : Foo → Foo} {pc' : UpdaterListPc},
      pc.hand.owned = q → pc'.hand = pc.hand → Built s q P →
      (Local.updaterList cnt value pc').starved = false →
      (Local.updaterList cnt value pc').waits = (Local.updaterList cnt value pc).waits →
      (∀ p foo, q = some p → P foo → pc'.Knows (s.write p (f foo)) value) →
      Good life s .updaterList (.updaterList cnt value pc)
        (storeStep .updaterList q s f (.updaterList cnt value pc')) := by
    intro q P f pc' howned heq hbuilt hstarved hw hk
    refine storeStep_good (r := .list) hs (fun p hp => ?_) hbuilt hstarved ?_
    · exact (hhand.owned p).mpr (howned.trans hp)
    · exact fun p foo hp hP htop' =>
        .updaterList hreading (heq ▸ hhand) (htop'.trans_le htop) (hk p foo hp hP) (hw ▸ hwaits)
  cases pc with
  | loop =>
      cases h
      cases cnt with
      | zero =>
          exact .of_keeps (.done hs .list hreading hhand (fun _ => hwaits.mpr rfl) (.inl rfl)) rfl
            (by simp)
      | succ cnt => exact .of_keeps (hstays .first rfl trivial rfl) rfl (by simp)
  | first =>
      cases h
      exact .of_keeps (hstays (.kzalloc (s.root .list)) rfl rfl rfl) rfl (by simp)
  | kzalloc p =>
      cases h
      cases e with
      | go =>
          have hown : Owns (Function.update life s.brk (some (.list, .owned))) .updaterList
              (.updaterList cnt value (.copy p (some s.brk))) s.kzalloc.2 :=
            .updaterList hreading hhand.kzalloc (hs.kzalloc_top.trans_le htop)
              (hknows.trans Sys.kzalloc_root.symm) hwaits
          exact .of_keeps (.of_moved .list hs (hs.kzalloc .list) hown (.kzalloc hs .list)) rfl
            (by simp)
      | fail =>
          exact ⟨hstays (.copy p none) rfl hknows rfl, by simp [kzallocStep],
            fun _ => .inr (List.mem_singleton_self _)⟩
  | copy p q =>
      cases h
      obtain ⟨r, foo, hr, hlife, hfoo, -⟩ := hs.exists_root .list
      obtain rfl : p = some r := hknows.trans hr
      rw [Sys.access_eq hfoo]
      cases q with
      | none =>
          exact ⟨.done hs .list hreading hhand (fun _ => hwaits.mpr rfl) (.inr rfl),
            by simp [storeStep, Sys.access, Sys.fault], fun _ => .inl rfl⟩
      | some q =>
          obtain ⟨foo', hfoo'⟩ := hs.heap_of_life ((hhand.owned q).mpr rfl)
          obtain ⟨hfits, -⟩ := hs.fits r foo .list .linked hfoo hlife (by simp)
          refine hstore (P := fun _ => True) rfl rfl ⟨q, foo', rfl, hfoo', trivial⟩ rfl rfl ?_
          exact fun _ _ hq _ => ⟨hr.symm.trans Sys.write_root.symm, _, _, hq, Sys.write_heap_self,
            hfits.next rfl, hfits.prev rfl rfl⟩
  | setA p q =>
      cases h
      refine hstore rfl rfl hknows.2 rfl rfl fun _ _ hq halone => ?_
      exact ⟨hknows.1.trans Sys.write_root.symm, _, _, hq, Sys.write_heap_self, halone, rfl⟩
  | setB p q =>
      cases h
      refine hstore rfl rfl hknows.2 rfl rfl fun _ _ hq hP => ?_
      exact ⟨hknows.1.trans Sys.write_root.symm, _, _, hq, Sys.write_heap_self, hP.1, hP.2, rfl⟩
  | setC p q =>
      cases h
      refine hstore rfl rfl hknows.2 rfl rfl fun _ _ hq hP => ?_
      exact ⟨hknows.1.trans Sys.write_root.symm, _, _, hq, Sys.write_heap_self, hP.1, hP.2.1,
        hP.2.2, rfl⟩
  | replaceLinks p q =>
      cases h
      obtain ⟨hroot, hbuilt⟩ := hknows
      obtain ⟨r, foo, hr, hlife, hfoo, -⟩ := hs.exists_root .list
      obtain rfl : p = some r := hroot.trans hr
      obtain ⟨hfits, -⟩ := hs.fits r foo .list .linked hfoo hlife (by simp)
      rw [Sys.access_eq hfoo]
      refine hstore rfl rfl hbuilt rfl rfl fun _ _ hq hP => ?_
      exact ⟨hr.symm.trans Sys.write_root.symm, _, _, hq, Sys.write_heap_self,
        ⟨hfits.next rfl, hfits.prev rfl rfl⟩, hP.2⟩
  | replaceNext p q =>
      cases h
      obtain ⟨rfl, q, foo, rfl, hfoo, ⟨hnext, hprev⟩, ha, hb, hc⟩ := hknows
      obtain ⟨p, -, hp, hlife, -⟩ := hs.exists_root .list
      have hq := (hhand.owned q).mpr rfl
      have hfits : foo.Fits .list .linked :=
        ⟨.inr ⟨by rw [hb, ha], by rw [hc, ha]⟩, fun _ => hnext, fun _ _ => hprev⟩
      have hs' := hs.replace hlife hq hfoo hfits (htop.trans_eq ha.symm)
      have hhand' : Hand.Holds ⟨none, s.root .list, none⟩ _ _ := hp ▸ hhand.replace hlife
      have hown : Owns (Life.replace life .list p q) .updaterList
          (.updaterList cnt value (.replacePrev (s.root .list) (some q))) (s.link q .list) :=
        .updaterList hreading hhand' ((Sys.link_top_self hfoo).trans ha).le
          ⟨rfl, hs.rooted .list⟩ hwaits
      rw [Sys.access_eq hfoo, hprev]
      exact .of_keeps (.of_moved .list hs hs' hown
        (.replace hlife hq hfoo (htop.trans_eq ha.symm))) rfl (by simp)
  | replacePrev p q =>
      cases h
      obtain ⟨rfl, hp⟩ := hknows
      obtain ⟨q, foo, hq, hlife, hfoo, -⟩ := hs.exists_root .list
      obtain ⟨hfits, -⟩ := hs.fits q foo .list .linked hfoo hlife (by simp)
      rw [hq, Sys.access_eq hfoo, hfits.next rfl]
      have hown : Owns life .updaterList (.updaterList cnt value (.replacePoison p (some q)))
          { s with listPrev := .node q } :=
        .updaterList hreading hhand htop ⟨hq.symm, hp⟩ hwaits
      exact .of_keeps (.of_moved .list hs (hs.listPrev _) hown (.listPrev _)) rfl (by simp)
  | replacePoison p q =>
      cases h
      obtain ⟨rfl, hp⟩ := hknows
      obtain ⟨p, rfl⟩ := Option.ne_none_iff_exists'.mp hp
      have hlife := (hhand.unlinked p).mpr rfl
      obtain ⟨foo, hfoo⟩ := hs.heap_of_life hlife
      obtain ⟨hfits, -⟩ := hs.fits p foo .list .unlinked hfoo hlife (by simp)
      have hkeep : ∀ r st, life p = some (r, st) → st ≠ .owned →
          Foo.Fits { foo with prev := .poison } r st ∧ foo.a = foo.a := by
        intro r st heq _
        rw [hlife] at heq
        cases heq
        exact ⟨⟨hfits.whole, hfits.next, by simp⟩, rfl⟩
      have htop' : (s.write p { foo with prev := .poison }).top .list = s.top .list :=
        hs.write_top hfoo fun r st h ho => (hkeep r st h ho).2
      have hown : Owns life .updaterList
          (.updaterList cnt value (.info (some p) (s.root .list) .a))
          (s.write p { foo with prev := .poison }) :=
        .updaterList hreading hhand (htop'.trans_le htop) ⟨Sys.write_root.symm, hp⟩ hwaits
      rw [storeStep, Sys.access_eq hfoo]
      exact .of_keeps (.of_moved .list hs (hs.write hfoo hkeep) hown
        (.write hs hlife hfoo fun _ => ⟨rfl, rfl, rfl⟩)) rfl (by simp)
  | info p q pc =>
      cases h
      obtain ⟨rfl, hp⟩ := hknows
      obtain ⟨pc', hstep⟩ | ⟨x, y, z, hstep⟩ := (hs.built_root .list).prInfo_cases
      · rw [hstep]
        exact .of_keeps (hstays (.info p _ pc') rfl ⟨rfl, hp⟩ rfl) rfl (by simp)
      · rw [hstep]
        exact .of_keeps (hstays (.synchronize p) rfl hp rfl) rfl (by simp)
  | synchronize p =>
      cases h
      obtain ⟨p, rfl⟩ := Option.ne_none_iff_exists'.mp hknows
      have hp := (hhand.unlinked p).mpr rfl
      have hown : Owns _ .updaterList (.updaterList cnt value (.wait (some p)))
          { s with rcu := s.rcu.begin (Root.list.token p) } :=
        .updaterList hreading (by simpa [Root.token] using hhand.retire)
          ((Sys.top_rcu _).trans_le htop) (by simp) (by simp [Root.token])
      exact .of_keeps (.of_moved .list hs (hs.retire hp) hown (.retire hp)) rfl (by simp)
  | wait p =>
      simp only [rcuUpdaterList] at h
      split at h
      next hover =>
        cases h
        have hown : Owns life .updaterList (.updaterList cnt value (.kfree p))
            { s with rcu := s.rcu.finish .sync } :=
          .updaterList hreading hhand ((Sys.top_rcu _).trans_le htop) hknows (by simp)
        exact .of_keeps (.of_moved .list hs hs.finish hown (.finish hover)) rfl (by simp)
      next => cases h
  | kfree p =>
      cases h
      obtain ⟨p, rfl⟩ := Option.ne_none_iff_exists'.mp hknows
      have hp := (hhand.retired p).mpr rfl
      obtain ⟨foo, hfoo⟩ := hs.heap_of_life hp
      have hnone : s.rcu.waits .sync = none := hwaits.mpr rfl
      have hqueued : s.rcu.waits (.callback p) = none := by
        by_contra hne
        rw [(hs.queued p).mp hne] at hp
        cases hp
      have hs' := hs.drop hp hs.rcu (fun _ _ => rfl) hqueued
      have hown : Owns _ .updaterList (.updaterList cnt (value + 1) .loop) (s.drop p s.rcu) :=
        .updaterList hreading hhand.free ((hs.drop_top hp).trans_le (htop.trans (by omega)))
          trivial hwaits
      rw [Sys.kfree, hfoo]
      exact .of_keeps (.of_moved .list hs hs' hown (.drop hs hp (.free p .sync hp hnone) (by simp)))
        rfl (by simp)

end UpdaterList

theorem act_good {e : Choice} {st : Step} (hs : Sound life s) (ho : Owns life i l s)
    (h : act i e l s = some st) : Good life s i l st := by
  have hrole := ho.role
  cases l with
  | reader cnt pc =>
      cases hrole
      cases h
      exact rcuReader_good hs ho
  | updater cnt value pc =>
      cases hrole
      cases h
      exact rcuUpdater_good e hs ho
  | readerList cnt pc =>
      cases hrole
      cases h
      exact rcuReaderList_good hs ho
  | updaterList cnt value pc =>
      cases hrole
      exact rcuUpdaterList_good e hs ho h
  | returned => cases h
  | oops => cases h

/-! ## The callbacks -/

/-- What the softirq does: it frees a block that nobody is using any more. -/
theorem rcuReclaimer_cases {os : List Out} (hs : Sound life s)
    (h : rcuReclaimer p s = some (s', os)) :
    ∃ foo, s.heap p = some foo ∧ life p = some (.pointer, .retired (.callback p)) ∧
      s.rcu.waits (.callback p) = some ∅ ∧ os = [.reclaimed foo.a foo.b foo.c] ∧
      s' = s.drop p (s.rcu.finish (.callback p)) := by
  unfold rcuReclaimer at h
  split at h
  next hover =>
    have hp := (hs.queued p).mp (by rw [hover]; simp)
    obtain ⟨foo, hfoo⟩ := hs.heap_of_life hp
    rw [hfoo] at h
    cases h
    exact ⟨foo, hfoo, hp, hover, rfl, rfl⟩
  next => cases h

theorem rcuReclaimer_keeps {os : List Out} (hs : Sound life s)
    (h : rcuReclaimer p s = some (s', os)) :
    ∃ life', Sound life' s' ∧ (∀ j, Unseen life s life' s' j) ∧
      ∀ r, Apart life s life' s' r := by
  obtain ⟨foo, hfoo, hp, hover, -, rfl⟩ := rcuReclaimer_cases hs h
  have hne : ∀ q, q ≠ p → Token.callback q ≠ .callback p := fun q hq heq =>
    hq (Token.callback.inj heq)
  have hs' := hs.drop hp hs.rcu.finish (fun q hq => Rcu.Domain.finish_waits_of_ne (hne q hq))
    Rcu.Domain.finish_waits_self
  have hm : Moved .pointer life s _ (s.drop p (s.rcu.finish (.callback p))) :=
    .drop hs hp (.reclaim p _ hp hover) fun _ => by
      rw [Rcu.Domain.finish_waits_of_ne (by simp)]
  refine ⟨_, hs', hm.unseen hs', fun r => ?_⟩
  cases r with
  | list => exact hm.apart hs (by simp)
  | pointer =>
      have hother : ∀ x st, life x = some (.pointer, st) → (∀ q, st ≠ .retired (.callback q)) →
          x ≠ p := by
        rintro x st hx hst rfl
        rw [hp] at hx
        cases hx
        exact hst x rfl
      refine ⟨fun x st hst => ?_, fun x hx => ?_, Sys.drop_root, hs.drop_top hp, by simp⟩
      · by_cases hx : x = p
        · subst hx
          rw [Function.update_self, hp]
          simp [Ne.symm (hst x)]
        · rw [Function.update_of_ne hx]
      · exact Sys.drop_heap_of_ne (hother x .owned hx (by simp))

end

/-! ## Runs -/

/-- Every thread owns what it needs, for some assignment of stages. -/
def Owned (p : Pool.Config Task Sys Local) : Prop :=
  ∃ life, Pool.Holds (Sound life) (Owns life) p

theorem owned_step (ev : Event) {p : Pool.Config Task Sys Local} (h : Owned p) :
    Owned (step ev p).1 := by
  refine Pool.Holds.step_ghost ?_ ?_ ev h
  · intro life i e p l s os hp hact
    obtain ⟨⟨life', hs', hown, hunseen, hapart, -⟩, -, -⟩ := act_good hp.shared (hp.locals i) hact
    refine ⟨life', hs', hown, fun j hj => ?_⟩
    refine (hp.locals j).frame (hunseen j hj) fun r hr => hapart r ?_
    rw [hr]
    exact hj
  · intro life f p s os hp hf
    obtain ⟨life', hs', hunseen, hapart⟩ := rcuReclaimer_keeps hp.shared hf
    exact ⟨life', hs', fun j => (hp.locals j).frame (hunseen j) fun r _ => hapart r⟩

/-- The stages of the two blocks that `rcu_test_init` has allocated. -/
def loadedLife : Life :=
  Function.update (Function.update (fun _ => none) 0 (some (.pointer, .linked))) 1
    (some (.list, .linked))

theorem sound_loaded : Sound loadedLife loaded where
  rcu := by simp [Rcu.Domain.Ok, loaded]
  live := by rintro (_ | _ | p) <;> simp [loadedLife, loaded, Function.update]
  fresh := by
    rintro (_ | _ | p) hp
    · simp [loaded] at hp
    · simp [loaded] at hp
    · simp [loaded, Function.update]
  root := by rintro (_ | _) (_ | _ | p) <;> simp [Sys.root, Link.entry, loadedLife, loaded,
    Function.update]
  rooted := by rintro (_ | _) <;> simp [Sys.root, Link.entry, loaded]
  fits := by
    rintro (_ | _ | p) foo r st hfoo hlife -
    · obtain rfl : Foo.zero = foo := by simpa [loaded, Function.update] using hfoo
      obtain ⟨rfl, rfl⟩ : .pointer = r ∧ .linked = st := by
        simpa [loadedLife, Function.update] using hlife
      exact ⟨⟨.inl ⟨rfl, rfl, rfl⟩, by simp, by simp⟩, le_rfl⟩
    · obtain rfl : ⟨0, 0, 0, .head, .head⟩ = foo := by simpa [loaded, Function.update] using hfoo
      obtain ⟨rfl, rfl⟩ : .list = r ∧ .linked = st := by
        simpa [loadedLife, Function.update] using hlife
      exact ⟨⟨.inl ⟨rfl, rfl, rfl⟩, fun _ => rfl, fun _ _ => rfl⟩, le_rfl⟩
    · simp [loaded, Function.update] at hfoo
  retired := by rintro (_ | _ | p) r t <;> simp [loadedLife, Function.update]
  queued := by rintro (_ | _ | p) <;> simp [loadedLife, loaded, Function.update]

theorem owned_start : Owned start := by
  refine ⟨loadedLife, sound_loaded, ?_⟩
  have hhand : ∀ r, Hand.Holds ⟨none, none, none⟩ loadedLife r := by
    refine fun r => ⟨?_, ?_, ?_⟩ <;> rintro (_ | _ | p) <;> simp [loadedLife, Function.update]
  have hreading : ∀ i, i ∉ loaded.rcu.readers := fun _ => Finset.notMem_empty _
  rintro (_ | _ | _ | _)
  · exact .of_reader (.inl rfl) rfl (by simp [hreading, start, rcuThread]) trivial
  · exact .updater (hreading _) (hhand .pointer) (by decide) trivial
  · exact .of_reader (.inr rfl) rfl (by simp [hreading, start, rcuThread]) trivial
  · exact .updaterList (hreading _) (hhand .list) (by decide) trivial
      (by simp [start, loaded])

theorem owned_run (es : List Event) : Owned (run es) :=
  (Machine.inv_run (G := fun _ => True) (fun ev _ hp => ⟨owned_step ev hp, fun _ _ => trivial⟩)
    es owned_start).1

/-- The accesses so far have been to what is there, but for those of the threads that `kzalloc`
had given no memory. -/
structure Spared (p : Pool.Config Task Sys Local) (os : List Out) : Prop where
  owned : Owned p
  starved : ∀ i, (p.locals i).starved = true → .noMemory i ∈ os
  oops : ∀ j, .oops j ∈ os → ∃ i, j = some i ∧ .noMemory i ∈ os

theorem spared_step (ev : Event) {p : Pool.Config Task Sys Local} {os : List Out}
    (h : Spared p os) : Spared (step ev p).1 (os ++ (step ev p).2) := by
  have howned := owned_step ev h.owned
  obtain ⟨life, hp⟩ := h.owned
  obtain ⟨i, e, l, s, os', -, hact, hstep⟩ | ⟨f, s, os', -, hf, hstep⟩ | hstep :=
    Pool.step_cases act rcuReclaimer ev p
  · have hgood := act_good hp.shared (hp.locals i) hact
    rw [step, hstep] at howned ⊢
    refine ⟨howned, fun j hj => ?_, fun j hj => ?_⟩
    · by_cases hji : j = i
      · subst hji
        simp only [Function.update_self] at hj
        rcases hgood.starved hj with hl | hno
        · exact List.mem_append_left _ (h.starved j hl)
        · exact List.mem_append_right _ hno
      · simp only [Function.update_of_ne hji] at hj
        exact List.mem_append_left _ (h.starved j hj)
    · rcases List.mem_append.mp hj with hj | hj
      · obtain ⟨k, hk, hno⟩ := h.oops j hj
        exact ⟨k, hk, List.mem_append_left _ hno⟩
      · obtain ⟨rfl, hl⟩ := hgood.oops j hj
        exact ⟨i, rfl, List.mem_append_left _ (h.starved i hl)⟩
  · obtain ⟨foo, -, -, -, rfl, -⟩ := rcuReclaimer_cases hp.shared hf
    rw [step, hstep] at howned ⊢
    refine ⟨howned, fun j hj => List.mem_append_left _ (h.starved j hj), fun j hj => ?_⟩
    obtain ⟨k, hk, hno⟩ := h.oops j (by simpa using hj)
    exact ⟨k, hk, List.mem_append_left _ hno⟩
  · rw [step, hstep]
    simpa using h

/-- In every run, no thread and no callback uses a block that was freed, frees one twice, or
follows a null pointer other than one that `kzalloc` has returned to it. -/
theorem oops_only_without_memory (es : List Event) :
    ∀ j, .oops j ∈ trace es → ∃ i, j = some i ∧ .noMemory i ∈ trace es := by
  have hstart : Spared start [] := by
    refine ⟨owned_start, fun i hi => ?_, by simp⟩
    cases i <;> cases hi
  exact (Machine.inv_history (fun ev _ _ => spared_step ev) es hstart).oops

theorem oops_of_updater_without_memory :
    .oops (some .updater) ∈ trace [.inl (.updater, .go), .inl (.updater, .fail),
      .inl (.updater, .go), .inl (.updater, .go)] ∧
    ∃ i, some Task.updater = some i ∧ .noMemory i ∈ trace [.inl (.updater, .go),
      .inl (.updater, .fail), .inl (.updater, .go), .inl (.updater, .go)] :=
  ⟨by decide, oops_only_without_memory _ _ (by decide)⟩

end RcuDemo
