-- SUMMARY: The lifetime of the USB skeleton driver's device: who refers to it, and when it is freed.
import LinuxShare.Usb.SkelCounts

/-!
# The lifetime of the device

The device is kept by the bound interface, until the end of `skel_disconnect`, and by each
open file, until the end of `skel_release`. Whoever touches it is inside of a call on an open
file, inside of `skel_open` while the interface is registered, or under the device lock while
the interface is bound. A URB in flight does not keep the device: `skel_disconnect` waits for
those, and none is submitted after it.
-/

namespace Usb

variable {ι : Type}

/-! ## What keeps the device -/

structure Life where
  kref : Nat
  freed : Bool
  deletes : Nat
  binding : Binding
  registered : Bool
  opened : Finset Nat
  pmUsage : Nat

def Sys.life (s : Sys ι) : Life where
  kref := s.dev.kref
  freed := s.freed
  deletes := s.deletes
  binding := s.binding
  registered := s.registered
  opened := s.opened
  pmUsage := s.pmUsage

/-- The reference of the bound interface. -/
def Life.boundRef (L : Life) : Nat := if L.binding = .gone then 0 else 1

/-- The device has been freed once when nothing refers to it any more. -/
structure Life.Ok (L : Life) : Prop where
  registered : L.registered = true → L.binding ≠ .gone
  freed : L.freed = true ↔ L.kref = 0
  deletes : L.deletes = if L.freed = true then 1 else 0

structure Alive (s : Sys ι) : Prop where
  life : s.life.Ok
  gone : s.binding = .gone → s.dev.disconnected = true ∧ s.readUrb = none ∧ s.writeUrbs = []

@[simp] def Local.releases : Local → Nat
  | .release _ _ => 1
  | _ => 0

@[simp] def Local.autopm : Local → Nat
  | .openFile _ .krefGet => 1
  | .release _ .autopmPut => 1
  | _ => 0

/-- How far `skel_disconnect` has come. -/
def DisconnectPc.stage : DisconnectPc → Nat
  | .setIntfdata => 0
  | .deregister => 1
  | .lock => 2
  | .disconnected => 3
  | .unlock => 4
  | .killRead => 5
  | .killAnchored => 6
  | .krefPut => 7

/-- What a thread knows that is inside of a call. -/
@[simp] def Local.Refers (i : ι) (s : Sys ι) : Local → Prop
  | .idle | .release _ _ => True
  | .read f _ _ _ | .write f _ _ _ | .flush f _ => f ∈ s.opened
  | .openFile f _ => f ∉ s.opened ∧ s.users f = 1 ∧ s.registered = true
  | .disconnect pc =>
    s.deviceLock = some i ∧ s.binding = .disconnecting ∧
      (2 ≤ pc.stage → s.registered = false) ∧ (4 ≤ pc.stage → s.dev.disconnected = true) ∧
      (6 ≤ pc.stage → s.readUrb = none) ∧ (7 ≤ pc.stage → s.writeUrbs = [])
  | .suspend _ | .reset _ => s.deviceLock = some i ∧ s.binding = .bound

/-! ## Putting a reference -/

theorem krefPut_kref (s : Sys ι) : s.krefPut.dev.kref = s.dev.kref - 1 := by
  unfold Sys.krefPut
  split <;> rfl

/-- Everything but the reference count and what `skel_delete` does. -/
theorem krefPut_frame (s : Sys ι) :
    s.krefPut.binding = s.binding ∧ s.krefPut.registered = s.registered ∧
      s.krefPut.readUrb = s.readUrb ∧ s.krefPut.writeUrbs = s.writeUrbs ∧
      s.krefPut.opened = s.opened ∧ s.krefPut.pmUsage = s.pmUsage ∧
      s.krefPut.dev.disconnected = s.dev.disconnected ∧ s.krefPut.deviceLock = s.deviceLock := by
  unfold Sys.krefPut
  split <;> exact ⟨rfl, rfl, rfl, rfl, rfl, rfl, rfl, rfl⟩

/-- A reference that is there is put once, and the last one frees the device. -/
theorem krefPut_ok {s : Sys ι} (hkref : 0 < s.dev.kref) (hok : s.life.Ok) : s.krefPut.life.Ok := by
  obtain ⟨hbinding, hreg, -⟩ := krefPut_frame s
  have hnot : s.freed = false := by
    rw [Bool.eq_false_iff]
    exact fun h => hkref.ne' (hok.freed.mp h)
  have hdeletes : s.deletes = 0 := by simpa [Sys.life, hnot] using hok.deletes
  refine ⟨fun h => ?_, ?_, ?_⟩
  · have hne : s.binding ≠ .gone := hok.registered (hreg.symm.trans h)
    exact fun hb => hne (hbinding.symm.trans hb)
  · unfold Sys.krefPut
    split
    next hlast => simpa [Sys.life, Sys.skelDelete] using hlast
    next hmore => simp [Sys.life, hnot, hmore]
  · unfold Sys.krefPut
    split
    next => simp [Sys.life, Sys.skelDelete, hdeletes]
    next => simp [Sys.life, hnot, hdeletes]

/-! ## Steps -/

/-- How a step can change what keeps the device. -/
inductive LifeStep (s : Sys ι) : Local → Local → Life → Prop where
  | keep {l l' : Local} (hreleases : l'.releases = l.releases) (hautopm : l'.autopm = l.autopm) :
    LifeStep s l l' s.life
  | autopmGet {f : Nat} :
    LifeStep s (.openFile f .autopmGet) (.openFile f .krefGet)
      { s.life with pmUsage := s.pmUsage + 1 }
  | krefGet {f : Nat} :
    LifeStep s (.openFile f .krefGet) .idle
      { s.life with kref := s.dev.kref + 1, opened := insert f s.opened }
  | release {f : Nat} (hf : f ∈ s.opened) (hfree : s.users f = 0) :
    LifeStep s .idle (.release f .autopmPut) { s.life with opened := s.opened.erase f }
  | autopmPut {f : Nat} :
    LifeStep s (.release f .autopmPut) (.release f .krefPut)
      { s.life with pmUsage := s.pmUsage - 1 }
  | krefPut {f : Nat} : LifeStep s (.release f .krefPut) .idle s.krefPut.life
  | disconnect (hlock : s.deviceLock = none) (hbound : s.binding = .bound) :
    LifeStep s .idle (.disconnect .setIntfdata) { s.life with binding := .disconnecting }
  | deregister (hout : s.minorRwsem = 0) :
    LifeStep s (.disconnect .deregister) (.disconnect .lock) { s.life with registered := false }
  | gone : LifeStep s (.disconnect .krefPut) .idle { s.krefPut.life with binding := .gone }

theorem life_leave (c : Call) (s : Sys ι) : (leave c s).life = s.life := by
  cases c <;> rfl

theorem act_life {i : ι} {e : Choice} {l l' : Local} {s s' : Sys ι} {os : List (Out ι)}
    (h : act i e l s = some (l', s', os)) : LifeStep s l l' s'.life := by
  have hkeep : ∀ {P : Type} {c : Call} {at' : P → Local} {r : Result ι P},
      l.releases = 0 → l.autopm = 0 → (∀ p, (at' p).releases = 0 ∧ (at' p).autopm = 0) →
      (∀ n s₁ os₁, r = some (n, s₁, os₁) → s₁.life = s.life) →
      inside i c at' r = some (l', s', os) → LifeStep s l l' s'.life := by
    intro P c at' r hl hl' hat hr hin
    obtain ⟨p, hstep, rfl⟩ | ⟨rv, s₁, os₁, hstep, rfl, rfl, -⟩ := inside_cases hin
    · rw [hr _ _ _ hstep]
      exact .keep ((hat p).1.trans hl.symm) ((hat p).2.trans hl'.symm)
    · rw [life_leave, hr _ _ _ hstep]
      exact .keep hl.symm hl'.symm
  cases l with
  | idle =>
      cases e with
      | call c =>
          cases enter_cases h with
          | release hf hfree => exact .release hf hfree
          | disconnect hlock hbound => exact .disconnect hlock hbound
          | _ => exact .keep rfl rfl
      | _ => cases h
  | read f count nb pc =>
      refine hkeep rfl rfl (fun _ => ⟨rfl, rfl⟩) (fun n s₁ os₁ hr => ?_) h
      cases skelRead_cases hr with
      | copy ok hcopy => cases hcopy; rfl
      | _ => rfl
  | write f data nb pc =>
      refine hkeep rfl rfl (fun _ => ⟨rfl, rfl⟩) (fun n s₁ os₁ hr => ?_) h
      cases skelWrite_cases hr <;> rfl
  | openFile f pc =>
      obtain ⟨p, hr, rfl⟩ | ⟨rv, s₁, os₁, hr, rfl, rfl, -⟩ := inside_cases h
      · cases (skelOpen_cases hr).2 with
        | findInterface => exact .keep rfl rfl
        | getIntfdata _ => exact .keep rfl rfl
        | autopmGet => exact .autopmGet
      · rw [life_leave]
        cases (skelOpen_cases hr).2 with
        | refused hpc _ =>
            cases pc with
            | krefGet => exact absurd rfl hpc
            | _ => exact .keep rfl rfl
        | krefGet => exact .krefGet
  | release f pc =>
      obtain ⟨p, hr, rfl⟩ | ⟨rv, s₁, os₁, hr, rfl, rfl, -⟩ := inside_cases h
      · cases (skelRelease_cases hr).2 with
        | autopmPut => exact .autopmPut
      · cases (skelRelease_cases hr).2 with
        | krefPut => exact .krefPut
  | flush f pc =>
      refine hkeep rfl rfl (fun _ => ⟨rfl, rfl⟩) (fun n s₁ os₁ hr => ?_) h
      cases (skelFlush_cases hr).2 <;> rfl
  | disconnect pc =>
      obtain ⟨p, hr, rfl⟩ | ⟨rv, s₁, os₁, hr, rfl, rfl, -⟩ := inside_cases h
      · cases (skelDisconnect_cases hr).2 with
        | deregister hout => exact .deregister hout
        | _ => exact .keep rfl rfl
      · cases (skelDisconnect_cases hr).2 with
        | krefPut => exact .gone
  | suspend pc =>
      refine hkeep rfl rfl (fun _ => ⟨rfl, rfl⟩) (fun n s₁ os₁ hr => ?_) h
      rw [(skelSuspend_cases hr).1]
  | reset pc =>
      refine hkeep rfl rfl (fun _ => ⟨rfl, rfl⟩) (fun n s₁ os₁ hr => ?_) h
      cases (skelReset_cases hr).2 <;> rfl

/-- Nothing is submitted to a disconnected device, and none is connected again. -/
structure StaysGone (s s' : Sys ι) : Prop where
  disconnected : s'.dev.disconnected = true
  readUrb : s.readUrb = none → s'.readUrb = none
  writeUrbs : s.writeUrbs = [] → s'.writeUrbs = []

theorem StaysGone.of_eq {s s' : Sys ι} (hgone : s.dev.disconnected = true)
    (hdisc : s'.dev.disconnected = s.dev.disconnected) (hread : s'.readUrb = s.readUrb)
    (hwrite : s'.writeUrbs = s.writeUrbs) : StaysGone s s' :=
  ⟨hdisc.trans hgone, fun h => hread.trans h, fun h => hwrite.trans h⟩

theorem act_staysGone {i : ι} {e : Choice} {l l' : Local} {s s' : Sys ι} {os : List (Out ι)}
    (ho : Owns i l s) (hgone : s.dev.disconnected = true)
    (h : act i e l s = some (l', s', os)) : StaysGone s s' := by
  have hfunction : ∀ {P : Type} {c : Call} {at' : P → Local} {r : Result ι P},
      (∀ n s₁ os₁, r = some (n, s₁, os₁) → StaysGone s s₁) →
      inside i c at' r = some (l', s', os) → StaysGone s s' := by
    intro P c at' r hr hin
    obtain ⟨p, hstep, -⟩ | ⟨rv, s₁, os₁, hstep, -, rfl, -⟩ := inside_cases hin
    · exact hr _ _ _ hstep
    · obtain ⟨hdisc, hread, hwrite⟩ := hr _ _ _ hstep
      cases c <;> exact ⟨hdisc, hread, hwrite⟩
  cases l with
  | idle =>
      cases e with
      | call c => cases enter_cases h <;> exact .of_eq hgone rfl rfl rfl
      | _ => cases h
  | read f count nb pc =>
      refine hfunction (fun n s₁ os₁ hr => ?_) h
      cases skelRead_cases hr with
      | copy ok hcopy =>
          cases hcopy
          exact .of_eq hgone rfl rfl rfl
      | submit => exact absurd hgone (by simp [ho.knows.1.present])
      | _ => exact .of_eq hgone rfl rfl rfl
  | write f data nb pc =>
      refine hfunction (fun n s₁ os₁ hr => ?_) h
      cases skelWrite_cases hr with
      | submit => exact absurd hgone (by simp [show s.dev.disconnected = false from ho.knows])
      | _ => exact .of_eq hgone rfl rfl rfl
  | openFile f pc =>
      refine hfunction (fun n s₁ os₁ hr => ?_) h
      cases (skelOpen_cases hr).2 <;> exact .of_eq hgone rfl rfl rfl
  | release f pc =>
      refine hfunction (fun n s₁ os₁ hr => ?_) h
      cases (skelRelease_cases hr).2 with
      | autopmPut => exact .of_eq hgone rfl rfl rfl
      | krefPut =>
          obtain ⟨-, -, hread, hwrite, -, -, hdisc, -⟩ := krefPut_frame s
          exact .of_eq hgone hdisc hread hwrite
  | flush f pc =>
      refine hfunction (fun n s₁ os₁ hr => ?_) h
      cases (skelFlush_cases hr).2 <;> exact .of_eq hgone rfl rfl rfl
  | disconnect pc =>
      refine hfunction (fun n s₁ os₁ hr => ?_) h
      cases (skelDisconnect_cases hr).2 with
      | disconnected => exact ⟨rfl, id, id⟩
      | krefPut =>
          obtain ⟨-, -, hread, hwrite, -, -, hdisc, -⟩ := krefPut_frame s
          exact .of_eq hgone hdisc hread hwrite
      | _ => exact .of_eq hgone rfl rfl rfl
  | suspend pc =>
      refine hfunction (fun n s₁ os₁ hr => ?_) h
      rw [(skelSuspend_cases hr).1]
      exact .of_eq hgone rfl rfl rfl
  | reset pc =>
      refine hfunction (fun n s₁ os₁ hr => ?_) h
      cases (skelReset_cases hr).2 <;> exact .of_eq hgone rfl rfl rfl

/-! ## What a step leaves to the other threads -/

def Local.isCore : Local → Bool
  | .disconnect _ | .suspend _ | .reset _ => true
  | _ => false

section

variable {i : ι} {e : Choice} {l l' : Local} {s s' : Sys ι} {os : List (Out ι)} {L : Life} {f : Nat}

theorem life_krefPut (s : Sys ι) : s.krefPut.life.opened = s.opened ∧
    s.krefPut.life.registered = s.registered ∧ s.krefPut.life.binding = s.binding := by
  obtain ⟨hbinding, hreg, -, -, hopened, -, -, -⟩ := krefPut_frame s
  exact ⟨hopened, hreg, hbinding⟩

/-- A file is released when nobody uses it. -/
theorem LifeStep.mem_opened (h : LifeStep s l l' L) (hf : f ∈ s.opened) :
    f ∈ L.opened ∨ s.users f = 0 := by
  cases h with
  | krefGet => exact .inl (Finset.mem_insert_of_mem hf)
  | @release g hg hfree =>
      by_cases hfg : f = g
      · exact .inr (hfg ▸ hfree)
      · exact .inl (Finset.mem_erase.mpr ⟨hfg, hf⟩)
  | krefPut => exact .inl ((life_krefPut s).1 ▸ hf)
  | gone => exact .inl (show f ∈ s.krefPut.life.opened from (life_krefPut s).1 ▸ hf)
  | _ => exact .inl hf

/-- A file is opened by the thread that is about to open it. -/
theorem LifeStep.notMem_opened (h : LifeStep s l l' L) (hf : f ∉ s.opened) :
    f ∉ L.opened ∨ l.uses f = 1 := by
  cases h with
  | @krefGet g =>
      by_cases hfg : f = g
      · subst hfg
        exact .inr (if_pos rfl)
      · exact .inl fun hmem => hf ((Finset.mem_insert.mp hmem).resolve_left hfg)
  | release _ _ => exact .inl fun hmem => hf (Finset.mem_of_mem_erase hmem)
  | krefPut => exact .inl ((life_krefPut s).1 ▸ hf)
  | gone => exact .inl (show f ∉ s.krefPut.life.opened from (life_krefPut s).1 ▸ hf)
  | _ => exact .inl hf

/-- The interface is deregistered when nobody is inside of `usb_open`. -/
theorem LifeStep.registered (h : LifeStep s l l' L) :
    L.registered = s.registered ∨ (L.registered = false ∧ s.minorRwsem = 0) := by
  cases h with
  | deregister hout => exact .inr ⟨rfl, hout⟩
  | krefPut => exact .inl (life_krefPut s).2.1
  | gone => exact .inl (life_krefPut s).2.1
  | _ => exact .inl rfl

/-- The binding changes under the device lock. -/
theorem LifeStep.binding (h : LifeStep s l l' L) :
    L.binding = s.binding ∨ s.deviceLock = none ∨ l.isCore = true := by
  cases h with
  | disconnect hlock _ => exact .inr (.inl hlock)
  | gone => exact .inr (.inr rfl)
  | krefPut => exact .inl (life_krefPut s).2.2
  | _ => exact .inl rfl

theorem Call.isCore_of_leave {c : Call} (hl : l.call = some c) :
    (leave c s).deviceLock = s.deviceLock ∨ l.isCore = true := by
  cases l with
  | idle => cases hl
  | disconnect pc => exact .inr rfl
  | suspend pc => exact .inr rfl
  | reset pc => exact .inr rfl
  | _ =>
      cases hl
      exact .inl rfl

theorem act_deviceLock (h : act i e l s = some (l', s', os)) :
    s'.deviceLock = s.deviceLock ∨ s.deviceLock = none ∨ l.isCore = true := by
  cases hc : l.call with
  | none =>
      obtain rfl : l = .idle := by cases l <;> first | rfl | cases hc
      cases e with
      | call c =>
          cases enter_cases h with
          | disconnect hlock _ => exact .inr (.inl hlock)
          | suspend hlock _ => exact .inr (.inl hlock)
          | reset hlock _ => exact .inr (.inl hlock)
          | _ => exact .inl rfl
      | _ => cases h
  | some c =>
      obtain ⟨s₁, hcallers, hnext⟩ := act_inside hc h
      have hlock : s₁.deviceLock = s.deviceLock := congrArg Callers.deviceLock hcallers
      obtain ⟨-, rfl⟩ | ⟨-, rfl⟩ := hnext
      · exact .inl hlock
      · rcases Call.isCore_of_leave hc with hleave | hcore
        · exact .inl (hleave.trans hlock)
        · exact .inr (.inr hcore)

/-- A call on a file begins when it is open, or when nobody uses it. -/
theorem act_uses (h : act i e l s = some (l', s', os)) (f : Nat) :
    l'.uses f ≤ l.uses f ∨ f ∈ s.opened ∨ s.users f = 0 := by
  cases hc : l.call with
  | none =>
      obtain rfl : l = .idle := by cases l <;> first | rfl | cases hc
      have hcall : ∀ {g : Nat}, (g ∈ s.opened ∨ s.users g = 0) →
          (if g = f then 1 else 0) ≤ 0 ∨ f ∈ s.opened ∨ s.users f = 0 := by
        intro g hg
        by_cases hgf : g = f
        · exact .inr (hgf ▸ hg)
        · exact .inl (if_neg hgf).le
      cases e with
      | call c =>
          cases enter_cases h with
          | read hf _ => exact hcall (.inl hf)
          | write hf _ => exact hcall (.inl hf)
          | flush hf => exact hcall (.inl hf)
          | openFile _ hfree _ => exact hcall (.inr hfree)
          | _ => exact .inl le_rfl
      | _ => cases h
  | some c =>
      obtain ⟨s₁, -, ⟨hc', -⟩ | ⟨rfl, -⟩⟩ := act_inside hc h
      · rw [uses_of_call hc, uses_of_call hc']
        exact .inl le_rfl
      · exact .inl (Nat.zero_le _)

end

section

variable [DecidableEq ι] [Fintype ι]

omit [DecidableEq ι] in
/-- Another thread's step does not touch what a thread refers to. -/
theorem refers_other {p : Pool.Config ι (Sys ι) Local} (hsafe : Safe p) (hcount : Counted p)
    (hrefers : ∀ j, (p.locals j).Refers j p.shared) {i j : ι} (hj : j ≠ i) {e : Choice} {l : Local}
    {s : Sys ι} {os : List (Out ι)} (h : act i e (p.locals i) p.shared = some (l, s, os)) :
    (p.locals j).Refers j s := by
  have hlife := act_life h
  have hmem : ∀ f, f ∈ p.shared.opened → (p.locals j).uses f = 1 → f ∈ s.opened := by
    intro f hf huses
    have hle := (hcount.users f).le j
    rcases hlife.mem_opened hf with hmem | hfree
    · exact hmem
    · omega
  have hcore : p.shared.deviceLock = some j →
      s.deviceLock = some j ∧ s.binding = p.shared.binding := by
    intro hlock
    have hnot : (p.locals i).isCore ≠ true := by
      intro hi
      have hown := hrefers i
      cases hl : p.locals i with
      | disconnect pc =>
          rw [hl] at hown
          exact hj (Option.some.inj (hlock.symm.trans hown.1))
      | suspend pc =>
          rw [hl] at hown
          exact hj (Option.some.inj (hlock.symm.trans hown.1))
      | reset pc =>
          rw [hl] at hown
          exact hj (Option.some.inj (hlock.symm.trans hown.1))
      | _ => simp [hl, Local.isCore] at hi
    have hsome : p.shared.deviceLock ≠ none := by simp [hlock]
    refine ⟨?_, ?_⟩
    · rcases act_deviceLock h with heq | hnone | hi
      · rw [heq, hlock]
      · exact absurd hnone hsome
      · exact absurd hi hnot
    · rcases hlife.binding with heq | hnone | hi
      · exact heq
      · exact absurd hnone hsome
      · exact absurd hi hnot
  have hown := hrefers j
  cases hl : p.locals j with
  | idle => trivial
  | release f pc => trivial
  | read f count nb pc =>
      rw [hl] at hown
      exact hmem f hown (by rw [hl]; exact if_pos rfl)
  | write f data nb pc =>
      rw [hl] at hown
      exact hmem f hown (by rw [hl]; exact if_pos rfl)
  | flush f pc =>
      rw [hl] at hown
      exact hmem f hown (by rw [hl]; exact if_pos rfl)
  | openFile f pc =>
      rw [hl] at hown
      obtain ⟨hf, husers, hreg⟩ := hown
      have huses : (p.locals j).uses f = 1 := by
        rw [hl]
        exact if_pos rfl
      have halone := (hcount.users f).add_le hj
      have hidle : (p.locals i).uses f = 0 := by omega
      refine ⟨?_, ?_, ?_⟩
      · rcases hlife.notMem_opened hf with hnot | hone
        · exact hnot
        · omega
      · have hmove := (act_counts ((hcount.users f).le i) (hcount.opens.le i) h).1
        rcases act_uses h f with hle | hopen | hfree
        · omega
        · exact absurd hopen hf
        · omega
      · rcases hlife.registered with heq | ⟨-, hout⟩
        · exact heq.trans hreg
        · have hopens : (p.locals j).opens = 1 := by
            rw [hl]
            rfl
          have hle := hcount.opens.le j
          omega
  | disconnect pc =>
      rw [hl] at hown
      obtain ⟨hlock, hbinding, hreg, hdisc, hread, hwrite⟩ := hown
      obtain ⟨hlock', hbinding'⟩ := hcore hlock
      refine ⟨hlock', hbinding'.trans hbinding, fun hpc => ?_, fun hpc => ?_, fun hpc => ?_,
        fun hpc => ?_⟩
      · rcases hlife.registered with heq | ⟨hfalse, -⟩
        · exact heq.trans (hreg hpc)
        · exact hfalse
      · exact (act_staysGone (hsafe.locals i) (hdisc hpc) h).disconnected
      · exact (act_staysGone (hsafe.locals i) (hdisc (by omega)) h).readUrb (hread hpc)
      · exact (act_staysGone (hsafe.locals i) (hdisc (by omega)) h).writeUrbs (hwrite hpc)
  | suspend pc =>
      rw [hl] at hown
      obtain ⟨hlock, hbinding⟩ := hcore hown.1
      exact ⟨hlock, hbinding.trans hown.2⟩
  | reset pc =>
      rw [hl] at hown
      obtain ⟨hlock, hbinding⟩ := hcore hown.1
      exact ⟨hlock, hbinding.trans hown.2⟩

end

/-! ## What a step does to the references -/

section

variable {i : ι} {e : Choice} {l l' : Local} {s s' : Sys ι} {os : List (Out ι)} {L : Life}

theorem life_krefPut_eq (s : Sys ι) :
    s.krefPut.life.kref = s.dev.kref - 1 ∧ s.krefPut.life.boundRef = s.life.boundRef ∧
      s.krefPut.life.pmUsage = s.pmUsage := by
  obtain ⟨hbinding, -, -, -, -, hpm, -, -⟩ := krefPut_frame s
  exact ⟨krefPut_kref s, congrArg (fun b => if b = Binding.gone then 0 else 1) hbinding, hpm⟩

/-- References and autosuspend counts follow the open files. -/
theorem LifeStep.balance (h : LifeStep s l l' L) (hown : l.Refers i s)
    (hkref : l.releases + (s.opened.card + s.life.boundRef) ≤ s.dev.kref)
    (hpm : l.autopm + s.opened.card ≤ s.pmUsage) :
    l'.releases + (L.opened.card + L.boundRef) + s.dev.kref =
        l.releases + (s.opened.card + s.life.boundRef) + L.kref ∧
      l'.autopm + L.opened.card + s.pmUsage = l.autopm + s.opened.card + L.pmUsage := by
  cases h with
  | keep hreleases hautopm => exact ⟨by rw [hreleases]; rfl, by rw [hautopm]; rfl⟩
  | autopmGet => exact ⟨rfl, by simp only [Local.autopm, Sys.life]; omega⟩
  | krefGet =>
      have hcard := Finset.card_insert_of_notMem hown.1
      simp only [Local.releases, Local.autopm, Life.boundRef, Sys.life, hcard]
      constructor <;> omega
  | release hf hfree =>
      have hcard := Finset.card_erase_add_one hf
      simp only [Local.releases, Local.autopm, Life.boundRef, Sys.life]
      constructor <;> omega
  | autopmPut =>
      simp only [Local.autopm, Local.releases, Sys.life] at hpm ⊢
      exact ⟨rfl, by omega⟩
  | krefPut =>
      obtain ⟨hk, hb, hp⟩ := life_krefPut_eq s
      simp only [Local.releases, Local.autopm] at hkref ⊢
      rw [(life_krefPut s).1, hk, hb, hp]
      constructor <;> omega
  | disconnect _ hbound => exact ⟨by simp [Life.boundRef, Sys.life, hbound], rfl⟩
  | deregister _ => exact ⟨rfl, rfl⟩
  | gone =>
      obtain ⟨hk, -, hp⟩ := life_krefPut_eq s
      have hone : s.life.boundRef = 1 := by simp [Life.boundRef, Sys.life, hown.2.1]
      have hzero : Life.boundRef { s.krefPut.life with binding := .gone } = 0 := rfl
      rw [hone] at hkref ⊢
      rw [hzero]
      simp only [Local.releases, Local.autopm] at hkref ⊢
      rw [(life_krefPut s).1, hk, hp]
      constructor <;> omega

/-- A thread that is about to touch the reference count holds a reference, or the interface
does. -/
theorem kref_pos (halive : Alive s) (hown : l.Refers i s)
    (hkref : l.releases + (s.opened.card + s.life.boundRef) ≤ s.dev.kref)
    (hl : l ≠ .idle) : 0 < s.dev.kref := by
  have hbound : s.binding ≠ .gone → 0 < s.dev.kref := by
    intro hne
    have hone : s.life.boundRef = 1 := if_neg hne
    omega
  have hfile : ∀ {f}, f ∈ s.opened → 0 < s.dev.kref := by
    intro f hf
    have hpos := Finset.card_pos.mpr ⟨f, hf⟩
    omega
  cases l with
  | idle => exact absurd rfl hl
  | read f count nb pc => exact hfile hown
  | write f data nb pc => exact hfile hown
  | flush f pc => exact hfile hown
  | openFile f pc => exact hbound (halive.life.registered hown.2.2)
  | release f pc =>
      simp only [Local.releases] at hkref
      omega
  | disconnect pc => exact hbound (by simp [hown.2.1])
  | suspend pc => exact hbound (by simp [hown.2])
  | reset pc => exact hbound (by simp [hown.2])

theorem LifeStep.ok (h : LifeStep s l l' L) (hok : s.life.Ok) (hown : l.Refers i s)
    (hkref : l ≠ .idle → 0 < s.dev.kref) : L.Ok := by
  cases h with
  | krefGet =>
      have hpos := hkref (by simp)
      have hnot : s.freed = false := by
        rw [Bool.eq_false_iff]
        exact fun h => hpos.ne' (hok.freed.mp h)
      exact ⟨hok.registered, by simp [Sys.life, hnot], hok.deletes⟩
  | krefPut => exact krefPut_ok (hkref (by simp)) hok
  | disconnect _ _ => exact ⟨by simp, hok.freed, hok.deletes⟩
  | deregister _ => exact ⟨by simp, hok.freed, hok.deletes⟩
  | gone =>
      have hput := krefPut_ok (hkref (by simp)) hok
      have hreg : s.krefPut.life.registered = false :=
        (life_krefPut s).2.1.trans (hown.2.2.1 (by decide))
      exact ⟨by simp [hreg], hput.freed, hput.deletes⟩
  | _ => exact ⟨hok.registered, hok.freed, hok.deletes⟩

/-- The interface is given up by the thread that is disconnecting it. -/
theorem LifeStep.gone_cases (h : LifeStep s l l' L) (hgone : L.binding = .gone) :
    s.binding = .gone ∨ l = .disconnect .krefPut := by
  cases h with
  | gone => exact .inr rfl
  | krefPut => exact .inl ((life_krefPut s).2.2.symm.trans hgone)
  | disconnect _ _ => cases hgone
  | _ => exact .inl hgone

/-- Reading, writing, flushing and the power management change none of it. -/
theorem LifeStep.eq_life (h : LifeStep s l l' L) (hl : (match l with
    | .read _ _ _ _ | .write _ _ _ _ | .flush _ _ => true
    | _ => false) = true) : L = s.life := by
  cases h with
  | keep _ _ => rfl
  | _ => cases hl

theorem Alive.step (halive : Alive s) (ho : Owns i l s) (hown : l.Refers i s)
    (hkref : l ≠ .idle → 0 < s.dev.kref) (h : act i e l s = some (l', s', os)) : Alive s' := by
  have hlife := act_life h
  refine ⟨hlife.ok halive.life hown hkref, fun hgone => ?_⟩
  have hall : s.dev.disconnected = true ∧ s.readUrb = none ∧ s.writeUrbs = [] := by
    rcases hlife.gone_cases hgone with hb | rfl
    · exact halive.gone hb
    · obtain ⟨-, -, -, hdisc, hread, hwrite⟩ := hown
      exact ⟨hdisc (by decide), hread (by decide), hwrite (by decide)⟩
  have hstays := act_staysGone ho hall.1 h
  exact ⟨hstays.disconnected, hstays.readUrb hall.2.1, hstays.writeUrbs hall.2.2⟩

/-- What a thread knows after its own step. -/
theorem act_refers (hown : l.Refers i s) (hanchors : s.writeUrbs.length ≤ s.dev.submitted)
    (h : act i e l s = some (l', s', os)) : l'.Refers i s' := by
  have hlife := act_life h
  cases l with
  | idle =>
      cases e with
      | call c =>
          cases enter_cases h with
          | read hf _ => exact hf
          | write hf _ => exact hf
          | flush hf => exact hf
          | openFile hf hfree hreg =>
              exact ⟨hf, by simp [Sys.useFile, hfree], hreg⟩
          | disconnect _ _ => exact ⟨rfl, rfl, by simp [DisconnectPc.stage]⟩
          | suspend _ hbound => exact ⟨rfl, hbound⟩
          | reset _ hbound => exact ⟨rfl, hbound⟩
          | _ => trivial
      | _ => cases h
  | read f count nb pc =>
      obtain ⟨p, hr, rfl⟩ | ⟨rv, s₁, os₁, hr, rfl, -, -⟩ := inside_cases h
      · have hopened : s'.opened = s.opened := congrArg Life.opened (hlife.eq_life rfl)
        simpa only [Local.Refers, hopened] using hown
      · trivial
  | write f data nb pc =>
      obtain ⟨p, hr, rfl⟩ | ⟨rv, s₁, os₁, hr, rfl, -, -⟩ := inside_cases h
      · have hopened : s'.opened = s.opened := congrArg Life.opened (hlife.eq_life rfl)
        simpa only [Local.Refers, hopened] using hown
      · trivial
  | flush f pc =>
      obtain ⟨p, hr, rfl⟩ | ⟨rv, s₁, os₁, hr, rfl, -, -⟩ := inside_cases h
      · have hopened : s'.opened = s.opened := congrArg Life.opened (hlife.eq_life rfl)
        simpa only [Local.Refers, hopened] using hown
      · trivial
  | openFile f pc =>
      obtain ⟨p, hr, rfl⟩ | ⟨rv, s₁, os₁, hr, rfl, -, -⟩ := inside_cases h
      · cases (skelOpen_cases hr).2 <;> exact hown
      · trivial
  | release f pc =>
      obtain ⟨p, hr, rfl⟩ | ⟨rv, s₁, os₁, hr, rfl, -, -⟩ := inside_cases h <;> trivial
  | disconnect pc =>
      obtain ⟨p, hr, rfl⟩ | ⟨rv, s₁, os₁, hr, rfl, -, -⟩ := inside_cases h
      · obtain ⟨hlock, hbinding, hreg, hdisc, hread, hwrite⟩ := hown
        cases (skelDisconnect_cases hr).2 with
        | setIntfdata => exact ⟨hlock, hbinding, by simp [DisconnectPc.stage]⟩
        | deregister _ => exact ⟨hlock, hbinding, by simp [DisconnectPc.stage]⟩
        | lock _ => exact ⟨hlock, hbinding, fun _ => hreg (by decide), by simp [DisconnectPc.stage]⟩
        | disconnected =>
            exact ⟨hlock, hbinding, fun _ => hreg (by decide), fun _ => rfl,
              by simp [DisconnectPc.stage]⟩
        | unlock =>
            exact ⟨hlock, hbinding, fun _ => hreg (by decide), fun _ => hdisc (by decide),
              by simp [DisconnectPc.stage]⟩
        | killRead hnone =>
            exact ⟨hlock, hbinding, fun _ => hreg (by decide), fun _ => hdisc (by decide),
              fun _ => hnone, by simp [DisconnectPc.stage]⟩
        | killAnchored hzero =>
            exact ⟨hlock, hbinding, fun _ => hreg (by decide), fun _ => hdisc (by decide),
              fun _ => hread (by decide), fun _ => List.eq_nil_of_length_eq_zero (by omega)⟩
      · trivial
  | suspend pc =>
      obtain ⟨p, hr, rfl⟩ | ⟨rv, s₁, os₁, hr, rfl, -, -⟩ := inside_cases h
      · rw [(skelSuspend_cases hr).1]
        exact hown
      · trivial
  | reset pc =>
      obtain ⟨p, hr, rfl⟩ | ⟨rv, s₁, os₁, hr, rfl, -, -⟩ := inside_cases h
      · cases (skelReset_cases hr).2 <;> exact hown
      · trivial

end

/-! ## Runs -/

theorem HardwareStep.life {s s' : Sys ι} {os : List (Out ι)} (h : HardwareStep s s' os) :
    s'.life = s.life ∧ s'.callers = s.callers ∧
      s'.dev.disconnected = s.dev.disconnected ∧ (s.readUrb = none → s'.readUrb = none) ∧
      (s.writeUrbs = [] → s'.writeUrbs = []) := by
  cases h with
  | dma _ _ => exact ⟨rfl, rfl, rfl, id, id⟩
  | received _ _ => exact ⟨rfl, rfl, rfl, fun _ => rfl, id⟩
  | readFailed _ _ _ => exact ⟨rfl, rfl, rfl, fun _ => rfl, id⟩
  | writeDone _ => exact ⟨rfl, rfl, rfl, id, fun h => by simp [h]⟩

theorem refers_hardware {i : ι} {l : Local} {s s' : Sys ι} {os : List (Out ι)}
    (h : HardwareStep s s' os) (hl : l.Refers i s) : l.Refers i s' := by
  obtain ⟨hlife, hcallers, hdisc, hread, hwrite⟩ := h.life
  have hopened : s'.opened = s.opened := congrArg Life.opened hlife
  have hreg : s'.registered = s.registered := congrArg Life.registered hlife
  have hbinding : s'.binding = s.binding := congrArg Life.binding hlife
  have husers : s'.users = s.users := congrArg Callers.users hcallers
  have hlock : s'.deviceLock = s.deviceLock := congrArg Callers.deviceLock hcallers
  cases l with
  | disconnect pc =>
      obtain ⟨h₁, h₂, h₃, h₄, h₅, h₆⟩ := hl
      exact ⟨hlock.trans h₁, hbinding.trans h₂, fun hpc => hreg.trans (h₃ hpc),
        fun hpc => hdisc.trans (h₄ hpc), fun hpc => hread (h₅ hpc), fun hpc => hwrite (h₆ hpc)⟩
  | idle => trivial
  | release f pc => trivial
  | _ => simpa only [Local.Refers, hopened, hreg, hbinding, husers, hlock] using hl

section

variable [DecidableEq ι] [Fintype ι]

structure Sustained (p : Pool.Config ι (Sys ι) Local) : Prop where
  safe : Safe p
  counted : Counted p
  alive : Alive p.shared
  refers : ∀ i, (p.locals i).Refers i p.shared
  kref : Pool.Balanced Local.releases (fun s : Sys ι => s.opened.card + s.life.boundRef)
    (fun s => s.dev.kref) p
  autopm : Pool.Balanced Local.autopm (fun s : Sys ι => s.opened.card) Sys.pmUsage p

omit [DecidableEq ι] in
theorem sustained_start (bulkInBuffer : List UInt8) :
    Sustained (start bulkInBuffer : Pool.Config ι (Sys ι) Local) where
  safe := safe_start bulkInBuffer
  counted := counted_start bulkInBuffer
  alive :=
    { life := ⟨by simp [start, probed, Sys.life], by simp [start, probed, Sys.life], rfl⟩
      gone := by simp [start, probed] }
  refers := fun _ => trivial
  kref := by simp [Pool.Balanced, start, probed, Sys.life, Life.boundRef]
  autopm := by simp [Pool.Balanced, start, probed]

omit [DecidableEq ι] in
theorem Sustained.kref_pos {p : Pool.Config ι (Sys ι) Local} (h : Sustained p) (i : ι)
    (hi : p.locals i ≠ .idle) : 0 < p.shared.dev.kref :=
  Usb.kref_pos h.alive (h.refers i) (h.kref.le i) hi

theorem sustained_step (ev : Event ι) {p : Pool.Config ι (Sys ι) Local} (h : Sustained p) :
    Sustained (step ev p).1 := by
  have hholds : Pool.Holds Alive (fun i l s => l.Refers i s) (step ev p).1 := by
    refine Pool.Holds.step (K := Sustained) ?_ ?_ ?_ ev h ⟨h.alive, h.refers⟩
    · intro i e q l s os hq _ hact
      have hanchors := hq.counted.anchors.le_shared
      exact ⟨hq.alive.step (hq.safe.locals i) (hq.refers i) (hq.kref_pos i) hact,
        act_refers (hq.refers i) hanchors hact⟩
    · intro i e q l s os j hq _ hj hact
      exact refers_other hq.safe hq.counted hq.refers hj hact
    · intro f q s os hq _ hf
      have hhard := hardware_cases hf
      obtain ⟨hlife, -, hdisc, hread, hwrite⟩ := hhard.life
      refine ⟨⟨hlife ▸ hq.alive.life, fun hgone => ?_⟩, fun j => refers_hardware hhard (hq.refers j)⟩
      obtain ⟨h₁, h₂, h₃⟩ := hq.alive.gone ((congrArg Life.binding hlife).symm.trans hgone)
      exact ⟨hdisc.trans h₁, hread h₂, hwrite h₃⟩
  refine ⟨safe_step ev h.safe, counted_step ev h.counted, hholds.shared, hholds.locals, ?_, ?_⟩
  · refine Pool.Balanced.step (K := Sustained) ?_ ?_ ev h h.kref
    · intro i e q l s os hq _ hact
      exact ((act_life hact).balance (hq.refers i) (hq.kref.le i) (hq.autopm.le i)).1
    · intro f q s os hq _ hf
      have hlife := (hardware_cases hf).life.1
      rw [hlife, show s.opened = q.shared.opened from congrArg Life.opened hlife,
        show s.dev.kref = q.shared.dev.kref from congrArg Life.kref hlife]
  · refine Pool.Balanced.step (K := Sustained) ?_ ?_ ev h h.autopm
    · intro i e q l s os hq _ hact
      exact ((act_life hact).balance (hq.refers i) (hq.kref.le i) (hq.autopm.le i)).2
    · intro f q s os hq _ hf
      have hlife := (hardware_cases hf).life.1
      rw [show s.opened = q.shared.opened from congrArg Life.opened hlife,
        show s.pmUsage = q.shared.pmUsage from congrArg Life.pmUsage hlife]

theorem sustained_run (bulkInBuffer : List UInt8) (es : List (Event ι)) :
    Sustained (runFrom bulkInBuffer es) :=
  (Machine.inv_run (G := fun _ => True)
    (fun ev _ hp => ⟨sustained_step ev hp, fun _ _ => trivial⟩) es
    (sustained_start bulkInBuffer)).1

/-- In every run, the device is freed at most once, and only when the interface has been
disconnected, every file has been closed, no thread is inside of a call on it, and no URB is
in flight; and it is freed then. -/
theorem freed_iff (bulkInBuffer : List UInt8) (es : List (Event ι)) :
    let p := runFrom bulkInBuffer es
    p.shared.deletes ≤ 1 ∧ (p.shared.deletes = 1 ↔ p.shared.freed = true) ∧
      (p.shared.freed = true →
        (∀ i, p.locals i = .idle) ∧ p.shared.readUrb = none ∧ p.shared.writeUrbs = []) ∧
      (p.shared.freed = true ↔
        p.shared.binding = .gone ∧ p.shared.opened = ∅ ∧ ∀ i, (p.locals i).releases = 0) := by
  intro p
  have h : Sustained p := sustained_run bulkInBuffer es
  clear_value p
  have hzero : p.shared.dev.kref = 0 ↔
      p.shared.binding = .gone ∧ p.shared.opened = ∅ ∧ ∀ i, (p.locals i).releases = 0 := by
    have hkref := h.kref
    simp only [Pool.Balanced] at hkref
    have hbound : p.shared.life.boundRef = 0 ↔ p.shared.binding = .gone := by
      unfold Life.boundRef
      split
      next hgone => exact ⟨fun _ => hgone, fun _ => rfl⟩
      next hne => exact ⟨fun h => absurd h one_ne_zero, fun hgone => absurd hgone hne⟩
    rw [← hbound, ← Finset.card_eq_zero, ← hkref]
    have hsum : ∑ i, (p.locals i).releases = 0 ↔ ∀ i, (p.locals i).releases = 0 := by simp
    rw [← hsum]
    omega
  have hdeletes : p.shared.deletes = if p.shared.freed = true then 1 else 0 := h.alive.life.deletes
  have hfreed : p.shared.freed = true ↔ p.shared.dev.kref = 0 := h.alive.life.freed
  refine ⟨?_, ?_, fun hf => ⟨fun i => ?_, ?_⟩, hfreed.trans hzero⟩
  · rw [hdeletes]
    split <;> omega
  · rw [hdeletes]
    split <;> simp_all
  · by_contra hi
    exact (h.kref_pos i hi).ne' (hfreed.mp hf)
  · exact (h.alive.gone (hzero.mp (hfreed.mp hf)).1).2

end

end Usb
