-- SUMMARY: Programs as trees of atomic steps over a shared state, with a sequential and a stepwise meaning.
import Mathlib.Data.List.Induction
import Mathlib.Logic.Relation

/-!
# Resumable programs

A `Prog σ ε α` is a program that shares a state `σ` with other programs. It
either returns an `α` or offers one atomic step on the state and continues with
what the step produced. The same program text has two meanings: `Prog.run`
executes all of its steps in a row, `Prog.Next` executes exactly one, which is
what an interleaving of several programs is made of.
-/

namespace Resumable

/-- What an atomic step, or a whole sequential run, comes to. A `blocked` step
is one that cannot be taken in the current state, such as locking a lock that is
held. A `fault` is undefined behaviour: nothing is known of what happens next. -/
inductive Outcome (σ ε α : Type) where
  | ok (a : α) (s : σ)
  | blocked (s : σ)
  | fault (e : ε) (s : σ)

namespace Outcome

variable {σ ε α β γ : Type}

def bind (o : Outcome σ ε α) (f : α → σ → Outcome σ ε β) : Outcome σ ε β :=
  match o with
  | ok a s => f a s
  | blocked s => blocked s
  | fault e s => fault e s

@[simp] theorem bind_ok (a : α) (s : σ) (f : α → σ → Outcome σ ε β) :
    (ok a s).bind f = f a s := rfl

@[simp] theorem bind_fault (e : ε) (s : σ) (f : α → σ → Outcome σ ε β) :
    (fault e s).bind f = fault e s := rfl

theorem bind_assoc (o : Outcome σ ε α) (f : α → σ → Outcome σ ε β)
    (g : β → σ → Outcome σ ε γ) :
    (o.bind f).bind g = o.bind fun a s => (f a s).bind g := by
  cases o <;> rfl

theorem bind_eq_ok {o : Outcome σ ε α} {f : α → σ → Outcome σ ε β} {b : β} {s' : σ} :
    o.bind f = ok b s' ↔ ∃ a s, o = ok a s ∧ f a s = ok b s' := by
  cases o <;> simp [bind]

/-- A run ends well in one state only. -/
theorem ok_unique {o : Outcome σ ε α} {a a' : α} {s s' : σ} (h : o = ok a s) (h' : o = ok a' s') :
    s = s' := by
  cases h.symm.trans h'
  rfl

/-- The execution ended well in a state with `p`; this can be evaluated. -/
def okAnd (o : Outcome σ ε α) (p : σ → Bool) : Bool :=
  match o with
  | ok _ s => p s
  | blocked _ => false
  | fault _ _ => false

theorem exists_of_okAnd {o : Outcome σ ε α} {p : σ → Bool} (h : o.okAnd p = true) :
    ∃ a s, o = ok a s ∧ p s = true := by
  cases o with
  | ok a s => exact ⟨a, s, rfl, h⟩
  | blocked s => cases h
  | fault e s => cases h

theorem okAnd_of_eq_ok {o : Outcome σ ε α} {a : α} {s : σ} (h : o = ok a s) (p : σ → Bool) :
    o.okAnd p = p s := by
  rw [h]
  rfl

end Outcome

/-- A program over the shared state `σ` with faults `ε` and results `α`. -/
inductive Prog (σ ε α : Type) : Type 1 where
  | ret (a : α)
  | step {β : Type} (act : σ → Outcome σ ε β) (k : β → Prog σ ε α)

namespace Prog

variable {σ ε α β γ : Type}

/-- A single atomic step. -/
def atom (act : σ → Outcome σ ε α) : Prog σ ε α := .step act .ret

def bind : Prog σ ε α → (α → Prog σ ε β) → Prog σ ε β
  | .ret a, f => f a
  | .step act k, f => .step act fun b => (k b).bind f

instance : Monad (Prog σ ε) where
  pure := .ret
  bind := bind

theorem step_bind {δ : Type} (act : σ → Outcome σ ε δ) (k : δ → Prog σ ε α)
    (f : α → Prog σ ε β) : (Prog.step act k >>= f) = .step act fun d => k d >>= f := rfl

theorem bind_ret (p : Prog σ ε α) : p.bind .ret = p := by
  induction p with
  | ret a => rfl
  | step act k ih => simp only [bind, ih]

theorem bind_bind (p : Prog σ ε α) (f : α → Prog σ ε β) (g : β → Prog σ ε γ) :
    (p.bind f).bind g = p.bind fun a => (f a).bind g := by
  induction p with
  | ret a => rfl
  | step act k ih => simp only [bind, ih]

instance : LawfulMonad (Prog σ ε) :=
  LawfulMonad.mk' (Prog σ ε) (fun p => bind_ret p) (fun _ _ => rfl) (fun p f g => bind_bind p f g)

/-! ## Sequential runs -/

/-- Execute every step of the program in a row. -/
def run : Prog σ ε α → σ → Outcome σ ε α
  | .ret a, s => .ok a s
  | .step act k, s => (act s).bind fun b s' => (k b).run s'

@[simp] theorem run_pure (a : α) (s : σ) : (pure a : Prog σ ε α).run s = .ok a s := rfl

@[simp] theorem run_atom (act : σ → Outcome σ ε α) (s : σ) : (atom act).run s = act s := by
  simp only [atom, run]
  cases act s <;> rfl

@[simp] theorem run_bind (p : Prog σ ε α) (f : α → Prog σ ε β) (s : σ) :
    (p >>= f).run s = (p.run s).bind fun a s' => (f a).run s' := by
  induction p generalizing s with
  | ret a => rfl
  | step act k ih =>
      simp only [step_bind, run, Outcome.bind_assoc]
      congr 1
      funext b s'
      exact ih b s'

@[simp] theorem run_map (f : α → β) (p : Prog σ ε α) (s : σ) :
    (f <$> p).run s = (p.run s).bind fun a s' => .ok (f a) s' := by
  rw [← bind_pure_comp, run_bind]
  rfl

/-! ## Runs of a list of events -/

section Events

variable {E : Type} {exec : E → Prog σ ε Unit}

theorem forM_cons (e : E) (es : List E) :
    (e :: es).forM exec = (exec e >>= fun _ => es.forM exec) := rfl

theorem forM_append (es es' : List E) :
    (es ++ es').forM exec = (es.forM exec >>= fun _ => es'.forM exec) := by
  induction es with
  | nil => rfl
  | cons e es ih => rw [List.cons_append, forM_cons, forM_cons, ih, bind_assoc]

/-- One more event goes on from where the others ended. -/
theorem run_forM_snoc {es : List E} {e : E} {s₀ s s' : σ} (h : (es.forM exec).run s₀ = .ok () s)
    (he : (exec e).run s = .ok () s') : ((es ++ [e]).forM exec).run s₀ = .ok () s' := by
  rw [forM_append, run_bind, h, Outcome.bind_ok, forM_cons, run_bind, he]
  rfl

/-- A run of events that ends well has passed through the state before the last one. -/
theorem run_forM_snoc_eq_ok {es : List E} {e : E} {s₀ s' : σ} :
    ((es ++ [e]).forM exec).run s₀ = .ok () s' ↔
      ∃ s, (es.forM exec).run s₀ = .ok () s ∧ (exec e).run s = .ok () s' := by
  constructor
  · intro h
    rw [forM_append, run_bind] at h
    obtain ⟨_, s, hrun, h⟩ := Outcome.bind_eq_ok.mp h
    rw [forM_cons, run_bind] at h
    obtain ⟨_, s₁, he, h⟩ := Outcome.bind_eq_ok.mp h
    obtain rfl : s₁ = s' := Outcome.ok_unique (a := ()) rfl h
    exact ⟨s, hrun, he⟩
  · rintro ⟨s, hrun, he⟩
    exact run_forM_snoc hrun he

/-- What holds at the start and is kept by each event holds after all of them, and no
event gets stuck. -/
theorem forM_invariant {es : List E} {s₀ : σ} {P : List E → σ → Prop} (hinit : P [] s₀)
    (hstep : ∀ pre e post s, es = pre ++ e :: post → (pre.forM exec).run s₀ = .ok () s → P pre s →
      ∃ s', (exec e).run s = .ok () s' ∧ P (pre ++ [e]) s') :
    ∃ s, (es.forM exec).run s₀ = .ok () s ∧ P es s := by
  suffices hpre : ∀ pre post, es = pre ++ post →
      ∃ s, (pre.forM exec).run s₀ = .ok () s ∧ P pre s by
    exact hpre es [] (List.append_nil es).symm
  intro pre
  induction pre using List.reverseRecOn with
  | nil => exact fun _ _ => ⟨s₀, rfl, hinit⟩
  | append_singleton pre e ih =>
      intro post hsplit
      have hsplit' : es = pre ++ e :: post := by simpa using hsplit
      obtain ⟨s, hrun, hP⟩ := ih (e :: post) hsplit'
      obtain ⟨s', he, hP'⟩ := hstep pre e post s hsplit' hrun hP
      exact ⟨s', run_forM_snoc hrun he, hP'⟩

end Events

/-! ## Single steps -/

/-- `Next (p, s) (p', s')`: program `p` takes its next step in state `s`. -/
inductive Next : Prog σ ε α × σ → Prog σ ε α × σ → Prop where
  | mk {β : Type} {act : σ → Outcome σ ε β} {k : β → Prog σ ε α} {b : β} {s s' : σ} :
      act s = .ok b s' → Next (.step act k, s) (k b, s')

/-- A step does not change what the rest of the run comes to. -/
theorem Next.run_eq {p p' : Prog σ ε α} {s s' : σ} (h : Next (p, s) (p', s')) :
    p.run s = p'.run s' := by
  cases h with
  | mk h => simp only [run, h, Outcome.bind_ok]

/-- The steps of a program that begins with a single step. -/
theorem next_atom_bind {act : σ → Outcome σ ε β} {k : β → Prog σ ε α} {p : Prog σ ε α} {s s' : σ} :
    Next (atom act >>= k, s) (p, s') ↔ ∃ b, act s = .ok b s' ∧ p = k b := by
  constructor
  · rintro ⟨h⟩
    exact ⟨_, h, rfl⟩
  · rintro ⟨b, h, rfl⟩
    exact .mk (k := fun b => .ret b >>= k) h

theorem ret_ne_atom_bind {a : α} {act : σ → Outcome σ ε β} {k : β → Prog σ ε α} :
    Prog.ret a ≠ (atom act >>= k) := by
  rintro ⟨⟩

theorem not_next_ret {a : α} {p : Prog σ ε α} {s s' : σ} : ¬ Next (.ret a, s) (p, s') := by
  rintro ⟨⟩

/-- What a program still has to do, seen as a predicate on states: a run that
ends well ends in `Q`. -/
def Safe (Q : σ → Prop) (p : Prog σ ε α) (s : σ) : Prop :=
  ∀ a s', p.run s = .ok a s' → Q s'

theorem Safe.next {Q : σ → Prop} {p p' : Prog σ ε α} {s s' : σ} (hs : Safe Q p s)
    (h : Next (p, s) (p', s')) : Safe Q p' s' :=
  fun a s'' hr => hs a s'' (h.run_eq.trans hr)

theorem Safe.ret {Q : σ → Prop} {s : σ} (h : Q s) (a : α) : Safe Q (.ret a : Prog σ ε α) s := by
  rintro _ _ ⟨⟩
  exact h

theorem Safe.of_ret {Q : σ → Prop} {a : α} {s : σ} (hs : Safe Q (.ret a : Prog σ ε α) s) : Q s :=
  hs a s rfl

/-! ## Steps that keep a predicate -/

/-- Every step of the program keeps `P`, whatever the steps before it produced. -/
def Keeps (P : σ → Prop) : Prog σ ε α → Prop
  | .ret _ => True
  | .step act k => (∀ s b s', act s = .ok b s' → P s → P s') ∧ ∀ b, (k b).Keeps P

namespace Keeps

variable {P : σ → Prop}

theorem pure (a : α) : (Pure.pure a : Prog σ ε α).Keeps P := trivial

theorem atom {act : σ → Outcome σ ε α} (h : ∀ s a s', act s = .ok a s' → P s → P s') :
    (Prog.atom act).Keeps P :=
  ⟨h, fun _ => trivial⟩

theorem bind {p : Prog σ ε α} {f : α → Prog σ ε β} (hp : p.Keeps P) (hf : ∀ a, (f a).Keeps P) :
    (p >>= f).Keeps P := by
  induction p with
  | ret a => exact hf a
  | step act k ih => exact ⟨hp.1, fun b => ih b (hp.2 b)⟩

theorem next {p p' : Prog σ ε α} {s s' : σ} (hp : p.Keeps P) (h : Next (p, s) (p', s')) :
    p'.Keeps P := by
  cases h with
  | mk h => exact hp.2 _

theorem holds {p p' : Prog σ ε α} {s s' : σ} (hp : p.Keeps P) (h : Next (p, s) (p', s'))
    (hs : P s) : P s' := by
  cases h with
  | mk h => exact hp.1 _ _ _ h hs

end Keeps

end Prog

end Resumable
