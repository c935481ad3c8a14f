-- SUMMARY: Programs over named operations, and the programs of atomic steps that they stand for.
import LinuxShare.Lib.Prog

/-!
# Scripts

A script is a program whose shared operations have names. A scheduler can see which
operation comes next, and execute it as one step; replacing each operation by the
program that carries it out gives back an ordinary program.
-/

namespace Resumable

/-- A program over the operations `F` with results `α`. -/
inductive Script (F : Type → Type 1) (α : Type) : Type 1 where
  | ret (a : α)
  | call {β : Type} (op : F β) (k : β → Script F α)

namespace Script

variable {F : Type → Type 1} {σ ε α β : Type}

/-- A single operation. -/
def op (f : F α) : Script F α := .call f .ret

def bind : Script F α → (α → Script F β) → Script F β
  | .ret a, f => f a
  | .call g k, f => .call g fun b => (k b).bind f

instance : Monad (Script F) where
  pure := .ret
  bind := bind

@[simp] theorem pure_eq (a : α) : (pure a : Script F α) = .ret a := rfl

@[simp] theorem call_bind {γ : Type} (g : F γ) (k : γ → Script F α) (f : α → Script F β) :
    (Script.call g k >>= f) = .call g fun c => k c >>= f := rfl

/-- No operation is left. -/
def isRet : Script F α → Bool
  | .ret _ => true
  | .call _ _ => false

/-- The program in which `exec` carries out the operations. -/
def toProg (exec : ∀ {β : Type}, F β → Prog σ ε β) : Script F α → Prog σ ε α
  | .ret a => .ret a
  | .call g k => exec g >>= fun b => toProg exec (k b)

variable {exec : ∀ {β : Type}, F β → Prog σ ε β}

@[simp] theorem toProg_ret (a : α) : (Script.ret a : Script F α).toProg exec = pure a := rfl

@[simp] theorem toProg_op (g : F α) : (op g).toProg exec = exec g := bind_pure _

@[simp] theorem toProg_call (g : F β) (k : β → Script F α) :
    (Script.call g k).toProg exec = exec g >>= fun b => (k b).toProg exec := rfl

@[simp] theorem toProg_bind (p : Script F α) (f : α → Script F β) :
    (p >>= f).toProg exec = p.toProg exec >>= fun a => (f a).toProg exec := by
  induction p with
  | ret a => rfl
  | call g k ih =>
      rw [call_bind, toProg_call, toProg_call, bind_assoc]
      exact congrArg _ (funext ih)

end Script

end Resumable
