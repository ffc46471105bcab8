import Mathlib.Tactic

/-! Programs of atomic operations.

    A program performs operations one after the other and goes on with their replies. What an
    operation does to a state is given separately, by a function that also takes what the environment
    chooses; an operation without a result there is blocked. A program alone is `run`; programs side by
    side are in `Kit.Pool`. `Try` adds exceptions. -/

namespace Kit

/-- A program that performs operations and ends with a value. -/
inductive Prog (Op : Type) (Reply : Op → Type) (α : Type)
  | done (a : α)
  | op (o : Op) (next : Reply o → Prog Op Reply α)

namespace Prog

variable {Op : Type} {Reply : Op → Type} {α β σ χ : Type}

/-- Go on with another program. -/
def bind (p : Prog Op Reply α) (f : α → Prog Op Reply β) : Prog Op Reply β :=
  match p with
  | done a => f a
  | op o next => op o fun r => (next r).bind f

instance : Monad (Prog Op Reply) where
  pure := done
  bind := bind

/-- Perform one operation. -/
def perform (o : Op) : Prog Op Reply (Reply o) := op o done

@[simp] theorem done_bind (a : α) (f : α → Prog Op Reply β) : done a >>= f = f a := rfl

@[simp] theorem op_bind (o : Op) (next : Reply o → Prog Op Reply α) (f : α → Prog Op Reply β) :
    op o next >>= f = op o fun r => next r >>= f := rfl

theorem bind_done (p : Prog Op Reply α) : p >>= done = p := by
  induction p with
  | done a => rfl
  | op o next ih => exact congrArg (op o) (funext ih)

/-- Where an operation gets one of some replies, the program is over, with an end of some kind. -/
def Last (M : (o : Op) → Reply o → Prop) (Ends : α → Prop) : Prog Op Reply α → Prop
  | done _ => True
  | op o next => ∀ r, (next r).Last M Ends ∧ (M o r → ∃ a, next r = done a ∧ Ends a)

theorem Last.bind {M : (o : Op) → Reply o → Prop} {Ends : α → Prop} {Ends' : β → Prop}
    {p : Prog Op Reply α} {f : α → Prog Op Reply β} (hp : p.Last M Ends)
    (hf : ∀ a, (f a).Last M Ends') (hends : ∀ a, Ends a → ∃ b, f a = done b ∧ Ends' b) :
    (p >>= f).Last M Ends' := by
  induction p with
  | done a => exact hf a
  | op o next ih =>
    intro r
    refine ⟨ih r (hp r).1, fun hM => ?_⟩
    obtain ⟨a, ha, hEnds⟩ := (hp r).2 hM
    obtain ⟨b, hb, hb'⟩ := hends a hEnds
    refine ⟨b, ?_, hb'⟩
    show next r >>= f = done b
    rw [ha, done_bind, hb]

/-- Programs that may raise an exception. -/
abbrev Try (Op : Type) (Reply : Op → Type) (ε : Type) := ExceptT ε (Prog Op Reply)

end Prog

end Kit
