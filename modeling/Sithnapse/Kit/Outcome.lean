import Mathlib.Tactic

/-! Computations that may fail in known ways.

    `Outcome allowed Q x` says that `x` either returns a value with `Q` or fails with an allowed
    error: the postcondition of code that may raise. The rules follow the program: one for binding,
    one for a loop over a list. -/

namespace Kit
open List

variable {ε α β σ : Type} {allowed : ε → Prop} {P : α → Prop} {Q : β → Prop}

/-- `x` returns a value with `Q`, or fails with an allowed error. -/
def Outcome (allowed : ε → Prop) (Q : α → Prop) : Except ε α → Prop
  | .ok a => Q a
  | .error e => allowed e

@[simp] theorem outcome_ok {a : α} : Outcome allowed P (.ok a) ↔ P a := Iff.rfl

@[simp] theorem outcome_pure {a : α} : Outcome allowed P (pure a) ↔ P a := Iff.rfl

@[simp] theorem outcome_error {e : ε} : Outcome allowed P (.error e) ↔ allowed e := Iff.rfl

variable {f : α → Except ε β} {x : Except ε α}

theorem Outcome.bind (hx : Outcome allowed P x)
    (hf : ∀ a, P a → Outcome allowed Q (f a)) : Outcome allowed Q (x >>= f) := by
  cases x with
  | ok a => exact hf a hx
  | error e => exact hx

theorem Outcome.mono {P' : α → Prop} (hx : Outcome allowed P x)
    (h : ∀ a, P a → P' a) : Outcome allowed P' x := by
  cases x with
  | ok a => exact h a hx
  | error e => exact hx

/-- A loop whose invariant knows the part of the list already visited. -/
theorem Outcome.foldlM (f : σ → α → Except ε σ) (I : List α → σ → Prop) (l : List α) {s : σ}
    (h₀ : I [] s)
    (hstep : ∀ pre x post s, l = pre ++ x :: post → I pre s → Outcome allowed (I (pre ++ [x])) (f s x)) :
    Outcome allowed (I l) (l.foldlM f s) := by
  have key : ∀ (post pre : List α) (s : σ), l = pre ++ post → I pre s →
      Outcome allowed (I l) (post.foldlM f s) := by
    intro post
    induction post with
    | nil =>
      intro pre s hl hs
      rw [append_nil] at hl
      exact hl ▸ hs
    | cons x post ih =>
      intro pre s hl hs
      rw [foldlM_cons]
      exact (hstep pre x post s hl hs).bind fun s' hs' => ih (pre ++ [x]) s' (by simpa using hl) hs'
  exact key l [] s rfl h₀

/-- A comprehension over a list: each element's computation has its own postcondition. -/
theorem Outcome.mapM {Q : α → β → Prop} : ∀ {l : List α},
    (∀ x ∈ l, Outcome allowed (Q x) (f x)) → Outcome allowed (List.Forall₂ Q l) (l.mapM f)
  | [], _ => List.Forall₂.nil
  | x :: l, h => by
    rw [mapM_cons]
    refine (h x (.head _)).bind fun y hy => ?_
    refine (Outcome.mapM fun z hz => h z (.tail _ hz)).bind fun ys hys => ?_
    exact List.Forall₂.cons hy hys

/-- A comprehension none of whose elements fails. -/
theorem mapM_eq_ok {g : α → β} : ∀ {l : List α}, (∀ x ∈ l, f x = .ok (g x)) → l.mapM f = .ok (l.map g)
  | [], _ => rfl
  | x :: l, h => by
    rw [mapM_cons, h x (.head _), mapM_eq_ok fun y hy => h y (.tail _ hy)]
    rfl

theorem toOption_eq_some {a : α} : x.toOption = some a ↔ x = .ok a := by
  cases x with
  | ok b => simp [Except.toOption]
  | error e => simp [Except.toOption]

end Kit
