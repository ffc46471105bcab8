import Mathlib.Tactic

/-! Runs of a system whose steps are chosen from outside.

    A system is a partial step function: `step s a` is the state after action `a`, or `none` where
    `a` is not enabled. `Run step ok s₀ s` says that `s` is reached from `s₀` by enabled actions that
    all meet `ok` in the state they are taken in. Invariants are proved once per step and carried
    over a run by `Run.invariant`; concrete runs are computed by `exec`. -/

namespace Kit

variable {σ α : Type} {step : σ → α → Option σ} {ok : σ → α → Prop} {s₀ s s' : σ} {a : α}

/-- What an operation has returned, and the state it left. -/
theorem some_pair_inj {a b : α} {s t : σ} (h : some (a, s) = some (b, t)) : a = b ∧ s = t := by
  simpa using h

/-- The states reached from `s₀` by enabled actions that all meet `ok`. -/
inductive Run (step : σ → α → Option σ) (ok : σ → α → Prop) (s₀ : σ) : σ → Prop
  | refl : Run step ok s₀ s₀
  | tail {s s' : σ} {a : α} : Run step ok s₀ s → ok s a → step s a = some s' → Run step ok s₀ s'

/-- What holds initially and is kept by every permitted step holds in every state reached. -/
theorem Run.invariant {I : σ → Prop} (h : Run step ok s₀ s) (h₀ : I s₀)
    (hstep : ∀ {s s' : σ} {a : α}, I s → ok s a → step s a = some s' → I s') : I s := by
  induction h with
  | refl => exact h₀
  | tail _ hok hs ih => exact hstep ih hok hs

/-- A run may be continued from the state it reached. -/
theorem Run.trans {s₁ : σ} (h₁ : Run step ok s₀ s₁) (h₂ : Run step ok s₁ s) : Run step ok s₀ s := by
  induction h₂ with
  | refl => exact h₁
  | tail _ hok hs ih => exact ih.tail hok hs

/-- A run whose steps meet a stronger condition. -/
theorem Run.mono {ok' : σ → α → Prop} (h : Run step ok s₀ s) (hok : ∀ s a, ok s a → ok' s a) :
    Run step ok' s₀ s := by
  induction h with
  | refl => exact .refl
  | tail _ ha hs ih => exact ih.tail (hok _ _ ha) hs

-- numerals for a few processes in traces
instance neZeroOne : NeZero 1 := inferInstance

instance neZeroTwo : NeZero 2 := inferInstance

instance neZeroThree : NeZero 3 := inferInstance

/-- Take the given actions one after the other, each of which must meet `ok` and be enabled. -/
def exec (step : σ → α → Option σ) (ok : σ → α → Prop) [∀ s a, Decidable (ok s a)] : σ → List α → Option σ
  | s, [] => some s
  | s, a :: as =>
    if ok s a then
      match step s a with
      | some s' => exec step ok s' as
      | none => none
    else none

theorem Run.of_exec [∀ s a, Decidable (ok s a)] : ∀ (l : List α) (s₀ : σ) {s : σ},
    exec step ok s₀ l = some s → Run step ok s₀ s
  | [], s₀, s, h => by
    rw [exec, Option.some.injEq] at h
    exact h ▸ .refl
  | a :: l, s₀, s, h => by
    rw [exec] at h
    split at h
    · rename_i ha
      split at h
      · rename_i s₁ hs
        exact (Run.refl.tail ha hs).trans (Run.of_exec l s₁ h)
      · cases h
    · cases h

/-- A run that takes the given actions, and what is computed of the state it reaches. -/
theorem Run.exists_exec [∀ s a, Decidable (ok s a)] (l : List α) {P : σ → Prop}
    (h : ∃ s ∈ exec step ok s₀ l, P s) : ∃ s, Run step ok s₀ s ∧ P s := by
  obtain ⟨s, hs, hP⟩ := h
  exact ⟨s, .of_exec l s₀ hs, hP⟩

/-- A run that takes the given actions; what it leads to may be computed or follow from the run. -/
theorem Run.exists_get [∀ s a, Decidable (ok s a)] (l : List α) {P : σ → Prop}
    (h : (exec step ok s₀ l).isSome) (hP : Run step ok s₀ ((exec step ok s₀ l).get h) →
      P ((exec step ok s₀ l).get h)) : ∃ s, Run step ok s₀ s ∧ P s := by
  have hrun := Run.of_exec l s₀ (Option.some_get h).symm
  exact ⟨_, hrun, hP hrun⟩

end Kit
