import Mathlib.Tactic

/-! Loops with a step budget, and the runs of a transition system.

    A `while` loop is a step function that yields either the next loop state or the loop's result;
    `loop` runs it for at most `n` steps and answers `none` only when the budget is spent. The rules
    are the usual pair: an invariant gives the postcondition of any result, and a measure that every
    step decreases gives a budget that is always enough. -/

namespace Kit
open List Option

/-! ### One more element at the end -/

theorem mem_concat {α : Type} {l : List α} {a x : α} : x ∈ l ++ [a] ↔ x ∈ l ∨ x = a := by
  rw [mem_append, mem_singleton]

theorem forall_mem_concat {α : Type} {l : List α} {a : α} {P : α → Prop} :
    (∀ x ∈ l ++ [a], P x) ↔ (∀ x ∈ l, P x) ∧ P a := by
  rw [forall_mem_append, forall_mem_singleton]

theorem nodup_append_singleton {α : Type} {l : List α} {a : α} : (l ++ [a]).Nodup ↔ l.Nodup ∧ a ∉ l := by
  rw [← concat_eq_append, nodup_concat, and_comm]

theorem not_mem_of_nodup {α : Type} {pre post : List α} {x : α} (h : (pre ++ x :: post).Nodup) : x ∉ pre :=
  fun hx => (nodup_append.mp h).2.2 x hx x (.head _) rfl

section Loop

variable {σ ρ : Type}

/-- Run a loop body at most `n` times; `none` means the budget ran out. -/
def loop (f : σ → σ ⊕ ρ) : ℕ → σ → Option ρ
  | 0, _ => none
  | n + 1, s =>
    match f s with
    | .inl s' => loop f n s'
    | .inr r => some r

variable {f : σ → σ ⊕ ρ} {I : σ → Prop} {Q : ρ → Prop}

/-- Invariant rule: what every step keeps and every exit turns into `Q` holds of any result. -/
theorem loop_post (hstep : ∀ s s', I s → f s = .inl s' → I s')
    (hdone : ∀ s r, I s → f s = .inr r → Q r) :
    ∀ (n : ℕ) (s : σ) (r : ρ), I s → loop f n s = some r → Q r
  | 0, _, _, _, h => by simp [loop] at h
  | n + 1, s, r, hs, h => by
    rw [loop] at h
    split at h
    · rename_i s' hs'
      exact loop_post hstep hdone n s' r (hstep s s' hs hs') h
    · rename_i r' hr'
      rw [some.injEq] at h
      exact h ▸ hdone s r' hs hr'

/-- Two budgets that are both enough give the same result. -/
theorem loop_unique : ∀ {n m : ℕ} {s : σ} {r r' : ρ}, loop f n s = some r → loop f m s = some r' → r = r'
  | 0, _, _, _, _, h, _ => by simp [loop] at h
  | _ + 1, 0, _, _, _, _, h => by simp [loop] at h
  | n + 1, m + 1, s, r, r', h, h' => by
    rw [loop] at h h'
    cases hs : f s with
    | inl s' =>
      simp only [hs] at h h'
      exact loop_unique h h'
    | inr r₀ =>
      simp only [hs, some.injEq] at h h'
      exact h.symm.trans h'

/-- Termination rule: a measure that every step decreases is a sufficient budget. -/
theorem loop_total (μ : σ → ℕ) (hstep : ∀ s s', I s → f s = .inl s' → I s')
    (hdec : ∀ s s', I s → f s = .inl s' → μ s' < μ s) :
    ∀ (n : ℕ) (s : σ), I s → μ s < n → ∃ r, loop f n s = some r
  | 0, _, _, h => absurd h (Nat.not_lt_zero _)
  | n + 1, s, hs, h => by
    rw [loop]
    split
    · rename_i s' hs'
      have hlt := hdec s s' hs hs'
      exact loop_total μ hstep hdec n s' (hstep s s' hs hs') (by omega)
    · rename_i r hr
      exact ⟨r, rfl⟩

/-- Total correctness: the loop ends, and with `Q`. -/
theorem loop_correct (μ : σ → ℕ) (hstep : ∀ s s', I s → f s = .inl s' → I s')
    (hdec : ∀ s s', I s → f s = .inl s' → μ s' < μ s) (hdone : ∀ s r, I s → f s = .inr r → Q r)
    (n : ℕ) (s : σ) (hs : I s) (hn : μ s < n) : ∃ r, loop f n s = some r ∧ Q r := by
  obtain ⟨r, hr⟩ := loop_total μ hstep hdec n s hs hn
  exact ⟨r, hr, loop_post hstep hdone n s r hs hr⟩

/-- Termination by counting rounds: if an invariant that knows the round number bounds it whenever
    the loop goes on, the loop is over by then. -/
theorem loop_rounds {I : ℕ → σ → Prop} {B : ℕ}
    (hstep : ∀ k s s', I k s → f s = .inl s' → I (k + 1) s')
    (hbound : ∀ k s s', I k s → f s = .inl s' → k < B) :
    ∀ (n k : ℕ) (s : σ), I k s → k ≤ B → B < n + k → ∃ r, loop f n s = some r
  | 0, k, s, _, hk, h => by omega
  | n + 1, k, s, hs, hk, h => by
    rw [loop]
    split
    · rename_i s' hs'
      exact loop_rounds hstep hbound n (k + 1) s' (hstep k s s' hs hs') (hbound k s s' hs hs') (by omega)
    · rename_i r hr
      exact ⟨r, rfl⟩

end Loop

/-! ### `for` loops -/

section Fold

variable {α σ : Type}

/-- A `for` loop whose invariant knows the part of the list already visited. Its body may fail: it never does,
    and the invariant holds at the end. -/
theorem foldlM_visited (f : σ → α → Option σ) (P : List α → σ → Prop) (l : List α) {s : σ}
    (h₀ : P [] s)
    (hstep : ∀ pre x post s, l = pre ++ x :: post → P pre s → ∃ s', f s x = some s' ∧ P (pre ++ [x]) s') :
    ∃ s', l.foldlM f s = some s' ∧ P l s' := by
  have key : ∀ (post pre : List α) (s : σ), l = pre ++ post → P pre s →
      ∃ s', post.foldlM f s = some s' ∧ P l s' := by
    intro post
    induction post with
    | nil =>
      intro pre s hl hs
      rw [append_nil] at hl
      exact ⟨s, rfl, hl ▸ hs⟩
    | cons x post ih =>
      intro pre s hl hs
      obtain ⟨s₁, hs₁, hp⟩ := hstep pre x post s hl hs
      obtain ⟨s₂, hs₂, hp₂⟩ := ih (pre ++ [x]) s₁ (by simpa using hl) hp
      exact ⟨s₂, by rw [foldlM_cons, hs₁]; exact hs₂, hp₂⟩
  exact key l [] s rfl h₀

/-- The same for a loop whose body cannot fail. -/
theorem foldl_visited (f : σ → α → σ) (P : List α → σ → Prop) (l : List α) {s : σ} (h₀ : P [] s)
    (hstep : ∀ pre x post s, l = pre ++ x :: post → P pre s → P (pre ++ [x]) (f s x)) :
    P l (l.foldl f s) := by
  obtain ⟨s', hs', h⟩ := foldlM_visited (fun s x => some (f s x)) P l h₀ fun pre x post s hl hs =>
    ⟨_, rfl, hstep pre x post s hl hs⟩
  have hfold : l.foldlM (fun s x => some (f s x)) s = some (l.foldl f s) := foldlM_pure ..
  exact mem_unique hfold hs' ▸ h

/-- What holds of the empty list holds of all prefixes exactly if each element meets what keeps it. -/
theorem forall_prefix_iff {l : List α} {P : List α → Prop} {Q : List α → α → Prop} (hnil : P [])
    (hstep : ∀ pre x post, l = pre ++ x :: post → P pre → (P (pre ++ [x]) ↔ Q pre x)) :
    (∀ pre post, l = pre ++ post → P pre) ↔ ∀ pre x post, l = pre ++ x :: post → Q pre x := by
  constructor
  · intro hall pre x post hl
    exact (hstep pre x post hl (hall pre _ hl)).mp (hall (pre ++ [x]) post (by simp [hl]))
  · intro hQ pre
    induction pre using List.reverseRecOn with
    | nil => exact fun _ _ => hnil
    | append_singleton pre x ih =>
      intro post hl
      rw [append_assoc, singleton_append] at hl
      exact (hstep pre x post hl (ih _ hl)).mpr (hQ pre x post hl)

/-- A comprehension none of whose elements fails. -/
theorem mapM_eq_map {β : Type} {f : α → Option β} {g : α → β} : ∀ {l : List α},
    (∀ x ∈ l, f x = some (g x)) → l.mapM f = some (l.map g)
  | [], _ => rfl
  | x :: l, h => by
    rw [mapM_cons, h x (.head _), mapM_eq_map fun y hy => h y (.tail _ hy)]
    rfl

end Fold

end Kit
