import Sithnapse.Kit.Loop

/-! Replaying a versioned change log onto a set.

    Every change of a log names an item and says whether the item is present afterwards. Replaying a
    list of changes leaves each item as its last change says, and as it was where there is none. So
    the outcome for an item does not depend on the starting set once it is touched, and two lists in
    version order with the same latest change leave the same. -/

namespace Kit
open List

variable {ρ α : Type} (item : ρ → α) (present : ρ → Bool)

/-- The set after one change. -/
def change (S : Set α) (r : ρ) : Set α := {x | (x = item r ∧ present r = true) ∨ (x ≠ item r ∧ x ∈ S)}

/-- The set after a list of changes, in order. -/
def replay (S : Set α) (l : List ρ) : Set α := l.foldl (change item present) S

variable {item present} {S T : Set α} {l : List ρ} {r : ρ} {x : α}

theorem mem_change_self (h : x = item r) : x ∈ change item present S r ↔ present r = true := by
  simp [change, h]

theorem mem_change_ne (h : x ≠ item r) : x ∈ change item present S r ↔ x ∈ S := by
  simp [change, h]

theorem replay_concat : replay item present S (l ++ [r]) = change item present (replay item present S l) r := by
  rw [replay, foldl_append]
  rfl

/-- An item no change names stays as it was. -/
theorem mem_replay_of_untouched (h : ∀ r ∈ l, item r ≠ x) : x ∈ replay item present S l ↔ x ∈ S := by
  induction l using List.reverseRecOn with
  | nil => rfl
  | append_singleton l a ih =>
    have ha : x ≠ item a := fun e => h a (by simp) e.symm
    rw [replay_concat, mem_change_ne ha]
    exact ih fun r hr => h r (mem_append_left _ hr)

/-- The start matters for an item only where no change names it. -/
theorem mem_replay_congr (h : (∀ r ∈ l, item r ≠ x) → (x ∈ S ↔ x ∈ T)) :
    x ∈ replay item present S l ↔ x ∈ replay item present T l := by
  induction l using List.reverseRecOn with
  | nil => exact h (by simp)
  | append_singleton l a ih =>
    rw [replay_concat, replay_concat]
    by_cases ha : x = item a
    · rw [mem_change_self ha, mem_change_self ha]
    · rw [mem_change_ne ha, mem_change_ne ha]
      exact ih fun hl => h (forall_mem_concat.mpr ⟨hl, Ne.symm ha⟩)

/-- In a list in version order the latest change of an item decides, whatever the set was. -/
theorem mem_replay_of_latest (ver : ρ → ℕ) (hs : l.Pairwise (ver · ≤ ver ·)) (hr : r ∈ l)
    (hx : item r = x) (hlast : ∀ r' ∈ l, item r' = x → ver r' ≤ ver r)
    (huniq : ∀ r' ∈ l, item r' = x → ver r' = ver r → present r' = present r) :
    x ∈ replay item present S l ↔ present r = true := by
  induction l using List.reverseRecOn with
  | nil => cases hr
  | append_singleton l a ih =>
    rw [pairwise_append] at hs
    have hmem : ∀ r' ∈ l, r' ∈ l ++ [a] := fun r' => mem_append_left _
    have ha : a ∈ l ++ [a] := by simp
    rw [replay_concat]
    by_cases hax : item a = x
    · -- the last change names the item: no other has a higher version
      have hle : ver r ≤ ver a := by
        rcases mem_concat.mp hr with hr' | rfl
        · exact hs.2.2 r hr' a (by simp)
        · exact le_refl _
      rw [mem_change_self hax.symm, huniq a ha hax (le_antisymm (hlast a ha hax) hle)]
    · have hrl : r ∈ l := (mem_concat.mp hr).resolve_right fun hr' => hax (hr' ▸ hx)
      rw [mem_change_ne (Ne.symm hax)]
      exact ih hs.1 hrl (fun r' hr' => hlast r' (hmem r' hr')) fun r' hr' => huniq r' (hmem r' hr')

end Kit
