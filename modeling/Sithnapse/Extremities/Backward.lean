import Sithnapse.Extremities.Calculate

/-! `_update_backward_extremeties`, run for every batch once the rows of its events are stored.

    A backward extremity is an event that is known only as the prev event of another. The update adds the
    prev events that are missing and removes the events that have arrived, but it returns early from a
    batch that names no prev events, and it removes an outlier that has none. -/

namespace Sithnapse.Extremities

open Kit List

variable {E : Type} [DecidableEq E]

/-- The prev events of the events that are no outliers. -/
def potentialBackwardsExtremities (events : List (Event E)) : List E :=
  (events.filter (!·.outlier)).flatMap (·.prevEventIds)

/-- What becomes of the table `event_backward_extremities`, given the stored events that are no outliers. -/
def updateBackwardExtremeties (stored extremities : List E) (events : List (Event E)) : List E :=
  if potentialBackwardsExtremities events = [] then extremities
  else
    let missing := (potentialBackwardsExtremities events).filter (· ∉ stored)
    let toRemove := (events.filter fun ev => !ev.outlier || ev.prevEventIds.isEmpty).map (·.eventId)
    (addAll extremities missing).filter (· ∉ toRemove)

/-- The stored events of a room that are no outliers, and its backward extremities. -/
structure BackwardTables (E : Type) where
  stored : List E
  extremities : List E

/-- The rows of a batch are stored, and the extremities brought up to date. -/
def BackwardTables.persist (t : BackwardTables E) (batch : List (Event E)) : BackwardTables E :=
  let stored := addAll t.stored ((batch.filter (!·.outlier)).map (·.eventId))
  ⟨stored, updateBackwardExtremeties stored t.extremities batch⟩

/-- The tables after some batches. -/
def BackwardTables.after (batches : List (List (Event E))) : BackwardTables E := batches.foldl persist ⟨[], []⟩

/-- A prev event of a persisted event that is no outlier, and not persisted as one itself. -/
def IsBackwardExtremity (persisted : List (Event E)) (p : E) : Prop :=
  (∃ ev ∈ persisted, ev.outlier = false ∧ p ∈ ev.prevEventIds) ∧
    ∀ ev ∈ persisted, ev.eventId = p → ev.outlier = true

instance (persisted : List (Event E)) (p : E) : Decidable (IsBackwardExtremity persisted p) :=
  inferInstanceAs (Decidable (_ ∧ _))

/-- A batch without prev events brings no event that is waited for, and any other batch brings no event
    without prev events that is waited for from then on. -/
def ArrivesInSight (persisted batch : List (Event E)) : Prop :=
  if potentialBackwardsExtremities batch = [] then
    ∀ ev ∈ batch, ev.outlier = false → ¬ IsBackwardExtremity persisted ev.eventId
  else ∀ ev ∈ batch, ev.prevEventIds = [] → ¬ IsBackwardExtremity (persisted ++ batch) ev.eventId

variable {stored extremities : List E} {persisted batch : List (Event E)} {p : E}

omit [DecidableEq E] in
theorem isBackwardExtremity_append : IsBackwardExtremity (persisted ++ batch) p ↔
    ((∃ ev ∈ persisted, ev.outlier = false ∧ p ∈ ev.prevEventIds) ∨ p ∈ potentialBackwardsExtremities batch) ∧
      (∀ ev ∈ persisted, ev.eventId = p → ev.outlier = true) ∧
      ∀ ev ∈ batch, ev.eventId = p → ev.outlier = true := by
  simp [IsBackwardExtremity, potentialBackwardsExtremities, or_and_right, exists_or, or_imp, forall_and,
    and_assoc]

section Update

variable (hstored : ∀ e, e ∈ stored ↔ ∃ ev ∈ persisted ++ batch, ev.outlier = false ∧ ev.eventId = e)
  (hexact : ∀ p, p ∈ extremities ↔ IsBackwardExtremity persisted p)

include hstored hexact

/-- An update with prev events leaves the right extremities, but for events of the batch that have none. -/
theorem mem_updateBackwardExtremeties (hsome : potentialBackwardsExtremities batch ≠ []) :
    p ∈ updateBackwardExtremeties stored extremities batch ↔ IsBackwardExtremity (persisted ++ batch) p ∧
      ∀ ev ∈ batch, ev.eventId = p → ev.prevEventIds ≠ [] := by
  rw [updateBackwardExtremeties, if_neg hsome, isBackwardExtremity_append]
  simp only [mem_filter, mem_addAll, hexact, hstored, decide_eq_true_eq, mem_map, IsBackwardExtremity]
  grind

/-- One batch after batches that are right so far. -/
theorem update_exact_iff : (∀ p, p ∈ updateBackwardExtremeties stored extremities batch ↔
      IsBackwardExtremity (persisted ++ batch) p) ↔ ArrivesInSight persisted batch := by
  rw [ArrivesInSight]
  split_ifs with hnone
  · have hmore : ∀ p, IsBackwardExtremity (persisted ++ batch) p ↔
        IsBackwardExtremity persisted p ∧ ∀ ev ∈ batch, ev.eventId = p → ev.outlier = true := by
      intro p
      rw [isBackwardExtremity_append, hnone]
      simp [IsBackwardExtremity, and_assoc]
    simp only [updateBackwardExtremeties, if_pos hnone, hexact, hmore, iff_self_and]
    grind
  · constructor
    · intro h ev hev hprevs hp
      exact ((mem_updateBackwardExtremeties hstored hexact hnone).mp ((h _).mpr hp)).2 ev hev rfl hprevs
    · intro h p
      rw [mem_updateBackwardExtremeties hstored hexact hnone]
      exact and_iff_left_of_imp fun hp ev hev he hprevs => h ev hev hprevs (he ▸ hp)

end Update

theorem BackwardTables.after_concat (pre : List (List (Event E))) (b : List (Event E)) :
    after (pre ++ [b]) = (after pre).persist b := by
  rw [after, foldl_append]
  rfl

theorem BackwardTables.mem_stored_after (batches : List (List (Event E))) (e : E) :
    e ∈ (after batches).stored ↔ ∃ ev ∈ batches.flatten, ev.outlier = false ∧ ev.eventId = e := by
  induction batches using List.reverseRecOn with
  | nil => simp [after]
  | append_singleton pre b ih => simp [after_concat, persist, ih, or_and_right, exists_or, and_assoc]

/-- In any order and in any batches: the backward extremities are right after every batch exactly if every
    batch arrives in sight. -/
theorem backward_extremities_exact_iff (batches : List (List (Event E))) :
    (∀ pre post, batches = pre ++ post → ∀ p,
      p ∈ (BackwardTables.after pre).extremities ↔ IsBackwardExtremity pre.flatten p) ↔
    ∀ pre b post, batches = pre ++ b :: post → ArrivesInSight pre.flatten b := by
  refine forall_prefix_iff (fun p => by simp [BackwardTables.after, IsBackwardExtremity]) ?_
  intro pre b _ _ hexact
  have hstored := BackwardTables.mem_stored_after (pre ++ [b])
  rw [BackwardTables.after_concat, flatten_append, flatten_singleton] at hstored ⊢
  exact update_exact_iff hstored hexact

/-- The first event of a room arrives in a batch of its own and stays a backward extremity; one that comes
    as an outlier, together with the event behind it, is none though it is missing. -/
theorem backward_extremities_wrong :
    let first : Event ℕ := ⟨0, [], false, false, false⟩
    let second : Event ℕ := ⟨1, [0], false, false, false⟩
    let outlier : Event ℕ := ⟨0, [], true, false, false⟩
    ((BackwardTables.after [[second], [first]]).extremities = [0] ∧ ¬ IsBackwardExtremity [second, first] 0) ∧
      (BackwardTables.after [[outlier, second]]).extremities = [] ∧
      IsBackwardExtremity [outlier, second] 0 := by decide

end Sithnapse.Extremities
