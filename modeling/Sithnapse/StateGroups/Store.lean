import Sithnapse.Kit.Refs

/-! The embedded map from events to state groups, and its reference counts.

    With an embedded engine the map `event_id -> state_group` lives there, next to one counter per
    state group that answers whether any event still refers to it. The six functions of
    `embedded_event_to_state_group` are below, each with what it does to the balance between a
    group's counter and the number of events mapped to it. -/

namespace Sithnapse.StateGroups

open Kit Kit.Dict

variable {E G : Type} [DecidableEq E] [DecidableEq G]

/-- The records of the embedded engine: the mapping and the counters. -/
structure Store (E G : Type) where
  mapping : Dict E G
  refcounts : Dict G ℤ

namespace Store

/-- An engine nothing was written to. -/
def empty : Store E G := ⟨.empty, .empty⟩

variable (s : Store E G)

/-- `put_event_to_state_group_batch`: does not touch the counters. -/
def putEventToStateGroupBatch (rows : List (E × G)) : Store E G :=
  { s with mapping := s.mapping.update rows }

/-- `get_state_group_for_events_batch`: the mappings found, a missing event is absent. -/
def getStateGroupForEventsBatch (eventIds : List E) : Dict E G :=
  .ofList (eventIds.filterMap fun e => (s.mapping.get? e).map (e, ·))

/-- `delete_event_to_state_group_batch`. -/
def deleteEventToStateGroupBatch (eventIds : List E) : Store E G :=
  { s with mapping := s.mapping.filter (· ∉ eventIds) }

/-- `increment_state_group_refcounts_batch`: repeats count several times. -/
def incrementStateGroupRefcountsBatch (stateGroups : List G) : Store E G :=
  { s with refcounts := s.refcounts.bump (tally stateGroups).entries }

/-- `decrement_state_group_refcounts_batch`: nothing keeps a counter from going negative. -/
def decrementStateGroupRefcountsBatch (stateGroups : List G) : Store E G :=
  { s with refcounts := s.refcounts.bump ((tally stateGroups).mapValues fun delta => -delta).entries }

/-- `get_referenced_state_groups_batch`: the groups whose count is positive. -/
def getReferencedStateGroupsBatch (stateGroups : List G) : List G :=
  stateGroups.filter fun g => 0 < s.refcounts.getD g 0

/-! ### Reads -/

omit [DecidableEq G] in
theorem get?_getStateGroupForEventsBatch (eventIds : List E) (e : E) :
    (s.getStateGroupForEventsBatch eventIds).get? e = if e ∈ eventIds then s.mapping.get? e else none := by
  refine (get?_update_of_some .empty fun g => ?_).trans Option.or_none
  rw [List.mem_filterMap, Option.ite_none_right_eq_some]
  constructor
  · rintro ⟨e', he', hg⟩
    obtain ⟨g', hget, hpair⟩ := Option.map_eq_some_iff.mp hg
    obtain ⟨rfl, rfl⟩ := Prod.mk.injEq .. ▸ hpair
    exact ⟨he', hget⟩
  · rintro ⟨he, hget⟩
    exact ⟨e, he, by rw [hget]; rfl⟩

omit [DecidableEq G] in
theorem mem_keys_getStateGroupForEventsBatch {s : Store E G} {eventIds : List E} {e : E} :
    e ∈ (s.getStateGroupForEventsBatch eventIds).keys ↔ e ∈ eventIds ∧ e ∈ s.mapping.keys := by
  rw [mem_keys_iff, mem_keys_iff, get?_getStateGroupForEventsBatch]
  split <;> simp_all

/-! ### The balance of a group's counter -/

/-- By how much the counter of a group exceeds the number of events mapped to the group. -/
def balance (g : G) : ℤ := s.refcounts.getD g 0 - s.mapping.holders g

/-- Every counter is the number of events mapped to its group. -/
def Counted : Prop := ∀ g, s.refcounts.getD g 0 = s.mapping.holders g

omit [DecidableEq E] in
theorem counted_iff {s : Store E G} : s.Counted ↔ ∀ g, s.balance g = 0 :=
  forall_congr' fun _ => sub_eq_zero.symm

omit [DecidableEq E] in
theorem counted_empty : (empty : Store E G).Counted := fun _ => rfl

/-- Writing rows for different events: their old groups gain a surplus, their new ones lose it. -/
theorem balance_put {rows : List (E × G)} (h : (rows.map Prod.fst).Nodup) (g : G) :
    (s.putEventToStateGroupBatch rows).balance g =
      s.balance g + (s.mapping.held (rows.map Prod.fst)).count g - (rows.map Prod.snd).count g := by
  have hput := holders_update g rows s.mapping h
  simp only [balance, putEventToStateGroupBatch]
  omega

omit [DecidableEq E] in
theorem balance_increment (l : List G) (g : G) :
    (s.incrementStateGroupRefcountsBatch l).balance g = s.balance g + l.count g := by
  rw [balance, balance, incrementStateGroupRefcountsBatch, getD_bump, getD_tally]
  ring

omit [DecidableEq E] in
theorem balance_decrement (l : List G) (g : G) :
    (s.decrementStateGroupRefcountsBatch l).balance g = s.balance g - l.count g := by
  have hneg : ((tally l).mapValues fun delta => -delta).getD g 0 = -(l.count g : ℤ) := by
    rw [Dict.getD, get?_mapValues, ← getD_tally, Dict.getD]
    cases (tally l).get? g <;> simp
  rw [balance, balance, decrementStateGroupRefcountsBatch, getD_bump, hneg]
  ring

theorem balance_delete (l : List E) (g : G) :
    (s.deleteEventToStateGroupBatch l).balance g = s.balance g + (s.mapping.filter (· ∈ l)).holders g := by
  have hfilter := s.mapping.holders_filter (· ∉ l) g
  simp only [decide_not, Bool.not_not] at hfilter
  simp only [balance, deleteEventToStateGroupBatch, decide_not]
  omega

/-- Where the counters are right, a group is reported iff some event is mapped to it. -/
theorem Counted.mem_referenced {s : Store E G} (h : s.Counted) {groups : List G} {g : G} :
    g ∈ s.getReferencedStateGroupsBatch groups ↔ g ∈ groups ∧ ∃ e, s.mapping.get? e = some g := by
  rw [getReferencedStateGroupsBatch, List.mem_filter, decide_eq_true_eq, h g, Nat.cast_pos, holders_pos]

end Store

end Sithnapse.StateGroups
