import Sithnapse.Kit.Refs

/-! State filters.

    A filter names, per event type, the state keys wanted or all of them, and says whether types it
    does not name are wanted. What matters of a filter is which keys it matches; the splits and
    expansions that the state cache computes are described here by what they do to that. -/

namespace Sithnapse.StateCache

open Kit Kit.Dict List Option

/-- An event type and a state key. -/
abbrev StateKey := String × String

/-- A state map. -/
abbrev StateMap (V : Type) := Dict StateKey V

/-- `EventTypes.Member`. -/
def member : String := "m.room.member"

/-- What a canonical filter keeps: no wildcard where other types are included anyway, and no empty
    set where they are not. -/
def keeps (includeOthers : Bool) (stateKeys : Option (List String)) : Bool :=
  if includeOthers then stateKeys.isSome else stateKeys ≠ some []

/-- A filter in canonical form. -/
structure StateFilter where
  types : Dict String (Option (List String))
  includeOthers : Bool
  canonical : ∀ p ∈ types.entries, keeps includeOthers p.2 = true

namespace StateFilter

/-- `StateFilter(types, include_others)` with its `__attrs_post_init__`. -/
def make (types : Dict String (Option (List String))) (includeOthers : Bool) : StateFilter where
  types := ⟨types.entries.filter fun p => keeps includeOthers p.2,
    (filter_sublist.map Prod.fst).nodup types.nodup⟩
  includeOthers := includeOthers
  canonical := fun _ hp => (mem_filter.mp hp).2

def all : StateFilter := make .empty true

def none : StateFilter := make .empty false

/-- `_ALL_NON_MEMBER_STATE_FILTER`. -/
def allNonMember : StateFilter := make (.ofList [(member, some [])]) true

variable (f : StateFilter)

def isFull : Bool := f.includeOthers && f.types.entries.isEmpty

def hasWildcards : Bool := f.includeOthers || f.types.values.any isNone

/-- The keys named one by one. -/
def concreteTypes : List StateKey :=
  f.types.entries.flatMap fun p =>
    match p.2 with
    | some stateKeys => stateKeys.map (p.1, ·)
    | Option.none => []

/-- The test of `filter_state` on one key. -/
def wants (k : StateKey) : Bool :=
  match f.types.get? k.1 with
  | some Option.none => true
  | some (some stateKeys) => k.2 ∈ stateKeys
  | Option.none => f.includeOthers

def filterState {V : Type} (f : StateFilter) (stateDict : StateMap V) : StateMap V :=
  if f.isFull then stateDict else stateDict.filter f.wants

/-- `return_expanded`. -/
def returnExpanded : StateFilter :=
  if f.isFull then f
  else if !f.hasWildcards then f
  else
    let getAllMembers :=
      match f.types.get? member with
      | some stateKeys => stateKeys.isNone
      | Option.none => f.includeOthers
    let hasNonMemberWildcard :=
      f.includeOthers || f.types.entries.any fun p => p.1 ≠ member && p.2.isNone
    if !hasNonMemberWildcard then f
    else if getAllMembers then all
    else
      match f.types.get? member with
      | some stateKeys => make (.ofList [(member, stateKeys)]) true
      | Option.none => allNonMember

/-- The first half of `get_member_split`. -/
def memberFilter : StateFilter :=
  match f.types.get? member with
  | some Option.none => all
  | some (some stateKeys) => make (.ofList [(member, some stateKeys)]) false
  | Option.none => if f.includeOthers then all else none

/-- The second half of `get_member_split`. -/
def nonMemberFilter : StateFilter :=
  make (f.types.filter (· ≠ member)) f.includeOthers

/-! ### Which keys a filter wants -/

variable {f : StateFilter} {k : StateKey}

theorem wants_of_isFull (h : f.isFull = true) (k : StateKey) : f.wants k = true := by
  rw [isFull, Bool.and_eq_true, List.isEmpty_iff] at h
  have hnone : f.types.get? k.1 = Option.none := by
    rw [get?_eq_none_iff, Dict.keys, h.2]
    simp
  rw [wants, hnone]
  exact h.1

theorem get?_filterState {V : Type} (f : StateFilter) (m : StateMap V) (k : StateKey) :
    (f.filterState m).get? k = if f.wants k then m.get? k else Option.none := by
  rw [filterState]
  split
  · rename_i hfull
    rw [if_pos (wants_of_isFull hfull k)]
  · exact m.get?_filter f.wants k

/-- What a type's entry says of a state key, before and after canonicalisation. -/
def admits (includeOthers : Bool) (entry : Option (Option (List String))) (stateKey : String) : Bool :=
  match entry with
  | some Option.none => true
  | some (some stateKeys) => stateKey ∈ stateKeys
  | Option.none => includeOthers

theorem wants_eq_admits (f : StateFilter) (k : StateKey) :
    f.wants k = admits f.includeOthers (f.types.get? k.1) k.2 := rfl

/-- Canonicalisation changes nothing about which keys are wanted. -/
theorem wants_make (types : Dict String (Option (List String))) (others : Bool) (k : StateKey) :
    (make types others).wants k = admits others (types.get? k.1) k.2 := by
  have hget : (make types others).types.get? k.1 = (types.get? k.1).filter (keeps others) := by
    refine ext fun v => ?_
    rw [get?_eq_some_iff, make, mem_filter, ← get?_eq_some_iff, filter_eq_some_iff]
  rw [wants_eq_admits, hget]
  change admits others _ _ = _
  cases hentry : types.get? k.1 with
  | none => rfl
  | some entry =>
    cases hkeep : keeps others entry with
    | true => rw [filter_some_pos hkeep]
    | false =>
      -- a wildcard among included types, or an empty set among excluded ones
      rw [filter_some_neg hkeep]
      rw [keeps] at hkeep
      cases others with
      | true =>
        cases entry with
        | none => rfl
        | some l => simp at hkeep
      | false =>
        have hnil : entry = some [] := by simpa using hkeep
        subst hnil
        simp [admits]

theorem mem_concreteTypes :
    k ∈ f.concreteTypes ↔ ∃ stateKeys, f.types.get? k.1 = some (some stateKeys) ∧ k.2 ∈ stateKeys := by
  rw [concreteTypes, mem_flatMap]
  constructor
  · rintro ⟨⟨t, entry⟩, hp, hk⟩
    cases entry with
    | none => cases hk
    | some l =>
      obtain ⟨s, hs, rfl⟩ := mem_map.mp hk
      exact ⟨l, get?_eq_some_iff.mpr hp, hs⟩
  · rintro ⟨l, hget, hmem⟩
    exact ⟨(k.1, some l), get?_eq_some_iff.mp hget, mem_map.mpr ⟨k.2, hmem, rfl⟩⟩

theorem wants_of_mem_concreteTypes (h : k ∈ f.concreteTypes) : f.wants k = true := by
  obtain ⟨l, hget, hmem⟩ := mem_concreteTypes.mp h
  rw [wants, hget]
  exact decide_eq_true hmem

/-- Without wildcards the concrete types are all that is wanted. -/
theorem mem_concreteTypes_of_wants (hw : f.hasWildcards = false)
    (h : f.wants k = true) : k ∈ f.concreteTypes := by
  rw [hasWildcards, Bool.or_eq_false_iff] at hw
  rw [wants] at h
  cases hget : f.types.get? k.1 with
  | none =>
    rw [hget, hw.1] at h
    cases h
  | some entry =>
    cases entry with
    | none =>
      have hmem : Option.none ∈ f.types.values := mem_values_iff.mpr ⟨k.1, hget⟩
      exact absurd (any_eq_true.mpr ⟨_, hmem, rfl⟩) (by rw [hw.2]; simp)
    | some l =>
      rw [hget] at h
      exact mem_concreteTypes.mpr ⟨l, hget, of_decide_eq_true h⟩

/-! ### The member split -/

theorem wants_all (k : StateKey) : all.wants k = true := rfl

theorem get?_singleton (v : Option (List String)) (k : String) :
    (Dict.ofList [(member, v)]).get? k = if k = member then some v else Option.none :=
  get?_set Dict.empty member k v

theorem wants_memberFilter (f : StateFilter) (hk : k.1 = member) : f.memberFilter.wants k = f.wants k := by
  rw [memberFilter, wants_eq_admits f, hk]
  cases f.types.get? member with
  | none =>
    cases hothers : f.includeOthers with
    | true => rfl
    | false => rfl
  | some entry =>
    cases entry with
    | none => rfl
    | some l =>
      rw [wants_make, get?_singleton, if_pos hk]
      rfl

theorem wants_nonMemberFilter (f : StateFilter) (hk : k.1 ≠ member) :
    f.nonMemberFilter.wants k = f.wants k := by
  rw [nonMemberFilter, wants_make, get?_filter, if_pos (by simpa using hk), wants_eq_admits]

/-! ### Expansion -/

/-- The expanded filter wants everything the filter wants. -/
theorem wants_returnExpanded (h : f.wants k = true) : f.returnExpanded.wants k = true := by
  rw [returnExpanded]
  split_ifs with hfull hwild
  · exact h
  · exact h
  · dsimp only
    split_ifs with hnon hall
    · exact h
    · exact wants_all k
    · cases hget : f.types.get? member with
      | none =>
        rw [hget] at hall
        -- member events are excluded by the filter itself
        rw [allNonMember, wants_make, get?_singleton]
        split_ifs with hk
        · rw [wants, hk, hget] at h
          exact absurd h hall
        · rfl
      | some entry =>
        rw [wants_make, get?_singleton]
        split_ifs with hk
        · rw [wants_eq_admits, hk, hget] at h
          cases entry with
          | none => rfl
          | some l => exact h
        · rfl

end StateFilter

end Sithnapse.StateCache
