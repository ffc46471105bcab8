import Sithnapse.StateCache.DictionaryCache

/-! Reading the state of groups through the caches.

    `_get_state_for_groups` looks every group up in both caches with the halves of its filter, fetches
    the groups that were not found completely with an expanded filter, stores what it fetched in the
    caches, and filters it down. Whatever was evicted, whichever calls run side by side: each call
    returns each group's state, filtered. -/

namespace Sithnapse.StateCache

open Kit Kit.Dict List

variable {G V : Type} [DecidableEq G]

/-- `_get_state_for_group_using_cache`: the state found, and whether that is all of it. -/
def getStateForGroupUsingCache (cache : Half) (group : G) (f : StateFilter) :
    CacheProg G V (StateMap V × Bool) := do
  let dictKeys := if !f.hasWildcards then some f.concreteTypes else none
  let entry ← get cache group dictKeys
  if entry.full || f.isFull then
    return (f.filterState entry.value, entry.full)
  else
    let missingTypes :=
      if f.hasWildcards then true
      else f.concreteTypes.any fun key => key ∉ entry.value.keys && key ∉ entry.knownAbsent
    return (f.filterState entry.value, !missingTypes)

/-- One round of `_get_state_for_groups_using_cache`: the results and the incomplete groups. -/
def lookupGroup (cache : Half) (f : StateFilter) (acc : Dict G (StateMap V) × List G) (group : G) :
    CacheProg G V (Dict G (StateMap V) × List G) := do
  let (stateDict, gotAll) ← getStateForGroupUsingCache cache group f
  return (acc.1.set group stateDict, if gotAll then acc.2 else addIf acc.2 group)

variable (groups : List G)

/-- `_get_state_for_groups_using_cache`. -/
def getStateForGroupsUsingCache (cache : Half) (f : StateFilter) :
    CacheProg G V (Dict G (StateMap V) × List G) :=
  (addAll [] groups).foldlM (lookupGroup cache f) (.empty, [])

/-- A half of a filter. -/
def Half.filter : Half → StateFilter → StateFilter
  | .members, f => f.memberFilter
  | .others, f => f.nonMemberFilter

/-- The keys of a half that a query with a filter has fetched; none means all. -/
def fetchedTypes (c : Half) (f : StateFilter) : Option (List StateKey) :=
  if (c.filter f).isFull then none else some (c.filter f).concreteTypes

/-- One round of `_insert_into_cache`. -/
def insertGroup (f : StateFilter) (seqMembers seqNonMembers : ℕ) (group : G) (stateDict : StateMap V) :
    CacheProg G V Unit := do
  update .members seqMembers group (stateDict.filter (Half.has .members)) (fetchedTypes .members f)
  update .others seqNonMembers group (stateDict.filter (Half.has .others)) (fetchedTypes .others f)

/-- `_insert_into_cache`. -/
def insertIntoCache (groupToStateDict : Dict G (StateMap V)) (f : StateFilter)
    (seqMembers seqNonMembers : ℕ) : CacheProg G V Unit :=
  groupToStateDict.entries.foldlM (fun _ p => insertGroup f seqMembers seqNonMembers p.1 p.2) ()

/-- `state[group].update(member_state[group])` for each group. -/
def mergeMembers (memberState nonMemberState : Dict G (StateMap V)) : Dict G (StateMap V) :=
  groups.foldl (fun state group =>
    state.set group ((state.getD group .empty).update (memberState.getD group .empty).entries))
    nonMemberState

/-- The groups fetched, filtered down, replace what was found. -/
def replaceFetched (f : StateFilter) (state groupToStateDict : Dict G (StateMap V)) : Dict G (StateMap V) :=
  groupToStateDict.entries.foldl (fun state p => state.set p.1 (f.filterState p.2)) state

/-- `_get_state_for_groups`. -/
def getStateForGroups (stateFilter : Option StateFilter) :
    CacheProg G V (Dict G (StateMap V)) := do
  let f := stateFilter.getD .all
  let (nonMemberState, incompleteNonMembers) ← getStateForGroupsUsingCache groups .others f.nonMemberFilter
  let (memberState, incompleteMembers) ← getStateForGroupsUsingCache groups .members f.memberFilter
  let state := mergeMembers groups memberState nonMemberState
  let incomplete := addAll incompleteMembers incompleteNonMembers
  if incomplete.isEmpty then
    return state
  else
    let seqNonMembers ← readSequence .others
    let seqMembers ← readSequence .members
    let dbFilter := f.returnExpanded
    let groupToStateDict ← getStateGroupsFromGroups incomplete dbFilter
    insertIntoCache groupToStateDict dbFilter seqMembers seqNonMembers
    return replaceFetched f state groupToStateDict

/-! ### One group in one cache -/

section Contract

variable {state : G → StateMap V}

/-- A half of a group's state, filtered. -/
def wanted (state : G → StateMap V) (c : Half) (f : StateFilter) (g : G) (k : StateKey) : Option V :=
  if f.wants k then truth state c g k else none

omit [DecidableEq G] in
/-- A filtered value is right if the value is, on the keys the filter wants. -/
theorem get?_filterState_wanted {c : Half} {f : StateFilter} {g : G} {value : StateMap V}
    (h : ∀ k, f.wants k = true → value.get? k = truth state c g k) (k : StateKey) :
    (f.filterState value).get? k = wanted state c f g k := by
  rw [StateFilter.get?_filterState, wanted]
  split_ifs with hk
  · exact h k hk
  · rfl

theorem getStateForGroupUsingCache_meets (c : Half) (g : G) (f : StateFilter) :
    (getStateForGroupUsingCache c g f).Meets (contract state) fun r =>
      r.2 = true → ∀ k, r.1.get? k = wanted state c f g k := by
  refine (get_meets c g _).bind fun entry hentry => ?_
  split
  · intro hfull
    refine get?_filterState_wanted fun k hk => hentry.full hfull k fun keys hkeys => ?_
    -- a full entry holds all keys asked for, and without wildcards those are all keys wanted
    split at hkeys
    · rename_i hwild
      rw [← Option.some.inj hkeys]
      exact StateFilter.mem_concreteTypes_of_wants (by simpa using hwild) hk
    · cases hkeys
  · intro hgot
    refine get?_filterState_wanted fun k hk => ?_
    cases hwild : f.hasWildcards with
    | true =>
      rw [hwild] at hgot
      cases hgot
    | false =>
      have hconcrete := StateFilter.mem_concreteTypes_of_wants hwild hk
      simp only [hwild, Bool.false_eq_true, if_false, Bool.not_eq_true', any_eq_false] at hgot
      cases hval : entry.value.get? k with
      | some v => exact (hentry.value k v hval).symm
      | none =>
        have hkey : k ∉ entry.value.keys := get?_eq_none_iff.mp hval
        have habsent : k ∈ entry.knownAbsent := by
          have := hgot k hconcrete
          simpa [hkey] using this
        exact (hentry.absent k habsent).symm

/-! ### All groups in one cache -/

/-- Every group visited has a result, which is right unless the group is incomplete. -/
structure LookupsFor (state : G → StateMap V) (c : Half) (f : StateFilter) (visited : List G)
    (r : Dict G (StateMap V) × List G) : Prop where
  keys : ∀ g, g ∈ r.1.keys ↔ g ∈ visited
  incomplete : ∀ g ∈ r.2, g ∈ visited
  right : ∀ g ∈ visited, g ∉ r.2 → ∀ k, (r.1.getD g .empty).get? k = wanted state c f g k

theorem lookupGroup_meets {c : Half} {f : StateFilter} {visited : List G}
    {acc : Dict G (StateMap V) × List G} (h : LookupsFor state c f visited acc) (g : G) :
    (lookupGroup c f acc g).Meets (contract state) (LookupsFor state c f (visited ++ [g])) := by
  refine (getStateForGroupUsingCache_meets c g f).bind fun r hr => ?_
  refine ⟨fun g' => ?_, fun g' hg' => ?_, fun g' hg' hcomplete k => ?_⟩
  · rw [mem_keys_set, h.keys, mem_append, mem_singleton, or_comm]
  · split at hg'
    · exact mem_append_left _ (h.incomplete g' hg')
    · rcases mem_addIf.mp hg' with hg' | rfl
      · exact mem_append_left _ (h.incomplete g' hg')
      · exact mem_append_right _ (.head _)
  · rw [getD_set]
    rcases eq_or_ne g' g with rfl | hgg
    · rw [if_pos rfl]
      refine hr ?_ k
      by_contra hgot
      rw [if_neg hgot] at hcomplete
      exact hcomplete (mem_addIf.mpr (Or.inr rfl))
    · rw [if_neg hgg]
      have hvisited : g' ∈ visited := (mem_concat.mp hg').resolve_right hgg
      refine h.right g' hvisited (fun hin => hcomplete ?_) k
      split
      · exact hin
      · exact mem_addIf.mpr (Or.inl hin)

theorem getStateForGroupsUsingCache_meets (groups : List G) (c : Half) (f : StateFilter) :
    (getStateForGroupsUsingCache groups c f).Meets (contract state)
      (LookupsFor state c f (addAll [] groups)) := by
  refine Prog.Meets.foldlM (I := LookupsFor state c f) (fun _ g _ _ h => lookupGroup_meets h g)
    ⟨fun g => ?_, fun g hg => ?_, fun g hg => ?_⟩
  · simp [Dict.empty, Dict.keys]
  · cases hg
  · cases hg

/-! ### Filling the caches -/

theorem wants_half (c : Half) (f : StateFilter) {k : StateKey} (h : c.has k = true) :
    (c.filter f).wants k = f.wants k := by
  cases c with
  | members => exact f.wants_memberFilter (of_decide_eq_true h)
  | others => exact f.wants_nonMemberFilter (of_decide_eq_true h)

omit [DecidableEq G] in
/-- The half of what a query returned. -/
theorem get?_filter_half (c : Half) (f : StateFilter) (g : G) (k : StateKey) :
    ((f.filterState (state g)).filter c.has).get? k = if f.wants k then truth state c g k else none := by
  rw [get?_filter, StateFilter.get?_filterState, truth]
  split_ifs <;> rfl

theorem insertHalf_meets (c : Half) (f : StateFilter) (sequence : ℕ) (g : G) :
    (update c sequence g ((f.filterState (state g)).filter c.has) (fetchedTypes c f)).Meets
      (contract state) fun _ => True := by
  refine update_meets c sequence (fun k v hv => ?_) fun k hk => ?_
  · rw [get?_filter_half] at hv
    split at hv
    · exact hv
    · cases hv
  · rw [get?_filter_half]
    split_ifs with hwants
    · rfl
    · -- a key of this half that the filter does not want is not among the fetched ones
      rw [truth]
      split
      · rename_i hhas
        refine absurd ?_ hwants
        rw [← wants_half c f hhas]
        rw [fetchedTypes] at hk
        split at hk
        · rename_i hfull
          exact StateFilter.wants_of_isFull hfull k
        · exact StateFilter.wants_of_mem_concreteTypes (hk _ rfl)
      · rfl

theorem insertIntoCache_meets {groupToStateDict : Dict G (StateMap V)} {f : StateFilter}
    (h : ∀ g d, groupToStateDict.get? g = some d → d = f.filterState (state g)) (seqM seqN : ℕ) :
    (insertIntoCache groupToStateDict f seqM seqN).Meets (contract state) fun _ => True := by
  refine Prog.Meets.foldlM (I := fun _ _ => True) (fun _ p _ hp _ => ?_) trivial
  have hd := h p.1 p.2 (get?_eq_some_iff.mpr hp)
  rw [hd]
  exact (insertHalf_meets .members f seqM p.1).bind fun _ _ => insertHalf_meets .others f seqN p.1

end Contract

/-! ### Putting the results together -/

theorem mem_keys_mergeMembers {groups : List G} {m n : Dict G (StateMap V)} {g : G} :
    g ∈ (mergeMembers groups m n).keys ↔ g ∈ n.keys ∨ g ∈ groups := by
  rw [mergeMembers]
  induction groups generalizing n with
  | nil => simp
  | cons a groups ih =>
    rw [foldl_cons, ih, mem_keys_set, mem_cons]
    tauto

theorem get?_mergeMembers (m n : Dict G (StateMap V)) (g : G) (k : StateKey) :
    ((mergeMembers groups m n).getD g .empty).get? k =
      if g ∈ groups then ((m.getD g .empty).get? k).or ((n.getD g .empty).get? k)
      else (n.getD g .empty).get? k := by
  rw [mergeMembers]
  induction groups generalizing n with
  | nil => simp
  | cons a groups ih =>
    rw [foldl_cons, ih, getD_set]
    rcases eq_or_ne g a with rfl | ha
    · rw [if_pos rfl, if_pos mem_cons_self, get?_update_entries, ← Option.or_assoc, Option.or_self, ite_self]
    · rw [if_neg ha]
      simp [ha]

theorem mem_keys_replaceFetched {f : StateFilter} {s d : Dict G (StateMap V)} {g : G} :
    g ∈ (replaceFetched f s d).keys ↔ g ∈ s.keys ∨ g ∈ d.keys := by
  rw [replaceFetched, Dict.keys.eq_def d]
  induction d.entries generalizing s with
  | nil => simp
  | cons p l ih =>
    rw [foldl_cons, ih, mem_keys_set, map_cons, mem_cons]
    tauto

theorem getD_replaceFetched (f : StateFilter) (s d : Dict G (StateMap V)) (g : G) :
    (replaceFetched f s d).getD g .empty =
      match d.get? g with
      | some stateDict => f.filterState stateDict
      | none => s.getD g .empty := by
  have hmap : replaceFetched f s d = s.update (d.mapValues f.filterState).entries := by
    rw [replaceFetched, Dict.update, Dict.mapValues, foldl_map]
  rw [hmap, Dict.getD, get?_update_entries, get?_mapValues]
  cases d.get? g <;> rfl

/-! ### Calls -/

/-- The result has the groups asked for, each with its state, filtered. -/
def Right (state : G → StateMap V) (call : List G × Option StateFilter)
    (result : Dict G (StateMap V)) : Prop :=
  (∀ g, g ∈ result.keys ↔ g ∈ call.1) ∧
    ∀ g ∈ call.1, ∀ k, (result.getD g .empty).get? k = ((call.2.getD .all).filterState (state g)).get? k

section Calls

variable {state : G → StateMap V}

omit [DecidableEq G] in
/-- The two halves, filtered by the halves of the filter, make up the filtered state. -/
theorem wanted_or_wanted (f : StateFilter) (g : G) (k : StateKey) :
    (wanted state .members f.memberFilter g k).or (wanted state .others f.nonMemberFilter g k) =
      (f.filterState (state g)).get? k := by
  rw [StateFilter.get?_filterState, wanted, wanted, truth, truth]
  by_cases hk : k.1 = member
  · have hhas : Half.members.has k = true := decide_eq_true hk
    have hnot : Half.others.has k = false := decide_eq_false (not_not.mpr hk)
    rw [f.wants_memberFilter hk, if_pos hhas, hnot]
    simp
  · have hhas : Half.others.has k = true := decide_eq_true hk
    have hnot : Half.members.has k = false := decide_eq_false hk
    rw [f.wants_nonMemberFilter hk, if_pos hhas, hnot]
    simp

theorem getStateForGroups_meets (groups : List G) (stateFilter : Option StateFilter) :
    (getStateForGroups groups stateFilter).Meets (contract state) (Right state (groups, stateFilter)) := by
  obtain ⟨f, hf⟩ : ∃ f, f = stateFilter.getD .all := ⟨_, rfl⟩
  have hmem : ∀ g, g ∈ addAll [] groups ↔ g ∈ groups := fun g => by simp
  simp only [getStateForGroups, ← hf]
  refine (getStateForGroupsUsingCache_meets groups .others f.nonMemberFilter).bind fun nm hnm => ?_
  refine (getStateForGroupsUsingCache_meets groups .members f.memberFilter).bind fun m hm => ?_
  obtain ⟨merged, hmerged⟩ : ∃ d, d = mergeMembers groups m.1 nm.1 := ⟨_, rfl⟩
  have hkeys : ∀ g, g ∈ merged.keys ↔ g ∈ groups := by
    intro g
    rw [hmerged, mem_keys_mergeMembers, hnm.keys, hmem, or_self]
  -- a group that both caches had completely
  have hcached : ∀ g ∈ groups, g ∉ addAll m.2 nm.2 → ∀ k,
      (merged.getD g .empty).get? k = (f.filterState (state g)).get? k := by
    intro g hg hcomplete k
    rw [mem_addAll, not_or] at hcomplete
    rw [hmerged, get?_mergeMembers, if_pos hg, hm.right g ((hmem g).mpr hg) hcomplete.1,
      hnm.right g ((hmem g).mpr hg) hcomplete.2, wanted_or_wanted]
  rw [← hmerged]
  split_ifs with hempty
  · rw [List.isEmpty_iff] at hempty
    refine ⟨hkeys, fun g hg k => ?_⟩
    rw [← hf]
    exact hcached g hg (by rw [hempty]; exact not_mem_nil) k
  · refine (op_meets (.sequence .others) trivial).bind fun seqN _ => ?_
    refine (op_meets (.sequence .members) trivial).bind fun seqM _ => ?_
    refine (op_meets (.getStateGroupsFromGroups _ _) trivial).bind fun (fetched : Dict G (StateMap V)) hfetched => ?_
    refine (insertIntoCache_meets hfetched.2 seqM seqN).bind fun _ _ => ?_
    refine ⟨fun g => ?_, fun g hg k => ?_⟩
    · have hsub : g ∈ fetched.keys → g ∈ groups := by
        intro hg
        rcases mem_addAll.mp ((hfetched.1 g).mp hg) with hin | hin
        · exact (hmem g).mp (hm.incomplete g hin)
        · exact (hmem g).mp (hnm.incomplete g hin)
      rw [mem_keys_replaceFetched, hkeys]
      exact ⟨fun h => h.elim id hsub, Or.inl⟩
    · rw [← hf, getD_replaceFetched]
      cases hget : fetched.get? g with
      | none =>
        have hcomplete : g ∉ addAll m.2 nm.2 := by
          rw [← hfetched.1]
          exact get?_eq_none_iff.mp hget
        exact hcached g hg hcomplete k
      | some d =>
        rw [hfetched.2 g d hget]
        rw [StateFilter.get?_filterState f, StateFilter.get?_filterState f,
          StateFilter.get?_filterState f.returnExpanded]
        split
        · rename_i hwants
          rw [if_pos (StateFilter.wants_returnExpanded hwants)]
        · rfl

end Calls

/-- Calls run side by side: any number of them, each a list of groups and a filter. -/
def calls (_ : ℕ) (call : List G × Option StateFilter) : CacheProg G V (Dict G (StateMap V)) :=
  getStateForGroups call.1 call.2

/-- Empty caches. -/
def Caches.empty : Caches G V := fun _ => ⟨.empty, .empty, 0⟩

theorem truthful_empty (state : G → StateMap V) : Truthful state (Caches.empty : Caches G V) :=
  fun _ => ⟨fun _ _ _ h => absurd h (by simp [Caches.empty]), fun _ _ h => absurd h (by simp [Caches.empty])⟩

/-- For every assignment of states to groups: in every run of calls side by side, with evictions and
    invalidations before any operation and calls cancelled at any point, every call that returned has
    each group's state, filtered; and from every state reached a call, whatever is evicted meanwhile,
    returns. -/
theorem state_cache_transparent (state : G → StateMap V)
    {pool : Pool ℕ (Caches G V) (List G × Option StateFilter) (Op G V) Reply (Dict G (StateMap V))}
    (h : Run (Pool.step (exec state) calls fun _ s => s) (fun _ _ => True) (Pool.start Caches.empty) pool) :
    (∀ call began result, (call, began, result) ∈ pool.results → Right state call result) ∧
    ∀ groups stateFilter choice, ∃ result caches,
      (getStateForGroups groups stateFilter).runFrom (exec state) choice 0 pool.shared =
        some (result, caches) ∧ Right state (groups, stateFilter) result := by
  have hexec : ∀ {o e s r s'}, Truthful state s → (contract state).pre o →
      exec state o e s = some (r, s') → Truthful state s' ∧ (contract state).post o r := by
    intro o e s r s' hs hpre hr
    obtain ⟨r', s'', hr', hs'', hpost⟩ := exec_contract (e := e) hs hpre
    rw [hr', Option.some.injEq, Prod.mk.injEq] at hr
    obtain ⟨rfl, rfl⟩ := hr
    exact ⟨hs'', hpost⟩
  have hpool := Pool.results_meet (Q := Right state) hexec (fun hs => hs)
    (fun _ call => getStateForGroups_meets call.1 call.2) (truthful_empty state) h
  refine ⟨fun call began result hmem => hpool.2 hmem, fun groups stateFilter choice => ?_⟩
  obtain ⟨result, caches, hrun, hright, -⟩ := (getStateForGroups_meets groups stateFilter).returns
    (fun hs hpre => exec_contract hs hpre) choice 0 hpool.1
  exact ⟨result, caches, hrun, hright⟩

/-- A room with a name and one member. -/
def namedRoom (_ : ℕ) : StateMap ℕ := .ofList [(("m.room.name", ""), 1), ((member, "@alice"), 2)]

/-- The room's name alone. -/
def nameFilter : StateFilter := .make (.ofList [("m.room.name", some [""])]) false

/-- Nothing is evicted. -/
def keepAll : Evictions ℕ := ⟨fun _ _ => true, fun _ _ => true, fun _ => false⟩

/-- Everything is evicted, and both caches are invalidated. -/
def dropAll : Evictions ℕ := ⟨fun _ _ => false, fun _ _ => false, fun _ => true⟩

/-- A call that fills the cache, one that is served from it, and one with everything, during which the
    caches are emptied. -/
def cacheRun : List (Act ℕ (Evictions ℕ) (List ℕ × Option StateFilter)) :=
  [.spawn 0 ([7], some nameFilter)] ++ List.replicate 8 (.step 0 keepAll) ++
    [.spawn 1 ([7], some nameFilter), .spawn 2 ([7, 7], none), .step 1 keepAll] ++
    List.replicate 7 (.step 2 dropAll)

theorem state_cache_transparent_evicted :
    ∃ pool, Run (Pool.step (exec namedRoom) calls fun _ s => s) (fun _ _ => True)
        (Pool.start Caches.empty) pool ∧ pool.results.length = 3 ∧
      ∀ call began result, (call, began, result) ∈ pool.results → Right namedRoom call result :=
  Run.exists_get cacheRun (by decide +kernel) fun hrun =>
    ⟨by decide +kernel, (state_cache_transparent namedRoom hrun).1⟩

end Sithnapse.StateCache
