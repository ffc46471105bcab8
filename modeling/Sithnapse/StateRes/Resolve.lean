import Sithnapse.StateRes.Prefetch

/-! Resolving state sets.

    `resolve_events_with_store` as the Python code computes it: the Rust resolver and the conflict
    cache are left out. What it returns depends on the state sets, the events and the store only, not
    on the order in which the sets and dicts of the program come. -/

namespace Sithnapse.StateRes

open Kit Kit.Dict Kit.Chain List
open Kit.Dict (Same)

variable {E : Type} [LinearOrder E]

/-- The check that everything in the event map is in the right room. -/
def checkRoom (R : Resolver E) (m : EventMap E) : Except (Failure E) Unit :=
  match m.dict.values.find? (·.roomId ≠ R.roomId) with
  | some event => .error (.otherRoom event.eventId)
  | none => .ok ()

/-- `resolve_events_with_store` from the full conflicted set on. -/
def resolveFullConflictedSet (ω : ResolveOrders E) (R : Resolver E) (m : EventMap E)
    (unconflicted : Dict StateKey E) (full : List E) : Except (Failure E) (Dict StateKey E) := do
  let m := prefetch ω.toFetch R m full unconflicted
  checkRoom R m
  let full := full.filter (· ∈ m.dict.keys)
  let base ← baseState ω.fullConflictedSet ω.baseStateKeys R m.dict.get? full unconflicted
  let resolved ← resolveConflictedSet ω R m full base
  return resolved.update unconflicted.entries

/-- `resolve_events_with_store`; `rust` is the graph walk of the extension, if there is one. -/
def resolveEventsWithStore (ω : ResolveOrders E) (rust : Option (AuthGraph E)) (R : Resolver E)
    (sets : List (Dict StateKey E)) (m : EventMap E) : Except (Failure E) (Dict StateKey E) :=
  let unconflicted := (seperate ω.stateKeys sets).1
  let conflicted := (seperate ω.stateKeys sets).2
  if conflicted.entries = [] then .ok unconflicted
  else do
    let conflictedSet := addAll [] conflicted.values.flatten
    let authDiff ← getAuthChainDifference ω.toDifferenceOrders rust R.store sets m.authIds
      (if R.roomVersion.stateRes = .v2_1 then some conflictedSet else none) (completeEventGraph R m sets)
    resolveFullConflictedSet ω R m unconflicted (addAll conflictedSet authDiff)

variable {R : Resolver E} {m m' : EventMap E} {sets sets' : List (Dict StateKey E)}

theorem checkRoom_ok : checkRoom R m = .ok () ↔ InRoom R m.dict.get? := by
  have hnone : checkRoom R m = .ok () ↔ m.dict.values.find? (·.roomId ≠ R.roomId) = none := by
    rw [checkRoom]
    cases m.dict.values.find? (·.roomId ≠ R.roomId) with
    | none => simp
    | some event => simp
  rw [hnone, find?_eq_none]
  simp only [mem_values_iff, forall_exists_index, decide_eq_true_eq, not_not]
  exact ⟨fun h e event he => h event e he, fun h event e he => h e event he⟩

/-- Two maps with the same events are both in the room or both not. -/
theorem checkRoom_alike (hm : Same m.dict m'.dict) : Alike Eq (checkRoom R m) (checkRoom R m') := by
  have hboth : checkRoom R m = .ok () ↔ checkRoom R m' = .ok () := by
    rw [checkRoom_ok, checkRoom_ok, InRoom, InRoom]
    simp only [hm _]
  cases h : checkRoom R m with
  | ok _ => rw [hboth.mp h]; rfl
  | error failure =>
    cases h' : checkRoom R m' with
    | ok _ => rw [hboth.mpr h'] at h; cases h
    | error failure' => trivial

/-- Every key on which all state sets agree keeps its event. -/
theorem agreed_kept {ω : ResolveOrders E} {rust : Option (AuthGraph E)} {result : Dict StateKey E}
    (h : resolveEventsWithStore ω rust R sets m = .ok result) {key : StateKey} {e : E}
    (hagreed : Agreed sets key e) : result.get? key = some e := by
  have hkey : (seperate ω.stateKeys sets).1.get? key = some e := get?_unconflicted.mpr hagreed
  rw [resolveEventsWithStore] at h
  split at h
  · rw [← Except.ok.inj h, hkey]
  · obtain ⟨authDiff, -, h⟩ := bind_eq_ok.mp h
    rw [resolveFullConflictedSet] at h
    obtain ⟨_, -, h⟩ := bind_eq_ok.mp h
    obtain ⟨base, -, h⟩ := bind_eq_ok.mp h
    obtain ⟨resolved, -, h⟩ := bind_eq_ok.mp h
    rw [← Except.ok.inj h, get?_update_entries, hkey]
    rfl

/-- From the full conflicted set on. -/
theorem resolveFullConflictedSet_alike (hac : Acyclic (references (find R m.dict.get?)))
    (hm : Same m.dict m'.dict) {u u' : Dict StateKey E} (hu : Same u u') {full full' : List E}
    (hnd : full.Nodup) (hnd' : full'.Nodup) (hfull : SameSet full full') (ω ω' : ResolveOrders E) :
    Alike Same (resolveFullConflictedSet ω R m u full) (resolveFullConflictedSet ω' R m' u' full') := by
  have hfetched := prefetch_same (R := R) ω.toFetch ω'.toFetch hm hfull hu
  have hfind := find_update R (prefetch_added (R := R) (m := m) ω.toFetch full u)
  rw [resolveFullConflictedSet, resolveFullConflictedSet]
  generalize prefetch ω.toFetch R m full u = n at hfetched hfind ⊢
  generalize prefetch ω'.toFetch R m' full' u' = n' at hfetched ⊢
  have hknown : n'.dict.get? = n.dict.get? := funext fun e => (hfetched e).symm
  have hkept : SameSet (full.filter (· ∈ n.dict.keys)) (full'.filter (· ∈ n'.dict.keys)) := fun e => by
    simp [hfull e, hfetched.keys e]
  rw [← hfind] at hac
  refine (checkRoom_alike hfetched).bind_of fun _ _ hroom hroom' _ => ?_
  have hroom := checkRoom_ok.mp hroom
  rw [hknown]
  refine (baseState_alike hkept hu _ _ _ _).bind fun base base' hbase => ?_
  refine (resolveConflictedSet_alike hac hroom (hknown ▸ hroom) (by rw [hknown]) (hnd.filter _) (hnd'.filter _)
    hkept (fun _ _ => by rw [hknown]) hbase ω ω').bind ?_
  intro resolved resolved' hresolved key
  rw [get?_update_entries, get?_update_entries, hu key, hresolved key]

/-- Without the extension the difference is always split. -/
theorem getAuthChainDifference_none (ω : DifferenceOrders E) (store : AuthStore E)
    (sets : List (Dict StateKey E)) (events : AuthIds E) (conflicted : Option (List E)) (complete : Bool) :
    getAuthChainDifference ω none store sets events conflicted complete =
      splitDifference ω store sets events conflicted := by
  cases conflicted <;> cases complete <;> rfl

/-- **State resolution does not depend on the order of its inputs.** Two presentations of the same state
    sets and the same events give the same state map, or both fail; and what all sets agree on stays. -/
theorem resolution_order_independent (hstore : Extensional R.store)
    (hac : Acyclic (references (find R m.dict.get?))) (hm : Same m.dict m'.dict)
    (hsets : SameStates sets sets') (ω ω' : ResolveOrders E) :
    Alike Same (resolveEventsWithStore ω none R sets m) (resolveEventsWithStore ω' none R sets' m') ∧
      ∀ result, resolveEventsWithStore ω none R sets m = .ok result → sets ≠ [] →
        ∀ key e, (∀ s ∈ sets, s.get? key = some e) → result.get? key = some e := by
  refine ⟨?_, fun result h hne key e hall => agreed_kept h ⟨hne, hall⟩⟩
  have hu : Same (seperate ω.stateKeys sets).1 (seperate ω'.stateKeys sets').1 := by
    intro key
    refine Option.ext fun e => ?_
    rw [get?_unconflicted, get?_unconflicted, hsets.agreed]
  have hnil : (seperate ω.stateKeys sets).2.entries = [] ↔ (seperate ω'.stateKeys sets').2.entries = [] := by
    rw [conflicted_eq_nil, conflicted_eq_nil]
    simp only [hsets.conflicted]
  have hconflicted : SameSet (addAll [] (seperate ω.stateKeys sets).2.values.flatten)
      (addAll [] (seperate ω'.stateKeys sets').2.values.flatten) := fun e => by
    rw [mem_addAll, mem_addAll, mem_conflicted, mem_conflicted, hsets.conflicted]
  rw [resolveEventsWithStore, resolveEventsWithStore]
  dsimp only
  by_cases hempty : (seperate ω.stateKeys sets).2.entries = []
  · rw [if_pos hempty, if_pos (hnil.mp hempty)]
    exact hu
  · rw [if_neg hempty, if_neg (mt hnil.mpr hempty)]
    have hne : sets ≠ [] := by
      rintro rfl
      refine hempty (conflicted_eq_nil.mpr fun e he => ?_)
      obtain ⟨key, -, s, hs, -⟩ := he
      exact not_mem_nil hs
    have hevents : Same m.authIds m'.authIds := fun e => by
      rw [EventMap.authIds, EventMap.authIds, get?_mapValues, get?_mapValues, hm e]
    have hnext : Acyclic m.authIds.next := hac.mono fun e a ha => by
      rw [AuthIds.next, Dict.getD, EventMap.authIds, get?_mapValues] at ha
      cases he : m.dict.get? e with
      | none => simp [he] at ha
      | some event =>
        rw [he] at ha
        rwa [references_of_find (show find R m.dict.get? e = some event by rw [find, he]; rfl)]
    rw [getAuthChainDifference_none, getAuthChainDifference_none]
    refine Alike.bind (R := SameSet) (splitDifference_alike hnext hevents hsets hne hstore ?_ _ _)
      fun diff diff' hdiff => ?_
    · split
      · exact .some hconflicted
      · exact .none
    · refine resolveFullConflictedSet_alike hac hm hu (nodup_addAll _ (nodup_addAll _ nodup_nil))
        (nodup_addAll _ (nodup_addAll _ nodup_nil)) (fun e => ?_) ω ω'
      exact mem_addAll.trans ((or_congr (hconflicted e) (hdiff e)).trans mem_addAll.symm)

/-- A store that computes its answers from the whole graph looks at the members of the sets only. -/
theorem closureStore_extensional {auth : E → List E} {U : List E} (hU : ∀ x y, y ∈ auth x → y ∈ U) :
    Extensional (closureStore auth U) := by
  intro sets sets' conflicted conflicted' additional additional' hsets hconflicted hadditional
  refine ⟨fun e => ?_, ?_⟩
  · have hunder : ∀ l l', SameSet l l' → (Under auth l e ↔ Under auth l' e) :=
      fun _ _ h => exists_congr fun x => and_congr_left fun _ => h x
    rw [mem_closure_difference hU, mem_closure_difference hU]
    exact and_congr (exists_iff_of_same hsets hunder) (not_congr (forall_iff_of_same hsets hunder))
  · cases hconflicted with
    | none => exact .none
    | some hc =>
      refine .some fun e => ?_
      simp only [mem_filter, decide_eq_true_eq, mem_closure hU, mem_append, hc _, hadditional _]

/-- An event of a room in room version 10. -/
def plainEvent (e : E) (type : String) (ts : ℤ) (authIds : List E) : Event E where
  eventId := e
  roomId := "!r"
  roomVersion := ⟨"10", .v2, false, false, false⟩
  type := type
  stateKey := some ""
  sender := "@a"
  originServerTs := ts
  authEventIds := authIds
  prevStateEvents := []
  rejected := false
  membership := none
  creator := some "@a"
  additionalCreators := []
  users := Dict.empty
  usersDefault := none

/-- A map of some events. -/
def EventMap.ofEvents (events : List (Event E)) : EventMap E where
  dict := Dict.ofList (events.map fun event => (event.eventId, event))
  ids e event h := by
    rcases get?_update_cases _ _ h with h | h
    · obtain ⟨_, -, hevent⟩ := mem_map.mp h
      simp only [Prod.mk.injEq] at hevent
      rw [← hevent.1, hevent.2]
    · cases h

/-- The orders in which members were added, or all reversed. -/
def ResolveOrders.all (α : Order E) (β : Order StateKey) : ResolveOrders E :=
  ⟨⟨α, α, fun _ => α⟩, β, α, α, β, α, fun _ => α, α, fun _ => β⟩

omit [LinearOrder E] in
theorem sameStates_of_perm (h : ∀ s ∈ sets, ∃ s' ∈ sets', s.entries.Perm s'.entries)
    (h' : ∀ s' ∈ sets', ∃ s ∈ sets, s.entries.Perm s'.entries) : SameStates sets sets' := by
  have hsame : ∀ s s' : Dict StateKey E, s.entries.Perm s'.entries → Same s s' := by
    intro s s' h key
    refine Option.ext fun e => ?_
    rw [get?_eq_some_iff, get?_eq_some_iff, h.mem_iff]
  exact ⟨fun s hs => (h s hs).imp fun s' hs' => hs'.imp_right (hsame s s'),
    fun s' hs' => (h' s' hs').imp fun s hs => hs.imp_right (hsame s s')⟩

/-- A stored create event and topic. -/
def forkStored : EventMap ℕ :=
  .ofEvents [plainEvent 1 "m.room.create" 0 [], plainEvent 2 "m.room.topic" 5 [1]]

/-- Another topic that is not stored yet. -/
def forkMap : EventMap ℕ := .ofEvents [plainEvent 3 "m.room.topic" 4 [1]]

/-- Everything is allowed by the create event. -/
def forkResolver : Resolver ℕ where
  roomId := "!r"
  roomVersion := ⟨"10", .v2, false, false, false⟩
  stored := forkStored
  store := closureStore (references fun e => (forkMap.dict.get? e).or (forkStored.dict.get? e)) [1]
  authTypes _ := .ok [createKey]
  allowed _ _ := .ok true

/-- State sets with the two topics. -/
def forkSets : List (Dict StateKey ℕ) :=
  [.ofList [(createKey, 1), (("m.room.topic", ""), 2)], .ofList [(createKey, 1), (("m.room.topic", ""), 3)]]

/-- The same in another order, one of them twice. -/
def forkSetsAgain : List (Dict StateKey ℕ) :=
  [.ofList [(("m.room.topic", ""), 3), (createKey, 1)], .ofList [(createKey, 1), (("m.room.topic", ""), 2)],
    .ofList [(("m.room.topic", ""), 3), (createKey, 1)]]

theorem forkResolver_references {x y : ℕ} (h : y ∈ references (find forkResolver forkMap.dict.get?) x) :
    y ∈ [1] ∧ y < x := by
  have hall : ∀ event ∈ forkStored.dict.values ++ forkMap.dict.values, ∀ a ∈ event.authEventIds,
      a ∈ [1] ∧ a < event.eventId := by decide +kernel
  cases hfind : find forkResolver forkMap.dict.get? x with
  | none => simp [references, hfind] at h
  | some event =>
    rw [references_of_find hfind] at h
    rw [← find_eventId hfind]
    refine hall event ?_ y h
    rw [mem_append, mem_values_iff, mem_values_iff]
    rw [find, Option.or_eq_some_iff] at hfind
    exact hfind.symm.imp (fun h => ⟨x, h.2⟩) fun h => ⟨x, h⟩

/-- Both presentations of the fork resolve, to the same state, with the create event in it. -/
theorem resolution_order_independent_fork : ∃ r r',
    resolveEventsWithStore (.all .asAdded .asAdded) none forkResolver forkSets forkMap = .ok r ∧
    resolveEventsWithStore (.all .latestFirst .latestFirst) none forkResolver forkSetsAgain forkMap = .ok r' ∧
    Same r r' ∧ r.get? createKey = some 1 := by
  obtain ⟨hsame, hkept⟩ := resolution_order_independent (R := forkResolver)
    (closureStore_extensional fun x y h => (forkResolver_references h).1)
    (acyclic_of_rank id fun x y h => (forkResolver_references h).2) (Same.refl forkMap.dict)
    (sameStates_of_perm (by decide +kernel) (by decide +kernel) : SameStates forkSets forkSetsAgain)
    (.all .asAdded .asAdded) (.all .latestFirst .latestFirst)
  have hsome : (resolveEventsWithStore (.all .asAdded .asAdded) none forkResolver forkSets forkMap).toOption.isSome := by
    decide +kernel
  cases hr : resolveEventsWithStore (.all .asAdded .asAdded) none forkResolver forkSets forkMap with
  | error failure => rw [hr] at hsome; cases hsome
  | ok r =>
    rw [hr] at hsame
    obtain ⟨r', hr', hsame⟩ := hsame.ok_left
    exact ⟨r, r', rfl, hr', hsame, hkept r hr (by decide) createKey 1 (by decide +kernel)⟩

end Sithnapse.StateRes
