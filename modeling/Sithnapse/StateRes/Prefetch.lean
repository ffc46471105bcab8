import Sithnapse.StateRes.Prepare

/-! The event map before and during a resolution.

    A walk over the auth references finds out whether the map has all events the state sets lead to.
    Otherwise events are fetched in rounds, each asking for the references of the last that are still
    missing: at most as many rounds as there are stored events, and one more that finds nothing. -/

namespace Sithnapse.StateRes

open Kit Kit.Dict Kit.Chain List
open Kit.Dict (Same)

variable {E : Type} [DecidableEq E]

/-- The auth references within an event map. -/
def EventMap.authIds (m : EventMap E) : AuthIds E := m.dict.mapValues Event.authEventIds

/-! ### The complete event graph -/

/-- One round of the walk: `to_check`, the event popped next first, and `checked`. -/
def completeRound (m : EventMap E) (s : List E × List E) : (List E × List E) ⊕ Bool :=
  match s.1 with
  | [] => .inr true
  | e :: rest =>
    if e ∈ s.2 then .inl (rest, s.2)
    else
      match m.dict.get? e with
      | none => .inr false
      | some event => .inl (event.authEventIds.reverse ++ rest, e :: s.2)

/-- `complete_event_graph`. -/
def completeEventGraph (R : Resolver E) (m : EventMap E) (sets : List (Dict StateKey E)) : Bool :=
  let ids := sets.flatMap Dict.values
  R.roomVersion.stateRes = .v2 && ids.all (· ∈ m.dict.keys) &&
    (loop (completeRound m) (ids.length + (m.dict.values.flatMap Event.authEventIds).length + 1)
      (ids.reverse, [])).getD false

/-! ### Fetching -/

/-- The references that are followed when events are fetched. -/
def fetchedReferences (event : Event E) : List E :=
  if event.roomVersion.msc4242StateDags then event.prevStateEvents else event.authEventIds

theorem get?_fetch (m stored : EventMap E) (ids : List E) (e : E) :
    (ids.foldl (fun d e => d.setSome e (stored.dict.get? e)) m.dict).get? e =
      if e ∈ ids then (stored.dict.get? e).or (m.dict.get? e) else m.dict.get? e :=
  get?_foldl_setSome stored.dict.get? e ids m.dict

/-- `event_map.update(fetched)` with what the store has of some events. -/
def EventMap.fetch (m stored : EventMap E) (ids : List E) : EventMap E where
  dict := ids.foldl (fun d e => d.setSome e (stored.dict.get? e)) m.dict
  ids e event h := by
    rw [get?_fetch] at h
    split at h
    · rcases (Option.or_eq_some_iff ..).mp h with h | h
      · exact stored.ids e event h
      · exact m.ids e event h.2
    · exact m.ids e event h

variable {m : EventMap E} {unconflicted : Dict StateKey E} {full : List E} {known : Known E}

theorem mem_keys_fetch {stored : EventMap E} {ids : List E} {e : E} :
    e ∈ (m.fetch stored ids).dict.keys ↔ e ∈ m.dict.keys ∨ e ∈ ids ∧ e ∈ stored.dict.keys := by
  simp only [mem_keys_iff, EventMap.fetch, get?_fetch]
  by_cases he : e ∈ ids
  · rw [if_pos he]
    cases stored.dict.get? e with
    | none => simp
    | some event => simp [he]
  · simp [he]

/-- `new_to_fetch`: the missing references of the events that were asked for. -/
def newToFetch (m : EventMap E) (ids : List E) : List E :=
  ids.foldl (fun new e => addAll new
    (((m.dict.get? e).map fetchedReferences).getD [] |>.filter (· ∉ m.dict.keys))) []

variable (order : Order E)

/-- One round of the prefetch: `to_fetch` and the event map. -/
def prefetchRound (R : Resolver E) (s : List E × EventMap E) : (List E × EventMap E) ⊕ EventMap E :=
  if s.1 = [] then .inr s.2
  else
    let ids := order.arrange s.1
    let m := s.2.fetch R.stored ids
    .inl (newToFetch m ids, m)

/-- The first `to_fetch`. -/
def toFetch (m : EventMap E) (full : List E) (unconflicted : Dict StateKey E) : List E :=
  let missing := fun ids => List.filter (· ∉ m.dict.keys) ids
  addAll (addAll (addAll [] (missing full)) (missing unconflicted.values))
    (missing (m.dict.values.flatMap fetchedReferences))

/-- The event map with all that the resolver may need. -/
def prefetch (R : Resolver E) (m : EventMap E) (full : List E)
    (unconflicted : Dict StateKey E) : EventMap E :=
  (loop (prefetchRound order R) (R.stored.dict.keys.length + 2) (toFetch m full unconflicted, m)).getD m

theorem mem_newToFetch {ids : List E} {x : E} : x ∈ newToFetch m ids ↔ x ∉ m.dict.keys ∧
      ∃ e ∈ ids, ∃ event, m.dict.get? e = some event ∧ x ∈ fetchedReferences event := by
  have href : ∀ e, x ∈ ((m.dict.get? e).map fetchedReferences).getD [] ↔
      ∃ event, m.dict.get? e = some event ∧ x ∈ fetchedReferences event := by
    intro e
    cases m.dict.get? e with
    | none => simp
    | some event => simp
  rw [newToFetch, mem_foldl_addAll fun e =>
    (((m.dict.get? e).map fetchedReferences).getD []).filter (· ∉ m.dict.keys)]
  simp only [not_mem_nil, false_or, mem_filter, href, decide_eq_true_eq]
  constructor
  · rintro ⟨e, he, hx, hk⟩
    exact ⟨hk, e, he, hx⟩
  · rintro ⟨hk, e, he, hx⟩
    exact ⟨e, he, hx, hk⟩

theorem mem_toFetch {x : E} : x ∈ toFetch m full unconflicted ↔ x ∉ m.dict.keys ∧
      (x ∈ full ∨ x ∈ unconflicted.values ∨ ∃ event ∈ m.dict.values, x ∈ fetchedReferences event) := by
  simp only [toFetch, mem_addAll, not_mem_nil, false_or, mem_filter, mem_flatMap, decide_eq_true_eq]
  tauto

variable {R : Resolver E} {m' : EventMap E}

/-- Events that wait are missing, and what was added is the store's. -/
structure Fetching (R : Resolver E) (m : EventMap E) (s : List E × EventMap E) : Prop where
  missing : ∀ e ∈ s.1, e ∉ s.2.dict.keys
  added : ∀ e, s.2.dict.get? e = m.dict.get? e ∨ m.dict.get? e = none ∧ s.2.dict.get? e = R.stored.dict.get? e

theorem Fetching.round {order : Order E} {s s' : List E × EventMap E} (h : Fetching R m s)
    (hs : prefetchRound order R s = .inl s') : Fetching R m s' := by
  rw [prefetchRound] at hs
  split at hs
  · cases hs
  · obtain rfl := Sum.inl.inj hs
    refine ⟨fun e he => (mem_newToFetch.mp he).1, fun e => ?_⟩
    dsimp only [EventMap.fetch]
    rw [get?_fetch]
    split_ifs with he
    · have hnone : s.2.dict.get? e = none :=
        get?_eq_none_iff.mpr (h.missing e (Order.mem_arrange.mp he))
      rw [hnone, Option.or_none]
      rcases h.added e with hadd | ⟨hm, -⟩
      · exact .inr ⟨hadd ▸ hnone, rfl⟩
      · exact .inr ⟨hm, rfl⟩
    · exact h.added e

/-- The prefetch ends. -/
theorem prefetch_ends (s : List E × EventMap E) (h : Fetching R m s) :
    ∃ r, loop (prefetchRound order R) (R.stored.dict.keys.length + 2) s = some r := by
  let left : EventMap E → List E := fun m => R.stored.dict.keys.filter (· ∉ m.dict.keys)
  refine loop_total (fun s => (left s.2).length + if s.1 = [] then 0 else 1)
    (fun s s' h hs => h.round hs) ?_ _ s h ?_
  · intro s s' h hs
    rw [prefetchRound] at hs
    split at hs
    · cases hs
    · rename_i hne
      obtain rfl := Sum.inl.inj hs
      dsimp only
      have hsplit : left (s.2.fetch R.stored (order.arrange s.1)) =
          (left s.2).filter (· ∉ (s.2.fetch R.stored (order.arrange s.1)).dict.keys) := by
        simp only [left, filter_filter]
        refine filter_congr fun e _ => ?_
        by_cases he : e ∈ s.2.dict.keys
        · simp [mem_keys_fetch, he]
        · simp [he]
      rw [if_neg hne]
      by_cases hfound : ∃ e ∈ s.1, e ∈ R.stored.dict.keys
      · -- a stored event has come
        obtain ⟨e, he, hstored⟩ := hfound
        have hlt : (left (s.2.fetch R.stored (order.arrange s.1))).length < (left s.2).length := by
          rw [hsplit, length_filter_lt_length_iff_exists]
          refine ⟨e, mem_filter.mpr ⟨hstored, by simpa using h.missing e he⟩, ?_⟩
          simp [mem_keys_fetch, he, hstored]
        split <;> omega
      · -- nothing has come, so there is nothing more to ask for
        have hnil : newToFetch (s.2.fetch R.stored (order.arrange s.1)) (order.arrange s.1) = [] := by
          refine eq_nil_iff_forall_not_mem.mpr fun x hx => ?_
          obtain ⟨-, e, he, event, hevent, -⟩ := mem_newToFetch.mp hx
          rcases mem_keys_fetch.mp (mem_keys_iff.mpr ⟨event, hevent⟩) with hk | hk
          · exact h.missing e (Order.mem_arrange.mp he) hk
          · exact hfound ⟨e, Order.mem_arrange.mp he, hk.2⟩
        rw [if_pos hnil, hsplit]
        exact Nat.lt_succ_of_le (length_filter_le _ _)
  · have : (left s.2).length ≤ R.stored.dict.keys.length := length_filter_le _ _
    split <;> omega

theorem fetching_start (full : List E) (unconflicted : Dict StateKey E) :
    Fetching R m (toFetch m full unconflicted, m) :=
  ⟨fun _ he => (mem_toFetch.mp he).1, fun _ => .inl rfl⟩

/-- The prefetch adds stored events to the map. -/
theorem prefetch_added (full : List E) (unconflicted : Dict StateKey E) (e : E) :
    (prefetch order R m full unconflicted).dict.get? e = m.dict.get? e ∨
      m.dict.get? e = none ∧ (prefetch order R m full unconflicted).dict.get? e = R.stored.dict.get? e := by
  obtain ⟨r, hr⟩ := prefetch_ends order _ (fetching_start full unconflicted)
  rw [prefetch, hr]
  refine loop_post (Q := fun r => ∀ e, r.dict.get? e = m.dict.get? e ∨
    m.dict.get? e = none ∧ r.dict.get? e = R.stored.dict.get? e) (fun s s' h hs => h.round hs)
    (fun s r h hs => ?_) _ _ r (fetching_start full unconflicted) hr e
  rw [prefetchRound] at hs
  split at hs
  · obtain rfl := Sum.inr.inj hs
    exact h.added
  · cases hs

/-- What is fetched does not depend on how the sets come. -/
theorem prefetch_same (order order' : Order E) (hm : Same m.dict m'.dict) {full' : List E}
    (hfull : SameSet full full') {unconflicted' : Dict StateKey E}
    (hunconflicted : Same unconflicted unconflicted') :
    Same (prefetch order R m full unconflicted).dict (prefetch order' R m' full' unconflicted').dict := by
  have hstart : SameSet (toFetch m full unconflicted) (toFetch m' full' unconflicted') := by
    intro x
    simp only [mem_toFetch, hm.keys x, hfull x, hunconflicted.values x, hm.values _]
  have hloop := loop_alike (f := prefetchRound order R) (g := prefetchRound order' R)
    (I := fun s t => SameSet s.1 t.1 ∧ Same s.2.dict t.2.dict)
    (Q := fun r r' => Same r.dict r'.dict) ?_ (R.stored.dict.keys.length + 2)
    (s := (toFetch m full unconflicted, m)) (t := (toFetch m' full' unconflicted', m')) ⟨hstart, hm⟩
  · obtain ⟨r, hr⟩ := prefetch_ends order _ (fetching_start (R := R) (m := m) full unconflicted)
    obtain ⟨r', hr'⟩ := prefetch_ends order' _ (fetching_start (R := R) (m := m') full' unconflicted')
    rw [hr, hr'] at hloop
    rw [prefetch, prefetch, hr, hr']
    cases hloop with
    | some h => exact h
  · rintro ⟨ids, m⟩ ⟨ids', m'⟩ ⟨hids, hm⟩
    rw [prefetchRound, prefetchRound]
    by_cases hnil : ids = []
    · rw [if_pos hnil, if_pos (hids.nil_iff.mp hnil)]
      exact .inr hm
    · rw [if_neg hnil, if_neg (mt hids.nil_iff.mpr hnil)]
      have hfetch : Same (m.fetch R.stored (order.arrange ids)).dict
          (m'.fetch R.stored (order'.arrange ids')).dict := by
        intro e
        simp only [EventMap.fetch, get?_fetch, Order.mem_arrange, hids e, hm e]
      refine .inl ⟨fun x => ?_, hfetch⟩
      simp only [mem_newToFetch, hfetch.keys x, Order.mem_arrange, hids _, hfetch _]

/-! ### The base state -/

/-- `event_auth.auth_types_for_event(room_version, event_map[event_id])`. -/
def authTypesOf (R : Resolver E) (known : Known E) (e : E) : Except (Failure E) (List StateKey) :=
  match known e with
  | none => .error (.unknownEvent e)
  | some event => R.authTypes event

theorem authTypesOf_of_known {R : Resolver E} {e : E} {event : Event E}
    (h : known e = some event) : authTypesOf R known e = R.authTypes event := by
  simp [authTypesOf, h]

/-- `base_state_keys`. -/
def baseStateKeys (R : Resolver E) (known : Known E) (full : List E) :
    Except (Failure E) (List StateKey) := do
  let types ← (order.arrange full).mapM (authTypesOf R known)
  return types.foldl addAll [powerLevelsKey]

/-- The entries of a state map under some keys. -/
def restrict (keys : List StateKey) (state : Dict StateKey E) : Dict StateKey E :=
  keys.foldl (fun d key => d.setSome key (state.get? key)) Dict.empty

/-- `base_state`. -/
def baseState (events : Order E) (keys : Order StateKey) (R : Resolver E) (known : Known E) (full : List E)
    (unconflicted : Dict StateKey E) : Except (Failure E) (Dict StateKey E) :=
  match R.roomVersion.stateRes with
  | .v1 => .ok Dict.empty
  | .v2 => do return restrict (keys.arrange (← baseStateKeys events R known full)) unconflicted
  | .v2_1 => .ok (restrict [createKey, joinRulesKey, powerLevelsKey] unconflicted)

omit [DecidableEq E] in
theorem get?_restrict (keys : List StateKey) (state : Dict StateKey E) (key : StateKey) :
    (restrict keys state).get? key = if key ∈ keys then state.get? key else none := by
  rw [restrict, get?_foldl_setSome]
  simp

/-- The keys are the power levels' and the auth types of the conflicted events. -/
theorem mem_baseStateKeys {order : Order E} {types : List (List StateKey)}
    (h : List.Forall₂ (fun e l => authTypesOf R known e = .ok l) (order.arrange full) types) {key : StateKey} :
    key ∈ types.foldl addAll [powerLevelsKey] ↔
      key = powerLevelsKey ∨ ∃ e ∈ full, ∃ l, authTypesOf R known e = .ok l ∧ key ∈ l := by
  have hunion := mem_foldl_addAll (x := key) id types [powerLevelsKey]
  refine hunion.trans (or_congr mem_singleton ?_)
  simp only [mem_comprehension h, Order.mem_arrange, id_eq]
  constructor
  · rintro ⟨l, ⟨e, he, hl⟩, hkey⟩
    exact ⟨e, he, l, hl, hkey⟩
  · rintro ⟨e, he, l, hl, hkey⟩
    exact ⟨l, ⟨e, he, hl⟩, hkey⟩

/-- The base state does not depend on how the sets come. -/
theorem baseState_alike {full' : List E} (hfull : SameSet full full')
    {unconflicted' : Dict StateKey E} (h : Same unconflicted unconflicted')
    (events events' : Order E) (keys keys' : Order StateKey) :
    Alike Same (baseState events keys R known full unconflicted)
      (baseState events' keys' R known full' unconflicted') := by
  rw [baseState, baseState]
  cases R.roomVersion.stateRes with
  | v1 => exact Same.refl _
  | v2 =>
    have hmembers : SameSet (events.arrange full) (events'.arrange full') := fun e => by
      rw [Order.mem_arrange, Order.mem_arrange, hfull e]
    refine Alike.bind (R := SameSet) ((alike_mapM_sameSet hmembers).bind fun types types' htypes => ?_)
      fun l l' hl key => ?_
    · intro key
      rw [mem_baseStateKeys htypes.1, mem_baseStateKeys htypes.2]
      simp only [hfull _]
    · simp only [get?_restrict, Order.mem_arrange, h key, hl key]
  | v2_1 =>
    intro key
    rw [get?_restrict, get?_restrict, h key]

end Sithnapse.StateRes
