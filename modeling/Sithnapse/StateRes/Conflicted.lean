import Sithnapse.StateRes.Mainline
import Sithnapse.StateRes.PowerSort

/-! Applying the conflicted events to a base state.

    The power events are checked in reverse topological order, the others in mainline order; an event
    that passes is written over what the state has under its key. Two runs are compared that start from
    states which agree on the keys that are read: `Behind` says that one state is the other with more
    behind it. -/

namespace Sithnapse.StateRes

open Kit Kit.Dict Kit.Chain List Option

/-! ### The auth checks -/

section Checks

variable {E : Type} [DecidableEq E]

variable (R : Resolver E)

variable (known : Known E)

/-- The event map; what is not in it by `_get_event` with `allow_none=True`. -/
def mapOrFind (e : E) : Except (Failure E) (Option (Event E)) :=
  match known e with
  | some event => .ok (some event)
  | none => findEvent R.roomId (find R known) e

/-- The event map; what is not in it by `_get_event`. -/
def mapOrGet (e : E) : Except (Failure E) (Event E) :=
  match known e with
  | some event => .ok event
  | none => getEvent R.roomId (find R known) e

/-- `auth_events` by the auth events that the event names. -/
def namedAuthEvents (event : Event E) :
    Except (Failure E) (Dict StateKey (Event E)) :=
  event.authEventIds.foldlM (fun auth aid => do
    match ← mapOrFind R known aid with
    | none => return auth
    | some ev =>
      if ev.rejected then return auth
      let key ← ev.key
      return auth.set key ev) Dict.empty

/-- The event that the resolved state has under a key, unless it is rejected. -/
def resolvedAuthEvent (resolved : Dict StateKey E) (key : StateKey) :
    Except (Failure E) (Option (Event E)) :=
  match resolved.get? key with
  | none => .ok none
  | some e => do
    let ev ← mapOrGet R known e
    return if ev.rejected then none else some ev

/-- `auth_events`: the resolved state goes before the auth events that the event names. -/
def authEvents (types : Order StateKey) (R : Resolver E) (known : Known E) (resolved : Dict StateKey E)
    (event : Event E) : Except (Failure E) (Dict StateKey (Event E)) := do
  let named ← namedAuthEvents R known event
  let keys ← R.authTypes event
  (types.arrange keys).foldlM
    (fun auth key => do return auth.setSome key (← resolvedAuthEvent R known resolved key)) named

/-- One event of `_iterative_auth_checks`. -/
def authCheck (types : E → Order StateKey) (R : Resolver E) (known : Known E) (resolved : Dict StateKey E)
    (e : E) : Except (Failure E) (Dict StateKey E) :=
  match known e with
  | none => .error (.unknownEvent e)
  | some event => do
    let auth ← authEvents (types e) R known resolved event
    if event.rejected then return resolved
    if ← R.allowed event auth.get? then
      let key ← event.key
      return resolved.set key e
    return resolved

/-- `_iterative_auth_checks`. -/
def iterativeAuthChecks (types : E → Order StateKey) (R : Resolver E) (known : Known E) (events : List E)
    (base : Dict StateKey E) : Except (Failure E) (Dict StateKey E) :=
  events.foldlM (authCheck types R known) base

/-- The second state is the first with `u` behind it; on the keys of `N` both are the same. -/
structure Behind (N : StateKey → Prop) (u : StateKey → Option E) (d d' : Dict StateKey E) : Prop where
  agree : ∀ k, N k → d.get? k = d'.get? k
  behind : ∀ k, d'.get? k = (d.get? k).or (u k)

variable {N : StateKey → Prop} {u : StateKey → Option E} {R : Resolver E} {known known' : Known E}

variable {d d' : Dict StateKey E}

omit [DecidableEq E] in
theorem Behind.set (h : Behind N u d d') (key : StateKey) (e : E) :
    Behind N u (d.set key e) (d'.set key e) := by
  refine ⟨fun k hk => ?_, fun k => ?_⟩
  · rw [get?_set, get?_set, h.agree k hk]
  · rw [get?_set, get?_set, h.behind k]
    split <;> rfl

omit [DecidableEq E] in
theorem behind_of_same (h : Dict.Same d d') : Behind (fun _ => True) (fun _ => none) d d' :=
  ⟨fun k _ => h k, fun k => by rw [h k, or_none]⟩

/-- Every event in an event map is in the room. -/
def InRoom (R : Resolver E) (known : Known E) : Prop := ∀ e event, known e = some event → event.roomId = R.roomId

theorem mapOrFind_eq (hroom : InRoom R known) : mapOrFind R known = findEvent R.roomId (find R known) := by
  funext e
  rw [mapOrFind]
  cases h : known e with
  | none => rfl
  | some event => simp [findEvent, find, h, hroom e event h]

theorem mapOrGet_eq (hroom : InRoom R known) : mapOrGet R known = getEvent R.roomId (find R known) := by
  funext e
  rw [mapOrGet]
  cases h : known e with
  | none => rfl
  | some event => exact (getEvent_of_look (by rw [find, h]; rfl) (hroom e event h)).symm

section Runs

variable (hfind : mapOrFind R known' = mapOrFind R known) (hget : mapOrGet R known' = mapOrGet R known)

include hfind hget

theorem authEvents_alike (h : Behind N u d d') {event : Event E}
    (htypes : ∀ keys, R.authTypes event = .ok keys → ∀ k ∈ keys, N k) (types types' : Order StateKey) :
    Alike Dict.Same (authEvents types R known d event) (authEvents types' R known' d' event) := by
  have hnamed : namedAuthEvents R known' event = namedAuthEvents R known event := by
    simp only [namedAuthEvents, hfind]
  rw [authEvents, authEvents, hnamed]
  refine (Alike.same _).bind ?_
  rintro named _ rfl
  cases hkeys : R.authTypes event with
  | error failure => trivial
  | ok keys =>
    have hread : ∀ k ∈ types.arrange keys, resolvedAuthEvent R known d k = resolvedAuthEvent R known' d' k := by
      intro k hk
      rw [resolvedAuthEvent, resolvedAuthEvent,
        h.agree k (htypes keys hkeys k (Order.mem_arrange.mp hk)), hget]
    have hsame : SameSet (types.arrange keys) (types'.arrange keys) := fun k => by simp
    exact alike_foldlM_setSome hsame hread (Dict.Same.refl named)

theorem authCheck_alike (h : Behind N u d d') {e : E} (hknown : known' e = known e)
    (htypes : ∀ event, known e = some event → ∀ keys, R.authTypes event = .ok keys → ∀ k ∈ keys, N k)
    (types types' : E → Order StateKey) :
    Alike (Behind N u) (authCheck types R known d e) (authCheck types' R known' d' e) := by
  rw [authCheck, authCheck, hknown]
  cases hevent : known e with
  | none => trivial
  | some event =>
    refine (authEvents_alike hfind hget h (htypes event hevent) _ _).bind fun auth auth' hauth => ?_
    rw [show auth.get? = auth'.get? from funext hauth]
    split
    · exact h
    · refine (Alike.same _).bind ?_
      rintro allowed _ rfl
      split
      · refine (Alike.same _).bind ?_
        rintro key _ rfl
        exact h.set key e
      · exact h

/-- Checking the same events one after another. -/
theorem iterativeAuthChecks_alike (h : Behind N u d d') {events : List E}
    (hknown : ∀ e ∈ events, known' e = known e)
    (htypes : ∀ e ∈ events, ∀ event, known e = some event → ∀ keys, R.authTypes event = .ok keys → ∀ k ∈ keys, N k)
    (types types' : E → Order StateKey) :
    Alike (Behind N u) (iterativeAuthChecks types R known events d)
      (iterativeAuthChecks types' R known' events d') :=
  Alike.foldlM h fun e he _ _ hd =>
    authCheck_alike hfind hget hd (hknown e he) (htypes e he) types types'

end Runs

end Checks

/-! ### The conflicted set -/

section Conflicted

variable {E : Type} [LinearOrder E]

/-- The orders in which the sets of a resolution come. -/
structure ResolveOrders (E : Type) extends DifferenceOrders E where
  stateKeys : Order StateKey
  toFetch : Order E
  fullConflictedSet : Order E
  baseStateKeys : Order StateKey
  powerEvents : Order E
  parents : E → Order E
  leftoverEvents : Order E
  authTypes : E → Order StateKey

/-- `_is_power_event(event_map[eid])`. -/
def isPowerEventId (known : Known E) (e : E) : Except (Failure E) Bool :=
  match known e with
  | none => .error (.unknownEvent e)
  | some event => isPowerEvent event

/-- The events that can be referred to. -/
def referenced (R : Resolver E) (m : EventMap E) : List E :=
  (R.stored.dict.values ++ m.dict.values).flatMap Event.authEventIds

/-- `_resolve_conflicted_set`. -/
def resolveConflictedSet (ω : ResolveOrders E) (R : Resolver E) (m : EventMap E) (full : List E)
    (base : Dict StateKey E) : Except (Failure E) (Dict StateKey E) := do
  let known := m.dict.get?
  let look := find R known
  let members := ω.powerEvents.arrange full
  let flags ← members.mapM (isPowerEventId known)
  let powerEvents := ((members.zip flags).filter (·.2)).map Prod.fst
  let sorted ← reverseTopologicalPowerSort ω.parents R.roomId known look full powerEvents
  let resolved ← iterativeAuthChecks ω.authTypes R known sorted base
  let leftover := (ω.leftoverEvents.arrange full).filter (· ∉ sorted)
  let leftover ← mainlineSort ((referenced R m).length + 2) R.roomId known look leftover
    (resolved.get? powerLevelsKey)
  iterativeAuthChecks ω.authTypes R known leftover resolved

variable {R : Resolver E} {m m' : EventMap E} {full full' : List E}

theorem find_eventId {e : E} {event : Event E} (h : find R m.dict.get? e = some event) : event.eventId = e := by
  rw [find, or_eq_some_iff] at h
  rcases h with h | ⟨-, h⟩
  · exact m.ids e event h
  · exact R.stored.ids e event h

theorem mem_referenced {x y : E} (h : y ∈ references (find R m.dict.get?) x) : y ∈ referenced R m := by
  cases hfind : find R m.dict.get? x with
  | none => simp [references, hfind] at h
  | some event =>
    rw [references_of_find hfind] at h
    refine mem_flatMap.mpr ⟨event, ?_, h⟩
    rw [mem_append, mem_values_iff, mem_values_iff]
    rw [find, or_eq_some_iff] at hfind
    exact hfind.symm.imp (fun h => ⟨x, h.2⟩) fun h => ⟨x, h⟩

omit [LinearOrder E] in
/-- The power events of the conflicted set, and that its events are all known. -/
theorem powerEvents_spec {known : Known E} {members : List E} {flags : List Bool}
    (h : List.Forall₂ (fun e b => isPowerEventId known e = .ok b) members flags) :
    (∀ e ∈ members, ∃ event, known e = some event) ∧
      ∀ e ∈ ((members.zip flags).filter (·.2)).map Prod.fst, e ∈ members := by
  refine ⟨fun e he => ?_, fun e he => ((mem_filter_zip h e).mp he).1⟩
  obtain ⟨b, hb⟩ := mapM_returns_iff.mp ⟨flags, mapM_ok_iff.mpr h⟩ e he
  rw [isPowerEventId] at hb
  split at hb
  · cases hb
  · rename_i event hevent
    exact ⟨event, hevent⟩

variable {N : StateKey → Prop} {u : StateKey → Option E}

/-- What the base states have under keys that are not needed changes nothing. -/
theorem resolveConflictedSet_behind (hpl : N powerLevelsKey)
    (htypes : ∀ e ∈ full, ∀ event, m.dict.get? e = some event → ∀ keys, R.authTypes event = .ok keys → ∀ k ∈ keys, N k)
    {base base' : Dict StateKey E} (hbase : Behind N u base base') (ω : ResolveOrders E) :
    Alike (Behind N u) (resolveConflictedSet ω R m full base) (resolveConflictedSet ω R m full base') := by
  rw [resolveConflictedSet, resolveConflictedSet]
  refine (Alike.same _).bind_of ?_
  rintro flags _ hflags - rfl
  obtain ⟨-, hpower⟩ := powerEvents_spec (mapM_ok_iff.mp hflags)
  refine (Alike.same _).bind_of ?_
  rintro sorted _ hsorted - rfl
  have hsub : ∀ e ∈ sorted, e ∈ full := fun e he =>
    mem_reverseTopologicalPowerSort hsorted (fun e he => Order.mem_arrange.mp (hpower e he)) he
  refine (iterativeAuthChecks_alike rfl rfl hbase (fun _ _ => rfl) (fun e he => htypes e (hsub e he)) _ _).bind
    fun resolved resolved' hresolved => ?_
  rw [hresolved.agree _ hpl]
  refine (Alike.same _).bind_of ?_
  rintro leftover _ hleftover - rfl
  refine iterativeAuthChecks_alike rfl rfl hresolved (fun _ _ => rfl) (fun e he => htypes e ?_) _ _
  exact Order.mem_arrange.mp (mem_filter.mp ((mainlineSort_perm hleftover).mem_iff.mp he)).1

/-- Neither the order of the sets nor what the event maps have beside the conflicted events changes the
    result. -/
theorem resolveConflictedSet_alike (hac : Acyclic (references (find R m.dict.get?)))
    (hroom : InRoom R m.dict.get?) (hroom' : InRoom R m'.dict.get?)
    (hfind : find R m'.dict.get? = find R m.dict.get?) (hnd : full.Nodup) (hnd' : full'.Nodup)
    (hsame : SameSet full full') (hknown : ∀ e ∈ full, m'.dict.get? e = m.dict.get? e)
    {base base' : Dict StateKey E} (hbase : Dict.Same base base') (ω ω' : ResolveOrders E) :
    Alike Dict.Same (resolveConflictedSet ω R m full base) (resolveConflictedSet ω' R m' full' base') := by
  have hfind' : mapOrFind R m'.dict.get? = mapOrFind R m.dict.get? := by
    rw [mapOrFind_eq hroom, mapOrFind_eq hroom', hfind]
  have hget' : mapOrGet R m'.dict.get? = mapOrGet R m.dict.get? := by
    rw [mapOrGet_eq hroom, mapOrGet_eq hroom', hfind]
  have hmembers : SameSet (ω.powerEvents.arrange full) (ω'.powerEvents.arrange full') := fun x => by
    rw [Order.mem_arrange, Order.mem_arrange, hsame x]
  have hflag : ∀ e ∈ ω'.powerEvents.arrange full',
      isPowerEventId m'.dict.get? e = isPowerEventId m.dict.get? e := fun e he => by
    rw [isPowerEventId, isPowerEventId, hknown e ((hsame e).mpr (Order.mem_arrange.mp he))]
  rw [resolveConflictedSet, resolveConflictedSet, hfind]
  rw [mapM_congr hflag]
  refine (alike_mapM_sameSet hmembers).bind fun flags flags' hflags => ?_
  obtain ⟨hall, hpower⟩ := powerEvents_spec hflags.1
  have hpowerSame : SameSet ((((ω.powerEvents.arrange full).zip flags).filter (·.2)).map Prod.fst)
      ((((ω'.powerEvents.arrange full').zip flags').filter (·.2)).map Prod.fst) := fun x => by
    rw [mem_filter_zip hflags.1, mem_filter_zip hflags.2, hmembers x]
  have hget : ∀ e ∈ full, ∃ event, getEvent R.roomId (find R m.dict.get?) e = .ok event := by
    intro e he
    obtain ⟨event, hevent⟩ := hall e (Order.mem_arrange.mpr he)
    exact ⟨event, getEvent_of_look (by rw [find, hevent]; rfl) (hroom e event hevent)⟩
  refine (reverseTopologicalPowerSort_alike hac hget hsame (fun e he => Order.mem_arrange.mp (hpower e he))
    hpowerSame (fun e he => (hknown e he).symm) ω.parents ω'.parents).bind_of ?_
  rintro sorted _ hsorted - rfl
  have hsub : ∀ e ∈ sorted, e ∈ full := fun e he =>
    mem_reverseTopologicalPowerSort hsorted (fun e he => Order.mem_arrange.mp (hpower e he)) he
  refine (iterativeAuthChecks_alike hfind' hget' (behind_of_same hbase) (fun e he => hknown e (hsub e he))
    (fun _ _ _ _ _ _ _ _ => trivial) _ _).bind fun resolved resolved' hresolved => ?_
  rw [← hresolved.agree _ trivial]
  have hleft : SameSet ((ω.leftoverEvents.arrange full).filter (· ∉ sorted))
      ((ω'.leftoverEvents.arrange full').filter (· ∉ sorted)) :=
    SameSet.filter (fun x => by rw [Order.mem_arrange, Order.mem_arrange, hsame x]) _
  have hleftSub : ∀ e ∈ (ω.leftoverEvents.arrange full).filter (· ∉ sorted), e ∈ full := fun e he =>
    Order.mem_arrange.mp (mem_filter.mp he).1
  refine (mainlineSort_alike hac (fun _ _ => mem_referenced) le_rfl
    (fun _ _ h => mem_referenced (m := m') (by rwa [hfind])) le_rfl (fun _ _ => find_eventId)
    ((Order.nodup_arrange.mpr hnd).filter _) ((Order.nodup_arrange.mpr hnd').filter _) hleft
    (fun e event h => by rw [find, h]; rfl) (fun e he => (hknown e (hleftSub e he)).symm) _).bind_of ?_
  rintro leftover _ hleftover - rfl
  have hleftover' : ∀ e ∈ leftover, e ∈ full := fun e he =>
    hleftSub e ((mainlineSort_perm hleftover).mem_iff.mp he)
  refine (iterativeAuthChecks_alike hfind' hget' hresolved (fun e he => hknown e (hleftover' e he))
    (fun _ _ _ _ _ _ _ _ => trivial) _ _).mono fun r r' h key => h.agree key trivial

end Conflicted

end Sithnapse.StateRes
