import Sithnapse.StateRes.AuthChains

/-! The auth difference of state sets that hold events which are not persisted yet.

    The store answers for persisted events only. `_get_auth_chain_difference` replaces each other event
    by the persisted events its auth chain runs into, takes the difference of the rest itself, and for
    state resolution v2.1 joins the conflicted subgraph of the store to the part above it. The two
    meet at the persisted events that unpersisted ones refer to. -/

namespace Sithnapse.StateRes

open Kit Kit.Dict Kit.Chain List Relation

/-- Why a resolution raises. -/
inductive Failure (E : Type) where
  /-- There is no first state set. -/
  | indexError
  /-- The store raised. -/
  | store
  | unknownEvent (e : E)
  /-- The event is in another room. -/
  | otherRoom (e : E)
  /-- The assertion that there is a create event. -/
  | noCreateEvent (e : E)
  /-- `int(level)`. -/
  | notAnInteger (e : E)
  /-- The event is not a state event. -/
  | noStateKey (e : E)
  /-- A membership event without a membership. -/
  | noMembership (e : E)
  deriving DecidableEq

/-- `StateDifference`. -/
structure StateDifference (E : Type) where
  authDifference : List E
  conflictedSubgraph : Option (List E)

/-- `get_auth_chain_difference` of the store: state sets, conflicted events, additional events. -/
abbrev AuthStore (E : Type) :=
  List (List E) → Option (List E) → List E → Except (Failure E) (StateDifference E)

/-- What the resolver crate's `auth_difference(&[], ids)` gives on the graph of some events. -/
abbrev AuthGraph (E : Type) := AuthIds E → List E → List E

/-- The orders in which sets of events come. -/
structure DifferenceOrders (E : Type) where
  conflictedState : Order E
  unpersistedConflicted : Order E
  /-- The one that comes first is the one popped. -/
  searchQueue : List E × List E → Order E

section Code

variable {E K : Type} [DecidableEq E]

/-- Union minus intersection; there has to be a first set. -/
def unionMinusIntersection : List (List E) → Option (List E)
  | [] => none
  | first :: rest =>
    let union := rest.foldl addAll first
    let intersection := first.filter fun e => ∀ s ∈ rest, e ∈ s
    some (union.filter (· ∉ intersection))

/-- `get_auth_chain_difference_from_event_graph`. -/
def getAuthChainDifferenceFromEventGraph (graph : AuthGraph E) (sets : List (Dict K E))
    (events : AuthIds E) : List E :=
  (unionMinusIntersection (sets.map fun s => graph events s.values)).getD []

/-- The ids of one state set: `set_ids` and `unpersisted_ids`. -/
def splitStateSet (events : AuthIds E) (chains : Dict E (List E)) (ids : List E) : List E × List E :=
  ids.foldl (fun split e =>
    match chains.get? e with
    | some chain => (addAll split.1 (chain.filter (· ∉ events.keys)),
        addAll split.2 (chain.filter (· ∈ events.keys)))
    | none => (addIf split.1 e, split.2)) ([], [])

/-- `unpersisted_conflicted_events` and `additional_backwards_reachable_conflicted_events`. -/
def splitConflicted (order : Order E) (events : AuthIds E) (chains : Dict E (List E))
    (conflicted : List E) : List E × List E :=
  (order.arrange conflicted).foldl (fun split e =>
    match chains.get? e with
    | some chain => (addIf split.1 e, addAll split.2 (chain.filter (· ∉ events.keys)))
    | none => split) ([], [])

variable (ω : DifferenceOrders E)

/-- The conflicted subgraph of the store, expanded into the unpersisted events. -/
def expandSubgraph (events : AuthIds E) (chains : Dict E (List E))
    (conflicted unpersistedConflicted additional stored : List E) : List E :=
  let subgraph := addAll stored conflicted
  let frontier := subgraph.filter (· ∈ additional)
  let next := eventToNextEvent events
  let forwards := drain ω.searchQueue (fun e => next.getD e []) events.keys
    (addAll frontier unpersistedConflicted)
  let backwards := (ω.unpersistedConflicted.arrange unpersistedConflicted).foldl
    (fun set e => addAll set (chains.getD e [])) []
  addAll subgraph (backwards.filter (· ∈ forwards))

/-- `state_sets_ids`: what the store is asked. -/
def stateSetsIds (events : AuthIds E) (sets : List (Dict K E)) : List (List E) :=
  if events.entries = [] then sets.map fun s => addAll [] s.values
  else sets.map fun s => (splitStateSet events (eventsToAuthChain events) s.values).1

/-- `auth_difference_unpersisted_part`. -/
def unpersistedPart (events : AuthIds E) (sets : List (Dict K E)) : Option (List E) :=
  if events.entries = [] then some []
  else unionMinusIntersection (sets.map fun s => (splitStateSet events (eventsToAuthChain events) s.values).2)

/-- `_get_auth_chain_difference` after the fast path. -/
def splitDifference (store : AuthStore E) (sets : List (Dict K E))
    (events : AuthIds E) (conflicted : Option (List E)) : Except (Failure E) (List E) :=
  let chains := eventsToAuthChain events
  let unpersisted := splitConflicted ω.conflictedState events chains (conflicted.getD [])
  match unpersistedPart events sets with
  | none => .error .indexError
  | some unpersistedPart =>
    let persisted := conflicted.map (·.filter (· ∉ unpersisted.1))
    match store (stateSetsIds events sets) persisted unpersisted.2 with
    | .error failure => .error failure
    | .ok difference =>
      let authDifference := addAll difference.authDifference unpersistedPart
      let subgraph :=
        match persisted, difference.conflictedSubgraph with
        | some conflicted, some stored =>
          if events.entries = [] then some stored
          else some (expandSubgraph ω events chains conflicted unpersisted.1 unpersisted.2 stored)
        | _, stored => stored
      .ok (addAll authDifference (subgraph.getD []))

/-- `_get_auth_chain_difference`; without `rust` the extension raises. -/
def getAuthChainDifference (rust : Option (AuthGraph E)) (store : AuthStore E)
    (sets : List (Dict K E)) (events : AuthIds E) (conflicted : Option (List E))
    (completeEventGraph : Bool) : Except (Failure E) (List E) :=
  match conflicted, completeEventGraph, rust with
  | none, true, some graph => .ok (getAuthChainDifferenceFromEventGraph graph sets events)
  | _, _, _ => splitDifference ω store sets events conflicted

end Code

/-! ### What the parts hold -/

section Parts

variable {E K : Type} [DecidableEq E] {events : AuthIds E}

theorem mem_unionMinusIntersection {S : Type} (f : S → List E) {sets : List S} {x : E} :
    x ∈ (unionMinusIntersection (sets.map f)).getD [] ↔ (∃ s ∈ sets, x ∈ f s) ∧ ¬ ∀ s ∈ sets, x ∈ f s := by
  match sets with
  | [] => simp [unionMinusIntersection]
  | first :: rest =>
    rw [map_cons, unionMinusIntersection, Option.getD_some, mem_filter, decide_eq_true_eq, mem_filter,
      decide_eq_true_eq, forall_mem_map, foldl_map, mem_foldl_addAll f, exists_mem_cons_iff, forall_mem_cons]

theorem exists_unionMinusIntersection (sets : List (List E)) (h : sets ≠ []) :
    ∃ d, unionMinusIntersection sets = some d := by
  match sets with
  | [] => exact absurd rfl h
  | first :: rest => exact ⟨_, rfl⟩

/-- Nothing is below an event that is not one of the events. -/
theorem belowEq_of_not_mem {e x : E} (he : e ∉ events.keys) : BelowEq events.next e x ↔ x = e := by
  rw [belowEq_iff]
  refine ⟨fun h => h.resolve_right fun hx => ?_, .inl⟩
  obtain ⟨a, ha, -⟩ := TransGen.head'_iff.mp hx
  exact he (AuthIds.mem_keys_of_next ha)

section Acyclic

variable (hac : Acyclic events.next)

include hac

theorem mem_splitStateSet (ids : List E) (x : E) :
    (x ∈ (splitStateSet events (eventsToAuthChain events) ids).1 ↔
      x ∉ events.keys ∧ Under events.next ids x) ∧
    (x ∈ (splitStateSet events (eventsToAuthChain events) ids).2 ↔
      x ∈ events.keys ∧ Under events.next ids x) := by
  rw [splitStateSet]
  refine foldl_visited _ (fun pre (split : List E × List E) =>
    (x ∈ split.1 ↔ x ∉ events.keys ∧ Under events.next pre x) ∧
    (x ∈ split.2 ↔ x ∈ events.keys ∧ Under events.next pre x)) ids ?_ ?_
  · simp [Under]
  · rintro pre e _ split - ⟨hids, hunpersisted⟩
    have hunder : Under events.next (pre ++ [e]) x ↔ Under events.next pre x ∨ BelowEq events.next e x := by
      simp [Under, or_and_right, exists_or]
    rw [hunder]
    by_cases he : e ∈ events.keys
    · obtain ⟨c, hc, hchain⟩ := get?_eventsToAuthChain_some hac he
      simp only [hc, mem_addAll, mem_filter, hchain, decide_eq_true_eq, hids, hunpersisted]
      tauto
    · simp only [get?_eventsToAuthChain_none hac he, mem_addIf, hids, hunpersisted, belowEq_of_not_mem he]
      constructor
      · constructor
        · rintro (⟨hk, hx⟩ | rfl)
          · exact ⟨hk, .inl hx⟩
          · exact ⟨he, .inr rfl⟩
        · rintro ⟨hk, hx | rfl⟩
          · exact .inl ⟨hk, hx⟩
          · exact .inr rfl
      · refine and_congr_right fun hk => ⟨.inl, fun hx => hx.resolve_right ?_⟩
        rintro rfl
        exact he hk

theorem mem_splitConflicted (order : Order E) (conflicted : List E) (x : E) :
    (x ∈ (splitConflicted order events (eventsToAuthChain events) conflicted).1 ↔
      x ∈ conflicted ∧ x ∈ events.keys) ∧
    (x ∈ (splitConflicted order events (eventsToAuthChain events) conflicted).2 ↔
      x ∉ events.keys ∧ ∃ e ∈ conflicted, e ∈ events.keys ∧ BelowEq events.next e x) := by
  simp only [← order.mem_arrange (l := conflicted)]
  refine foldl_visited _ (fun pre (split : List E × List E) => (x ∈ split.1 ↔ x ∈ pre ∧ x ∈ events.keys) ∧
    (x ∈ split.2 ↔ x ∉ events.keys ∧ ∃ e ∈ pre, e ∈ events.keys ∧ BelowEq events.next e x)) _ (by simp) ?_
  rintro pre e _ split - ⟨hunp, hadd⟩
  by_cases he : e ∈ events.keys
  · obtain ⟨c, hc, hchain⟩ := get?_eventsToAuthChain_some hac he
    simp only [hc, mem_addIf, mem_addAll, mem_filter, hchain, decide_eq_true_eq, hunp, hadd,
      mem_append, mem_singleton, or_and_right, exists_or, exists_eq_left, he, true_and]
    refine ⟨or_congr_right ⟨fun hx => ⟨hx, hx ▸ he⟩, And.left⟩, ?_⟩
    rw [and_or_left]
    exact or_congr_right and_comm
  · simp only [get?_eventsToAuthChain_none hac he, hunp, hadd, mem_append, mem_singleton,
      or_and_right, exists_or, exists_eq_left, he, false_and, or_false]
    exact ⟨⟨.inl, fun hx => hx.resolve_right fun hxe => he (hxe.1 ▸ hxe.2)⟩, trivial⟩

/-- Walking forwards from an event finds those that have it in their chain. -/
theorem mem_forwards (pick : List E × List E → Order E) (queue : List E) (x : E) :
    x ∈ drain pick (fun e => (eventToNextEvent events).getD e []) events.keys queue ↔
      ∃ q ∈ queue, BelowEq events.next x q := by
  have hedge : Edge (fun e => (eventToNextEvent events).getD e []) = Function.swap (Edge events.next) := by
    funext a e
    exact propext ((eventToNextEvent_spec events a).2 e)
  have hac' : Acyclic fun e => (eventToNextEvent events).getD e [] := by
    intro e he
    rw [Below, hedge, transGen_swap] at he
    exact hac e he
  rw [mem_drain hac' (fun a e he => AuthIds.mem_keys_of_next (((eventToNextEvent_spec events a).2 e).mp he))
    (fun a => (eventToNextEvent_spec events a).1) pick]
  refine exists_congr fun q => and_congr_right fun _ => ?_
  rw [BelowEq, hedge, reflTransGen_swap]
  rfl

/-- The subgraph after the expansion, by what the parts of the split hold. -/
theorem mem_expandSubgraph (ω : DifferenceOrders E) {persisted unpersisted additional stored : List E}
    (hunpersisted : ∀ e ∈ unpersisted, e ∈ events.keys) (x : E) :
    x ∈ expandSubgraph ω events (eventsToAuthChain events) persisted unpersisted additional stored ↔
      (x ∈ stored ∨ x ∈ persisted) ∨ (∃ e ∈ unpersisted, BelowEq events.next e x) ∧
        ∃ q, ((q ∈ stored ∨ q ∈ persisted) ∧ q ∈ additional ∨ q ∈ unpersisted) ∧ BelowEq events.next x q := by
  have hchain : ∀ e ∈ unpersisted, (x ∈ (eventsToAuthChain events).getD e [] ↔ BelowEq events.next e x) := by
    intro e he
    obtain ⟨c, hc, hchain⟩ := get?_eventsToAuthChain_some hac (hunpersisted e he)
    rw [getD_of_get? hc, hchain]
  have hback : x ∈ (ω.unpersistedConflicted.arrange unpersisted).foldl
      (fun set e => addAll set ((eventsToAuthChain events).getD e [])) [] ↔
      ∃ e ∈ unpersisted, BelowEq events.next e x := by
    rw [mem_foldl_addAll fun e => (eventsToAuthChain events).getD e []]
    simp only [Order.mem_arrange, not_mem_nil, false_or]
    exact exists_congr fun e => and_congr_right (hchain e)
  simp only [expandSubgraph, mem_addAll, mem_filter, mem_forwards hac, decide_eq_true_eq, hback]

/-- The state sets the store is asked: what the chains run into outside the events. -/
theorem mem_stateSetsIds (sets : List (Dict K E)) : ∃ ids : Dict K E → List E,
    stateSetsIds events sets = sets.map ids ∧
      ∀ s x, x ∈ ids s ↔ x ∉ events.keys ∧ Under events.next s.values x := by
  rw [stateSetsIds]
  split_ifs with hempty
  · have hkeys : ∀ x, x ∉ events.keys := by simp [Dict.keys, hempty]
    refine ⟨_, rfl, fun s x => ?_⟩
    rw [mem_addAll]
    simp only [not_mem_nil, false_or, hkeys, not_false_eq_true, true_and, Under, belowEq_of_not_mem (hkeys _)]
    simp
  · exact ⟨_, rfl, fun s x => (mem_splitStateSet hac s.values x).1⟩

/-- The difference among the events themselves. -/
theorem mem_unpersistedPart {sets : List (Dict K E)} (hsets : sets ≠ []) :
    ∃ part, unpersistedPart events sets = some part ∧ ∀ x, x ∈ part ↔
      (∃ s ∈ sets, x ∈ events.keys ∧ Under events.next s.values x) ∧
        ¬ ∀ s ∈ sets, x ∈ events.keys ∧ Under events.next s.values x := by
  rw [unpersistedPart]
  split_ifs with hempty
  · have hkeys : ∀ x, x ∉ events.keys := by simp [Dict.keys, hempty]
    exact ⟨[], rfl, fun x => by simp [hkeys]⟩
  · obtain ⟨part, hpart⟩ := exists_unionMinusIntersection
      (sets.map fun s => (splitStateSet events (eventsToAuthChain events) s.values).2)
      (by simpa using hsets)
    refine ⟨part, hpart, fun x => ?_⟩
    rw [← Option.getD_some (a := part), ← hpart, mem_unionMinusIntersection]
    simp only [(mem_splitStateSet hac _ x).2]

/-- What is asked of the store and what is made of its answer. -/
theorem splitDifference_spec (ω : DifferenceOrders E) (store : AuthStore E) {sets : List (Dict K E)}
    (hsets : sets ≠ []) (conflicted : Option (List E)) :
    ∃ (persisted : List E → List E) (additional : List E),
      (∀ c ∈ conflicted, ∀ x, x ∈ persisted c ↔ x ∈ c ∧ x ∉ events.keys) ∧
      (∀ x, x ∈ additional ↔
        x ∉ events.keys ∧ ∃ e ∈ conflicted.getD [], e ∈ events.keys ∧ BelowEq events.next e x) ∧
      (∀ failure, store (stateSetsIds events sets) (conflicted.map persisted) additional = .error failure →
        splitDifference ω store sets events conflicted = .error failure) ∧
      ∀ d, store (stateSetsIds events sets) (conflicted.map persisted) additional = .ok d →
        ∃ result, splitDifference ω store sets events conflicted = .ok result ∧
          ∀ x, x ∈ result ↔ x ∈ d.authDifference ∨
            ((∃ s ∈ sets, x ∈ events.keys ∧ Under events.next s.values x) ∧
              ¬ ∀ s ∈ sets, x ∈ events.keys ∧ Under events.next s.values x) ∨
            x ∈ d.conflictedSubgraph.getD [] ∨
            events.entries ≠ [] ∧ ∃ c ∈ conflicted, ∃ g ∈ d.conflictedSubgraph,
              x ∈ persisted c ∨ (∃ e ∈ c, e ∈ events.keys ∧ BelowEq events.next e x) ∧
                ∃ q, ((q ∈ g ∨ q ∈ persisted c) ∧ q ∈ additional ∨ q ∈ c ∧ q ∈ events.keys) ∧
                  BelowEq events.next x q := by
  obtain ⟨part, hpart, hmem⟩ := mem_unpersistedPart hac hsets
  have hsplit := mem_splitConflicted hac ω.conflictedState (conflicted.getD [])
  obtain ⟨unpersisted, hdef⟩ : ∃ split, split = splitConflicted ω.conflictedState events
    (eventsToAuthChain events) (conflicted.getD []) := ⟨_, rfl⟩
  rw [← hdef] at hsplit
  have hpersisted : ∀ c ∈ conflicted, ∀ x, x ∈ c.filter (· ∉ unpersisted.1) ↔ x ∈ c ∧ x ∉ events.keys := by
    intro c hc x
    rw [mem_filter, decide_eq_true_eq, (hsplit x).1, Option.mem_def.mp hc, Option.getD_some]
    tauto
  refine ⟨fun c => c.filter (· ∉ unpersisted.1), unpersisted.2, hpersisted, fun x => (hsplit x).2,
    fun failure hf => ?_, fun d hd => ?_⟩
  · simp only [splitDifference, hpart, ← hdef, hf]
  · simp only [splitDifference, hpart, ← hdef, hd]
    refine ⟨_, rfl, fun x => ?_⟩
    rw [mem_addAll, mem_addAll, hmem x, or_assoc]
    refine or_congr_right (or_congr_right ?_)
    clear hdef
    cases hg : d.conflictedSubgraph with
    | none => cases conflicted <;> simp
    | some g =>
      cases conflicted with
      | none => simp
      | some c =>
        by_cases hempty : events.entries = []
        · simp [hempty]
        · have hunp : ∀ q, q ∈ unpersisted.1 ↔ q ∈ c ∧ q ∈ events.keys := fun q => (hsplit q).1
          simp only [Option.map_some, if_neg hempty, Option.getD_some]
          rw [mem_expandSubgraph hac ω fun e he => ((hunp e).mp he).2]
          simp only [ne_eq, hempty, not_false_eq_true, true_and, Option.mem_def, Option.some.injEq,
            exists_eq_left', hunp, or_assoc, and_assoc]

end Acyclic

end Parts

/-! ### The whole graph -/

section Whole

variable {E K : Type} [DecidableEq E]

/-- In some but not all of the inclusive auth chains of the state sets. -/
def InDifference (auth : E → List E) (sets : List (List E)) (e : E) : Prop :=
  (∃ s ∈ sets, Under auth s e) ∧ ¬ ∀ s ∈ sets, Under auth s e

/-- In the inclusive conflicted subgraph: reachable from a conflicted event and reaching one. -/
def InSubgraph (auth : E → List E) (conflicted : List E) (e : E) : Prop :=
  Under auth conflicted e ∧ ∃ x ∈ conflicted, BelowEq auth e x

/-- A store that answers for persisted events as its documentation says: the conflicted and the
    additional events have to be in the state sets. -/
structure Answers (auth : E → List E) (persisted : E → Prop) (store : AuthStore E) : Prop where
  answer : ∀ sets conflicted additional, sets ≠ [] → (∀ s ∈ sets, ∀ e ∈ s, persisted e) →
    (∀ e ∈ conflicted.getD [], ∃ s ∈ sets, e ∈ s) → (∀ e ∈ additional, ∃ s ∈ sets, e ∈ s) →
    ∃ d, store sets conflicted additional = .ok d ∧
      (∀ e, e ∈ d.authDifference ↔ InDifference auth sets e) ∧
      (conflicted = none → d.conflictedSubgraph.getD [] = []) ∧
      ∀ c, conflicted = some c → ∃ g, d.conflictedSubgraph = some g ∧
        ∀ e, e ∈ g ↔ Under auth (c ++ additional) e ∧ ∃ x ∈ c, BelowEq auth e x

/-- The resolver crate gives the inclusive auth chain, where the graph holds all of it. -/
def Closes (graph : AuthGraph E) : Prop :=
  ∀ (events : AuthIds E) (ids : List E), (∀ x, Under events.next ids x → x ∈ events.keys) →
    ∀ e, e ∈ graph events ids ↔ Under events.next ids e

/-- The unpersisted events of an acyclic graph: no persisted event has one in its auth chain. -/
structure Unpersisted (auth : E → List E) (events : AuthIds E) : Prop where
  acyclic : Acyclic auth
  authIds : ∀ e ids, events.get? e = some ids → ids = auth e
  persisted : ∀ e, e ∉ events.keys → ∀ a, Below auth e a → a ∉ events.keys

namespace Unpersisted

variable {auth : E → List E} {events : AuthIds E} (h : Unpersisted auth events)

include h

variable {e x : E}

theorem next_eq (he : e ∈ events.keys) : events.next e = auth e := by
  obtain ⟨ids, hids⟩ := mem_keys_iff.mp he
  rw [AuthIds.next, getD_of_get? hids, h.authIds e ids hids]

theorem next_sub {a : E} (ha : a ∈ events.next e) : a ∈ auth e :=
  h.next_eq (AuthIds.mem_keys_of_next ha) ▸ ha

theorem acyclic_next : Acyclic events.next := h.acyclic.mono fun _ _ => h.next_sub

theorem belowEq_of_next (hx : BelowEq events.next e x) : BelowEq auth e x :=
  ReflTransGen.mono (fun _ _ => h.next_sub) _ _ hx

theorem persisted_below (he : e ∉ events.keys) (hx : BelowEq auth e x) : x ∉ events.keys := by
  rcases belowEq_iff.mp hx with rfl | hx
  · exact he
  · exact h.persisted e he x hx

/-- A path stays among the unpersisted events, or leaves them once and for all. -/
theorem belowEq_split (hx : BelowEq auth e x) : BelowEq events.next e x ∨
    ∃ b, b ∉ events.keys ∧ BelowEq events.next e b ∧ BelowEq auth b x := by
  induction hx with
  | refl => exact .inl .refl
  | @tail y z _ hz ih =>
    rcases ih with hy | ⟨b, hb, heb, hby⟩
    · by_cases hk : y ∈ events.keys
      · exact .inl (hy.tail (show z ∈ events.next y from h.next_eq hk ▸ hz))
      · exact .inr ⟨y, hk, hy, .single hz⟩
    · exact .inr ⟨b, hb, heb, hby.tail hz⟩

/-- Unpersisted events are reached through unpersisted events. -/
theorem belowEq_unpersisted (hx : x ∈ events.keys) : BelowEq auth e x ↔ BelowEq events.next e x := by
  refine ⟨fun hex => (h.belowEq_split hex).resolve_right ?_, h.belowEq_of_next⟩
  rintro ⟨b, hb, -, hbx⟩
  exact h.persisted_below hb hbx hx

/-- Persisted events are reached from where the chain leaves the unpersisted ones. -/
theorem belowEq_persisted (hx : x ∉ events.keys) : BelowEq auth e x ↔
    ∃ b, b ∉ events.keys ∧ BelowEq events.next e b ∧ BelowEq auth b x := by
  constructor
  · intro hex
    rcases h.belowEq_split hex with hex | hex
    · exact ⟨x, hx, hex, .refl⟩
    · exact hex
  · rintro ⟨b, -, heb, hbx⟩
    exact (h.belowEq_of_next heb).trans hbx

/-- What the store is asked covers the persisted part of a state set's chain. -/
theorem under_asked {asked ids : List E}
    (hasked : ∀ x, x ∈ asked ↔ x ∉ events.keys ∧ Under events.next ids x) :
    Under auth asked x ↔ x ∉ events.keys ∧ Under auth ids x := by
  constructor
  · rintro ⟨b, hb, hbx⟩
    obtain ⟨hk, v, hv, hvb⟩ := (hasked b).mp hb
    exact ⟨h.persisted_below hk hbx, v, hv, (h.belowEq_of_next hvb).trans hbx⟩
  · rintro ⟨hx, v, hv, hvx⟩
    obtain ⟨b, hb, hvb, hbx⟩ := (h.belowEq_persisted hx).mp hvx
    exact ⟨b, (hasked b).mpr ⟨hb, v, hv, hvb⟩, hbx⟩

/-- The subgraph: its persisted part is the store's, and the unpersisted part lies between the
    unpersisted conflicted events and where they meet it. -/
theorem inSubgraph_iff {conflicted persisted unpersisted additional stored : List E}
    (hpersisted : ∀ e, e ∈ persisted ↔ e ∈ conflicted ∧ e ∉ events.keys)
    (hunpersisted : ∀ e, e ∈ unpersisted ↔ e ∈ conflicted ∧ e ∈ events.keys)
    (hadditional : ∀ e, e ∈ additional ↔
      e ∉ events.keys ∧ ∃ c ∈ conflicted, c ∈ events.keys ∧ BelowEq events.next c e)
    (hstored : ∀ e, e ∈ stored ↔ Under auth (persisted ++ additional) e ∧ ∃ x ∈ persisted, BelowEq auth e x) :
    InSubgraph auth conflicted x ↔
      (x ∈ stored ∨ x ∈ persisted) ∨ (∃ e ∈ unpersisted, BelowEq events.next e x) ∧
        ∃ q, ((q ∈ stored ∨ q ∈ persisted) ∧ q ∈ additional ∨ q ∈ unpersisted) ∧ BelowEq events.next x q := by
  -- a persisted event reaches conflicted events exactly if it reaches persisted ones
  have hreach : ∀ {e}, e ∉ events.keys → ((∃ c ∈ conflicted, BelowEq auth e c) ↔
      ∃ c ∈ persisted, BelowEq auth e c) := by
    intro e he
    refine exists_congr fun c => ⟨fun ⟨hc, hec⟩ => ⟨(hpersisted c).mpr ⟨hc, ?_⟩, hec⟩,
      fun ⟨hc, hec⟩ => ⟨((hpersisted c).mp hc).1, hec⟩⟩
    exact h.persisted_below he hec
  have hunder : ∀ {e}, e ∉ events.keys → (Under auth conflicted e ↔ Under auth (persisted ++ additional) e) := by
    intro e he
    constructor
    · rintro ⟨c, hc, hce⟩
      by_cases hk : c ∈ events.keys
      · obtain ⟨b, hb, hcb, hbe⟩ := (h.belowEq_persisted he).mp hce
        exact ⟨b, mem_append_right _ ((hadditional b).mpr ⟨hb, c, hc, hk, hcb⟩), hbe⟩
      · exact ⟨c, mem_append_left _ ((hpersisted c).mpr ⟨hc, hk⟩), hce⟩
    · rintro ⟨b, hb, hbe⟩
      rcases mem_append.mp hb with hb | hb
      · exact ⟨b, ((hpersisted b).mp hb).1, hbe⟩
      · obtain ⟨-, c, hc, -, hcb⟩ := (hadditional b).mp hb
        exact ⟨c, hc, (h.belowEq_of_next hcb).trans hbe⟩
  have hstored' : ∀ {e}, e ∉ events.keys → (e ∈ stored ↔ InSubgraph auth conflicted e) := fun he => by
    rw [hstored, InSubgraph, hunder he, hreach he]
  have hsound : ∀ {e}, e ∈ stored ∨ e ∈ persisted → InSubgraph auth conflicted e := by
    rintro e (he | he)
    · obtain ⟨⟨b, hb, hbe⟩, -⟩ := (hstored e).mp he
      refine (hstored' (h.persisted_below ?_ hbe)).mp he
      rcases mem_append.mp hb with hb | hb
      · exact ((hpersisted b).mp hb).2
      · exact ((hadditional b).mp hb).1
    · have hc := ((hpersisted e).mp he).1
      exact ⟨⟨e, hc, .refl⟩, e, hc, .refl⟩
  constructor
  · rintro ⟨⟨c, hc, hcx⟩, c', hc', hxc'⟩
    by_cases hx : x ∈ events.keys
    · have hck : c ∈ events.keys := by
        by_contra hk
        exact h.persisted_below hk hcx hx
      have hcx' := (h.belowEq_unpersisted hx).mp hcx
      refine .inr ⟨⟨c, (hunpersisted c).mpr ⟨hc, hck⟩, hcx'⟩, ?_⟩
      by_cases hk : c' ∈ events.keys
      · exact ⟨c', .inr ((hunpersisted c').mpr ⟨hc', hk⟩), (h.belowEq_unpersisted hk).mp hxc'⟩
      · -- the path to the persisted conflicted event crosses the boundary at `b`
        obtain ⟨b, hb, hxb, hbc⟩ := (h.belowEq_persisted hk).mp hxc'
        have hcb : BelowEq events.next c b := hcx'.trans hxb
        refine ⟨b, .inl ⟨.inl ((hstored' hb).mpr ?_), (hadditional b).mpr ⟨hb, c, hc, hck, hcb⟩⟩, hxb⟩
        exact ⟨⟨c, hc, h.belowEq_of_next hcb⟩, c', hc', hbc⟩
    · exact .inl (.inl ((hstored' hx).mpr ⟨⟨c, hc, hcx⟩, c', hc', hxc'⟩))
  · rintro (hx | ⟨⟨c, hc, hcx⟩, q, hq, hxq⟩)
    · exact hsound hx
    · refine ⟨⟨c, ((hunpersisted c).mp hc).1, h.belowEq_of_next hcx⟩, ?_⟩
      have hq' : ∃ c' ∈ conflicted, BelowEq auth q c' := by
        rcases hq with ⟨hq, -⟩ | hq
        · exact (hsound hq).2
        · exact ⟨q, ((hunpersisted q).mp hq).1, .refl⟩
      obtain ⟨c', hc', hqc'⟩ := hq'
      exact ⟨c', hc', (h.belowEq_of_next hxq).trans hqc'⟩

end Unpersisted

/-- The fast path: all that the state sets reach is in the event map. -/
theorem fromEventGraph_spec {auth : E → List E} {events : AuthIds E} (h : Unpersisted auth events)
    {graph : AuthGraph E} (hgraph : Closes graph) {sets : List (Dict K E)}
    (hcomplete : ∀ s ∈ sets, ∀ x, Under auth s.values x → x ∈ events.keys) (e : E) :
    e ∈ getAuthChainDifferenceFromEventGraph graph sets events ↔
      InDifference auth (sets.map Dict.values) e := by
  have hunder : ∀ s ∈ sets, (e ∈ graph events s.values ↔ Under auth s.values e) := by
    intro s hs
    have hclosed : ∀ x, Under events.next s.values x → x ∈ events.keys := fun x ⟨v, hv, hvx⟩ =>
      hcomplete s hs x ⟨v, hv, h.belowEq_of_next hvx⟩
    rw [hgraph events s.values hclosed e]
    constructor
    · exact fun ⟨v, hv, hve⟩ => ⟨v, hv, h.belowEq_of_next hve⟩
    · rintro ⟨v, hv, hve⟩
      exact ⟨v, hv, (h.belowEq_unpersisted (hcomplete s hs e ⟨v, hv, hve⟩)).mp hve⟩
  rw [getAuthChainDifferenceFromEventGraph, mem_unionMinusIntersection, InDifference]
  simp only [forall_mem_map]
  simp only [mem_map, exists_exists_and_eq_and]
  refine and_congr (exists_congr fun s => and_congr_right (hunder s)) (not_congr ?_)
  exact forall_congr' fun s => forall_congr' (hunder s)

/-- The store's part and the part among the unpersisted events make up the result on the whole graph. -/
theorem splitDifference_whole {auth : E → List E} {events : AuthIds E} (h : Unpersisted auth events)
    (ω : DifferenceOrders E) {store : AuthStore E} {sets : List (Dict K E)} {conflicted : Option (List E)}
    (hstore : Answers auth (· ∉ events.keys) store) (hsets : sets ≠ [])
    (hconflicted : ∀ e ∈ conflicted.getD [], ∃ s ∈ sets, e ∈ s.values) :
    ∃ result, splitDifference ω store sets events conflicted = .ok result ∧
      ∀ e, e ∈ result ↔ InDifference auth (sets.map Dict.values) e ∨ ∃ c ∈ conflicted, InSubgraph auth c e := by
  obtain ⟨persisted, additional, hpersisted, hadditional, -, hok⟩ :=
    splitDifference_spec h.acyclic_next ω store hsets conflicted
  obtain ⟨ids, hids, hmem⟩ := mem_stateSetsIds h.acyclic_next sets
  -- what is asked is persisted and in the state sets that are asked
  have hin : ∀ e v s, s ∈ sets → v ∈ s.values → e ∉ events.keys → BelowEq events.next v e →
      ∃ s ∈ stateSetsIds events sets, e ∈ s := by
    intro e v s hs hv he hve
    rw [hids]
    exact ⟨ids s, mem_map_of_mem hs, (hmem s e).mpr ⟨he, v, hv, hve⟩⟩
  obtain ⟨d, hd, hdiff, hnone, hsome⟩ := hstore.answer (stateSetsIds events sets)
    (conflicted.map persisted) additional (by simpa [hids] using hsets)
    (by
      rw [hids]
      intro l hl e he
      obtain ⟨s, -, rfl⟩ := mem_map.mp hl
      exact ((hmem s e).mp he).1)
    (by
      cases conflicted with
      | none => simp
      | some c =>
        intro e he
        obtain ⟨hc, hk⟩ := (hpersisted c rfl e).mp he
        obtain ⟨s, hs, hes⟩ := hconflicted e hc
        exact hin e e s hs hes hk .refl)
    (by
      intro e he
      obtain ⟨hk, c, hc, -, hce⟩ := (hadditional e).mp he
      obtain ⟨s, hs, hcs⟩ := hconflicted c hc
      exact hin e c s hs hcs hk hce)
  obtain ⟨result, hresult, hspec⟩ := hok d hd
  refine ⟨result, hresult, fun e => ?_⟩
  have hunder : ∀ s, Under auth (ids s) e ↔ e ∉ events.keys ∧ Under auth s.values e :=
    fun s => h.under_asked (hmem s)
  have hwhole : InDifference auth (sets.map Dict.values) e ↔ e ∈ d.authDifference ∨
      (∃ s ∈ sets, e ∈ events.keys ∧ Under events.next s.values e) ∧
        ¬ ∀ s ∈ sets, e ∈ events.keys ∧ Under events.next s.values e := by
    rw [hdiff, hids]
    simp only [InDifference, mem_map, exists_exists_and_eq_and, forall_exists_index, and_imp,
      forall_apply_eq_imp_iff₂, hunder]
    by_cases hk : e ∈ events.keys
    · have hnext : ∀ ids, Under events.next ids e ↔ Under auth ids e := fun ids =>
        exists_congr fun v => and_congr_right fun _ => (h.belowEq_unpersisted hk).symm
      simp [hk, hnext]
    · simp [hk]
  rw [hspec, ← or_assoc, ← hwhole]
  refine or_congr_right ?_
  cases conflicted with
  | none => simp [hnone rfl]
  | some c =>
    obtain ⟨g, hg, hgmem⟩ := hsome (persisted c) rfl
    have hunpersisted : ∀ e, e ∈ c.filter (· ∈ events.keys) ↔ e ∈ c ∧ e ∈ events.keys := by
      intro e
      rw [mem_filter, decide_eq_true_eq]
    have hsub := h.inSubgraph_iff (hpersisted c rfl) hunpersisted hadditional hgmem (x := e)
    have hstored : e ∈ persisted c → e ∈ g := fun he =>
      (hgmem e).mpr ⟨⟨e, mem_append_left _ he, .refl⟩, e, he, .refl⟩
    simp only [Option.mem_def, Option.some.injEq, exists_eq_left', hg, Option.getD_some, hsub,
      mem_filter, decide_eq_true_eq, and_assoc, or_assoc]
    by_cases hempty : events.entries = []
    · -- no conflicted event is unpersisted, and the store's subgraph has all of them
      have hkeys : ∀ x, x ∉ events.keys := by simp [Dict.keys, hempty]
      simpa [hempty, hkeys] using hstored
    · simp [hempty]

/-- **The split gives the difference on the whole graph.** In v2 mode the events in some but not all of
    the state sets' chains, in v2.1 mode those and the conflicted subgraph. -/
theorem auth_difference_split {auth : E → List E} {events : AuthIds E} (h : Unpersisted auth events)
    (ω : DifferenceOrders E) (rust : Option (AuthGraph E)) {store : AuthStore E} {sets : List (Dict K E)}
    (conflicted : Option (List E)) (completeEventGraph : Bool)
    (hstore : Answers auth (· ∉ events.keys) store) (hrust : ∀ graph ∈ rust, Closes graph)
    (hsets : sets ≠ []) (hconflicted : ∀ e ∈ conflicted.getD [], ∃ s ∈ sets, e ∈ s.values)
    (hcomplete : completeEventGraph = true → ∀ s ∈ sets, ∀ x, Under auth s.values x → x ∈ events.keys) :
    ∃ result, getAuthChainDifference ω rust store sets events conflicted completeEventGraph = .ok result ∧
      ∀ e, e ∈ result ↔ InDifference auth (sets.map Dict.values) e ∨ ∃ c ∈ conflicted, InSubgraph auth c e := by
  have hsplit := splitDifference_whole h ω hstore hsets hconflicted
  cases conflicted with
  | some c => exact hsplit
  | none =>
    cases completeEventGraph with
    | false => exact hsplit
    | true =>
      cases rust with
      | none => exact hsplit
      | some graph =>
        refine ⟨_, rfl, fun e => ?_⟩
        rw [fromEventGraph_spec h (hrust graph rfl) (hcomplete rfl)]
        simp

/-- A store that computes its answers from the whole graph; `U` lists all events references lead to. -/
def closureStore (auth : E → List E) (U : List E) : AuthStore E := fun sets conflicted additional =>
  .ok ⟨(unionMinusIntersection (sets.map (closure auth U))).getD [],
    conflicted.map fun c => (closure auth U (c ++ additional)).filter fun e =>
      ∃ x ∈ c, x ∈ closure auth U [e]⟩

theorem mem_closure_difference {auth : E → List E} {U : List E} (hU : ∀ x y, y ∈ auth x → y ∈ U)
    {sets : List (List E)} {e : E} :
    e ∈ (unionMinusIntersection (sets.map (closure auth U))).getD [] ↔ InDifference auth sets e := by
  simp only [mem_unionMinusIntersection, mem_closure hU]
  rfl

theorem closureStore_answers {auth : E → List E} {U : List E} (hU : ∀ x y, y ∈ auth x → y ∈ U)
    (persisted : E → Prop) : Answers auth persisted (closureStore auth U) := by
  refine ⟨fun sets conflicted additional _ _ _ _ => ⟨_, rfl, fun e => mem_closure_difference hU, ?_, ?_⟩⟩
  · rintro rfl
    rfl
  · rintro c rfl
    refine ⟨_, rfl, fun e => ?_⟩
    simp only [mem_filter, decide_eq_true_eq, mem_closure hU, mem_singleton, exists_eq_left]
    rfl

/-- A graph given by its references, each to a smaller event, with some of its events unpersisted. -/
theorem unpersisted_of_entries {graph events : AuthIds ℕ} (hlow : ∀ p ∈ graph.entries, ∀ a ∈ p.2, a < p.1)
    (hevents : ∀ p ∈ events.entries, p.2 = graph.next p.1)
    (hclosed : ∀ p ∈ graph.entries, p.1 ∉ events.keys → ∀ a ∈ p.2, a ∉ events.keys) :
    Unpersisted graph.next events := by
  refine ⟨acyclic_of_rank id fun e a ha => ?_, fun e ids he => ?_, fun e he a ha => ?_⟩
  · obtain ⟨ids, hids, ha⟩ := AuthIds.exists_entry ha
    exact hlow _ hids a ha
  · exact hevents (e, ids) (get?_eq_some_iff.mp he)
  · refine fun hk => he (ha.closed' (fun {x y} hxy hy => ?_) hk)
    by_contra hx
    obtain ⟨ids, hids, hxy⟩ := AuthIds.exists_entry hxy
    exact hclosed _ hids hx _ hxy hy

/-- Unpersisted 5 and 4 over persisted 3, 2 and 1: the subgraph between the conflicted 5 and 2 crosses
    the boundary on two paths. -/
theorem auth_difference_split_crossing :
    let graph : AuthIds ℕ := Dict.ofList [(2, [1]), (3, [2]), (4, [2]), (5, [4, 3])]
    let events : AuthIds ℕ := Dict.ofList [(4, [2]), (5, [4, 3])]
    let sets : List (Dict ℕ ℕ) := [Dict.ofList [(0, 5)], Dict.ofList [(0, 2)]]
    let ω : DifferenceOrders ℕ := ⟨.latestFirst, .asAdded, fun _ => .latestFirst⟩
    ∃ result, getAuthChainDifference ω none (closureStore graph.next [1, 2, 3, 4]) sets events
      (some [5, 2]) false = .ok result ∧ 2 ∈ result ∧ 4 ∈ result := by
  intro graph events sets ω
  have h : Unpersisted graph.next events := unpersisted_of_entries (by decide) (by decide) (by decide)
  have hU : ∀ x y, y ∈ graph.next x → y ∈ [1, 2, 3, 4] := by
    have htargets : ∀ p ∈ graph.entries, ∀ a ∈ p.2, a ∈ [1, 2, 3, 4] := by decide
    intro x y hy
    obtain ⟨ids, hids, hy⟩ := AuthIds.exists_entry hy
    exact htargets _ hids y hy
  have hconflicted : ∀ e ∈ (some [5, 2]).getD [], ∃ s ∈ sets, e ∈ s.values := by decide
  obtain ⟨result, hresult, hmem⟩ := auth_difference_split h ω none (some [5, 2]) false
    (closureStore_answers hU _) (nofun) (by decide) hconflicted (nofun)
  have hfour : InSubgraph graph.next [5, 2] 4 :=
    ⟨⟨5, by decide, .single (show 4 ∈ graph.next 5 by decide)⟩, 2, by decide,
      .single (show 2 ∈ graph.next 4 by decide)⟩
  have htwo : InSubgraph graph.next [5, 2] 2 := ⟨⟨2, by decide, .refl⟩, 2, by decide, .refl⟩
  exact ⟨result, hresult, (hmem 2).mpr (.inr ⟨_, rfl, htwo⟩), (hmem 4).mpr (.inr ⟨_, rfl, hfour⟩)⟩

end Whole

end Sithnapse.StateRes
