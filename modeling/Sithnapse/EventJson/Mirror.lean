import Sithnapse.Kit.Batch
import Sithnapse.Kit.Runs

/-! The event JSON mirror.

    One event is spread over three records: its body and its metadata in its room's collection, and in
    one of the locator collections the id of that room's collection. A put writes the rooms' records
    first and publishes the locators last; a delete resolves the locators, tombstones them and then the
    records it resolved. Each collection is written at once, and the process may crash between two
    collections. -/

namespace Sithnapse.EventJson

open Kit List Function
open Option (some.inj or_none none_or)

variable {E R : Type}

abbrev Bytes := List UInt8

/-- A 128-bit collection or node id. -/
abbrev Id := { b : Bytes // b.length = 16 }

/-- The hash-derived ids of one namespace, free of collisions. -/
structure Ids (E R : Type) where
  /-- `event_node_id` -/
  node : E → Id
  /-- `event_meta_node_id` -/
  metaNode : E → Id
  /-- `event_dag_room_id` -/
  room : R → Id
  /-- `event_locator_collection_id` -/
  bucket : Id → Id
  node_inj : Injective node
  metaNode_inj : Injective metaNode
  node_ne_metaNode : ∀ e e', node e ≠ metaNode e'
  room_inj : Injective room
  bucket_ne_room : ∀ n r, bucket n ≠ room r

/-- The records, by collection and node. -/
abbrev Engine := Dict (Id × Id) Bytes

/-- A write of one collection. -/
abbrev Write := Id × List (Id × Bytes)

/-- `(room_id, event_id, metadata, body)`. -/
structure Row (E R : Type) where
  room : R
  event : E
  metadata : Bytes
  body : Bytes

/-- The order in which a call walks its hash maps. -/
structure MapOrder where
  dag : List Write → List Write
  locators : List Write → List Write
  dag_perm : ∀ l, (dag l).Perm l
  locators_perm : ∀ l, (locators l).Perm l

/-- The maps as they were built. -/
def MapOrder.asBuilt : MapOrder := ⟨id, id, fun l => .refl l, fun l => .refl l⟩

/-- `validate_event_json_rows`: empty values are tombstones. -/
def validateEventJsonRows (rows : List (Row E R)) : Bool :=
  rows.all fun row => !row.metadata.isEmpty && !row.body.isEmpty

section Calls

variable (ids : Ids E R)

/-- The room records of a put. -/
def dagRecords (rows : List (Row E R)) : List ((Id × Id) × Bytes) :=
  rows.flatMap fun row =>
    [((ids.room row.room, ids.node row.event), row.body),
      ((ids.room row.room, ids.metaNode row.event), row.metadata)]

/-- The locators of a put. -/
def locatorRecords (rows : List (Row E R)) : List ((Id × Id) × Bytes) :=
  rows.map fun row =>
    ((ids.bucket (ids.node row.event), ids.node row.event), (ids.room row.room).1)

/-- `event_json_puts`: the room writes, then the locator writes. -/
def eventJsonPuts (o : MapOrder) (rows : List (Row E R)) : List Write :=
  o.dag (collect (dagRecords ids rows)).entries ++ o.locators (collect (locatorRecords ids rows)).entries

/-- The room collection an event's locator names. -/
def resolve (s : Engine) (e : E) : Option Id :=
  match s.get? (ids.bucket (ids.node e), ids.node e) with
  | some (b :: bytes) => if h : (b :: bytes).length = 16 then some ⟨b :: bytes, h⟩ else none
  | _ => none

/-- A record that is not a tombstone. -/
def live : Option Bytes → Option Bytes
  | some (b :: bytes) => some (b :: bytes)
  | _ => none

/-- Metadata and body of one event. -/
def getRow (s : Engine) (e : E) : Option Bytes × Option Bytes :=
  match resolve ids s e with
  | some c => (live (s.get? (c, ids.metaNode e)), live (s.get? (c, ids.node e)))
  | none => (none, none)

/-- `event_json_get`. -/
def eventJsonGet (s : Engine) (events : List E) : List (E × Option Bytes × Option Bytes) :=
  events.map fun e => (e, getRow ids s e)

/-- The locator tombstones of a delete. -/
def locatorTombs (events : List E) : List ((Id × Id) × Bytes) :=
  events.map fun e => ((ids.bucket (ids.node e), ids.node e), [])

/-- The record tombstones of a delete, for the events that resolve. -/
def dagTombs (s : Engine) (events : List E) : List ((Id × Id) × Bytes) :=
  events.flatMap fun e =>
    match resolve ids s e with
    | some c => [((c, ids.node e), []), ((c, ids.metaNode e), [])]
    | none => []

/-- `event_json_delete`: the locators, then the records. -/
def eventJsonDeletes (o : MapOrder) (s : Engine) (events : List E) : List Write :=
  o.locators (collect (locatorTombs ids events)).entries ++ o.dag (collect (dagTombs ids s events)).entries

end Calls

/-! ### Runs -/

inductive Call (E R : Type)
  | put (rows : List (Row E R))
  | delete (events : List E)

/-- The events a call names. -/
def Call.events : Call E R → List E
  | .put rows => rows.map Row.event
  | .delete events => events

/-- The records, the calls that ended and whether they returned, and the call under way with the
    collections it still has to write. -/
structure System (E R : Type) where
  engine : Engine
  log : List (Call E R × Bool)
  pending : Option (Call E R × List Write)

def System.start : System E R := ⟨.empty, [], none⟩

inductive Action (E R : Type)
  | call (c : Call E R) (o : MapOrder)
  /-- The next collection is written. -/
  | write
  | finish
  | crash

/-- The collections a call writes. -/
def callWrites (ids : Ids E R) (o : MapOrder) (s : Engine) : Call E R → List Write
  | .put rows => eventJsonPuts ids o rows
  | .delete events => eventJsonDeletes ids o s events

/-- A put with an empty value is refused before anything is written. -/
def accepted : Call E R → Bool
  | .put rows => validateEventJsonRows rows
  | .delete _ => true

def step (ids : Ids E R) (s : System E R) : Action E R → Option (System E R)
  | .call c o =>
    match s.pending with
    | some _ => none
    | none =>
      if accepted c then some { s with pending := some (c, callWrites ids o s.engine c) } else none
  | .write =>
    match s.pending with
    | some (c, w :: ws) => some { s with engine := s.engine.putMany w, pending := some (c, ws) }
    | _ => none
  | .finish =>
    match s.pending with
    | some (c, []) => some { s with log := s.log ++ [(c, true)], pending := none }
    | _ => none
  | .crash =>
    match s.pending with
    | some (c, _) => some { s with log := s.log ++ [(c, false)], pending := none }
    | none => none

/-- The calls made so far, one under way counting as one that has not returned. -/
def System.history (s : System E R) : List (Call E R × Bool) :=
  s.log ++ (s.pending.map fun p => (p.1, false)).toList

/-- What an action does. -/
theorem step_cases {ids : Ids E R} {s s' : System E R} {a : Action E R} (h : step ids s a = some s') :
    (∃ c o, a = .call c o ∧ s.pending = none ∧ accepted c = true ∧
      s' = { s with pending := some (c, callWrites ids o s.engine c) }) ∨
    (∃ c w ws, a = .write ∧ s.pending = some (c, w :: ws) ∧
      s' = { s with engine := s.engine.putMany w, pending := some (c, ws) }) ∨
    (∃ c, a = .finish ∧ s.pending = some (c, []) ∧
      s' = { s with log := s.log ++ [(c, true)], pending := none }) ∨
    ∃ c ws, a = .crash ∧ s.pending = some (c, ws) ∧
      s' = { s with log := s.log ++ [(c, false)], pending := none } := by
  cases a with
  | call c o =>
    simp only [step] at h
    split at h
    · cases h
    · rename_i hp
      split at h
      · rename_i hacc
        exact .inl ⟨c, o, rfl, hp, hacc, (some.inj h).symm⟩
      · cases h
  | write =>
    simp only [step] at h
    split at h
    · rename_i c w ws hp
      exact .inr (.inl ⟨c, w, ws, rfl, hp, (some.inj h).symm⟩)
    · cases h
  | finish =>
    simp only [step] at h
    split at h
    · rename_i c hp
      exact .inr (.inr (.inl ⟨c, rfl, hp, (some.inj h).symm⟩))
    · cases h
  | crash =>
    simp only [step] at h
    split at h
    · rename_i c ws hp
      exact .inr (.inr (.inr ⟨c, ws, rfl, hp, (some.inj h).symm⟩))
    · cases h

/-! ### What the calls write -/

section Effects

variable {ids : Ids E R}

/-- The last row of a put for an event. -/
def newest [DecidableEq E] (rows : List (Row E R)) (e : E) : Option (Row E R) :=
  lastIn e (rows.map fun row => (row.event, row))

theorem newest_cons [DecidableEq E] (row : Row E R) (rows : List (Row E R)) (e : E) :
    newest (row :: rows) e = (newest rows e).or (if row.event = e then some row else none) := rfl

variable {rows : List (Row E R)} {e : E} {s : Engine} {p : (Id × Id) × Bytes} {events : List E}

theorem newest_event [DecidableEq E] {row : Row E R} (h : newest rows e = some row) : row ∈ rows ∧ row.event = e := by
  obtain ⟨row', hmem, hpair⟩ := mem_map.mp (lastIn_mem h)
  obtain ⟨rfl, rfl⟩ := Prod.mk.injEq .. ▸ hpair
  exact ⟨hmem, rfl⟩

theorem newest_eq_none [DecidableEq E] : newest rows e = none ↔ e ∉ (Call.put rows).events := by
  rw [newest, lastIn_eq_none, map_map]
  rfl

/-- All records of a call, by collection and node. -/
def callRecords (ids : Ids E R) (s : Engine) : Call E R → List ((Id × Id) × Bytes)
  | .put rows => dagRecords ids rows ++ locatorRecords ids rows
  | .delete events => locatorTombs ids events ++ dagTombs ids s events

theorem resolve_of_get? {c : Id}
    (h : s.get? (ids.bucket (ids.node e), ids.node e) = some c.1) : resolve ids s e = some c := by
  obtain ⟨b, hb⟩ := c
  cases b with
  | nil => simp at hb
  | cons x bytes =>
    rw [resolve, h]
    dsimp only
    rw [dif_pos hb]

theorem resolve_of_dead
    (h : live (s.get? (ids.bucket (ids.node e), ids.node e)) = none) : resolve ids s e = none := by
  rw [resolve]
  split
  · rename_i b bytes hget
    rw [hget] at h
    exact absurd h (by simp [live])
  · rfl

/-- Every row of a put is of its event's room. -/
def SameRoom (roomOf : E → R) : Call E R → Prop
  | .put rows => ∀ row ∈ rows, row.room = roomOf row.event
  | .delete _ => True

variable {roomOf : E → R}

theorem dagRecords_collection (h : p ∈ dagRecords ids rows) : ∃ r, p.1.1 = ids.room r := by
  obtain ⟨row, -, hp⟩ := mem_flatMap.mp h
  rcases mem_cons.mp hp with rfl | hp
  · exact ⟨_, rfl⟩
  · rw [mem_singleton] at hp
    exact ⟨row.room, by rw [hp]⟩

theorem locatorRecords_collection (h : p ∈ locatorRecords ids rows) : ∃ n, p.1.1 = ids.bucket n := by
  obtain ⟨row, -, rfl⟩ := mem_map.mp h
  exact ⟨_, rfl⟩

theorem locatorTombs_collection (h : p ∈ locatorTombs ids events) : ∃ n, p.1.1 = ids.bucket n := by
  obtain ⟨e, -, rfl⟩ := mem_map.mp h
  exact ⟨_, rfl⟩

theorem mem_dagTombs (h : p ∈ dagTombs ids s events) :
    ∃ e ∈ events, ∃ c, resolve ids s e = some c ∧ p.1.1 = c ∧
      (p.1.2 = ids.node e ∨ p.1.2 = ids.metaNode e) ∧ p.2 = [] := by
  obtain ⟨e, he, hp⟩ := mem_flatMap.mp h
  split at hp
  · rename_i c hc
    refine ⟨e, he, c, hc, ?_⟩
    rcases mem_cons.mp hp with rfl | hp
    · exact ⟨rfl, .inl rfl, rfl⟩
    · rw [mem_singleton] at hp
      rw [hp]
      exact ⟨rfl, .inr rfl, rfl⟩
  · cases hp

/-- Locators name room collections. -/
def LocatorsNameRooms (ids : Ids E R) (s : Engine) : Prop := ∀ e c, resolve ids s e = some c → ∃ r, c = ids.room r

/-- The collections a call writes are a grouping of its records. -/
theorem grouping_callWrites (h : LocatorsNameRooms ids s) (o : MapOrder) (c : Call E R) :
    Grouping (callRecords ids s c) (callWrites ids o s c) := by
  cases c with
  | put rows =>
    refine ((grouping_collect _).perm (o.dag_perm _)).append
      ((grouping_collect _).perm (o.locators_perm _)) fun p hp p' hp' heq => ?_
    obtain ⟨r, hr⟩ := dagRecords_collection hp
    obtain ⟨n, hn⟩ := locatorRecords_collection hp'
    exact ids.bucket_ne_room n r (by rw [← hn, ← heq, hr])
  | delete events =>
    refine ((grouping_collect _).perm (o.locators_perm _)).append
      ((grouping_collect _).perm (o.dag_perm _)) fun p hp p' hp' heq => ?_
    obtain ⟨n, hn⟩ := locatorTombs_collection hp
    obtain ⟨e, -, c, hc, hpc, -⟩ := mem_dagTombs hp'
    obtain ⟨r, rfl⟩ := h e c hc
    exact ids.bucket_ne_room n r (by rw [← hn, heq, hpc])

/-! ### The records of one event -/

/-- The key of an event's locator. -/
def locatorKey (ids : Ids E R) (e : E) : Id × Id := (ids.bucket (ids.node e), ids.node e)

theorem lastIn_locatorRecords [DecidableEq E] (hrows : SameRoom roomOf (.put rows)) (e : E) :
    lastIn (locatorKey ids e) (locatorRecords ids rows) =
      (newest rows e).map fun _ => (ids.room (roomOf e)).1 := by
  induction rows with
  | nil => rfl
  | cons row rows ih =>
    have ih := ih fun r hr => hrows r (.tail _ hr)
    have hroom := hrows row (.head _)
    rw [locatorRecords, map_cons, lastIn, ← locatorRecords, ih, newest_cons]
    rcases eq_or_ne row.event e with rfl | he
    · cases newest rows row.event <;> simp [locatorKey, hroom]
    · have hkey : ¬ (ids.bucket (ids.node row.event), ids.node row.event) = locatorKey ids e :=
        fun h => he (ids.node_inj (Prod.mk.injEq .. ▸ h).2)
      cases newest rows e <;> simp [he, hkey]

theorem lastIn_dagRecords [DecidableEq E] (hrows : SameRoom roomOf (.put rows)) (r : R) (e : E) [Decidable (r = roomOf e)] :
    lastIn (ids.room r, ids.node e) (dagRecords ids rows) =
        (if r = roomOf e then (newest rows e).map Row.body else none) ∧
      lastIn (ids.room r, ids.metaNode e) (dagRecords ids rows) =
        if r = roomOf e then (newest rows e).map Row.metadata else none := by
  induction rows with
  | nil => simp [dagRecords, lastIn, newest]
  | cons row rows ih =>
    have ih := ih fun r hr => hrows r (.tail _ hr)
    have hroom := hrows row (.head _)
    rw [dagRecords, flatMap_cons, lastIn_append, lastIn_append, ← dagRecords, ih.1, ih.2, newest_cons]
    have hnm : ∀ a b, ids.metaNode a ≠ ids.node b := fun a b => (ids.node_ne_metaNode b a).symm
    rcases eq_or_ne row.event e with rfl | he
    · by_cases hr : r = roomOf row.event
      · subst hr
        cases newest rows row.event <;> simp [lastIn, hroom, hnm, ids.node_ne_metaNode]
      · have hne : ids.room (roomOf row.event) ≠ ids.room r := fun h => hr (ids.room_inj h).symm
        simp [lastIn, hroom, hr, hne]
    · have hn : ids.node row.event ≠ ids.node e := fun h => he (ids.node_inj h)
      have hm : ids.metaNode row.event ≠ ids.metaNode e := fun h => he (ids.metaNode_inj h)
      cases newest rows e <;> simp [lastIn, he, hn, hm, hnm, ids.node_ne_metaNode]

theorem lastIn_locatorKey_of_rooms {l : List ((Id × Id) × Bytes)} (h : ∀ p ∈ l, ∃ r, p.1.1 = ids.room r)
    (e : E) : lastIn (locatorKey ids e) l = none := by
  refine lastIn_of_not_group fun p hp heq => ?_
  obtain ⟨r, hr⟩ := h p hp
  exact ids.bucket_ne_room _ r (heq.symm.trans hr)

theorem lastIn_room_of_buckets {l : List ((Id × Id) × Bytes)} (h : ∀ p ∈ l, ∃ n, p.1.1 = ids.bucket n)
    (r : R) (n : Id) : lastIn (ids.room r, n) l = none := by
  refine lastIn_of_not_group fun p hp heq => ?_
  obtain ⟨n', hn⟩ := h p hp
  exact ids.bucket_ne_room n' r (hn.symm.trans heq)

theorem lastIn_locatorTombs [DecidableEq E] (events : List E) (e : E) :
    lastIn (locatorKey ids e) (locatorTombs ids events) = if e ∈ events then some [] else none := by
  induction events with
  | nil => rfl
  | cons a events ih =>
    rw [locatorTombs, map_cons, lastIn, ← locatorTombs, ih]
    rcases eq_or_ne a e with rfl | ha
    · by_cases hm : a ∈ events <;> simp [hm, locatorKey]
    · have hkey : ¬ (ids.bucket (ids.node a), ids.node a) = locatorKey ids e :=
        fun h => ha (ids.node_inj (Prod.mk.injEq .. ▸ h).2)
      by_cases hm : e ∈ events <;> simp [hm, hkey, Ne.symm ha]

/-- A delete writes only tombstones, and to the records of an event only where its locator led. -/
theorem lastIn_dagTombs {c : Id} {b : Bytes} {n : Id}
    (hn : n = ids.node e ∨ n = ids.metaNode e) (h : lastIn (c, n) (dagTombs ids s events) = some b) :
    b = [] ∧ e ∈ events ∧ resolve ids s e = some c := by
  obtain ⟨e', he', c', hc', hcc, hnode, hb⟩ := mem_dagTombs (lastIn_mem h)
  dsimp only at hcc hnode hb
  have hee : e' = e := by
    rcases hn with rfl | rfl
    · rcases hnode with hnode | hnode
      · exact (ids.node_inj hnode).symm
      · exact absurd hnode (ids.node_ne_metaNode e e')
    · rcases hnode with hnode | hnode
      · exact absurd hnode.symm (ids.node_ne_metaNode e' e)
      · exact (ids.metaNode_inj hnode).symm
  subst hee
  exact ⟨hb, he', by rw [hc', hcc]⟩

/-- Where its locator leads, a delete does write both tombstones. -/
theorem lastIn_dagTombs_of_mem {c : Id} (he : e ∈ events) (hc : resolve ids s e = some c) :
    (lastIn (c, ids.node e) (dagTombs ids s events)).isSome ∧
      (lastIn (c, ids.metaNode e) (dagTombs ids s events)).isSome := by
  have hmem : ∀ n, n = ids.node e ∨ n = ids.metaNode e → ((c, n), ([] : Bytes)) ∈ dagTombs ids s events := by
    intro n hn
    refine mem_flatMap.mpr ⟨e, he, ?_⟩
    rw [hc]
    rcases hn with rfl | rfl <;> simp
  have hsome : ∀ n, n = ids.node e ∨ n = ids.metaNode e → (lastIn (c, n) (dagTombs ids s events)).isSome := by
    intro n hn
    rw [Option.isSome_iff_ne_none, Ne, lastIn_eq_none, not_not]
    exact mem_map.mpr ⟨_, hmem n hn, rfl⟩
  exact ⟨hsome _ (.inl rfl), hsome _ (.inr rfl)⟩

/-! ### What a call writes to an event's records -/

theorem lastIn_put_locator [DecidableEq E] (ids : Ids E R) (hrows : SameRoom roomOf (.put rows)) (s : Engine)
    (e : E) : lastIn (locatorKey ids e) (callRecords ids s (.put rows)) =
      (newest rows e).map fun _ => (ids.room (roomOf e)).1 := by
  rw [callRecords, lastIn_append, lastIn_locatorRecords hrows,
    lastIn_locatorKey_of_rooms fun p hp => dagRecords_collection hp, or_none]

theorem lastIn_put_records [DecidableEq E] (ids : Ids E R) (hrows : SameRoom roomOf (.put rows)) (s : Engine)
    (r : R) (e : E) [Decidable (r = roomOf e)] :
    lastIn (ids.room r, ids.node e) (callRecords ids s (.put rows)) =
        (if r = roomOf e then (newest rows e).map Row.body else none) ∧
      lastIn (ids.room r, ids.metaNode e) (callRecords ids s (.put rows)) =
        if r = roomOf e then (newest rows e).map Row.metadata else none := by
  have hdag : ∀ n, lastIn (ids.room r, n) (callRecords ids s (.put rows)) =
      lastIn (ids.room r, n) (dagRecords ids rows) := by
    intro n
    rw [callRecords, lastIn_append, lastIn_room_of_buckets fun p hp => locatorRecords_collection hp,
      none_or]
  rw [hdag, hdag]
  exact lastIn_dagRecords hrows r e

theorem lastIn_delete_locator [DecidableEq E] (hrooms : LocatorsNameRooms ids s) (events : List E) (e : E) :
    lastIn (locatorKey ids e) (callRecords ids s (.delete events)) =
      if e ∈ events then some [] else none := by
  have hdag : ∀ p ∈ dagTombs ids s events, ∃ r, p.1.1 = ids.room r := by
    intro p hp
    obtain ⟨e', -, c, hc, hpc, -⟩ := mem_dagTombs hp
    obtain ⟨r, rfl⟩ := hrooms e' c hc
    exact ⟨r, hpc⟩
  rw [callRecords, lastIn_append, lastIn_locatorTombs, lastIn_locatorKey_of_rooms hdag, none_or]

theorem lastIn_delete_room (s : Engine) (events : List E) (r : R) (n : Id) :
    lastIn (ids.room r, n) (callRecords ids s (.delete events)) =
      lastIn (ids.room r, n) (dagTombs ids s events) := by
  rw [callRecords, lastIn_append, lastIn_room_of_buckets fun p hp => locatorTombs_collection hp,
    or_none]

/-- A delete does not write the records of an event it does not name, or whose locator does not lead
    there. -/
theorem lastIn_delete_eq_none {r : R} {n : Id} (hn : n = ids.node e ∨ n = ids.metaNode e)
    (h : e ∉ events ∨ resolve ids s e ≠ some (ids.room r)) :
    lastIn (ids.room r, n) (callRecords ids s (.delete events)) = none := by
  rw [lastIn_delete_room]
  cases hlast : lastIn (ids.room r, n) (dagTombs ids s events) with
  | none => rfl
  | some b =>
    obtain ⟨-, he, hres⟩ := lastIn_dagTombs hn hlast
    rcases h with h | h
    · exact absurd he h
    · exact absurd hres h

/-- Where the locator of an event it names leads, a delete writes both tombstones. -/
theorem lastIn_delete_resolved {r : R} {n : Id} (hn : n = ids.node e ∨ n = ids.metaNode e) (he : e ∈ events)
    (hres : resolve ids s e = some (ids.room r)) :
    lastIn (ids.room r, n) (callRecords ids s (.delete events)) = some [] := by
  obtain ⟨hnode, hmeta⟩ := lastIn_dagTombs_of_mem he hres
  have hsome : (lastIn (ids.room r, n) (dagTombs ids s events)).isSome := by
    rcases hn with rfl | rfl
    · exact hnode
    · exact hmeta
  obtain ⟨b, hb⟩ := Option.isSome_iff_exists.mp hsome
  rw [lastIn_delete_room, hb, (lastIn_dagTombs hn hb).1]

end Effects

/-! ### A call partly done -/

/-- The engine after some of the collections of a batch have been written. -/
def Partly (l : List ((Id × Id) × Bytes)) (done : List Write) (s₀ s : Engine) : Prop :=
  ∀ c n, s.get? (c, n) = (if c ∈ done.map Prod.fst then lastIn (c, n) l else none).or (s₀.get? (c, n))

theorem partly_nil (l : List ((Id × Id) × Bytes)) (s : Engine) : Partly l [] s s := fun _ _ => by simp

variable {l : List ((Id × Id) × Bytes)} {done : List Write}

theorem Partly.write {rest : List Write} {w : Write} {s₀ s : Engine}
    (hl : Grouping l (done ++ w :: rest)) (h : Partly l done s₀ s) :
    Partly l (done ++ [w]) s₀ (s.putMany w) := by
  intro c n
  have hw : w ∈ done ++ w :: rest := mem_append_right _ (.head _)
  rw [hl.get?_putMany hw, h c n]
  by_cases hc : w.1 = c
  · have hnot : c ∉ done.map Prod.fst := by
      have hnodup := hl.nodup
      rw [map_append, map_cons, nodup_append] at hnodup
      exact fun hin => hnodup.2.2 c hin c (by rw [← hc]; exact (.head _)) rfl
    have hin : c ∈ (done ++ [w]).map Prod.fst := by
      rw [map_append, ← hc]
      exact mem_append_right _ (.head _)
    rw [if_pos hc, if_neg hnot, if_pos hin, none_or]
  · have hiff : c ∈ (done ++ [w]).map Prod.fst ↔ c ∈ done.map Prod.fst := by
      rw [map_append, mem_append]
      simp [Ne.symm hc]
    simp only [if_neg hc, none_or, hiff]

/-- A key the batch does not write keeps its record. -/
theorem Partly.of_none {s₀ s : Engine}
    (h : Partly l done s₀ s) {c n : Id} (hnone : lastIn (c, n) l = none) :
    s.get? (c, n) = s₀.get? (c, n) := by
  rw [h c n, hnone, ite_self, none_or]

/-- Once all collections are written, every key has its last record. -/
theorem Partly.of_all {s₀ s : Engine} (hl : Grouping l done) (h : Partly l done s₀ s) {c n : Id} {b : Bytes}
    (hlast : lastIn (c, n) l = some b) : s.get? (c, n) = some b := by
  have hin : c ∈ done.map Prod.fst := by
    obtain ⟨w, hw, hc⟩ := hl.covers _ (lastIn_mem hlast)
    exact mem_map.mpr ⟨w, hw, hc⟩
  rw [h c n, if_pos hin, hlast, Option.some_or]

/-! ### A small instance -/

/-- An id that starts with two given bytes. -/
def tagged (a b : ℕ) : Id := ⟨UInt8.ofNat a :: UInt8.ofNat b :: List.replicate 14 0, rfl⟩

/-- Ids of two events and two rooms, with a single locator collection. -/
def twoIds : Ids (Fin 2) (Fin 2) where
  node e := tagged 0 e
  metaNode e := tagged 1 e
  room r := tagged 2 r
  bucket _ := tagged 3 0
  node_inj := by unfold Injective; decide
  metaNode_inj := by unfold Injective; decide
  node_ne_metaNode := by decide
  room_inj := by unfold Injective; decide
  bucket_ne_room := by intro _; decide

end Sithnapse.EventJson
