import Sithnapse.StateRes.AuthDifference

/-! Events as the resolver of state resolution v2 sees them.

    Lookups go to the event map first and to the store second. `_get_event` also adds what it fetched
    to the event map; since later lookups find the same event there, the map is not threaded through
    (`find_update`). The auth rules are a parameter: which state an event may need, and whether it is
    allowed by the auth events it is given. -/

namespace Sithnapse.StateRes

open Kit Kit.Chain

/-- A type and a state key. -/
abbrev StateKey := String × String

/-- `StateResolutionVersions`. -/
inductive StateResolutionVersion where
  | v1 | v2 | v2_1
  deriving DecidableEq

/-- What the resolver reads of a room version. -/
structure RoomVersion where
  identifier : String
  stateRes : StateResolutionVersion
  msc4289CreatorPowerEnabled : Bool
  implicitRoomCreator : Bool
  msc4242StateDags : Bool
  deriving DecidableEq

/-- A power level in an event's content, by what `int` makes of it; `none` if that raises. -/
abbrev Level := Option ℤ

/-- What the resolver reads of an event. Of the content, an absent field and a JSON null differ only for
    `users_default`. -/
structure Event (E : Type) where
  eventId : E
  roomId : String
  roomVersion : RoomVersion
  type : String
  stateKey : Option String
  sender : String
  originServerTs : ℤ
  authEventIds : List E
  prevStateEvents : List E
  rejected : Bool
  membership : Option String
  creator : Option String
  additionalCreators : List String
  users : Dict String (Option Level)
  usersDefault : Option (Option Level)

/-- A dict from event id to event. -/
structure EventMap (E : Type) [DecidableEq E] where
  dict : Dict E (Event E)
  ids : ∀ e event, dict.get? e = some event → event.eventId = e

/-- What one resolution is given besides the state sets and the event map. -/
structure Resolver (E : Type) [DecidableEq E] where
  roomId : String
  roomVersion : RoomVersion
  /-- `state_res_store.get_events`. -/
  stored : EventMap E
  /-- `state_res_store.get_auth_chain_difference`. -/
  store : AuthStore E
  /-- `event_auth.auth_types_for_event`. -/
  authTypes : Event E → Except (Failure E) (List StateKey)
  /-- `event_auth.check_state_dependent_auth_rules`; false if it raises `AuthError`. -/
  allowed : Event E → (StateKey → Option (Event E)) → Except (Failure E) Bool

/-- `event_map.get`. -/
abbrev Known (E : Type) := E → Option (Event E)

def powerLevelsKey : StateKey := ("m.room.power_levels", "")

def joinRulesKey : StateKey := ("m.room.join_rules", "")

def createKey : StateKey := ("m.room.create", "")

/-- `CREATOR_POWER_LEVEL`. -/
def creatorPowerLevel : ℤ := 2 ^ 53

section Lookups

variable {E : Type} [DecidableEq E]

/-- The event map, then the store. -/
def find (R : Resolver E) (known : Known E) (e : E) : Option (Event E) := (known e).or (R.stored.dict.get? e)

/-- Adding fetched events to the event map changes no lookup. -/
theorem find_update (R : Resolver E) {m m' : Dict E (Event E)}
    (h : ∀ e, m'.get? e = m.get? e ∨ m.get? e = none ∧ m'.get? e = R.stored.dict.get? e) :
    find R m'.get? = find R m.get? := by
  funext e
  rcases h e with he | ⟨hnone, he⟩
  · rw [find, find, he]
  · rw [find, find, he, hnone]
    cases R.stored.dict.get? e <;> rfl

end Lookups

section Events

variable {E : Type}

/-- `(event.type, event.state_key)`. -/
def Event.key (event : Event E) : Except (Failure E) StateKey :=
  match event.stateKey with
  | some key => .ok (event.type, key)
  | none => .error (.noStateKey event.eventId)

variable (room : String)

/-- `_get_event` with `allow_none=True`; `look` is the event map with the store behind it. -/
def findEvent (look : Known E) (e : E) : Except (Failure E) (Option (Event E)) :=
  match look e with
  | none => .ok none
  | some event => if event.roomId = room then .ok (some event) else .error (.otherRoom e)

/-- `_get_event`. -/
def getEvent (look : Known E) (e : E) : Except (Failure E) (Event E) :=
  match findEvent room look e with
  | .ok (some event) => .ok event
  | .ok none => .error (.unknownEvent e)
  | .error failure => .error failure

/-- The auth references among the events that can be looked up. -/
def references (look : Known E) (e : E) : List E :=
  ((look e).map Event.authEventIds).getD []

variable {look : Known E} {event : Event E}

theorem references_of_find {e : E} (h : look e = some event) : references look e = event.authEventIds := by
  rw [references, h]
  rfl

theorem look_of_findEvent {room : String} {e : E}
    (h : findEvent room look e = .ok (some event)) : look e = some event ∧ event.roomId = room := by
  rw [findEvent] at h
  cases hlook : look e with
  | none => simp [hlook] at h
  | some event' =>
    simp only [hlook] at h
    split at h
    · rename_i hroom
      obtain rfl := Option.some.inj (Except.ok.inj h)
      exact ⟨rfl, hroom⟩
    · cases h

theorem find_of_getEvent {room : String} {e : E}
    (h : getEvent room look e = .ok event) : look e = some event := by
  rw [getEvent] at h
  split at h
  · rename_i hfind
    cases h
    exact (look_of_findEvent hfind).1
  · cases h
  · cases h

/-- An event of the room can be looked up. -/
theorem getEvent_of_look {room : String} {e : E}
    (h : look e = some event) (hroom : event.roomId = room) : getEvent room look e = .ok event := by
  simp [getEvent, findEvent, h, hroom]

/-! ### Power events -/

/-- `_is_power_event`. -/
def isPowerEvent (event : Event E) : Except (Failure E) Bool := do
  let key ← event.key
  if key = powerLevelsKey ∨ key = joinRulesKey ∨ key = createKey then return true
  if event.type = "m.room.member" then
    match event.membership with
    | none => throw (.noMembership event.eventId)
    | some membership =>
      if membership = "leave" ∨ membership = "ban" then return event.sender ≠ key.2
  return false

/-- `is_creator`. -/
def isCreator (create : Event E) (userId : String) : Bool :=
  create.sender = userId ∨ create.roomVersion.msc4289CreatorPowerEnabled ∧ userId ∈ create.additionalCreators

/-- The power levels and the create event among the auth events, the last of each. -/
def authPowerAndCreate (look : Known E) (authIds : List E) :
    Except (Failure E) (Option (Event E) × Option (Event E)) :=
  authIds.foldlM (fun found aid => do
    match ← findEvent room look aid with
    | none => return found
    | some event =>
      let key ← event.key
      return (if key = powerLevelsKey then some event else found.1,
        if key = createKey then some event else found.2)) (none, none)

/-- The level of a sender without power levels: 100 for the creator that the first create event names. -/
def levelByCreator (room : String) (look : Known E) (event : Event E) : List E → Except (Failure E) ℤ
  | [] => .ok 0
  | aid :: rest => do
    match ← findEvent room look aid with
    | none => levelByCreator room look event rest
    | some create =>
      let key ← create.key
      if key = createKey then
        let creator :=
          if event.roomVersion.implicitRoomCreator then some create.sender else create.creator
        return if creator = some event.sender then 100 else 0
      else levelByCreator room look event rest

/-- The level a power levels event gives to a sender. -/
def levelByPowerLevels (pl : Event E) (sender : String) : Except (Failure E) ℤ :=
  let level :=
    match pl.users.get? sender with
    | some (some level) => some level
    | _ => pl.usersDefault.getD (some (some 0))
  match level with
  | none => .ok 0
  | some (some n) => .ok n
  | some none => .error (.notAnInteger pl.eventId)

/-- `_get_power_level_for_sender`. -/
def getPowerLevelForSender (look : Known E) (e : E) : Except (Failure E) ℤ := do
  let event ← getEvent room look e
  let (pl, create) ← authPowerAndCreate room look event.authEventIds
  if event.type ≠ "m.room.create" ∧ create.isNone then throw (.noCreateEvent e)
  if create.any fun c => c.roomVersion.msc4289CreatorPowerEnabled ∧ isCreator c event.sender then
    return creatorPowerLevel
  match pl with
  | none => levelByCreator room look event event.authEventIds
  | some pl => levelByPowerLevels pl event.sender

end Events

end Sithnapse.StateRes
