import Mathlib.Tactic
import Mathlib.Data.Finset.Image
import Mathlib.Data.Finset.Union

/-! The required state of one room on a sliding-sync connection.

    A request names the state it wants as pairs of an event type and a state key, with wildcards, `$ME`
    and `$LAZY`. The connection remembers such a map per room, and uses it as its record of what the
    client has: state the map covers is only sent again when it changes. `_required_state_changes`
    compares the remembered map with the one of the request; it says what to send on top of the changes
    and what to remember from now on.

    No set of keys in such a map is empty, so a map is kept as the set of its pairs, as it is stored. -/

namespace Sithnapse.SlidingSync
open Finset

/-- Event types; `wildcard` is `*` and `member` is `m.room.member`. -/
inductive EventType (T : Type) where
  | wildcard
  | member
  | named (type : T)
  deriving DecidableEq

/-- State keys; `wildcard`, `lazy` and `me` are `*`, `$LAZY` and `$ME`. -/
inductive StateKey (K : Type) where
  | wildcard
  | lazy
  | me
  | named (key : K)
  deriving DecidableEq

/-- An entry of the room's state, or an entry of a map. -/
abbrev Entry (T K : Type) := EventType T × StateKey K

abbrev RequiredStateMap (T K : Type) := Finset (Entry T K)

variable {T K : Type} [DecidableEq T] [DecidableEq K]

/-- `required_state_map.get(event_type, set())`. -/
def RequiredStateMap.keys (m : RequiredStateMap T K) (t : EventType T) : Finset (StateKey K) :=
  (m.filter (·.1 = t)).image Prod.snd

/-- `required_state_map.keys()`. -/
def RequiredStateMap.types (m : RequiredStateMap T K) : Finset (EventType T) := m.image Prod.fst

@[simp] theorem RequiredStateMap.mem_keys {m : RequiredStateMap T K} {t : EventType T} {k : StateKey K} :
    k ∈ m.keys t ↔ (t, k) ∈ m := by
  simp [RequiredStateMap.keys]

/-- The loop of `from_room_config`. -/
def fromRoomConfigLoop : List (Entry T K) → RequiredStateMap T K → RequiredStateMap T K
  | [], m => m
  | (t, k) :: rest, m =>
    if k ∈ m.keys .wildcard then fromRoomConfigLoop rest m
    else if .wildcard ∈ m.keys t then fromRoomConfigLoop rest m
    else if t = .wildcard ∧ k = .wildcard then {(.wildcard, .wildcard)}
    else
      let m := if t = .wildcard then m.filter (·.2 ≠ k) else m
      if k = .wildcard then fromRoomConfigLoop rest (insert (t, k) (m.filter (·.1 ≠ t)))
      else fromRoomConfigLoop rest (insert (t, k) m)

/-- `RoomSyncConfig.from_room_config(room_params).required_state_map`. -/
def fromRoomConfig (requiredState : List (Entry T K)) : RequiredStateMap T K :=
  fromRoomConfigLoop requiredState ∅

/-- A `StateFilter`, as far as this code makes them. -/
inductive StateFilter (T K : Type) where
  | all
  | fromTypes (types : Finset (EventType T × Option (StateKey K)))

namespace StateFilter

def none : StateFilter T K := .fromTypes ∅

/-- A key of `None` stands for all keys of the type. -/
def Matches : StateFilter T K → Entry T K → Prop
  | .all, _ => True
  | .fromTypes types, e => (e.1, Option.none) ∈ types ∨ (e.1, some e.2) ∈ types

instance (f : StateFilter T K) (e : Entry T K) : Decidable (f.Matches e) :=
  match f with
  | .all => .isTrue trivial
  | .fromTypes _ => inferInstanceAs (Decidable (_ ∨ _))

end StateFilter

/-- `$ME` replaced by the user's id. -/
def normalized (user : K) : StateKey K → StateKey K
  | .me => .named user
  | k => k

/-- The keys of a set without those that name no single key. -/
def explicit (keys : Finset (StateKey K)) : Finset (StateKey K) := keys \ {.wildcard, .lazy}

/-- The state keys among `changed`, for one event type. -/
def changedKeys (deltas : List (Entry T K)) (t : EventType T) : Finset (StateKey K) :=
  ((deltas.filter (·.1 = t)).map Prod.snd).toFinset

@[simp] theorem mem_changedKeys {deltas : List (Entry T K)} {t : EventType T} {k : StateKey K} :
    k ∈ changedKeys deltas t ↔ (t, k) ∈ deltas := by
  simp [changedKeys]

/-! ### What a response may contain -/

/-- What `get_room_sync_data` works out from the request before it looks at the state. -/
structure Wanted (T K : Type) where
  requiredStateFilter : StateFilter T K
  explicitUserState : Finset (StateKey K)
  lazyLoadUserIds : Finset (StateKey K)
  lazyLoadRoomMembers : Bool

/-- The types one pair of the map adds to the filter. -/
def requiredStateTypes (user : K) (timelineMembership : Finset K) (all : Bool) (e : Entry T K) :
    Finset (EventType T × Option (StateKey K)) :=
  if e.2 = .wildcard then {(e.1, none)}
  else if e.1 = .member ∧ e.2 = .lazy then
    if all then {(.member, none)} else timelineMembership.image fun u => (.member, some (.named u))
  else {(e.1, some (normalized user e.2))}

/-- The filter and the users needed for it. `limited` stands for `limited or initial`. -/
def wanted (user : K) (map : RequiredStateMap T K) (timelineMembership : Finset K) (limited : Bool)
    (deltas : List (Entry T K)) : Wanted T K :=
  if (map.keys .wildcard).Nonempty then ⟨.all, ∅, ∅, false⟩
  else
    let explicitUserState := (explicit (map.keys .member)).image (normalized user)
    let lazyLoadUserIds :=
      if .lazy ∈ map.keys .member then
        timelineMembership.image .named ∪ if limited then ∅ else changedKeys deltas .member
      else ∅
    ⟨.fromTypes (map.biUnion (requiredStateTypes user timelineMembership (!limited))), explicitUserState,
      lazyLoadUserIds \ explicitUserState, .lazy ∈ map.keys .member⟩

/-! ### `_required_state_changes` -/

/-- `_RequiredStateChangesReturn`. -/
structure RequiredStateChanges (T K : Type) where
  changedRequiredStateMap : Option (RequiredStateMap T K)
  addedStateFilter : StateFilter T K
  lazyMembersInvalidated : Finset (StateKey K)
  extraUsersToAddToLazyCache : Finset (StateKey K)

/-- The order in which sets happen to be iterated. -/
structure SetOrder (T K : Type) where
  last : Finset (EventType T) → EventType T
  islice : Finset (StateKey K) → ℕ → Finset (StateKey K)
  last_mem : ∀ s, s.Nonempty → last s ∈ s
  islice_subset : ∀ s n, islice s n ⊆ s
  islice_card : ∀ s n, (islice s n).card = min n s.card

def MAX_NUMBER_PREVIOUS_STATE_KEYS_TO_REMEMBER : ℕ := 100

/-- What both maps say about one event type, and which of its keys changed. -/
structure TypeKeys (K : Type) where
  old : Finset (StateKey K)
  request : Finset (StateKey K)
  changed : Finset (StateKey K)

/-- `$LAZY` is added to the members. -/
def TypeKeys.AddsLazy (s : TypeKeys K) (t : EventType T) : Prop :=
  t = .member ∧ .lazy ∉ s.old ∧ .lazy ∈ s.request

instance (s : TypeKeys K) (t : EventType T) : Decidable (s.AddsLazy t) :=
  inferInstanceAs (Decidable (_ ∧ _))

def TypeKeys.invalidated (s : TypeKeys K) : Finset (StateKey K) := (s.old \ s.request) ∩ s.changed

def TypeKeys.inheritable (s : TypeKeys K) : Finset (StateKey K) := explicit s.old \ s.invalidated

/-- The requested keys, and previous ones as far as there is room. -/
def TypeKeys.extended (order : SetOrder T K) (s : TypeKeys K) : Finset (StateKey K) :=
  if MAX_NUMBER_PREVIOUS_STATE_KEYS_TO_REMEMBER < (s.request ∪ s.inheritable).card then
    if s.request.card < MAX_NUMBER_PREVIOUS_STATE_KEYS_TO_REMEMBER then
      s.request ∪ order.islice s.inheritable (MAX_NUMBER_PREVIOUS_STATE_KEYS_TO_REMEMBER - s.request.card)
    else s.request
  else s.request ∪ s.inheritable

/-- What is fetched for one added key. -/
def addedKey (user : K) (previouslyReturned : Finset (StateKey K)) (t : EventType T) (k : StateKey K) :
    Finset (EventType T × Option (StateKey K)) :=
  if k = .me then {(t, some (.named user))}
  else if k = .lazy then ∅
  else if t = .member then if k ∉ previouslyReturned then {(t, some k)} else ∅
  else {(t, some k)}

/-- One pass of the first loop: the entry of `changes`, and what is appended to `added`. -/
def firstPass (user : K) (order : SetOrder T K) (previouslyReturned : Finset (StateKey K)) (t : EventType T)
    (s : TypeKeys K) : Option (Finset (StateKey K)) × Finset (EventType T × Option (StateKey K)) :=
  if s.old = s.request then (none, ∅)
  else if s.request \ s.old = ∅ then (none, ∅)
  else if s.AddsLazy t then (some s.request, ∅)
  else
    (some (s.extended order),
      if .wildcard ∈ s.old then ∅
      else if .wildcard ∈ s.request then {(t, none)}
      else (s.request \ s.old).biUnion (addedKey user previouslyReturned t))

/-- One pass of the second loop, for a type with changes: the entry of `changes`. Here `$ME` counts as
    changed when the user's own entry did. -/
def secondPass (user : K) (t : EventType T) (s : TypeKeys K) : Option (Finset (StateKey K)) :=
  if s.old = s.request then none
  else
    let s := if .named user ∈ s.changed then { s with changed := insert .me s.changed } else s
    if (s.request \ s.old).Nonempty then none
    else if decide (.wildcard ∈ s.old) ≠ decide (.wildcard ∈ s.request) then some s.request
    else if t = .member ∧ decide (.lazy ∈ s.old) ≠ decide (.lazy ∈ s.request) then some s.request
    else if t = .member ∧ (.lazy ∈ s.old ∨ .lazy ∈ s.request) ∧ s.invalidated.Nonempty then some s.request
    else if s.invalidated.Nonempty then some (s.old \ s.invalidated)
    else none

section Changes

variable (user : K) (order : SetOrder T K) (prev request : RequiredStateMap T K)
  (previouslyReturned requestLazyLoad : Finset (StateKey K)) (deltas : List (Entry T K))

def typeKeys (t : EventType T) : TypeKeys K := ⟨prev.keys t, request.keys t, changedKeys deltas t⟩

/-- The entry of `changes` for a type after both loops. -/
def changes (t : EventType T) : Option (Finset (StateKey K)) :=
  (if t ∈ deltas.map Prod.fst then secondPass user t (typeKeys prev request deltas t) else none).or
    (firstPass user order previouslyReturned t (typeKeys prev request deltas t)).1

/-- The types the first loop iterates over. -/
def loopTypes : Finset (EventType T) := prev.types ∪ request.types

/-- `new_required_state_map`, and `None` if there are no changes. -/
def newRequiredStateMap : Option (RequiredStateMap T K) :=
  if ∃ t ∈ loopTypes prev request, (changes user order prev request previouslyReturned deltas t).isSome then
    some ((loopTypes prev request).biUnion fun t =>
      ((changes user order prev request previouslyReturned deltas t).getD (prev.keys t)).image (t, ·))
  else none

/-- The type whose keys are left in `request_state_keys` after the loops. -/
def lastLoopType : EventType T :=
  ((deltas.map Prod.fst).eraseDups.getLast?).getD (order.last (loopTypes prev request))

/-- `users_to_add_to_lazy_cache`. -/
def usersToAddToLazyCache : Finset (StateKey K) :=
  if ((changes user order prev request previouslyReturned deltas .member).getD ∅).Nonempty ∧
      .lazy ∈ request.keys (lastLoopType order prev request deltas) then
    ((explicit (prev.keys .member)).image (normalized user)).filter fun u => (.member, u) ∉ deltas
  else ∅

/-- `previously_required_state_members`. -/
def previouslyRequiredStateMembers : Finset (StateKey K) :=
  if .me ∈ prev.keys .member then insert (.named user) (prev.keys .member) else prev.keys .member

/-- Members in the deltas that were returned before and are not sent down now. -/
def lazyMembersInvalidated : Finset (StateKey K) :=
  (changedKeys deltas .member \ requestLazyLoad) ∩ previouslyReturned

/-- Everything appended to `added`. -/
def added : Finset (EventType T × Option (StateKey K)) :=
  ((loopTypes prev request).biUnion fun t =>
      (firstPass user order previouslyReturned t (typeKeys prev request deltas t)).2) ∪
    ((requestLazyLoad \ previouslyReturned) \ previouslyRequiredStateMembers user prev).image
      fun u => (.member, some u)

def requiredStateChanges : RequiredStateChanges T K :=
  let invalidated := lazyMembersInvalidated previouslyReturned requestLazyLoad deltas
  if prev = request then
    ⟨none, .fromTypes ((requestLazyLoad \ previouslyReturned).image fun u => (.member, some u)), invalidated, ∅⟩
  else if .wildcard ∈ prev.keys .wildcard then ⟨some request, .none, invalidated, ∅⟩
  else if (request.keys .wildcard \ prev.keys .wildcard).Nonempty then ⟨some request, .all, invalidated, ∅⟩
  else if (prev.keys .wildcard \ request.keys .wildcard).Nonempty then ⟨some request, .none, invalidated, ∅⟩
  else
    ⟨newRequiredStateMap user order prev request previouslyReturned deltas,
      .fromTypes (added user order prev request previouslyReturned requestLazyLoad deltas), invalidated,
      usersToAddToLazyCache user order prev request previouslyReturned deltas⟩

end Changes

/-! ### What a map covers -/

/-- The keys of one type cover a state key. -/
def KeysCover (user : K) (keys : Finset (StateKey K)) (k : StateKey K) : Prop :=
  .wildcard ∈ keys ∨ k ∈ (explicit keys).image (normalized user)
  deriving Decidable

/-- A map covers an entry, by its type or by a wildcard for the type. -/
def Covers (user : K) (map : RequiredStateMap T K) (e : Entry T K) : Prop :=
  KeysCover user (map.keys .wildcard) e.2 ∨ KeysCover user (map.keys e.1) e.2
  deriving Decidable

variable {user : K} {map : RequiredStateMap T K}

theorem KeysCover.mono {keys keys' : Finset (StateKey K)} {k : StateKey K} (h : KeysCover user keys k)
    (hsub : keys ⊆ keys') : KeysCover user keys' k := by
  rcases h with h | h
  · exact .inl (hsub h)
  · exact .inr (image_subset_image (sdiff_subset_sdiff hsub (Finset.Subset.refl _)) h)

/-- A map without type wildcards covers what the keys of the entry's type cover. -/
theorem covers_iff (hmap : map.keys .wildcard = ∅) {e : Entry T K} :
    Covers user map e ↔ KeysCover user (map.keys e.1) e.2 := by
  rw [Covers, hmap]
  simp [KeysCover, explicit]

/-- What a request covers passes its filter. -/
theorem matches_of_covers {e : Entry T K} (h : Covers user map e)
    (timelineMembership : Finset K) (limited : Bool) (deltas : List (Entry T K)) :
    (wanted user map timelineMembership limited deltas).requiredStateFilter.Matches e := by
  rw [wanted]
  split
  · trivial
  · rename_i hmap
    rw [not_nonempty_iff_eq_empty] at hmap
    rw [covers_iff hmap] at h
    rcases h with h | h
    · refine .inl (mem_biUnion.mpr ⟨_, RequiredStateMap.mem_keys.mp h, ?_⟩)
      simp [requiredStateTypes]
    · obtain ⟨k, hk, hke⟩ := mem_image.mp h
      rw [explicit, mem_sdiff, mem_insert, mem_singleton, not_or] at hk
      obtain ⟨hmem, hnotWild, hnotLazy⟩ := hk
      refine .inr (mem_biUnion.mpr ⟨_, RequiredStateMap.mem_keys.mp hmem, ?_⟩)
      simp [requiredStateTypes, hnotWild, hnotLazy, hke]

/-- So do the members it lazy-loads. -/
theorem matches_of_lazy {timelineMembership : Finset K} {limited : Bool}
    {deltas : List (Entry T K)} {u : StateKey K}
    (h : u ∈ (wanted user map timelineMembership limited deltas).lazyLoadUserIds) :
    (wanted user map timelineMembership limited deltas).requiredStateFilter.Matches (.member, u) := by
  rw [wanted] at h ⊢
  split
  · trivial
  · rename_i hmap
    rw [if_neg hmap] at h
    have hload := (mem_sdiff.mp h).1
    split at hload
    · rename_i hlazy
      have hpair := RequiredStateMap.mem_keys.mp hlazy
      cases limited with
      | false => exact .inl (mem_biUnion.mpr ⟨_, hpair, by simp [requiredStateTypes]⟩)
      | true =>
        refine .inr (mem_biUnion.mpr ⟨_, hpair, ?_⟩)
        simpa [requiredStateTypes] using hload
    · exact absurd hload (notMem_empty u)

end Sithnapse.SlidingSync
