import Sithnapse.Kit.Batch
import Sithnapse.Kit.Runs
import Sithnapse.SlidingSync.Delivery

/-! A sliding-sync connection and its positions, for one room.

    Every response persists a position, a child of the one the request used; a client may use any stored
    position again. The required-state map is kept per position; which members were returned lazily is kept in
    one row per user for the whole connection, tagged with a position or with `NULL` for all of them.
    Loading a position deletes all others, and with them the rows tagged with those.

    For each position the state also has what the connection itself does not store: the map of the request,
    the place in the room's history it was answered at, and all that the responses up to it contained. -/

namespace Sithnapse.SlidingSync

open Kit Kit.Dict List Option Function Finset

variable {T K V : Type} [DecidableEq T] [DecidableEq K]

/-- A row of `sliding_sync_connection_lazy_members`. -/
structure Row where
  connectionPosition : Option ℕ
  lastSeenTs : ℕ

structure Connection (T K V : Type) where
  log : List (Entry T K × V)
  positions : Finset ℕ
  nextPosition : ℕ
  requiredStateMap : ℕ → RequiredStateMap T K
  lazyMembers : StateKey K → Option Row
  cached : Finset ℕ
  requested : ℕ → RequiredStateMap T K
  token : ℕ → ℕ
  sent : ℕ → List (Entry T K × V)

/-- What a request brings: its `required_state`, who is in the timeline that is returned and whether that is
    limited, the time, and the order of iteration of the sets on the way. -/
structure Request (T K : Type) where
  requiredState : List (Entry T K)
  timelineMembership : Finset K
  limited : Bool
  now : ℕ
  order : SetOrder T K

def Request.map (r : Request T K) : RequiredStateMap T K := fromRoomConfig r.requiredState

/-- `LAZY_MEMBERS_UPDATE_INTERVAL` in milliseconds. -/
def LAZY_MEMBERS_UPDATE_INTERVAL : ℕ := 3600000

namespace Connection

variable (s : Connection T K V)

/-- The room's state at a point of its history. -/
def stateAt (n : ℕ) : Dict (Entry T K) V := Dict.ofList (s.log.take n)

/-- The entries that changed since a position. -/
def deltas (p : ℕ) : List (Entry T K) := (s.log.drop (s.token p)).map Prod.fst

/-- `get_sliding_sync_connection_lazy_members` for one user. -/
def lastSeen (p : ℕ) (u : StateKey K) : Option ℕ :=
  if p ∈ s.positions then
    match s.lazyMembers u with
    | some row =>
      if row.connectionPosition = some p ∨ row.connectionPosition = none then some row.lastSeenTs else none
    | none => none
  else none

/-- `get_sliding_sync_connection_lazy_members`. -/
def getLazyMembers (p : ℕ) (userIds : Finset (StateKey K)) : Finset (StateKey K) :=
  userIds.filter fun u => (s.lastSeen p u).isSome

/-- `_get_and_clear_connection_positions_txn`: the other positions are deleted with their rows, and the rows of
    this one apply to all positions from now on. -/
def getAndClear (p : ℕ) : Connection T K V :=
  { s with
    positions := {p}
    lazyMembers := fun u =>
      match s.lazyMembers u with
      | some row =>
        if row.connectionPosition = some p ∨ row.connectionPosition = none then
          some { row with connectionPosition := none }
        else none
      | none => none
    cached := insert p s.cached }

/-- `get_returned_user_ids_to_update`, for one user with the time it was seen last. -/
def NeedsUpdate (now : ℕ) (lastSeenTs : Option ℕ) : Prop :=
  ∀ ts ∈ lastSeenTs, LAZY_MEMBERS_UPDATE_INTERVAL ≤ now - ts
  deriving Decidable

/-- The upsert of one user, which leaves rows of other positions alone. -/
def upsert (position now : ℕ) : Option Row → Row
  | none => ⟨some position, now⟩
  | some row =>
    if row.connectionPosition = none ∨ row.connectionPosition = some position then { row with lastSeenTs := now }
    else row

/-- `_persist_sliding_sync_connection_lazy_members_txn`. -/
def persistLazyMembers (position now : ℕ) (toUpdate invalidated : Finset (StateKey K))
    (u : StateKey K) : Option Row :=
  if u ∈ invalidated then none
  else if u ∈ toUpdate then some (upsert position now (s.lazyMembers u))
  else s.lazyMembers u

/-- The entries sent, with their values. -/
def response (sends : Entry T K → Prop) [DecidablePred sends] : List (Entry T K × V) :=
  (s.stateAt s.log.length).entries.filter fun x => sends x.1

/-- `persist_per_connection_state_txn`, for a response with the given contents. -/
def persist (r : Request T K) (map : RequiredStateMap T K)
    (contents : List (Entry T K × V)) (toUpdate invalidated : Finset (StateKey K)) : Connection T K V :=
  { s with
    positions := insert s.nextPosition s.positions
    nextPosition := s.nextPosition + 1
    requiredStateMap := update s.requiredStateMap s.nextPosition map
    lazyMembers := s.persistLazyMembers s.nextPosition r.now toUpdate invalidated
    requested := update s.requested s.nextPosition r.map
    token := update s.token s.nextPosition s.log.length
    sent := update s.sent s.nextPosition contents }

/-- The first request of a connection, which deletes what there was of an earlier one. -/
def start (user : K) (s : Connection T K V) (r : Request T K) : Connection T K V :=
  let w := wanted user r.map r.timelineMembership true []
  let s := { s with positions := ∅, lazyMembers := fun _ => none }
  s.persist r r.map (s.response w.requiredStateFilter.Matches) w.lazyLoadUserIds ∅

/-- The members `get_room_sync_data` asks for. -/
def allRequiredUserState (user : K) (s : Connection T K V) (p : ℕ) (r : Request T K) : Finset (StateKey K) :=
  let w := wanted user r.map r.timelineMembership r.limited (s.deltas p)
  w.explicitUserState ∪ w.lazyLoadUserIds ∪ changedKeys (s.deltas p) .member

def previouslyReturned (user : K) (s : Connection T K V) (p : ℕ) (r : Request T K) : Finset (StateKey K) :=
  s.getLazyMembers p (s.allRequiredUserState user p r)

def syncData (user : K) (s : Connection T K V) (p : ℕ) (r : Request T K) : SyncData T K :=
  SlidingSync.syncData user r.order (s.requiredStateMap p) r.map r.timelineMembership r.limited (s.deltas p)
    (s.previouslyReturned user p r)

/-- A later request, once its position is loaded. -/
def answer (user : K) (s : Connection T K V) (p : ℕ) (r : Request T K) : Connection T K V :=
  let d := s.syncData user p r
  let seen := fun u => if u ∈ d.wanted.lazyLoadUserIds then s.lastSeen p u else none
  s.persist r (d.stored (s.requiredStateMap p)) (s.sent p ++ s.response (d.Sends (s.deltas p)))
    ((d.wanted.lazyLoadUserIds ∪ d.changes.extraUsersToAddToLazyCache).filter fun u => NeedsUpdate r.now (seen u))
    d.changes.lazyMembersInvalidated

/-- A position is loaded from the tables, or served from the cache. -/
def load (p : ℕ) (fromCache : Bool) : Connection T K V :=
  if fromCache then s else s.getAndClear p

/-- A room without state and no connection yet. -/
def empty : Connection T K V :=
  ⟨[], ∅, 0, fun _ => ∅, fun _ => none, ∅, fun _ => ∅, fun _ => 0, fun _ => []⟩

end Connection

/-- What can happen. -/
inductive Action (T K V : Type) where
  | set (entry : Entry T K) (value : V)
  | start (request : Request T K)
  | request (position : ℕ) (fromCache : Bool) (request : Request T K)

def step (user : K) (s : Connection T K V) : Action T K V → Option (Connection T K V)
  | .set e v => some { s with log := s.log ++ [(e, v)] }
  | .start r => some (s.start user r)
  | .request p fromCache r =>
    if p ∈ s.positions ∧ (fromCache = true → p ∈ s.cached) then some ((s.load p fromCache).answer user p r)
    else none

/-- The request is one that `_required_state_changes` handles. -/
def CarefulStep (user : K) (s : Connection T K V) : Action T K V → Prop
  | .request p fromCache r =>
    Careful user (s.requiredStateMap p) r.map ((s.load p fromCache).previouslyReturned user p r) (s.deltas p)
  | _ => True

instance (user : K) (s : Connection T K V) (a : Action T K V) : Decidable (CarefulStep user s a) :=
  match a with
  | .set _ _ => .isTrue trivial
  | .start _ => .isTrue trivial
  | .request _ _ _ => inferInstanceAs (Decidable (Careful ..))

/-! ### What a client knows -/

/-- A client that has followed the responses up to a position, and keeps the last value received of each entry,
    has the value that was current there. -/
def Connection.Knows (s : Connection T K V) (p : ℕ) (e : Entry T K) : Prop :=
  ∀ v, (s.stateAt (s.token p)).get? e = some v → lastIn e (s.sent p) = some v

/-- The members reported at a position. -/
def Connection.reported (s : Connection T K V) (p : ℕ) : Set (StateKey K) := {u | (s.lastSeen p u).isSome}

/-- What holds in every state. -/
structure Sound (user : K) (s : Connection T K V) : Prop where
  position_lt : ∀ p ∈ s.positions, p < s.nextPosition
  token_le : ∀ p ∈ s.positions, s.token p ≤ s.log.length
  tagged : ∀ u row p, s.lazyMembers u = some row → row.connectionPosition = some p → p ∈ s.positions
  requested : ∀ p ∈ s.positions, ∀ e, Covers user (s.requested p) e → s.Knows p e
  record : ∀ p ∈ s.positions, Record user (s.Knows p) (s.requiredStateMap p) (s.reported p)

theorem sound_empty (user : K) : Sound user (Connection.empty : Connection T K V) := by
  refine ⟨?_, ?_, ?_, ?_, ?_⟩ <;> simp [Connection.empty]

namespace Connection

theorem get?_stateAt (s : Connection T K V) (n : ℕ) (e : Entry T K) :
    (s.stateAt n).get? e = lastIn e (s.log.take n) := by
  rw [stateAt, Dict.ofList, get?_update_last, get?_empty, or_none]

/-- A response gives an entry it contains the current value. -/
theorem lastIn_response (s : Connection T K V) (sends : Entry T K → Prop) [DecidablePred sends] (e : Entry T K) :
    lastIn e (s.response sends) = if sends e then (s.stateAt s.log.length).get? e else none := by
  split_ifs with hsends
  · cases hget : (s.stateAt s.log.length).get? e with
    | none =>
      rw [lastIn_eq_none]
      intro hmem
      obtain ⟨x, hx, rfl⟩ := mem_map.mp hmem
      exact get?_eq_none_iff.mp hget (mem_map_of_mem (mem_filter.mp hx).1)
    | some v =>
      have hmem : (e, v) ∈ s.response sends :=
        mem_filter.mpr ⟨get?_eq_some_iff.mp hget, decide_eq_true hsends⟩
      refine lastIn_of_nodup ?_ hmem
      exact (filter_sublist.map Prod.fst).nodup (s.stateAt s.log.length).nodup
  · rw [lastIn_eq_none]
    intro hmem
    obtain ⟨x, hx, rfl⟩ := mem_map.mp hmem
    exact hsends (of_decide_eq_true (mem_filter.mp hx).2)

omit [DecidableEq T] [DecidableEq K] in
theorem mem_reported {s : Connection T K V} {p : ℕ} {u : StateKey K} :
    u ∈ s.reported p ↔ p ∈ s.positions ∧ ∃ row, s.lazyMembers u = some row ∧
      (row.connectionPosition = some p ∨ row.connectionPosition = none) := by
  show (s.lastSeen p u).isSome = true ↔ _
  rw [lastSeen]
  constructor
  · intro h
    split_ifs at h with hp
    · split at h
      · rename_i row hrow
        split at h
        · rename_i hpos
          exact ⟨hp, row, hrow, hpos⟩
        · cases h
      · cases h
    · cases h
  · rintro ⟨hp, row, hrow, hpos⟩
    rw [if_pos hp, hrow]
    simp only [if_pos hpos, isSome_some]

/-- A client knows after a response what the response sends and what did not change. -/
theorem knows_after (s : Connection T K V) (p : ℕ) (d : SyncData T K) {e : Entry T K}
    (he : d.After (s.deltas p) (s.Knows p) e) {v : V} (hv : (s.stateAt s.log.length).get? e = some v) :
    lastIn e (s.sent p ++ s.response (d.Sends (s.deltas p))) = some v := by
  rw [lastIn_append, lastIn_response]
  by_cases hsends : d.Sends (s.deltas p) e
  · rw [if_pos hsends, hv]
    rfl
  · obtain ⟨hknown, hdelta⟩ := he.resolve_left hsends
    rw [if_neg hsends, none_or]
    refine hknown v ?_
    have hsplit : s.log = s.log.take (s.token p) ++ s.log.drop (s.token p) := (take_append_drop _ _).symm
    rw [get?_stateAt, take_length, hsplit, lastIn_append, lastIn_eq_none.mpr hdelta, none_or] at hv
    rwa [get?_stateAt]

end Connection

theorem Record.mono {user : K} {known known' : Entry T K → Prop} {map : RequiredStateMap T K}
    {returned returned' : Set (StateKey K)} (h : Record user known map returned)
    (hknown : ∀ e, known e → known' e) (hsub : returned' ⊆ returned) : Record user known' map returned' :=
  ⟨fun e he => hknown e (h.covered e he), fun hw e => hknown e (h.everything hw e),
    fun u hu => hknown _ (h.members u (hsub hu))⟩

namespace Sound

variable {user : K} {s : Connection T K V}

/-- A change of the room's state is after every position. -/
theorem set (h : Sound user s) (e : Entry T K) (v : V) : Sound user { s with log := s.log ++ [(e, v)] } := by
  have hknows : ∀ p ∈ s.positions, ∀ e', s.Knows p e' →
      Connection.Knows { s with log := s.log ++ [(e, v)] } p e' := by
    intro p hp e' hk w hw
    refine hk w ?_
    rwa [Connection.get?_stateAt, take_append_of_le_length (h.token_le p hp), ← Connection.get?_stateAt] at hw
  refine ⟨h.position_lt, fun p hp => ?_, h.tagged, fun p hp e' he => hknows p hp e' (h.requested p hp e' he),
    fun p hp => ?_⟩
  · rw [length_append]
    exact le_add_right (h.token_le p hp)
  · exact (h.record p hp).mono (hknows p hp) fun _ hu => hu

/-- Loading a position from the tables. -/
theorem getAndClear (h : Sound user s) {p : ℕ} (hp : p ∈ s.positions) : Sound user (s.getAndClear p) := by
  have hmem : ∀ q ∈ (s.getAndClear p).positions, q ∈ s.positions := by
    intro q hq
    rwa [Finset.mem_singleton.mp hq]
  refine ⟨fun q hq => h.position_lt q (hmem q hq), fun q hq => h.token_le q (hmem q hq),
    fun u row q hrow hpos => ?_, fun q hq => h.requested q (hmem q hq), fun q hq => ?_⟩
  · simp only [Connection.getAndClear] at hrow
    split at hrow
    · split at hrow
      · cases hrow
        cases hpos
      · cases hrow
    · cases hrow
  · refine (h.record q (hmem q hq)).mono (fun _ he => he) fun u hu => ?_
    obtain ⟨hq', row, hrow, -⟩ := Connection.mem_reported.mp hu
    obtain rfl := Finset.mem_singleton.mp hq'
    simp only [Connection.getAndClear] at hrow
    split at hrow
    · rename_i row' hrow'
      split at hrow
      · rename_i hpos
        exact Connection.mem_reported.mpr ⟨hp, row', hrow', hpos⟩
      · cases hrow
    · cases hrow

/-- A position is persisted for a response: it suffices to know what the response makes known. -/
theorem persist (h : Sound user s) {r : Request T K} {map : RequiredStateMap T K}
    {contents : List (Entry T K × V)} {toUpdate invalidated : Finset (StateKey K)} {known : Entry T K → Prop}
    (hknown : ∀ e, known e → ∀ v, (s.stateAt s.log.length).get? e = some v → lastIn e contents = some v)
    (hrequested : ∀ e, Covers user r.map e → known e) (hcovered : ∀ e, Covers user map e → known e)
    (heverything : (map.keys .wildcard).Nonempty → ∀ e, known e)
    (hupdate : ∀ u ∈ toUpdate, known (.member, u))
    (hrows : ∀ u row, s.lazyMembers u = some row → row.connectionPosition = none → u ∉ invalidated →
      known (.member, u)) : Sound user (s.persist r map contents toUpdate invalidated) := by
  obtain ⟨s', hs'⟩ : ∃ s', s' = s.persist r map contents toUpdate invalidated := ⟨_, rfl⟩
  have hnew : s'.requiredStateMap s.nextPosition = map ∧ s'.requested s.nextPosition = r.map ∧
      s'.token s.nextPosition = s.log.length ∧ s'.sent s.nextPosition = contents := by
    subst hs'
    exact ⟨update_self .., update_self .., update_self .., update_self ..⟩
  have hold : ∀ p ∈ s.positions, s'.requiredStateMap p = s.requiredStateMap p ∧
      s'.requested p = s.requested p ∧ s'.token p = s.token p ∧ s'.sent p = s.sent p := by
    intro p hp
    have hne : p ≠ s.nextPosition := (h.position_lt p hp).ne
    subst hs'
    exact ⟨update_of_ne hne .., update_of_ne hne .., update_of_ne hne .., update_of_ne hne ..⟩
  have hlog : s'.log = s.log := by rw [hs']; rfl
  have hlazy : s'.lazyMembers = s.persistLazyMembers s.nextPosition r.now toUpdate invalidated := by
    rw [hs']; rfl
  have hpositions : ∀ p, p ∈ s'.positions ↔ p = s.nextPosition ∨ p ∈ s.positions := by
    intro p
    rw [hs']
    exact mem_insert
  have hknowsNew : ∀ e, known e → s'.Knows s.nextPosition e := by
    intro e he v hv
    rw [Connection.stateAt, hlog, hnew.2.2.1] at hv
    rw [hnew.2.2.2]
    exact hknown e he v hv
  have hknowsOld : ∀ p ∈ s.positions, ∀ e, s.Knows p e → s'.Knows p e := by
    intro p hp e he v hv
    rw [Connection.stateAt, hlog, (hold p hp).2.2.1] at hv
    rw [(hold p hp).2.2.2]
    exact he v hv
  -- which rows there are, and with which tag
  have hrow : ∀ u row, s'.lazyMembers u = some row → u ∉ invalidated ∧
      (u ∈ toUpdate ∧ row.connectionPosition = some s.nextPosition ∨
        ∃ row₀, s.lazyMembers u = some row₀ ∧ row₀.connectionPosition = row.connectionPosition) := by
    intro u row hu
    rw [hlazy, Connection.persistLazyMembers] at hu
    split at hu
    · cases hu
    rename_i hvalid
    refine ⟨hvalid, ?_⟩
    split_ifs at hu with hup
    · cases hu
      cases hrow₀ : s.lazyMembers u with
      | none => exact .inl ⟨hup, rfl⟩
      | some row₀ =>
        refine .inr ⟨row₀, rfl, ?_⟩
        rw [Connection.upsert]
        split <;> rfl
    · exact .inr ⟨row, hu, rfl⟩
  rw [← hs']
  refine ⟨fun p hp => ?_, fun p hp => ?_, fun u row p hu hpos => ?_, fun p hp => ?_, fun p hp => ?_⟩
  · have hnext : s'.nextPosition = s.nextPosition + 1 := by rw [hs']; rfl
    rw [hnext]
    rcases (hpositions p).mp hp with rfl | hp
    · exact Nat.lt_succ_self _
    · exact (h.position_lt p hp).trans (Nat.lt_succ_self _)
  · rw [hlog]
    rcases (hpositions p).mp hp with rfl | hp
    · exact hnew.2.2.1.le
    · exact (hold p hp).2.2.1.le.trans (h.token_le p hp)
  · refine (hpositions p).mpr ?_
    rcases (hrow u row hu).2 with ⟨-, htag⟩ | ⟨row₀, hrow₀, htag⟩
    · exact .inl (mem_unique hpos htag)
    · exact .inr (h.tagged u row₀ p hrow₀ (htag.trans hpos))
  · rcases (hpositions p).mp hp with rfl | hp
    · rw [hnew.2.1]
      exact fun e he => hknowsNew e (hrequested e he)
    · rw [(hold p hp).2.1]
      exact fun e he => hknowsOld p hp e (h.requested p hp e he)
  · rcases (hpositions p).mp hp with rfl | hp
    · rw [hnew.1]
      refine ⟨fun e he => hknowsNew e (hcovered e he), fun hw e => hknowsNew e (heverything hw e), fun u hu => ?_⟩
      obtain ⟨-, row, hu, hpos⟩ := Connection.mem_reported.mp hu
      obtain ⟨hvalid, ⟨hup, -⟩ | ⟨row₀, hrow₀, htag⟩⟩ := hrow u row hu
      · exact hknowsNew _ (hupdate u hup)
      · rcases hpos with hpos | hpos
        · exact absurd (h.position_lt _ (h.tagged u row₀ _ hrow₀ (htag.trans hpos))) (lt_irrefl _)
        · exact hknowsNew _ (hrows u row₀ hrow₀ (htag.trans hpos) hvalid)
    · rw [(hold p hp).1]
      refine (h.record p hp).mono (hknowsOld p hp) fun u hu => ?_
      obtain ⟨-, row, hu, hpos⟩ := Connection.mem_reported.mp hu
      obtain ⟨-, ⟨-, htag⟩ | ⟨row₀, hrow₀, htag⟩⟩ := hrow u row hu
      · rcases hpos with hpos | hpos
        · exact absurd (mem_unique htag hpos) (h.position_lt p hp).ne'
        · exact absurd (htag.symm.trans hpos) (by simp)
      · exact Connection.mem_reported.mpr ⟨hp, row₀, hrow₀, by rwa [htag]⟩

/-- The first response sends all that is requested. -/
theorem start (user : K) (s : Connection T K V) (r : Request T K) : Sound user (s.start user r) := by
  obtain ⟨w, hw⟩ : ∃ w, w = wanted user r.map r.timelineMembership true [] := ⟨_, rfl⟩
  obtain ⟨s₀, hs₀⟩ : ∃ s₀ : Connection T K V, s₀ = { s with positions := ∅, lazyMembers := fun _ => none } :=
    ⟨_, rfl⟩
  have hstart : s.start user r = s₀.persist r r.map (s₀.response w.requiredStateFilter.Matches)
      w.lazyLoadUserIds ∅ := by rw [hs₀, hw]; rfl
  have hsound : Sound user s₀ := by
    rw [hs₀]
    refine ⟨?_, ?_, ?_, ?_, ?_⟩ <;> simp
  have hcovered : ∀ e, Covers user r.map e → w.requiredStateFilter.Matches e := fun e he => by
    rw [hw]
    exact matches_of_covers he _ _ _
  rw [hstart]
  refine hsound.persist (fun e he v hv => ?_) hcovered hcovered (fun hwild e => ?_) (fun u hu => ?_)
    fun u row hrow => ?_
  · rw [Connection.lastIn_response, if_pos he, hv]
  · rw [hw, wanted, if_pos hwild]
    trivial
  · rw [hw] at hu ⊢
    exact matches_of_lazy hu
  · rw [hs₀] at hrow
    cases hrow

/-- A later response, from a position that is loaded. -/
theorem answer (h : Sound user s) {p : ℕ} (hp : p ∈ s.positions) {r : Request T K}
    (hcareful : Careful user (s.requiredStateMap p) r.map (s.previouslyReturned user p r) (s.deltas p)) :
    Sound user (s.answer user p r) := by
  have hrec := h.record p hp
  have hsub : ∀ u ∈ s.previouslyReturned user p r, u ∈ s.reported p := fun u hu => (mem_filter.mp hu).2
  have hasked : ∀ u ∈ s.reported p, (.member, u) ∈ s.deltas p → u ∈ s.previouslyReturned user p r :=
    fun u hu hdelta => mem_filter.mpr ⟨mem_union_right _ (mem_changedKeys.mpr hdelta), hu⟩
  have hdelivered : Delivered user r.map ((s.syncData user p r).stored (s.requiredStateMap p))
      (s.syncData user p r).wanted.lazyLoadUserIds (s.syncData user p r).changes.extraUsersToAddToLazyCache
      ((s.syncData user p r).After (s.deltas p) (s.Knows p)) := delivered hrec hsub hcareful
  refine h.persist (fun e he v hv => s.knows_after p _ he hv) hdelivered.requested hdelivered.remembered
    hdelivered.everything (fun u hu => ?_) fun u row hrow hpos hvalid => ?_
  · rcases mem_union.mp (mem_filter.mp hu).1 with hu | hu
    · exact hdelivered.lazyMembers u hu
    · exact hdelivered.extraMembers u hu
  · exact after_returned hrec hasked (Connection.mem_reported.mpr ⟨hp, row, hrow, .inr hpos⟩) hvalid

theorem load (h : Sound user s) {p : ℕ} (hp : p ∈ s.positions) (fromCache : Bool) :
    Sound user (s.load p fromCache) ∧ p ∈ (s.load p fromCache).positions := by
  cases fromCache with
  | true => exact ⟨h, hp⟩
  | false => exact ⟨h.getAndClear hp, Finset.mem_singleton_self p⟩

theorem step {s' : Connection T K V} {a : Action T K V} (h : Sound user s) (hcareful : CarefulStep user s a)
    (hs : SlidingSync.step user s a = some s') : Sound user s' := by
  cases a with
  | set e v =>
    cases hs
    exact h.set e v
  | start r =>
    cases hs
    exact start user s r
  | request p fromCache r =>
    rw [SlidingSync.step] at hs
    split at hs
    · rename_i henabled
      cases hs
      obtain ⟨hloaded, hp⟩ := h.load henabled.1 fromCache
      refine hloaded.answer hp ?_
      cases fromCache <;> exact hcareful
    · cases hs

end Sound

/-- In every run whose requests are handled, and at every position: a client that has followed the responses
    up to it holds the value, current at that response, of every entry the request's map covers. -/
theorem required_state_delivered (user : K) {s : Connection T K V}
    (h : Run (step user) (CarefulStep user) Connection.empty s) {p : ℕ} (hp : p ∈ s.positions) {e : Entry T K}
    (he : Covers user (s.requested p) e) {v : V} (hv : (s.stateAt (s.token p)).get? e = some v) :
    lastIn e (s.sent p) = some v := by
  have hsound : Sound user s := h.invariant (I := Sound user) (sound_empty user) fun hI hok hs => hI.step hok hs
  exact hsound.requested p hp e he v hv

/-! Three users, of which 0 is the client's, and one event type next to `m.room.member`. -/

/-- Sets iterated in the order of given lists. -/
def SetOrder.ofLists (types : List (EventType T)) (keys : List (StateKey K)) (htypes : ∀ t, t ∈ types)
    (hkeys : ∀ k, k ∈ keys) (hnodup : keys.Nodup) : SetOrder T K where
  last s := ((types.filter (· ∈ s)).getLast?).getD .wildcard
  islice s n := ((keys.filter (· ∈ s)).take n).toFinset
  last_mem s hs := by
    obtain ⟨t, ht⟩ := hs
    have hmem : t ∈ types.filter (· ∈ s) := mem_filter.mpr ⟨htypes t, decide_eq_true ht⟩
    have hne := ne_nil_of_mem hmem
    rw [getLast?_eq_some_getLast hne, getD_some]
    exact of_decide_eq_true (mem_filter.mp (getLast_mem hne)).2
  islice_subset s n k hk :=
    of_decide_eq_true (mem_filter.mp (mem_of_mem_take (mem_toFinset.mp hk))).2
  islice_card s n := by
    have hset : (keys.filter (· ∈ s)).toFinset = s := by
      ext k
      simp [hkeys]
    have hcard : (keys.filter (· ∈ s)).length = s.card := by
      rw [← toFinset_card_of_nodup (hnodup.filter _), hset]
    rw [toFinset_card_of_nodup ((hnodup.filter _).take), length_take, hcard]

def smallOrder : SetOrder (Fin 1) (Fin 3) :=
  SetOrder.ofLists [.wildcard, .member, .named 0] [.wildcard, .lazy, .me, .named 0, .named 1, .named 2]
    (fun t => by cases t <;> simp; omega) (fun k => by cases k <;> simp; omega) (by decide)

/-- A request with a limited timeline. -/
def ask (requiredState : List (Entry (Fin 1) (Fin 3))) (timelineMembership : Finset (Fin 3)) :
    Request (Fin 1) (Fin 3) := ⟨requiredState, timelineMembership, true, 0, smallOrder⟩

/-- From `$ME` to a wildcard and back, with changes on the way. -/
def widened : List (Action (Fin 1) (Fin 3) ℕ) :=
  [.set (.named 0, .named 1) 5, .set (.member, .named 0) 10, .start (ask [(.member, .me)] ∅),
    .set (.named 0, .named 1) 6, .request 0 false (ask [(.member, .me), (.named 0, .wildcard)] ∅),
    .set (.member, .named 0) 11, .request 1 false (ask [(.named 0, .named 1)] ∅),
    .request 2 false (ask [(.member, .me), (.named 0, .named 1)] ∅)]

theorem required_state_delivered_widened :
    ∃ s : Connection (Fin 1) (Fin 3) ℕ, Run (step 0) (CarefulStep 0) Connection.empty s ∧
      lastIn (.member, .named 0) (s.sent 3) = some 11 :=
  Run.exists_get widened (by decide +kernel) fun hrun =>
    required_state_delivered 0 hrun (by decide +kernel) (by decide +kernel) (by decide +kernel)

/-- The user's membership changes while the request names another member instead of `$ME`; with `$ME` back the
    old one is all the client has. And a member named together with a first `$LAZY` is not sent. -/
theorem required_state_not_delivered :
    (∃ s : Connection (Fin 1) (Fin 3) ℕ, Run (step 0) (fun _ _ => True) Connection.empty s ∧
      s.requested 2 = {(.member, .me)} ∧ (s.stateAt (s.token 2)).get? (.member, .named 0) = some 11 ∧
      s.token 2 = s.log.length ∧ lastIn (.member, .named 0) (s.sent 2) = some 10) ∧
    ∃ s : Connection (Fin 1) (Fin 3) ℕ, Run (step 0) (fun _ _ => True) Connection.empty s ∧
      s.requested 1 = {(.member, .lazy), (.member, .named 1)} ∧
      (s.stateAt (s.token 1)).get? (.member, .named 1) = some 10 ∧ s.token 1 = s.log.length ∧
      s.sent 1 = [] := by
  constructor
  · exact Run.exists_exec [.set (.member, .named 0) 10, .start (ask [(.member, .me)] ∅),
      .set (.member, .named 0) 11, .request 0 false (ask [(.member, .named 1)] ∅),
      .request 1 false (ask [(.member, .me)] ∅)] (by decide +kernel)
  · exact Run.exists_exec [.set (.member, .named 1) 10, .start (ask [] ∅),
      .request 0 false (ask [(.member, .lazy), (.member, .named 1)] ∅)] (by decide +kernel)

/-- In every run whose requests are handled: a member reported at a position has been sent, with the membership
    event that is current at it, by a response on the way to it. -/
theorem lazy_members_sent (user : K) {s : Connection T K V}
    (h : Run (step user) (CarefulStep user) Connection.empty s) {p : ℕ} {userIds : Finset (StateKey K)}
    {u : StateKey K} (hu : u ∈ s.getLazyMembers p userIds) {v : V}
    (hv : (s.stateAt (s.token p)).get? (.member, u) = some v) : ((.member, u), v) ∈ s.sent p := by
  have hsound : Sound user s := h.invariant (I := Sound user) (sound_empty user) fun hI hok hs => hI.step hok hs
  have hreported : u ∈ s.reported p := (mem_filter.mp hu).2
  have hp := (Connection.mem_reported.mp hreported).1
  exact lastIn_mem ((hsound.record p hp).members u hreported v hv)

/-- Positions 1 and 2 both come from 0, the second one served from the cache; then 2 is used. -/
def forked : List (Action (Fin 1) (Fin 3) ℕ) :=
  [.set (.member, .named 1) 10, .set (.member, .named 2) 20, .start (ask [(.member, .lazy)] {1}),
    .request 0 false (ask [(.member, .lazy)] {2}), .set (.member, .named 1) 11,
    .request 0 true (ask [(.member, .lazy)] {1, 2}), .request 2 false (ask [(.member, .lazy)] ∅)]

theorem lazy_members_sent_forked :
    ∃ s : Connection (Fin 1) (Fin 3) ℕ, Run (step 0) (CarefulStep 0) Connection.empty s ∧
      s.getLazyMembers 3 {.named 1, .named 2} = {.named 1} ∧ ((.member, .named 1), 11) ∈ s.sent 3 :=
  Run.exists_get forked (by decide +kernel) fun hrun => ⟨by decide +kernel, lazy_members_sent 0 hrun
    (show _ ∈ Connection.getLazyMembers _ 3 {.named 1, .named 2} by decide +kernel) (by decide +kernel)⟩

/-- Members that the map names without the client having them are taken as returned when they come up
    lazily. -/
theorem lazy_members_not_sent :
    (∃ s : Connection (Fin 1) (Fin 3) ℕ, Run (step 0) (fun _ _ => True) Connection.empty s ∧
      .named 0 ∈ s.getLazyMembers 2 {.named 0} ∧
      (s.stateAt (s.token 2)).get? (.member, .named 0) = some 11 ∧ ((.member, .named 0), 11) ∉ s.sent 2) ∧
    ∃ s : Connection (Fin 1) (Fin 3) ℕ, Run (step 0) (fun _ _ => True) Connection.empty s ∧
      .named 1 ∈ s.getLazyMembers 2 {.named 1} ∧
      (s.stateAt (s.token 2)).get? (.member, .named 1) = some 10 ∧ s.sent 2 = [] := by
  constructor
  · exact Run.exists_exec [.set (.member, .named 0) 10, .start (ask [(.member, .me)] ∅),
      .set (.member, .named 0) 11, .request 0 false (ask [(.member, .named 1)] ∅),
      .request 1 false (ask [(.member, .lazy)] {0})] (by decide +kernel)
  · exact Run.exists_exec [.set (.member, .named 1) 10, .start (ask [] ∅),
      .request 0 false (ask [(.member, .lazy), (.member, .named 1)] ∅),
      .request 1 false (ask [(.member, .lazy)] {1})] (by decide +kernel)

end Sithnapse.SlidingSync
