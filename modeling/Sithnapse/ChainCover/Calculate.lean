import Sithnapse.Util.Iterutils
import Sithnapse.ChainCover.Links
import Sithnapse.ChainCover.LinkMap
import Sithnapse.ChainCover.Allocate

/-! `_calculate_chain_cover_index` and `_persist_chain_cover_index`.

    The calculation collects the events to index (the batch, events deferred earlier in the same
    rooms, and auth events that were persisted out of band), defers those whose auth events are
    still unknown, gives the rest chain positions, and records a link for each auth event that is
    neither on the event's own chain nor reachable from another of its auth events. -/

namespace Sithnapse.ChainCover
open Kit Kit.Chain Iterutils

variable {E T R : Type} [LinearOrder E] [DecidableEq T] [DecidableEq R]

/-- The tables the index reads and writes. `stateEvents` is `events` joined with `state_events`;
    the value `T` of an event is its type and state key. -/
structure Db (E T R : Type) where
  stateEvents : List (E × T)
  eventAuth : List (E × E)
  chains : List (E × Pos)
  links : LinkStore
  toCalculate : List (E × R × T)

namespace Db

/-- `SELECT auth_id FROM event_auth WHERE event_id = ?`. -/
def selectAuth (db : Db E T R) (e : E) : List E := (db.eventAuth.filter (·.1 = e)).map (·.2)

/-- The row of `event_auth_chains` for an event. -/
def selectChain (db : Db E T R) (e : E) : Option Pos := Dict.lookupIn e db.chains

/-- The event is in the index. -/
abbrev Indexed (db : Db E T R) (e : E) : Prop := ∃ p, db.selectChain e = some p

/-- The event at a position. -/
def selectEvent (db : Db E T R) (p : Pos) : Option E := Dict.lookupIn p (db.chains.map Prod.swap)

end Db

/-- The arguments describing the events to be indexed. -/
structure Batch (E T R : Type) where
  eventToRoomId : Dict E R
  eventToTypes : Dict E T
  eventToAuthChain : Dict E (List E)

variable (db : Db E T R)

/-- The batch `calculate_chain_cover_index_for_events_txn` builds from state events: repeats and
    events already indexed are left out. -/
def Batch.ofEvents (auth : E → List E) (ty : E → T) (room : E → R) (events : List E) : Batch E T R :=
  let es := (addAll [] events).filter fun e => e ∉ db.chains.map Prod.fst
  ⟨Dict.ofList (es.map fun e => (e, room e)), Dict.ofList (es.map fun e => (e, ty e)),
    Dict.ofList (es.map fun e => (e, auth e))⟩

/-- What is known while the calculation collects events. -/
structure Calc (E T : Type) where
  chainMap : Dict E Pos
  eventsToCalcChainIdFor : List E
  eventToTypes : Dict E T
  eventToAuthChain : Dict E (List E)

/-! ### Collecting the events to index -/

/-- Add one row of `event_auth_chain_to_calculate`. -/
def addPendingRow (c : Calc E T) (row : E × R × T) : Calc E T :=
  { c with
    eventsToCalcChainIdFor := addIf c.eventsToCalcChainIdFor row.1
    eventToTypes := c.eventToTypes.set row.1 row.2.2
    eventToAuthChain := c.eventToAuthChain.set row.1 (db.selectAuth row.1) }

variable (b : Batch E T R)

/-- The batch, and the events deferred earlier in its rooms. -/
def addPending : Calc E T :=
  (db.toCalculate.filter (·.2.1 ∈ b.eventToRoomId.values)).foldl (addPendingRow db)
    ⟨Dict.empty, b.eventToRoomId.keys, b.eventToTypes, b.eventToAuthChain⟩

/-- Auth events outside the events to index. -/
def Calc.missingAuthChains (c : Calc E T) : List E :=
  addAll [] ((c.eventToAuthChain.values.flatten).filter (· ∉ c.eventsToCalcChainIdFor))

/-- One fetched auth event: in the index, or persisted out of band. -/
def fetchRow (st : Calc E T × List E) (row : E × T × Option Pos) : Calc E T × List E :=
  let types := st.1.eventToTypes.set row.1 row.2.1
  match row.2.2 with
  | none =>
    let auths := db.selectAuth row.1
    (⟨st.1.chainMap, addIf st.1.eventsToCalcChainIdFor row.1, types,
      st.1.eventToAuthChain.set row.1 auths⟩, addAll st.2 (auths.filter (· ∉ types.keys)))
  | some p => ({ st.1 with chainMap := st.1.chainMap.set row.1 p, eventToTypes := types }, st.2)

/-- The stored events among `missing`, with their positions if they have one. -/
def selectMissing (missing : List E) : List (E × T × Option Pos) :=
  (db.stateEvents.filter (·.1 ∈ missing)).map fun r => (r.1, r.2, db.selectChain r.1)

/-- One round of `while missing_auth_chains`. -/
def fetchRound (st : Calc E T × List E) : (Calc E T × List E) ⊕ Calc E T :=
  match st.2 with
  | [] => .inr st.1
  | _ :: _ => .inl ((selectMissing db st.2).foldl (fetchRow db) (st.1, []))

/-- The whole loop. Each round goes one step further down the auth graph through stored events,
    which bounds the rounds. -/
def fetchMissing (c : Calc E T) : Option (Calc E T) :=
  loop (fetchRound db) (db.stateEvents.length + 2) (c, c.missingAuthChains)

/-! ### Deferring -/

/-- `simple_upsert_txn` on `event_auth_chain_to_calculate`. -/
def upsertToCalculate (table : List (E × R × T)) (row : E × R × T) : List (E × R × T) :=
  table.filter (·.1 ≠ row.1) ++ [row]

/-- Defer an event with an unknown auth event; one of the batch is remembered for next time. -/
def deferEvent (c : Calc E T) (st : List E × List (E × R × T)) (event : E) :
    Option (List E × List (E × R × T)) :=
  if (c.eventToAuthChain.getD event []).any fun a => a ∉ c.chainMap.keys && a ∉ st.1 then
    match b.eventToRoomId.get? event with
    | none => some (st.1.filter (· ≠ event), st.2)
    | some room => (c.eventToTypes.get? event).map fun t =>
        (st.1.filter (· ≠ event), upsertToCalculate st.2 (event, room, t))
  else some st

def deferEvents (c : Calc E T) : Option (List E × List (E × R × T)) :=
  (sortedTopologically c.eventToAuthChain.keys c.eventToAuthChain).foldlM (deferEvent b c)
    (c.eventsToCalcChainIdFor, db.toCalculate)

/-! ### Links -/

/-- `NewEventChainLinks`. -/
structure NewEventChainLinks where
  chainId : ℕ
  sequenceNumber : ℕ
  links : List Pos

/-- `itertools.permutations(l, r=2)`. -/
def permutations2 (l : List E) : List (E × E) :=
  l.zipIdx.flatMap fun x => (l.zipIdx.filter (·.2 ≠ x.2)).map fun y => (x.1, y.1)

/-- Load the stored links of one chain. -/
def loadChain (m : LinkMap) (p : ℕ × List ChainEdge) : Option LinkMap :=
  p.2.foldlM (fun m e => (m.addLink (p.1, e.1) (e.2.1, e.2.2) false).map Prod.fst) m

/-- Load all fetched links. -/
def loadLinks (batches : List (Dict ℕ (List ChainEdge))) : Option LinkMap :=
  batches.foldlM (fun m d => d.entries.foldlM loadChain m) LinkMap.empty

/-- Drop an auth event that another one reaches. -/
def reduceStep (m : LinkMap) (chainMap : Dict E Pos) (reduction : List E) (p : E × E) : Option (List E) := do
  let start ← chainMap.get? p.1
  let stop ← chainMap.get? p.2
  let b ← m.existsPathFrom start stop
  pure (if b then reduction.filter (· ≠ p.2) else reduction)

/-- The auth events that need a link. -/
def reduceAuth (m : LinkMap) (chainMap : Dict E Pos) (auths : List E) (chainId : ℕ) : Option (List E) := do
  let positions ← auths.mapM fun a => (chainMap.get? a).map fun p => (a, p)
  let reduction := addAll [] ((positions.filter (·.2.1 ≠ chainId)).map Prod.fst)
  (permutations2 auths).foldlM (reduceStep m chainMap) reduction

/-- Record one link of `event` at `src`. -/
def addEventLink (chainMap : Dict E Pos) (event : E) (src : Pos)
    (st : LinkMap × Dict E NewEventChainLinks) (a : E) :
    Option (LinkMap × Dict E NewEventChainLinks) := do
  let target ← chainMap.get? a
  let entry ← st.2.get? event
  let added ← st.1.addLink src target true
  pure (added.1, st.2.set event { entry with links := entry.links ++ [target] })

/-- The links of one event. -/
def linkEvent (chainMap : Dict E Pos) (authChain : Dict E (List E))
    (st : LinkMap × Dict E NewEventChainLinks) (event : E) :
    Option (LinkMap × Dict E NewEventChainLinks) := do
  let src ← chainMap.get? event
  let reduction ← reduceAuth st.1 chainMap (authChain.getD event []) src.1
  reduction.foldlM (addEventLink chainMap event src) st

/-! ### Calculating and persisting -/

/-- `_calculate_chain_cover_index`: the new positions and links, and the tables with the deferred
    events noted. -/
def calculateChainCoverIndex (gen : ℕ → List ℕ) (b : Batch E T R) :
    Option (Db E T R × Dict E NewEventChainLinks) := do
  let c ← fetchMissing db (addPending db b)
  let (events, table) ← deferEvents db b c
  if events = [] then
    pure ({ db with toCalculate := table }, Dict.empty)
  else
    let order := sortedTopologically events c.eventToAuthChain
    let new ← allocateChainIds db.chains gen order c.eventToTypes c.eventToAuthChain c.chainMap
    let chainMap := c.chainMap.update new.entries
    let m ← loadLinks (getChainLinks db.links (addAll [] (chainMap.values.map Prod.fst)))
    let init := Dict.ofList (new.entries.map fun p => (p.1, NewEventChainLinks.mk p.2.1 p.2.2 []))
    let st ← order.foldlM (linkEvent chainMap c.eventToAuthChain) (m, init)
    pure ({ db with toCalculate := table }, st.2)

variable (new : Dict E NewEventChainLinks)

/-- The rows for `event_auth_chain_links`. -/
def newChainLinks : List Link :=
  new.entries.flatMap fun p => p.2.links.map fun q => ⟨p.2.chainId, p.2.sequenceNumber, q.1, q.2⟩

/-- The rows for `event_auth_chains`. -/
def newChainRows : List (E × Pos) :=
  new.entries.map fun p => (p.1, (p.2.chainId, p.2.sequenceNumber))

/-- `_persist_chain_cover_index`; `none` is a violated uniqueness constraint of
    `event_auth_chains`. -/
def persistChainCoverIndex : Option (Db E T R) :=
  let rows := db.chains ++ newChainRows new
  if (rows.map Prod.fst).Nodup ∧ (rows.map Prod.snd).Nodup then
    some { db with
      chains := rows
      toCalculate := db.toCalculate.filter (·.1 ∉ new.keys)
      links := db.links.put (newChainLinks new) }
  else none

/-- The rest of the persist transaction: the batch's events enter `state_events` and `event_auth`. -/
def storeEvents : Db E T R :=
  let fresh := b.eventToTypes.entries.filter fun p => p.1 ∉ db.stateEvents.map Prod.fst
  { db with
    stateEvents := db.stateEvents ++ fresh
    eventAuth := db.eventAuth ++
      fresh.flatMap fun p => (b.eventToAuthChain.getD p.1 []).map fun a => (p.1, a) }

end Sithnapse.ChainCover
