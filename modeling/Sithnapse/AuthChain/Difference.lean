import Sithnapse.ChainCover.Calculate
import Sithnapse.AuthChain.Materialize

/-! `_get_auth_chain_difference_using_cover_index_txn` with its helpers.

    Each state set becomes a map from chains to the highest sequence number it reaches; an event is
    in the difference when its number lies above the lowest and not above the highest of these. For
    state resolution v2.1 the same links also give the conflicted subgraph, as the overlap of what
    is reachable backwards and forwards from conflicted events. Events that are not indexed yet are
    replaced by the indexed events below them beforehand. -/

namespace Sithnapse.AuthChain
open Kit Kit.Chain ChainCover Iterutils

/-- What the queries raise. -/
inductive Failure where
  | noChainCoverIndex
  | incompleteAuthGraph
  | assertion
  | keyError
  | indexError
  | shortIdsExhausted
  | recursionLimit
  deriving DecidableEq, Repr

/-- `d[k]` outside a default. -/
def orKeyError {α : Type} : Option α → Except Failure α
  | none => .error .keyError
  | some a => .ok a

variable {E T R : Type} [LinearOrder E] [DecidableEq R]

/-! ### Chain positions of the events at hand -/

/-- What `fetch_chain_info` accumulates. -/
structure ChainInfo (E : Type) where
  chainInfo : Dict E Pos
  chainToEvent : Dict ℕ (Dict ℕ E)
  seenChains : List ℕ

/-- Nothing fetched. -/
def ChainInfo.empty : ChainInfo E := ⟨Dict.empty, Dict.empty, []⟩

/-- One fetched row. -/
def ChainInfo.row (i : ChainInfo E) (r : E × Pos) : ChainInfo E where
  chainInfo := i.chainInfo.set r.1 r.2
  chainToEvent := i.chainToEvent.set r.2.1 ((i.chainToEvent.getD r.2.1 Dict.empty).set r.2.2 r.1)
  seenChains := addIf i.seenChains r.2.1

variable (db : Db E T R)

/-- `fetch_chain_info`. -/
def fetchChainInfo (i : ChainInfo E) (events : List E) : ChainInfo E :=
  (batchIter events 1000).foldl (fun i batch => (db.chains.filter (·.1 ∈ batch)).foldl ChainInfo.row i) i

/-! ### Events without a position -/

/-- The waiting events of a room joined with their auth events: `auth_id` if there is one, and
    whether it is indexed. -/
def toCalculateRows (room : R) : List (E × Option E × Bool) :=
  (db.toCalculate.filter (·.2.1 = room)).flatMap fun r =>
    match db.selectAuth r.1 with
    | [] => [(r.1, none, false)]
    | auths => auths.map fun a => (r.1, some a, (db.selectChain a).isSome)

/-- `event_to_auth_ids`, and the indexed events known so far. -/
def readRow (st : Dict E (List E) × List E) (row : E × Option E × Bool) : Dict E (List E) × List E :=
  let s := st.1.getD row.1 []
  match row.2.1 with
  | none => (st.1.set row.1 s, st.2)
  | some a => (st.1.set row.1 (addIf s a), if row.2.2 then addIf st.2 a else st.2)

/-- One round of `while processing`. -/
def processAuth (eventToAuthIds : Dict E (List E)) (st : List E × List E) : (List E × List E) ⊕ List E :=
  match st.1 with
  | [] => .inr st.2
  | a :: rest =>
    let toAdd := addIf st.2 a
    match eventToAuthIds.get? a with
    | none => .inl (rest, toAdd)
    | some sub => .inl (addAll rest (sub.filter (· ∉ toAdd)), toAdd)

/-- The auth chain of a waiting event as far as it can be told from waiting events. Every round
    adds one event. -/
def partialAuthChain (eventToAuthIds : Dict E (List E)) (auths : List E) : List E :=
  (loop (processAuth eventToAuthIds)
    (eventToAuthIds.values.flatten.length + auths.length + 1) (addAll [] auths, [])).getD []

/-- Replace one waiting event of a state set by the indexed events below it. -/
def replaceEvent (indexed : List E) (st : List E × List E) (p : E × List E) : List E × List E :=
  if p.1 ∉ st.1 then st
  else
    p.2.foldl
      (fun st a => if a ∈ indexed then (addIf st.1 a, st.2) else (st.1, addIf st.2 a))
      ((st.1.filter (· ≠ p.1)).filter (· ∉ p.2), addIf st.2 p.1)

/-- Members of some of the sets but not of all. -/
def unionMinusIntersection (sets : List (List E)) : List E :=
  (addAll [] sets.flatten).filter fun e => ¬ ∀ s ∈ sets, e ∈ s

/-- `_fixup_auth_chain_difference_sets`: the difference of the un-indexed events, and the state
    sets with these replaced. -/
def fixupAuthChainDifferenceSets (room : R) (stateSets : List (List E))
    (eventsMissingChainInfo eventsThatHaveChainIndex : List E) :
    Except Failure (List E × List (List E)) :=
  let (eventToAuthIds, indexed) :=
    (toCalculateRows db room).foldl readRow (Dict.empty, eventsThatHaveChainIndex)
  if eventsMissingChainInfo.any (· ∉ eventToAuthIds.keys) then .error .noChainCoverIndex
  else
    let chains := (eventToAuthIds.entries.filter fun p => stateSets.any (p.1 ∈ ·)).map
      fun p => (p.1, partialAuthChain eventToAuthIds p.2)
    let replaced := stateSets.map fun s => chains.foldl (replaceEvent indexed) (s, [])
    .ok (unionMinusIntersection (replaced.map Prod.snd), replaced.map Prod.fst)

/-- Look up the positions of all events of the state sets, replacing un-indexed ones. -/
def loadSets (room : R) (stateSets : List (List E)) : Except Failure (List E × List (List E) × ChainInfo E) :=
  let initialEvents := addAll [] stateSets.flatten
  let info := fetchChainInfo db ChainInfo.empty initialEvents
  let missing := initialEvents.filter (· ∉ info.chainInfo.keys)
  if missing = [] then .ok ([], stateSets, info)
  else do
    let (diff, sets) ← fixupAuthChainDifferenceSets db room stateSets missing info.chainInfo.keys
    let new := addAll [] (sets.flatten.filter (· ∉ initialEvents))
    pure (diff, sets, fetchChainInfo db info new)

/-! ### Walking the links -/

/-- One state set as a map from chain to highest sequence number. -/
def setChains (info : ChainInfo E) (stateSet : List E) : Option (Dict ℕ ℕ) :=
  stateSet.foldlM
    (fun chains e => (info.chainInfo.get? e).map fun p =>
      chains.set p.1 (max p.2 (chains.getD p.1 0))) Dict.empty

variable (links : Dict ℕ (List ChainEdge))

/-- Walk one state set through one batch of links. -/
def materializeSet (chains : Dict ℕ ℕ) : Dict ℕ ℕ :=
  links.keys.foldl
    (fun chains c =>
      match chains.get? c with
      | none => chains
      | some s => materialize (c, s) links chains true) chains

/-- `_generate_forward_links`. -/
def generateForwardLinks : Dict ℕ (List ChainEdge) :=
  groupLinks (links.entries.flatMap fun p => p.2.map fun x => ⟨x.2.1, x.2.2, p.1, x.1⟩)

/-- `accumulate_forwards_reachable_events`. -/
def accumulateForwardsReachableEvents (forwards : Dict ℕ ℕ) (backLinks : Dict ℕ (List ChainEdge))
    (conflicted : List Pos) : Dict ℕ ℕ :=
  conflicted.foldl
    (fun f p => materialize p (generateForwardLinks backLinks)
      (f.set p.1 (min p.2 (f.getD p.1 maxChainLength))) false) forwards

/-- Backwards reachability from conflicted (or additional) positions. -/
def markBackwards (backwards : Dict ℕ ℕ) (positions : List Pos) : Dict ℕ ℕ :=
  positions.foldl
    (fun b p =>
      -- a position on a chain without links in this batch is skipped
      if p.1 ∉ links.keys then b
      else materialize p links (b.set p.1 (max p.2 (b.getD p.1 0))) true) backwards

/-- The maps built while walking the links. -/
structure Walks where
  setToChain : List (Dict ℕ ℕ)
  seenChains : List ℕ
  forwards : Dict ℕ ℕ
  backwards : Dict ℕ ℕ

/-- One batch of links; `v21` is state resolution v2.1. -/
def Walks.batch (v21 : Bool) (conflicted additional : List Pos) (w : Walks)
    (links : Dict ℕ (List ChainEdge)) : Walks :=
  let sets := w.setToChain.map (materializeSet links)
  { setToChain := sets
    seenChains := sets.foldl (fun seen chains => addAll seen chains.keys) w.seenChains
    forwards :=
      if v21 then accumulateForwardsReachableEvents w.forwards links conflicted else w.forwards
    backwards :=
      if v21 then markBackwards links (markBackwards links w.backwards conflicted) additional
      else w.backwards }

/-! ### Reading off the events -/

/-- Collect the events of chain `c` at the given numbers as long as they are in memory; at the
    first one that is not, note the whole range `gap` to be fetched. -/
def fillRange (chainToEvent : Dict ℕ (Dict ℕ E)) (c : ℕ) (gap : ℕ × ℕ) :
    List ℕ → List E × Dict ℕ (ℕ × ℕ) → List E × Dict ℕ (ℕ × ℕ)
  | [], st => st
  | n :: ns, st =>
    match (chainToEvent.getD c Dict.empty).get? n with
    | some e => fillRange chainToEvent c gap ns (addIf st.1 e, st.2)
    | none => (st.1, st.2.set c gap)

/-- `range(a, b)`. -/
def pyRange (a b : ℕ) : List ℕ := List.range' a (b - a)

/-- The gaps between what all and what some state sets reach. -/
def authGaps (info : ChainInfo E) (w : Walks) (found : List E) : List E × Dict ℕ (ℕ × ℕ) :=
  w.seenChains.foldl
    (fun st c =>
      let minSeqNo := (w.setToChain.map (·.getD c 0)).min?.getD 0
      let maxSeqNo := (w.setToChain.map (·.getD c 0)).max?.getD 0
      if minSeqNo < maxSeqNo then
        fillRange info.chainToEvent c (minSeqNo, maxSeqNo) (pyRange (minSeqNo + 1) (maxSeqNo + 1)) st
      else st) (found, Dict.empty)

/-- The overlaps of what is reachable forwards and backwards. -/
def subgraphGaps (info : ChainInfo E) (w : Walks) : List E × Dict ℕ (ℕ × ℕ) :=
  w.backwards.entries.foldl
    (fun st p =>
      match w.forwards.get? p.1 with
      | none => st
      | some f =>
        if f > p.2 then st
        else fillRange info.chainToEvent p.1 (f - 1, p.2) (pyRange f (p.2 + 1)) st)
    ([], Dict.empty)

/-- `_fetch_event_ids_from_chains_txn`: the lower bound is exclusive. -/
def fetchEventIdsFromChains (chains : Dict ℕ (ℕ × ℕ)) : List E :=
  chains.entries.foldl
    (fun result p => addAll result ((db.chains.filter fun r =>
      r.2.1 = p.1 ∧ p.2.1 < r.2.2 ∧ r.2.2 ≤ p.2.2).map Prod.fst)) []

/-- `StateDifference`. -/
structure StateDifference (E : Type) where
  authDifference : List E
  conflictedSubgraph : List E

/-- The v2.1 arguments have to be members of the state sets. -/
def argumentsValid (initialEvents : List E) (conflictedSet : Option (List E)) (additional : List E) : Bool :=
  match conflictedSet with
  | none => true
  | some conflicted => conflicted.all (· ∈ initialEvents) && additional.all (· ∈ initialEvents)

/-- `_get_auth_chain_difference_using_cover_index_txn`. `order` is the order in which a set of
    chain ids is iterated; no additional events is the same as an empty set of them. -/
def getAuthChainDifferenceUsingCoverIndex (order : List ℕ → List ℕ) (room : R)
    (stateSets : List (List E)) (conflictedSet : Option (List E)) (additional : List E) :
    Except Failure (StateDifference E) :=
  if stateSets = [] then .error .indexError
  else if !argumentsValid (addAll [] stateSets.flatten) conflictedSet additional then
    .error .assertion
  else do
    let (diff, sets, info) ← loadSets db room stateSets
    let v21 := conflictedSet.isSome
    let conflicted ← orKeyError ((conflictedSet.getD []).mapM info.chainInfo.get?)
    let additional ← orKeyError ((if v21 then additional else []).mapM info.chainInfo.get?)
    let setToChain ← orKeyError (sets.mapM (setChains info))
    let w := (getChainLinks db.links (order info.seenChains)).foldl
      (Walks.batch v21 conflicted additional) ⟨setToChain, info.seenChains, Dict.empty, Dict.empty⟩
    let (found, gaps) := authGaps info w diff
    let (subgraph, subgraphGaps) := if v21 then subgraphGaps info w else ([], Dict.empty)
    pure ⟨addAll found (fetchEventIdsFromChains db gaps),
      addAll subgraph (fetchEventIdsFromChains db subgraphGaps)⟩

end Sithnapse.AuthChain
