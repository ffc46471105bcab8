import Sithnapse.Kit.Pool
import Sithnapse.AuthChain.Closures

/-! `ClosureCache` calls beside a purge of the room.

    A call samples the room's generation once and keys all its cache entries by it, while it reads and
    writes the embedded store one operation at a time. A purge first bumps the generation and then
    deletes the store, after which short ids are given out again from 1. -/

namespace Sithnapse.ClosureCalls

open Kit Kit.Chain AuthChain
open Kit.Dict (empty)

variable {ι E : Type} [DecidableEq ι] [LinearOrder E]

/-- One room: its store, the generation and the cache entries of the process, and the SQL tables. The
    last three fields are for reasoning only: the purges that have bumped the generation and not yet
    deleted the store, the number of deletions so far, and that number for each generation sampled. -/
structure Room (ι E : Type) where
  store : ShortStore E
  generation : ℕ
  cache : ClosureCache ℕ
  tables : AuthTables E
  purging : Finset ι
  purges : ℕ
  epoch : ℕ → Option ℕ

/-- Nothing stored. -/
def Room.fresh (t : AuthTables E) : Room ι E :=
  ⟨⟨0, empty, empty, empty⟩, 0, [], t, ∅, 0, fun _ => none⟩

/-- Operations on the cache, the store and the tables. -/
inductive Op (ι E : Type)
  /-- `_room_generation`. -/
  | generation
  | cacheGet (generation k : ℕ)
  | cachePut (generation k : ℕ) (bitmap : List ℕ)
  | edgesGet (k : ℕ)
  /-- `resolve_short_ids_to_event_ids`. -/
  | resolve (k : ℕ)
  /-- `_fetch_auth_event_ids_from_sql`, for the event of `k`. -/
  | authRows (k : ℕ) (e : E)
  /-- `get_or_create_short_ids`, on the way to the edge list of `target` if there is one. -/
  | shortIds (target : Option ℕ) (events : List E)
  | edgesPut (k : ℕ) (ids : List ℕ)
  | bump (i : ι)
  | purge (i : ι)
  /-- Entries dropped from the cache for those of other rooms. -/
  | evict (keep : ℕ × ℕ → Bool)
  /-- Transactions that change the tables. -/
  | sql (t : AuthTables E)

/-- The operation is on the way from an event to its edge list. -/
def Op.importing : Op ι E → Bool
  | .authRows _ _ => true
  | .shortIds target _ => target.isSome
  | .edgesPut _ _ => true
  | _ => false

/-- The operation samples the generation. -/
def Op.samples : Op ι E → Bool
  | .generation => true
  | _ => false

/-- The operation deletes the store. -/
def Op.deletes : Op ι E → Bool
  | .purge _ => true
  | _ => false

/-- The operation changes the tables. -/
def Op.changesTables : Op ι E → Bool
  | .sql _ => true
  | _ => false

/-- What an operation returns. -/
abbrev Reply : Op ι E → Type
  | .generation => ℕ
  | .cacheGet _ _ => Option (List ℕ)
  | .edgesGet _ => Option (List ℕ)
  | .resolve _ => Option E
  | .authRows _ _ => Option (List E)
  | .shortIds _ _ => Except Failure (List ℕ)
  | _ => Unit

/-- One operation. -/
def exec (maxSize : ℕ) : (o : Op ι E) → Unit → Room ι E → Option (Reply o × Room ι E)
  | .generation, _, s =>
    some (s.generation, { s with epoch := Function.update s.epoch s.generation (some s.purges) })
  | .cacheGet g k, _, s => some ((s.cache.get (g, k)).1, { s with cache := (s.cache.get (g, k)).2 })
  | .cachePut g k v, _, s => some ((), { s with cache := s.cache.put maxSize (g, k) v })
  | .edgesGet k, _, s => some (s.store.edges.get? k, s)
  | .resolve k, _, s => some (s.store.reverse.get? k, s)
  | .authRows _ e, _, s => some (fetchAuthEventIds s.tables e, s)
  | .shortIds _ events, _, s =>
    match getOrCreateShortIds s.store events with
    | .ok (ids, store) => some (.ok ids, { s with store := store })
    -- the events before the one that got none keep their short ids; a call for them alone does that
    | .error e => some (.error e, s)
  | .edgesPut k ids, _, s =>
    some ((), { s with store := { s.store with edges := s.store.edges.set k ids } })
  | .bump i, _, s => some ((), { s with generation := s.generation + 1, purging := insert i s.purging })
  | .purge i, _, s =>
    some ((), { s with store := ⟨0, empty, empty, empty⟩
                       purging := s.purging.erase i
                       purges := s.purges + 1 })
  | .evict keep, _, s => some ((), { s with cache := s.cache.filter (keep ·.1) })
  | .sql t, _, s => some ((), { s with tables := t })

/-! ### Calls -/

abbrev CallProg (ι E : Type) := Prog.Try (Op ι E) Reply Failure

def perform (o : Op ι E) : CallProg ι E (Reply o) := ExceptT.lift (.perform o)

/-- Short ids for the auth events of `k`, and its edge list. -/
def importEdges (k : ℕ) (authEvents : List E) : CallProg ι E (Option (List ℕ)) := do
  match ← perform (.shortIds (some k) authEvents) with
  | .error e => throw e
  | .ok ids =>
    perform (.edgesPut k ids)
    pure (some ids)

/-- `_fetch_direct_edges`. -/
def fetchDirectEdges (k : ℕ) : CallProg ι E (Option (List ℕ)) := do
  match ← perform (.edgesGet k) with
  | some (a :: as) => pure (some (a :: as))
  | some [] =>
    -- an empty record may have been written before the event's auth rows were committed
    match ← perform (.resolve k) with
    | none => pure (some [])
    | some e =>
      match ← perform (.authRows k e) with
      | some (a :: as) => importEdges k (a :: as)
      | _ => pure (some [])
  | none =>
    match ← perform (.resolve k) with
    | none => pure none
    | some e =>
      match ← perform (.authRows k e) with
      | none => pure none
      | some authEvents => importEdges k authEvents

/-- What a walk found so far in this call. -/
abbrev Memo := Dict ℕ (List ℕ × Bool)

/-- The loop over the auth events of a walk. -/
def walkAuths (walk : Memo → ℕ → CallProg ι E ((List ℕ × Bool) × Memo)) :
    List ℕ → List ℕ × Bool × Memo → CallProg ι E (List ℕ × Bool × Memo)
  | [], acc => pure acc
  | a :: auths, (bitmap, complete, memo) => do
    let ((childBitmap, childComplete), memo) ← walk memo a
    walkAuths walk auths (addAll (addIf bitmap a) childBitmap, complete && childComplete, memo)

/-- `_walk`, with at most `limit` nested calls. -/
def walk (generation : ℕ) : ℕ → Memo → ℕ → CallProg ι E ((List ℕ × Bool) × Memo)
  | 0, _, _ => throw .recursionLimit
  | limit + 1, memo, k =>
    match memo.get? k with
    | some result => pure (result, memo)
    | none => do
      match ← perform (.cacheGet generation k) with
      | some cached => pure ((cached, true), memo.set k (cached, true))
      | none =>
        match ← fetchDirectEdges k with
        | none => pure (([], false), memo.set k ([], false))
        | some auths =>
          let (bitmap, complete, memo) ← walkAuths (walk generation limit) auths ([], true, memo)
          pure ((bitmap, complete), memo.set k (bitmap, complete))

/-- One event of `get_closure` and `get_closures_batch`. -/
def closureOf (generation limit : ℕ) (memo : Memo) (k : ℕ) : CallProg ι E (List ℕ × Memo) := do
  match ← perform (.cacheGet generation k) with
  | some cached => pure (cached, memo)
  | none =>
    let ((bitmap, complete), memo) ← walk generation limit memo k
    if !complete then throw .incompleteAuthGraph
    else
      perform (.cachePut generation k bitmap)
      pure (bitmap, memo)

/-- The loop of `get_closures_batch`. -/
def closuresLoop (generation limit : ℕ) : List ℕ → Memo → Dict ℕ (List ℕ) → CallProg ι E (Dict ℕ (List ℕ))
  | [], _, out => pure out
  | k :: ks, memo, out => do
    let (bitmap, memo) ← closureOf generation limit memo k
    closuresLoop generation limit ks memo (out.set k bitmap)

/-- Calls on a room. -/
inductive Call (E : Type)
  /-- `get_closure`. -/
  | closure (k : ℕ)
  /-- `get_closures_batch`. -/
  | closures (ks : List ℕ)
  /-- `get_or_create_short_ids`. -/
  | shortIds (events : List E)
  /-- `bump_room_generation` and `purge_room`. -/
  | purge
  | evict (keep : ℕ × ℕ → Bool)
  | sql (t : AuthTables E)

/-- What a call does; the closures it returns, by short id. -/
def program (limit : ℕ) (i : ι) : Call E → CallProg ι E (Dict ℕ (List ℕ))
  | .closure k => do
    let generation ← perform .generation
    let (bitmap, _) ← closureOf generation limit empty k
    pure (empty.set k bitmap)
  | .closures ks => do
    let generation ← perform .generation
    closuresLoop generation limit ks empty empty
  | .shortIds events => do
    match ← perform (.shortIds none events) with
    | .error e => throw e
    | .ok _ => pure empty
  | .purge => do
    perform (.bump i)
    perform (.purge i)
    pure empty
  | .evict keep => do
    perform (.evict keep)
    pure empty
  | .sql t => do
    perform (.sql t)
    pure empty

/-- A purge that fails is no longer under way. -/
def release (i : ι) (s : Room ι E) : Room ι E := { s with purging := s.purging.erase i }

abbrev System (ι E : Type) :=
  Pool ι (Room ι E) (Call E) (Op ι E) Reply (Except Failure (Dict ℕ (List ℕ)))

/-- One action of a system. -/
abbrev step (maxSize limit : ℕ) (pool : System ι E) (a : Act ι Unit (Call E)) : Option (System ι E) :=
  Pool.step (exec maxSize) (program limit) release pool a

end Sithnapse.ClosureCalls
