import Sithnapse.Kit.Runs
import Sithnapse.ForwardIndex.Delta

/-! The forward edge index of one room as a system of processes.

    SQL holds the authoritative `event_edges`, the room's source version, the outbox, the rebuild
    checkpoints and the retired generations; mtxdb holds the room's forward metadata (active
    generation and published source version) and one forward collection per generation. Edge
    transactions, drains, rebuilds and garbage collections of the room interleave at every SQL
    transaction and every mtxdb call; between any two of them a process may fail (its `finally`
    still runs) or crash (nothing of it runs any more, its lock is freed). A process holds the
    worker lock `embedded_edge_index_outbox` in the states `Proc.locked` lists. -/

namespace Sithnapse.ForwardIndex

open Kit Option List

variable {E : Type} [LinearOrder E]

/-! ### Durable state -/

/-- A row of `room_edge_rebuild_checkpoints`. -/
structure Checkpoint where
  rebuildId : ℕ
  lastReplayed : ℕ
  leaseExpiresAt : ℕ
  deriving DecidableEq

/-- What one edge transaction committed: its outbox rows, and `event_edges` after it. -/
structure Commit (E : Type) where
  rows : List (OutboxRow E)
  edges : List (E × E)
  deriving DecidableEq

/-- The durable state of one room. -/
structure Room (E : Type) where
  /-- `event_edges`: event and prev event. -/
  edges : List (E × E)
  /-- `room_edge_source_version`, 0 without a row. -/
  sourceVersion : ℕ
  outbox : List (OutboxRow E)
  checkpoints : List Checkpoint
  /-- `room_edge_retired_generations`: generation and time of retirement. -/
  retired : List (ℕ × ℕ)
  /-- The room's forward metadata: active generation and published source version. -/
  forwardMeta : Option (ℕ × ℕ)
  collections : Dict ℕ (Forward E)
  /-- The commits so far, by source version. No step reads them: they are what statements about
      earlier source versions refer to. -/
  log : List (Commit E)

namespace Room

variable (r : Room E)

/-- `meta if meta is not None else (0, 0)`. -/
def activeMeta : ℕ × ℕ := r.forwardMeta.getD (0, 0)

/-- The generation the metadata points at. -/
def activeGeneration : ℕ := r.activeMeta.1

/-- The publication watermark. -/
def published : ℕ := r.activeMeta.2

/-- The forward collection of a generation, empty when it was never written or was deleted. -/
def collection (generation : ℕ) : Forward E := r.collections.getD generation Dict.empty

/-- Overwrite the collection of a generation. -/
def setCollection (generation : ℕ) (fwd : Forward E) : Room E :=
  { r with collections := r.collections.set generation fwd }

/-- `event_edges` when the source version was `v`. -/
def edgesAt : ℕ → List (E × E)
  | 0 => []
  | v + 1 => (r.log[v]?.map Commit.edges).getD []

/-- All rows the outbox ever received. -/
def logRows : List (OutboxRow E) := r.log.flatMap Commit.rows

end Room

/-! ### SQL transactions -/

/-- A transaction on `event_edges`: events are persisted with their prev events, or purged. -/
inductive EdgeTxn (E : Type)
  | persist (edges : List (E × E))
  | purge (events : List E)
  deriving DecidableEq

namespace EdgeTxn

/-- The edges the outbox is told about: those inserted, or those about to be deleted. -/
def changed (t : EdgeTxn E) (edges : List (E × E)) : List (E × E) :=
  match t with
  | persist new => addAll [] new
  | purge events => addAll [] (edges.filter (·.1 ∈ events))

/-- The `operation` written with them. -/
def operation : EdgeTxn E → Operation
  | persist _ => .insert
  | purge _ => .delete

/-- `event_edges` afterwards. -/
def result (t : EdgeTxn E) (edges : List (E × E)) : List (E × E) :=
  match t with
  | persist new => addAll edges new
  | purge events => edges.filter (·.1 ∉ events)

end EdgeTxn

variable (r : Room E)

/-- One edge transaction of the room: the edges, the bumped source version and the outbox rows commit
    together; nothing is recorded when no edge is concerned. -/
def Room.commit (t : EdgeTxn E) : Room E :=
  match t.changed r.edges with
  | [] => r
  | changed =>
    let version := r.sourceVersion + 1
    let rows := changed.map fun x => ⟨version, x.1, x.2, t.operation⟩
    { r with
      edges := t.result r.edges
      sourceVersion := version
      outbox := r.outbox ++ rows
      log := r.log ++ [⟨rows, t.result r.edges⟩] }

/-- The rows after a version, `LIMIT` of them, with the last source version completed. -/
def outboxBatch (after limit : ℕ) : List (OutboxRow E) :=
  match (ordered (r.outbox.filter (after < ·.sourceVersion))).take limit with
  | [] => []
  | rows => ordered (r.outbox.filter fun row =>
      after < row.sourceVersion ∧ row.sourceVersion ≤ maxVersion rows)

/-- `safe_version` of `_ack_through`: rebuilds with a valid lease hold rows back. -/
def safeVersion (now published : ℕ) : ℕ :=
  match ((r.checkpoints.filter (now ≤ ·.leaseExpiresAt)).map Checkpoint.lastReplayed).min? with
  | none => published
  | some m => min published m

/-- `_ack_through`. -/
def ackThrough (now published : ℕ) : Room E :=
  { r with outbox := r.outbox.filter (safeVersion r now published < ·.sourceVersion) }

/-- `lease_duration_ms`. -/
def leaseDuration : ℕ := 60000

/-- `acquire_rebuild_checkpoint`; the row's key must be new. -/
def acquireCheckpoint (now rebuildId start : ℕ) : Option (Room E) :=
  if r.checkpoints.any (·.rebuildId = rebuildId) then none
  else some { r with checkpoints := r.checkpoints ++ [⟨rebuildId, start, now + leaseDuration⟩] }

/-- `heartbeat_rebuild_checkpoint`; raises when the row is gone. -/
def heartbeatCheckpoint (now rebuildId replayed : ℕ) : Option (Room E) :=
  if r.checkpoints.any (·.rebuildId = rebuildId) then
    some { r with checkpoints := r.checkpoints.map fun c =>
      if c.rebuildId = rebuildId then ⟨rebuildId, max c.lastReplayed replayed, now + leaseDuration⟩
      else c }
  else none

/-- `release_rebuild_checkpoint`. -/
def releaseCheckpoint (rebuildId : ℕ) : Room E :=
  { r with checkpoints := r.checkpoints.filter (·.rebuildId ≠ rebuildId) }

/-- `enqueue_retired_generation`. -/
def enqueueRetired (now generation : ℕ) : Room E :=
  if r.retired.any (·.1 = generation) then r
  else { r with retired := r.retired ++ [(generation, now)] }

/-- The candidates of `gc_retired_forward_generations`, oldest first. -/
def gcCandidates (now grace limit : ℕ) : List ℕ :=
  (((r.retired.filter fun p => p.2 + grace ≤ now).insertionSort (·.2 ≤ ·.2)).take limit).map Prod.fst

/-- `_parent_batch`: the next parents in order after the cursor. -/
def parentBatch (lastPrev : Option E) (limit : ℕ) : List E :=
  ((((r.edges.map Prod.snd).filter fun p => ∀ c ∈ lastPrev, c < p).dedup).insertionSort (· ≤ ·)).take limit

/-- `_edge_batch`: parent and child of every edge whose parent is in the range. -/
def edgeBatch (first last : E) : List (E × E) :=
  ((r.edges.filter fun x => first ≤ x.2 ∧ x.2 ≤ last).map Prod.swap).insertionSort
    (fun a b => toLex a ≤ toLex b)

/-- `event_edges_get_forward_gated`: a read of one mtxdb snapshot. -/
inductive GatedRead (E : Type)
  | versionMismatch (published expected : ℕ)
  | hit (rows : List (E × Option (List E)))

/-- `event_edges_get_forward_gated`. -/
def getForwardGated (expected : ℕ) (prevEventIds : List E) : GatedRead E :=
  match r.forwardMeta with
  | none => .versionMismatch 0 expected
  | some (generation, published) =>
    if published ≠ expected then .versionMismatch published expected
    else .hit (prevEventIds.map fun p => (p, (r.collection generation).get? p))

/-! ### Processes -/

/-- The arguments of a `rebuild_room_forward_index` call, and the id it registers under. -/
structure RebuildCall where
  rebuildId : ℕ
  batchSize : ℕ
  deriving DecidableEq

/-- A rebuild after its first critical section. -/
structure Rebuild extends RebuildCall where
  activeGeneration : ℕ
  startVersion : ℕ
  deriving DecidableEq

/-- `target_generation`. -/
def Rebuild.target (c : Rebuild) : ℕ := c.activeGeneration + 1

/-- What a process is about to do, with its local variables. -/
inductive Proc (E : Type)
  | idle
  | drainStart (limit : ℕ)
  | drainWait (limit : ℕ)
  | drainLocked (limit : ℕ)
  | drainRows (limit generation published : ℕ)
  | drainApply (generation : ℕ) (rows : List (OutboxRow E))
  | drainAck (version : ℕ)
  | rebuildWait (call : RebuildCall)
  | rebuildLocked (call : RebuildCall)
  | rebuildAcquire (call : RebuildCall) (active : ℕ)
  | rebuildVersion (call : RebuildCall) (active : ℕ)
  | rebuildFirstBeat (c : Rebuild)
  | rebuildReset (c : Rebuild)
  | rebuildParents (c : Rebuild) (lastPrev : Option E)
  | rebuildEdges (c : Rebuild) (first last : E)
  | rebuildBuild (c : Rebuild) (last : E) (grouped : Dict E (List E))
  | rebuildReplay (c : Rebuild) (lastReplayed : ℕ)
  | rebuildDelta (c : Rebuild) (rows : List (OutboxRow E))
  | rebuildBeat (c : Rebuild) (lastReplayed : ℕ)
  | rebuildFinish (c : Rebuild) (lastReplayed : ℕ)
  | rebuildFinal (c : Rebuild) (lastReplayed : ℕ)
  | rebuildFinalDelta (c : Rebuild) (finalVersion : ℕ) (rows : List (OutboxRow E))
  | rebuildSwap (c : Rebuild) (finalVersion : ℕ)
  | rebuildRetire (c : Rebuild)
  | rebuildRelease (rebuildId : ℕ) (held : Bool)
  | gcStart (grace limit : ℕ)
  | gcNext (candidates : List ℕ)
  | gcLocked (generation : ℕ) (rest : List ℕ)
  | gcDrop (generation : ℕ) (rest : List ℕ)
  | gcAck (generation : ℕ) (rest : List ℕ)

namespace Proc

/-- The states in which a process holds the room lock. -/
def locked : Proc E → Bool
  | drainLocked _ | drainRows _ _ _ | drainApply _ _ | drainAck _ => true
  | rebuildLocked _ | rebuildAcquire _ _ | rebuildVersion _ _ | rebuildFirstBeat _ => true
  | rebuildFinal _ _ | rebuildFinalDelta _ _ _ | rebuildSwap _ _ | rebuildRetire _ => true
  | rebuildRelease _ held => held
  | gcLocked _ _ | gcDrop _ _ | gcAck _ _ => true
  | _ => false

/-- One SQL transaction or mtxdb call of a process, or its taking of the lock: the room and the
    process after it. `none` where there is nothing to do or the call raises. -/
def advance (r : Room E) (now : ℕ) : Proc E → Option (Room E × Proc E)
  | idle => none
  | drainStart limit => some (r, if r.outbox = [] then idle else drainWait limit)
  | drainWait limit => some (r, drainLocked limit)
  | drainLocked limit => some (r, drainRows limit r.activeMeta.1 r.activeMeta.2)
  | drainRows limit generation published =>
    match outboxBatch r published limit with
    | [] => some (r, drainAck published)
    | rows => some (r, drainApply generation rows)
  | drainApply generation rows =>
    -- the delta and the watermark are one mtxdb transaction
    some ({ r.setCollection generation (applyForwardDelta (r.collection generation) rows) with
      forwardMeta := some (generation, maxVersion rows) }, drainAck (maxVersion rows))
  | drainAck version => some (ackThrough r now version, idle)
  | rebuildWait call => some (r, rebuildLocked call)
  | rebuildLocked call => some (r, rebuildAcquire call r.activeMeta.1)
  | rebuildAcquire call active =>
    (acquireCheckpoint r now call.rebuildId 0).map (·, rebuildVersion call active)
  | rebuildVersion call active => some (r, rebuildFirstBeat ⟨call, active, r.sourceVersion⟩)
  | rebuildFirstBeat c =>
    (heartbeatCheckpoint r now c.rebuildId c.startVersion).map (·, rebuildReset c)
  | rebuildReset c => some (r.setCollection c.target Dict.empty, rebuildParents c none)
  | rebuildParents c lastPrev =>
    match parentBatch r lastPrev c.batchSize with
    | [] => some (r, rebuildReplay c c.startVersion)
    | first :: rest => some (r, rebuildEdges c first (rest.getLastD first))
  | rebuildEdges c first last => some (r, rebuildBuild c last (Dict.group (edgeBatch r first last)))
  | rebuildBuild c last grouped =>
    some (r.setCollection c.target (buildGenerationBatch (r.collection c.target) grouped.entries),
      rebuildParents c (some last))
  | rebuildReplay c lastReplayed =>
    match outboxBatch r lastReplayed c.batchSize with
    | [] => some (r, rebuildFinish c lastReplayed)
    | rows => some (r, rebuildDelta c rows)
  | rebuildDelta c rows =>
    some (r.setCollection c.target (applyForwardDelta (r.collection c.target) rows),
      rebuildBeat c (maxVersion rows))
  | rebuildBeat c lastReplayed =>
    (heartbeatCheckpoint r now c.rebuildId lastReplayed).map (·, rebuildReplay c lastReplayed)
  | rebuildFinish c lastReplayed => some (r, rebuildFinal c lastReplayed)
  | rebuildFinal c lastReplayed =>
    some (r, rebuildFinalDelta c r.sourceVersion (ordered (r.outbox.filter (lastReplayed < ·.sourceVersion))))
  | rebuildFinalDelta c finalVersion rows =>
    some (if rows = [] then r
      else r.setCollection c.target (applyForwardDelta (r.collection c.target) rows),
      rebuildSwap c finalVersion)
  | rebuildSwap c finalVersion =>
    some ({ r with forwardMeta := some (c.target, finalVersion) }, rebuildRetire c)
  | rebuildRetire c =>
    some (enqueueRetired r now c.activeGeneration, rebuildRelease c.rebuildId false)
  | rebuildRelease rebuildId _ => some (releaseCheckpoint r rebuildId, idle)
  | gcStart grace limit => some (r, gcNext (gcCandidates r now grace limit))
  | gcNext [] => some (r, idle)
  | gcNext (generation :: rest) => some (r, gcLocked generation rest)
  | gcLocked generation rest =>
    match r.forwardMeta with
    | none => some (r, gcNext rest)
    | some (active, _) =>
      some (r, if active ≤ generation then gcNext rest else gcDrop generation rest)
  | gcDrop generation rest => some (r.setCollection generation Dict.empty, gcAck generation rest)
  | gcAck generation rest =>
    some ({ r with retired := r.retired.filter (·.1 ≠ generation) }, gcNext rest)

/-- Where a raised exception leaves a process: the lock is freed on the way out, and a rebuild still
    releases its checkpoint. -/
def raised : Proc E → Proc E
  | rebuildVersion call _ => rebuildRelease call.rebuildId true
  | rebuildFirstBeat c => rebuildRelease c.rebuildId true
  | rebuildReset c | rebuildParents c _ | rebuildEdges c _ _ | rebuildBuild c _ _ =>
    rebuildRelease c.rebuildId false
  | rebuildReplay c _ | rebuildDelta c _ | rebuildBeat c _ | rebuildFinish c _ =>
    rebuildRelease c.rebuildId false
  | rebuildFinal c _ | rebuildFinalDelta c _ _ | rebuildSwap c _ | rebuildRetire c =>
    rebuildRelease c.rebuildId false
  | _ => idle

end Proc

/-! ### The system -/

/-- The calls a process can make. -/
inductive Call
  | drain (limit : ℕ)
  | rebuild (call : RebuildCall)
  | gc (grace limit : ℕ)
  deriving DecidableEq

/-- A call's first state; a limit or batch size that is not positive returns or raises at once. -/
def Call.enter : Call → Proc E
  | drain limit => if limit = 0 then .idle else .drainStart limit
  | rebuild call => if call.batchSize = 0 then .idle else .rebuildWait call
  | gc grace limit => .gcStart grace limit

/-- A room, the clock and the processes at work on the room. -/
structure Sys (E : Type) where
  room : Room E
  now : ℕ
  procs : List (Proc E)

/-- What can happen next. -/
inductive Action (E : Type)
  | edgeTxn (t : EdgeTxn E)
  | clock (now : ℕ)
  | call (i : ℕ) (c : Call)
  | advance (i : ℕ)
  | raise (i : ℕ)
  | crash (i : ℕ)

/-- No process holds the room lock. -/
def Sys.unlocked (s : Sys E) : Prop := ∀ p ∈ s.procs, p.locked = false
  deriving Decidable

/-- One step of the system. A process takes the lock only when nobody holds it. -/
def step (s : Sys E) : Action E → Option (Sys E)
  | .edgeTxn t => some { s with room := s.room.commit t }
  | .clock now => some { s with now := now }
  | .call i c =>
    match s.procs[i]? with
    | some .idle => some { s with procs := s.procs.set i c.enter }
    | _ => none
  | .advance i =>
    match s.procs[i]? with
    | none => none
    | some p =>
      match p.advance s.room s.now with
      | none => none
      | some (room, p') =>
        if p'.locked = true ∧ p.locked = false ∧ ¬ s.unlocked then none
        else some { s with room := room, procs := s.procs.set i p' }
  | .raise i =>
    match s.procs[i]? with
    | none => none
    | some p => some { s with procs := s.procs.set i p.raised }
  | .crash i =>
    match s.procs[i]? with
    | none => none
    | some _ => some { s with procs := s.procs.set i .idle }

/-- A room that has no edges yet and was never indexed. -/
def emptyRoom (checkpoints : List Checkpoint) : Room E :=
  ⟨[], 0, [], checkpoints, [], none, Dict.empty, []⟩

/-! ### What a step can do -/

/-- The steps of the system, one constructor per action. -/
inductive Moved (s : Sys E) : Action E → Sys E → Prop
  | edgeTxn (t : EdgeTxn E) : Moved s (.edgeTxn t) { s with room := s.room.commit t }
  | clock (now : ℕ) : Moved s (.clock now) { s with now := now }
  | call {i : ℕ} (c : Call) (hp : s.procs[i]? = some .idle) :
      Moved s (.call i c) { s with procs := s.procs.set i c.enter }
  | advance {i : ℕ} {p p' : Proc E} {room : Room E} (hp : s.procs[i]? = some p)
      (hadv : p.advance s.room s.now = some (room, p'))
      (hlock : p'.locked = true → p.locked = false → s.unlocked) :
      Moved s (.advance i) { s with room := room, procs := s.procs.set i p' }
  | raise {i : ℕ} {p : Proc E} (hp : s.procs[i]? = some p) :
      Moved s (.raise i) { s with procs := s.procs.set i p.raised }
  | crash {i : ℕ} {p : Proc E} (hp : s.procs[i]? = some p) :
      Moved s (.crash i) { s with procs := s.procs.set i .idle }

theorem moved_of_step {s s' : Sys E} {a : Action E} (h : step s a = some s') : Moved s a s' := by
  cases a with
  | edgeTxn t =>
    rw [step, some.injEq] at h
    exact h ▸ .edgeTxn t
  | clock now =>
    rw [step, some.injEq] at h
    exact h ▸ .clock now
  | call i c =>
    rw [step] at h
    split at h
    · rename_i hp
      rw [some.injEq] at h
      exact h ▸ .call c hp
    · cases h
  | advance i =>
    rw [step] at h
    split at h
    · cases h
    · rename_i p hp
      split at h
      · cases h
      · rename_i room p' hadv
        split at h
        · cases h
        · rename_i hlock
          rw [some.injEq] at h
          refine h ▸ .advance hp hadv fun h₁ h₂ => ?_
          by_contra hc
          exact hlock ⟨h₁, h₂, hc⟩
  | raise i =>
    rw [step] at h
    split at h
    · cases h
    · rename_i p hp
      rw [some.injEq] at h
      exact h ▸ .raise hp
  | crash i =>
    rw [step] at h
    split at h
    · cases h
    · rename_i p hp
      rw [some.injEq] at h
      exact h ▸ .crash hp

/-- The generation whose collection the next step of a rebuild or a garbage collection resets, writes
    or drops. -/
def Proc.overwrites : Proc E → Option ℕ
  | .rebuildReset c | .rebuildBuild c _ _ | .rebuildDelta c _ | .rebuildFinalDelta c _ _ =>
    some c.target
  | .gcDrop generation _ => some generation
  | _ => none

/-- The steps that write the checkpoint table. -/
def Proc.checkpoints : Proc E → Bool
  | .rebuildAcquire _ _ | .rebuildFirstBeat _ | .rebuildBeat _ _ | .rebuildRelease _ _ => true
  | _ => false

/-- What the step of a process does to the room. -/
inductive Effect (r : Room E) (now : ℕ) : Proc E → Room E → Prop
  | none {p : Proc E} : Effect r now p r
  | publish (generation : ℕ) (rows : List (OutboxRow E)) :
      Effect r now (.drainApply generation rows)
        { r.setCollection generation (applyForwardDelta (r.collection generation) rows) with
          forwardMeta := some (generation, maxVersion rows) }
  | ack (version : ℕ) : Effect r now (.drainAck version) (ackThrough r now version)
  | checkpoints {p : Proc E} (l : List Checkpoint) (hp : p.checkpoints = true) :
      Effect r now p { r with checkpoints := l }
  | overwrite {p : Proc E} {generation : ℕ} (fwd : Forward E) (hp : p.overwrites = some generation) :
      Effect r now p (r.setCollection generation fwd)
  | swap (c : Rebuild) (finalVersion : ℕ) :
      Effect r now (.rebuildSwap c finalVersion) { r with forwardMeta := some (c.target, finalVersion) }
  | retired {p : Proc E} (l : List (ℕ × ℕ)) : Effect r now p { r with retired := l }

theorem effect_of_advance {r r' : Room E} {now : ℕ} {p p' : Proc E}
    (h : p.advance r now = some (r', p')) : Effect r now p r' := by
  cases p with
  | drainRows | rebuildParents | rebuildReplay | gcLocked =>
    rw [Proc.advance] at h
    split at h <;> (obtain ⟨rfl, -⟩ := some_pair_inj h; exact .none)
  | drainApply generation rows =>
    cases h
    exact .publish generation rows
  | drainAck version =>
    cases h
    exact .ack version
  | rebuildAcquire call active =>
    obtain ⟨r₁, hr₁, he⟩ := map_eq_some_iff.mp h
    obtain ⟨rfl, -⟩ := Prod.mk.inj he
    rw [acquireCheckpoint] at hr₁
    split at hr₁
    · cases hr₁
    · rw [← some.inj hr₁]
      exact .checkpoints _ rfl
  | rebuildFirstBeat | rebuildBeat =>
    obtain ⟨r₁, hr₁, he⟩ := map_eq_some_iff.mp h
    obtain ⟨rfl, -⟩ := Prod.mk.inj he
    rw [heartbeatCheckpoint] at hr₁
    split at hr₁
    · rw [← some.inj hr₁]
      exact .checkpoints _ rfl
    · cases hr₁
  | rebuildFinalDelta c finalVersion rows =>
    cases h
    split
    · exact .none
    · exact .overwrite _ rfl
  | rebuildSwap c finalVersion =>
    cases h
    exact .swap c finalVersion
  | rebuildRetire c =>
    cases h
    rw [enqueueRetired]
    split
    · exact .none
    · exact .retired _
  | rebuildRelease =>
    cases h
    exact .checkpoints _ rfl
  | gcNext candidates =>
    cases candidates <;> (obtain ⟨rfl, -⟩ := some_pair_inj h; exact .none)
  | gcAck generation rest =>
    cases h
    exact .retired _
  | rebuildReset | rebuildBuild | rebuildDelta | gcDrop =>
    cases h
    exact .overwrite _ rfl
  | idle => exact absurd h (by simp [Proc.advance])
  | _ =>
    cases h
    exact .none

omit [LinearOrder E] in
@[simp] theorem locked_enter (c : Call) : (c.enter : Proc E).locked = false := by
  cases c with
  | drain limit => rw [Call.enter]; split <;> rfl
  | rebuild call => rw [Call.enter]; split <;> rfl
  | gc grace limit => rfl

omit [LinearOrder E] in
theorem locked_of_raised {p : Proc E} (h : p.raised.locked = true) : p.locked = true := by
  cases p <;> simp_all [Proc.raised, Proc.locked]

/-- At most one process holds the room lock. -/
def Exclusive (procs : List (Proc E)) : Prop :=
  ∀ (i j : ℕ) (p q : Proc E), procs[i]? = some p → procs[j]? = some q →
    p.locked = true → q.locked = true → i = j

omit [LinearOrder E] in
/-- A process of the list after one of them changed. -/
theorem getElem?_set_cases {procs : List (Proc E)} {i j : ℕ} {p' q : Proc E}
    (h : (procs.set i p')[j]? = some q) : (j = i ∧ q = p') ∨ (j ≠ i ∧ procs[j]? = some q) := by
  rcases eq_or_ne j i with rfl | hji
  · rw [getElem?_set_self'] at h
    cases hj : procs[j]? with
    | none => simp [hj] at h
    | some w => exact Or.inl ⟨rfl, by simpa [hj] using h.symm⟩
  · rw [getElem?_set_ne (Ne.symm hji)] at h
    exact Or.inr ⟨hji, h⟩

omit [LinearOrder E] in
theorem Exclusive.set {procs : List (Proc E)} {i : ℕ} {p' : Proc E} (h : Exclusive procs)
    (hp' : p'.locked = true → ∀ j q, procs[j]? = some q → q.locked = true → j = i) :
    Exclusive (procs.set i p') := by
  intro j k p q hj hk hpl hql
  rcases getElem?_set_cases hj with ⟨rfl, rfl⟩ | ⟨-, hj'⟩ <;>
    rcases getElem?_set_cases hk with ⟨rfl, rfl⟩ | ⟨-, hk'⟩
  · rfl
  · exact (hp' hpl k q hk' hql).symm
  · exact hp' hql j p hj' hpl
  · exact h j k p q hj' hk' hpl hql

/-- The lock is exclusive along every run. -/
theorem exclusive_of_moved {s s' : Sys E} {a : Action E} (h : Exclusive s.procs) (hm : Moved s a s') :
    Exclusive s'.procs := by
  cases hm with
  | edgeTxn t => exact h
  | clock now => exact h
  | call c hp => exact h.set fun hl => absurd hl (by simp)
  | @advance i p p' room hp hadv hlock =>
    refine h.set fun hl j q hq hql => ?_
    cases hpl : p.locked with
    | true => exact h j i q p hq hp hql hpl
    | false => exact absurd (hlock hl hpl q (mem_of_getElem? hq)) (by simp [hql])
  | @raise i p hp => exact h.set fun hl j q hq hql => h j i q p hq hp hql (locked_of_raised hl)
  | crash hp => exact h.set fun hl => absurd hl (by simp [Proc.locked])

/-- What makes a room invariant `R` and a process invariant `P` hold along runs: the transactions and
    a process's own steps keep them, and a process's step keeps the invariants of the others, of which
    none holds the lock while it does. -/
structure ProcInvariant (ok : Sys E → Action E → Prop) (R : Room E → Prop)
    (P : ℕ → Room E → Proc E → Prop) : Prop where
  commit : ∀ {r : Room E} {t : EdgeTxn E}, R r → R (r.commit t)
  commit_proc : ∀ {r : Room E} {t : EdgeTxn E} {i : ℕ} {p : Proc E}, R r → P i r p → P i (r.commit t) p
  idle : ∀ {i : ℕ} {r : Room E}, P i r .idle
  enter : ∀ {s : Sys E} {i : ℕ} {c : Call}, ok s (.call i c) → P i s.room c.enter
  raised : ∀ {i : ℕ} {r : Room E} {p : Proc E}, P i r p → P i r p.raised
  advance : ∀ {s : Sys E} {i : ℕ} {p p' : Proc E} {r' : Room E}, ok s (.advance i) →
    s.procs[i]? = some p → R s.room → P i s.room p → p.advance s.room s.now = some (r', p') →
    R r' ∧ P i r' p'
  frame : ∀ {s : Sys E} {i j : ℕ} {p p' q : Proc E} {r' : Room E}, ok s (.advance i) →
    s.procs[i]? = some p → j ≠ i → (p.locked = true → q.locked = false) → R s.room →
    P i s.room p → P j s.room q → p.advance s.room s.now = some (r', p') → P j r' q

/-- A state that meets a room invariant and a process invariant. -/
structure Meets (R : Room E → Prop) (P : ℕ → Room E → Proc E → Prop) (s : Sys E) : Prop where
  room : R s.room
  procs : ∀ i p, s.procs[i]? = some p → P i s.room p
  lock : Exclusive s.procs

variable {ok : Sys E → Action E → Prop} {R : Room E → Prop} {P : ℕ → Room E → Proc E → Prop}
  {s s' : Sys E} {a : Action E}

omit [LinearOrder E] in
theorem idle_of_replicate {n i : ℕ} {p : Proc E} (hp : (replicate n Proc.idle)[i]? = some p) : p = .idle :=
  eq_of_mem_replicate (mem_of_getElem? hp)

/-- While no call is under way the room's invariant is enough. -/
theorem ProcInvariant.start (h : ProcInvariant ok R P) {r : Room E} (hr : R r) (now processes : ℕ) :
    Meets R P ⟨r, now, replicate processes .idle⟩ := by
  refine ⟨hr, fun i p hp => ?_, fun i j p q hp _ hpl _ => ?_⟩
  · rw [idle_of_replicate hp]
    exact h.idle
  · rw [idle_of_replicate hp] at hpl
    exact absurd hpl (by simp [Proc.locked])

theorem ProcInvariant.step (h : ProcInvariant ok R P) (hs : Meets R P s) (hok : ok s a)
    (hm : Moved s a s') : Meets R P s' := by
  have hlock := exclusive_of_moved hs.lock hm
  have hset : ∀ {i : ℕ} {p : Proc E}, P i s.room p → ∀ j q, (s.procs.set i p)[j]? = some q → P j s.room q := by
    intro i p hp j q hq
    rcases getElem?_set_cases hq with ⟨rfl, rfl⟩ | ⟨-, hq⟩
    · exact hp
    · exact hs.procs j q hq
  cases hm with
  | edgeTxn t => exact ⟨h.commit hs.room, fun i p hp => h.commit_proc hs.room (hs.procs i p hp), hlock⟩
  | clock now => exact ⟨hs.room, hs.procs, hlock⟩
  | call c hp => exact ⟨hs.room, hset (h.enter (s := s) hok), hlock⟩
  | @advance i p p' room hp hadv _ =>
    obtain ⟨hroom, hp'⟩ := h.advance hok hp hs.room (hs.procs i p hp) hadv
    refine ⟨hroom, fun j q hq => ?_, hlock⟩
    rcases getElem?_set_cases hq with ⟨rfl, rfl⟩ | ⟨hji, hq⟩
    · exact hp'
    · refine h.frame hok hp hji (fun hpl => ?_) hs.room (hs.procs i p hp) (hs.procs j q hq) hadv
      cases hql : q.locked with
      | false => rfl
      | true => exact absurd (hs.lock j i q p hq hp hql hpl) hji
  | @raise i p hp => exact ⟨hs.room, hset (h.raised (hs.procs i p hp)), hlock⟩
  | crash hp => exact ⟨hs.room, hset h.idle, hlock⟩

theorem ProcInvariant.run (h : ProcInvariant ok R P) {s₀ : Sys E} (h₀ : Meets R P s₀)
    (hrun : Run ForwardIndex.step ok s₀ s) : Meets R P s :=
  hrun.invariant h₀ fun hs hok hst => h.step hs hok (moved_of_step hst)

end Sithnapse.ForwardIndex
