import Sithnapse.Kit.Locks
import Sithnapse.EdgeStore.Queue
import Sithnapse.EdgeStore.Coalescer

/-! Locks of the edge-write path.

    The queues of edge writes have one flush lock for each namespace, one lock for the dictionary of the
    queues, and one that guards the dictionary of the flush locks. The functions of the queue and those of
    the coalescer call each other: a flush marks pools and, with `sync`, ends with a barrier; the barrier
    drains all queues first. Locks are taken in the order flush lock, queues' lock, guard, by all calls but
    one: a flush with `sync` that has written rows holds its flush lock at the barrier, and the drain waits
    for it. -/

namespace Sithnapse.EdgeLocks

open Kit Coalescer EdgeStore Option Function Set List

variable {ι R : Type}

/-! ### Locks and queues -/

inductive Lock
  /-- `_edge_write_flush_locks[namespace]`. -/
  | flush (ns : String)
  /-- `_edge_write_queues_lock`. -/
  | queues
  /-- `_edge_write_flush_locks_guard`. -/
  | guard
  deriving DecidableEq

/-- Who owns the locks, the queue and tombstones of each namespace, and the keys of
    `_edge_write_queues` in their order. -/
structure Queues (ι R : Type) where
  owner : Lock → Option ι
  spaces : String → EdgeQueue.Shared ι R
  keys : List String

/-- Nothing queued, no lock owned. -/
def Queues.empty : Queues ι R := ⟨fun _ => none, fun _ => .empty, []⟩

inductive QueueOp (ι R : Type)
  | acquire (i : ι) (l : Lock)
  | release (i : ι) (l : Lock)
  /-- `list(_edge_write_queues)`. -/
  | namespaces
  /-- The first section of `_flush_namespace_locked`, called with `sync`. -/
  | take (ns : String) (sync : Bool)
  /-- The last section of `_flush_namespace_locked`: an empty queue is dropped. -/
  | dropEmpty (ns : String)
  /-- Another section, or a call into the engine, for one namespace. -/
  | inSpace (ns : String) (o : EdgeQueue.Op ι R)

abbrev QueueReply : QueueOp ι R → Type
  | .namespaces => List String
  | .take _ _ => List (EdgeRow R)
  | .inSpace _ o => EdgeQueue.Reply o
  | _ => Unit

/-- The keys of `_edge_write_queues` after a section: an append adds the namespace, a purge that leaves
    nothing drops it. -/
def keysAfter (ns : String) (keys : List String) (s : EdgeQueue.Shared ι R) :
    (o : EdgeQueue.Op ι R) → EdgeQueue.Reply o → List String
  | .enqueue _, r => if (r : Option Bool).isSome then addIf keys ns else keys
  | .restore _, _ => addIf keys ns
  | .cancel _ _, _ => if s.queue.isEmpty then keys.erase ns else keys
  | .restoreCancelled _ rows, _ => if rows.isEmpty then keys else addIf keys ns
  | _, _ => keys

/-- One operation on the queues. -/
def execQueue : (d : QueueOp ι R) → EdgeQueue.Env → Queues ι R → Option (QueueReply d × Queues ι R)
  | .acquire i l, _, q =>
    if (q.owner l).isNone then some ((), { q with owner := update q.owner l (some i) }) else none
  | .release _ l, _, q => some ((), { q with owner := update q.owner l none })
  | .namespaces, _, q => some (q.keys, q)
  | .take ns _, c, q =>
    (EdgeQueue.exec .drain c (q.spaces ns)).map fun r =>
      (r.1, { q with spaces := update q.spaces ns r.2 })
  | .dropEmpty ns, _, q =>
    some ((), { q with keys := if (q.spaces ns).queue.isEmpty then q.keys.erase ns else q.keys })
  | .inSpace ns o, c, q =>
    (EdgeQueue.exec o c (q.spaces ns)).map fun r =>
      (r.1, { q with spaces := update q.spaces ns r.2, keys := keysAfter ns q.keys r.2 o r.1 })

/-! ### The calls -/

/-- Programs over the operations of the coalescer and of the queues. -/
abbrev Program (ι R α : Type) := Prog (Op ι (QueueOp ι R)) (Reply QueueReply) α

/-- An operation on the queues. -/
def onQueues (d : QueueOp ι R) : Program ι R (QueueReply d) := .op (.queue d) .done

/-- `with lock:`. -/
def withLock {α : Type} (i : ι) (l : Lock) (p : Program ι R α) : Program ι R α :=
  .op (.queue (.acquire i l)) fun _ => p >>= fun a => .op (.queue (.release i l)) fun _ => .done a

/-- `with _namespace_flush_lock(namespace):`. -/
def withFlushLock {α : Type} (i : ι) (ns : String) (p : Program ι R α) : Program ι R α :=
  withLock i .guard (.done ()) >>= fun _ => withLock i (.flush ns) p

/-- `_retry_on_contention` around a put, by the attempts left: whether it returned. -/
def putRetry (ns : String) (rows : List (EdgeRow R)) : ℕ → Program ι R Bool
  | 0 => .done false
  | n + 1 => .op (.queue (.inSpace ns (.put rows))) fun r =>
    match (r : EdgeQueue.PutReply) with
    | .ok => .done true
    | .failed => .done false
    | .contended => putRetry ns rows n

section Flush

variable (barrier : Program ι R (Except Unit Unit))

/-- `put_event_edges_batch`, with the barrier that `sync` asks for: whether it returned. -/
def putEventEdgesBatch (ns : String) (rows : List (EdgeRow R)) (sync : Bool) : Program ι R Bool :=
  putRetry ns rows EdgeQueue.maxAttempts >>= fun ok =>
    if ok ∧ sync then barrier >>= fun r => .done r.isOk else .done ok

/-- `_flush_namespace_locked`. -/
def flushNamespaceLocked (i : ι) (ns : String) (sync : Bool) : Program ι R (Except Unit Bool) :=
  withLock i .queues (onQueues (.take ns sync)) >>= fun rows =>
    if (rows : List (EdgeRow R)).isEmpty then .done (.ok false)
    else putEventEdgesBatch barrier ns rows sync >>= fun ok =>
      if ok then
        withLock i .queues (onQueues (.dropEmpty ns)) >>= fun _ => markDirty i .eventDag >>= fun _ =>
          .done (.ok true)
      else
        withLock i .queues (onQueues (.inSpace ns (.restore rows))) >>= fun _ =>
          markDirty i .eventDag >>= fun _ => .done (.error ())

/-- The loop of `flush_edge_writes` over the namespaces. -/
def flushEach (i : ι) (sync : Bool) : List String → Bool → Program ι R (Except Unit Bool)
  | [], flushed => .done (.ok flushed)
  | ns :: rest, flushed => withFlushLock i ns (flushNamespaceLocked barrier i ns sync) >>= fun r =>
    match r with
    | .error e => .done (.error e)
    | .ok b => flushEach i sync rest (flushed || b)

/-- `flush_edge_writes` with a given barrier. -/
def flushEdgeWritesWith (i : ι) (ns : Option String) (sync : Bool) : Program ι R (Except Unit Bool) :=
  match ns with
  | some ns => withFlushLock i ns (flushNamespaceLocked barrier i ns sync)
  | none => withLock i .queues (onQueues .namespaces) >>= fun keys => flushEach barrier i sync keys false

end Flush

/-- `_drain_edge_writes`: a flush without `sync`, which does not get to a barrier. -/
def drainAll (i : ι) : Program ι R (Except Unit Bool) :=
  flushEdgeWritesWith (.done (.ok ())) i none false

/-- `sync_now([EVENT_DAG])`. -/
def eventDagBarrier (i : ι) : Program ι R (Except Unit Unit) := syncNow (drainAll i) i (some [.eventDag])

/-- `flush_edge_writes`. -/
def flushEdgeWrites (i : ι) (ns : Option String) (sync : Bool) : Program ι R (Except Unit Bool) :=
  flushEdgeWritesWith (eventDagBarrier i) i ns sync

/-- `queue_edge_write`. A flush that fails is logged only. -/
def queueEdgeWrite (i : ι) (ns : String) (rows : List (EdgeRow R)) (sync : Bool) : Program ι R Unit :=
  if rows.isEmpty then .done ()
  else withFlushLock i ns (
    withLock i .queues (onQueues (.inSpace ns (.enqueue rows))) >>= fun full =>
      match (full : Option Bool) with
      | none => .done ()
      | some true => flushNamespaceLocked (eventDagBarrier i) i ns sync >>= fun _ => .done ()
      | some false => markDirty i .eventDag)

/-- `delete_event_edges_batch`. -/
def deleteEventEdgesBatch (i : ι) (ns : String) (events : List String) : Program ι R (Except Unit Unit) :=
  if events.isEmpty then .done (.ok ())
  else withFlushLock i ns (
    onQueues (.inSpace ns .now) >>= fun (now : ℕ) =>
    withLock i .queues (onQueues (.inSpace ns (.cancel now events))) >>= fun rows =>
    onQueues (.inSpace ns (.delete events (now + EdgeQueue.ttl))) >>= fun (ok : Bool) =>
      if ok then
        withLock i .queues (onQueues (.inSpace ns (.entomb events (now + EdgeQueue.ttl)))) >>= fun _ =>
          syncEventDagNow i
      else
        withLock i .queues (onQueues (.inSpace ns (.restoreCancelled events rows))) >>= fun _ =>
          markDirty i .eventDag >>= fun _ => .done (.error ()))

/-- The calls that use the locks. -/
inductive Call (R : Type)
  | queueEdgeWrite (ns : String) (rows : List (EdgeRow R)) (sync : Bool)
  | flushEdgeWrites (ns : Option String) (sync : Bool)
  | deleteEventEdgesBatch (ns : String) (events : List String)
  | flush (t : Timer)
  | syncNow (pools : Option (List Coalescer.Pool))
  | syncEventDagNow
  | close

/-- The program of a call; what it returns is left out. -/
def program (publishes : Bool) (i : ι) : Call R → Program ι R Unit
  | .queueEdgeWrite ns rows sync => queueEdgeWrite i ns rows sync
  | .flushEdgeWrites ns sync => flushEdgeWrites i ns sync >>= fun _ => .done ()
  | .deleteEventEdgesBatch ns events => deleteEventEdgesBatch i ns events >>= fun _ => .done ()
  | .flush t => Coalescer.flush (drainAll i) i publishes t
  | .syncNow pools => Coalescer.syncNow (drainAll i) i pools >>= fun _ => .done ()
  | .syncEventDagNow => Coalescer.syncEventDagNow i >>= fun _ => .done ()
  | .close => Coalescer.close (drainAll i) i >>= fun _ => .done ()

/-- Calls side by side. -/
abbrev System (ι R : Type) :=
  Kit.Pool ι (Coalescer.Shared ι (Queues ι R)) (Call R) (Op ι (QueueOp ι R)) (Reply QueueReply) Unit

/-- One action. -/
def step [DecidableEq ι] (publishes : Bool) :
    System ι R → Act ι (Env EdgeQueue.Env) (Call R) → Option (System ι R) :=
  Kit.Pool.step (exec execQueue) (program publishes) fun _ s => s

/-- Nothing queued, nothing dirty, no call made. -/
def start : System ι R := Kit.Pool.start (Shared.start .empty)

/-! ### The order of the locks -/

/-- How operations use the locks. -/
def locks : Locks ι (Coalescer.Shared ι (Queues ι R)) (Op ι (QueueOp ι R)) Lock where
  use
    | .queue (.acquire i l) => .acquire i l
    | .queue (.release i l) => .release i l
    | _ => .none
  owner s := s.queue.owner

def rank : Lock → ℕ
  | .flush _ => 0
  | .queues => 1
  | .guard => 2

theorem locks_laws [DecidableEq ι] : (locks (ι := ι) (R := R)).Laws (exec execQueue) where
  acquire := by
    intro o c s r s' i l huse hr
    obtain rfl : o = .queue (.acquire i l) := by
      match o, huse with
      | .queue (.acquire _ _), rfl => rfl
    obtain ⟨⟨_, q⟩, hq, heq⟩ := map_eq_some_iff.mp hr
    obtain ⟨-, rfl⟩ := Prod.mk.inj heq
    rw [execQueue] at hq
    split at hq
    · rename_i hfree
      cases hq
      exact ⟨isNone_iff_eq_none.mp hfree, rfl⟩
    · cases hq
  release := by
    intro o c s r s' i l huse hr
    obtain rfl : o = .queue (.release i l) := by
      match o, huse with
      | .queue (.release _ _), rfl => rfl
    cases hr
    rfl
  none := by
    intro o c s r s' huse hr
    by_cases ho : ∃ d, o = .queue d
    · obtain ⟨d, rfl⟩ := ho
      obtain ⟨⟨_, q⟩, hq, heq⟩ := map_eq_some_iff.mp hr
      obtain ⟨-, rfl⟩ := Prod.mk.inj heq
      cases d with
      | acquire i l => cases huse
      | release i l => cases huse
      | namespaces | dropEmpty =>
        cases hq
        rfl
      | take | inSpace =>
        rw [execQueue] at hq
        obtain ⟨_, -, heq⟩ := map_eq_some_iff.mp hq
        obtain ⟨-, rfl⟩ := Prod.mk.inj heq
        rfl
    · exact congrArg Queues.owner (exec_queue (fun d hd => ho ⟨d, hd⟩) hr)

/-- A flush with `sync` finds nothing queued. -/
def Expected : (o : Op ι (QueueOp ι R)) → Reply QueueReply o → Prop
  | .queue (.take _ true), rows => (rows : List (EdgeRow R)) = []
  | _, _ => True

/-- The program takes locks in order, releases what it takes, and returns a value with `Q`. -/
def Balanced {α : Type} (i : ι) (held : Set Lock) (Q : α → Prop) (p : Program ι R α) : Prop :=
  Ordered locks rank Expected i (fun a held' => held' = held ∧ Q a) p held

section Balanced

variable {α β : Type} {i : ι} {held : Set Lock} {Q : α → Prop} {Q' : β → Prop}

theorem Balanced.done {a : α} (h : Q a) : Balanced (R := R) i held Q (.done a) := ⟨rfl, h⟩

theorem Balanced.bind {p : Program ι R α} {f : α → Program ι R β} (hp : Balanced i held Q p)
    (hf : ∀ a, Q a → Balanced i held Q' (f a)) : Balanced i held Q' (p >>= f) := by
  refine Ordered.bind hp fun a held' h => ?_
  rw [h.1]
  exact hf a h.2

/-- An operation that has nothing to do with locks. -/
theorem Balanced.op {o : Op ι (QueueOp ι R)} {next : Reply QueueReply o → Program ι R α}
    (huse : locks.use o = .none) (h : ∀ r, Expected o r → Balanced i held Q (next r)) :
    Balanced i held Q (.op o next) := Ordered.of_none huse h

theorem Balanced.onQueues {d : QueueOp ι R} (huse : locks.use (.queue d : Op ι (QueueOp ι R)) = .none) :
    Balanced i held (fun r => Expected (.queue d) r) (onQueues d) :=
  Balanced.op huse fun _ hr => .done hr

/-- A lock of higher rank than those held is taken, and released at the end. -/
theorem Balanced.withLock {l : Lock} {p : Program ι R α} (hrank : ∀ l' ∈ held, rank l' < rank l)
    (hp : Balanced i (insert l held) Q p) : Balanced i held Q (withLock i l p) := by
  have hl : l ∉ held := fun hmem => lt_irrefl _ (hrank l hmem)
  refine Ordered.of_acquire rfl hrank fun _ _ => Ordered.bind hp fun a held' h => ?_
  refine Ordered.of_release rfl ?_ fun _ _ => ⟨?_, h.2⟩
  · rw [h.1]
    exact mem_insert l held
  · rw [h.1, insert_sdiff_self_of_notMem hl]

theorem Balanced.withFlushLock {ns : String} {p : Program ι R α} (hp : Balanced i {.flush ns} Q p) :
    Balanced i ∅ Q (withFlushLock i ns p) := by
  have hguard : Balanced i ∅ (fun _ => True) (EdgeLocks.withLock i .guard (.done ()) : Program ι R Unit) :=
    .withLock (fun _ h => absurd h (notMem_empty _)) (.done trivial)
  refine hguard.bind fun _ _ => .withLock (fun _ h => absurd h (notMem_empty _)) ?_
  rwa [insert_empty_eq]

/-! ### The methods of the coalescer -/

theorem markDirty_balanced (p : Coalescer.Pool) :
    Balanced (R := R) i held (fun _ => True) (markDirty i p) := by
  refine .op rfl fun closed _ => ?_
  split
  · exact .done trivial
  · refine .op rfl fun wasClean _ => .op rfl fun _ _ => ?_
    split
    · exact .op rfl fun _ _ => .done trivial
    · exact .done trivial

theorem rearm_balanced (delay : Delay) : Balanced (R := R) i held (fun _ => True) (rearm i delay) := by
  refine .op rfl fun dirty _ => ?_
  split
  · exact .op rfl fun _ _ => .done trivial
  · exact .done trivial

theorem secure_balanced (publishes : Bool) (ps : List Coalescer.Pool) :
    Balanced (R := R) i held (fun _ => True) (secure i publishes ps) := by
  rw [secure]
  split
  · refine .op rfl fun requested _ => ?_
    split
    · refine .op rfl fun error _ => ?_
      match error with
      | none => exact .done trivial
      | some false => exact .done trivial
      | some true =>
        refine .op rfl fun synced _ => ?_
        split
        · exact .op rfl fun _ _ => .done trivial
        · exact .done trivial
    · exact .done trivial
  · exact .op rfl fun _ _ => .done trivial

theorem flushDirty_balanced (publishes : Bool) :
    Balanced (R := R) i held (fun _ => True) (flushDirty i publishes) := by
  refine .op rfl fun toFlush _ => ?_
  split
  · exact .done trivial
  · refine (secure_balanced publishes toFlush).bind fun secured _ => ?_
    split
    · exact .op rfl fun _ _ => rearm_balanced .retry
    · exact rearm_balanced .retry

theorem syncEach_balanced (ps : List Coalescer.Pool) (failed : Bool) :
    Balanced (R := R) i held (fun _ => True) (syncEach i ps failed) := by
  induction ps generalizing failed with
  | nil => exact .done trivial
  | cons p ps ih =>
    refine .op rfl fun synced _ => ?_
    split
    · exact .op rfl fun _ _ => ih failed
    · exact .op rfl fun _ _ => ih true

theorem finish_balanced (failed : Bool) : Balanced (R := R) i held (fun _ => True) (finish i failed) :=
  (rearm_balanced _).bind fun _ _ => .done trivial

theorem syncEventDagNow_balanced : Balanced (R := R) i held (fun _ => True) (syncEventDagNow i) := by
  refine .op rfl fun closed _ => ?_
  split
  · exact .done trivial
  · refine .op rfl fun synced _ => ?_
    split
    · exact (rearm_balanced _).bind fun _ _ => .done trivial
    · exact .op rfl fun _ _ => (rearm_balanced _).bind fun _ _ => .done trivial

section Drain

variable {drain : Program ι R (Except Unit Bool)} (hdrain : Balanced i held (fun _ => True) drain)

include hdrain

theorem flush_balanced (publishes : Bool) (t : Timer) :
    Balanced i held (fun _ => True) (Coalescer.flush drain i publishes t) := by
  refine .op rfl fun _ _ => .op rfl fun _ _ => .op rfl fun closed _ => ?_
  split
  · exact .done trivial
  · refine hdrain.bind fun drained _ => ?_
    match drained with
    | .error _ => exact .op rfl fun _ _ => .op rfl fun _ _ => .done trivial
    | .ok true => exact .op rfl fun _ _ => flushDirty_balanced publishes
    | .ok false => exact flushDirty_balanced publishes

theorem syncThese_balanced (ps : List Coalescer.Pool) :
    Balanced i held (fun _ => True) (syncThese drain i ps) := by
  have hrest : Balanced (R := R) i held (fun _ => True) (syncEach i ps false >>= finish i) :=
    (syncEach_balanced ps false).bind fun failed _ => finish_balanced failed
  rw [syncThese]
  split
  · refine .op rfl fun _ _ => hdrain.bind fun drained _ => ?_
    match drained with
    | .error _ => exact .op rfl fun _ _ => finish_balanced true
    | .ok true => exact hrest
    | .ok false => exact .op rfl fun _ _ => hrest
  · exact hrest

theorem syncNow_balanced (pools : Option (List Coalescer.Pool)) :
    Balanced i held (fun _ => True) (Coalescer.syncNow drain i pools) := by
  refine .op rfl fun closed _ => ?_
  split
  · exact .done trivial
  · refine .op rfl fun cancelled _ => ?_
    split
    · cases pools with
      | some ps => exact syncThese_balanced hdrain ps.dedup
      | none => exact .op rfl fun ps _ => syncThese_balanced hdrain ps
    · exact .done trivial

theorem closeDrain_balanced (n : ℕ) : Balanced i held (fun _ => True) (closeDrain drain i n) := by
  induction n with
  | zero => exact .done trivial
  | succ n ih =>
    refine hdrain.bind fun drained _ => ?_
    match drained with
    | .error _ => exact ih
    | .ok true => exact .op rfl fun _ _ => .done trivial
    | .ok false => exact .done trivial

omit hdrain in
theorem closeSync_balanced (n : ℕ) : Balanced (R := R) i held (fun _ => True) (closeSync i n) := by
  induction n with
  | zero => exact .done trivial
  | succ n ih =>
    refine .op rfl fun ps _ => .op rfl fun synced _ => ?_
    split
    · exact .op rfl fun _ _ => .done trivial
    · exact ih

theorem close_balanced : Balanced i held (fun _ => True) (Coalescer.close drain i) := by
  refine .op rfl fun cancelled _ => ?_
  split
  · refine (closeDrain_balanced hdrain 3).bind fun _ _ => .op rfl fun _ _ => .op rfl fun dirty _ => ?_
    split
    · exact (closeSync_balanced 3).bind fun _ _ => .done trivial
    · exact .done trivial
  · exact .done trivial

end Drain

/-! ### The functions of the queue -/

theorem putRetry_balanced (ns : String) (rows : List (EdgeRow R)) (n : ℕ) :
    Balanced i held (fun _ => True) (putRetry ns rows n) := by
  induction n with
  | zero => exact .done trivial
  | succ n ih =>
    refine .op rfl fun r _ => ?_
    match r with
    | .ok => exact .done trivial
    | .failed => exact .done trivial
    | .contended => exact ih

/-- The queues' lock may be taken with a flush lock held. -/
theorem rank_flush_lt {ns : String} : ∀ l ∈ ({.flush ns} : Set Lock), rank l < rank .queues := by
  intro l hl
  rw [mem_singleton_iff.mp hl]
  exact Nat.zero_lt_one

/-- A section under the queues' lock, with the flush lock held. -/
theorem section_balanced {ns : String} {d : QueueOp ι R}
    (huse : locks.use (.queue d : Op ι (QueueOp ι R)) = .none) :
    Balanced i {.flush ns} (fun r => Expected (.queue d) r) (EdgeLocks.withLock i .queues (onQueues d)) :=
  .withLock rank_flush_lt (.onQueues huse)

variable (barrier : Program ι R (Except Unit Unit))

/-- With `sync` there is nothing to put, so that the barrier is not reached. -/
theorem flushNamespaceLocked_balanced (ns : String)
    (sync : Bool) : Balanced i {.flush ns} (fun _ => True) (flushNamespaceLocked barrier i ns sync) := by
  refine (section_balanced rfl).bind fun rows hrows => ?_
  split_ifs with hne
  · exact .done trivial
  · obtain rfl : sync = false := by
      cases sync with
      | false => rfl
      | true => exact absurd (isEmpty_iff.mpr hrows) hne
    have hput : Balanced i {.flush ns} (fun _ => True) (putEventEdgesBatch barrier ns rows false) :=
      (putRetry_balanced ns rows _).bind fun ok _ => by
        rw [if_neg (by simp)]
        exact .done trivial
    refine hput.bind fun ok _ => ?_
    split <;> exact (section_balanced rfl).bind fun _ _ => (markDirty_balanced _).bind fun _ _ => .done trivial

theorem flushEach_balanced (sync : Bool) (keys : List String)
    (flushed : Bool) : Balanced i ∅ (fun _ => True) (flushEach barrier i sync keys flushed) := by
  induction keys generalizing flushed with
  | nil => exact .done trivial
  | cons ns keys ih =>
    refine (Balanced.withFlushLock (flushNamespaceLocked_balanced barrier ns sync)).bind fun r _ => ?_
    match r with
    | .error _ => exact .done trivial
    | .ok b => exact ih (flushed || b)

theorem flushEdgeWritesWith_balanced (ns : Option String)
    (sync : Bool) : Balanced i ∅ (fun _ => True) (flushEdgeWritesWith barrier i ns sync) := by
  cases ns with
  | some ns => exact .withFlushLock (flushNamespaceLocked_balanced barrier ns sync)
  | none =>
    have hkeys : Balanced (R := R) i ∅ (fun _ => True) (EdgeLocks.withLock i .queues (onQueues .namespaces)) :=
      .withLock (fun _ h => absurd h (notMem_empty _)) (Balanced.onQueues (d := .namespaces) rfl)
    exact hkeys.bind fun keys _ => flushEach_balanced barrier sync keys false

theorem drainAll_balanced : Balanced (R := R) i ∅ (fun _ => True) (drainAll i) :=
  flushEdgeWritesWith_balanced _ none false

theorem queueEdgeWrite_balanced (ns : String) (rows : List (EdgeRow R)) (sync : Bool) :
    Balanced i ∅ (fun _ => True) (queueEdgeWrite i ns rows sync) := by
  rw [queueEdgeWrite]
  split
  · exact .done trivial
  · refine .withFlushLock ((section_balanced rfl).bind fun full _ => ?_)
    match full with
    | none => exact .done trivial
    | some true => exact (flushNamespaceLocked_balanced _ ns sync).bind fun _ _ => .done trivial
    | some false => exact markDirty_balanced _

theorem deleteEventEdgesBatch_balanced (ns : String) (events : List String) :
    Balanced (R := R) i ∅ (fun _ => True) (deleteEventEdgesBatch i ns events) := by
  rw [deleteEventEdgesBatch]
  split
  · exact .done trivial
  · refine .withFlushLock ((Balanced.onQueues rfl).bind fun now _ => (section_balanced rfl).bind fun rows _ =>
      (Balanced.onQueues rfl).bind fun ok _ => ?_)
    split
    · exact (section_balanced rfl).bind fun _ _ => syncEventDagNow_balanced
    · exact (section_balanced rfl).bind fun _ _ => (markDirty_balanced _).bind fun _ _ => .done trivial

end Balanced

theorem program_balanced (publishes : Bool) (i : ι) (call : Call R) :
    Balanced i ∅ (fun _ => True) (program publishes i call) := by
  cases call with
  | queueEdgeWrite ns rows sync => exact queueEdgeWrite_balanced ns rows sync
  | flushEdgeWrites ns sync =>
    exact (flushEdgeWritesWith_balanced _ ns sync).bind fun _ _ => .done trivial
  | deleteEventEdgesBatch ns events =>
    exact (deleteEventEdgesBatch_balanced ns events).bind fun _ _ => .done trivial
  | flush t => exact flush_balanced drainAll_balanced publishes t
  | syncNow pools => exact (syncNow_balanced drainAll_balanced pools).bind fun _ _ => .done trivial
  | syncEventDagNow => exact syncEventDagNow_balanced.bind fun _ _ => .done trivial
  | close => exact (close_balanced drainAll_balanced).bind fun _ _ => .done trivial

/-! ### Whole runs -/

/-- The namespace whose queue a flush with `sync` takes. -/
def syncedTake : Op ι (QueueOp ι R) → Option String
  | .queue (.take ns true) => some ns
  | _ => none

/-- No call with `sync` takes rows from a queue; calls do not vanish. -/
def NothingToSync (pool : System ι R) : Act ι (Env EdgeQueue.Env) (Call R) → Prop
  | .spawn _ _ => True
  | .step i _ =>
    match (pool.about i).bind syncedTake with
    | some ns => (pool.shared.queue.spaces ns).queue = []
    | none => True
  | .kill _ => False

instance (pool : System ι R) (a : Act ι (Env EdgeQueue.Env) (Call R)) : Decidable (NothingToSync pool a) := by
  cases a with
  | spawn _ _ => exact instDecidableTrue
  | step i _ =>
    dsimp only [NothingToSync]
    cases (pool.about i).bind syncedTake <;> infer_instance
  | kill _ => exact instDecidableFalse

/-- The replies in such a run are as expected. -/
theorem expected_of_nothingToSync [DecidableEq ι] {pool : System ι R} {i : ι} {c : Env EdgeQueue.Env}
    {o : Op ι (QueueOp ι R)} {r : Reply QueueReply o} {s' : Coalescer.Shared ι (Queues ι R)}
    (hok : NothingToSync pool (.step i c)) (habout : pool.about i = some o)
    (hr : Coalescer.exec execQueue o c pool.shared = some (r, s')) : Expected o r := by
  cases o with
  | queue d =>
    cases d with
    | take ns sync =>
      cases sync with
      | false => trivial
      | true =>
        simp only [NothingToSync, habout, bind_some, syncedTake] at hok
        rw [Coalescer.exec, execQueue] at hr
        obtain ⟨_, hq, heq⟩ := map_eq_some_iff.mp hr
        obtain ⟨rfl, -⟩ := Prod.mk.inj heq
        obtain ⟨_, hdrain, rfl⟩ := map_eq_some_iff.mp hq
        cases hdrain
        exact hok
    | _ => trivial
  | _ => trivial

/-- No state of a run in which no call with `sync` takes rows from a queue has a deadlock. -/
theorem edge_locks_deadlock_free [DecidableEq ι] (publishes : Bool) {pool : System ι R}
    (hrun : Run (step publishes) NothingToSync start pool) : ¬ locks.Deadlock pool := by
  have horder : ∀ i, InOrder locks rank Expected i (pool.rest i) pool.shared := by
    refine inOrder_run locks_laws (fun h => h) (fun i call => ?_) expected_of_nothingToSync (fun _ => rfl) hrun
    exact (program_balanced publishes i call).mono fun _ _ h => h.1
  exact InOrder.no_deadlock horder

/-- The lock a call is about to acquire. -/
def wanted (pool : System ι R) (i : ι) : Option Lock :=
  match pool.about i with
  | some (.queue (.acquire _ l)) => some l
  | _ => none

/-- The engine always returns, and nothing is dirty. -/
def calm : Env EdgeQueue.Env := ⟨true, some false, [], ⟨1, .ok⟩⟩

/-- A write has the flush lock, and a purge of the same namespace waits for it. -/
def waitingTrace : List (Act (Fin 2) (Env EdgeQueue.Env) (Call String)) :=
  .spawn 0 (.queueEdgeWrite "main" [⟨"!r", "$a", "$p", false⟩] true) :: replicate 6 (.step 0 calm) ++
  .spawn 1 (.deleteEventEdgesBatch "main" ["$a"]) :: replicate 2 (.step 1 calm)

theorem edge_locks_deadlock_free_waiting : ∃ pool : System (Fin 2) String,
    Run (step false) NothingToSync start pool ∧ wanted pool 1 = some (.flush "main") ∧
    pool.shared.queue.owner (.flush "main") = some 0 ∧ ¬ locks.Deadlock pool :=
  Run.exists_get waitingTrace (by decide +kernel) fun hrun =>
    ⟨by decide +kernel, by decide +kernel, edge_locks_deadlock_free false hrun⟩

/-- As many rows as the threshold are queued with `sync`. -/
def thresholdTrace : List (Act (Fin 1) (Env EdgeQueue.Env) (Call String)) :=
  .spawn 0 (.queueEdgeWrite "main" (replicate EdgeQueue.threshold ⟨"!r", "$a", "$p", false⟩) true) ::
    replicate 18 (.step 0 calm)

/-- The call waits for the flush lock that it holds. -/
theorem threshold_flush_deadlocks : ∃ pool : System (Fin 1) String,
    Run (step false) (fun _ _ => True) start pool ∧ locks.Waits pool 0 0 ∧ locks.Deadlock pool := by
  obtain ⟨pool, hrun, hwanted, howner⟩ : ∃ pool : System (Fin 1) String,
      Run (step false) (fun _ _ => True) start pool ∧ wanted pool 0 = some (.flush "main") ∧
      pool.shared.queue.owner (.flush "main") = some 0 := Run.exists_exec thresholdTrace (by decide +kernel)
  have hwaits : locks.Waits pool 0 0 := by
    rw [wanted] at hwanted
    split at hwanted
    · rename_i j l habout
      obtain rfl : j = 0 := Subsingleton.elim _ _
      obtain rfl : l = .flush "main" := some.inj hwanted
      exact ⟨_, _, habout, rfl, howner⟩
    · cases hwanted
  exact ⟨pool, hrun, hwaits, 0, .single hwaits⟩

end Sithnapse.EdgeLocks
