import Sithnapse.Kit.Pool

/-! The flush coalescer.

    `_FlushCoalescer` keeps the set of pools with writes that are not synced yet and one timer that is
    to sync them. Its methods are called from any thread and take no lock, so each is a program of
    single set operations, timer operations and calls into the engine. Draining the queue of edge
    writes is a program of its own, over operations of the queue that are left open here. -/

namespace Sithnapse.Coalescer

open Kit

/-! ### The shared state -/

/-- `Pool`: the pools of the store. -/
inductive Pool
  | state
  | eventDag
  | authChain
  deriving DecidableEq

/-- `_FLUSH_DELAY` and `_RETRY_DELAY`. -/
inductive Delay
  | flush
  | retry
  deriving DecidableEq

/-- A delayed call of `_flush`. -/
structure Timer where
  id : ℕ
  delay : Delay
  deriving DecidableEq

/-- What a call under way has done so far. -/
structure Own where
  /-- It has synced these pools and goes on to take them out of the dirty set. -/
  synced : Finset Pool
  /-- It has taken these pools out of the dirty set and goes on to sync them. -/
  owed : Finset Pool
  /-- It marks a pool, has found the dirty set non-empty and has not added the pool yet. -/
  late : Bool
  /-- It goes on to look whether a timer has to be armed. -/
  watching : Bool
  /-- It is `_flush`, called by a timer, and has not cleared `_delayed_call` yet. -/
  fired : Bool
  deriving DecidableEq

/-- Nothing done. -/
def Own.idle : Own := ⟨∅, ∅, false, false, false⟩

/-- The attributes of the coalescer, the timers that are armed, and the state of the queue. The last two
    fields record what has happened and are read by no code. -/
structure Shared (ι τ : Type) where
  dirty : Finset Pool
  delayedCall : Option Timer
  closed : Bool
  timers : List Timer
  nextTimer : ℕ
  queue : τ
  /-- Pools marked since their last successful sync or durability request. -/
  unsynced : Finset Pool
  own : ι → Own

/-- Nothing dirty, nothing armed. -/
def Shared.start {ι τ : Type} (queue : τ) : Shared ι τ :=
  ⟨∅, none, false, [], 0, queue, ∅, fun _ => .idle⟩

/-! ### Operations -/

variable {ι D τ χ : Type} {QueueReply : D → Type}

/-- Operations on the attributes, calls into the engine, and operations of the queue. The thread that
    performs them is named for the record only. -/
inductive Op (ι D : Type)
  /-- `self._closed`. -/
  | isClosed
  /-- `not self._dirty`, in `mark_dirty`. -/
  | isClean (i : ι)
  /-- `self._dirty.add`, in `mark_dirty`. -/
  | mark (i : ι) (p : Pool) (wasClean : Bool)
  /-- `call_later` if `_delayed_call` is `None`. -/
  | arm (i : ι) (delay : Delay)
  /-- A timer is due and calls `_flush`. -/
  | fire (i : ι) (t : Timer)
  /-- `self._delayed_call = None`. -/
  | forget (i : ι)
  /-- `self._delayed_call.cancel()` and `self._delayed_call = None`, if it is not `None`. -/
  | cancel (i : ι)
  /-- `self._dirty.add`. -/
  | add (i : ι) (p : Pool)
  /-- `set(self._dirty)`. -/
  | snapshot (i : ι)
  /-- `if self._dirty`. -/
  | isDirty (i : ι)
  /-- `self._dirty.discard`, of a pool that was synced. -/
  | discard (i : ι) (p : Pool)
  /-- `self._dirty.discard(EVENT_DAG)`, after a drain without rows. -/
  | retract (i : ι) (p : Pool)
  /-- `self._dirty.difference_update`. -/
  | difference (i : ι) (ps : List Pool)
  /-- `_do_sync_pools`, and which of the pools are then taken out. -/
  | sync (i : ι) (ps : List Pool) (clears : List Pool)
  /-- `request_durable`, and which pools are then taken out. -/
  | requestDurable (i : ι) (clears : List Pool)
  /-- `background_commit_error`. -/
  | backgroundError (i : ι)
  /-- `stop_background_commit` and `start_background_commit`. -/
  | restartCommit (i : ι)
  /-- `self._closed = True`. -/
  | close
  /-- `self._dirty.clear()`. -/
  | clear
  | queue (d : D)

/-- The reply to each operation; for what may raise, whether it returned. -/
abbrev Reply (QueueReply : D → Type) : Op ι D → Type
  | .isClosed => Bool
  | .isClean _ => Bool
  | .cancel _ => Bool
  | .snapshot _ => List Pool
  | .isDirty _ => Bool
  | .sync _ _ _ => Bool
  | .requestDurable _ _ => Bool
  | .backgroundError _ => Option Bool
  | .restartCommit _ => Bool
  | .queue d => QueueReply d
  | _ => Unit

/-- Whether a call into the engine returns, what it says of the background committer, the order in
    which a set is listed, and what is chosen for the queue. -/
structure Env (χ : Type) where
  returns : Bool
  error : Option Bool
  order : List Pool
  queue : χ

/-- A thread's record changes. -/
def Shared.record [DecidableEq ι] (s : Shared ι τ) (i : ι) (f : Own → Own) : Shared ι τ :=
  { s with own := Function.update s.own i (f (s.own i)) }

/-- A timer is armed, if none is referred to. -/
def Shared.arm (s : Shared ι τ) (delay : Delay) : Shared ι τ :=
  match s.delayedCall with
  | some _ => s
  | none =>
    { s with delayedCall := some ⟨s.nextTimer, delay⟩, timers := ⟨s.nextTimer, delay⟩ :: s.timers
             nextTimer := s.nextTimer + 1 }

/-- One operation. -/
def exec [DecidableEq ι] (execQueue : (d : D) → χ → τ → Option (QueueReply d × τ)) :
    (o : Op ι D) → Env χ → Shared ι τ → Option (Reply QueueReply o × Shared ι τ)
  | .isClosed, _, s => some (s.closed, s)
  | .isClean i, _, s =>
    some (decide (s.dirty = ∅), s.record i fun w => { w with late := decide (s.dirty ≠ ∅) })
  | .mark i p wasClean, _, s =>
    some ((), { s with dirty := insert p s.dirty, unsynced := insert p s.unsynced }.record i fun w =>
      { w with late := false, watching := w.watching || wasClean })
  | .arm i delay, _, s => some ((), (s.arm delay).record i fun w => { w with watching := false })
  | .fire i t, _, s =>
    if t ∈ s.timers then
      some ((), { s with timers := s.timers.erase t }.record i fun w =>
        { w with watching := true, fired := true })
    else none
  | .forget i, _, s =>
    some ((), { s with delayedCall := none }.record i fun w => { w with fired := false })
  | .cancel i, _, s =>
    match s.delayedCall with
    | none => some (true, s.record i fun w => { w with watching := true })
    | some t =>
      -- a timer that has been called already cannot be cancelled
      if t ∈ s.timers then
        some (true, { s with delayedCall := none, timers := s.timers.erase t }.record i fun w =>
          { w with watching := true })
      else some (false, s)
  | .add i p, _, s =>
    some ((), { s with dirty := insert p s.dirty }.record i fun w =>
      { w with watching := true, owed := w.owed.erase p })
  | .snapshot i, c, s =>
    if c.order.Nodup ∧ c.order.toFinset = s.dirty then
      some (c.order, s.record i fun w => { w with watching := w.watching && decide (s.dirty ≠ ∅) })
    else none
  | .isDirty i, _, s =>
    some (decide (s.dirty ≠ ∅), s.record i fun w => { w with watching := w.watching && decide (s.dirty ≠ ∅) })
  | .discard i p, _, s =>
    some ((), { s with dirty := s.dirty.erase p }.record i fun w => { w with synced := w.synced.erase p })
  | .retract i p, _, s =>
    some ((), { s with dirty := s.dirty.erase p }.record i fun w => { w with owed := insert p w.owed })
  | .difference i ps, _, s =>
    some ((), { s with dirty := s.dirty \ ps.toFinset }.record i fun w => { w with synced := ∅ })
  | .sync i ps clears, c, s =>
    some (c.returns,
      if c.returns then
        { s with unsynced := s.unsynced \ ps.toFinset }.record i fun w =>
          { w with synced := clears.toFinset, owed := w.owed \ ps.toFinset }
      else s.record i fun w => { w with synced := ∅ })
  | .requestDurable i clears, c, s =>
    some (c.returns,
      if c.returns then { s with unsynced := ∅ }.record i fun w => { w with synced := clears.toFinset }
      else s.record i fun w => { w with synced := ∅ })
  | .backgroundError i, c, s =>
    some (c.error, s.record i fun w => { w with synced := if c.error.isNone then ∅ else w.synced })
  | .restartCommit i, c, s =>
    some (c.returns, s.record i fun w => { w with synced := if c.returns then w.synced else ∅ })
  | .close, _, s => some ((), { s with closed := true })
  | .clear, _, s => some ((), { s with dirty := ∅ })
  | .queue d, c, s => (execQueue d c.queue s.queue).map fun r => (r.1, { s with queue := r.2 })

theorem Shared.arm_queue (s : Shared ι τ) (delay : Delay) : (s.arm delay).queue = s.queue := by
  rw [Shared.arm]
  split <;> rfl

/-- Only the queue's own operations change its state. -/
theorem exec_queue [DecidableEq ι] {execQueue : (d : D) → χ → τ → Option (QueueReply d × τ)} {o : Op ι D}
    {c : Env χ} {s s' : Shared ι τ} {r : Reply QueueReply o} (ho : ∀ d, o ≠ .queue d)
    (hr : exec execQueue o c s = some (r, s')) : s'.queue = s.queue := by
  cases o with
  | queue d => exact absurd rfl (ho d)
  | fire | snapshot =>
    rw [exec] at hr
    split at hr
    · cases hr
      rfl
    · cases hr
  | cancel i =>
    rw [exec] at hr
    split at hr
    · cases hr
      rfl
    · split at hr <;> obtain ⟨-, rfl⟩ := some_pair_inj hr <;> rfl
  | arm i delay =>
    cases hr
    exact s.arm_queue delay
  | sync | requestDurable =>
    cases hr
    cases c.returns <;> rfl
  | _ =>
    cases hr
    rfl

/-! ### The methods -/

/-- `mark_dirty`. -/
def markDirty (i : ι) (p : Pool) : Prog (Op ι D) (Reply QueueReply) Unit :=
  .op .isClosed fun closed =>
    if (closed : Bool) then .done ()
    else .op (.isClean i) fun wasClean => .op (.mark i p wasClean) fun _ =>
      if (wasClean : Bool) then .op (.arm i .flush) .done else .done ()

/-- The last lines of the other methods: a timer for what is dirty still. -/
def rearm (i : ι) (delay : Delay) : Prog (Op ι D) (Reply QueueReply) Unit :=
  .op (.isDirty i) fun dirty => if (dirty : Bool) then .op (.arm i delay) .done else .done ()

/-- The `try` block of `_flush`, up to `difference_update`: whether it got there. `publishes` is
    `publishes_at_commit()`. -/
def secure (i : ι) (publishes : Bool) (toFlush : List Pool) : Prog (Op ι D) (Reply QueueReply) Bool :=
  if publishes then
    .op (.requestDurable i toFlush) fun requested =>
      if (requested : Bool) then
        .op (.backgroundError i) fun error =>
          match (error : Option Bool) with
          | none => .done false
          | some false => .done true
          | some true =>
            .op (.sync i toFlush toFlush) fun synced =>
              if (synced : Bool) then .op (.restartCommit i) fun started => .done started else .done false
      else .done false
  else .op (.sync i toFlush toFlush) fun synced => .done synced

variable (drain : Prog (Op ι D) (Reply QueueReply) (Except Unit Bool))

/-- `_flush` after the drain. -/
def flushDirty (i : ι) (publishes : Bool) : Prog (Op ι D) (Reply QueueReply) Unit :=
  .op (.snapshot i) fun toFlush =>
    if (toFlush : List Pool).isEmpty then .done ()
    else secure i publishes toFlush >>= fun secured =>
      if secured then .op (.difference i toFlush) fun _ => rearm i .retry else rearm i .retry

/-- `_flush`, called by a timer. -/
def flush (i : ι) (publishes : Bool) (t : Timer) : Prog (Op ι D) (Reply QueueReply) Unit :=
  .op (.fire i t) fun _ => .op (.forget i) fun _ => .op .isClosed fun closed =>
    if (closed : Bool) then .done ()
    else drain >>= fun drained =>
      match drained with
      | .error _ => .op (.add i .eventDag) fun _ => .op (.arm i .retry) .done
      | .ok true => .op (.add i .eventDag) fun _ => flushDirty i publishes
      | .ok false => flushDirty i publishes

/-- The loop of `sync_now`: whether a sync raised. -/
def syncEach (i : ι) : List Pool → Bool → Prog (Op ι D) (Reply QueueReply) Bool
  | [], failed => .done failed
  | p :: ps, failed => .op (.sync i [p] [p]) fun synced =>
    if (synced : Bool) then .op (.discard i p) fun _ => syncEach i ps failed
    else .op (.add i p) fun _ => syncEach i ps true

/-- The `finally` block of `sync_now` and what follows. -/
def finish (i : ι) (failed : Bool) : Prog (Op ι D) (Reply QueueReply) (Except Unit Unit) :=
  rearm i (if failed then .retry else .flush) >>= fun _ => .done (if failed then .error () else .ok ())

/-- `sync_now` from the `try` on. -/
def syncThese (i : ι) (toFlush : List Pool) : Prog (Op ι D) (Reply QueueReply) (Except Unit Unit) :=
  if .eventDag ∈ toFlush then
    .op (.add i .eventDag) fun _ => drain >>= fun drained =>
      match drained with
      | .error _ => .op (.add i .eventDag) fun _ => finish i true
      | .ok true => syncEach i toFlush false >>= finish i
      | .ok false => .op (.retract i .eventDag) fun _ => syncEach i toFlush false >>= finish i
  else syncEach i toFlush false >>= finish i

/-- `sync_now`; without pools it takes all dirty ones. -/
def syncNow (i : ι) (pools : Option (List Pool)) : Prog (Op ι D) (Reply QueueReply) (Except Unit Unit) :=
  .op .isClosed fun closed =>
    if (closed : Bool) then .done (.ok ())
    else .op (.cancel i) fun cancelled =>
      if (cancelled : Bool) then
        match pools with
        | some ps => syncThese drain i ps.dedup
        | none => .op (.snapshot i) fun ps => syncThese drain i ps
      else .done (.error ())

/-- `sync_event_dag_now`. -/
def syncEventDagNow (i : ι) : Prog (Op ι D) (Reply QueueReply) (Except Unit Unit) :=
  .op .isClosed fun closed =>
    if (closed : Bool) then .done (.ok ())
    else .op (.sync i [.eventDag] []) fun synced =>
      if (synced : Bool) then rearm i .retry >>= fun _ => .done (.ok ())
      else .op (.add i .eventDag) fun _ => rearm i .retry >>= fun _ => .done (.error ())

/-- The attempts of `close` to drain the queue. -/
def closeDrain (i : ι) : ℕ → Prog (Op ι D) (Reply QueueReply) Unit
  | 0 => .done ()
  | n + 1 => drain >>= fun drained =>
    match drained with
    | .error _ => closeDrain i n
    | .ok true => .op (.add i .eventDag) .done
    | .ok false => .done ()

/-- The attempts of `close` to sync what is dirty. -/
def closeSync (i : ι) : ℕ → Prog (Op ι D) (Reply QueueReply) Unit
  | 0 => .done ()
  | n + 1 => .op (.snapshot i) fun ps => .op (.sync i ps ps) fun synced =>
    if (synced : Bool) then .op .clear .done else closeSync i n

/-- `close`. -/
def close (i : ι) : Prog (Op ι D) (Reply QueueReply) (Except Unit Unit) :=
  .op (.cancel i) fun cancelled =>
    if (cancelled : Bool) then
      closeDrain drain i 3 >>= fun _ => .op .close fun _ => .op (.isDirty i) fun dirty =>
        if (dirty : Bool) then closeSync i 3 >>= fun _ => .done (.ok ()) else .done (.ok ())
    else .done (.error ())

end Sithnapse.Coalescer
