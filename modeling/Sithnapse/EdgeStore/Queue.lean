import Sithnapse.Kit.Pool
import Sithnapse.EdgeStore.Records

/-! The queue of edge writes of one namespace.

    `queue_edge_write` appends rows, `flush_edge_writes` takes them all and puts them in one batch, and
    `delete_event_edges_batch` takes out the rows of the events it deletes. All three hold the
    namespace's flush lock over their whole body; the state they share is changed in smaller sections
    under the queues' lock, one operation each here. Puts and deletes of the engine may fail, and rows
    taken out are then put back in front. An event deleted has a tombstone until a deadline, and rows
    for it are refused that long. -/

namespace Sithnapse.EdgeQueue

open Kit EdgeStore List Option

variable {ι R : Type}

/-! ### The shared state -/

/-- A batch as it is handed to the engine: when, which rows, and which deletes had succeeded. -/
structure Issue (R : Type) where
  time : ℕ
  rows : List (EdgeRow R)
  deleted : List (String × ℕ)

/-- The queue, the events being purged, the deadlines of the tombstones, the monotonic clock in
    nanoseconds, and the call that holds the flush lock. The other fields record what has happened and
    are read by no code. -/
structure Shared (ι R : Type) where
  lock : Option ι
  queue : List (EdgeRow R)
  purging : List String
  tombstones : String → Option ℕ
  clock : ℕ
  /-- Rows taken from the queue by the call that holds the lock. -/
  hand : List (EdgeRow R)
  /-- Rows that `queue_edge_write` appended. -/
  accepted : List (EdgeRow R)
  /-- Rows of puts that succeeded. -/
  put : List (EdgeRow R)
  /-- Rows that deletes which succeeded had taken out. -/
  cancelled : List (EdgeRow R)
  /-- The events of deletes that succeeded, with the deadlines of their tombstones. -/
  deleted : List (String × ℕ)
  /-- The puts handed to the engine. -/
  issues : List (Issue R)

/-- Nothing queued, nothing running. -/
def Shared.empty : Shared ι R := ⟨none, [], [], fun _ => none, 0, [], [], [], [], [], []⟩

/-- `_EDGE_WRITE_THRESHOLD`. -/
def threshold : ℕ := 64

/-- `_EDGE_WRITE_TOMBSTONE_TTL`, 600 seconds. -/
def ttl : ℕ := 600 * 10 ^ 9

/-- `_MAX_READ_CONTENTION_ATTEMPTS`. -/
def maxAttempts : ℕ := 5

/-! ### Operations -/

/-- The sections that change the shared state, and the calls into the engine. -/
inductive Op (ι R : Type)
  | lock (i : ι)
  | unlock
  | enqueue (rows : List (EdgeRow R))
  | drain
  /-- `event_edges_put`. -/
  | put (rows : List (EdgeRow R))
  /-- `sync_now` and `sync_event_dag_now`. -/
  | sync
  | restore (rows : List (EdgeRow R))
  /-- `time.monotonic()`. -/
  | now
  | cancel (now : ℕ) (purged : List String)
  /-- `event_edges_delete`; the deadline is that of the tombstones to come. -/
  | delete (purged : List String) (deadline : ℕ)
  | restoreCancelled (purged : List String) (rows : List (EdgeRow R))
  | entomb (purged : List String) (deadline : ℕ)

/-- A put returns, raises `BlockingIOError`, or raises another exception. -/
inductive PutReply
  | ok
  | contended
  | failed
  deriving DecidableEq

/-- The reply to each operation. -/
abbrev Reply : Op ι R → Type
  | .enqueue _ => Option Bool
  | .drain => List (EdgeRow R)
  | .put _ => PutReply
  | .sync => Bool
  | .now => ℕ
  | .cancel _ _ => List (EdgeRow R)
  | .delete _ _ => Bool
  | _ => Unit

/-- The time that passes before an operation, and what the engine replies to it. -/
structure Env where
  delay : ℕ
  reply : PutReply

variable (s : Shared ι R)

/-- Time passes. -/
def Shared.tick (d : ℕ) : Shared ι R := { s with clock := s.clock + d }

/-- `_prune_tombstones_locked`. -/
def prune (tombstones : String → Option ℕ) (now : ℕ) (e : String) : Option ℕ :=
  (tombstones e).filter fun deadline => now < deadline

/-- The rows of an append that are kept. -/
def admitted (tombstones : String → Option ℕ) (purging : List String) (rows : List (EdgeRow R)) :
    List (EdgeRow R) :=
  rows.filter fun row => (tombstones row.event).isNone ∧ row.event ∉ purging

variable (rows : List (EdgeRow R))

/-- The section of `queue_edge_write`: whether the queue is over the threshold, unless all rows were
    dropped. -/
def enqueue : Option Bool × Shared ι R :=
  let tombstones := prune s.tombstones s.clock
  let kept := admitted tombstones s.purging rows
  (if kept.isEmpty then none else some (threshold ≤ (s.queue ++ kept).length),
    { s with tombstones := tombstones, queue := s.queue ++ kept, accepted := s.accepted ++ kept })

/-- The first section of `_flush_namespace_locked`. -/
def drain : List (EdgeRow R) × Shared ι R :=
  (s.queue, { s with queue := [], hand := s.queue })

/-- `event_edges_put`: a failed one has no effect. -/
def put (s : Shared ι R) (rows : List (EdgeRow R)) (r : PutReply) : Shared ι R :=
  let s := { s with issues := s.issues ++ [⟨s.clock, rows, s.deleted⟩] }
  if r = .ok then { s with put := s.put ++ rows, hand := [] } else s

/-- The section that puts rows back in front. -/
def restore : Shared ι R :=
  { s with queue := rows ++ s.queue, hand := [] }

/-- The first section of `delete_event_edges_batch`. -/
def cancel (now : ℕ) (purged : List String) : List (EdgeRow R) × Shared ι R :=
  let rows := s.queue.filter fun row => row.event ∈ purged
  (rows, { s with tombstones := prune s.tombstones now
                  purging := s.purging ++ purged
                  queue := s.queue.filter fun row => row.event ∉ purged
                  hand := rows })

/-- `event_edges_delete`: the rows taken out are cancelled with it. -/
def delete (purged : List String) (deadline : ℕ) : Shared ι R :=
  { s with deleted := s.deleted ++ purged.map (·, deadline), cancelled := s.cancelled ++ s.hand
           hand := [] }

/-- The section after a delete that failed. -/
def restoreCancelled (purged : List String) (rows : List (EdgeRow R)) : Shared ι R :=
  { s with purging := s.purging.filter (· ∉ purged), queue := rows ++ s.queue, hand := [] }

/-- The section after a delete that succeeded. -/
def entomb (purged : List String) (deadline : ℕ) : Shared ι R :=
  { s with purging := s.purging.filter (· ∉ purged)
           tombstones := fun e => if e ∈ purged then some deadline else s.tombstones e }

/-- One operation. -/
def exec : (o : Op ι R) → Env → Shared ι R → Option (Reply o × Shared ι R)
  | .lock i, c, s => if s.lock.isNone then some ((), { s.tick c.delay with lock := some i }) else none
  | .unlock, c, s => some ((), { s.tick c.delay with lock := none })
  | .enqueue rows, c, s => some (enqueue (s.tick c.delay) rows)
  | .drain, c, s => some (drain (s.tick c.delay))
  | .put rows, c, s => some (c.reply, put (s.tick c.delay) rows c.reply)
  | .sync, c, s => some (c.reply = .ok, s.tick c.delay)
  | .restore rows, c, s => some ((), restore (s.tick c.delay) rows)
  | .now, c, s => some ((s.tick c.delay).clock, s.tick c.delay)
  | .cancel now purged, c, s => some (cancel (s.tick c.delay) now purged)
  | .delete purged deadline, c, s =>
    if c.reply = .ok then some (true, delete (s.tick c.delay) purged deadline)
    else some (false, s.tick c.delay)
  | .restoreCancelled purged rows, c, s => some ((), restoreCancelled (s.tick c.delay) purged rows)
  | .entomb purged deadline, c, s => some ((), entomb (s.tick c.delay) purged deadline)

/-! ### The calls -/

/-- `_retry_on_contention` around a put, by the attempts left: whether it returned. -/
def putRetry (rows : List (EdgeRow R)) : ℕ → Prog (Op ι R) Reply Bool
  | 0 => .done false
  | n + 1 => .op (.put rows) fun r =>
    match (r : PutReply) with
    | .ok => .done true
    | .failed => .done false
    | .contended => putRetry rows n

/-- `put_event_edges_batch`: whether it returned. The sync after a put may fail too. -/
def putBatch (sync : Bool) : Prog (Op ι R) Reply Bool :=
  putRetry rows maxAttempts >>= fun ok =>
    if ok ∧ sync then .op .sync fun synced => .done synced else .done ok

/-- `_flush_namespace_locked`: whether rows were flushed, or an exception. -/
def flushLocked (sync : Bool) : Prog (Op ι R) Reply (Except Unit Bool) :=
  .op .drain fun rows =>
    if rows.isEmpty then .done (.ok false)
    else putBatch rows sync >>= fun ok =>
      if ok then .done (.ok true) else .op (.restore rows) fun _ => .done (.error ())

/-- The result of a call: an exception, or a value where it has one. -/
abbrev Result := Except Unit (Option Bool)

/-- `queue_edge_write`. A flush that fails is logged only. -/
def queueEdgeWrite (i : ι) (rows : List (EdgeRow R)) (sync : Bool) : Prog (Op ι R) Reply Result :=
  if rows.isEmpty then .done (.ok none)
  else .op (.lock i) fun _ => .op (.enqueue rows) fun full =>
    match (full : Option Bool) with
    | some true => flushLocked sync >>= fun _ => .op .unlock fun _ => .done (.ok none)
    | _ => .op .unlock fun _ => .done (.ok none)

/-- `flush_edge_writes` of the namespace. -/
def flushEdgeWrites (i : ι) (sync : Bool) : Prog (Op ι R) Reply Result :=
  .op (.lock i) fun _ => flushLocked sync >>= fun r => .op .unlock fun _ => .done (r.map some)

/-- `delete_event_edges_batch`. -/
def deleteEventEdgesBatch (i : ι) (events : List String) : Prog (Op ι R) Reply Result :=
  if events.isEmpty then .done (.ok none)
  else .op (.lock i) fun _ => .op .now fun now => .op (.cancel now events) fun rows =>
    .op (.delete events (now + ttl)) fun ok =>
      if ok then
        .op (.entomb events (now + ttl)) fun _ => .op .sync fun synced => .op .unlock fun _ =>
          .done (if synced then .ok none else .error ())
      else .op (.restoreCancelled events rows) fun _ => .op .unlock fun _ => .done (.error ())

/-- The calls. -/
inductive Call (R : Type)
  | write (rows : List (EdgeRow R)) (sync : Bool)
  | flush (sync : Bool)
  | delete (events : List String)

/-- The program of a call. -/
def program (i : ι) : Call R → Prog (Op ι R) Reply Result
  | .write rows sync => queueEdgeWrite i rows sync
  | .flush sync => flushEdgeWrites i sync
  | .delete events => deleteEventEdgesBatch i events

/-- Calls side by side. -/
abbrev System (ι R : Type) := Pool ι (Shared ι R) (Call R) (Op ι R) Reply Result

variable [DecidableEq R]

/-- One action; a call that hangs keeps the lock. -/
def step [DecidableEq ι] (pool : System ι R) (a : Act ι Env (Call R)) : Option (System ι R) :=
  pool.step exec program (fun _ s => s) a

/-! ### The invariant -/

/-- No row is lost, cancelled rows belong to deleted events, and no put was issued with a row of an
    event before the deadline of its tombstone. -/
structure Kept (s : Shared ι R) : Prop where
  rows : ∀ row, s.accepted.count row ≤ (s.queue ++ s.hand ++ s.put ++ s.cancelled).count row
  cancelled : ∀ row ∈ s.cancelled, ∃ d, (row.event, d) ∈ s.deleted
  issues : ∀ x ∈ s.issues, ∀ row ∈ x.rows, ∀ d, (row.event, d) ∈ x.deleted → d ≤ x.time

/-- No tombstone is due for any of the rows. -/
def Clear : Prop :=
  ∀ row ∈ rows, ∀ d, (row.event, d) ∈ s.deleted → d ≤ s.clock

/-- Deleted events are guarded until their deadlines, which lie within the tombstones' lifetime. -/
structure Guarded (s : Shared ι R) : Prop where
  entombed : ∀ e d, (e, d) ∈ s.deleted → s.clock < d → ∃ d', s.tombstones e = some d' ∧ d ≤ d'
  bound : ∀ e d, (e, d) ∈ s.deleted → d ≤ s.clock + ttl
  clear : Clear s s.queue

/-- Nothing is in hand, and no purge is under way. -/
structure Idle (s : Shared ι R) : Prop where
  hand : s.hand = []
  purging : s.purging = []
  guarded : Guarded s

variable {s : Shared ι R}

omit [DecidableEq R] in
theorem Clear.tick {rows : List (EdgeRow R)} (h : Clear s rows) (d : ℕ) : Clear (s.tick d) rows :=
  fun row hrow d' hd => (h row hrow d' hd).trans (Nat.le_add_right _ _)

omit [DecidableEq R] in
theorem Guarded.tick (h : Guarded s) (d : ℕ) : Guarded (s.tick d) where
  entombed e d' hd hlt := h.entombed e d' hd (lt_of_le_of_lt (Nat.le_add_right _ _) hlt)
  bound e d' hd := (h.bound e d' hd).trans (Nat.add_le_add_right (Nat.le_add_right _ _) _)
  clear := h.clear.tick d

omit [DecidableEq R] in
theorem Idle.tick (h : Idle s) (d : ℕ) : Idle (s.tick d) :=
  ⟨h.hand, h.purging, h.guarded.tick d⟩

theorem Kept.tick (h : Kept s) (d : ℕ) : Kept (s.tick d) := { h with }

variable {now : ℕ}

omit [DecidableEq R] in
/-- A tombstone that is due survives a pruning at an earlier time. -/
theorem prune_due (h : Guarded s) (hnow : now ≤ s.clock) {e : String} {d : ℕ}
    (hd : (e, d) ∈ s.deleted) (hlt : s.clock < d) : ∃ d', prune s.tombstones now e = some d' ∧ d ≤ d' := by
  obtain ⟨d', htomb, hle⟩ := h.entombed e d hd hlt
  refine ⟨d', ?_, hle⟩
  rw [prune, htomb, filter_some, if_pos (decide_eq_true (by omega))]

/-! ### What the sections keep -/

section Sections

variable {rows : List (EdgeRow R)} {purged : List String} {deadline : ℕ}

theorem Kept.enqueue (h : Kept s) (rows : List (EdgeRow R)) : Kept (enqueue s rows).2 := by
  refine { h with rows := fun row => ?_ }
  have hrow := h.rows row
  simp only [EdgeQueue.enqueue, count_append] at hrow ⊢
  omega

omit [DecidableEq R] in
/-- Rows of an event with a tombstone that is due are not admitted. -/
theorem Idle.enqueue (h : Idle s) (rows : List (EdgeRow R)) : Idle (enqueue s rows).2 where
  hand := h.hand
  purging := h.purging
  guarded :=
    { entombed := fun e d hd hlt => prune_due h.guarded le_rfl hd hlt
      bound := h.guarded.bound
      clear := by
        intro row hrow d hd
        rcases mem_append.mp hrow with hrow | hrow
        · exact h.guarded.clear row hrow d hd
        · by_contra hlt
          obtain ⟨d', htomb, -⟩ := prune_due h.guarded le_rfl hd (not_le.mp hlt)
          have hnone := (of_decide_eq_true (mem_filter.mp hrow).2).1
          rw [htomb] at hnone
          cases hnone }

theorem Kept.drain (h : Kept s) (hhand : s.hand = []) : Kept (drain s).2 := by
  refine { h with rows := fun row => ?_ }
  have hrow := h.rows row
  simp only [EdgeQueue.drain, hhand, count_append, count_nil] at hrow ⊢
  omega

/-- A put of the rows in hand, none of which has a tombstone due. -/
theorem Kept.put (h : Kept s) (hhand : s.hand = rows) (hclear : Clear s rows) (r : PutReply) :
    Kept (put s rows r) := by
  have hissues : ∀ x ∈ s.issues ++ [⟨s.clock, rows, s.deleted⟩], ∀ row ∈ x.rows, ∀ d,
      (row.event, d) ∈ x.deleted → d ≤ x.time := forall_mem_concat.mpr ⟨h.issues, hclear⟩
  rw [EdgeQueue.put]
  split
  · refine ⟨fun row => ?_, h.cancelled, hissues⟩
    have hrow := h.rows row
    simp only [hhand, count_append, count_nil] at hrow ⊢
    omega
  · exact ⟨h.rows, h.cancelled, hissues⟩

theorem Kept.restore (h : Kept s) (hhand : s.hand = rows ∨ s.hand = []) : Kept (restore s rows) := by
  refine { h with rows := fun row => ?_ }
  have hrow := h.rows row
  rcases hhand with hhand | hhand <;>
    simp only [EdgeQueue.restore, hhand, count_append, count_nil] at hrow ⊢ <;> omega

/-- The queue is what a delete leaves and what it takes out. -/
theorem count_split (queue : List (EdgeRow R)) (purged : List String) (row : EdgeRow R) :
    queue.count row = (queue.filter fun row => row.event ∉ purged).count row +
      (queue.filter fun row => row.event ∈ purged).count row := by
  rw [List.count, countP_eq_countP_filter_add queue _ fun row => row.event ∈ purged, add_comm]
  simp

theorem Kept.cancel (h : Kept s) (hhand : s.hand = []) (now : ℕ) (purged : List String) :
    Kept (cancel s now purged).2 := by
  refine { h with rows := fun row => ?_ }
  have hrow := h.rows row
  have hsplit := count_split s.queue purged row
  simp only [EdgeQueue.cancel, hhand, count_append, count_nil] at hrow ⊢
  omega

/-- The rows in hand are of the deleted events, so they are rightly cancelled. -/
theorem Kept.delete (h : Kept s) (hhand : ∀ row ∈ s.hand, row.event ∈ purged) :
    Kept (delete s purged deadline) where
  rows row := by
    have hrow := h.rows row
    simp only [EdgeQueue.delete, count_append, count_nil] at hrow ⊢
    omega
  cancelled row hrow := by
    rcases mem_append.mp hrow with hrow | hrow
    · exact (h.cancelled row hrow).imp fun d hd => mem_append_left _ hd
    · exact ⟨deadline, mem_append_right _ (mem_map.mpr ⟨_, hhand row hrow, rfl⟩)⟩
  issues := h.issues

theorem Kept.restoreCancelled (h : Kept s) (hhand : s.hand = rows) :
    Kept (restoreCancelled s purged rows) := by
  refine { h with rows := fun row => ?_ }
  have hrow := h.rows row
  simp only [EdgeQueue.restoreCancelled, hhand, count_append, count_nil] at hrow ⊢
  omega

theorem Kept.entomb (h : Kept s) : Kept (entomb s purged deadline) := { h with }

end Sections

/-! ### Calls side by side -/

/-- Who holds the lock finds the state as it was left; without a holder nothing is under way. -/
def rules : Rules ι (Shared ι R) (Call R) (Op ι R) Result where
  inv s := Kept s ∧ (s.lock = none → Idle s)
  may _ _ := True
  rely i _ s s' := s.lock = some i → s' = s
  guar i _ s s' := ∀ j, j ≠ i → s.lock = some j → s' = s
  post _ _ _ _ := True

/-- The call holds the lock, with nothing in hand. -/
structure Held (i : ι) (s : Shared ι R) : Prop where
  lock : s.lock = some i
  kept : Kept s
  idle : Idle s

/-- The call holds the lock and the rows of a batch, which may be put. -/
structure InHand (i : ι) (rows : List (EdgeRow R)) (s : Shared ι R) : Prop where
  lock : s.lock = some i
  kept : Kept s
  hand : s.hand = rows
  purging : s.purging = []
  guarded : Guarded s
  clear : Clear s rows

section Calls

variable {i : ι} {β : Type} {Q : β → Shared ι R → Prop}

/-- An operation of the call that holds the lock; where it gives the lock back, nothing is under way. -/
theorem safe_held {o : Op ι R} {next : Reply o → Prog (Op ι R) Reply β} (hlock : s.lock = some i)
    (h : ∀ c r s', exec o c s = some (r, s') →
      Kept s' ∧ (s'.lock = some i ∨ Idle s') ∧ Safe exec rules i Q (next r) s') :
    Safe exec rules i Q (.op o next) s := by
  intro s₁ _ hrely _ c r s' hexec
  obtain rfl := hrely hlock
  obtain ⟨hkept, hidle, hnext⟩ := h c r s' hexec
  refine ⟨⟨hkept, fun hnone => hidle.resolve_left fun hl => ?_⟩, fun j hj hl => ?_, hnext⟩
  · exact absurd (hl.symm.trans hnone) (by simp)
  · exact absurd (mem_unique hl hlock) hj

variable {next : Unit → Prog (Op ι R) Reply β} {events : List String}

/-- Taking the lock. -/
theorem safe_lock (h : ∀ s', Held i s' → Safe exec rules i Q (next ()) s') :
    Safe exec rules i Q (.op (.lock i) next) s := by
  intro s₁ hinv _ _ c r s' hexec
  rw [exec] at hexec
  split at hexec
  · rename_i hfree
    cases hexec
    have hnone : s₁.lock = none := isNone_iff_eq_none.mp hfree
    have hidle := (hinv.2 hnone).tick c.delay
    have hheld : Held i { s₁.tick c.delay with lock := some i } :=
      ⟨rfl, ⟨hinv.1.rows, hinv.1.cancelled, hinv.1.issues⟩, hidle.hand, hidle.purging,
        hidle.guarded.entombed, hidle.guarded.bound, hidle.guarded.clear⟩
    refine ⟨⟨hheld.kept, nofun⟩, fun j _ hj => ?_, h _ hheld⟩
    exact absurd (hj.symm.trans hnone) (by simp)
  · cases hexec

/-- Giving the lock back. -/
theorem safe_unlock (h : Held i s) (b : β) (hQ : ∀ s', Q b s') :
    Safe exec rules i Q (.op .unlock fun _ => .done b) s := by
  refine safe_held h.lock fun c r s' hexec => ?_
  cases hexec
  have hidle := h.idle.tick c.delay
  exact ⟨{ h.kept with }, .inr { hidle with guarded := { hidle.guarded with } }, hQ _⟩

variable {rows : List (EdgeRow R)}

/-- The batch is put, or stays in hand. -/
theorem putRetry_safe : ∀ (n : ℕ) {s : Shared ι R}, InHand i rows s →
    Safe exec rules i (fun ok s' => if ok then Held i s' ∧ Clear s' rows else InHand i rows s')
      (putRetry rows n) s
  | 0, s, h => h
  | n + 1, s, h => by
    refine safe_held h.lock fun c r s' hexec => ?_
    cases hexec
    have hguarded := h.guarded.tick c.delay
    have hclear := h.clear.tick c.delay
    have hkept := (h.kept.tick c.delay).put h.hand hclear c.reply
    cases hr : c.reply with
    | ok =>
      rw [hr] at hkept
      have hheld : Held i (put (s.tick c.delay) rows .ok) :=
        ⟨h.lock, hkept, rfl, h.purging, { hguarded with }⟩
      exact ⟨hkept, .inl hheld.lock, hheld, hclear⟩
    | failed =>
      rw [hr] at hkept
      have hin : InHand i rows (put (s.tick c.delay) rows .failed) :=
        ⟨h.lock, hkept, h.hand, h.purging, { hguarded with }, hclear⟩
      exact ⟨hkept, .inl hin.lock, hin⟩
    | contended =>
      rw [hr] at hkept
      have hin : InHand i rows (put (s.tick c.delay) rows .contended) :=
        ⟨h.lock, hkept, h.hand, h.purging, { hguarded with }, hclear⟩
      exact ⟨hkept, .inl hin.lock, putRetry_safe n hin⟩

/-- Rows that may be put go back in front of the queue. -/
theorem safe_restore (hlock : s.lock = some i) (hkept : Kept s) (hhand : s.hand = rows ∨ s.hand = [])
    (hpurging : s.purging = []) (hguarded : Guarded s) (hclear : Clear s rows)
    (h : ∀ s', Held i s' → Safe exec rules i Q (next ()) s') :
    Safe exec rules i Q (.op (.restore rows) next) s := by
  refine safe_held hlock fun c r s' hexec => ?_
  cases hexec
  have htick := hguarded.tick c.delay
  have hqueue : Clear (restore (s.tick c.delay) rows) (rows ++ s.queue) := by
    intro row hrow
    rcases mem_append.mp hrow with hrow | hrow
    · exact hclear.tick c.delay row hrow
    · exact htick.clear row hrow
  have hheld : Held i (restore (s.tick c.delay) rows) :=
    ⟨hlock, (hkept.tick c.delay).restore hhand, rfl, hpurging, htick.entombed, htick.bound, hqueue⟩
  exact ⟨hheld.kept, .inl hheld.lock, h _ hheld⟩

/-- Syncing keeps what is held. -/
theorem safe_sync {next : Bool → Prog (Op ι R) Reply β} (h : Held i s)
    (hnext : ∀ b d, Held i (s.tick d) → Safe exec rules i Q (next b) (s.tick d)) :
    Safe exec rules i Q (.op .sync next) s := by
  refine safe_held h.lock fun c r s' hexec => ?_
  cases hexec
  have hheld : Held i (s.tick c.delay) := ⟨h.lock, h.kept.tick c.delay, h.idle.tick c.delay⟩
  exact ⟨hheld.kept, .inl hheld.lock, hnext _ _ hheld⟩

/-- A flush leaves nothing in hand, whether it fails or not. -/
theorem flushLocked_safe (sync : Bool) (h : Held i s) :
    Safe exec rules i (fun _ s' => Held i s') (flushLocked sync) s := by
  refine safe_held h.lock fun c rows s' hexec => ?_
  obtain ⟨hrows, hs⟩ := some_pair_inj hexec
  subst hrows hs
  have hidle := h.idle.tick c.delay
  have hkept := (h.kept.tick c.delay).drain hidle.hand
  have hin : InHand i s.queue (drain (s.tick c.delay)).2 :=
    ⟨h.lock, hkept, rfl, h.idle.purging, { hidle.guarded with clear := nofun }, hidle.guarded.clear⟩
  refine ⟨hkept, .inl hin.lock, ?_⟩
  split_ifs with hempty
  · have hnil : s.queue = [] := isEmpty_iff.mp hempty
    exact ⟨hin.lock, hkept, hin.hand.trans hnil, hin.purging, hin.guarded⟩
  · -- the batch is put and synced, or comes back in front
    refine Safe.bind (Q := fun ok s' => if ok then Held i s' ∧ Clear s' s.queue else
      (s'.hand = s.queue ∨ s'.hand = []) ∧ s'.lock = some i ∧ Kept s' ∧ s'.purging = [] ∧
        Guarded s' ∧ Clear s' s.queue) ?_ fun ok s' hput => ?_
    · refine (putRetry_safe maxAttempts hin).bind fun ok s' hput => ?_
      cases ok with
      | false => exact ⟨.inl hput.hand, hput.lock, hput.kept, hput.purging, hput.guarded, hput.clear⟩
      | true =>
        obtain ⟨hheld, hclear⟩ : Held i s' ∧ Clear s' s.queue := hput
        cases sync with
        | false => exact ⟨hheld, hclear⟩
        | true =>
          refine safe_sync hheld fun b d hheld' => ?_
          cases b with
          | true => exact ⟨hheld', hclear.tick d⟩
          | false => exact ⟨.inr hheld'.idle.hand, hheld'.lock, hheld'.kept, hheld'.idle.purging,
              hheld'.idle.guarded, hclear.tick d⟩
    · cases ok with
      | true => exact hput.1
      | false =>
        obtain ⟨hhand, hlock, hkept', hpurging, hguarded, hclear⟩ := hput
        exact safe_restore hlock hkept' hhand hpurging hguarded hclear fun _ hheld => hheld

/-- A delete has taken the rows of its events out of the queue. -/
structure Purging (i : ι) (events : List String) (now : ℕ) (rows : List (EdgeRow R))
    (s : Shared ι R) : Prop where
  lock : s.lock = some i
  kept : Kept s
  hand : s.hand = rows
  taken : ∀ row ∈ rows, row.event ∈ events
  left : ∀ row ∈ s.queue, row.event ∉ events
  purging : s.purging = events
  guarded : Guarded s
  clear : Clear s rows
  later : now ≤ s.clock
  due : ∀ e d, (e, d) ∈ s.deleted → d ≤ now + ttl

/-- The events are deleted and have no tombstones yet. -/
structure Purged (i : ι) (events : List String) (now : ℕ) (s : Shared ι R) : Prop where
  lock : s.lock = some i
  kept : Kept s
  hand : s.hand = []
  purging : s.purging = events
  entombed : ∀ e d, (e, d) ∈ s.deleted → s.clock < d → e ∉ events → ∃ d', s.tombstones e = some d' ∧ d ≤ d'
  clear : Clear s s.queue
  later : now ≤ s.clock
  due : ∀ e d, (e, d) ∈ s.deleted → d ≤ now + ttl

theorem filter_not_mem_self (events : List String) : events.filter (· ∉ events) = [] := by
  rw [filter_eq_nil_iff]
  intro e he
  simpa using he

/-- Cancelling the rows of some events. -/
theorem safe_cancel {next : List (EdgeRow R) → Prog (Op ι R) Reply β} (h : Held i s) (hnow : now ≤ s.clock)
    (hdue : ∀ e d, (e, d) ∈ s.deleted → d ≤ now + ttl)
    (hnext : ∀ rows s', Purging i events now rows s' → Safe exec rules i Q (next rows) s') :
    Safe exec rules i Q (.op (.cancel now events) next) s := by
  refine safe_held h.lock fun c rows s' hexec => ?_
  obtain ⟨hrows, hs⟩ := some_pair_inj hexec
  subst hrows hs
  have hidle := h.idle.tick c.delay
  have hkept := (h.kept.tick c.delay).cancel hidle.hand now events
  have hlater : now ≤ (s.tick c.delay).clock := hnow.trans (Nat.le_add_right _ _)
  have hpurging : Purging i events now (s.queue.filter fun row => row.event ∈ events)
      (cancel (s.tick c.delay) now events).2 :=
    { lock := h.lock
      kept := hkept
      hand := rfl
      taken := fun row hrow => of_decide_eq_true (mem_filter.mp hrow).2
      left := fun row hrow => of_decide_eq_true (mem_filter.mp hrow).2
      purging := by
        show s.purging ++ events = events
        rw [h.idle.purging, nil_append]
      guarded := ⟨fun e d hd hlt => prune_due hidle.guarded hlater hd hlt, hidle.guarded.bound,
        fun row hrow => hidle.guarded.clear row (mem_filter.mp hrow).1⟩
      clear := fun row hrow => hidle.guarded.clear row (mem_filter.mp hrow).1
      later := hlater
      due := hdue }
  exact ⟨hkept, .inl hpurging.lock, hnext _ _ hpurging⟩

/-- The delete of the engine: afterwards no queued row is of a deleted event whose deadline is to
    come, and the rows taken out are cancelled; or nothing has changed. -/
theorem safe_delete {next : Bool → Prog (Op ι R) Reply β} (h : Purging i events now rows s)
    (hok : ∀ s', Purged i events now s' → Safe exec rules i Q (next true) s')
    (hfail : ∀ s', Purging i events now rows s' → Safe exec rules i Q (next false) s') :
    Safe exec rules i Q (.op (.delete events (now + ttl)) next) s := by
  refine safe_held h.lock fun c r s' hexec => ?_
  have htick := h.guarded.tick c.delay
  have hlater : now ≤ (s.tick c.delay).clock := h.later.trans (Nat.le_add_right _ _)
  rw [exec] at hexec
  split at hexec
  · cases hexec
    have hkept : Kept (delete (s.tick c.delay) events (now + ttl)) :=
      (h.kept.tick c.delay).delete fun row hrow => h.taken row (h.hand ▸ hrow)
    -- a delete recorded is an earlier one or one of these
    have hcases : ∀ e d, (e, d) ∈ s.deleted ++ events.map (·, now + ttl) →
        (e, d) ∈ s.deleted ∨ e ∈ events ∧ d = now + ttl := by
      intro e d hd
      refine (mem_append.mp hd).imp_right fun hmem => ?_
      obtain ⟨x, hx, heq⟩ := mem_map.mp hmem
      cases heq
      exact ⟨hx, rfl⟩
    have hpurged : Purged i events now (delete (s.tick c.delay) events (now + ttl)) :=
      { lock := h.lock
        kept := hkept
        hand := rfl
        purging := h.purging
        entombed := fun e d hd hlt he =>
          htick.entombed e d ((hcases e d hd).resolve_right fun hnew => he hnew.1) hlt
        clear := fun row hrow d hd => htick.clear row hrow d
          ((hcases row.event d hd).resolve_right fun hnew => h.left row hrow hnew.1)
        later := hlater
        due := fun e d hd => (hcases e d hd).elim (h.due e d) fun hnew => hnew.2.le }
    exact ⟨hkept, .inl hpurged.lock, hok _ hpurged⟩
  · cases hexec
    have hpurging : Purging i events now rows (s.tick c.delay) :=
      ⟨h.lock, h.kept.tick c.delay, h.hand, h.taken, h.left, h.purging, htick, h.clear.tick c.delay,
        hlater, h.due⟩
    exact ⟨hpurging.kept, .inl hpurging.lock, hfail _ hpurging⟩

/-- Tombstones for the deleted events. -/
theorem safe_entomb (h : Purged i events now s) (hnext : ∀ s', Held i s' → Safe exec rules i Q (next ()) s') :
    Safe exec rules i Q (.op (.entomb events (now + ttl)) next) s := by
  refine safe_held h.lock fun c r s' hexec => ?_
  cases hexec
  have hlater : now ≤ (s.tick c.delay).clock := h.later.trans (Nat.le_add_right _ _)
  have hheld : Held i (entomb (s.tick c.delay) events (now + ttl)) :=
    { lock := h.lock
      kept := (h.kept.tick c.delay).entomb
      idle :=
        { hand := h.hand
          purging := by
            show s.purging.filter (· ∉ events) = []
            rw [h.purging, filter_not_mem_self]
          guarded :=
            { entombed := fun e d hd hlt => by
                by_cases he : e ∈ events
                · exact ⟨now + ttl, if_pos he, h.due e d hd⟩
                · obtain ⟨d', htomb, hle⟩ := h.entombed e d hd (lt_of_le_of_lt (Nat.le_add_right _ _) hlt) he
                  exact ⟨d', (if_neg he).trans htomb, hle⟩
              bound := fun e d hd => (h.due e d hd).trans (Nat.add_le_add_right hlater _)
              clear := h.clear.tick c.delay } } }
  exact ⟨hheld.kept, .inl hheld.lock, hnext _ hheld⟩

/-- After a delete that failed, its rows are back in front. -/
theorem safe_restoreCancelled (h : Purging i events now rows s)
    (hnext : ∀ s', Held i s' → Safe exec rules i Q (next ()) s') :
    Safe exec rules i Q (.op (.restoreCancelled events rows) next) s := by
  refine safe_held h.lock fun c r s' hexec => ?_
  cases hexec
  have htick := h.guarded.tick c.delay
  have hheld : Held i (restoreCancelled (s.tick c.delay) events rows) :=
    { lock := h.lock
      kept := (h.kept.tick c.delay).restoreCancelled h.hand
      idle :=
        { hand := rfl
          purging := by
            show s.purging.filter (· ∉ events) = []
            rw [h.purging, filter_not_mem_self]
          guarded := ⟨htick.entombed, htick.bound, fun row hrow =>
            (mem_append.mp hrow).elim (h.clear.tick c.delay row) (htick.clear row)⟩ } }
  exact ⟨hheld.kept, .inl hheld.lock, hnext _ hheld⟩

theorem queueEdgeWrite_safe (rows : List (EdgeRow R)) (sync : Bool) (s : Shared ι R) :
    Safe exec rules i (fun _ _ => True) (queueEdgeWrite i rows sync) s := by
  rw [queueEdgeWrite]
  split
  · exact trivial
  · refine safe_lock fun s₁ h => safe_held h.lock fun c full s₂ hexec => ?_
    obtain ⟨hfull, hs⟩ := some_pair_inj hexec
    subst hs
    have hheld : Held i (enqueue (s₁.tick c.delay) rows).2 :=
      ⟨h.lock, (h.kept.tick c.delay).enqueue rows, (h.idle.tick c.delay).enqueue rows⟩
    refine ⟨hheld.kept, .inl hheld.lock, ?_⟩
    match full with
    | none | some false => exact safe_unlock hheld _ fun _ => trivial
    | some true =>
      exact (flushLocked_safe sync hheld).bind fun _ s' h' =>
        safe_unlock h' _ fun _ => trivial

theorem flushEdgeWrites_safe (sync : Bool) (s : Shared ι R) :
    Safe exec rules i (fun _ _ => True) (flushEdgeWrites i sync : Prog (Op ι R) Reply Result) s :=
  safe_lock fun _ h => (flushLocked_safe sync h).bind fun _ _ h' =>
    safe_unlock h' _ fun _ => trivial

theorem deleteEventEdgesBatch_safe (events : List String) (s : Shared ι R) :
    Safe exec rules i (fun _ _ => True) (deleteEventEdgesBatch i events : Prog (Op ι R) Reply Result) s := by
  rw [deleteEventEdgesBatch]
  split
  · exact trivial
  · refine safe_lock fun s₁ h => safe_held h.lock fun c now s₂ hexec => ?_
    cases hexec
    have hheld : Held i (s₁.tick c.delay) := ⟨h.lock, h.kept.tick c.delay, h.idle.tick c.delay⟩
    refine ⟨hheld.kept, .inl hheld.lock, ?_⟩
    refine safe_cancel hheld le_rfl hheld.idle.guarded.bound fun rows s₃ hpurging => ?_
    refine safe_delete hpurging (fun s₄ hpurged => ?_) fun s₄ hpurging' => ?_
    · exact safe_entomb hpurged fun s₅ h₅ => safe_sync h₅ fun b d h₆ => safe_unlock h₆ _ fun _ => trivial
    · exact safe_restoreCancelled hpurging' fun s₅ h₅ => safe_unlock h₅ _ fun _ => trivial

end Calls

theorem rules_fit_queue [DecidableEq ι] :
    (rules (ι := ι) (R := R)).Fit exec program (fun _ s => s) (fun _ _ => True) where
  refl _ := rfl
  trans h h' hlock := by
    obtain rfl := h hlock
    exact h' hlock
  start {pool i call} _ _ := by
    cases call with
    | write rows sync => exact queueEdgeWrite_safe rows sync _
    | flush sync => exact flushEdgeWrites_safe sync _
    | delete events => exact deleteEventEdgesBatch_safe events _
  may _ _ := trivial
  other _ _ hj _ _ _ hguar hlock := hguar _ hj hlock
  keeps _ _ := trivial
  kill_inv h := h
  kill_other _ _ _ := rfl
  kill_keeps _ := trivial

theorem inv_empty : (rules (ι := ι) (R := R)).inv Shared.empty := by
  refine ⟨⟨fun row => by simp [Shared.empty], nofun, nofun⟩, fun _ => ⟨rfl, rfl, ?_⟩⟩
  exact ⟨nofun, nofun, nofun⟩

/-- In every state reached: each row accepted, as often as it was, is queued, in the hand of the call
    that holds the flush lock, passed to a put that succeeded, or cancelled by a delete of its event
    that succeeded; and no put was issued with a row of a deleted event before the event's deadline. -/
theorem edge_queue_keeps_rows [DecidableEq ι] {pool : System ι R}
    (hrun : Run step (fun _ _ => True) (Pool.start Shared.empty) pool) :
    (∀ row, pool.shared.accepted.count row ≤ pool.shared.queue.count row +
      pool.shared.hand.count row + pool.shared.put.count row + pool.shared.cancelled.count row) ∧
    (pool.shared.lock = none → pool.shared.hand = []) ∧
    (∀ row ∈ pool.shared.cancelled, ∃ d, (row.event, d) ∈ pool.shared.deleted) ∧
    ∀ x ∈ pool.shared.issues, ∀ row ∈ x.rows, ∀ d, (row.event, d) ∈ x.deleted → d ≤ x.time := by
  have hinv := (Pool.Sound.run rules_fit_queue inv_empty hrun).inv
  refine ⟨fun row => ?_, fun hlock => (hinv.2 hlock).hand, hinv.1.cancelled, hinv.1.issues⟩
  have hrow := hinv.1.rows row
  simp only [count_append] at hrow
  exact hrow

/-- Rows of `$a` and `$b` are queued, `$a` is deleted, a late row of `$a` comes in, a flush fails after
    contention, and another one succeeds. -/
def lateTrace : List (Act (Fin 2) Env (Call String)) :=
  .spawn 0 (.write [⟨"!r", "$a", "$p", false⟩, ⟨"!r", "$b", "$p", false⟩] false) ::
    List.replicate 3 (.step 0 ⟨1, .ok⟩) ++
  .spawn 1 (.delete ["$a"]) :: List.replicate 7 (.step 1 ⟨1, .ok⟩) ++
  .spawn 0 (.write [⟨"!r", "$a", "$p", false⟩] false) :: List.replicate 3 (.step 0 ⟨1, .ok⟩) ++
  [.spawn 1 (.flush false), .step 1 ⟨1, .ok⟩, .step 1 ⟨1, .ok⟩, .step 1 ⟨1, .contended⟩,
    .step 1 ⟨1, .failed⟩, .step 1 ⟨1, .ok⟩, .step 1 ⟨1, .ok⟩] ++
  .spawn 0 (.flush false) :: List.replicate 4 (.step 0 ⟨1, .ok⟩)

theorem edge_queue_keeps_rows_late : ∃ pool : System (Fin 2) String,
    Run step (fun _ _ => True) (Pool.start Shared.empty) pool ∧
    pool.shared.accepted = [⟨"!r", "$a", "$p", false⟩, ⟨"!r", "$b", "$p", false⟩] ∧
    pool.shared.put = [⟨"!r", "$b", "$p", false⟩] ∧
    pool.shared.cancelled = [⟨"!r", "$a", "$p", false⟩] ∧
    pool.shared.issues.map Issue.rows = List.replicate 3 [⟨"!r", "$b", "$p", false⟩] ∧
    ∀ x ∈ pool.shared.issues, ∀ row ∈ x.rows, ∀ d, (row.event, d) ∈ x.deleted → d ≤ x.time :=
  Run.exists_get lateTrace (by decide +kernel) fun hrun => ⟨by decide +kernel, by decide +kernel,
    by decide +kernel, by decide +kernel, (edge_queue_keeps_rows hrun).2.2.2⟩

end Sithnapse.EdgeQueue
