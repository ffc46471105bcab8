import Mathlib.Data.List.Sort
import Sithnapse.Kit.Alike
import Sithnapse.Kit.Outcome
import Sithnapse.Kit.Runs
import Sithnapse.StateGroups.Store

/-! The writers of the event to state group map.

    Four operations write the embedded mapping: persisting events, rewriting an event whose partial
    state was resolved, purging history, and the background migration that moves the rows of the SQL
    table `event_to_state_groups` over. Each adjusts the counters itself, from what it finds mapped
    already. Complete operations keep every counter equal to the number of events mapped to its
    group, unless events are persisted again with another group than they are mapped to: the mapping
    is then overwritten and no counter moves. -/

namespace Sithnapse.StateGroups

open Kit Kit.Dict List Option Except
open Prod (fst snd)

variable {E G : Type} [LinearOrder E] [DecidableEq G]

/-- What the writers read of an event. -/
structure Event (E : Type) where
  eventId : E
  msc4242StateDags : Bool
  outlier : Bool

/-- What the writers read of an event's context. -/
structure Context (G : Type) where
  rejected : Bool
  partialState : Bool
  stateGroup : Option G
  stateGroupBeforeEvent : Option G

/-- The group an event comes with: a rejected one has that of its predecessor. -/
def Context.group (context : Context G) : Option G :=
  if context.rejected then context.stateGroupBeforeEvent else context.stateGroup

inductive Error (E : Type)
  /-- ValueError: an outlier claims to have partial state. -/
  | outlierWithPartialState (eventId : E)
  | partialStateConflict
  | assertion

/-- Progress of the migration: the last event id handled, or that it was ended. -/
inductive Progress (E : Type)
  | after (lastEventId : Option E)
  | ended

/-- The SQL rows not migrated yet, the embedded engine and the migration's stored progress. -/
structure System (E G : Type) where
  sql : Dict E G
  store : Store E G
  progress : Progress E

/-! ### Persisting events -/

/-- The loop of `_store_event_state_mappings_txn` that collects the state groups. -/
def stateGroups : List (Event E × Context G) → Dict E (Option G) → Except (Error E) (Dict E (Option G))
  | [], d => .ok d
  | (event, context) :: rest, d =>
    if context.rejected then
      stateGroups rest (d.set event.eventId context.stateGroupBeforeEvent)
    else if !event.msc4242StateDags && event.outlier then
      if context.partialState then .error (.outlierWithPartialState event.eventId)
      -- an out-of-band invite is an outlier that does carry a state group
      else if context.stateGroup.isNone then stateGroups rest d
      else stateGroups rest (d.set event.eventId context.stateGroup)
    else stateGroups rest (d.set event.eventId context.stateGroup)

variable (d : Dict E (Option G))

def nonNullStateGroups : Dict E G :=
  .ofList (d.entries.filterMap fun p => p.2.map (p.1, ·))

/-- The writes of `_store_event_state_mappings_txn`: put every mapping, count the new events. -/
def writeStateGroups (groups : Dict E (Option G)) (s : Store E G) : Store E G :=
  let nonNull := nonNullStateGroups groups
  let existing := s.getStateGroupForEventsBatch groups.keys
  let newEventIds := groups.keys.filter (· ∉ existing.keys)
  (s.putEventToStateGroupBatch nonNull.entries).incrementStateGroupRefcountsBatch
    (newEventIds.filterMap nonNull.get?)

/-- `_store_event_state_mappings_txn`. The insert into `partial_state_events` fails when the room has
    been un-partial stated. -/
def storeEventStateMappings (unPartialStated : Bool) (events : List (Event E × Context G))
    (s : Store E G) : Except (Error E) (Store E G) := do
  let groups ← stateGroups events .empty
  if unPartialStated && events.any (·.2.partialState) then
    throw .partialStateConflict
  else
    return writeStateGroups groups s

/-! ### Resolving partial state -/

/-- The counters follow a rewrite from `old` to `new`. -/
def moveRefcount (old : Option G) (new : G) (s : Store E G) : Store E G :=
  match old with
  | none => s.incrementStateGroupRefcountsBatch [new]
  | some old =>
    if old ≠ new then
      (s.decrementStateGroupRefcountsBatch [old]).incrementStateGroupRefcountsBatch [new]
    else s

/-- `_update_state_for_partial_state_event_txn`. -/
def updateStateForPartialStateEvent (event : Event E) (context : Context G) (s : System E G) :
    Except (Error E) (System E G) :=
  if event.outlier then .error .assertion
  else
    match context.group with
    | none => .error .assertion
    | some stateGroup =>
      let old := s.store.getStateGroupForEventsBatch [event.eventId]
      let store := s.store.putEventToStateGroupBatch [(event.eventId, stateGroup)]
      .ok { s with
        sql := s.sql.filter (· ≠ event.eventId)
        store := moveRefcount (old.get? event.eventId) stateGroup store }

/-! ### Purging -/

/-- The part of `_purge_history_txn` about state groups: the groups the purged events referred to,
    and the state once its callbacks have run. -/
def purgeHistory (eventIds : List E) (s : System E G) : List G × System E G :=
  let unmigrated := s.sql.filter (· ∈ eventIds)
  let found := s.store.getStateGroupForEventsBatch eventIds
  (addAll (addAll [] unmigrated.values) found.values,
    { s with
      sql := s.sql.filter (· ∉ eventIds)
      store := (s.store.deleteEventToStateGroupBatch found.keys).decrementStateGroupRefcountsBatch
        found.values })

/-! ### Migrating -/

variable (sql : Dict E G)

/-- The rows of the next batch: those after the cursor, in order, at most `batchSize`. -/
def selectBatch (lastEventId : Option E) (batchSize : ℕ) : List (E × G) :=
  ((sql.entries.filter fun row => lastEventId.all (· < row.1)).insertionSort
    fun a b => a.1 ≤ b.1).take batchSize

/-- The rows the migration deletes and gets back. -/
def deletedRows (rows : List (E × G)) : List (E × G) :=
  sql.entries.filter fun row => row.1 ∈ rows.map fst

def deleteRows (rows : List (E × G)) : Dict E G :=
  sql.filter (· ∉ rows.map fst)

/-- The migrated rows that the embedded engine does not have. -/
def newRows (s : Store E G) (migratedRows : List (E × G)) : List (E × G) :=
  let alreadyMigrated := s.getStateGroupForEventsBatch (migratedRows.map fst)
  migratedRows.filter fun row => row.1 ∉ alreadyMigrated.keys

/-- One batch of `_background_migrate_event_to_state_groups_to_embedded`, run to its end. -/
def migrateBatch (batchSize : ℕ) (s : System E G) : Option (System E G) :=
  match s.progress with
  | .ended => none
  | .after lastEventId =>
    let rows := selectBatch s.sql lastEventId batchSize
    if rows.isEmpty then some { s with progress := .ended }
    else
      let new := newRows s.store (deletedRows s.sql rows)
      some {
        sql := deleteRows s.sql rows
        store := (s.store.putEventToStateGroupBatch new).incrementStateGroupRefcountsBatch (new.map snd)
        progress := .after (rows.getLast?.map fst) }

/-! ### What each writer does to the counters -/

omit [DecidableEq G] in
theorem get?_nonNullStateGroups {e : E} {g : G} :
    (nonNullStateGroups d).get? e = some g ↔ d.get? e = some (some g) := by
  have hmem : ∀ {w}, (e, w) ∈ d.entries.filterMap (fun p => p.2.map (p.1, ·)) ↔ d.get? e = some (some w) := by
    intro w
    rw [mem_filterMap, get?_eq_some_iff]
    constructor
    · rintro ⟨⟨e', v⟩, hmem, hw⟩
      obtain ⟨w', rfl, hpair⟩ := map_eq_some_iff.mp hw
      obtain ⟨rfl, rfl⟩ := Prod.mk.injEq .. ▸ hpair
      exact hmem
    · exact fun h => ⟨(e, some w), h, rfl⟩
  have hget := get?_update_of_some .empty fun w => hmem.trans join_eq_some_iff.symm
  rw [← join_eq_some_iff, ← or_none (o := (d.get? e).join)]
  exact iff_of_eq (congrArg (· = some g) hget)

omit [DecidableEq G] in
theorem keys_nonNullStateGroups {e : E}
    (h : e ∈ (nonNullStateGroups d).keys) : e ∈ d.keys := by
  obtain ⟨g, hg⟩ := mem_keys_iff.mp h
  exact mem_keys_iff.mpr ⟨_, (get?_nonNullStateGroups d).mp hg⟩

/-- Persisting events: each mapped event that is written takes its counted reference away from the
    group it had, and none is counted for the group it gets. -/
theorem balance_writeStateGroups (groups : Dict E (Option G)) (s : Store E G) (g : G) :
    (writeStateGroups groups s).balance g =
      s.balance g + (s.mapping.filter (· ∈ (nonNullStateGroups groups).keys)).holders g -
        ((nonNullStateGroups groups).filter (· ∈ s.mapping.keys)).holders g := by
  obtain ⟨rows, hrows⟩ : ∃ rows, rows = nonNullStateGroups groups := ⟨_, rfl⟩
  have hnew : ∀ k, (rows.filter
      (· ∈ groups.keys.filter (· ∉ (s.getStateGroupForEventsBatch groups.keys).keys))).get? k =
        (rows.filter (· ∉ s.mapping.keys)).get? k := by
    intro k
    rw [get?_filter, get?_filter]
    by_cases hk : k ∈ rows.keys
    · have hgroups : k ∈ groups.keys := keys_nonNullStateGroups groups (hrows ▸ hk)
      simp [hgroups, Store.mem_keys_getStateGroupForEventsBatch]
    · simp [get?_eq_none_iff.mpr hk]
  have hcount : (groups.keys.filter (· ∉ (s.getStateGroupForEventsBatch groups.keys).keys)
      |>.filterMap rows.get?).count g = (rows.filter (· ∉ s.mapping.keys)).holders g := by
    rw [← Dict.held, count_held _ ((show groups.keys.Nodup from groups.nodup).filter _)]
    exact holders_congr hnew g
  have hput := s.balance_put rows.nodup g
  have hsplit := rows.holders_filter (· ∈ s.mapping.keys) g
  have hheld := s.mapping.count_held rows.nodup g
  rw [writeStateGroups, Store.balance_increment, ← hrows, hcount, hput, hheld]
  simp only [decide_not] at hsplit ⊢
  rw [show ((rows.entries.map snd).count g : ℤ) = rows.holders g from rfl, ← hsplit]
  rw [show rows.entries.map fst = rows.keys from rfl]
  push_cast
  ring

/-- Persisting keeps the counters right where no mapped event gets another group. -/
theorem counted_writeStateGroups {groups : Dict E (Option G)} {s : Store E G} (h : s.Counted)
    (hsame : ∀ e g g', groups.get? e = some (some g) → s.mapping.get? e = some g' → g' = g) :
    (writeStateGroups groups s).Counted := by
  rw [Store.counted_iff] at h ⊢
  intro g
  have hlookup : ∀ e, (s.mapping.filter (· ∈ (nonNullStateGroups groups).keys)).get? e =
      ((nonNullStateGroups groups).filter (· ∈ s.mapping.keys)).get? e := by
    intro e
    rw [get?_filter, get?_filter]
    cases hrow : (nonNullStateGroups groups).get? e with
    | none => simp [get?_eq_none_iff.mp hrow]
    | some g₁ =>
      have hkey : e ∈ (nonNullStateGroups groups).keys := mem_keys_iff.mpr ⟨g₁, hrow⟩
      cases hold : s.mapping.get? e with
      | none => simp [get?_eq_none_iff.mp hold]
      | some g₂ =>
        have hmapped : e ∈ s.mapping.keys := mem_keys_iff.mpr ⟨g₂, hold⟩
        have hg := hsame e g₁ g₂ ((get?_nonNullStateGroups groups).mp hrow) hold
        simp [hkey, hmapped, hg]
  rw [balance_writeStateGroups, h g, holders_congr hlookup g]
  ring

omit [DecidableEq G] in
/-- The groups collected are those the events come with. -/
theorem stateGroups_group : ∀ (events : List (Event E × Context G)) (d : Dict E (Option G))
    {groups : Dict E (Option G)} {e : E} {g : G}, stateGroups events d = .ok groups →
    groups.get? e = some (some g) →
    d.get? e = some (some g) ∨ ∃ p ∈ events, p.1.eventId = e ∧ p.2.group = some g
  | [], d, groups, e, g, h, hg => by
    rw [stateGroups, ok.injEq] at h
    exact .inl (h ▸ hg)
  | (event, context) :: rest, d, groups, e, g, h, hg => by
    -- either the pair is skipped, or its group is entered under its id
    have hrest : (stateGroups rest d = .ok groups) ∨
        stateGroups rest (d.set event.eventId context.group) = .ok groups := by
      rw [stateGroups] at h
      simp only [Context.group]
      split_ifs at h ⊢ with hr ho hp hn
      · exact .inr h
      · exact .inl h
      · exact .inr h
      · exact .inr h
    rcases hrest with hrest | hrest
    · rcases stateGroups_group rest d hrest hg with hd | ⟨p, hp, hpe⟩
      · exact .inl hd
      · exact .inr ⟨p, mem_cons_of_mem _ hp, hpe⟩
    · rcases stateGroups_group rest _ hrest hg with hd | ⟨p, hp, hpe⟩
      · rcases get?_set_cases hd with ⟨he, hg⟩ | hd
        · exact .inr ⟨(event, context), (.head _), he.symm, hg⟩
        · exact .inl hd
      · exact .inr ⟨p, mem_cons_of_mem _ hp, hpe⟩

/-- A rewrite moves the counted reference along with the mapping. -/
theorem counted_moveRefcount {s : Store E G} (h : s.Counted) (e : E) (g : G) :
    (moveRefcount (s.mapping.get? e) g (s.putEventToStateGroupBatch [(e, g)])).Counted := by
  rw [Store.counted_iff] at h ⊢
  intro w
  have hput := s.balance_put (show ([(e, g)].map fst).Nodup by simp) w
  rw [h w, map_cons, map_nil, count_held_cons] at hput
  simp only [Dict.held, filterMap_nil, count_nil, map_cons, map_nil] at hput
  cases hold : s.mapping.get? e with
  | none =>
    rw [hold, toList_none, count_nil] at hput
    rw [moveRefcount, Store.balance_increment, hput]
    push_cast
    ring
  | some old =>
    rw [hold, toList_some] at hput
    simp only [moveRefcount]
    split_ifs with hne
    · rw [Store.balance_increment, Store.balance_decrement, hput]
      push_cast
      ring
    · rw [hput, not_not.mp hne]
      push_cast
      ring

variable {s s' : System E G}

/-- A purge gives back one reference for every mapping it deletes. -/
theorem counted_purgeHistory (h : s.store.Counted) (eventIds : List E) :
    (purgeHistory eventIds s).2.store.Counted := by
  rw [Store.counted_iff] at h ⊢
  intro g
  obtain ⟨found, hfound⟩ : ∃ d, d = s.store.getStateGroupForEventsBatch eventIds := ⟨_, rfl⟩
  have hlookup : ∀ e, (s.store.mapping.filter (· ∈ found.keys)).get? e = found.get? e := by
    intro e
    rw [get?_filter]
    cases hget : found.get? e with
    | none => simp [get?_eq_none_iff.mp hget]
    | some g' =>
      have hkey : e ∈ found.keys := mem_keys_iff.mpr ⟨g', hget⟩
      rw [hfound, Store.get?_getStateGroupForEventsBatch] at hget
      split at hget
      · simp [hkey, hget]
      · cases hget
  simp only [purgeHistory]
  rw [Store.balance_decrement, Store.balance_delete, h g, ← hfound, holders_congr hlookup g, Dict.holders]
  ring

/-- Writing rows for events without a mapping and counting them. -/
theorem counted_putNew {s : Store E G} (h : s.Counted) {rows : List (E × G)}
    (hnodup : (rows.map fst).Nodup) (hnew : ∀ row ∈ rows, s.mapping.get? row.1 = none) :
    ((s.putEventToStateGroupBatch rows).incrementStateGroupRefcountsBatch (rows.map snd)).Counted := by
  rw [Store.counted_iff] at h ⊢
  intro g
  have hheld : s.mapping.held (rows.map fst) = [] := by
    rw [Dict.held, filterMap_eq_nil_iff]
    exact forall_mem_map.mpr hnew
  rw [Store.balance_increment, Store.balance_put _ hnodup, h g, hheld, count_nil]
  push_cast
  ring

omit [DecidableEq G] in
theorem nodup_newRows (s : Store E G) (sql : Dict E G) (rows : List (E × G)) :
    ((newRows s (deletedRows sql rows)).map fst).Nodup :=
  sql.nodup.sublist ((filter_sublist.trans filter_sublist).map fst)

omit [DecidableEq G] in
theorem mem_newRows {s : Store E G} {migratedRows : List (E × G)} {row : E × G} :
    row ∈ newRows s migratedRows ↔ row ∈ migratedRows ∧ s.mapping.get? row.1 = none := by
  rw [newRows, mem_filter, decide_eq_true_eq, Store.mem_keys_getStateGroupForEventsBatch, get?_eq_none_iff]
  constructor
  · rintro ⟨hrow, hnot⟩
    exact ⟨hrow, fun hkey => hnot ⟨mem_map_of_mem hrow, hkey⟩⟩
  · rintro ⟨hrow, hkey⟩
    exact ⟨hrow, fun hboth => hkey hboth.2⟩

theorem counted_migrateBatch {batchSize : ℕ} (h : s.store.Counted)
    (hs : migrateBatch batchSize s = some s') : s'.store.Counted := by
  rw [migrateBatch] at hs
  split at hs
  · cases hs
  · dsimp only at hs
    split at hs
    · rw [← some.inj hs]
      exact h
    · rw [← some.inj hs]
      exact counted_putNew h (nodup_newRows _ _ _) fun row hrow => (mem_newRows.mp hrow).2

/-! ### Runs of complete operations -/

/-- A complete operation, executed without crash or rollback. -/
inductive Op (E G : Type)
  | storeEventStateMappings (unPartialStated : Bool) (events : List (Event E × Context G))
  | updateStateForPartialStateEvent (event : Event E) (context : Context G)
  | purgeHistory (eventIds : List E)
  | migrateBatch (batchSize : ℕ)

/-- An operation that raises, or a batch of a migration that has ended, is not one of the run. -/
def step (s : System E G) : Op E G → Option (System E G)
  | .storeEventStateMappings unPartialStated events =>
    (storeEventStateMappings unPartialStated events s.store).toOption.map ({ s with store := · })
  | .updateStateForPartialStateEvent event context =>
    (updateStateForPartialStateEvent event context s).toOption
  | .purgeHistory eventIds => some (purgeHistory eventIds s).2
  | .migrateBatch batchSize => migrateBatch batchSize s

/-- The state when the embedded engine is turned on: SQL rows and nothing embedded. -/
def System.start : System E G := ⟨sql, .empty, .after none⟩

/-- Events that are mapped already are persisted again with the group they are mapped to, or with
    none. -/
def SameGroups (s : System E G) : Op E G → Prop
  | .storeEventStateMappings _ events => ∀ p ∈ events, p.2.group = none ∨
      s.store.mapping.get? p.1.eventId = none ∨ s.store.mapping.get? p.1.eventId = p.2.group
  | _ => True

instance (s : System E G) (op : Op E G) : Decidable (SameGroups s op) :=
  match op with
  | .storeEventStateMappings _ _ => by unfold SameGroups; infer_instance
  | .updateStateForPartialStateEvent _ _ => .isTrue trivial
  | .purgeHistory _ => .isTrue trivial
  | .migrateBatch _ => .isTrue trivial

theorem counted_storeEventStateMappings {store : Store E G}
    {events : List (Event E × Context G)} {unPartialStated : Bool} (h : s.store.Counted)
    (hok : SameGroups s (.storeEventStateMappings unPartialStated events))
    (hs : storeEventStateMappings unPartialStated events s.store = .ok store) : store.Counted := by
  obtain ⟨groups, hgroups, hs⟩ := bind_eq_ok.mp hs
  split at hs
  · exact absurd hs (by simp [throw, throwThe, MonadExceptOf.throw])
  rw [← ok.inj hs]
  refine counted_writeStateGroups h fun e g g' hg hmapped => ?_
  rcases stateGroups_group events .empty hgroups hg with hempty | ⟨p, hp, rfl, hgroup⟩
  · cases hempty
  · rcases hok p hp with hnone | hnone | hsame
    · rw [hnone] at hgroup
      cases hgroup
    · rw [hnone] at hmapped
      cases hmapped
    · rw [hmapped, hgroup, some.injEq] at hsame
      exact hsame

theorem counted_updateStateForPartialStateEvent {event : Event E}
    {context : Context G} (h : s.store.Counted)
    (hs : updateStateForPartialStateEvent event context s = .ok s') : s'.store.Counted := by
  rw [updateStateForPartialStateEvent] at hs
  split at hs
  · cases hs
  · split at hs
    · cases hs
    · rename_i stateGroup _
      rw [← ok.inj hs]
      rw [Store.get?_getStateGroupForEventsBatch, if_pos (.head _)]
      exact counted_moveRefcount h event.eventId stateGroup

theorem counted_step {op : Op E G} (h : s.store.Counted) (hok : SameGroups s op)
    (hs : step s op = some s') : s'.store.Counted := by
  cases op with
  | storeEventStateMappings unPartialStated events =>
    rw [step, map_eq_some_iff] at hs
    obtain ⟨store, hstore, rfl⟩ := hs
    exact counted_storeEventStateMappings h hok (toOption_eq_some.mp hstore)
  | updateStateForPartialStateEvent event context =>
    exact counted_updateStateForPartialStateEvent h (toOption_eq_some.mp hs)
  | purgeHistory eventIds =>
    rw [step, some.injEq] at hs
    exact hs ▸ counted_purgeHistory h eventIds
  | migrateBatch batchSize => exact counted_migrateBatch h hs

/-- In every run of complete operations that persist mapped events with the group they are mapped to,
    the stored count of every state group is the number of events mapped to it. -/
theorem refcounts_eq_mapped_events {s : System E G}
    (h : Run step SameGroups (System.start sql) s) (g : G) :
    s.store.refcounts.getD g 0 = s.store.mapping.holders g :=
  h.invariant (I := fun s => s.store.Counted) Store.counted_empty counted_step g

/-- An out-of-band invite, stored as an outlier that has a state group. -/
def invite : Event ℕ := ⟨7, false, true⟩

/-- The same event once it is part of the timeline. -/
def joined : Event ℕ := ⟨7, false, false⟩

/-- A context with a full state group. -/
def fullState (g : ℕ) : Context ℕ := ⟨false, false, some g, some g⟩

/-- All four operations, with a migrated row that was rewritten and an event that is purged. -/
def mixedOps : List (Op ℕ ℕ) :=
  [.storeEventStateMappings false [(invite, fullState 1), (⟨8, false, false⟩, fullState 1)],
    .migrateBatch 1,
    .updateStateForPartialStateEvent ⟨3, false, false⟩ (fullState 2),
    .storeEventStateMappings false [(joined, fullState 1)],
    .purgeHistory [8, 4],
    .migrateBatch 10]

theorem refcounts_eq_mapped_events_mixed :
    ∃ s, Run step SameGroups (System.start (.ofList [(3, 1), (4, 1), (5, 2)])) s ∧
      s.store.refcounts.getD 2 0 = 2 ∧ s.store.refcounts.getD 2 0 = s.store.mapping.holders 2 :=
  Run.exists_get mixedOps (by decide +kernel) fun hrun =>
    ⟨by decide +kernel, refcounts_eq_mapped_events _ hrun 2⟩

/-- An out-of-band invite stored with group 1 and later de-outliered with group 2: it is mapped to
    group 2 and counted for group 1, so group 2 is reported unreferenced. -/
theorem deoutliered_invite_uncounted :
    ∃ s, Run step (fun _ _ => True) (System.start .empty) s ∧ s.store.mapping.get? 7 = some 2 ∧
      s.store.refcounts.getD 1 0 = 1 ∧ s.store.mapping.holders 1 = 0 ∧
      s.store.refcounts.getD 2 0 = 0 ∧ s.store.mapping.holders 2 = 1 ∧
      s.store.getReferencedStateGroupsBatch [2] = [] :=
  Run.exists_exec [.storeEventStateMappings false [(invite, fullState 1)],
    .storeEventStateMappings false [(joined, fullState 2)]] (by decide +kernel)

end Sithnapse.StateGroups
