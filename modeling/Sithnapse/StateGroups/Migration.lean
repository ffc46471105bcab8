import Sithnapse.StateGroups.Writers

/-! The migration of the event to state group map, with crashes.

    A batch of `_background_migrate_event_to_state_groups_to_embedded` takes five steps: it selects
    and deletes its rows in a transaction and probes the embedded engine, puts the mappings the
    engine lacks, increments the counters, commits, and saves its progress. A crash between two steps
    rolls the transaction back, keeps what was written to the embedded engine, and starts over from
    the saved progress. A replayed batch counts only the rows whose mapping it puts itself, so a crash
    between the put and the increment loses their references; no other crash does. -/

namespace Sithnapse.StateGroups

open Kit Kit.Dict List Option
open Prod (fst)

variable {E G : Type} [LinearOrder E] [DecidableEq G]

/-- How far the current batch got. -/
inductive Phase (E G : Type)
  | idle
  /-- Rows deleted in the open transaction, and those of them the engine lacks. -/
  | selected (rows new : List (E × G))
  | mapped (rows new : List (E × G))
  | counted (rows : List (E × G))
  | committed (rows : List (E × G))

/-- The committed state and the batch in progress. -/
structure Migration (E G : Type) extends System E G where
  phase : Phase E G

/-- A step of a batch, or a crash. The update runner's batch sizes are positive. -/
inductive Move
  | select (batchSize : ℕ+)
  | put
  | increment
  | commit
  | saveProgress
  | crash

/-- One move. The SQL rows go with the commit: until then a crash brings them back. -/
def Migration.step (m : Migration E G) : Move → Option (Migration E G)
  | .select batchSize =>
    match m.phase, m.progress with
    | .idle, .after lastEventId =>
      let rows := selectBatch m.sql lastEventId batchSize
      if rows.isEmpty then some { m with progress := .ended }
      else some { m with phase := .selected rows (newRows m.store (deletedRows m.sql rows)) }
    | _, _ => none
  | .put =>
    match m.phase with
    | .selected rows new =>
      some { m with store := m.store.putEventToStateGroupBatch new, phase := .mapped rows new }
    | _ => none
  | .increment =>
    match m.phase with
    | .mapped rows new =>
      some { m with
        store := m.store.incrementStateGroupRefcountsBatch (new.map Prod.snd)
        phase := .counted rows }
    | _ => none
  | .commit =>
    match m.phase with
    | .counted rows => some { m with sql := deleteRows m.sql rows, phase := .committed rows }
    | _ => none
  | .saveProgress =>
    match m.phase with
    | .committed rows =>
      some { m with progress := .after (rows.getLast?.map fst), phase := .idle }
    | _ => none
  | .crash => some { m with phase := .idle }

/-- Before the first batch. -/
def Migration.start (sql : Dict E G) (store : Store E G) : Migration E G :=
  ⟨⟨sql, store, .after none⟩, .idle⟩

/-- `get_referenced_state_groups`: the counters, then the SQL rows that remain, then the counters
    again. -/
def getReferencedStateGroups (s : System E G) (stateGroups : List G) : List G :=
  let referenced := s.store.getReferencedStateGroupsBatch stateGroups
  let remaining := stateGroups.filter (· ∉ referenced)
  if !remaining.isEmpty && !s.sql.entries.isEmpty then
    let referenced := addAll referenced (remaining.filter (· ∈ s.sql.values))
    let remaining := stateGroups.filter (· ∉ referenced)
    addAll referenced (s.store.getReferencedStateGroupsBatch remaining)
  else referenced

/-- The process does not crash between putting mappings and counting them. -/
def CountsFollow (m : Migration E G) : Move → Prop
  | .crash => ∀ rows new, m.phase = .mapped rows new → new = []
  | _ => True

instance (m : Migration E G) (move : Move) : Decidable (CountsFollow m move) :=
  match move, m with
  | .crash, ⟨_, .mapped _ []⟩ => .isTrue fun _ _ h => by cases h; rfl
  | .crash, ⟨_, .mapped rows (p :: new)⟩ => .isFalse fun h => absurd (h rows (p :: new) rfl) (by simp)
  | .crash, ⟨_, .idle⟩ => .isTrue fun _ _ h => by cases h
  | .crash, ⟨_, .selected _ _⟩ => .isTrue fun _ _ h => by cases h
  | .crash, ⟨_, .counted _⟩ => .isTrue fun _ _ h => by cases h
  | .crash, ⟨_, .committed _⟩ => .isTrue fun _ _ h => by cases h
  | .select _, _ => .isTrue trivial
  | .put, _ => .isTrue trivial
  | .increment, _ => .isTrue trivial
  | .commit, _ => .isTrue trivial
  | .saveProgress, _ => .isTrue trivial

/-! ### The rows of a batch -/

variable {sql : Dict E G} {last : Option E} {m : Migration E G} {store : Store E G} {groups : List G}

omit [DecidableEq G] in
theorem mem_of_mem_selectBatch {n : ℕ} {row : E × G}
    (h : row ∈ selectBatch sql last n) : row ∈ sql.entries := by
  have hsorted := mem_of_mem_take h
  rw [mem_insertionSort] at hsorted
  exact (mem_filter.mp hsorted).1

omit [DecidableEq G] in
/-- A row after the cursor that is not in the batch comes after all rows of the batch. -/
theorem lt_of_not_mem_selectBatch {n : ℕ} {e : E} (he : e ∈ sql.keys) (hlast : last.all (· < e) = true)
    (hnot : e ∉ (selectBatch sql last n).map fst) :
    ∀ row ∈ selectBatch sql last n, row.1 < e := by
  intro row hrow
  obtain ⟨rest, hrest, rfl⟩ := mem_map.mp he
  obtain ⟨sorted, hdef⟩ : ∃ l, l = (sql.entries.filter fun row => last.all (· < row.1)).insertionSort
    fun a b => a.1 ≤ b.1 := ⟨_, rfl⟩
  have hselect : selectBatch sql last n = sorted.take n := by rw [hdef]; rfl
  have hpair : sorted.Pairwise fun a b => a.1 ≤ b.1 := by
    have : Std.Total fun a b : E × G => a.1 ≤ b.1 := ⟨fun a b => le_total a.1 b.1⟩
    have : IsTrans (E × G) fun a b => a.1 ≤ b.1 := ⟨fun _ _ _ => le_trans⟩
    rw [hdef]
    exact pairwise_insertionSort _ _
  have hmem : rest ∈ sorted.drop n := by
    have hin : rest ∈ sorted := by
      rw [hdef, mem_insertionSort]
      exact mem_filter.mpr ⟨hrest, hlast⟩
    rw [← take_append_drop n sorted, mem_append] at hin
    refine hin.resolve_left fun htake => hnot ?_
    rw [hselect]
    exact mem_map_of_mem htake
  rw [hselect] at hrow
  rw [← take_append_drop n sorted, pairwise_append] at hpair
  refine lt_of_le_of_ne (hpair.2.2 row hrow rest hmem) fun heq => hnot ?_
  rw [hselect, ← heq]
  exact mem_map_of_mem hrow

omit [DecidableEq G] in
/-- An empty batch means that no row is left after the cursor. -/
theorem selectBatch_eq_nil {n : ℕ+}
    (h : (selectBatch sql last n).isEmpty = true) (hlast : ∀ e ∈ sql.keys, last.all (· < e) = true) :
    ∀ e, e ∉ sql.keys := by
  intro e he
  rw [List.isEmpty_iff] at h
  obtain ⟨row, hrow, rfl⟩ := mem_map.mp he
  rw [selectBatch, take_eq_nil_iff] at h
  rcases h with hzero | hnil
  · exact n.ne_zero hzero
  · have hin : row ∈ (sql.entries.filter fun row => last.all (· < row.1)).insertionSort
        fun a b => a.1 ≤ b.1 := by
      rw [mem_insertionSort]
      exact mem_filter.mpr ⟨hrow, hlast _ he⟩
    rw [hnil] at hin
    cases hin

/-! ### What holds between the steps -/

/-- The rows were selected from the rows after the saved cursor. -/
def Selected (m : Migration E G) (rows : List (E × G)) : Prop :=
  ∃ (last : Option E) (n : ℕ), m.progress = .after last ∧ rows = selectBatch m.sql last n

/-- What the current batch has established. -/
def PhaseInv (m : Migration E G) : Phase E G → Prop
  | .idle => m.store.Counted
  | .selected rows new =>
    m.store.Counted ∧ Selected m rows ∧ new = newRows m.store (deletedRows m.sql rows)
  | .mapped rows new => Selected m rows ∧ ∃ before : Store E G, before.Counted ∧
      m.store = before.putEventToStateGroupBatch new ∧
      new = newRows before (deletedRows m.sql rows)
  | .counted rows =>
    m.store.Counted ∧ Selected m rows ∧ ∀ row ∈ rows, row.1 ∈ m.store.mapping.keys
  | .committed rows => m.store.Counted ∧ (∃ last, m.progress = .after last) ∧
      ∀ e ∈ m.sql.keys, ∀ row ∈ rows, row.1 < e

/-- No unmigrated row lies behind the cursor. -/
def Progress.Ahead (sql : Dict E G) : Progress E → Prop
  | .after last => ∀ e ∈ sql.keys, last.all (· < e) = true
  | .ended => ∀ e, e ∉ sql.keys

/-- The invariant of a migration that started from `sql` and `store`. -/
structure MigrationInv (sql : Dict E G) (store : Store E G) (m : Migration E G) : Prop where
  unmigrated : ∀ {e g}, m.sql.get? e = some g → sql.get? e = some g
  keeps : ∀ {e g}, store.mapping.get? e = some g → m.store.mapping.get? e = some g
  mapped : ∀ {e g}, m.store.mapping.get? e = some g → (store.mapping.get? e).or (sql.get? e) = some g
  complete : ∀ e ∈ sql.keys, e ∈ m.sql.keys ∨ e ∈ m.store.mapping.keys
  ahead : m.progress.Ahead m.sql
  phase : PhaseInv m m.phase

theorem migrationInv_start (sql : Dict E G) {store : Store E G} (h : store.Counted) :
    MigrationInv sql store (Migration.start sql store) where
  unmigrated := id
  keeps := id
  mapped {e g} hg := by
    have hg' : store.mapping.get? e = some g := hg
    rw [hg']
    rfl
  complete _ := .inl
  ahead _ _ := rfl
  phase := h

omit [DecidableEq G] in
/-- Putting the new rows of a batch maps each of its events and changes no mapping. -/
theorem get?_putNewRows (before : Store E G) (sql : Dict E G) (rows : List (E × G)) (e : E) :
    (before.putEventToStateGroupBatch (newRows before (deletedRows sql rows))).mapping.get? e =
      (before.mapping.get? e).or (if e ∈ rows.map fst then sql.get? e else none) := by
  have hmem : ∀ g, (e, g) ∈ newRows before (deletedRows sql rows) ↔ (if before.mapping.get? e = none then
      if e ∈ rows.map fst then sql.get? e else none else none) = some g := by
    intro g
    rw [mem_newRows, deletedRows, mem_filter, decide_eq_true_eq, ← get?_eq_some_iff, ite_none_right_eq_some,
      ite_none_right_eq_some, and_comm, and_comm (a := sql.get? e = some g)]
  rw [Store.putEventToStateGroupBatch, get?_update_of_some _ hmem]
  cases before.mapping.get? e <;> simp

omit [DecidableEq G] in
theorem mem_keys_deleteRows {rows : List (E × G)} {e : E} :
    e ∈ (deleteRows sql rows).keys ↔ e ∈ sql.keys ∧ e ∉ rows.map fst := by
  rw [mem_keys_iff, mem_keys_iff, deleteRows]
  simp only [get?_filter, decide_eq_true_eq]
  by_cases he : e ∈ rows.map fst <;> simp [he]

/-- Between two steps of a batch every reference is counted, but for the mappings just put. -/
theorem MigrationInv.counted_or_mapped (h : MigrationInv sql store m) :
    m.store.Counted ∨ ∃ rows new, m.phase = .mapped rows new ∧ PhaseInv m (.mapped rows new) := by
  have hinv := h.phase
  cases hphase : m.phase with
  | mapped rows new => exact .inr ⟨rows, new, rfl, hphase ▸ hinv⟩
  | idle => rw [hphase] at hinv; exact .inl hinv
  | selected | counted | committed => rw [hphase] at hinv; exact .inl hinv.1

section Moves

variable {m' : Migration E G} {rows new : List (E × G)} (h : MigrationInv sql store m)

include h

theorem MigrationInv.select {n : ℕ+} (hs : m.step (.select n) = some m') :
    MigrationInv sql store m' := by
  rw [Migration.step] at hs
  split at hs
  · rename_i last hphase hprogress
    have hcounted := h.phase
    have hahead := h.ahead
    rw [hphase] at hcounted
    rw [hprogress] at hahead
    dsimp only at hs
    split_ifs at hs with hempty
    · rw [← some.inj hs]
      refine { h with ahead := selectBatch_eq_nil hempty hahead, phase := ?_ }
      rw [hphase]
      exact hcounted
    · rw [← some.inj hs]
      exact { h with phase := ⟨hcounted, ⟨last, n, hprogress, rfl⟩, rfl⟩ }
  · cases hs

theorem MigrationInv.put (hs : m.step .put = some m') : MigrationInv sql store m' := by
  rw [Migration.step] at hs
  split at hs
  · rename_i rows new hphase
    have hinv := h.phase
    rw [hphase] at hinv
    obtain ⟨hcounted, hselected, hnew⟩ := hinv
    have hget := get?_putNewRows m.store m.sql rows
    rw [← hnew] at hget
    rw [← some.inj hs]
    refine ⟨h.unmigrated, fun {e g} hg => ?_, fun {e g} hg => ?_, fun e he => ?_, h.ahead,
      hselected, m.store, hcounted, rfl, hnew⟩
    · rw [hget, h.keeps hg, some_or]
    · rw [hget, or_eq_some_iff] at hg
      rcases hg with hold | ⟨hnone, hrow⟩
      · exact h.mapped hold
      · split at hrow
        · -- the event had no mapping, so it had none when the migration started
          have hstart : store.mapping.get? e = none := by
            cases hs : store.mapping.get? e with
            | none => rfl
            | some g' => rw [h.keeps hs] at hnone; cases hnone
          rw [hstart, none_or]
          exact h.unmigrated hrow
        · cases hrow
    · refine (h.complete e he).imp id fun hkey => ?_
      obtain ⟨g, hg⟩ := mem_keys_iff.mp hkey
      refine mem_keys_iff.mpr ⟨g, ?_⟩
      rw [hget, hg, some_or]
  · cases hs

theorem MigrationInv.increment (hs : m.step .increment = some m') : MigrationInv sql store m' := by
  rw [Migration.step] at hs
  split at hs
  · rename_i rows new hphase
    have hinv := h.phase
    rw [hphase] at hinv
    obtain ⟨hselected, before, hcounted, hstore, hnew⟩ := hinv
    have hnodup : (new.map fst).Nodup := hnew ▸ nodup_newRows before m.sql rows
    rw [← some.inj hs]
    refine { h with phase := ⟨?_, hselected, fun row hrow => ?_⟩ }
    · rw [hstore]
      exact counted_putNew hcounted hnodup fun row hrow => (mem_newRows.mp (hnew ▸ hrow)).2
    · obtain ⟨last, n, -, rfl⟩ := hselected
      have hsql := get?_eq_some_iff.mpr (mem_of_mem_selectBatch hrow)
      have hget := get?_putNewRows before m.sql (selectBatch m.sql last n) row.1
      rw [← hnew, ← hstore, if_pos (mem_map_of_mem hrow), hsql] at hget
      refine mem_keys_iff.mpr ⟨(before.mapping.get? row.1).getD row.2, ?_⟩
      rw [Store.incrementStateGroupRefcountsBatch, hget]
      cases before.mapping.get? row.1 <;> rfl
  · cases hs

theorem MigrationInv.commit (hs : m.step .commit = some m') : MigrationInv sql store m' := by
  rw [Migration.step] at hs
  split at hs
  · rename_i rows hphase
    have hinv := h.phase
    rw [hphase] at hinv
    obtain ⟨hcounted, ⟨last, n, hprogress, hrows⟩, hmapped⟩ := hinv
    have hahead := h.ahead
    rw [hprogress] at hahead
    rw [← some.inj hs]
    refine ⟨fun {e g} hg => ?_, h.keeps, h.mapped, fun e he => ?_, ?_, hcounted, ⟨last, hprogress⟩,
      fun e he => ?_⟩
    · exact h.unmigrated (get?_of_filter hg)
    · rcases h.complete e he with hsql | hkey
      · by_cases hrow : e ∈ rows.map fst
        · obtain ⟨row, hmem, rfl⟩ := mem_map.mp hrow
          exact .inr (hmapped row hmem)
        · exact .inl (mem_keys_deleteRows.mpr ⟨hsql, hrow⟩)
      · exact .inr hkey
    · rw [hprogress]
      exact fun e he => hahead e (mem_keys_deleteRows.mp he).1
    · obtain ⟨hsql, hnot⟩ := mem_keys_deleteRows.mp he
      subst hrows
      exact lt_of_not_mem_selectBatch hsql (hahead e hsql) hnot
  · cases hs

theorem MigrationInv.saveProgress (hs : m.step .saveProgress = some m') :
    MigrationInv sql store m' := by
  rw [Migration.step] at hs
  split at hs
  · rename_i rows hphase
    have hinv := h.phase
    rw [hphase] at hinv
    obtain ⟨hcounted, -, hlt⟩ := hinv
    rw [← some.inj hs]
    refine { h with ahead := fun e he => ?_, phase := hcounted }
    cases hrow : rows.getLast? with
    | none => rfl
    | some row =>
      exact decide_eq_true (hlt e he row (mem_of_getLast? hrow))
  · cases hs

theorem MigrationInv.crash (hok : CountsFollow m .crash) (hs : m.step .crash = some m') :
    MigrationInv sql store m' := by
  rw [← some.inj hs]
  refine { h with phase := ?_ }
  -- whatever the batch had done, the counters fit the mappings that are left
  change m.store.Counted
  rcases h.counted_or_mapped with hcounted | ⟨rows, new, hphase, -, before, hcounted, hstore, -⟩
  · exact hcounted
  · rw [hok rows new hphase] at hstore
    rw [hstore]
    exact hcounted

end Moves

theorem migrationInv_step {sql : Dict E G} {m' : Migration E G} {move : Move}
    (h : MigrationInv sql store m) (hok : CountsFollow m move) (hs : m.step move = some m') :
    MigrationInv sql store m' := by
  cases move with
  | select n => exact h.select hs
  | put => exact h.put hs
  | increment => exact h.increment hs
  | commit => exact h.commit hs
  | saveProgress => exact h.saveProgress hs
  | crash => exact h.crash hok hs

/-! ### Referenced groups -/

omit [LinearOrder E] in
/-- A group whose counter is positive is reported. -/
theorem mem_getReferencedStateGroups_of_count {s : System E G} {g : G}
    (h : g ∈ s.store.getReferencedStateGroupsBatch groups) :
    g ∈ getReferencedStateGroups s groups := by
  simp only [getReferencedStateGroups]
  split
  · simp only [mem_addAll]
    exact .inl (.inl h)
  · exact h

/-- A group with an unmigrated row is reported. -/
theorem mem_getReferencedStateGroups_of_sql {s : System E G} {e : E} {g : G}
    (hg : g ∈ groups) (h : s.sql.get? e = some g) : g ∈ getReferencedStateGroups s groups := by
  have hsql : s.sql.entries.isEmpty = false := by
    rw [isEmpty_eq_false_iff_exists_mem]
    exact ⟨_, get?_eq_some_iff.mp h⟩
  by_cases href : g ∈ s.store.getReferencedStateGroupsBatch groups
  · exact mem_getReferencedStateGroups_of_count href
  · have hremaining : g ∈ groups.filter (· ∉ s.store.getReferencedStateGroupsBatch groups) :=
      mem_filter.mpr ⟨hg, decide_eq_true href⟩
    have hvalue : g ∈ s.sql.values := mem_values_iff.mpr ⟨e, h⟩
    simp only [getReferencedStateGroups]
    rw [if_pos]
    · simp only [mem_addAll]
      exact .inl (.inr (mem_filter.mpr ⟨hremaining, decide_eq_true hvalue⟩))
    · rw [hsql, isEmpty_eq_false_iff_exists_mem.mpr ⟨g, hremaining⟩]
      rfl

/-- At no point of the migration is a group that an event is mapped to reported unreferenced: where
    the counter lags, the SQL row is still there. -/
theorem MigrationInv.referenced {sql : Dict E G}
    (h : MigrationInv sql store m) {e : E} {g : G} (hg : g ∈ groups)
    (he : m.store.mapping.get? e = some g) :
    g ∈ getReferencedStateGroups m.toSystem groups := by
  rcases h.counted_or_mapped with hcounted | ⟨rows, new, -, -, before, hbefore, hstore, hnew⟩
  · exact mem_getReferencedStateGroups_of_count (hcounted.mem_referenced.mpr ⟨hg, e, he⟩)
  · have hget := get?_putNewRows before m.sql rows e
    rw [← hnew, ← hstore, he, eq_comm, or_eq_some_iff] at hget
    rcases hget with hold | ⟨-, hrow⟩
    · refine mem_getReferencedStateGroups_of_count ?_
      rw [hstore]
      exact hbefore.mem_referenced.mpr ⟨hg, e, hold⟩
    · split at hrow
      · exact mem_getReferencedStateGroups_of_sql hg hrow
      · cases hrow

theorem MigrationInv.counted_of_ended {sql : Dict E G}
    (h : MigrationInv sql store m) (hended : m.progress = .ended) : m.store.Counted := by
  refine h.counted_or_mapped.resolve_right ?_
  rintro ⟨rows, new, -, ⟨last, n, hprogress, -⟩, -⟩
  rw [hended] at hprogress
  cases hprogress

/-- In every run of batches and crashes in which no crash falls between putting mappings and counting
    them: at no point is a group that an event is mapped to reported unreferenced, and when the
    migration has ended every row's event is mapped to its group (or, if the engine mapped it before
    the migration, as it was) and each count is the number of events mapped to its group. -/
theorem migration_exactly_once (sql : Dict E G) {store : Store E G} (hstore : store.Counted)
    {m : Migration E G} (h : Run Migration.step CountsFollow (Migration.start sql store) m) :
    (∀ groups e g, g ∈ groups → m.store.mapping.get? e = some g →
      g ∈ getReferencedStateGroups m.toSystem groups) ∧
    (m.progress = .ended →
      (∀ e g, sql.get? e = some g → m.store.mapping.get? e = (store.mapping.get? e).or (some g)) ∧
      ∀ g, m.store.refcounts.getD g 0 = m.store.mapping.holders g) := by
  have hinv : MigrationInv sql store m :=
    h.invariant (migrationInv_start sql hstore) migrationInv_step
  refine ⟨fun groups e g hg he => hinv.referenced hg he, fun hended => ⟨fun e g hrow => ?_,
    hinv.counted_of_ended hended⟩⟩
  have hahead := hinv.ahead
  rw [hended] at hahead
  have hkey := (hinv.complete e (mem_keys_iff.mpr ⟨g, hrow⟩)).resolve_left (hahead e)
  obtain ⟨g', hg'⟩ := mem_keys_iff.mp hkey
  have hright := hinv.mapped hg'
  rw [hrow] at hright
  rw [hg', hright]

/-- Crashes before the put, after the increment, between a put and an increment of nothing, and after
    the commit. -/
def crashingMoves : List Move :=
  [.select 2, .crash, .select 2, .put, .increment, .crash, .select 2, .put, .crash, .select 2, .put,
    .increment, .commit, .crash, .select 2, .put, .increment, .commit, .saveProgress, .select 2]

theorem migration_exactly_once_crashing : ∃ m, Run Migration.step CountsFollow
        (Migration.start (.ofList [(3, 20), (1, 10), (2, 10)]) Store.empty) m ∧
      m.progress = .ended ∧ m.store.mapping.get? 2 = some 10 ∧
      m.store.refcounts.getD 10 0 = m.store.mapping.holders 10 := by
  refine Run.exists_get crashingMoves (by decide +kernel) fun hrun => ⟨rfl, ?_⟩
  have hend := (migration_exactly_once _ Store.counted_empty hrun).2 rfl
  exact ⟨hend.1 2 10 (by decide +kernel), hend.2 10⟩

/-- A crash between the put and the increment: the replayed batch finds the mapping and counts
    nothing, so when the migration has ended the only group is reported unreferenced. -/
theorem crash_before_increment_uncounted :
    ∃ m, Run Migration.step (fun _ _ => True) (Migration.start (.ofList [(1, 10)]) Store.empty) m ∧
      m.progress = .ended ∧ m.store.mapping.get? 1 = some 10 ∧ m.store.mapping.holders 10 = 1 ∧
      m.store.refcounts.getD 10 0 = 0 ∧ getReferencedStateGroups m.toSystem [10] = [] :=
  Run.exists_get [.select 5, .put, .crash, .select 5, .put, .increment, .commit, .saveProgress, .select 5]
    (by decide +kernel) fun _ => ⟨rfl, by decide +kernel⟩

end Sithnapse.StateGroups
