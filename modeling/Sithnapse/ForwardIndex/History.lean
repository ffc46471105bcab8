import Sithnapse.ForwardIndex.System

/-! The committed edge transactions of a room.

    Source version `v + 1` is the commit `log[v]`: its rows carry that version, name each edge at most
    once, and replaying them on `event_edges` at version `v` gives `event_edges` at version `v + 1`.
    So between two versions an edge only changes if a row names it, and the latest row decides
    (`edgesAt_untouched`, `edgesAt_latest`). A batch of all the rows between two versions therefore
    brings any edge set that is right wherever no row speaks up to the later version
    (`Batch.mem_replay`). -/

namespace Sithnapse.ForwardIndex

open Kit List

variable {E : Type} {r r' : Room E} {u v : ℕ} {x : E × E}

/-- `event_edges` at a source version, as a set. -/
def Room.sqlEdges (r : Room E) (v : ℕ) : Set (E × E) := {x | x ∈ r.edgesAt v}

/-- The tables of a room agree with the transactions it committed. -/
structure History (r : Room E) : Prop where
  version : r.log.length = r.sourceVersion
  current : r.edgesAt r.sourceVersion = r.edges
  rows_version : ∀ {v : ℕ} {c : Commit E}, r.log[v]? = some c → ∀ row ∈ c.rows, row.sourceVersion = v + 1
  rows_unique : ∀ {v : ℕ} {c : Commit E}, r.log[v]? = some c → (c.rows.map OutboxRow.edge).Nodup
  replays : ∀ {v : ℕ} {c : Commit E}, r.log[v]? = some c → {x | x ∈ c.edges} = replayRows (r.sqlEdges v) c.rows
  outbox : ∀ row ∈ r.outbox, row ∈ r.logRows

variable {row : OutboxRow E} {rows : List (OutboxRow E)}

theorem mem_logRows : row ∈ r.logRows ↔ ∃ (v : ℕ) (c : Commit E), r.log[v]? = some c ∧ row ∈ c.rows := by
  rw [Room.logRows, mem_flatMap]
  constructor
  · rintro ⟨c, hc, hrow⟩
    obtain ⟨v, hv⟩ := mem_iff_getElem?.mp hc
    exact ⟨v, c, hv, hrow⟩
  · rintro ⟨v, c, hv, hrow⟩
    exact ⟨c, mem_of_getElem? hv, hrow⟩

theorem sqlEdges_succ {c : Commit E} (hc : r.log[v]? = some c) : r.sqlEdges (v + 1) = {x | x ∈ c.edges} := by
  rw [Room.sqlEdges, Room.edgesAt, hc]
  rfl

namespace History

theorem emptyRoom (checkpoints : List Checkpoint) : History (emptyRoom checkpoints : Room E) where
  version := rfl
  current := rfl
  rows_version := fun h => absurd h (by simp [ForwardIndex.emptyRoom])
  rows_unique := fun h => absurd h (by simp [ForwardIndex.emptyRoom])
  replays := fun h => absurd h (by simp [ForwardIndex.emptyRoom])
  outbox := fun _ h => absurd h (by simp [ForwardIndex.emptyRoom])

variable (h : History r)

include h

theorem exists_commit (hv : v < r.sourceVersion) : ∃ c, r.log[v]? = some c :=
  ⟨_, getElem?_eq_getElem (h.version ▸ hv)⟩

theorem commit_lt {c : Commit E} (hc : r.log[v]? = some c) : v < r.sourceVersion :=
  h.version ▸ (List.getElem?_eq_some_iff.mp hc).1

theorem row_le (hrow : row ∈ r.logRows) : row.sourceVersion ≤ r.sourceVersion := by
  obtain ⟨v, c, hc, hmem⟩ := mem_logRows.mp hrow
  rw [h.rows_version hc row hmem]
  exact h.commit_lt hc

/-- A source version changes an edge at most once. -/
theorem row_unique {a b : OutboxRow E} (ha : a ∈ r.logRows) (hb : b ∈ r.logRows)
    (hv : a.sourceVersion = b.sourceVersion) (he : a.edge = b.edge) : a = b := by
  obtain ⟨v, c, hc, hac⟩ := mem_logRows.mp ha
  obtain ⟨w, d, hd, hbd⟩ := mem_logRows.mp hb
  have hvw : v = w := by
    have h₁ := h.rows_version hc a hac
    have h₂ := h.rows_version hd b hbd
    omega
  subst hvw
  obtain rfl := Option.mem_unique hc hd
  exact inj_on_of_nodup_map (h.rows_unique hc) hac hbd he

/-- An edge that no row names between two versions is as it was. -/
theorem edgesAt_untouched (huv : u ≤ v) (hv : v ≤ r.sourceVersion)
    (hx : ∀ row ∈ r.logRows, row.edge = x → u < row.sourceVersion → v < row.sourceVersion) :
    x ∈ r.sqlEdges v ↔ x ∈ r.sqlEdges u := by
  induction v, huv using Nat.le_induction with
  | base => rfl
  | succ v huv ih =>
    obtain ⟨c, hc⟩ := h.exists_commit (by omega : v < r.sourceVersion)
    have hrow : ∀ row ∈ c.rows, row.edge ≠ x := by
      intro row hmem he
      have h₁ := h.rows_version hc row hmem
      have h₂ := hx row (mem_logRows.mpr ⟨v, c, hc, hmem⟩) he (by omega)
      omega
    rw [sqlEdges_succ hc, h.replays hc, replayRows, mem_replay_of_untouched hrow]
    refine ih (by omega) fun row hmem he hu => ?_
    have := hx row hmem he hu
    omega

/-- The latest row up to a version decides whether its edge is there. -/
theorem edgesAt_latest (hv : v ≤ r.sourceVersion) (hrow : row ∈ r.logRows)
    (he : row.edge = x) (hle : row.sourceVersion ≤ v)
    (hlast : ∀ row' ∈ r.logRows, row'.edge = x → row'.sourceVersion ≤ v →
      row'.sourceVersion ≤ row.sourceVersion) :
    x ∈ r.sqlEdges v ↔ row.inserts = true := by
  obtain ⟨w, c, hc, hmem⟩ := mem_logRows.mp hrow
  have hw := h.rows_version hc row hmem
  have hat : x ∈ r.sqlEdges row.sourceVersion ↔ row.inserts = true := by
    rw [hw, sqlEdges_succ hc, h.replays hc]
    refine mem_replay_of_latest (fun _ => 0) (pairwise_of_forall fun _ _ => le_rfl) hmem he
      (fun _ _ _ => le_rfl) fun row' hmem' he' _ => ?_
    rw [inj_on_of_nodup_map (h.rows_unique hc) hmem' hmem (he'.trans he.symm)]
  rw [h.edgesAt_untouched (by omega) hv fun row' hmem' he' hlt => ?_, hat]
  by_contra hc'
  have := hlast row' hmem' he' (by omega)
  omega

end History

/-! ### Batches of outbox rows -/

variable [LinearOrder E]

/-- All rows after version `u` up to version `v`, in version order. -/
structure Batch (r : Room E) (u v : ℕ) (rows : List (OutboxRow E)) : Prop where
  sorted : rows.Pairwise (·.sourceVersion ≤ ·.sourceVersion)
  mem : ∀ row, row ∈ rows ↔ row ∈ r.logRows ∧ u < row.sourceVersion ∧ row.sourceVersion ≤ v

/-- Replaying all rows between two versions makes an edge right at the later one if it was right at
    the earlier one, or if any row names it. -/
theorem Batch.mem_replay {C : Set (E × E)} (hb : Batch r u v rows)
    (h : History r) (huv : u ≤ v) (hv : v ≤ r.sourceVersion)
    (hx : (∀ row ∈ rows, row.edge ≠ x) → (x ∈ C ↔ x ∈ r.sqlEdges u)) :
    x ∈ replayRows C rows ↔ x ∈ r.sqlEdges v := by
  by_cases htouched : ∀ row ∈ rows, row.edge ≠ x
  · rw [replayRows, mem_replay_of_untouched htouched, hx htouched]
    refine (h.edgesAt_untouched huv hv fun row hmem he hu => ?_).symm
    by_contra hc
    exact htouched row ((hb.mem row).mpr ⟨hmem, hu, by omega⟩) he
  · push Not at htouched
    obtain ⟨row₀, hmem₀, he₀⟩ := htouched
    -- the latest of the rows that name the edge
    obtain ⟨row, hrow, hmax⟩ := Finset.exists_max_image (rows.filter (·.edge = x)).toFinset
      OutboxRow.sourceVersion ⟨row₀, by simp [hmem₀, he₀]⟩
    obtain ⟨hmem, he⟩ : row ∈ rows ∧ row.edge = x := by simpa using hrow
    have hmax' : ∀ row' ∈ rows, row'.edge = x → row'.sourceVersion ≤ row.sourceVersion :=
      fun row' hmem' he' => hmax row' (by simp [hmem', he'])
    obtain ⟨hlog, hu, hle⟩ := (hb.mem row).mp hmem
    rw [h.edgesAt_latest hv hlog he hle fun row' hlog' he' hle' => ?_, replayRows]
    · refine mem_replay_of_latest _ hb.sorted hmem he hmax' fun row' hmem' he' hv' => ?_
      rw [h.row_unique ((hb.mem row').mp hmem').1 hlog hv' (he'.trans he.symm)]
    · by_contra hc
      exact hc (hmax' row' ((hb.mem row').mpr ⟨hlog', by omega, hle'⟩) he')

/-- No row after version `u` names the edge. -/
def Quiet (r : Room E) (u : ℕ) (x : E × E) : Prop :=
  ∀ row ∈ r.logRows, row.edge = x → row.sourceVersion ≤ u

/-- An edge set that is right at a version except where later rows speak. -/
def RightExceptLater (r : Room E) (u : ℕ) (C : Set (E × E)) : Prop :=
  ∀ x, Quiet r u x → (x ∈ C ↔ x ∈ r.sqlEdges u)

omit [LinearOrder E] in
/-- A quiet edge has not changed since. -/
theorem Quiet.mem_iff (hx : Quiet r u x) (h : History r) (hu : u ≤ r.sourceVersion) :
    x ∈ r.sqlEdges u ↔ x ∈ r.edges := by
  rw [← h.current]
  refine (h.edgesAt_untouched hu le_rfl fun row hrow he hlt => ?_).symm
  have := hx row hrow he
  omega

/-- A batch moves such a set to the later version. -/
theorem Batch.rightExceptLater {C : Set (E × E)} (hb : Batch r u v rows)
    (h : History r) (huv : u ≤ v) (hv : v ≤ r.sourceVersion) (hC : RightExceptLater r u C) :
    RightExceptLater r v (replayRows C rows) := by
  intro x hx
  refine hb.mem_replay h huv hv fun huntouched => hC x fun row hmem he => ?_
  by_contra hc
  exact huntouched row ((hb.mem row).mpr ⟨hmem, by omega, hx row hmem he⟩) he

/-! ### Committing a transaction -/

/-- The history of `r'` continues that of `r`. -/
structure Continues (r r' : Room E) : Prop where
  version : r.sourceVersion ≤ r'.sourceVersion
  sqlEdges : ∀ v ≤ r.sourceVersion, r'.sqlEdges v = r.sqlEdges v
  rows : ∀ row ∈ r.logRows, row ∈ r'.logRows
  new_rows : ∀ row ∈ r'.logRows, row ∈ r.logRows ∨ r.sourceVersion < row.sourceVersion

omit [LinearOrder E] in
theorem Continues.refl (r : Room E) : Continues r r :=
  ⟨le_rfl, fun _ _ => rfl, fun _ h => h, fun _ h => .inl h⟩

theorem Continues.batch (h : Continues r r') (hb : Batch r u v rows)
    (hv : v ≤ r.sourceVersion) : Batch r' u v rows := by
  refine ⟨hb.sorted, fun row => (hb.mem row).trans ⟨fun ⟨hl, hw⟩ => ⟨h.rows row hl, hw⟩, ?_⟩⟩
  rintro ⟨hl, hw⟩
  rcases h.new_rows row hl with hl | hl
  · exact ⟨hl, hw⟩
  · omega

omit [LinearOrder E] in
theorem Continues.quiet (h : Continues r r') (hx : Quiet r' u x) : Quiet r u x :=
  fun row hl => hx row (h.rows row hl)

omit [LinearOrder E] in
theorem Continues.rightExceptLater (h : Continues r r') {C : Set (E × E)} (hu : u ≤ r.sourceVersion)
    (hC : RightExceptLater r u C) : RightExceptLater r' u C := by
  intro x hx
  rw [h.sqlEdges u hu]
  exact hC x (h.quiet hx)

theorem mem_replayRows_uniform {changed : List (E × E)} {version : ℕ} {op : Operation}
    {S : Set (E × E)} :
    x ∈ replayRows S (changed.map fun x => ⟨version, x.1, x.2, op⟩) ↔
      if x ∈ changed then op.isInsert = true else x ∈ S := by
  by_cases hx : x ∈ changed
  · rw [if_pos hx, replayRows]
    refine (mem_replay_of_latest (fun _ => 0) (pairwise_of_forall fun _ _ => le_rfl)
      (mem_map_of_mem hx) rfl (fun _ _ _ => le_rfl) ?_)
    rintro row' hmem - -
    obtain ⟨_, -, rfl⟩ := mem_map.mp hmem
    rfl
  · rw [if_neg hx, replayRows]
    refine mem_replay_of_untouched ?_
    rintro row hmem rfl
    obtain ⟨y, hy, rfl⟩ := mem_map.mp hmem
    exact hx hy

/-- What a transaction tells the outbox is what it does to `event_edges`. -/
theorem mem_result (t : EdgeTxn E) (edges : List (E × E)) :
    x ∈ t.result edges ↔ if x ∈ t.changed edges then t.operation.isInsert = true else x ∈ edges := by
  cases t with
  | persist new =>
    simp only [EdgeTxn.result, EdgeTxn.changed, EdgeTxn.operation, mem_addAll, not_mem_nil, false_or]
    by_cases hx : x ∈ new <;> simp [hx, Operation.isInsert]
  | purge events =>
    simp only [EdgeTxn.result, EdgeTxn.changed, EdgeTxn.operation, mem_addAll, not_mem_nil,
      false_or, mem_filter]
    by_cases hx : x.1 ∈ events <;> by_cases hm : x ∈ edges <;> simp [hx, hm, Operation.isInsert]

theorem nodup_changed (t : EdgeTxn E) (edges : List (E × E)) : (t.changed edges).Nodup := by
  cases t <;> exact nodup_addAll _ nodup_nil

/-- The rows a transaction appends. -/
def newRows (r : Room E) (t : EdgeTxn E) : List (OutboxRow E) :=
  (t.changed r.edges).map fun x => ⟨r.sourceVersion + 1, x.1, x.2, t.operation⟩

/-- A transaction changes nothing, or adds one version with its rows. -/
theorem commit_cases (r : Room E) (t : EdgeTxn E) : r.commit t = r ∨ r.commit t = { r with
      edges := t.result r.edges, sourceVersion := r.sourceVersion + 1,
      outbox := r.outbox ++ newRows r t, log := r.log ++ [⟨newRows r t, t.result r.edges⟩] } := by
  unfold Room.commit newRows
  cases t.changed r.edges with
  | nil => exact .inl rfl
  | cons y l => exact .inr rfl

omit [LinearOrder E] in
theorem sqlEdges_append {log : List (Commit E)} (hlog : r'.log = r.log ++ log)
    (hv : v ≤ r.log.length) : r'.sqlEdges v = r.sqlEdges v := by
  cases v with
  | zero => rfl
  | succ v => rw [Room.sqlEdges, Room.sqlEdges, Room.edgesAt, Room.edgesAt, hlog,
      getElem?_append_left (by omega)]

theorem continues_commit (h : History r) (t : EdgeTxn E) : Continues r (r.commit t) := by
  rcases commit_cases r t with heq | heq
  · rw [heq]
    exact Continues.refl r
  · rw [heq]
    refine ⟨Nat.le_succ _, fun v hv => sqlEdges_append rfl (h.version ▸ hv), ?_, ?_⟩
    · intro row hrow
      simp only [Room.logRows, flatMap_append, mem_append]
      exact .inl hrow
    · intro row hrow
      simp only [Room.logRows, flatMap_append, mem_append] at hrow
      rcases hrow with hrow | hrow
      · exact .inl hrow
      · simp only [flatMap_cons, flatMap_nil, append_nil, newRows, mem_map] at hrow
        obtain ⟨y, -, rfl⟩ := hrow
        exact .inr (Nat.lt_succ_self _)

theorem History.commit (h : History r) (t : EdgeTxn E) : History (r.commit t) := by
  rcases commit_cases r t with heq | heq
  · rwa [heq]
  · have hcont := continues_commit h t
    rw [heq] at hcont ⊢
    -- a commit of the new log is an old one, or the one just added
    have hlog : ∀ {v : ℕ} {c : Commit E},
        (r.log ++ [⟨newRows r t, t.result r.edges⟩])[v]? = some c →
        r.log[v]? = some c ∨ (v = r.sourceVersion ∧ c = ⟨newRows r t, t.result r.edges⟩) := by
      intro v c hc
      rw [getElem?_append] at hc
      split_ifs at hc with hlt
      · exact .inl hc
      · obtain ⟨hi, rfl⟩ := List.getElem?_eq_some_iff.mp hc
        rw [length_singleton] at hi
        have hv : v = r.sourceVersion := by
          have := h.version
          omega
        exact .inr ⟨hv, by simp⟩
    refine ⟨by simp [h.version], ?_, ?_, ?_, ?_, ?_⟩
    · simp [Room.edgesAt, ← h.version]
    · intro v c hc row hrow
      rcases hlog hc with hc | ⟨rfl, rfl⟩
      · exact h.rows_version hc row hrow
      · obtain ⟨y, -, rfl⟩ := mem_map.mp hrow
        rfl
    · intro v c hc
      rcases hlog hc with hc | ⟨rfl, rfl⟩
      · exact h.rows_unique hc
      · have : (newRows r t).map OutboxRow.edge = t.changed r.edges := by
          rw [newRows, map_map]
          exact map_id _
        rw [this]
        exact nodup_changed t r.edges
    · intro v c hc
      rcases hlog hc with hc | ⟨rfl, rfl⟩
      · rw [h.replays hc, hcont.sqlEdges v (h.commit_lt hc).le]
      · rw [hcont.sqlEdges _ le_rfl]
        ext x
        rw [newRows, mem_replayRows_uniform, Set.mem_ofPred_eq, mem_result, Room.sqlEdges,
          Set.mem_ofPred_eq, h.current]
    · intro row hrow
      rcases mem_append.mp hrow with hrow | hrow
      · exact hcont.rows row (h.outbox row hrow)
      · simp only [Room.logRows, flatMap_append, mem_append, flatMap_cons, flatMap_nil, append_nil]
        exact .inr hrow

/-! ### Reading the outbox -/

/-- Every row after a version is still in the outbox. -/
def Kept (r : Room E) (u : ℕ) : Prop := ∀ row ∈ r.logRows, u < row.sourceVersion → row ∈ r.outbox

theorem Kept.commit (hk : Kept r u) (t : EdgeTxn E) : Kept (r.commit t) u := by
  rcases commit_cases r t with heq | heq
  · rwa [heq]
  · rw [heq]
    intro row hrow hu
    simp only [Room.logRows, flatMap_append, mem_append, flatMap_cons, flatMap_nil, append_nil] at hrow
    exact mem_append.mpr (hrow.imp (fun hl => hk row hl hu) id)

omit [LinearOrder E] in
theorem maxVersion_spec (rows : List (OutboxRow E)) : maxVersion rows ∈ 0 :: rows.map OutboxRow.sourceVersion ∧
    ∀ v ∈ 0 :: rows.map OutboxRow.sourceVersion, v ≤ maxVersion rows := max?_eq_some_iff.mp rfl

omit [LinearOrder E] in
theorem le_maxVersion (h : row ∈ rows) : row.sourceVersion ≤ maxVersion rows :=
  (maxVersion_spec rows).2 _ (.tail _ (mem_map_of_mem h))

omit [LinearOrder E] in
theorem exists_maxVersion (h : rows ≠ []) : ∃ row ∈ rows, row.sourceVersion = maxVersion rows := by
  rcases mem_cons.mp (maxVersion_spec rows).1 with h₀ | h₀
  · obtain ⟨row, hrow⟩ := exists_mem_of_ne_nil rows h
    have := le_maxVersion hrow
    exact ⟨row, hrow, by omega⟩
  · obtain ⟨row, hrow, he⟩ := mem_map.mp h₀
    exact ⟨row, hrow, he⟩

/-- Where all later rows are kept, a batch is empty only if there are none, and is complete
    otherwise. -/
theorem outboxBatch_spec (h : History r) (hk : Kept r u) {limit : ℕ} (hlimit : limit ≠ 0) :
    (outboxBatch r u limit = [] ∧ ∀ row ∈ r.logRows, row.sourceVersion ≤ u) ∨
    (outboxBatch r u limit ≠ [] ∧ u < maxVersion (outboxBatch r u limit) ∧
      maxVersion (outboxBatch r u limit) ≤ r.sourceVersion ∧
      Batch r u (maxVersion (outboxBatch r u limit)) (outboxBatch r u limit)) := by
  set later := ordered (r.outbox.filter (u < ·.sourceVersion)) with hlater
  have hmem : ∀ row, row ∈ later ↔ row ∈ r.outbox ∧ u < row.sourceVersion := by simp [hlater]
  cases htake : later.take limit with
  | nil =>
    left
    refine ⟨by rw [outboxBatch, ← hlater, htake], fun row hrow => ?_⟩
    by_contra hc
    have hin : row ∈ later := (hmem row).mpr ⟨hk row hrow (by omega), by omega⟩
    rcases take_eq_nil_iff.mp htake with h₀ | h₀
    · exact hlimit h₀
    · rw [h₀] at hin
      cases hin
  | cons row₀ rest =>
    right
    have heq : outboxBatch r u limit = ordered (r.outbox.filter fun row =>
        u < row.sourceVersion ∧ row.sourceVersion ≤ maxVersion (row₀ :: rest)) := by
      rw [outboxBatch, ← hlater, htake]
    have hrows : ∀ row, row ∈ outboxBatch r u limit ↔
        row ∈ r.outbox ∧ u < row.sourceVersion ∧ row.sourceVersion ≤ maxVersion (row₀ :: rest) := by
      simp [heq]
    -- completing the last version does not raise the maximum
    obtain ⟨top, htop, hmax⟩ := exists_maxVersion (cons_ne_nil row₀ rest)
    obtain ⟨hout, hu⟩ := (hmem top).mp (mem_of_mem_take (htake ▸ htop))
    have htop' : top ∈ outboxBatch r u limit := (hrows top).mpr ⟨hout, hu, hmax.le⟩
    have hne : outboxBatch r u limit ≠ [] := ne_nil_of_mem htop'
    have hsame : maxVersion (outboxBatch r u limit) = maxVersion (row₀ :: rest) := by
      obtain ⟨top', hmem', hmax'⟩ := exists_maxVersion hne
      have h₁ := ((hrows top').mp hmem').2.2
      have h₂ := le_maxVersion htop'
      omega
    refine ⟨hne, by omega, ?_, ⟨heq ▸ ordered_versions _, fun row => ?_⟩⟩
    · have := h.row_le (h.outbox top hout)
      omega
    · rw [hrows, hsame]
      exact ⟨fun ⟨ho, hw⟩ => ⟨h.outbox row ho, hw⟩, fun ⟨hl, hw⟩ => ⟨hk row hl hw.1, hw⟩⟩

/-! ### Acknowledging -/

omit [LinearOrder E] in
theorem safeVersion_le (r : Room E) (now published : ℕ) : safeVersion r now published ≤ published := by
  rw [safeVersion]
  split
  · exact le_rfl
  · exact min_le_left _ _

omit [LinearOrder E] in
/-- A checkpoint whose lease is valid holds back the rows it has not replayed. -/
theorem safeVersion_le_lastReplayed {now published : ℕ} {c : Checkpoint} (hc : c ∈ r.checkpoints)
    (hlease : now ≤ c.leaseExpiresAt) : safeVersion r now published ≤ c.lastReplayed := by
  have hmem : c.lastReplayed ∈ (r.checkpoints.filter (now ≤ ·.leaseExpiresAt)).map Checkpoint.lastReplayed :=
    mem_map_of_mem (mem_filter.mpr ⟨hc, by simpa using hlease⟩)
  rw [safeVersion]
  split
  · rename_i hmin
    rw [min?_eq_none_iff.mp hmin] at hmem
    cases hmem
  · rename_i m hmin
    exact (min_le_right _ _).trans ((min?_eq_some_iff.mp hmin).2 _ hmem)

omit [LinearOrder E] in
theorem Kept.ackThrough {now published : ℕ} (hk : Kept r u) (hsafe : safeVersion r now published ≤ u) :
    Kept (ackThrough r now published) u := by
  intro row hrow hu
  refine mem_filter.mpr ⟨hk row hrow hu, ?_⟩
  rw [decide_eq_true_eq]
  omega

/-! ### Processes and the history -/

/-- The SQL side of a room as far as edges go, with rows acknowledged at most. -/
structure SameEdges (r r' : Room E) : Prop where
  edges : r'.edges = r.edges
  version : r'.sourceVersion = r.sourceVersion
  log : r'.log = r.log
  outbox : ∀ row ∈ r'.outbox, row ∈ r.outbox

namespace SameEdges

variable (h : SameEdges r r')

include h
omit [LinearOrder E]

theorem sqlEdges (v : ℕ) : r'.sqlEdges v = r.sqlEdges v := by
  cases v with
  | zero => rfl
  | succ v => rw [Room.sqlEdges, Room.sqlEdges, Room.edgesAt, Room.edgesAt, h.log]

theorem logRows : r'.logRows = r.logRows := by
  rw [Room.logRows, Room.logRows, h.log]

theorem continues : Continues r r' :=
  ⟨h.version.ge, fun v _ => h.sqlEdges v, fun _ hrow => h.logRows ▸ hrow,
    fun _ hrow => .inl (h.logRows ▸ hrow)⟩

theorem history (hr : History r) : History r' where
  version := by rw [h.log, h.version, hr.version]
  current := by
    have := h.sqlEdges r.sourceVersion
    rw [h.version, h.edges, ← hr.current]
    cases r.sourceVersion with
    | zero => rfl
    | succ v => rw [Room.edgesAt, Room.edgesAt, h.log]
  rows_version := fun hc => hr.rows_version (h.log ▸ hc)
  rows_unique := fun hc => hr.rows_unique (h.log ▸ hc)
  replays := fun hc => by rw [h.sqlEdges]; exact hr.replays (h.log ▸ hc)
  outbox := fun row hrow => h.logRows ▸ hr.outbox row (h.outbox row hrow)

end SameEdges

/-- No step of a process changes the edges, and none adds outbox rows. -/
theorem Effect.sameEdges {p : Proc E} {now : ℕ} (h : Effect r now p r') : SameEdges r r' := by
  cases h with
  | ack version => exact ⟨rfl, rfl, rfl, fun _ hrow => (mem_filter.mp hrow).1⟩
  | _ => exact ⟨rfl, rfl, rfl, fun _ hrow => hrow⟩

end Sithnapse.ForwardIndex
