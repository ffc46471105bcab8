import Sithnapse.ForwardIndex.History

/-! Draining the outbox into the active generation.

    With edge transactions and drains only, the collection of the active generation always is
    `event_edges` at the published version, and every row above that version is still in the outbox.
    A drain that holds the lock relies on the metadata it read: its batch is all the rows between the
    published version and the batch's last one. A crash at any point loses nothing but the drain's
    local variables. -/

namespace Sithnapse.ForwardIndex

open Kit List

variable {E : Type} [LinearOrder E] {r r' : Room E} {s s' : Sys E} {a : Action E}

/-- Edge transactions, drains, crashes and the clock: no rebuild and no garbage collection starts. -/
def drainsOnly : Action E → Bool
  | .call _ (.rebuild _) => false
  | .call _ (.gc _ _) => false
  | _ => true

/-- The active generation is the index of `event_edges` at the published version. -/
structure Published (r : Room E) : Prop where
  history : History r
  le : r.published ≤ r.sourceVersion
  content : edgeSet (r.collection r.activeGeneration) = r.sqlEdges r.published
  kept : Kept r r.published

/-- What a drain knows of the room while it holds the lock. -/
def DrainKnows (r : Room E) : Proc E → Prop
  | .idle => True
  | .drainStart limit | .drainWait limit | .drainLocked limit => limit ≠ 0
  | .drainRows limit generation published => limit ≠ 0 ∧ r.activeMeta = (generation, published)
  | .drainApply generation rows =>
    generation = r.activeGeneration ∧ r.published < maxVersion rows ∧
      maxVersion rows ≤ r.sourceVersion ∧ Batch r r.published (maxVersion rows) rows
  | .drainAck version => version ≤ r.published
  | _ => False

/-! ### Transactions -/

@[simp] theorem activeMeta_commit (r : Room E) (t : EdgeTxn E) : (r.commit t).activeMeta = r.activeMeta := by
  rcases commit_cases r t with h | h
  · rw [h]
  · rw [h]
    rfl

@[simp] theorem activeGeneration_commit (r : Room E) (t : EdgeTxn E) :
    (r.commit t).activeGeneration = r.activeGeneration := by
  rw [Room.activeGeneration, activeMeta_commit, Room.activeGeneration]

@[simp] theorem published_commit (r : Room E) (t : EdgeTxn E) : (r.commit t).published = r.published := by
  rw [Room.published, activeMeta_commit, Room.published]

@[simp] theorem collection_commit (r : Room E) (t : EdgeTxn E) (g : ℕ) :
    (r.commit t).collection g = r.collection g := by
  rcases commit_cases r t with h | h
  · rw [h]
  · rw [h]
    rfl

theorem Published.commit (h : Published r) (t : EdgeTxn E) : Published (r.commit t) := by
  have hcont := continues_commit h.history t
  refine ⟨h.history.commit t, ?_, ?_, ?_⟩
  · rw [published_commit]
    exact h.le.trans hcont.version
  · rw [published_commit, activeGeneration_commit, collection_commit, hcont.sqlEdges _ h.le]
    exact h.content
  · rw [published_commit]
    exact h.kept.commit t

theorem DrainKnows.commit (h : Published r) (t : EdgeTxn E) {p : Proc E} (hp : DrainKnows r p) :
    DrainKnows (r.commit t) p := by
  have hcont := continues_commit h.history t
  cases p with
  | drainRows limit generation published => exact ⟨hp.1, (activeMeta_commit r t).trans hp.2⟩
  | drainApply generation rows =>
    obtain ⟨hg, hlt, hle, hb⟩ := hp
    refine ⟨hg.trans (activeGeneration_commit r t).symm, ?_, hle.trans hcont.version, ?_⟩
    · rwa [published_commit]
    · rw [published_commit]
      exact hcont.batch hb hle
  | drainAck version => exact hp.trans_eq (published_commit r t).symm
  | _ => exact hp

/-! ### The steps of a drain -/

/-- Publishing a complete batch moves the index to the batch's last version. -/
theorem Published.publish (h : Published r) {generation : ℕ} {rows : List (OutboxRow E)}
    (hp : DrainKnows r (.drainApply generation rows)) :
    Published { r.setCollection generation (applyForwardDelta (r.collection generation) rows) with
      forwardMeta := some (generation, maxVersion rows) } := by
  obtain ⟨rfl, hlt, hle, hb⟩ := hp
  have heffect : Effect r 0 _ _ := .publish r.activeGeneration rows
  have hsame := heffect.sameEdges
  refine ⟨hsame.history h.history, hle, ?_, fun row hrow hu => ?_⟩
  · rw [hsame.sqlEdges]
    ext x
    have hcol : Room.collection
        { r.setCollection r.activeGeneration (applyForwardDelta (r.collection r.activeGeneration) rows) with
          forwardMeta := some (r.activeGeneration, maxVersion rows) } r.activeGeneration =
        applyForwardDelta (r.collection r.activeGeneration) rows := by
      simp [Room.collection, Room.setCollection, Dict.getD]
    have hx := hb.mem_replay (x := x) h.history hlt.le hle
      (C := edgeSet (r.collection r.activeGeneration)) fun _ => by rw [h.content]
    rw [← edgeSet_applyForwardDelta, ← hcol] at hx
    exact hx
  · exact h.kept row hrow (hlt.trans hu)

theorem drain_advance (h : Published r) {now : ℕ} {p p' : Proc E} (hp : DrainKnows r p)
    (hadv : p.advance r now = some (r', p')) : Published r' ∧ DrainKnows r' p' := by
  cases p with
  | drainStart limit =>
    cases hadv
    refine ⟨h, ?_⟩
    split
    · trivial
    · exact hp
  | drainWait limit =>
    cases hadv
    exact ⟨h, hp⟩
  | drainLocked limit =>
    cases hadv
    exact ⟨h, hp, rfl⟩
  | drainRows limit generation published =>
    obtain ⟨hlimit, hmeta⟩ := hp
    have hpub : published = r.published := by rw [Room.published, hmeta]
    have hgen : generation = r.activeGeneration := by rw [Room.activeGeneration, hmeta]
    subst hpub
    rw [Proc.advance] at hadv
    rcases outboxBatch_spec h.history h.kept hlimit with ⟨hnil, -⟩ | ⟨hne, hlt, hle, hb⟩
    · rw [hnil] at hadv
      cases hadv
      exact ⟨h, le_rfl⟩
    · split at hadv
      · rename_i hnil
        exact absurd hnil hne
      · cases hadv
        exact ⟨h, hgen, hlt, hle, hb⟩
  | drainApply generation rows =>
    cases hadv
    exact ⟨h.publish hp, le_rfl⟩
  | drainAck version =>
    cases hadv
    have heffect : Effect r now _ _ := .ack version
    have hsame := heffect.sameEdges
    have hsafe : safeVersion r now version ≤ r.published := (safeVersion_le r now version).trans hp
    exact ⟨⟨hsame.history h.history, h.le, h.content, h.kept.ackThrough hsafe⟩, trivial⟩
  | idle => exact absurd hadv (by simp [Proc.advance])
  | _ => exact hp.elim

/-- A drain outside its critical section leaves the room alone. -/
theorem drain_unlocked {now : ℕ} {p p' : Proc E} (hp : DrainKnows r p) (hlock : p.locked = false)
    (hadv : p.advance r now = some (r', p')) : r' = r := by
  cases p with
  | drainStart | drainWait => exact (some_pair_inj hadv).1.symm
  | drainLocked | drainRows | drainApply | drainAck => exact absurd hlock (by simp [Proc.locked])
  | idle => exact absurd hadv (by simp [Proc.advance])
  | _ => exact hp.elim

omit [LinearOrder E] in
/-- What a drain knows before it has the lock does not depend on the room. -/
theorem DrainKnows.of_unlocked {p : Proc E} (hp : DrainKnows r p) (hlock : p.locked = false) :
    DrainKnows r' p := by
  cases p with
  | drainLocked | drainRows | drainApply | drainAck => exact absurd hlock (by simp [Proc.locked])
  | _ => exact hp

theorem drains_invariant : ProcInvariant (fun (_ : Sys E) a => drainsOnly a = true) Published
    (fun _ => DrainKnows) where
  commit := fun h => h.commit _
  commit_proc := fun h hp => hp.commit h _
  idle := trivial
  enter := fun {s i c} hok => by
    cases c with
    | drain limit =>
      rw [Call.enter]
      split
      · trivial
      · assumption
    | rebuild | gc => exact absurd hok (by simp [drainsOnly])
  raised := fun {i r p} hp => by
    cases p <;> trivial
  advance := fun _ _ h hp hadv => drain_advance h hp hadv
  frame := fun {s i j p p' q r'} _ _ _ hlock h hp hq hadv => by
    cases hpl : p.locked with
    | true => exact hq.of_unlocked (hlock hpl)
    | false => exact drain_unlocked hp hpl hadv ▸ hq

/-! ### The protocol -/

/-- A room without edges, any rows in its checkpoint table, and idle processes. -/
def idleStart (checkpoints : List Checkpoint) (now processes : ℕ) : Sys E :=
  ⟨emptyRoom checkpoints, now, List.replicate processes .idle⟩

theorem Published.of_empty (checkpoints : List Checkpoint) : Published (emptyRoom checkpoints : Room E) where
  history := History.emptyRoom checkpoints
  le := le_rfl
  content := Set.ext fun x => by
    simp [Room.sqlEdges, Room.edgesAt, Room.published, Room.activeMeta, Room.collection, emptyRoom]
  kept := fun _ hrow => absurd hrow (by simp [Room.logRows, emptyRoom])

theorem drains_reach {checkpoints : List Checkpoint} {now processes : ℕ}
    (h : Run step (fun _ a => drainsOnly a = true) (idleStart checkpoints now processes) s) :
    Meets Published (fun _ => DrainKnows) s :=
  drains_invariant.run (drains_invariant.start (Published.of_empty checkpoints) now processes) h

/-- Every gated hit is what `event_edges` held at the expected version. -/
def ReadsExact (r : Room E) : Prop :=
  ∀ (expected : ℕ) (parents : List E) (rows : List (E × Option (List E))),
    getForwardGated r expected parents = .hit rows → rows.map Prod.fst = parents ∧
      ∀ p children, (p, children) ∈ rows → ∀ c, c ∈ children.getD [] ↔ (c, p) ∈ r.edgesAt expected

theorem Published.readsExact (h : Published r) : ReadsExact r := by
  intro expected parents rows hread
  rw [getForwardGated] at hread
  split at hread
  · cases hread
  · rename_i generation published hmeta
    have hactive : r.activeMeta = (generation, published) := by rw [Room.activeMeta, hmeta]; rfl
    split at hread
    · cases hread
    · rename_i hexp
      rw [not_not] at hexp
      rw [GatedRead.hit.injEq] at hread
      subst hread hexp
      refine ⟨by rw [map_map]; exact map_id _, fun p children hmem c => ?_⟩
      obtain ⟨p', -, he⟩ := mem_map.mp hmem
      obtain ⟨rfl, rfl⟩ := Prod.mk.inj he
      have hcontent := Set.ext_iff.mp h.content (c, p')
      rw [Room.activeGeneration, Room.published, hactive] at hcontent
      exact hcontent

/-- The watermark after a step: it stands still, or moves by one complete batch that the same mtxdb
    transaction applied. -/
def Advances (r r' : Room E) : Prop :=
  r'.published = r.published ∨ r.published < r'.published ∧ ∃ rows,
    r'.collection r'.activeGeneration = applyForwardDelta (r.collection r.activeGeneration) rows ∧
    ∀ row, row ∈ rows ↔ row ∈ r.logRows ∧ r.published < row.sourceVersion ∧ row.sourceVersion ≤ r'.published

theorem advances_of_moved (h : Meets Published (fun _ => DrainKnows) s) (hm : Moved s a s') :
    Advances s.room s'.room := by
  cases hm with
  | edgeTxn t => exact .inl (published_commit s.room t)
  | @advance i p p' room hp hadv _ =>
    have hknows := h.procs i p hp
    cases effect_of_advance hadv with
    | publish generation rows =>
      obtain ⟨rfl, hlt, -, hb⟩ := hknows
      refine .inr ⟨hlt, rows, ?_, hb.mem⟩
      simp [Room.collection, Room.setCollection, Room.activeGeneration, Room.activeMeta, Dict.getD]
    | swap c finalVersion => exact hknows.elim
    | _ => exact .inl rfl
  | _ => exact .inl rfl

/-- The outbox protocol of one generation. In every state that edge transactions, drains and crashes
    reach from a room without edges: gated hits are exact; a row that has left the outbox is covered
    by the watermark, whose version the active collection holds; and every step keeps the watermark or
    raises it over complete source versions. -/
theorem outbox_protocol {checkpoints : List Checkpoint} {now processes : ℕ}
    (h : Run step (fun _ a => drainsOnly a = true) (idleStart checkpoints now processes) s) :
    ReadsExact s.room ∧
      (∀ row ∈ s.room.logRows, row ∈ s.room.outbox ∨ row.sourceVersion ≤ s.room.published) ∧
      (∀ x, x ∈ edgeSet (s.room.collection s.room.activeGeneration) ↔ x ∈ s.room.edgesAt s.room.published) ∧
      ∀ a s', drainsOnly a = true → step s a = some s' → Advances s.room s'.room := by
  have hs := drains_reach h
  refine ⟨hs.room.readsExact, fun row hrow => ?_, fun x => Set.ext_iff.mp hs.room.content x,
    fun a s' _ hst => advances_of_moved hs (moved_of_step hst)⟩
  by_cases hle : row.sourceVersion ≤ s.room.published
  · exact .inr hle
  · exact .inl (hs.room.kept row hrow (by omega))

/-- Two children of event 1 persisted, drained with `limit` 1 and a crash before the
    acknowledgement, one of them purged, drained again: the gated read at version 2 is a hit. -/
def drainTrace : List (Action ℕ) :=
  [.edgeTxn (.persist [(2, 1), (3, 1)]), .call 0 (.drain 1), .advance 0, .advance 0, .advance 0,
    .advance 0, .advance 0, .crash 0, .edgeTxn (.purge [2]), .call 1 (.drain 1), .advance 1,
    .advance 1, .advance 1, .advance 1, .advance 1, .advance 1]

theorem outbox_protocol_trace : ∃ s : Sys ℕ,
    exec step (fun _ a => drainsOnly a = true) (idleStart [] 0 2) drainTrace = some s ∧
      getForwardGated s.room 2 [1] = .hit [(1, some [3])] ∧ s.room.outbox = [] ∧
      ReadsExact s.room ∧
      (∀ row ∈ s.room.logRows, row ∈ s.room.outbox ∨ row.sourceVersion ≤ s.room.published) := by
  refine ⟨_, rfl, rfl, rfl, ?_⟩
  have h := outbox_protocol (E := ℕ) (Run.of_exec drainTrace (idleStart [] 0 2) rfl)
  exact ⟨h.1, h.2.1⟩

end Sithnapse.ForwardIndex
