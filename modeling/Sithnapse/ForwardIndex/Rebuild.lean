import Sithnapse.ForwardIndex.Outbox

/-! One rebuild among edge transactions and drains.

    A rebuild reads `event_edges` in batches at different source versions, so what it has built is
    right at its start version only for edges that no later row names. Replaying the rows after the
    start version repairs exactly those, provided the outbox still holds all of them. The rebuild's
    checkpoint keeps them as long as every acknowledgement finds its lease valid; under that condition
    the generation swapped in is `event_edges` at the version it is swapped in with. A lease that
    expires lets a drain delete rows the rebuild still needs. -/

namespace Sithnapse.ForwardIndex

open Kit Kit.Dict List

variable {E : Type} [LinearOrder E] {r r' : Room E} {s s' : Sys E} {a : Action E} {id i u v : ℕ}

/-- Only the rebuild that was there at the start runs, and an acknowledgement while its checkpoint is
    registered finds the lease valid. -/
def leaseHeld (id : ℕ) (s : Sys E) (a : Action E) : Bool :=
  drainsOnly a && match a with
    | .advance i => match s.procs[i]? with
      | some (.drainAck _) =>
        s.room.checkpoints.all fun c => c.rebuildId ≠ id ∨ s.now ≤ c.leaseExpiresAt
      | _ => true
    | _ => true

/-- The edges in the collection the rebuild fills. -/
def targetEdges (r : Room E) : Set (E × E) := edgeSet (r.collection (r.activeGeneration + 1))

/-- The checkpoint table holds back what comes after version `u`. -/
def Registered (r : Room E) (id u : ℕ) : Prop :=
  ∃ c ∈ r.checkpoints, c.rebuildId = id ∧ c.lastReplayed ≤ u

/-- Process `i` is the rebuild and has the rows after version `u` still to replay. -/
structure Stands (id i : ℕ) (r : Room E) (c : Rebuild) (u : ℕ) : Prop where
  index : i = 0
  rebuildId : c.rebuildId = id
  batchSize : c.batchSize ≠ 0
  active : c.activeGeneration = r.activeGeneration
  le : u ≤ r.sourceVersion
  registered : Registered r id u
  kept : Kept r u

/-- The parents that meet `done` have been built, no other has. -/
structure Scanned (r : Room E) (u : ℕ) (done : E → Prop) : Prop where
  right : ∀ x, done x.2 → Quiet r u x → (x ∈ targetEdges r ↔ x ∈ r.sqlEdges u)
  rest : ∀ x ∈ targetEdges r, done x.2

/-- A batch of records that is right for the parents of its range. -/
structure BatchRight (r : Room E) (u : ℕ) (first last : E) (grouped : Dict E (List E)) : Prop where
  keys : ∀ p ∈ grouped.keys, first ≤ p ∧ p ≤ last
  right : ∀ x, first ≤ x.2 → x.2 ≤ last → Quiet r u x → (x.1 ∈ grouped.getD x.2 [] ↔ x ∈ r.sqlEdges u)

/-- The cursor has passed the parent. -/
def Passed (lastPrev : Option E) (p : E) : Prop := ∃ c ∈ lastPrev, p ≤ c

/-- What the processes know while one rebuild runs as process 0. -/
def RebuildKnows (id i : ℕ) (r : Room E) : Proc E → Prop
  | .idle | .drainStart _ | .drainWait _ | .drainLocked _ | .drainAck _ => True
  | .drainRows _ generation _ | .drainApply generation _ => generation = r.activeGeneration
  | .rebuildWait call | .rebuildLocked call => i = 0 ∧ call.rebuildId = id ∧ call.batchSize ≠ 0
  | .rebuildAcquire call active =>
    (i = 0 ∧ call.rebuildId = id ∧ call.batchSize ≠ 0) ∧ active = r.activeGeneration
  | .rebuildVersion call active =>
    (i = 0 ∧ call.rebuildId = id ∧ call.batchSize ≠ 0) ∧ active = r.activeGeneration ∧ Registered r id 0
  | .rebuildFirstBeat c | .rebuildReset c => Stands id i r c c.startVersion
  | .rebuildParents c lastPrev => Stands id i r c c.startVersion ∧ Scanned r c.startVersion (Passed lastPrev)
  | .rebuildEdges c first last =>
    Stands id i r c c.startVersion ∧ first ≤ last ∧ Scanned r c.startVersion (· < first)
  | .rebuildBuild c last grouped =>
    Stands id i r c c.startVersion ∧ ∃ first ≤ last, Scanned r c.startVersion (· < first) ∧
      BatchRight r c.startVersion first last grouped
  | .rebuildReplay c u | .rebuildBeat c u | .rebuildFinish c u | .rebuildFinal c u =>
    Stands id i r c u ∧ RightExceptLater r u (targetEdges r)
  | .rebuildDelta c rows => ∃ u, Stands id i r c u ∧ RightExceptLater r u (targetEdges r) ∧
      u < maxVersion rows ∧ maxVersion rows ≤ r.sourceVersion ∧ Batch r u (maxVersion rows) rows
  | .rebuildFinalDelta c v rows => i = 0 ∧ c.activeGeneration = r.activeGeneration ∧
      v ≤ r.sourceVersion ∧ replayRows (targetEdges r) rows = r.sqlEdges v
  | .rebuildSwap c v => i = 0 ∧ c.activeGeneration = r.activeGeneration ∧
      v ≤ r.sourceVersion ∧ targetEdges r = r.sqlEdges v
  | .rebuildRetire _ | .rebuildRelease _ _ => i = 0
  | _ => False

/-- The states of idle processes and drains. -/
def Proc.drains : Proc E → Bool
  | .idle | .drainStart _ | .drainWait _ | .drainLocked _ => true
  | .drainRows _ _ _ | .drainApply _ _ | .drainAck _ => true
  | _ => false

variable {p : Proc E} {c : Rebuild} {lastPrev : Option E}

/-- Every process but the first is idle or drains. -/
theorem RebuildKnows.drains_of_ne (hp : RebuildKnows id i r p) (hi : i ≠ 0) : p.drains = true := by
  cases p with
  | rebuildWait | rebuildLocked | rebuildFinalDelta | rebuildSwap => exact absurd hp.1 hi
  | rebuildAcquire | rebuildVersion => exact absurd hp.1.1 hi
  | rebuildFirstBeat | rebuildReset => exact absurd hp.index hi
  | rebuildParents | rebuildEdges | rebuildBuild => exact absurd hp.1.index hi
  | rebuildReplay | rebuildBeat | rebuildFinish | rebuildFinal => exact absurd hp.1.index hi
  | rebuildDelta c rows =>
    obtain ⟨u, hs, -⟩ := hp
    exact absurd hs.index hi
  | rebuildRetire | rebuildRelease => exact absurd hp hi
  | gcStart | gcNext | gcLocked | gcDrop | gcAck => exact hp.elim
  | _ => rfl

/-! ### What the others do to a rebuild -/

/-- A change of the room that leaves a rebuild its rows and its collection. -/
structure Undisturbed (id : ℕ) (r r' : Room E) : Prop where
  continues : Continues r r'
  active : r'.activeGeneration = r.activeGeneration
  target : r'.collection (r.activeGeneration + 1) = r.collection (r.activeGeneration + 1)
  checkpoints : r'.checkpoints = r.checkpoints
  kept : ∀ {u}, Registered r id u → Kept r u → Kept r' u

namespace Undisturbed

section

variable (h : Undisturbed id r r')

include h

theorem targetEdges : targetEdges r' = targetEdges r := by
  rw [ForwardIndex.targetEdges, ForwardIndex.targetEdges, h.active, h.target]

omit [LinearOrder E] in
theorem registered (hr : Registered r id u) : Registered r' id u := by
  obtain ⟨c, hc, hid, hle⟩ := hr
  exact ⟨c, h.checkpoints ▸ hc, hid, hle⟩

omit [LinearOrder E] in
theorem stands {c : Rebuild} (hs : Stands id i r c u) : Stands id i r' c u :=
  ⟨hs.index, hs.rebuildId, hs.batchSize, hs.active.trans h.active.symm,
    hs.le.trans h.continues.version, h.registered hs.registered, h.kept hs.registered hs.kept⟩

theorem scanned (hu : u ≤ r.sourceVersion) {done : E → Prop} (hs : Scanned r u done) :
    Scanned r' u done := by
  refine ⟨fun x hx hq => ?_, fun x hx => hs.rest x (h.targetEdges ▸ hx)⟩
  rw [h.targetEdges, h.continues.sqlEdges u hu]
  exact hs.right x hx (h.continues.quiet hq)

theorem batchRight (hu : u ≤ r.sourceVersion) {first last : E}
    {grouped : Dict E (List E)} (hb : BatchRight r u first last grouped) :
    BatchRight r' u first last grouped := by
  refine ⟨hb.keys, fun x hf hl hq => ?_⟩
  rw [h.continues.sqlEdges u hu]
  exact hb.right x hf hl (h.continues.quiet hq)

theorem rightExceptLater (hu : u ≤ r.sourceVersion)
    (hC : RightExceptLater r u (ForwardIndex.targetEdges r)) :
    RightExceptLater r' u (ForwardIndex.targetEdges r') :=
  h.targetEdges ▸ h.continues.rightExceptLater hu hC

theorem knows (hp : RebuildKnows id i r p) : RebuildKnows id i r' p := by
  cases p with
  | drainRows | drainApply => exact Eq.trans hp h.active.symm
  | rebuildAcquire call active => exact ⟨hp.1, hp.2.trans h.active.symm⟩
  | rebuildVersion call active => exact ⟨hp.1, hp.2.1.trans h.active.symm, h.registered hp.2.2⟩
  | rebuildFirstBeat | rebuildReset => exact h.stands hp
  | rebuildParents c lastPrev => exact ⟨h.stands hp.1, h.scanned hp.1.le hp.2⟩
  | rebuildEdges c first last => exact ⟨h.stands hp.1, hp.2.1, h.scanned hp.1.le hp.2.2⟩
  | rebuildBuild c last grouped =>
    obtain ⟨hs, first, hfl, hscan, hb⟩ := hp
    exact ⟨h.stands hs, first, hfl, h.scanned hs.le hscan, h.batchRight hs.le hb⟩
  | rebuildReplay | rebuildBeat | rebuildFinish | rebuildFinal =>
    exact ⟨h.stands hp.1, h.rightExceptLater hp.1.le hp.2⟩
  | rebuildDelta c rows =>
    obtain ⟨u, hs, hC, hlt, hle, hb⟩ := hp
    exact ⟨u, h.stands hs, h.rightExceptLater hs.le hC, hlt, hle.trans h.continues.version,
      h.continues.batch hb hle⟩
  | rebuildFinalDelta | rebuildSwap =>
    obtain ⟨hi, ha, hv, heq⟩ := hp
    refine ⟨hi, ha.trans h.active.symm, hv.trans h.continues.version, ?_⟩
    rw [h.targetEdges, h.continues.sqlEdges _ hv, heq]
  | _ => exact hp

end

omit [LinearOrder E] in
theorem refl (r : Room E) : Undisturbed id r r := ⟨Continues.refl r, rfl, rfl, rfl, fun _ h => h⟩

theorem commit (h : History r) (t : EdgeTxn E) : Undisturbed id r (r.commit t) := by
  refine ⟨continues_commit h t, activeGeneration_commit r t, collection_commit r t _, ?_,
    fun _ hk => hk.commit t⟩
  rcases commit_cases r t with h | h
  · rw [h]
  · rw [h]

/-- A drain writes to the active generation, and acknowledges no row held back by a valid lease. -/
theorem drain {now : ℕ} (hp : RebuildKnows id i r p) (hd : p.drains = true)
    (hlease : ∀ w, p = .drainAck w → ∀ c ∈ r.checkpoints, c.rebuildId = id → now ≤ c.leaseExpiresAt)
    (he : Effect r now p r') : Undisturbed id r r' := by
  have hsame := he.sameEdges
  cases he with
  | none => exact refl r
  | publish generation rows =>
    have hg : generation = r.activeGeneration := hp
    subst hg
    refine ⟨hsame.continues, rfl, ?_, rfl, fun _ hk => hk⟩
    exact (getD_set _ _ _ _ _).trans (if_neg (Nat.succ_ne_self _))
  | ack version =>
    refine ⟨hsame.continues, rfl, rfl, rfl, ?_⟩
    rintro u ⟨c, hc, hid, hle⟩ hk
    exact hk.ackThrough ((safeVersion_le_lastReplayed hc (hlease version rfl c hc hid)).trans hle)
  | retired l => exact ⟨hsame.continues, rfl, rfl, rfl, fun _ hk => hk⟩
  | checkpoints l hc => cases p <;> simp_all [Proc.drains, Proc.checkpoints]
  | overwrite fwd ho => cases p <;> simp_all [Proc.drains, Proc.overwrites]
  | swap c v => exact absurd hd (by simp [Proc.drains])

end Undisturbed

/-! ### The steps of a rebuild -/

theorem targetEdges_setCollection (hc : c.activeGeneration = r.activeGeneration)
    (fwd : Forward E) : targetEdges (r.setCollection c.target fwd) = edgeSet fwd := by
  have hg : (r.setCollection c.target fwd).activeGeneration + 1 = c.target := by
    rw [Rebuild.target, hc]
    rfl
  rw [targetEdges, hg, Room.collection, Room.setCollection, getD_set, if_pos rfl]

theorem collection_target (hc : c.activeGeneration = r.activeGeneration) :
    edgeSet (r.collection c.target) = targetEdges r := by
  rw [targetEdges, Rebuild.target, hc]

omit [LinearOrder E] in
theorem Stands.setCollection (h : Stands id i r c u) (g : ℕ) (fwd : Forward E) :
    Stands id i (r.setCollection g fwd) c u :=
  { h with }

omit [LinearOrder E] in
/-- A heartbeat moves the checkpoint no further than the rebuild has come. -/
theorem Stands.heartbeat {now : ℕ} (h : Stands id i r c u)
    (hb : heartbeatCheckpoint r now c.rebuildId u = some r') :
    Stands id i r' c u ∧ ∃ l, r' = { r with checkpoints := l } := by
  rw [heartbeatCheckpoint] at hb
  split at hb
  · cases hb
    obtain ⟨cp, hcp, hid, hle⟩ := h.registered
    refine ⟨{ h with registered := ?_ }, _, rfl⟩
    refine ⟨_, mem_map_of_mem hcp, ?_, ?_⟩
    · rw [if_pos (hid.trans h.rebuildId.symm)]
      exact h.rebuildId
    · rw [if_pos (hid.trans h.rebuildId.symm)]
      exact max_le hle le_rfl
  · cases hb

/-- A parent batch lists, in order, parents beyond the cursor, and skips none up to its last. -/
theorem parentBatch_spec {limit : ℕ} : (∀ first rest, parentBatch r lastPrev limit = first :: rest →
      first ≤ rest.getLastD first ∧ (∀ c ∈ lastPrev, c < first) ∧
      ∀ x ∈ r.edges, x.2 < first → Passed lastPrev x.2) ∧
    (limit ≠ 0 → parentBatch r lastPrev limit = [] → ∀ x ∈ r.edges, Passed lastPrev x.2) := by
  set later := (((r.edges.map Prod.snd).filter fun p => ∀ c ∈ lastPrev, c < p).dedup).insertionSort
    (· ≤ ·) with hlater
  have hmem : ∀ p, p ∈ later ↔ p ∈ r.edges.map Prod.snd ∧ ∀ c ∈ lastPrev, c < p := by
    intro p
    rw [hlater, (perm_insertionSort _ _).mem_iff, mem_dedup, mem_filter, decide_eq_true_eq]
  have hsorted : later.Pairwise (· ≤ ·) := pairwise_insertionSort _ _
  -- a parent of an edge that is not among the later ones has been passed
  have hpassed : ∀ x ∈ r.edges, x.2 ∉ later → Passed lastPrev x.2 := by
    intro x hx hnot
    rw [hmem, not_and] at hnot
    have := hnot (mem_map_of_mem hx)
    push Not at this
    exact this
  refine ⟨fun first rest hb => ?_, fun hlimit hb x hx => ?_⟩
  · have htake : later.take limit = first :: rest := hb
    have hsub : (first :: rest).Pairwise (· ≤ ·) := htake ▸ hsorted.take
    have hfirst : first ∈ later := mem_of_mem_take (htake ▸ mem_cons_self)
    refine ⟨?_, ((hmem first).mp hfirst).2, fun x hx hlt => hpassed x hx fun hin => ?_⟩
    · rcases eq_nil_or_concat' rest with rfl | ⟨l, last, rfl⟩
      · exact le_rfl
      · rw [getLastD_concat]
        exact rel_of_pairwise_cons hsub (by simp)
    · -- the head of a sorted list is its least element
      cases hl : later with
      | nil => exact absurd (hl ▸ hfirst) not_mem_nil
      | cons b l =>
        have hb' : b = first := by
          cases limit with
          | zero => simp [hl] at htake
          | succ n => rw [hl, take_succ_cons, List.cons.injEq] at htake; exact htake.1
        rw [hl] at hin hsorted
        rcases mem_cons.mp hin with he | hin
        · exact absurd hlt (by rw [he, hb']; exact lt_irrefl _)
        · exact absurd hlt (not_lt.mpr (hb' ▸ rel_of_pairwise_cons hsorted hin))
  · have htake : later.take limit = [] := hb
    refine hpassed x hx fun hin => ?_
    rcases take_eq_nil_iff.mp htake with h₀ | h₀
    · exact hlimit h₀
    · rw [h₀] at hin
      cases hin

/-- The parents before the next batch have no edges that are not built. -/
theorem Scanned.skip {limit : ℕ} {first : E} {rest : List E} (h : History r)
    (hu : u ≤ r.sourceVersion) (hs : Scanned r u (Passed lastPrev))
    (hb : parentBatch r lastPrev limit = first :: rest) : Scanned r u (· < first) := by
  obtain ⟨-, hcur, hskip⟩ := parentBatch_spec.1 first rest hb
  refine ⟨fun x hx hq => ?_, fun x hx => ?_⟩
  · by_cases hp : Passed lastPrev x.2
    · exact hs.right x hp hq
    · -- not built, and not in the table at any version the row log is quiet about
      have hnot : x ∉ r.edges := fun hin => hp (hskip x hin hx)
      rw [hq.mem_iff h hu]
      exact ⟨fun hin => absurd (hs.rest x hin) hp, fun hin => absurd hin hnot⟩
  · obtain ⟨c, hc, hle⟩ := hs.rest x hx
    exact hle.trans_lt (hcur c hc)

/-- After the last batch everything is built. -/
theorem Scanned.finish {limit : ℕ} (h : History r) (hu : u ≤ r.sourceVersion)
    (hs : Scanned r u (Passed lastPrev)) (hlimit : limit ≠ 0)
    (hb : parentBatch r lastPrev limit = []) : RightExceptLater r u (targetEdges r) := by
  intro x hq
  by_cases hp : Passed lastPrev x.2
  · exact hs.right x hp hq
  · have hnot : x ∉ r.edges := fun hin => hp (parentBatch_spec.2 hlimit hb x hin)
    rw [hq.mem_iff h hu]
    exact ⟨fun hin => absurd (hs.rest x hin) hp, fun hin => absurd hin hnot⟩

/-- An edge batch read now is right for the parents of its range. -/
theorem batchRight_edgeBatch (h : History r) (hu : u ≤ r.sourceVersion) (first last : E) :
    BatchRight r u first last (Dict.group (edgeBatch r first last)) := by
  have hmem : ∀ p c, (p, c) ∈ edgeBatch r first last ↔ (c, p) ∈ r.edges ∧ first ≤ p ∧ p ≤ last := by
    intro p c
    rw [edgeBatch, (perm_insertionSort _ _).mem_iff, mem_map]
    constructor
    · rintro ⟨⟨c', p'⟩, hx, he⟩
      cases he
      simpa using hx
    · rintro hx
      exact ⟨(c, p), by simpa using hx, rfl⟩
  refine ⟨fun p hp => ?_, fun x hf hl hq => ?_⟩
  · rw [(group_spec _).2, mem_map] at hp
    obtain ⟨⟨p, c⟩, hx, rfl⟩ := hp
    exact ((hmem p c).mp hx).2
  · rw [mem_group, hmem, hq.mem_iff h hu]
    exact ⟨fun hx => hx.1, fun hx => ⟨hx, hf, hl⟩⟩

/-- Writing a batch extends what is built to the end of its range. -/
theorem Scanned.build (hc : c.activeGeneration = r.activeGeneration) {first last : E}
    {grouped : Dict E (List E)} (hfl : first ≤ last) (hs : Scanned r u (· < first))
    (hb : BatchRight r u first last grouped) :
    Scanned (r.setCollection c.target (buildGenerationBatch (r.collection c.target) grouped.entries)) u
      (Passed (some last)) := by
  have hmem : ∀ x, x ∈ targetEdges (r.setCollection c.target
      (buildGenerationBatch (r.collection c.target) grouped.entries)) ↔
      if x.2 ∈ grouped.keys then x.1 ∈ grouped.getD x.2 [] else x ∈ targetEdges r := by
    intro x
    rw [targetEdges_setCollection hc, mem_edgeSet_buildGenerationBatch, collection_target hc]
  refine ⟨fun x hx hq => ?_, fun x hx => ?_⟩
  · obtain ⟨c', hc', hle⟩ := hx
    obtain rfl := Option.mem_some_iff.mp hc'
    rw [hmem]
    by_cases hlt : x.2 < first
    · rw [if_neg fun hk => absurd hlt (not_lt.mpr (hb.keys _ hk).1)]
      exact hs.right x hlt hq
    · have hright := hb.right x (not_lt.mp hlt) hle hq
      by_cases hk : x.2 ∈ grouped.keys
      · rw [if_pos hk]
        exact hright
      · rw [getD_of_not_mem _ hk] at hright
        rw [if_neg hk]
        exact ⟨fun hin => absurd (hs.rest x hin) hlt, fun hin => absurd (hright.mpr hin) not_mem_nil⟩
  · rw [hmem] at hx
    refine ⟨last, rfl, ?_⟩
    by_cases hk : x.2 ∈ grouped.keys
    · exact (hb.keys _ hk).2
    · rw [if_neg hk] at hx
      exact (hs.rest x hx).le.trans hfl

/-- The rows read under the lock bring the target to the current version. -/
theorem final_exact (h : History r) (hu : u ≤ r.sourceVersion) (hk : Kept r u)
    (hC : RightExceptLater r u (targetEdges r)) :
    replayRows (targetEdges r) (ordered (r.outbox.filter (u < ·.sourceVersion))) =
      r.sqlEdges r.sourceVersion := by
  have hb : Batch r u r.sourceVersion (ordered (r.outbox.filter (u < ·.sourceVersion))) := by
    refine ⟨ordered_versions _, fun row => ?_⟩
    rw [mem_ordered, mem_filter, decide_eq_true_eq]
    exact ⟨fun ⟨ho, hlt⟩ => ⟨h.outbox row ho, hlt, h.row_le (h.outbox row ho)⟩,
      fun ⟨hl, hlt, _⟩ => ⟨hk row hl hlt, hlt⟩⟩
  ext x
  exact (hb.rightExceptLater h hu le_rfl hC) x fun row hl _ => h.row_le hl

theorem rebuild_advance (h : History r) {now : ℕ} {p' : Proc E} (hp : RebuildKnows id i r p)
    (hadv : p.advance r now = some (r', p')) : RebuildKnows id i r' p' := by
  cases p with
  | drainStart limit =>
    cases hadv
    split <;> trivial
  | drainWait | drainLocked | drainApply | drainAck | rebuildRelease =>
    cases hadv
    trivial
  | drainRows limit generation published =>
    rw [Proc.advance] at hadv
    split at hadv
    · cases hadv
      trivial
    · cases hadv
      exact hp
  | rebuildWait | rebuildFinish | rebuildRetire =>
    cases hadv
    exact hp
  | rebuildLocked call =>
    cases hadv
    exact ⟨hp, rfl⟩
  | rebuildAcquire call active =>
    obtain ⟨hcall, hactive⟩ := hp
    obtain ⟨r₁, hr₁, he⟩ := Option.map_eq_some_iff.mp hadv
    cases he
    rw [acquireCheckpoint] at hr₁
    split at hr₁
    · cases hr₁
    · cases hr₁
      exact ⟨hcall, hactive, _, mem_concat_self, hcall.2.1, le_rfl⟩
  | rebuildVersion call active =>
    obtain ⟨hcall, hactive, c, hc, hid, hle⟩ := hp
    cases hadv
    refine ⟨hcall.1, hcall.2.1, hcall.2.2, hactive, le_rfl, ⟨c, hc, hid, by omega⟩, fun row hl hlt => ?_⟩
    exact absurd (h.row_le hl) (not_le.mpr hlt)
  | rebuildFirstBeat c =>
    obtain ⟨r₁, hr₁, he⟩ := Option.map_eq_some_iff.mp hadv
    cases he
    exact (Stands.heartbeat hp hr₁).1
  | rebuildReset c =>
    have hstands : Stands id i r c c.startVersion := hp
    cases hadv
    have hempty := targetEdges_setCollection (r := r) hstands.active Dict.empty
    rw [edgeSet_empty] at hempty
    refine ⟨hstands.setCollection _ _, fun x hx _ => ?_, fun x hx => ?_⟩
    · obtain ⟨c', hc', -⟩ := hx
      cases hc'
    · exact absurd (hempty ▸ hx) (Set.notMem_empty x)
  | rebuildParents c lastPrev =>
    obtain ⟨hstands, hscan⟩ := hp
    rw [Proc.advance] at hadv
    split at hadv
    · rename_i hnil
      cases hadv
      exact ⟨hstands, hscan.finish h hstands.le hstands.batchSize hnil⟩
    · rename_i first rest hcons
      cases hadv
      exact ⟨hstands, (parentBatch_spec.1 first rest hcons).1, hscan.skip h hstands.le hcons⟩
  | rebuildEdges c first last =>
    obtain ⟨hstands, hfl, hscan⟩ := hp
    cases hadv
    exact ⟨hstands, first, hfl, hscan, batchRight_edgeBatch h hstands.le first last⟩
  | rebuildBuild c last grouped =>
    obtain ⟨hstands, first, hfl, hscan, hb⟩ := hp
    cases hadv
    exact ⟨hstands.setCollection _ _, hscan.build hstands.active hfl hb⟩
  | rebuildReplay c u =>
    obtain ⟨hstands, hC⟩ := hp
    rw [Proc.advance] at hadv
    rcases outboxBatch_spec h hstands.kept hstands.batchSize with ⟨hnil, -⟩ | ⟨hne, hlt, hle, hb⟩
    · rw [hnil] at hadv
      cases hadv
      exact ⟨hstands, hC⟩
    · split at hadv
      · rename_i hnil
        exact absurd hnil hne
      · cases hadv
        exact ⟨u, hstands, hC, hlt, hle, hb⟩
  | rebuildDelta c rows =>
    obtain ⟨u, hstands, hC, hlt, hle, hb⟩ := hp
    cases hadv
    obtain ⟨cp, hcp, hid, hcple⟩ := hstands.registered
    refine ⟨⟨hstands.index, hstands.rebuildId, hstands.batchSize, hstands.active, hle,
      ⟨cp, hcp, hid, by omega⟩, fun row hl hv => hstands.kept row hl (by omega)⟩, ?_⟩
    rw [targetEdges_setCollection hstands.active, edgeSet_applyForwardDelta, collection_target hstands.active]
    exact hb.rightExceptLater h hlt.le hle hC
  | rebuildBeat c u =>
    obtain ⟨hstands, hC⟩ := hp
    obtain ⟨r₁, hr₁, he⟩ := Option.map_eq_some_iff.mp hadv
    cases he
    obtain ⟨hstands', l, rfl⟩ := hstands.heartbeat hr₁
    exact ⟨hstands', hC⟩
  | rebuildFinal c u =>
    obtain ⟨hstands, hC⟩ := hp
    cases hadv
    exact ⟨hstands.index, hstands.active, le_rfl, final_exact h hstands.le hstands.kept hC⟩
  | rebuildFinalDelta c v rows =>
    obtain ⟨hi, ha, hv, heq⟩ := hp
    cases hadv
    split_ifs with hnil
    · exact ⟨hi, ha, hv, by rw [hnil] at heq; exact heq⟩
    · refine ⟨hi, ha, hv, ?_⟩
      rw [targetEdges_setCollection ha, edgeSet_applyForwardDelta, collection_target ha, heq]
      rfl
  | rebuildSwap c v =>
    cases hadv
    exact hp.1
  | idle => exact absurd hadv (by simp [Proc.advance])
  | gcStart | gcNext | gcLocked | gcDrop | gcAck => exact hp.elim

/-- A rebuild's step does not concern an idle process or a drain, except for the swap, which no drain
    that has read the metadata can see. -/
theorem RebuildKnows.of_rebuild_step {now j : ℕ} {q : Proc E} (hp : p.drains = false)
    (hq : RebuildKnows id j r q) (hj : j ≠ 0) (hlock : p.locked = true → q.locked = false)
    (he : Effect r now p r') : RebuildKnows id j r' q := by
  have hqd := hq.drains_of_ne hj
  have hactive : q.locked = false ∨ r'.activeGeneration = r.activeGeneration := by
    cases he with
    | swap c v => exact Or.inl (hlock rfl)
    | publish generation rows => exact absurd hp (by simp [Proc.drains])
    | _ => exact Or.inr rfl
  cases q with
  | drainRows | drainApply =>
    rcases hactive with hl | ha
    · exact absurd hl (by simp [Proc.locked])
    · exact Eq.trans hq ha.symm
  | idle | drainStart | drainWait | drainLocked | drainAck => trivial
  | _ => exact absurd hqd (by simp [Proc.drains])

omit [LinearOrder E] in
theorem leaseHeld_ack {w : ℕ} (hok : leaseHeld id s (.advance i) = true)
    (hp : s.procs[i]? = some p) (hw : p = .drainAck w) :
    ∀ c ∈ s.room.checkpoints, c.rebuildId = id → s.now ≤ c.leaseExpiresAt := by
  intro c hc hid
  rw [leaseHeld, hp, hw, Bool.and_eq_true, all_eq_true] at hok
  have := hok.2 c hc
  rw [decide_eq_true_eq] at this
  exact this.resolve_left fun hne => hne hid

theorem rebuild_invariant : ProcInvariant (fun (s : Sys E) a => leaseHeld id s a = true) History
    (RebuildKnows id) where
  commit := fun h => h.commit _
  commit_proc := fun h hp => (Undisturbed.commit h _).knows hp
  idle := trivial
  enter := fun {s i c} hok => by
    cases c with
    | drain limit =>
      rw [Call.enter]
      split <;> trivial
    | rebuild | gc => exact absurd hok (by simp [leaseHeld, drainsOnly])
  raised := fun {i r p} hp => by
    cases p with
    | rebuildVersion => exact hp.1.1
    | rebuildFirstBeat | rebuildReset => exact hp.index
    | rebuildParents | rebuildEdges | rebuildBuild => exact hp.1.index
    | rebuildReplay | rebuildBeat | rebuildFinish | rebuildFinal => exact hp.1.index
    | rebuildDelta c rows =>
      obtain ⟨u, hs, -⟩ := hp
      exact hs.index
    | rebuildFinalDelta | rebuildSwap => exact hp.1
    | rebuildRetire => exact hp
    | _ => trivial
  advance := fun _ _ h hp hadv =>
    ⟨(effect_of_advance hadv).sameEdges.history h, rebuild_advance h hp hadv⟩
  frame := fun {s i j p p' q r'} hok hproc hji hlock h hp hq hadv => by
    have he := effect_of_advance hadv
    cases hd : p.drains with
    | true => exact (Undisturbed.drain hp hd (fun w hw => leaseHeld_ack hok hproc hw) he).knows hq
    | false =>
      have hi : i = 0 := by
        by_contra hne
        rw [hp.drains_of_ne hne] at hd
        cases hd
      exact hq.of_rebuild_step hd (hi ▸ hji) hlock he

/-! ### The generation swapped in -/

/-- A room, a rebuild about to start on it as process 0, and idle processes. -/
def rebuildStart (r : Room E) (now : ℕ) (call : RebuildCall) (processes : ℕ) : Sys E :=
  ⟨r, now, (Call.rebuild call).enter :: List.replicate processes .idle⟩

theorem meets_rebuildStart (hr : History r) (now : ℕ) (call : RebuildCall) (processes : ℕ) :
    Meets History (RebuildKnows call.rebuildId) (rebuildStart r now call processes) := by
  have hunlocked : ∀ (i : ℕ) (p : Proc E),
      (rebuildStart r now call processes).procs[i]? = some p → p.locked = false := by
    intro i p hp
    cases i with
    | zero => rw [← Option.some.inj hp]; exact locked_enter _
    | succ i => rw [idle_of_replicate hp]; rfl
  refine ⟨hr, fun i p hp => ?_, fun i j p q hp _ hpl _ => ?_⟩
  · cases i with
    | zero =>
      rw [← Option.some.inj hp, Call.enter]
      split
      · trivial
      · exact ⟨rfl, rfl, by assumption⟩
    | succ i => rw [idle_of_replicate hp]; trivial
  · exact absurd hpl (by simp [hunlocked i p hp])

/-- The version after which a rebuild still has rows to replay. -/
def Proc.replaysAfter : Proc E → Option ℕ
  | .rebuildFirstBeat c | .rebuildReset c | .rebuildParents c _ | .rebuildEdges c _ _
  | .rebuildBuild c _ _ => some c.startVersion
  | .rebuildReplay _ u | .rebuildBeat _ u | .rebuildFinish _ u | .rebuildFinal _ u => some u
  | _ => none

theorem RebuildKnows.kept (hp : RebuildKnows id i r p) (hu : p.replaysAfter = some u) : Kept r u := by
  cases p with
  | rebuildFirstBeat | rebuildReset => exact Option.some.inj hu ▸ Stands.kept hp
  | rebuildParents | rebuildEdges | rebuildBuild => exact Option.some.inj hu ▸ hp.1.kept
  | rebuildReplay | rebuildBeat | rebuildFinish | rebuildFinal =>
    exact Option.some.inj hu ▸ hp.1.kept
  | _ => exact absurd hu (by simp [Proc.replaysAfter])

/-- One rebuild among edge transactions and drains whose acknowledgements find its lease valid, from
    any room whose tables agree with its transactions: a generation is swapped in with exactly the
    edges of its watermark's version, and the rows still to be replayed are in the outbox. -/
theorem rebuild_swap_exact {now processes : ℕ} {call : RebuildCall} (hr : History r)
    (h : Run step (fun s a => leaseHeld call.rebuildId s a = true) (rebuildStart r now call processes) s) :
    (∀ i c v s', s.procs[i]? = some (.rebuildSwap c v) → step s (.advance i) = some s' →
      s'.room.forwardMeta = some (c.target, v) ∧
        ∀ x, x ∈ edgeSet (s'.room.collection c.target) ↔ x ∈ s'.room.edgesAt v) ∧
    ∀ (i : ℕ) (p : Proc E) (u : ℕ), s.procs[i]? = some p → p.replaysAfter = some u →
      ∀ row ∈ s.room.logRows, u < row.sourceVersion → row ∈ s.room.outbox := by
  have hs := rebuild_invariant.run (meets_rebuildStart hr now call processes) h
  refine ⟨fun i c v s' hp hst => ?_, fun i p u hp hu => (hs.procs i p hp).kept hu⟩
  obtain ⟨-, ha, hv, heq⟩ := hs.procs i _ hp
  cases moved_of_step hst with
  | @advance _ p p' room hp' hadv _ =>
    obtain rfl := Option.mem_unique hp' hp
    cases hadv
    refine ⟨rfl, fun x => ?_⟩
    have hx := Set.ext_iff.mp heq x
    rw [← collection_target ha] at hx
    exact hx

/-- A rebuild up to its swap: an edge is persisted before it starts, another one while it builds. -/
def rebuildTrace : List (Action ℕ) :=
  [.edgeTxn (.persist [(2, 1)]), .advance 0, .advance 0, .advance 0, .advance 0, .advance 0,
    .advance 0, .advance 0, .advance 0, .advance 0, .edgeTxn (.persist [(3, 1)]), .advance 0,
    .advance 0, .advance 0, .advance 0, .advance 0, .advance 0, .advance 0, .advance 0]

theorem rebuild_swap_exact_trace : ∃ s : Sys ℕ,
    exec step (fun s a => leaseHeld 7 s a = true) (rebuildStart (emptyRoom []) 0 ⟨7, 10⟩ 1)
      rebuildTrace = some s ∧
    s.procs[0]? = some (.rebuildSwap ⟨⟨7, 10⟩, 0, 1⟩ 2) ∧
    (∀ s', step s (.advance 0) = some s' → s'.room.forwardMeta = some (1, 2) ∧
      ∀ x, x ∈ edgeSet (s'.room.collection 1) ↔ x ∈ s'.room.edgesAt 2) := by
  refine ⟨_, rfl, rfl, fun s' hst => ?_⟩
  exact (rebuild_swap_exact (History.emptyRoom []) (Run.of_exec rebuildTrace
    (rebuildStart (emptyRoom []) 0 ⟨7, 10⟩ 1) rfl)).1 0 ⟨⟨7, 10⟩, 0, 1⟩ 2 s' rfl hst

/-- The same rebuild, but between its replay and its final read more than a minute passes, and a
    drain publishes and acknowledges the second edge. -/
def expiredTrace : List (Action ℕ) :=
  [.edgeTxn (.persist [(2, 1)]), .advance 0, .advance 0, .advance 0, .advance 0, .advance 0,
    .advance 0, .advance 0, .advance 0, .advance 0, .advance 0, .advance 0,
    .edgeTxn (.persist [(3, 1)]), .clock 60001, .call 1 (.drain 10), .advance 1, .advance 1,
    .advance 1, .advance 1, .advance 1, .advance 1, .advance 0, .advance 0, .advance 0, .advance 0]

/-- The expired lease lets the drain delete the row the rebuild still has to replay: generation 1 is
    swapped in with watermark 2 but without the second edge. -/
theorem rebuild_loses_acknowledged_row : ∃ s : Sys ℕ,
    exec step (fun _ a => drainsOnly a = true) (rebuildStart (emptyRoom []) 0 ⟨7, 10⟩ 1)
      expiredTrace = some s ∧
    s.room.forwardMeta = some (1, 2) ∧ (3, 1) ∈ s.room.edgesAt 2 ∧
    (3, 1) ∉ edgeSet (s.room.collection 1) ∧
    getForwardGated s.room 2 [1] = .hit [(1, some [2])] := by
  refine ⟨_, rfl, rfl, by decide, ?_, rfl⟩
  rw [mem_edgeSet]
  decide

end Sithnapse.ForwardIndex
