import Sithnapse.ChainCover.Index

/-! Runs of the chain cover index: batch after batch is calculated, persisted and stored.

    `index_correct` is the purpose of the index: after any sequence of committed batches, positions
    and links answer which events are in which auth chains. -/

namespace Sithnapse.ChainCover
open Kit Kit.Dict Kit.Chain List
open Prod (fst snd)

variable {E T R : Type} [LinearOrder E] {auth : E → List E} {db : Db E T R} {b : Batch E T R}
  {table : List (E × R × T)} {ret : Dict E NewEventChainLinks}

/-! ### Persisting -/

/-- The tables after persisting `ret`. -/
def persisted (db : Db E T R) (table : List (E × R × T)) (ret : Dict E NewEventChainLinks) : Db E T R :=
  { db with
    chains := db.chains ++ newChainRows ret
    toCalculate := table.filter (·.1 ∉ ret.keys)
    links := db.links.put (newChainLinks ret) }

variable (db table ret) in
theorem selectChain_persisted (e : E) : (persisted db table ret).selectChain e = placed db ret e :=
  lookupIn_append e _ _

variable (db table ret) in
theorem selectEvent_persisted (p : Pos) :
    (persisted db table ret).selectEvent p = grownSlots db.selectEvent ret p := by
  rw [Db.selectEvent, persisted, map_append, lookupIn_append]
  rfl

variable (db table ret) in
theorem linkSet_persisted : (persisted db table ret).links.linkSet = grownLinks db ret := by
  ext l
  exact mem_links_put db.links _

section Persisted

variable (ht : Tables auth db) (h : Calculated auth db b table ret)

include ht h

/-- The new rows violate no uniqueness constraint. -/
theorem Calculated.unique :
    ((db.chains ++ newChainRows ret).map fst).Nodup ∧
      ((db.chains ++ newChainRows ret).map snd).Nodup := by
  rw [map_append, map_append, nodup_append, nodup_append, keys_newChainRows]
  refine ⟨⟨ht.keyed, ret.nodup, ?_⟩, ht.placed, h.distinct, ?_⟩
  · rintro e he e' he' rfl
    exact lookupIn_eq_none.mp (h.unindexed e he') he
  · rintro p hp p' hp' rfl
    obtain ⟨⟨e, p⟩, hm, rfl⟩ := mem_map.mp hp'
    obtain ⟨x, hx, rfl⟩ := mem_newChainRows.mp hm
    obtain ⟨r, hr, hrp⟩ := mem_map.mp hp
    have := h.above hx r hr (by rw [hrp])
    rw [hrp] at this
    exact lt_irrefl _ this

theorem persist_eq :
    persistChainCoverIndex { db with toCalculate := table } ret = some (persisted db table ret) := by
  rw [persistChainCoverIndex]
  exact if_pos (h.unique ht)

theorem Calculated.leaves : ∀ l ∈ (db.links.put (newChainLinks ret)).links, l.srcChain ≠ l.dstChain := by
  intro l hl
  rcases (mem_links_put db.links _).mp hl with hl | hl
  · exact ht.leaves l hl
  · obtain ⟨e, x, hx, q, hq, rfl⟩ := mem_newChainLinks.mp hl
    exact (h.links hx hq).1

theorem tables_persisted (hb : b.Valid auth db) : Tables auth (persisted db table ret) := by
  refine ⟨ht.auths, ht.auth_rows, ?_, (h.unique ht).1, (h.unique ht).2, h.leaves ht⟩
  intro r hr
  obtain ⟨hr, hk⟩ := mem_filter.mp hr
  rw [decide_eq_true_eq] at hk
  have hn : db.selectChain r.1 = none := by
    rcases h.rows r hr with hr | ⟨hr, _⟩
    · exact ht.pending r hr
    · exact hb.unindexed _ hr
  rw [selectChain_persisted, placed, hn, Option.none_or, lookupIn_eq_none, keys_newChainRows]
  exact hk

theorem cover_persisted (hac : Acyclic auth)
    (hcov : Cover auth db.selectChain db.selectEvent db.links.linkSet) :
    Cover auth (persisted db table ret).selectChain (persisted db table ret).selectEvent
      (persisted db table ret).links.linkSet := by
  have hfree : ∀ {e p}, (e, p) ∈ newChainRows ret → db.selectEvent p = none ∨ db.selectEvent p = some e := by
    intro e p hm
    refine .inl (lookupIn_eq_none.mpr fun hp => ?_)
    have hdisj := (h.unique ht).2
    rw [map_append, nodup_append] at hdisj
    rw [map_map] at hp
    exact hdisj.2.2 p hp p (mem_map_of_mem hm) rfl
  rw [linkSet_persisted, funext (selectChain_persisted db table ret),
    funext (selectEvent_persisted db table ret)]
  exact hcov.grow hac (h.growth hcov hfree)

end Persisted

/-! ### Storing -/

theorem select_flatMap (A : E → List E) : ∀ l : List (E × T), (l.map fst).Nodup → ∀ e,
    ((l.flatMap fun p => (A p.1).map fun a => (p.1, a)).filter (·.1 = e)).map (·.2) =
      if e ∈ l.map fst then A e else []
  | [], _, e => by simp
  | p :: l, h, e => by
    rw [map_cons, nodup_cons] at h
    rw [flatMap_cons, filter_append, map_append, select_flatMap A l h.2 e, filter_map, map_map, map_cons]
    rcases eq_or_ne p.1 e with rfl | hp
    · rw [if_neg h.1, if_pos (.head _), append_nil, filter_eq_self.mpr (by simp)]
      exact map_id _
    · rw [filter_eq_nil_iff.mpr (by simp [hp]), map_nil, nil_append]
      have hp' : ¬ e = p.1 := fun h => hp h.symm
      simp only [mem_cons, hp', false_or]

/-- Storing a batch stores its events with their auth events. -/
theorem tables_store (ht : Tables auth db) (hauth : ∀ e, (auth e).Nodup) (hb : b.Faithful auth) :
    Tables auth (storeEvents db b) := by
  set fresh := b.eventToTypes.entries.filter fun p => p.1 ∉ db.stateEvents.map fst with hfresh
  have hmem : ∀ e, e ∈ fresh.map fst ↔ e ∈ b.eventToRoomId.keys ∧ e ∉ db.stateEvents.map fst := by
    intro e
    rw [← hb.types e, hfresh, Dict.keys]
    simp only [mem_map, mem_filter, decide_eq_true_eq]
    constructor
    · rintro ⟨p, ⟨hp, hn⟩, rfl⟩
      exact ⟨⟨p, hp, rfl⟩, hn⟩
    · rintro ⟨⟨p, hp, rfl⟩, hn⟩
      exact ⟨p, ⟨hp, hn⟩, rfl⟩
  have hsel : ∀ e, (storeEvents db b).selectAuth e = db.selectAuth e ++
      if e ∈ fresh.map fst then b.eventToAuthChain.getD e [] else [] := by
    intro e
    rw [← select_flatMap (fun e => b.eventToAuthChain.getD e []) fresh
      (b.eventToTypes.nodup.sublist (filter_sublist.map _)) e]
    simp only [Db.selectAuth, storeEvents, filter_append, map_append, hfresh]
  have hnone : ∀ e, e ∉ db.stateEvents.map fst → db.selectAuth e = [] := by
    intro e he
    rw [Db.selectAuth, map_eq_nil_iff, filter_eq_nil_iff]
    intro r hr hre
    rw [decide_eq_true_eq] at hre
    exact he (hre ▸ ht.auth_rows r hr)
  have hbauth : ∀ e ∈ b.eventToRoomId.keys, b.eventToAuthChain.getD e [] = auth e := by
    intro e he
    cases hg : b.eventToAuthChain.get? e with
    | none => rw [Dict.getD, hg, hb.no_auths e he (get?_eq_none_iff.mp hg)]; rfl
    | some l => rw [getD_of_get? hg, (hb.auths hg).2]
  have hkeys : (storeEvents db b).stateEvents.map fst =
      db.stateEvents.map fst ++ fresh.map fst := map_append
  refine ⟨?_, ?_, ht.pending, ht.keyed, ht.placed, ht.leaves⟩
  · intro e he
    rw [hsel e]
    rw [hkeys, mem_append] at he
    by_cases hs : e ∈ db.stateEvents.map fst
    · rw [if_neg fun hc => ((hmem e).mp hc).2 hs, append_nil]
      exact ht.auths e hs
    · have hf := he.resolve_left hs
      rw [if_pos hf, hnone e hs, nil_append, hbauth e ((hmem e).mp hf).1]
      exact ⟨fun _ => Iff.rfl, hauth e⟩
  · intro r hr
    rw [hkeys, mem_append]
    rcases mem_append.mp hr with hr | hr
    · exact .inl (ht.auth_rows r hr)
    · obtain ⟨p, hp, hr⟩ := mem_flatMap.mp hr
      obtain ⟨a, _, rfl⟩ := mem_map.mp hr
      exact .inr (mem_map_of_mem hp)

theorem mem_stored_store (hb : b.Faithful auth) {e : E}
    (he : e ∈ db.stateEvents.map fst ∨ e ∈ b.eventToRoomId.keys) :
    e ∈ (storeEvents db b).stateEvents.map fst := by
  simp only [storeEvents, map_append, mem_append]
  by_cases hs : e ∈ db.stateEvents.map fst
  · exact .inl hs
  · obtain ⟨t, ht⟩ := mem_keys_iff.mp ((hb.types e).mpr (he.resolve_left hs))
    exact .inr (mem_map.mpr ⟨(e, t), mem_filter.mpr ⟨get?_eq_some_iff.mp ht, by simpa using hs⟩, rfl⟩)

/-! ### Runs -/

section Runs

variable [DecidableEq T] [DecidableEq R]

/-- One batch: calculate, persist, store. -/
def indexBatch (db : Db E T R) (gen : ℕ → List ℕ) (b : Batch E T R) : Option (Db E T R) := do
  let (db₁, ret) ← calculateChainCoverIndex db gen b
  let db₂ ← persistChainCoverIndex db₁ ret
  pure (storeEvents db₂ b)

/-- Databases reached by committed batches, from any database whose index is empty. Other events
    may be stored at any time without being indexed. -/
inductive Reachable (auth : E → List E) : Db E T R → Prop
  | init {db : Db E T R} : Tables auth db → (∀ r ∈ db.toCalculate, r.1 ∈ db.stateEvents.map fst) →
      db.chains = [] → db.links.links = [] → Reachable auth db
  | store {db : Db E T R} {b : Batch E T R} : Reachable auth db → b.Faithful auth → Reachable auth (storeEvents db b)
  | batch {db db' : Db E T R} {gen : ℕ → List ℕ} {b : Batch E T R} : Reachable auth db →
      b.Valid auth db → FreshIds db.chains gen → indexBatch db gen b = some db' → Reachable auth db'

/-- What holds between batches. -/
structure Indexed (auth : E → List E) (db : Db E T R) : Prop where
  tables : Tables auth db
  cover : Cover auth db.selectChain db.selectEvent db.links.linkSet
  waiting : ∀ r ∈ db.toCalculate, r.1 ∈ db.stateEvents.map fst

/-- A batch goes through and keeps the index correct. -/
theorem indexBatch_spec (hac : Acyclic auth) (hauth : ∀ e, (auth e).Nodup) {gen : ℕ → List ℕ}
    (h : Indexed auth db) (hb : b.Valid auth db) (hgen : FreshIds db.chains gen) :
    ∃ db', indexBatch db gen b = some db' ∧ Indexed auth db' := by
  obtain ⟨table, ret, hcalc, hret⟩ := calculate_spec hac hauth h.tables hb (fun r hr _ => h.waiting r hr) hgen
  refine ⟨storeEvents (persisted db table ret) b, ?_, ?_⟩
  · simp only [indexBatch, hcalc, Option.bind_eq_bind, Option.bind_some, persist_eq h.tables hret]
    rfl
  · refine ⟨tables_store (tables_persisted h.tables hret hb) hauth hb.toFaithful,
      cover_persisted h.tables hret hac h.cover, ?_⟩
    intro r hr
    refine mem_stored_store hb.toFaithful ?_
    rcases hret.rows r (mem_filter.mp hr).1 with hr | hr
    · exact .inl (h.waiting r hr)
    · exact .inr hr.1

theorem Reachable.indexed (hac : Acyclic auth) (hauth : ∀ e, (auth e).Nodup)
    (h : Reachable auth db) : Indexed auth db := by
  induction h with
  | init ht hw hch hl =>
    exact ⟨ht, Cover.empty (fun e => by rw [Db.selectChain, hch]; rfl)
      (fun p => by rw [Db.selectEvent, hch]; rfl)
      (fun l hm => by rw [LinkStore.linkSet, hl] at hm; exact absurd hm not_mem_nil), hw⟩
  | store _ hb ih =>
    exact ⟨tables_store ih.tables hauth hb, ih.cover, fun r hr =>
      mem_stored_store hb (.inl (ih.waiting r hr))⟩
  | batch _ hb hgen hstep ih =>
    obtain ⟨db'', heq, hind⟩ := indexBatch_spec hac hauth ih hb hgen
    obtain rfl := Option.mem_unique hstep heq
    exact hind

/-- Positions are unique, reachability is read off positions and links, and every further batch
    goes through. -/
theorem index_correct (hac : Acyclic auth) (hauth : ∀ e, (auth e).Nodup) (h : Reachable auth db) :
    (∀ x y p, (x, p) ∈ db.chains → (y, p) ∈ db.chains → x = y) ∧
    (∀ x y p q, x ≠ y → (x, p) ∈ db.chains → (y, q) ∈ db.chains →
      (Below auth x y ↔ (p.1 = q.1 ∧ q.2 < p.2) ∨ ∃ t, q.2 ≤ t ∧ Reach db.links.linkSet p (q.1, t))) ∧
    ∀ b gen, b.Valid auth db → FreshIds db.chains gen → ∃ db', indexBatch db gen b = some db' := by
  have hind := h.indexed hac hauth
  have hpos : ∀ {x p}, (x, p) ∈ db.chains → db.selectChain x = some p := fun hm =>
    (lookupIn_eq_some hind.tables.keyed).mpr hm
  refine ⟨?_, ?_, ?_⟩
  · intro x y p hx hy
    exact hind.cover.pos_injective (hpos hx) (hpos hy)
  · intro x y p q hne hx hy
    exact hind.cover.below_iff (hpos hx) (hpos hy) hne
  · intro b gen hb hgen
    obtain ⟨db', hdb', _⟩ := indexBatch_spec hac hauth hind hb hgen
    exact ⟨db', hdb'⟩

end Runs

/-! A member event that arrives before its auth events is deferred and indexed with them. -/

/-- Create, join, power levels, and a second member event of the same user. -/
def roomAuth : ℕ → List ℕ
  | 1 => [0]
  | 2 => [0, 1]
  | 3 => [0, 2, 1]
  | _ => []

def roomTypes : ℕ → ℕ
  | 3 => 1
  | e => e

def emptyDb : Db ℕ ℕ ℕ := ⟨[], [], [], .sql [], []⟩

def roomBatch (db : Db ℕ ℕ ℕ) (es : List ℕ) : Batch ℕ ℕ ℕ :=
  Batch.ofEvents db roomAuth roomTypes (fun _ => 0) es

/-- After the first batch: the member event waits. -/
def deferredDb : Db ℕ ℕ ℕ :=
  ⟨[(3, 1)], [(3, 0), (3, 2), (3, 1)], [], .sql [], [(3, 0, 1)]⟩

/-- After the second batch. -/
def roomDb : Db ℕ ℕ ℕ :=
  ⟨[(3, 1), (0, 0), (1, 1), (2, 2)], [(3, 0), (3, 2), (3, 1), (1, 0), (2, 0), (2, 1)],
    [(0, (1, 1)), (1, (2, 1)), (2, (3, 1)), (3, (2, 2))],
    .sql [⟨2, 1, 1, 1⟩, ⟨3, 1, 2, 1⟩, ⟨2, 2, 3, 1⟩], []⟩

theorem roomAuth_lt {e a : ℕ} (ha : a ∈ roomAuth e) : a < e := by
  unfold roomAuth at ha
  split at ha <;> simp at ha <;> omega

theorem roomAuth_acyclic : Acyclic roomAuth := acyclic_of_rank id fun _ _ => roomAuth_lt

theorem roomAuth_nodup (e : ℕ) : (roomAuth e).Nodup := by
  unfold roomAuth
  split <;> decide

/-- Nothing is stored, and there are no links. -/
theorem tables_empty (auth : ℕ → List ℕ) {links : LinkStore} (h : links.links = []) :
    Tables auth (⟨[], [], [], links, []⟩ : Db ℕ ℕ ℕ) :=
  ⟨by simp, by simp, by simp, nodup_nil, nodup_nil, by simp [h]⟩

theorem emptyDb_reachable : Reachable roomAuth emptyDb :=
  .init (tables_empty _ rfl) (by simp [emptyDb]) rfl rfl

theorem roomDb_reachable : Reachable roomAuth roomDb := by
  have hdef : Reachable roomAuth deferredDb :=
    .batch (b := roomBatch emptyDb [3]) emptyDb_reachable (Batch.ofEvents_valid ..)
      (freshIds_range (k := 1) (by decide)) rfl
  exact .batch (b := roomBatch deferredDb [0, 1, 2]) hdef (Batch.ofEvents_valid ..)
    (freshIds_range (k := 1) (by decide)) rfl

/-- The create event is in the auth chain of the deferred member event, and the index says so. -/
theorem index_correct_room : Reachable roomAuth roomDb ∧
    (Below roomAuth 3 0 ↔ ((2, 2) : Pos).1 = ((1, 1) : Pos).1 ∧ 1 < 2 ∨
      ∃ t, 1 ≤ t ∧ Reach roomDb.links.linkSet (2, 2) (1, t)) :=
  ⟨roomDb_reachable, (index_correct roomAuth_acyclic roomAuth_nodup roomDb_reachable).2.1 3 0 (2, 2)
    (1, 1) (by decide) (by decide) (by decide)⟩

end Sithnapse.ChainCover
