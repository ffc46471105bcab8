import Sithnapse.ChainCover.Calculate

/-! The first half of the calculation: which events get indexed.

    Collecting always ends, knows every event's auth events, and never takes up an event that is
    already indexed (`fetchMissing_spec`). After deferring, every auth event of an event to index is
    in the index or about to be (`deferEvents_spec`). -/

namespace Sithnapse.ChainCover
open Kit Kit.Dict Kit.Chain Iterutils List
open Prod (fst snd)

variable {E T R : Type} [LinearOrder E]

/-- What the tables promise about the auth graph, whatever has been indexed so far. -/
structure Tables (auth : E → List E) (db : Db E T R) : Prop where
  /-- A stored event's auth events are stored with it. -/
  auths : ∀ e ∈ db.stateEvents.map fst, (∀ a, a ∈ db.selectAuth e ↔ a ∈ auth e) ∧ (db.selectAuth e).Nodup
  auth_rows : ∀ r ∈ db.eventAuth, r.1 ∈ db.stateEvents.map fst
  /-- A deferred event is not indexed. -/
  pending : ∀ r ∈ db.toCalculate, db.selectChain r.1 = none
  keyed : (db.chains.map fst).Nodup
  placed : (db.chains.map snd).Nodup
  leaves : ∀ l ∈ db.links.links, l.srcChain ≠ l.dstChain

/-- A batch as the callers build it: state events with their types and auth events; events without
    auth events may be left out of the latter. -/
structure Batch.Faithful (auth : E → List E) (b : Batch E T R) : Prop where
  types : ∀ e, e ∈ b.eventToTypes.keys ↔ e ∈ b.eventToRoomId.keys
  auths : ∀ {e l}, b.eventToAuthChain.get? e = some l → e ∈ b.eventToRoomId.keys ∧ l = auth e
  no_auths : ∀ e ∈ b.eventToRoomId.keys, e ∉ b.eventToAuthChain.keys → auth e = []

/-- A batch to be indexed; the callers filter out events that are indexed already. -/
structure Batch.Valid (auth : E → List E) (db : Db E T R) (b : Batch E T R) : Prop
    extends Batch.Faithful auth b where
  unindexed : ∀ e ∈ b.eventToRoomId.keys, db.selectChain e = none

/-- What the caller builds is a batch to be indexed. -/
theorem Batch.ofEvents_valid (db : Db E T R) (auth : E → List E) (ty : E → T) (room : E → R)
    (events : List E) : (Batch.ofEvents db auth ty room events).Valid auth db := by
  set es := (addAll [] events).filter fun e => e ∉ db.chains.map fst with hes
  have hkeys : ∀ {V : Type} (f : E → V) (e : E),
      e ∈ (Dict.ofList (es.map fun e => (e, f e))).keys ↔ e ∈ es := by
    intro V f e
    rw [mem_keys_ofList]
    simp
  refine ⟨⟨fun e => (hkeys ty e).trans (hkeys room e).symm, ?_, ?_⟩, ?_⟩
  · intro e l hl
    have hnd : ((es.map fun e => (e, auth e)).map fst).Nodup := by
      rw [map_map]
      exact ((nodup_addAll events nodup_nil).filter _).map fun _ _ h => h
    obtain ⟨e', he', heq⟩ := mem_map.mp ((get?_ofList hnd).mp hl)
    obtain ⟨rfl, rfl⟩ := Prod.mk.inj heq
    exact ⟨(hkeys room e').mpr he', rfl⟩
  · intro e he hn
    exact absurd ((hkeys auth e).mpr ((hkeys room e).mp he)) hn
  · intro e he
    have hmem := (mem_filter.mp ((hkeys room e).mp he)).2
    exact lookupIn_eq_none.mpr (by simpa using hmem)

/-- The deferred events that a batch takes up are stored. -/
def Batch.Waiting (db : Db E T R) (b : Batch E T R) : Prop :=
  ∀ r ∈ db.toCalculate, r.2.1 ∈ b.eventToRoomId.values → r.1 ∈ db.stateEvents.map fst

/-- Invariant of the collecting phase. -/
structure Loaded (auth : E → List E) (db : Db E T R) (b : Batch E T R) (c : Calc E T) : Prop where
  batch : ∀ e ∈ b.eventToRoomId.keys, e ∈ c.eventsToCalcChainIdFor
  placed : ∀ {a p}, c.chainMap.get? a = some p → db.selectChain a = some p
  unindexed : ∀ e ∈ c.eventsToCalcChainIdFor, db.selectChain e = none
  types : ∀ e ∈ c.eventsToCalcChainIdFor, e ∈ c.eventToTypes.keys
  auths : ∀ {e l}, c.eventToAuthChain.get? e = some l → (∀ a, a ∈ l ↔ a ∈ auth e) ∧ l.Nodup
  no_auths : ∀ e ∈ c.eventsToCalcChainIdFor, e ∉ c.eventToAuthChain.keys → auth e = []
  nodup : c.eventsToCalcChainIdFor.Nodup

variable {auth : E → List E} {db : Db E T R} {b : Batch E T R} {c : Calc E T}

/-- Taking up a stored event that is not indexed. -/
theorem Loaded.take (h : Loaded auth db b c) (ht : Tables auth db) {e : E} {t : T}
    (hs : e ∈ db.stateEvents.map fst) (hn : db.selectChain e = none) :
    Loaded auth db b ⟨c.chainMap, addIf c.eventsToCalcChainIdFor e, c.eventToTypes.set e t,
      c.eventToAuthChain.set e (db.selectAuth e)⟩ := by
  refine ⟨fun x hx => mem_addIf.mpr (.inl (h.batch x hx)), h.placed, ?_, ?_, ?_, ?_, nodup_addIf _ h.nodup⟩
  · intro x hx
    rcases mem_addIf.mp hx with hx | rfl
    · exact h.unindexed x hx
    · exact hn
  · intro x hx
    rw [mem_keys_set]
    rcases mem_addIf.mp hx with hx | rfl
    · exact .inr (h.types x hx)
    · exact .inl rfl
  · intro x l hx
    rcases get?_set_cases hx with ⟨rfl, rfl⟩ | hx
    · exact ht.auths _ hs
    · exact h.auths hx
  · intro x hx hxk
    rw [mem_keys_set, not_or] at hxk
    rcases mem_addIf.mp hx with hx | rfl
    · exact h.no_auths x hx hxk.2
    · exact absurd rfl hxk.1

theorem addPending_loaded [DecidableEq R] (ht : Tables auth db) (hauth : ∀ e, (auth e).Nodup)
    (hb : b.Valid auth db) (hw : b.Waiting db) : Loaded auth db b (addPending db b) := by
  refine foldl_visited (addPendingRow db) (fun _ c => Loaded auth db b c) _ ?_ ?_
  · refine ⟨fun e he => he, by simp, hb.unindexed, fun e he => (hb.types e).mpr he, ?_, hb.no_auths,
      b.eventToRoomId.nodup⟩
    intro e l hl
    obtain ⟨_, rfl⟩ := hb.auths hl
    exact ⟨fun _ => Iff.rfl, hauth e⟩
  · rintro pre r post c hsplit hc
    obtain ⟨hr, hroom⟩ := mem_filter.mp (hsplit ▸ by simp :
      r ∈ db.toCalculate.filter (·.2.1 ∈ b.eventToRoomId.values))
    exact hc.take ht (hw r hr (by simpa using hroom)) (ht.pending r hr)

/-! ### Fetching -/

theorem mem_selectMissing {missing : List E} {row : E × T × Option Pos}
    (h : row ∈ selectMissing db missing) :
    row.1 ∈ missing ∧ row.1 ∈ db.stateEvents.map fst ∧ row.2.2 = db.selectChain row.1 := by
  obtain ⟨r, hr, rfl⟩ := mem_map.mp h
  rw [mem_filter, decide_eq_true_eq] at hr
  exact ⟨hr.2, mem_map.mpr ⟨r, hr.1, rfl⟩, rfl⟩

/-- One round keeps the invariant, and what is missing next is one step further down. -/
theorem fetchRow_loaded (ht : Tables auth db) (missing : List E) (hc : Loaded auth db b c) :
    Loaded auth db b ((selectMissing db missing).foldl (fetchRow db) (c, [])).1 ∧
      ∀ x ∈ ((selectMissing db missing).foldl (fetchRow db) (c, [])).2,
        ∃ y ∈ missing, y ∈ db.stateEvents.map fst ∧ x ∈ auth y := by
  refine foldl_visited (fetchRow db) (fun _ (st : Calc E T × List E) => Loaded auth db b st.1 ∧
    ∀ x ∈ st.2, ∃ y ∈ missing, y ∈ db.stateEvents.map fst ∧ x ∈ auth y) _
    ⟨hc, nofun⟩ ?_
  rintro pre ⟨a, t, p?⟩ post ⟨c, next⟩ hsplit ⟨hc, hnext⟩
  obtain ⟨hm, hs, hp⟩ := mem_selectMissing (hsplit ▸ by simp : (a, t, p?) ∈ selectMissing db missing)
  cases p? with
  | none =>
    refine ⟨hc.take ht hs hp.symm, ?_⟩
    intro x hx
    rcases mem_addAll.mp hx with hx | hx
    · exact hnext x hx
    · exact ⟨a, hm, hs, ((ht.auths a hs).1 x).mp (mem_filter.mp hx).1⟩
  | some p =>
    refine ⟨⟨hc.batch, ?_, hc.unindexed, ?_, hc.auths, hc.no_auths, hc.nodup⟩, hnext⟩
    · intro x q hx
      simp only [fetchRow, get?_set] at hx
      split_ifs at hx with hxa
      · rw [hxa, ← hp, Option.some.inj hx]
      · exact hc.placed hx
    · intro x hx
      exact mem_keys_set.mpr (.inr (hc.types x hx))

/-- Collecting ends and keeps the invariant. -/
theorem fetchMissing_spec (hac : Acyclic auth) (ht : Tables auth db) (hc : Loaded auth db b c) :
    ∃ c', fetchMissing db c = some c' ∧ Loaded auth db b c' := by
  let stored := db.stateEvents.map fst
  -- in round `k`, every missing event has `k` distinct stored events above it
  let I : ℕ → Calc E T × List E → Prop := fun k st => Loaded auth db b st.1 ∧
    ∀ x ∈ st.2, ∃ l : List E, l.Nodup ∧ l.length = k ∧ ∀ y ∈ l, y ∈ stored ∧ Below auth y x
  have hround : ∀ st st', fetchRound db st = .inl st' →
      st.2 ≠ [] ∧ st' = (selectMissing db st.2).foldl (fetchRow db) (st.1, []) := by
    rintro ⟨c, missing⟩ st' h
    cases missing with
    | nil => simp [fetchRound] at h
    | cons x xs =>
      simp only [fetchRound, Sum.inl.injEq] at h
      exact ⟨cons_ne_nil _ _, h.symm⟩
  have hstep : ∀ k st st', I k st → fetchRound db st = .inl st' → I (k + 1) st' := by
    rintro k st st' ⟨hc, hk⟩ h
    obtain ⟨_, rfl⟩ := hround st st' h
    obtain ⟨hc', hnext⟩ := fetchRow_loaded ht st.2 hc
    refine ⟨hc', fun x hx => ?_⟩
    obtain ⟨y, hy, hys, hxy⟩ := hnext x hx
    obtain ⟨l, hnd, hlen, hl⟩ := hk y hy
    refine ⟨y :: l, nodup_cons.mpr ⟨fun hyl => hac y (hl y hyl).2, hnd⟩, by simp [hlen], ?_⟩
    intro z hz
    rcases mem_cons.mp hz with rfl | hz
    · exact ⟨hys, .single hxy⟩
    · exact ⟨(hl z hz).1, (hl z hz).2.tail hxy⟩
  have hbound : ∀ k st st', I k st → fetchRound db st = .inl st' → k < stored.length + 1 := by
    rintro k st st' ⟨_, hk⟩ h
    obtain ⟨x, hx⟩ := exists_mem_of_ne_nil _ (hround st st' h).1
    obtain ⟨l, hnd, rfl, hl⟩ := hk x hx
    exact Nat.lt_succ_of_le (subperm_of_subset hnd fun y hy => (hl y hy).1).length_le
  have hinit : I 0 (c, c.missingAuthChains) :=
    ⟨hc, fun x _ => ⟨[], nodup_nil, rfl, nofun⟩⟩
  obtain ⟨c', hc'⟩ := loop_rounds hstep hbound (db.stateEvents.length + 2) 0 _ hinit
    (Nat.zero_le _) (by simp [stored])
  refine ⟨c', hc', loop_post (I := fun st => Loaded auth db b st.1) ?_ ?_ _ _ c'
    hc hc'⟩
  · intro st st' h hst
    obtain ⟨_, rfl⟩ := hround st st' hst
    exact (fetchRow_loaded ht st.2 h).1
  · rintro ⟨c, missing⟩ r h hst
    cases missing with
    | nil =>
      obtain rfl : c = r := by simpa [fetchRound] using hst
      exact h
    | cons x xs => simp [fetchRound] at hst

/-! ### Deferring -/

/-- What is indexed after deferring: events whose auth events are all placed or indexed with them. -/
structure Deferred (auth : E → List E) (db : Db E T R) (b : Batch E T R) (c : Calc E T)
    (events : List E) (table : List (E × R × T)) : Prop where
  sub : ∀ e ∈ events, e ∈ c.eventsToCalcChainIdFor
  nodup : events.Nodup
  known : ∀ e ∈ events, ∀ a ∈ auth e, (∃ p, c.chainMap.get? a = some p) ∨ a ∈ events
  rows : ∀ r ∈ table, r ∈ db.toCalculate ∨ (r.1 ∈ b.eventToRoomId.keys ∧ r.1 ∉ events)

theorem Loaded.acyclic_deps (hac : Acyclic auth) (hc : Loaded auth db b c) (nodes : List E) :
    Acyclic (deps nodes c.eventToAuthChain) := by
  have hsub : ∀ x y, Edge (deps nodes c.eventToAuthChain) x y → Edge auth x y := by
    intro x y hy
    have hy := (mem_deps.mp hy).1
    cases hg : c.eventToAuthChain.get? x with
    | none => rw [Dict.getD, hg] at hy; cases hy
    | some l =>
      rw [getD_of_get? hg] at hy
      exact ((hc.auths hg).1 y).mp hy
  exact fun e he => hac e (Relation.TransGen.mono hsub _ _ he)

/-- For an event to index, the dictionary knows exactly its auth events. -/
theorem Loaded.mem_auths (hc : Loaded auth db b c) {e : E} (he : e ∈ c.eventsToCalcChainIdFor) (a : E) :
    a ∈ c.eventToAuthChain.getD e [] ↔ a ∈ auth e := by
  cases hg : c.eventToAuthChain.get? e with
  | none =>
    rw [Dict.getD, hg, hc.no_auths e he (get?_eq_none_iff.mp hg)]
    rfl
  | some l =>
    rw [getD_of_get? hg]
    exact (hc.auths hg).1 a

theorem deferEvents_spec (hac : Acyclic auth) (hc : Loaded auth db b c) :
    ∃ events table, deferEvents db b c = some (events, table) ∧ Deferred auth db b c events table := by
  set keys := c.eventToAuthChain.keys
  have hacd := hc.acyclic_deps hac keys
  have hnd := topo_nodup hacd
  -- events already checked keep their auth events: those come earlier and are not touched again
  obtain ⟨⟨events, table⟩, hst, ⟨hsub, hend, hrows⟩, hknown⟩ := foldlM_visited (deferEvent b c)
    (fun pre st => ((∀ e ∈ st.1, e ∈ c.eventsToCalcChainIdFor) ∧ st.1.Nodup ∧
      ∀ r ∈ st.2, r ∈ db.toCalculate ∨ (r.1 ∈ b.eventToRoomId.keys ∧ r.1 ∉ st.1)) ∧
      ∀ e ∈ pre, e ∈ st.1 → ∀ a ∈ c.eventToAuthChain.getD e [], (∃ p, c.chainMap.get? a = some p) ∨ a ∈ st.1)
    (sortedTopologically keys c.eventToAuthChain) (s := (c.eventsToCalcChainIdFor, db.toCalculate))
    ⟨⟨fun e he => he, hc.nodup, fun r hr => .inl hr⟩, nofun⟩
    (by
      rintro pre x post ⟨events, table⟩ hsplit ⟨⟨hsub, hend, hrows⟩, hknown⟩
      have hlater : ∀ e ∈ pre, x ∉ c.eventToAuthChain.getD e [] := by
        intro e he hx
        obtain ⟨l, r, rfl⟩ := append_of_mem he
        have hxk : x ∈ keys := (mem_topo hacd).mp (hsplit ▸ by simp)
        have hxl : x ∈ l := topo_before hacd
          (by rw [hsplit, append_assoc, cons_append]) hx hxk
        exact not_mem_of_nodup (hsplit ▸ hnd) (mem_append_left _ hxl)
      have hdrop : ∀ table' : List (E × R × T),
          (∀ r ∈ table', r ∈ table ∨ (r.1 = x ∧ r.1 ∈ b.eventToRoomId.keys)) →
          ((∀ e ∈ events.filter (· ≠ x), e ∈ c.eventsToCalcChainIdFor) ∧
            (events.filter (· ≠ x)).Nodup ∧ ∀ r ∈ table', r ∈ db.toCalculate ∨
              (r.1 ∈ b.eventToRoomId.keys ∧ r.1 ∉ events.filter (· ≠ x))) ∧
          ∀ e ∈ pre ++ [x], e ∈ events.filter (· ≠ x) → ∀ a ∈ c.eventToAuthChain.getD e [],
            (∃ p, c.chainMap.get? a = some p) ∨ a ∈ events.filter (· ≠ x) := by
        intro table' ht
        refine ⟨⟨fun e he => hsub e (mem_filter.mp he).1, hend.filter _, ?_⟩, ?_⟩
        · intro r hr
          rcases ht r hr with hr | ⟨hrx, hrk⟩
          · exact (hrows r hr).imp_right fun h => ⟨h.1, fun hc => h.2 (mem_filter.mp hc).1⟩
          · exact .inr ⟨hrk, by simp [hrx]⟩
        · intro e he hef a ha
          rw [mem_filter, decide_eq_true_eq] at hef
          have hep : e ∈ pre := (mem_concat.mp he).resolve_right hef.2
          refine (hknown e hep hef.1 a ha).imp_right fun hae => ?_
          rw [mem_filter, decide_eq_true_eq]
          exact ⟨hae, fun hax => hlater e hep (hax ▸ ha)⟩
      simp only [deferEvent]
      split_ifs with hall
      · cases hroom : b.eventToRoomId.get? x with
        | none => exact ⟨_, rfl, hdrop table fun r hr => .inl hr⟩
        | some room =>
          have hxk : x ∈ b.eventToRoomId.keys := mem_keys_iff.mpr ⟨room, hroom⟩
          obtain ⟨t, ht⟩ := mem_keys_iff.mp (hc.types x (hc.batch x hxk))
          refine ⟨(events.filter (· ≠ x), upsertToCalculate table (x, room, t)),
            by simp only [ht, Option.map_some], hdrop _ fun r hr => ?_⟩
          rcases mem_concat.mp hr with hr | rfl
          · exact .inl (mem_filter.mp hr).1
          · exact .inr ⟨rfl, hxk⟩
      · refine ⟨_, rfl, ⟨hsub, hend, hrows⟩, ?_⟩
        intro e he hee a ha
        rcases mem_concat.mp he with he | rfl
        · exact hknown e he hee a ha
        · have hnot := fun h => hall (any_eq_true.mpr ⟨a, ha, h⟩)
          rw [Bool.and_eq_true, decide_eq_true_eq, decide_eq_true_eq] at hnot
          by_cases hak : a ∈ c.chainMap.keys
          · exact .inl (mem_keys_iff.mp hak)
          · exact .inr (by_contra fun h => hnot ⟨hak, h⟩))
  refine ⟨events, table, hst, hsub, hend, ?_, hrows⟩
  intro e he a ha
  have ha' := (hc.mem_auths (hsub e he) a).mpr ha
  by_cases hek : e ∈ keys
  · exact hknown e ((mem_topo hacd).mpr hek) he a ha'
  · rw [getD_of_not_mem _ hek] at ha'
    cases ha'

end Sithnapse.ChainCover
