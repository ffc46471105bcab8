import Sithnapse.AuthChain.Reached

/-! `_get_auth_chain_ids_using_cover_index_txn`: auth chains read off the chain cover index.

    On every chain the given events lie on, everything below the highest of them is in the auth
    chain; on every chain the links lead to, everything up to the number materialized. Given events
    below other given events are included by one or the other (`coverQuery_spec`). -/

namespace Sithnapse.AuthChain
open Kit Kit.Dict Kit.Chain ChainCover Iterutils List

variable {E T R : Type} [LinearOrder E]

/-- One row of the positions of the given events. -/
def givenRow (st : List E × Dict ℕ ℕ) (row : E × Pos) : List E × Dict ℕ ℕ :=
  (addIf st.1 row.1, st.2.set row.2.1 (max row.2.2 (st.2.getD row.2.1 0)))

/-- The given events that have a position, and the highest of their positions on each chain. -/
def givenChains (db : Db E T R) (initial : List E) : List E × Dict ℕ ℕ :=
  ((batchIter initial 1000).flatMap fun batch => db.chains.filter (·.1 ∈ batch)).foldl givenRow
    ([], Dict.empty)

/-- One batch of links, walked from the given chains among them. -/
def materializeGiven (eventChains : Dict ℕ ℕ) (chains : Dict ℕ ℕ) (links : Dict ℕ (List ChainEdge)) :
    Dict ℕ ℕ :=
  links.keys.foldl (fun chains c =>
    match eventChains.get? c with
    | none => chains
    | some n => materialize (c, n) links chains true) chains

/-- The given chains up to, and excluding, the highest given event. -/
def addGivenChains (eventChains chains : Dict ℕ ℕ) : Dict ℕ ℕ :=
  eventChains.entries.foldl (fun chains p =>
    -- the first event of a chain adds nothing
    if p.2 = 1 then chains else chains.set p.1 (max (p.2 - 1) (chains.getD p.1 0))) chains

/-- `SELECT event_id … WHERE chain_id = ? AND sequence_number <= ?` for every chain. -/
def eventsUpTo (db : Db E T R) (chains : Dict ℕ ℕ) : List E :=
  chains.entries.flatMap fun p =>
    (db.chains.filter fun r => r.2.1 = p.1 ∧ r.2.2 ≤ p.2).map Prod.fst

/-- `_get_auth_chain_ids_using_cover_index_txn`. `order` is the order in which a set of chain ids is
    iterated, `createEvent` the row found for the room's create event. -/
def getAuthChainIdsUsingCoverIndex (db : Db E T R) (order : List ℕ → List ℕ)
    (createEvent : Option E) (eventIds : List E) (includeGiven : Bool) : Except Failure (List E) :=
  let given := addAll [] eventIds
  let (seen, eventChains) := givenChains db given
  if given.any (· ∉ seen) then .error .noChainCoverIndex
  else
    let walked := (getChainLinks db.links (order eventChains.keys)).foldl
      (materializeGiven eventChains) Dict.empty
    let chains := addGivenChains eventChains walked
    let results := addAll (if includeGiven then given else []) (eventsUpTo db chains)
    -- with the given events included, `results` and `initial_events` are one set
    let initial := if includeGiven then results else given
    let directAuthIds := (db.eventAuth.filter (·.1 ∈ initial)).map Prod.snd
    let allCovered := addAll results initial
    if directAuthIds.any (· ∉ allCovered) then .error .incompleteAuthGraph
    else if directAuthIds ≠ [] ∧ createEvent.any (· ∉ allCovered) then .error .incompleteAuthGraph
    else .ok results

/-- The auth chain of the given events, with or without the events themselves. -/
def InAuthChain (auth : E → List E) (given : List E) (includeGiven : Bool) (x : E) : Prop :=
  (includeGiven = true ∧ x ∈ given) ∨ ∃ g ∈ given, Below auth g x

variable {auth : E → List E} {db : Db E T R}

theorem givenChains_spec (hidx : CorrectIndex auth db) (initial : List E) :
    (∀ e, e ∈ (givenChains db initial).1 ↔ e ∈ initial ∧ db.Indexed e) ∧
      Highest {p | ∃ e ∈ initial, db.selectChain e = some p} (givenChains db initial).2 := by
  have hrows : ∀ r, r ∈ ((batchIter initial 1000).flatMap fun batch => db.chains.filter (·.1 ∈ batch)) ↔
      r.1 ∈ initial ∧ db.selectChain r.1 = some r.2 := by
    intro r
    rw [mem_flatMap, ← hidx.mem_chains, ← mem_batchIter (by decide : 0 < 1000)]
    simp only [mem_filter, decide_eq_true_eq]
    constructor
    · rintro ⟨b, hb, hr, hrb⟩
      exact ⟨⟨b, hb, hrb⟩, hr⟩
    · rintro ⟨⟨b, hb, hrb⟩, hr⟩
      exact ⟨b, hb, hr, hrb⟩
  obtain ⟨hseen, hmax⟩ := foldl_visited givenRow (fun pre (st : List E × Dict ℕ ℕ) =>
    (∀ e, e ∈ st.1 ↔ e ∈ pre.map Prod.fst) ∧ Highest {p | p ∈ pre.map Prod.snd} st.2)
    ((batchIter initial 1000).flatMap fun batch => db.chains.filter (·.1 ∈ batch))
    (s := ([], Dict.empty)) ⟨by simp, by simpa using Highest.empty⟩ (by
      rintro pre r post st - ⟨hseen, hmax⟩
      refine ⟨fun e => by simp [givenRow, hseen], ?_⟩
      have hset : {p | p ∈ (pre ++ [r]).map Prod.snd} = insert r.2 {p | p ∈ pre.map Prod.snd} := by
        ext p
        simp [or_comm]
      rw [hset]
      exact hmax.raise r.2)
  constructor
  · intro e
    refine (hseen e).trans ?_
    simp only [mem_map, hrows]
    constructor
    · rintro ⟨r, hr, rfl⟩
      exact ⟨hr.1, r.2, hr.2⟩
    · rintro ⟨he, p, hp⟩
      exact ⟨(e, p), ⟨he, hp⟩, rfl⟩
  · have hset : {p | ∃ e ∈ initial, db.selectChain e = some p} =
        {p | p ∈ ((batchIter initial 1000).flatMap fun batch =>
          db.chains.filter (·.1 ∈ batch)).map Prod.snd} := by
      ext p
      simp only [Set.mem_ofPred_eq, mem_map, hrows]
      constructor
      · rintro ⟨e, he, hp⟩
        exact ⟨(e, p), ⟨he, hp⟩, rfl⟩
      · rintro ⟨r, hr, rfl⟩
        exact ⟨r.1, hr.1, hr.2⟩
    rw [hset]
    exact hmax

/-! ### Walking from the given chains -/

section Walk

variable {s : LinkStore} {ec M : Dict ℕ ℕ}

/-- The positions one link away from the given ones. -/
def oneLink (L : Set Link) (ec : Dict ℕ ℕ) : Set Pos :=
  {q | ∃ c n, ec.get? c = some n ∧ Follow L (c, n) q}

/-- What one batch adds. -/
theorem materializeGiven_spec {batch : List ℕ} {links : Dict ℕ (List ChainEdge)}
    (hf : Fetched s batch links) (h : Labels s.linkSet (oneLink s.linkSet ec) ∅ M) :
    Labels s.linkSet (oneLink s.linkSet ec) ∅ (materializeGiven ec M links) ∧
      (∀ k, M.getD k 0 ≤ (materializeGiven ec M links).getD k 0) ∧
      ∀ c ∈ links.keys, ∀ n, ec.get? c = some n → Walked s.linkSet (materializeGiven ec M links) (c, n) := by
  refine foldl_visited _ (fun pre (M' : Dict ℕ ℕ) => Labels s.linkSet (oneLink s.linkSet ec) ∅ M' ∧
    (∀ k, M.getD k 0 ≤ M'.getD k 0) ∧
    ∀ c ∈ pre, ∀ n, ec.get? c = some n → Walked s.linkSet M' (c, n)) links.keys
    ⟨h, fun _ => le_refl _, by simp⟩ ?_
  rintro pre c post M' hsplit ⟨hlab, hgrow, hwalked⟩
  split
  · rename_i hnone
    refine ⟨hlab, hgrow, forall_mem_concat.mpr ⟨hwalked, fun n hn => ?_⟩⟩
    rw [hnone] at hn
    cases hn
  · rename_i n hn
    have hm := materialize_spec hf (c := c) (hsplit ▸ by simp) n M'
    refine ⟨(hlab.step hm (fun q hq => ?_) (.inr id)).mono_todo fun _ _ hk => hk.1,
      fun k => (hgrow k).trans (hm.grows k), fun k hk m hkm => ?_⟩
    · obtain ⟨r, hr, hrq⟩ := Relation.TransGen.head'_iff.mp hq
      rcases Relation.reflTransGen_iff_eq_or_transGen.mp hrq with rfl | hrq
      · exact .inl ⟨c, n, hn, hr⟩
      · exact .inr ⟨r, ⟨c, n, hn, hr⟩, hrq⟩
    · rcases mem_concat.mp hk with hk | rfl
      · exact fun q hq => (hwalked k hk m hkm q hq).trans (hm.grows q.1)
      · obtain rfl := Option.mem_unique hn hkm
        exact hm.origin

/-- After all batches the numbers are those that links from the given positions reach. -/
theorem walkedGiven_iff (hs : ∀ l ∈ s.linkSet, 1 ≤ l.dstSeq) {chains : List ℕ} (hnd : chains.Nodup)
    (hec : ∀ k ∈ ec.keys, k ∈ chains) {c n : ℕ} (hn : 1 ≤ n) :
    n ≤ ((getChainLinks s chains).foldl (materializeGiven ec) Dict.empty).getD c 0 ↔
      ∃ k t, ec.get? k = some t ∧ ∃ u, n ≤ u ∧ Reach s.linkSet (k, t) (c, u) := by
  obtain ⟨hlab, hwalked⟩ := foldl_visited (materializeGiven ec)
    (fun pre (M : Dict ℕ ℕ) => Labels s.linkSet (oneLink s.linkSet ec) ∅ M ∧
      ∀ links ∈ pre, ∀ c ∈ links.keys, ∀ n, ec.get? c = some n → Walked s.linkSet M (c, n))
    (getChainLinks s chains) (s := Dict.empty) ⟨⟨by simp, by simp⟩, by simp⟩ (by
      rintro pre links post M hsplit ⟨hlab, hwalked⟩
      obtain ⟨batch, _, hf⟩ := mem_getChainLinks s hnd (hsplit ▸ by simp : links ∈ getChainLinks s chains)
      obtain ⟨hl, hg, hw⟩ := materializeGiven_spec hf hlab
      exact ⟨hl, forall_mem_concat.mpr
        ⟨fun d hd k hk n hkn q hq => (hwalked d hd k hk n hkn q hq).trans (hg q.1), hw⟩⟩)
  set M := (getChainLinks s chains).foldl (materializeGiven ec) Dict.empty
  constructor
  · intro hle
    rcases hlab.sound (get?_of_getD_ne (k := c) (w := 0) (by omega)) with ⟨k, t, hk, hf⟩ | ⟨p, ⟨k, t, hk, hf⟩, hr⟩
    · exact ⟨k, t, hk, _, hle, .single hf⟩
    · exact ⟨k, t, hk, _, hle, .head hf hr⟩
  · rintro ⟨k, t, hk, u, hu, hr⟩
    obtain ⟨links, hlinks, hkl⟩ := exists_getChainLinks s hnd
      (hec k (mem_keys_iff.mpr ⟨t, hk⟩)) hr.exists_link
    exact hu.trans (hlab.reach_le hs (hwalked links hlinks k hkl t hk) hr)

/-- The given chains are filled up to below the highest given event. -/
theorem le_addGivenChains {c n : ℕ} (hn : 1 ≤ n) :
    n ≤ (addGivenChains ec M).getD c 0 ↔ n ≤ M.getD c 0 ∨ ∃ t, ec.get? c = some t ∧ n < t := by
  have hfold : n ≤ (addGivenChains ec M).getD c 0 ↔ n ≤ M.getD c 0 ∨ ∃ t, (c, t) ∈ ec.entries ∧ n < t := by
    refine foldl_visited _ (fun pre (M' : Dict ℕ ℕ) => n ≤ M'.getD c 0 ↔
      n ≤ M.getD c 0 ∨ ∃ t, (c, t) ∈ pre ∧ n < t) ec.entries (by simp) ?_
    rintro pre ⟨k, t⟩ post M' - ih
    have hsplit : (∃ u, (c, u) ∈ pre ++ [(k, t)] ∧ n < u) ↔
        (∃ u, (c, u) ∈ pre ∧ n < u) ∨ (c = k ∧ n < t) := by
      simp only [mem_append, mem_singleton, Prod.mk.injEq, or_and_right, exists_or]
      refine or_congr_right ⟨?_, fun h => ⟨t, ⟨h.1, rfl⟩, h.2⟩⟩
      rintro ⟨u, ⟨hc, rfl⟩, h⟩
      exact ⟨hc, h⟩
    rw [hsplit, ← or_assoc, ← ih]
    split_ifs with ht
    · have ht : t = 1 := ht
      exact ⟨.inl, fun h => h.resolve_right fun hc => by omega⟩
    · have ht : t ≠ 1 := ht
      rw [getD_set]
      split
      · rename_i hc
        subst hc
        rw [le_max_iff]
        constructor
        · rintro (h | h)
          · exact .inr ⟨rfl, by omega⟩
          · exact .inl h
        · rintro (h | ⟨_, h⟩)
          · exact .inr h
          · exact .inl (by omega)
      · rename_i hc
        exact ⟨.inl, fun h => h.resolve_right fun hk => hc hk.1⟩
  rw [hfold]
  simp only [← get?_eq_some_iff]

end Walk

theorem mem_eventsUpTo (hidx : CorrectIndex auth db) {chains : Dict ℕ ℕ} {x : E} :
    x ∈ eventsUpTo db chains ↔ ∃ c n, db.selectChain x = some (c, n) ∧ n ≤ chains.getD c 0 := by
  simp only [eventsUpTo, mem_flatMap, mem_map, mem_filter, decide_eq_true_eq]
  constructor
  · rintro ⟨⟨k, m⟩, hk, ⟨y, c, n⟩, ⟨hr, hc, hle⟩, rfl⟩
    have hc : c = k := hc
    subst hc
    refine ⟨c, n, hidx.mem_chains.mp hr, ?_⟩
    rw [getD_of_get? (get?_eq_some_iff.mpr hk)]
    exact hle
  · rintro ⟨c, n, hx, hle⟩
    have h1 := hidx.one_le hx
    exact ⟨(c, chains.getD c 0), get?_eq_some_iff.mp (get?_of_getD_ne (by omega)), (x, c, n),
      ⟨hidx.mem_chains.mpr hx, rfl, hle⟩, rfl⟩

/-- What is found on the chains are the events below the given ones. -/
theorem mem_found (hac : Acyclic auth) (hidx : CorrectIndex auth db) {order : List ℕ → List ℕ}
    (horder : ∀ l, (order l).Perm l) {given : List E}
    (hgiven : ∀ g ∈ given, db.Indexed g) {ec : Dict ℕ ℕ}
    (hec : Highest {p | ∃ e ∈ given, db.selectChain e = some p} ec) {x : E} :
    x ∈ eventsUpTo db (addGivenChains ec ((getChainLinks db.links (order ec.keys)).foldl
      (materializeGiven ec) Dict.empty)) ↔ ∃ g ∈ given, Below auth g x := by
  have hnd : (order ec.keys).Nodup := (horder _).nodup_iff.mpr ec.nodup
  rw [mem_eventsUpTo hidx]
  constructor
  · rintro ⟨c, n, hx, hle⟩
    rw [le_addGivenChains (hidx.one_le hx), walkedGiven_iff hidx.one_le_dst hnd
      (fun k hk => (horder _).mem_iff.mpr hk) (hidx.one_le hx)] at hle
    rcases hle with ⟨k, t, hk, u, hu, hr⟩ | ⟨t, ht, hlt⟩
    · obtain ⟨g, hg, hgp⟩ := hec.entry hk
      exact ⟨g, hg, (hidx.cover.below_iff_indexed hgp hac).mpr ⟨_, hx, .inr ⟨u, hu, hr⟩⟩⟩
    · obtain ⟨g, hg, hgp⟩ := hec.entry ht
      exact ⟨g, hg, (hidx.cover.below_iff_indexed hgp hac).mpr ⟨_, hx, .inl ⟨rfl, hlt⟩⟩⟩
  · rintro ⟨g, hg, hgx⟩
    obtain ⟨p, hp⟩ := hgiven g hg
    obtain ⟨⟨c, n⟩, hx, hcase⟩ := (hidx.cover.below_iff_indexed hp hac).mp hgx
    obtain ⟨hk, hle⟩ := hec.bound p ⟨g, hg, hp⟩
    have hget := get?_of_mem_keys 0 hk
    refine ⟨c, n, hx, ?_⟩
    rw [le_addGivenChains (hidx.one_le hx), walkedGiven_iff hidx.one_le_dst hnd
      (fun k hk => (horder _).mem_iff.mpr hk) (hidx.one_le hx)]
    rcases hcase with ⟨hc, hlt⟩ | ⟨u, hu, hr⟩
    · exact .inr ⟨_, hc ▸ hget, hlt.trans_le hle⟩
    · exact .inl ⟨_, _, hget, u, hu, Reach.of_le (p := p) rfl hle hr⟩

/-- The query returns the auth chain. It raises only if a given event has no position, or if the
    create event of the room is not in the auth chain. -/
theorem coverQuery_spec (hac : Acyclic auth) (hidx : CorrectIndex auth db)
    {order : List ℕ → List ℕ} (horder : ∀ l, (order l).Perm l) (createEvent : Option E)
    {eventIds : List E} (includeGiven : Bool) (hauths : ∀ g ∈ eventIds, ∀ e, BelowEq auth g e →
      ∀ a, (e, a) ∈ db.eventAuth → a ∈ auth e) :
    (∃ r, getAuthChainIdsUsingCoverIndex db order createEvent eventIds includeGiven = .ok r ∧
      ∀ x, x ∈ r ↔ InAuthChain auth eventIds includeGiven x) ∨
    (getAuthChainIdsUsingCoverIndex db order createEvent eventIds includeGiven =
        .error .noChainCoverIndex ∧ ∃ g ∈ eventIds, db.selectChain g = none) ∨
    (getAuthChainIdsUsingCoverIndex db order createEvent eventIds includeGiven = .error .incompleteAuthGraph ∧
      ∃ c, createEvent = some c ∧ ¬ InAuthChain auth eventIds true c) := by
  set given := addAll [] eventIds with hgdef
  have hmg : ∀ x, x ∈ given ↔ x ∈ eventIds := fun x => by simp [hgdef]
  obtain ⟨hseen, hec⟩ := givenChains_spec hidx given
  rw [getAuthChainIdsUsingCoverIndex, ← hgdef]
  by_cases hmiss : given.any (· ∉ (givenChains db given).1)
  · refine .inr (.inl ⟨by simp only [hmiss, if_true], ?_⟩)
    obtain ⟨g, hg, hgs⟩ := any_eq_true.mp hmiss
    rw [decide_eq_true_eq, hseen] at hgs
    refine ⟨g, (hmg g).mp hg, ?_⟩
    cases hp : db.selectChain g with
    | none => rfl
    | some p => exact absurd ⟨hg, p, hp⟩ hgs
  · have hgiven : ∀ g ∈ given, db.Indexed g := by
      intro g hg
      by_contra hc
      refine hmiss (any_eq_true.mpr ⟨g, hg, decide_eq_true fun h => hc ((hseen g).mp h).2⟩)
    have hfound := fun x => mem_found hac hidx horder hgiven hec (x := x)
    simp only [if_neg hmiss]
    set found := eventsUpTo db (addGivenChains (givenChains db given).2 _)
    set results := addAll (if includeGiven = true then given else []) found with hrdef
    have hres : ∀ x, x ∈ results ↔ InAuthChain auth eventIds includeGiven x := by
      intro x
      rw [hrdef, mem_addAll, hfound]
      simp only [hmg, InAuthChain]
      refine or_congr_left ?_
      cases includeGiven <;> simp [hmg]
    set initial := if includeGiven = true then results else given with hidef
    have hcov : ∀ x, x ∈ addAll results initial ↔ InAuthChain auth eventIds true x := by
      intro x
      rw [mem_addAll, hidef]
      cases includeGiven with
      | true => simp [hres]
      | false =>
        simp only [Bool.false_eq_true, if_false, hres, hmg, InAuthChain, false_and, false_or, true_and]
        exact or_comm
    -- a correct index covers the auth events of everything it returns
    have hdirect : ¬ ((db.eventAuth.filter (·.1 ∈ initial)).map Prod.snd).any
        (· ∉ addAll results initial) := by
      intro h
      obtain ⟨a, ha, hna⟩ := any_eq_true.mp h
      obtain ⟨⟨e, a⟩, hrow, rfl⟩ := mem_map.mp ha
      rw [mem_filter, decide_eq_true_eq] at hrow
      rw [decide_eq_true_eq, hcov] at hna
      have he : InAuthChain auth eventIds true e :=
        (hcov e).mp (mem_addAll.mpr (.inr hrow.2))
      obtain ⟨g, hg, hge⟩ : ∃ g ∈ eventIds, BelowEq auth g e := by
        rcases he with ⟨_, he⟩ | ⟨g, hg, hge⟩
        · exact ⟨e, he, .refl⟩
        · exact ⟨g, hg, hge.belowEq⟩
      exact hna (.inr ⟨g, hg, .tail' hge (hauths g hg e hge a hrow.1)⟩)
    split_ifs with hcreate
    · refine .inr (.inr ⟨rfl, ?_⟩)
      cases createEvent with
      | none => simp at hcreate
      | some c =>
        refine ⟨c, rfl, fun hc => ?_⟩
        simp only [Option.any_some, decide_eq_true_eq, hcov] at hcreate
        exact hcreate.2 hc
    · exact .inl ⟨results, rfl, hres⟩

end Sithnapse.AuthChain
