import Sithnapse.AuthChain.Fixup
import Sithnapse.Kit.Outcome

/-! The auth chain difference of a list of state sets, by the chain cover index.

    An indexed event is in the auth chain of a state set exactly when its sequence number is at most
    the set's number for its chain (`number_iff`). Being in some but not all auth chains is then a
    range of sequence numbers per chain, and the un-indexed part was settled when the sets were
    loaded (`auth_difference_correct`). -/

namespace Sithnapse.AuthChain
open Kit Kit.Dict Kit.Chain ChainCover Iterutils List

variable {E T R : Type} [LinearOrder E] [DecidableEq R] {auth : E → List E} {roomOf : E → R}
  {db : Db E T R} {room : R} {stateSets : List (List E)}

/-- In the auth chain of some state set but not of all. -/
def InDifference (auth : E → List E) (stateSets : List (List E)) (e : E) : Prop :=
  (∃ S ∈ stateSets, Under auth S e) ∧ ¬ ∀ S ∈ stateSets, Under auth S e

/-! ### Loading the state sets -/

theorem mem_unionMinusIntersection {sets : List (List E)} {e : E} :
    e ∈ unionMinusIntersection sets ↔ (∃ s ∈ sets, e ∈ s) ∧ ¬ ∀ s ∈ sets, e ∈ s := by
  simp [unionMinusIntersection]

/-- The state sets as they enter the walk: their events are indexed and fetched, and what is below
    them is unchanged as far as it is indexed; the rest of the difference is `diff`. -/
structure LoadedSets (auth : E → List E) (db : Db E T R) (stateSets : List (List E)) (f : List E → List E)
    (diff : List E) (D : Set E) (info : ChainInfo E) : Prop where
  info : Info db D info
  fetched : ∀ S ∈ stateSets, ∀ x ∈ f S, x ∈ D ∧ ∃ p, db.selectChain x = some p
  under : ∀ S ∈ stateSets, ∀ e p, db.selectChain e = some p → (Under auth (f S) e ↔ Under auth S e)
  diff : ∀ e, e ∈ diff ↔ db.selectChain e = none ∧ InDifference auth stateSets e

theorem mem_initialEvents {e : E} : e ∈ addAll [] stateSets.flatten ↔ ∃ S ∈ stateSets, e ∈ S := by
  simp

/-- The positions fetched first. -/
def initialInfo (db : Db E T R) (stateSets : List (List E)) : ChainInfo E :=
  fetchChainInfo db ChainInfo.empty (addAll [] stateSets.flatten)

/-- When every event is indexed nothing is replaced. -/
theorem loadSets_indexed (room : R) (hidx : CorrectIndex auth db)
    (hall : ∀ S ∈ stateSets, ∀ x ∈ S, db.Indexed x) :
    loadSets db room stateSets = .ok ([], stateSets, initialInfo db stateSets) ∧
      LoadedSets auth db stateSets id [] {e | ∃ S ∈ stateSets, e ∈ S} (initialInfo db stateSets) := by
  have hinfo : Info db {e | ∃ S ∈ stateSets, e ∈ S} (initialInfo db stateSets) := by
    have h := info_empty.fetch hidx (addAll [] stateSets.flatten)
    simp only [mem_initialEvents, Set.empty_union] at h
    exact h
  refine ⟨?_, ⟨hinfo, ?_, ?_, ?_⟩⟩
  · have hnone : (addAll [] stateSets.flatten).filter
        (· ∉ (initialInfo db stateSets).chainInfo.keys) = [] := by
      rw [filter_eq_nil_iff]
      intro x hx hn
      obtain ⟨S, hS, hxS⟩ := mem_initialEvents.mp hx
      obtain ⟨p, hp⟩ := hall S hS x hxS
      rw [decide_eq_true_eq] at hn
      exact hn (mem_keys_iff.mpr ⟨p, hinfo.position.mpr ⟨⟨S, hS, hxS⟩, hp⟩⟩)
    rw [loadSets]
    exact if_pos hnone
  · exact fun S hS x hx => ⟨⟨S, hS, hx⟩, hall S hS x hx⟩
  · exact fun _ _ _ _ _ => Iff.rfl
  · refine fun e => ⟨nofun, ?_⟩
    rintro ⟨hn, ⟨S, hS, x, hx, hxe⟩, _⟩
    obtain ⟨p, hp⟩ := hall S hS x hx
    obtain ⟨q, hq⟩ := hidx.indexed_of_belowEq hp hxe
    rw [hn] at hq
    cases hq

/-- Loading fails only on an un-indexed event of another room. -/
theorem loadSets_spec (room : R) (hD : Described auth roomOf db)
    (hlist : ∀ S ∈ stateSets, ∀ e, Under auth S e → db.Indexed e ∨ e ∈ db.toCalculate.map Prod.fst) :
    (∃ f diff D info, loadSets db room stateSets = .ok (diff, stateSets.map f, info) ∧
      LoadedSets auth db stateSets f diff D info) ∨
    (loadSets db room stateSets = .error .noChainCoverIndex ∧
      ∃ S ∈ stateSets, ∃ e ∈ S, db.selectChain e = none ∧ roomOf e ≠ room) := by
  have hidx := hD.toCorrectIndex
  by_cases hall : ∀ S ∈ stateSets, ∀ x ∈ S, db.Indexed x
  · obtain ⟨hload, hloaded⟩ := loadSets_indexed room hidx hall
    exact .inl ⟨id, [], _, _, by rw [hload, map_id], hloaded⟩
  set initial := addAll [] stateSets.flatten with hinitial
  set info := fetchChainInfo db ChainInfo.empty initial with hinfoDef
  have hinfo : Info db (∅ ∪ {e | e ∈ initial}) info := info_empty.fetch hidx initial
  have hmissing : ∀ x, x ∈ initial.filter (· ∉ info.chainInfo.keys) ↔
      x ∈ initial ∧ db.selectChain x = none := by
    intro x
    rw [mem_filter, decide_eq_true_eq, mem_keys_iff, not_exists, Option.eq_none_iff_forall_ne_some]
    refine and_congr_right fun hx => forall_congr' fun p => not_congr ?_
    rw [hinfo.position]
    exact and_iff_right (.inr hx)
  have hne : initial.filter (· ∉ info.chainInfo.keys) ≠ [] := by
    intro hnil
    refine hall fun S hS x hx => Option.ne_none_iff_exists'.mp fun hn => ?_
    have := (hmissing x).mpr ⟨mem_initialEvents.mpr ⟨S, hS, hx⟩, hn⟩
    rw [hnil] at this
    cases this
  have hw := readRows_spec db room info.chainInfo.keys
  set st := (toCalculateRows db room).foldl readRow (Dict.empty, info.chainInfo.keys) with hst
  have h₀ : ∀ a ∈ info.chainInfo.keys, db.Indexed a := by
    intro a ha
    obtain ⟨p, hp⟩ := mem_keys_iff.mp ha
    exact ⟨p, (hinfo.position.mp hp).2⟩
  by_cases hany : (initial.filter (· ∉ info.chainInfo.keys)).any (· ∉ st.1.keys) = true
  · -- a missing event that does not wait in this room
    refine .inr ⟨?_, ?_⟩
    · rw [loadSets]
      simp only [← hinitial, ← hinfoDef, if_neg hne, fixupAuthChainDifferenceSets, ← hst, hany, if_true]
      rfl
    · obtain ⟨x, hx, hxk⟩ := any_eq_true.mp hany
      obtain ⟨hxi, hxn⟩ := (hmissing x).mp hx
      obtain ⟨S, hS, hxS⟩ := mem_initialEvents.mp hxi
      refine ⟨S, hS, x, hxS, hxn, fun hroom => ?_⟩
      rcases hlist S hS x ⟨x, hxS, .refl⟩ with ⟨p, hp⟩ | hx
      · rw [hxn] at hp
        cases hp
      · obtain ⟨r, hr, rfl⟩ := mem_map.mp hx
        rw [decide_eq_true_eq] at hxk
        exact hxk ((hw.keys _).mpr ⟨r, hr, rfl, (hD.rooms r hr).trans hroom⟩)
  · refine .inl ?_
    set chains := (st.1.entries.filter fun p => stateSets.any (p.1 ∈ ·)).map
      fun p => (p.1, partialAuthChain st.1 p.2) with hchains
    set f : List E → List E := fun S => (chains.foldl (replaceEvent st.2) (S, [])).1 with hf
    set u : List E → List E := fun S => (chains.foldl (replaceEvent st.2) (S, [])).2 with hu
    have hreplaced : ∀ S ∈ stateSets, Replaced auth db S (f S) (u S) := by
      intro S hS
      refine replaced_spec hidx ?_ ?_
      · intro p hp hunder
        obtain ⟨⟨e, l⟩, hel, rfl⟩ := mem_map.mp hp
        have hget := get?_eq_some_iff.mpr (mem_filter.mp hel).1
        have hk : e ∈ st.1.keys := mem_keys_iff.mpr ⟨l, hget⟩
        obtain ⟨r, hr, hre, _⟩ := (hw.keys e).mp hk
        refine ⟨hre ▸ hD.pending r hr, ?_⟩
        have hpc := partialChain_spec hD hw h₀ hk fun y hy => by
          obtain ⟨x, hx, hxe⟩ := hunder
          exact hlist S hS y ⟨x, hx, hxe.trans hy⟩
        rwa [getD_of_get? hget] at hpc
      · intro x hx
        by_cases hp : db.Indexed x
        · exact .inl hp
        · refine .inr ?_
          have hxm := (hmissing x).mpr ⟨mem_initialEvents.mpr ⟨S, hS, hx⟩,
            Option.eq_none_iff_forall_ne_some.mpr fun p h => hp ⟨p, h⟩⟩
          have hxk : x ∈ st.1.keys := by
            by_contra hc
            exact hany (any_eq_true.mpr ⟨x, hxm, decide_eq_true hc⟩)
          obtain ⟨l, hl⟩ := mem_keys_iff.mp hxk
          refine mem_map.mpr ⟨(x, partialAuthChain st.1 l), mem_map.mpr
            ⟨(x, l), mem_filter.mpr ⟨get?_eq_some_iff.mp hl, ?_⟩, rfl⟩, rfl⟩
          exact any_eq_true.mpr ⟨S, hS, decide_eq_true hx⟩
    set new := addAll [] ((stateSets.map f).flatten.filter (· ∉ initial)) with hnew
    have hinfo' := hinfo.fetch hidx new
    refine ⟨f, unionMinusIntersection (stateSets.map u), _, fetchChainInfo db info new, ?_,
      ⟨hinfo', ?_, ?_, ?_⟩⟩
    · rw [loadSets]
      simp only [← hinitial, ← hinfoDef, if_neg hne, fixupAuthChainDifferenceSets, ← hst,
        if_neg hany, ← hchains, map_map]
      rfl
    · intro S hS x hx
      refine ⟨?_, (hreplaced S hS).indexed x hx⟩
      by_cases hxi : x ∈ initial
      · exact .inl (.inr hxi)
      · refine .inr (mem_addAll.mpr (.inr (mem_filter.mpr ⟨?_, decide_eq_true hxi⟩)))
        exact mem_flatten.mpr ⟨f S, mem_map_of_mem hS, hx⟩
    · exact fun S hS => (hreplaced S hS).under
    · intro e
      have hmem : ∀ S ∈ stateSets, (e ∈ u S ↔ db.selectChain e = none ∧ Under auth S e) :=
        fun S hS => (hreplaced S hS).unindexed e
      rw [mem_unionMinusIntersection, InDifference]
      simp only [mem_map, exists_exists_and_eq_and, forall_exists_index, and_imp, forall_apply_eq_imp_iff₂]
      constructor
      · rintro ⟨⟨S, hS, heS⟩, hnot⟩
        obtain ⟨hn, hunder⟩ := (hmem S hS).mp heS
        exact ⟨hn, ⟨S, hS, hunder⟩, fun hall => hnot fun S' hS' => (hmem S' hS').mpr ⟨hn, hall S' hS'⟩⟩
      · rintro ⟨hn, ⟨S, hS, hunder⟩, hnot⟩
        exact ⟨⟨S, hS, (hmem S hS).mpr ⟨hn, hunder⟩⟩, fun hall => hnot fun S' hS' =>
          ((hmem S' hS').mp (hall S' hS')).2⟩

/-! ### Numbers and auth chains -/

/-- The numbers a loaded state set ends up with. -/
def setNumbers (db : Db E T R) (order : List ℕ → List ℕ) (info : ChainInfo E) (S : List E) : Dict ℕ ℕ :=
  materializeBatches (getChainLinks db.links (order info.seenChains)) ((setChains info S).getD Dict.empty)

variable {order : List ℕ → List ℕ} {info : ChainInfo E}

omit [DecidableEq R] in
/-- An indexed event is in the auth chain of a loaded set exactly when its number is reached. -/
theorem number_iff (hidx : CorrectIndex auth db)
    (horder : ∀ l, (order l).Perm l) {D : Set E} (hinfo : Info db D info)
    {S : List E} (hS : ∀ x ∈ S, x ∈ D ∧ db.Indexed x) {e : E} {c n : ℕ}
    (he : db.selectChain e = some (c, n)) :
    n ≤ (setNumbers db order info S).getD c 0 ↔ Under auth S e := by
  obtain ⟨M, hM, hmax⟩ := setChains_spec hinfo hS
  have hkeys : ∀ k ∈ M.keys, k ∈ order info.seenChains := by
    intro k hk
    obtain ⟨t, ht⟩ := mem_keys_iff.mp hk
    obtain ⟨x, hx, hxp⟩ := hmax.entry ht
    exact (horder _).mem_iff.mpr (hinfo.seen.mpr ⟨x, (hS x hx).1, t, hxp⟩)
  rw [setNumbers, hM, Option.getD_some,
    reached_iff hidx.one_le_dst ((horder _).nodup_iff.mpr hinfo.nodup) hkeys (hidx.one_le he)]
  constructor
  · rintro ⟨k, t, hk, hc⟩
    obtain ⟨x, hx, hxp⟩ := hmax.entry hk
    exact ⟨x, hx, (hidx.cover.belowEq_iff_covers hxp he).mpr hc⟩
  · rintro ⟨x, hx, hxe⟩
    obtain ⟨⟨k, t⟩, hxp⟩ := (hS x hx).2
    obtain ⟨hk, hle⟩ := hmax.bound (k, t) ⟨x, hx, hxp⟩
    have hup : Covers db.links.linkSet (k, M.getD k 0) (k, t) := .inl ⟨rfl, hle⟩
    exact ⟨k, M.getD k 0, get?_of_mem_keys 0 hk, hup.trans ((hidx.cover.belowEq_iff_covers hxp he).mp hxe)⟩

theorem min?_lt_iff {l : List ℕ} (hl : l ≠ []) {n : ℕ} : l.min?.getD 0 < n ↔ ∃ v ∈ l, v < n := by
  cases hm : l.min? with
  | none => exact absurd (min?_eq_none_iff.mp hm) hl
  | some m =>
    obtain ⟨hmem, hle⟩ := min?_eq_some_iff.mp hm
    exact ⟨fun h => ⟨m, hmem, h⟩, fun ⟨v, hv, h⟩ => (hle v hv).trans_lt h⟩

theorem le_max?_iff {l : List ℕ} (hl : l ≠ []) {n : ℕ} : n ≤ l.max?.getD 0 ↔ ∃ v ∈ l, n ≤ v := by
  cases hm : l.max? with
  | none => exact absurd (max?_eq_none_iff.mp hm) hl
  | some m =>
    obtain ⟨hmem, hle⟩ := max?_eq_some_iff.mp hm
    exact ⟨fun h => ⟨m, hmem, h⟩, fun ⟨v, hv, h⟩ => h.trans (hle v hv)⟩

omit [DecidableEq R] in
/-- The gaps of a walk, collected and fetched. -/
theorem mem_authGaps (hidx : CorrectIndex auth db) {D : Set E}
    (hinfo : Info db D info) {w : Walks} (hne : w.setToChain ≠ []) (hnd : w.seenChains.Nodup)
    (hseen : ∀ M ∈ w.setToChain, ∀ c ∈ M.keys, c ∈ w.seenChains) (found : List E) {e : E} :
    e ∈ addAll (authGaps info w found).1 (fetchEventIdsFromChains db (authGaps info w found).2) ↔
      e ∈ found ∨ ∃ c n, db.selectChain e = some (c, n) ∧ (∃ M ∈ w.setToChain, n ≤ M.getD c 0) ∧
        ∃ M ∈ w.setToChain, M.getD c 0 < n := by
  let lo : ℕ → ℕ := fun c => (w.setToChain.map (·.getD c 0)).min?.getD 0
  let hi : ℕ → ℕ := fun c => (w.setToChain.map (·.getD c 0)).max?.getD 0
  let gap : ℕ → Option (ℕ × ℕ × ℕ) := fun c => if lo c < hi c then some (c, lo c, hi c) else none
  have heq : authGaps info w found = collect info.chainToEvent (w.seenChains.filterMap gap) found := by
    rw [authGaps, collect, foldl_filterMap]
    congr 1
    funext st c
    by_cases h : lo c < hi c
    · rw [show gap c = some (c, lo c, hi c) from if_pos h]
      exact if_pos h
    · rw [show gap c = none from if_neg h]
      exact if_neg h
  have hranges : ((w.seenChains.filterMap gap).map Prod.fst).Nodup := by
    refine (filterMap_keys_sublist ?_ w.seenChains).nodup (by rwa [map_id])
    intro c r hr
    by_cases h : lo c < hi c
    · rw [show gap c = some (c, lo c, hi c) from if_pos h] at hr
      rw [← Option.some.inj hr, id]
    · rw [show gap c = none from if_neg h] at hr
      cases hr
  have hne' : ∀ c, w.setToChain.map (·.getD c 0) ≠ [] := fun c h => hne (map_eq_nil_iff.mp h)
  rw [heq, mem_collected hidx hinfo.event hranges]
  refine or_congr_right ⟨?_, ?_⟩
  · rintro ⟨p, hp, n, he, hlo, hhi⟩
    obtain ⟨c, _, hgap⟩ := mem_filterMap.mp hp
    by_cases h : lo c < hi c
    · obtain rfl := Option.some.inj ((if_pos h).symm.trans hgap)
      have h1 := (min?_lt_iff (hne' c)).mp hlo
      have h2 := (le_max?_iff (hne' c)).mp hhi
      simp only [mem_map, exists_exists_and_eq_and] at h1 h2
      exact ⟨c, n, he, h2, h1⟩
    · rw [show gap c = none from if_neg h] at hgap
      cases hgap
  · rintro ⟨c, n, he, ⟨M, hM, hle⟩, ⟨M', hM', hlt⟩⟩
    have hlo : lo c < n := (min?_lt_iff (hne' c)).mpr ⟨_, mem_map_of_mem hM', hlt⟩
    have hhi : n ≤ hi c := (le_max?_iff (hne' c)).mpr ⟨_, mem_map_of_mem hM, hle⟩
    have hc : c ∈ M.keys := mem_keys_of_getD_ne (w := 0) (by omega)
    exact ⟨(c, lo c, hi c), mem_filterMap.mpr ⟨c, hseen M hM c hc, if_pos (hlo.trans_le hhi)⟩,
      n, he, hlo, hhi⟩

/-! ### The query -/

/-- The walk of a call whose state sets have been loaded. -/
def walkLinks (db : Db E T R) (order : List ℕ → List ℕ) (info : ChainInfo E) (v21 : Bool)
    (conflicted additional : List Pos) (setToChain : List (Dict ℕ ℕ)) : Walks :=
  (getChainLinks db.links (order info.seenChains)).foldl (Walks.batch v21 conflicted additional)
    ⟨setToChain, info.seenChains, Dict.empty, Dict.empty⟩

theorem difference_eq {conflictedSet : Option (List E)}
    {additional diff : List E} {sets : List (List E)} {cp ap : List Pos}
    {Ms : List (Dict ℕ ℕ)} (hne : stateSets ≠ [])
    (hargs : argumentsValid (addAll [] stateSets.flatten) conflictedSet additional = true)
    (hload : loadSets db room stateSets = .ok (diff, sets, info))
    (hcp : (conflictedSet.getD []).mapM info.chainInfo.get? = some cp)
    (hap : (if conflictedSet.isSome then additional else []).mapM info.chainInfo.get? = some ap)
    (hMs : sets.mapM (setChains info) = some Ms) :
    getAuthChainDifferenceUsingCoverIndex db order room stateSets conflictedSet additional =
      .ok (let w := walkLinks db order info conflictedSet.isSome cp ap Ms
        let auth := authGaps info w diff
        let sub := if conflictedSet.isSome then subgraphGaps info w else ([], Dict.empty)
        ⟨addAll auth.1 (fetchEventIdsFromChains db auth.2),
          addAll sub.1 (fetchEventIdsFromChains db sub.2)⟩) := by
  rw [getAuthChainDifferenceUsingCoverIndex, if_neg hne, if_neg (by simp [hargs]), hload]
  simp only [hcp, hap, hMs, orKeyError, bind, Except.bind, pure, Except.pure, walkLinks]

omit [DecidableEq R] in
theorem setChains_mapM {f : List E → List E} {diff : List E} {D : Set E}
    (h : LoadedSets auth db stateSets f diff D info) :
    (stateSets.map f).mapM (setChains info) =
      some ((stateSets.map f).map fun S => (setChains info S).getD Dict.empty) := by
  refine mapM_eq_map fun S hS => ?_
  obtain ⟨S₀, hS₀, rfl⟩ := mem_map.mp hS
  obtain ⟨M, hM, _⟩ := setChains_spec h.info (h.fetched S₀ hS₀)
  rw [hM]
  rfl

/-- What the query answers, from what the state sets were loaded as. -/
theorem loaded_difference {f : List E → List E} {diff : List E} {D : Set E} (hidx : CorrectIndex auth db)
    (horder : ∀ l, (order l).Perm l) (hne : stateSets ≠ [])
    (hload : loadSets db room stateSets = .ok (diff, stateSets.map f, info))
    (hset : LoadedSets auth db stateSets f diff D info) :
    ∃ d, getAuthChainDifferenceUsingCoverIndex db order room stateSets none [] = .ok d ∧
      ∀ e, e ∈ d.authDifference ↔ InDifference auth stateSets e := by
  refine ⟨_, difference_eq hne rfl hload rfl rfl (setChains_mapM hset), fun e => ?_⟩
  set Ms := (stateSets.map f).map fun S => (setChains info S).getD Dict.empty with hMs
  have hsets : (walkLinks db order info false [] [] Ms).setToChain =
      stateSets.map fun S => setNumbers db order info (f S) := by
    rw [walkLinks, setToChain_walks, hMs, map_map, map_map]
    rfl
  have hstart : ∀ M ∈ Ms, ∀ c ∈ M.keys, c ∈ info.seenChains := by
    intro M hM c hc
    obtain ⟨S', hS', rfl⟩ := mem_map.mp hM
    obtain ⟨S, hS, rfl⟩ := mem_map.mp hS'
    obtain ⟨M, hM, hmax⟩ := setChains_spec hset.info (hset.fetched S hS)
    rw [hM, Option.getD_some] at hc
    obtain ⟨t, ht⟩ := mem_keys_iff.mp hc
    obtain ⟨x, hx, hxp⟩ := hmax.entry ht
    exact hset.info.seen.mpr ⟨x, (hset.fetched S hS x hx).1, t, hxp⟩
  obtain ⟨hnd, hseen⟩ := seenChains_walks false [] []
    (getChainLinks db.links (order info.seenChains)) ⟨Ms, info.seenChains, Dict.empty, Dict.empty⟩
    hset.info.nodup hstart
  have hgaps := mem_authGaps hidx hset.info (w := walkLinks db order info false [] [] Ms)
    (by rw [hsets]; simpa using hne) hnd hseen diff (e := e)
  simp only [hsets, mem_map, exists_exists_and_eq_and] at hgaps
  have hnum : ∀ {c n}, db.selectChain e = some (c, n) → ∀ S ∈ stateSets,
      (n ≤ (setNumbers db order info (f S)).getD c 0 ↔ Under auth S e) := fun he S hS =>
    (number_iff hidx horder hset.info (hset.fetched S hS) he).trans (hset.under S hS e _ he)
  refine hgaps.trans ?_
  rw [hset.diff e]
  constructor
  · rintro (⟨_, hdiff⟩ | ⟨c, n, he, ⟨S, hS, hle⟩, S', hS', hlt⟩)
    · exact hdiff
    · exact ⟨⟨S, hS, (hnum he S hS).mp hle⟩, fun hall =>
        absurd ((hnum he S' hS').mpr (hall S' hS')) (not_le.mpr hlt)⟩
  · rintro ⟨⟨S, hS, hunder⟩, hnot⟩
    cases he : db.selectChain e with
    | none => exact .inl ⟨rfl, ⟨S, hS, hunder⟩, hnot⟩
    | some p =>
      obtain ⟨S', hS', hn⟩ := not_forall₂.mp hnot
      exact .inr ⟨p.1, p.2, rfl, ⟨S, hS, (hnum he S hS).mpr hunder⟩, S', hS',
        not_le.mp fun hle => hn ((hnum he S' hS').mp hle)⟩

theorem difference_not_loaded (hne : stateSets ≠ []) {err : Failure} (hload : loadSets db room stateSets = .error err) :
    getAuthChainDifferenceUsingCoverIndex db order room stateSets none [] = .error err := by
  rw [getAuthChainDifferenceUsingCoverIndex, if_neg hne, if_neg (by simp [argumentsValid]), hload]
  rfl

/-- With every un-indexed event of the auth chains waiting to be indexed, the query returns exactly
    the events in some but not all auth chains. It raises `_NoChainCoverIndex` only if asked about
    un-indexed events of another room. -/
theorem auth_difference_correct (hD : Described auth roomOf db)
    (hlist : ∀ S ∈ stateSets, ∀ e, Under auth S e → (∃ p, db.selectChain e = some p) ∨
      e ∈ db.toCalculate.map Prod.fst)
    {order : List ℕ → List ℕ} (horder : ∀ l, (order l).Perm l) (hne : stateSets ≠ []) :
    (∃ d, getAuthChainDifferenceUsingCoverIndex db order room stateSets none [] = .ok d ∧
      ∀ e, e ∈ d.authDifference ↔ InDifference auth stateSets e) ∨
    (getAuthChainDifferenceUsingCoverIndex db order room stateSets none [] = .error .noChainCoverIndex ∧
      ∃ S ∈ stateSets, ∃ e ∈ S, db.selectChain e = none ∧ roomOf e ≠ room) := by
  rcases loadSets_spec room hD hlist with ⟨f, diff, D, info, hload, hset⟩ | ⟨hload, hroom⟩
  · exact .inl (loaded_difference hD.toCorrectIndex horder hne hload hset)
  · exact .inr ⟨difference_not_loaded hne hload, hroom⟩

/-! A room where the power levels and a member event still wait to be indexed. -/

/-- The create and join events are indexed. -/
def startDb : Db ℕ ℕ ℕ :=
  ⟨[(0, 0), (1, 1)], [(1, 0)], [(0, (1, 1)), (1, (2, 1))], .sql [⟨2, 1, 1, 1⟩], []⟩

/-- Two more events are stored and wait. -/
def waitingDb : Db ℕ ℕ ℕ :=
  { startDb with
    stateEvents := [(0, 0), (1, 1), (2, 2), (3, 1)]
    eventAuth := [(1, 0), (2, 0), (2, 1), (3, 0), (3, 2), (3, 1)]
    toCalculate := [(2, 0, 2), (3, 0, 1)] }

theorem startDb_reachable : Reachable roomAuth startDb :=
  .batch (b := roomBatch emptyDb [0, 1]) emptyDb_reachable (Batch.ofEvents_valid ..)
    (freshIds_range (k := 1) (by decide)) rfl

theorem waitingDb_described : Described roomAuth (fun _ => 0) waitingDb where
  toCorrectIndex :=
    let h := correctIndex_of_indexed (startDb_reachable.indexed roomAuth_acyclic roomAuth_nodup)
    { h with }
  pending := by decide
  rooms := by decide
  auths := by
    intro r hr a
    rcases mem_cons.mp hr with rfl | hr
    · exact Iff.rfl
    · obtain rfl := mem_singleton.mp hr
      exact Iff.rfl
  sameRoom := fun _ _ _ => rfl

theorem roomAuth_le {x e : ℕ} (h : BelowEq roomAuth x e) : e ≤ x := by
  induction h with
  | refl => exact le_refl _
  | tail _ he ih => exact (roomAuth_lt he).le.trans ih

theorem waitingDb_listed : ∀ S ∈ [[3], [1]], ∀ e, Under roomAuth S e →
    (∃ p, waitingDb.selectChain e = some p) ∨ e ∈ waitingDb.toCalculate.map Prod.fst := by
  rintro S hS e ⟨x, hx, hxe⟩
  have hx3 : x ≤ 3 := by
    rcases mem_cons.mp hS with rfl | hS
    · rw [mem_singleton.mp hx]
    · rw [mem_singleton.mp hS] at hx
      rw [mem_singleton.mp hx]
      decide
  have he : e ≤ 3 := (roomAuth_le hxe).trans hx3
  interval_cases e
  · exact .inl ⟨_, rfl⟩
  · exact .inl ⟨_, rfl⟩
  · exact .inr (by decide)
  · exact .inr (by decide)

/-- The waiting events are the difference between the member event's chain and the join's. -/
theorem auth_difference_waiting :
    ∃ d, getAuthChainDifferenceUsingCoverIndex waitingDb id 0 [[3], [1]] none [] = .ok d ∧
      ∀ e, e ∈ d.authDifference ↔ InDifference roomAuth [[3], [1]] e := by
  refine (auth_difference_correct waitingDb_described waitingDb_listed (fun l => List.Perm.refl l)
    (by decide)).resolve_right ?_
  rintro ⟨_, _, _, _, _, _, hroom⟩
  exact hroom rfl

/-! A chain of three events that all wait, the second one in another room. -/

def crossAuth (e : ℕ) : List ℕ := if e = 1 ∨ e = 2 then [e - 1] else []

def crossDb : Db ℕ ℕ ℕ :=
  ⟨[(0, 0), (1, 1), (2, 1)], [(1, 0), (2, 1)], [], .sql [], [(0, 0, 0), (1, 1, 1), (2, 0, 1)]⟩

/-- The third event's auth event is not among the rows of its room, so what is below that is not found, and the
    first event, which is in both auth chains, is returned. -/
theorem auth_difference_other_room :
    Acyclic crossAuth ∧ CorrectIndex crossAuth crossDb ∧
    (∀ r ∈ crossDb.toCalculate, crossDb.selectAuth r.1 = crossAuth r.1) ∧
    (∀ e < 3, e ∈ crossDb.toCalculate.map Prod.fst) ∧
    (∃ d, getAuthChainDifferenceUsingCoverIndex crossDb id 0 [[2], [0]] none [] = .ok d ∧ 0 ∈ d.authDifference) ∧
    ∀ S ∈ [[2], [0]], Under crossAuth S 0 := by
  refine ⟨acyclic_of_rank id fun e a ha => ?_, ⟨by decide, by decide, nofun, nofun, nofun, nofun, nofun⟩,
    by decide, by decide, ?_, ?_⟩
  · obtain ⟨he, rfl⟩ : (e = 1 ∨ e = 2) ∧ a = e - 1 := by simpa [crossAuth] using ha
    dsimp only [id]
    omega
  · have hd : (getAuthChainDifferenceUsingCoverIndex crossDb id 0 [[2], [0]] none []).toOption.map
        (·.authDifference) = some [2, 1, 0] := by decide +kernel
    obtain ⟨d, hok, hd⟩ := Option.map_eq_some_iff.mp hd
    exact ⟨d, toOption_eq_some.mp hok, by rw [hd]; decide⟩
  · intro S hS
    rcases mem_cons.mp hS with rfl | hS
    · exact ⟨2, .head _, .tail (.single (by decide : 1 ∈ crossAuth 2)) (by decide : 0 ∈ crossAuth 1)⟩
    · obtain rfl := mem_singleton.mp hS
      exact ⟨0, .head _, .refl⟩

end Sithnapse.AuthChain
