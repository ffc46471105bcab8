import Sithnapse.AuthChain.Forwards

/-! The conflicted subgraph of state resolution v2.1, by the chain cover index.

    It should hold the events that are in the auth chain of a conflicted or additional event and have
    a conflicted event in theirs. Two things get in the way: a conflicted event whose chain has no
    links is skipped on the backward side, and the forward walk does not cross batches of links.
    `conflicted_subgraph_iff` says on which inputs neither matters. -/

namespace Sithnapse.AuthChain
open Kit Kit.Dict Kit.Chain ChainCover Iterutils List Relation

/-! ### Backwards -/

section Backwards

variable {s : LinkStore} {batch : List ℕ} {links : Dict ℕ (List ChainEdge)} {src : Set Pos}
  {B : Dict ℕ ℕ}

/-- Marking one position whose chain is in the batch. -/
theorem Labels.mark (hf : Fetched s batch links) (h : Labels s.linkSet src ∅ B) {p : Pos}
    (hp : p ∈ src) (hk : p.1 ∈ links.keys) :
    Labels s.linkSet src ∅ (materialize p links (B.set p.1 (max p.2 (B.getD p.1 0))) true) ∧
      (∀ k, B.getD k 0 ≤ (materialize p links (B.set p.1 (max p.2 (B.getD p.1 0))) true).getD k 0) ∧
      p.2 ≤ (materialize p links (B.set p.1 (max p.2 (B.getD p.1 0))) true).getD p.1 0 := by
  set B' := B.set p.1 (max p.2 (B.getD p.1 0)) with hB'
  have hm := materialize_spec hf hk p.2 B'
  have hgrow : ∀ k, B.getD k 0 ≤ B'.getD k 0 := by
    intro k
    rw [hB', getD_set]
    split_ifs with hkp
    · rw [hkp]
      exact le_max_right _ _
    · exact le_refl _
  have hown : p.2 ≤ B'.getD p.1 0 := by
    rw [hB', getD_set, if_pos rfl]
    exact le_max_left _ _
  have hmono : ∀ {q}, Walked s.linkSet B q → Walked s.linkSet B' q := fun hw r hr =>
    (hw r hr).trans (hgrow r.1)
  have hsrc : ∀ q, Reach s.linkSet p q → q ∈ src ∨ ∃ r ∈ src, Reach s.linkSet r q :=
    fun q hq => .inr ⟨p, hp, hq⟩
  refine ⟨?_, fun k => (hgrow k).trans (hm.grows k), hown.trans (hm.grows _)⟩
  rcases Nat.lt_or_ge p.2 (B.getD p.1 0) with hlt | hle
  · -- the chain already has a higher entry, which was walked before
    have hkB : p.1 ∈ B.keys := mem_keys_of_getD_ne (w := 0) (by omega)
    have hsame : ∀ k, B'.get? k = B.get? k := by
      intro k
      rw [hB', get?_set, max_eq_right hlt.le]
      split_ifs with hkp
      · rw [hkp, ← get?_of_mem_keys 0 hkB]
      · rfl
    have hlab : Labels s.linkSet src ∅ B' :=
      ⟨fun hk => h.sound (hsame _ ▸ hk), fun hk => (h.walked (hsame _ ▸ hk)).imp_right hmono⟩
    exact (hlab.step hm hsrc (.inr id)).mono_todo fun k _ hk => hk.1
  · -- the position becomes the entry of its chain and is walked now
    have hget : B'.get? p.1 = some p.2 := by rw [hB', get?_set_self, max_eq_left hle]
    have hlab : Labels s.linkSet src {p.1} B' := by
      constructor
      · intro k t hkt
        by_cases hkp : k = p.1
        · rw [hkp, hget] at hkt
          exact .inl (by rw [hkp, ← Option.some.inj hkt]; exact hp)
        · rw [hB', get?_set_ne _ _ hkp] at hkt
          exact h.sound hkt
      · intro k t hkt
        by_cases hkp : k = p.1
        · exact .inl hkp
        · rw [hB', get?_set_ne _ _ hkp] at hkt
          exact .inr (hmono ((h.walked hkt).resolve_left id))
    exact (hlab.step hm hsrc (.inl hget)).mono_todo fun k _ hk => hk.2 hk.1

theorem markBackwards_spec (hf : Fetched s batch links) (h : Labels s.linkSet src ∅ B)
    (ps : List Pos) (hps : ∀ p ∈ ps, p.1 ∈ links.keys → p ∈ src) :
    Labels s.linkSet src ∅ (markBackwards links B ps) ∧
      (∀ k, B.getD k 0 ≤ (markBackwards links B ps).getD k 0) ∧
      ∀ p ∈ ps, p.1 ∈ links.keys → p.2 ≤ (markBackwards links B ps).getD p.1 0 := by
  refine foldl_visited _ (fun pre (B' : Dict ℕ ℕ) => Labels s.linkSet src ∅ B' ∧
    (∀ k, B.getD k 0 ≤ B'.getD k 0) ∧ ∀ p ∈ pre, p.1 ∈ links.keys → p.2 ≤ B'.getD p.1 0) ps
    ⟨h, fun _ => le_refl _, nofun⟩ ?_
  rintro pre p post B' hsplit ⟨hlab, hgrow, hpre⟩
  split
  · rename_i hk
    exact ⟨hlab, hgrow, forall_mem_concat.mpr ⟨hpre, fun hpk => absurd hpk hk⟩⟩
  · rename_i hk
    rw [not_not] at hk
    obtain ⟨hl, hg, hown⟩ := hlab.mark hf (hps p (hsplit ▸ by simp) hk) hk
    exact ⟨hl, fun k => (hgrow k).trans (hg k),
      forall_mem_concat.mpr ⟨fun q hq hqk => (hpre q hq hqk).trans (hg _), fun _ => hown⟩⟩

/-- The backward numbers after all batches. -/
def backwardNumbers (batches : List (Dict ℕ (List ChainEdge))) (ps : List Pos) : Dict ℕ ℕ :=
  batches.foldl (fun B links => markBackwards links B ps) Dict.empty

/-- A position counts as reached backwards exactly when one on a chain with links covers it. -/
theorem backwards_iff (hs : ∀ l ∈ s.linkSet, 1 ≤ l.dstSeq) {chains : List ℕ} (hnd : chains.Nodup)
    {ps : List Pos} (hps : ∀ p ∈ ps, 1 ≤ p.2 ∧ p.1 ∈ chains) {c n : ℕ} (hn : 1 ≤ n) :
    n ≤ (backwardNumbers (getChainLinks s chains) ps).getD c 0 ↔
      ∃ p ∈ ps, (∃ l ∈ s.links, l.srcChain = p.1) ∧ Covers s.linkSet p (c, n) := by
  obtain ⟨hlab, hmarked⟩ := foldl_visited (fun B links => markBackwards links B ps)
    (fun pre (B : Dict ℕ ℕ) =>
      Labels s.linkSet {p | p ∈ ps ∧ ∃ l ∈ s.links, l.srcChain = p.1} ∅ B ∧
      ∀ p ∈ ps, (∃ links ∈ pre, p.1 ∈ links.keys) → p.2 ≤ B.getD p.1 0)
    (getChainLinks s chains) (s := Dict.empty) ⟨⟨by simp, by simp⟩, by simp⟩ (by
      rintro pre links post B hsplit ⟨hlab, hpre⟩
      obtain ⟨batch, _, hf⟩ := mem_getChainLinks s hnd (hsplit ▸ by simp : links ∈ getChainLinks s chains)
      obtain ⟨hl, hg, hown⟩ := markBackwards_spec hf hlab ps fun p hp hk => ⟨hp, ((hf.keys p.1).mp hk).2⟩
      refine ⟨hl, ?_⟩
      rintro p hp ⟨d, hd, hpd⟩
      rcases mem_concat.mp hd with hd | rfl
      · exact (hpre p hp ⟨d, hd, hpd⟩).trans (hg _)
      · exact hown p hp hpd)
  change Labels _ _ _ (backwardNumbers (getChainLinks s chains) ps) at hlab
  change ∀ p ∈ ps, _ → p.2 ≤ (backwardNumbers (getChainLinks s chains) ps).getD p.1 0 at hmarked
  set B := backwardNumbers (getChainLinks s chains) ps
  constructor
  · intro hle
    rcases hlab.sound (get?_of_getD_ne (k := c) (w := 0) (by omega)) with hp | ⟨p, hp, hr⟩
    · exact ⟨_, hp.1, hp.2, .inl ⟨rfl, hle⟩⟩
    · exact ⟨p, hp.1, hp.2, .inr ⟨_, hle, hr⟩⟩
  · rintro ⟨p, hp, hlinked, hcov⟩
    have hle := hmarked p hp (exists_getChainLinks s hnd (hps p hp).2 hlinked)
    rcases hcov with ⟨hc, hnp⟩ | ⟨u, hu, hr⟩
    · exact (show n ≤ p.2 from hnp).trans (hle.trans_eq (by rw [hc]))
    · have hone := (hps p hp).1
      have hw := (hlab.walked (get?_of_getD_ne (k := p.1) (w := 0) (by omega))).resolve_left id
      exact (show n ≤ u from hu).trans (hlab.reach_le hs hw (Reach.of_le (p := p) rfl hle hr))

end Backwards

/-! ### Reading the subgraph off the numbers -/

section Walks

variable (conflicted additional : List Pos)

theorem forwards_walks : ∀ (batches : List (Dict ℕ (List ChainEdge))) (w : Walks),
    (batches.foldl (Walks.batch true conflicted additional) w).forwards =
      batches.foldl (fun F links => accumulateForwardsReachableEvents F links conflicted) w.forwards
  | [], _ => rfl
  | links :: batches, w => by rw [foldl_cons, forwards_walks batches, Walks.batch]; rfl

theorem backwards_walks : ∀ (batches : List (Dict ℕ (List ChainEdge))) (w : Walks),
    (batches.foldl (Walks.batch true conflicted additional) w).backwards =
      batches.foldl (fun B links => markBackwards links B (conflicted ++ additional)) w.backwards
  | [], _ => rfl
  | links :: batches, w => by
    rw [foldl_cons, backwards_walks batches, Walks.batch, foldl_cons]
    simp only [if_true, markBackwards, foldl_append]

end Walks

variable {E T R : Type} [LinearOrder E] {auth : E → List E} {db : Db E T R}

theorem mem_subgraphGaps (hidx : CorrectIndex auth db) {D : Set E} {info : ChainInfo E}
    (hinfo : Info db D info) {w : Walks} (hone : ∀ {c f}, w.forwards.get? c = some f → 1 ≤ f) {e : E} :
    e ∈ addAll (subgraphGaps info w).1 (fetchEventIdsFromChains db (subgraphGaps info w).2) ↔
      ∃ c n, db.selectChain e = some (c, n) ∧ n ≤ w.backwards.getD c 0 ∧
        ∃ f, w.forwards.get? c = some f ∧ f ≤ n := by
  let gap : ℕ × ℕ → Option (ℕ × ℕ × ℕ) := fun p =>
    (w.forwards.get? p.1).bind fun f => if f > p.2 then none else some (p.1, f - 1, p.2)
  have hgap : ∀ {p r}, gap p = some r ↔ ∃ f, w.forwards.get? p.1 = some f ∧ f ≤ p.2 ∧
      r = (p.1, f - 1, p.2) := by
    intro p r
    simp only [gap]
    cases w.forwards.get? p.1 with
    | none => simp
    | some f =>
      by_cases hf : f > p.2
      · simp [hf, not_le.mpr hf]
      · simp [hf, not_lt.mp hf, eq_comm]
  have heq : subgraphGaps info w = collect info.chainToEvent (w.backwards.entries.filterMap gap) [] := by
    rw [subgraphGaps, collect, foldl_filterMap]
    congr 1
    funext st p
    cases hf : w.forwards.get? p.1 with
    | none => simp only [gap, hf, Option.bind_none]
    | some f =>
      simp only [gap, hf, Option.bind_some]
      by_cases hlt : f > p.2
      · simp only [if_pos hlt]
      · simp only [if_neg hlt, Nat.sub_add_cancel (hone hf)]
  have hnd : ((w.backwards.entries.filterMap gap).map Prod.fst).Nodup := by
    refine (filterMap_keys_sublist ?_ w.backwards.entries).nodup w.backwards.nodup
    intro p r hr
    obtain ⟨f, _, _, rfl⟩ := hgap.mp hr
    rfl
  rw [heq, mem_collected hidx hinfo.event hnd]
  simp only [not_mem_nil, false_or, mem_filterMap, hgap]
  constructor
  · rintro ⟨_, ⟨p, hp, f, hf, hle, rfl⟩, n, he, hlo, hhi⟩
    have hb := getD_of_get? (w := 0) (get?_eq_some_iff.mpr hp)
    have := hone hf
    exact ⟨p.1, n, he, hb ▸ hhi, f, hf, by simp only at hlo; omega⟩
  · rintro ⟨c, n, he, hle, f, hf, hfn⟩
    have h1 := hidx.one_le he
    refine ⟨_, ⟨(c, w.backwards.getD c 0), get?_eq_some_iff.mp (get?_of_getD_ne (by omega)), f,
      hf, hfn.trans hle, rfl⟩, n, he, ?_, hle⟩
    have := hone hf
    simp only
    omega

/-! ### The conflicted subgraph -/

/-- In the auth chain of a conflicted or additional event, with a conflicted event in its own; all
    auth chains inclusive. -/
def InSubgraph (auth : E → List E) (conflicted additional : List E) (e : E) : Prop :=
  Under auth (conflicted ++ additional) e ∧ ∃ z ∈ conflicted, BelowEq auth e z

/-- The chain has outgoing links. -/
def Linked (db : Db E T R) (c : ℕ) : Prop := ∃ l ∈ db.links.links, l.srcChain = c

/-- A conflicted or additional event on a chain without links, with a conflicted event at or below it
    on that chain, is in the auth chain of one on a chain with links. -/
def LinklessCovered (auth : E → List E) (db : Db E T R) (conflicted additional : List E) : Prop :=
  ∀ x ∈ conflicted ++ additional, ∀ c n, db.selectChain x = some (c, n) → ¬ Linked db c →
    (∃ z ∈ conflicted, ∃ m ≤ n, db.selectChain z = some (c, m)) →
    ∃ y ∈ conflicted ++ additional, ∃ p, db.selectChain y = some p ∧ Linked db p.1 ∧ BelowEq auth y x

/-- The batches in which the links are fetched. -/
def linkBatches (db : Db E T R) (order : List ℕ → List ℕ) (stateSets : List (List E)) :
    List (Dict ℕ (List ChainEdge)) :=
  getChainLinks db.links (order (initialInfo db stateSets).seenChains)

/-- Every event of the subgraph has a conflicted event at or below it on its chain, or is reached
    from one by links through chains that one batch returns for the first time. -/
def ReachedInOneBatch (auth : E → List E) (db : Db E T R)
    (batches : List (Dict ℕ (List ChainEdge))) (conflicted additional : List E) : Prop :=
  ∀ e, InSubgraph auth conflicted additional e → ∀ c n, db.selectChain e = some (c, n) →
    ∃ z ∈ conflicted, ∃ p, db.selectChain z = some p ∧ ((p.1 = c ∧ p.2 ≤ n) ∨
      ∃ i t, t ≤ n ∧ TransGen (UpIn db.links.linkSet batches i) p (c, t))

theorem covers_of_up {L : Set Link} {batches : List (Dict ℕ (List ChainEdge))} {i : ℕ} {p q : Pos}
    (h : TransGen (UpIn L batches i) p q) : Covers L q p := by
  have hone : ∀ {p q}, UpIn L batches i p q → Covers L q p := by
    rintro p q ⟨⟨a, ha, hm⟩, _⟩
    exact .inr ⟨a, ha, .single ⟨q.2, le_refl _, hm⟩⟩
  induction h with
  | single hu => exact hone hu
  | tail _ hu ih => exact (hone hu).trans ih

omit [LinearOrder E] in
/-- Nothing but lower positions of the chain is covered from a chain without links. -/
theorem covers_linkless {p q : Pos} (hp : ¬ Linked db p.1) (h : Covers db.links.linkSet p q) :
    p.1 = q.1 ∧ q.2 ≤ p.2 := by
  rcases h with h | ⟨t, _, hr⟩
  · exact h
  · exact absurd hr.exists_link hp

/-- On the backward side nothing is lost exactly when the linkless events are covered. -/
theorem linklessCovered_iff (hidx : CorrectIndex auth db) {conflicted additional : List E}
    (hpos : ∀ x ∈ conflicted ++ additional, db.Indexed x) :
    (∀ e, InSubgraph auth conflicted additional e → ∃ y ∈ conflicted ++ additional, ∃ p,
      db.selectChain y = some p ∧ Linked db p.1 ∧ BelowEq auth y e) ↔
    LinklessCovered auth db conflicted additional := by
  constructor
  · rintro h x hx c n hxp - ⟨z, hz, m, hm, hzp⟩
    exact h x ⟨⟨x, hx, .refl⟩, z, hz, (hidx.cover.belowEq_iff_covers hxp hzp).mpr (.inl ⟨rfl, hm⟩)⟩
  · rintro h e ⟨⟨x, hx, hxe⟩, z, hz, hez⟩
    obtain ⟨p, hxp⟩ := hpos x hx
    by_cases hl : Linked db p.1
    · exact ⟨x, hx, p, hxp, hl, hxe⟩
    · -- then everything from `x` down to `z` lies on one chain
      obtain ⟨q, heq⟩ := hidx.indexed_of_belowEq hxp hxe
      obtain ⟨r, hzr⟩ := hpos z (mem_append_left _ hz)
      obtain ⟨hpq, hqp⟩ := covers_linkless hl ((hidx.cover.belowEq_iff_covers hxp heq).mp hxe)
      obtain ⟨hqr, hrq⟩ := covers_linkless (hpq ▸ hl) ((hidx.cover.belowEq_iff_covers heq hzr).mp hez)
      obtain ⟨y, hy, py, hyp, hly, hyx⟩ := h x hx p.1 p.2 hxp hl
        ⟨z, hz, r.2, hrq.trans hqp, by rw [hzr, hpq, hqr]⟩
      exact ⟨y, hy, py, hyp, hly, hyx.trans hxe⟩

/-- The positions of events that have been fetched. -/
theorem positions_spec {D : Set E} {info : ChainInfo E} (h : Info db D info) {l : List E}
    (hl : ∀ x ∈ l, x ∈ D ∧ db.Indexed x) :
    ∃ ps, l.mapM info.chainInfo.get? = some ps ∧ ∀ p, p ∈ ps ↔ ∃ x ∈ l, db.selectChain x = some p := by
  refine ⟨l.map fun x => (db.selectChain x).getD (0, 0), mapM_eq_map fun x hx => ?_, fun p => ?_⟩
  · obtain ⟨hD, p, hp⟩ := hl x hx
    rw [h.position.mpr ⟨hD, hp⟩, hp, Option.getD_some]
  · rw [mem_map]
    refine exists_congr fun x => and_congr_right fun hx => ?_
    obtain ⟨_, q, hq⟩ := hl x hx
    rw [hq, Option.getD_some, Option.some.injEq]

/-- The source of a link is an indexed event. -/
theorem CorrectIndex.link_src (hidx : CorrectIndex auth db) {l : Link} (hl : l ∈ db.links.linkSet) :
    ∃ x, db.selectChain x = some (l.srcChain, l.srcSeq) := by
  obtain ⟨x, _, hx, _⟩ := hidx.cover.link_edge hl
  exact ⟨x, hidx.selectChain_of_selectEvent hx⟩

/-- Forward numbers are sequence numbers of indexed events. -/
theorem forwardNumbers_one_le (hidx : CorrectIndex auth db)
    {batches : List (Dict ℕ (List ChainEdge))} {C : List Pos}
    (hbs : ∀ d ∈ batches, ∃ batch, Fetched db.links batch d)
    (hC : ∀ p ∈ C, ∃ x, db.selectChain x = some p) (hlt : ∀ p ∈ C, p.2 < maxChainLength) {c f : ℕ}
    (hf : (forwardNumbers batches C).get? c = some f) : 1 ≤ f := by
  rcases (forwardNumbers_spec hbs hlt).sound hf with hp | ⟨i, _, p, _, hpath⟩
  · obtain ⟨x, hx⟩ := hC _ hp
    exact hidx.one_le hx
  · obtain ⟨_, _, hup, _⟩ := TransGen.tail'_iff.mp hpath
    obtain ⟨_, _, hm⟩ := hup
    obtain ⟨x, hx⟩ := hidx.link_src hm
    exact hidx.one_le hx

variable [DecidableEq R] {order : List ℕ → List ℕ} {stateSets : List (List E)}
  {conflicted additional : List E}

/-- Which events the query returns as the subgraph. -/
theorem conflictedSubgraph_spec (room : R) (hidx : CorrectIndex auth db)
    (hlen : ∀ e c n, db.selectChain e = some (c, n) → n < maxChainLength)
    (horder : ∀ l, (order l).Perm l) (hne : stateSets ≠ [])
    (hall : ∀ S ∈ stateSets, ∀ x ∈ S, db.Indexed x)
    (hsub : ∀ x ∈ conflicted ++ additional, ∃ S ∈ stateSets, x ∈ S) :
    ∃ d, getAuthChainDifferenceUsingCoverIndex db order room stateSets (some conflicted) additional = .ok d ∧
      ∀ e, e ∈ d.conflictedSubgraph ↔ ∃ c n, db.selectChain e = some (c, n) ∧
        (∃ y ∈ conflicted ++ additional, ∃ p, db.selectChain y = some p ∧ Linked db p.1 ∧ BelowEq auth y e) ∧
        ∃ z ∈ conflicted, ∃ p, db.selectChain z = some p ∧ ((p.1 = c ∧ p.2 ≤ n) ∨
          ∃ i t, t ≤ n ∧ TransGen (UpIn db.links.linkSet (linkBatches db order stateSets) i) p (c, t)) := by
  obtain ⟨hload, hset⟩ := loadSets_indexed room hidx hall
  set info := initialInfo db stateSets with hinfo
  have hpos : ∀ x ∈ conflicted ++ additional, (∃ S ∈ stateSets, x ∈ S) ∧ db.Indexed x := by
    intro x hx
    obtain ⟨S, hS, hxS⟩ := hsub x hx
    exact ⟨⟨S, hS, hxS⟩, hall S hS x hxS⟩
  obtain ⟨cp, hcp, hmem⟩ := positions_spec hset.info fun x hx => hpos x (mem_append_left _ hx)
  obtain ⟨ap, hap, hmem'⟩ := positions_spec hset.info fun x hx => hpos x (mem_append_right _ hx)
  have hboth : ∀ p, p ∈ cp ++ ap ↔ ∃ x ∈ conflicted ++ additional, db.selectChain x = some p := by
    intro p
    simp only [mem_append, hmem, hmem', or_and_right, exists_or]
  have hargs : argumentsValid (addAll [] stateSets.flatten) (some conflicted) additional = true := by
    simp only [argumentsValid, Bool.and_eq_true, all_eq_true, decide_eq_true_eq, mem_initialEvents]
    exact ⟨fun x hx => hsub x (mem_append_left _ hx), fun x hx => hsub x (mem_append_right _ hx)⟩
  have hMs := setChains_mapM hset
  rw [map_id] at hMs
  refine ⟨_, difference_eq hne hargs hload hcp hap hMs, fun e => ?_⟩
  -- the two walks of the batches, forwards from the conflicted events and backwards from all
  set w := walkLinks db order info true cp ap (stateSets.map fun S => (setChains info S).getD Dict.empty)
  have hfw : w.forwards = forwardNumbers (linkBatches db order stateSets) cp :=
    forwards_walks _ _ _ _
  have hbw : w.backwards = backwardNumbers (linkBatches db order stateSets) (cp ++ ap) :=
    backwards_walks _ _ _ _
  have hnd : (order info.seenChains).Nodup := (horder _).nodup_iff.mpr hset.info.nodup
  have hbs : ∀ d ∈ linkBatches db order stateSets, ∃ batch, Fetched db.links batch d := by
    intro d hd
    obtain ⟨batch, _, hf⟩ := mem_getChainLinks db.links hnd hd
    exact ⟨batch, hf⟩
  have hC : ∀ p ∈ cp, p.2 < maxChainLength := by
    intro p hp
    obtain ⟨x, _, hx⟩ := (hmem p).mp hp
    exact hlen x p.1 p.2 hx
  have hseen : ∀ p ∈ cp ++ ap, 1 ≤ p.2 ∧ p.1 ∈ order info.seenChains := by
    intro p hp
    obtain ⟨x, hx, hxp⟩ := (hboth p).mp hp
    exact ⟨hidx.one_le hxp, (horder _).mem_iff.mpr (hset.info.seen.mpr ⟨x, hsub x hx, p.2, hxp⟩)⟩
  have hsrc : ∀ l ∈ db.links.linkSet, l.srcSeq < maxChainLength := by
    intro l hl
    obtain ⟨x, hx⟩ := hidx.link_src hl
    exact hlen x _ _ hx
  have hone : ∀ {c f}, w.forwards.get? c = some f → 1 ≤ f := by
    intro c f hf
    rw [hfw] at hf
    refine forwardNumbers_one_le hidx hbs (fun p hp => ?_) hC hf
    obtain ⟨x, _, hx⟩ := (hmem p).mp hp
    exact ⟨x, hx⟩
  have hbatches : cp ≠ [] → linkBatches db order stateSets ≠ [] := by
    intro hcne
    obtain ⟨p, hp⟩ := exists_mem_of_ne_nil _ hcne
    exact getChainLinks_ne_nil _ (ne_nil_of_mem (hseen p (mem_append_left _ hp)).2)
  refine (mem_subgraphGaps hidx hset.info hone).trans ?_
  refine exists_congr fun c => exists_congr fun n => and_congr_right fun he => ?_
  rw [hfw, hbw, linkBatches, backwards_iff hidx.one_le_dst hnd hseen (hidx.one_le he), ← linkBatches,
    forwards_iff hbs hC hsrc hbatches (hlen e c n he)]
  refine and_congr ⟨?_, ?_⟩ ⟨?_, ?_⟩
  · rintro ⟨p, hp, hl, hcov⟩
    obtain ⟨y, hy, hyp⟩ := (hboth p).mp hp
    exact ⟨y, hy, p, hyp, hl, (hidx.cover.belowEq_iff_covers hyp he).mpr hcov⟩
  · rintro ⟨y, hy, p, hyp, hl, hye⟩
    exact ⟨p, (hboth p).mpr ⟨y, hy, hyp⟩, hl, (hidx.cover.belowEq_iff_covers hyp he).mp hye⟩
  · rintro ⟨p, hp, hpath⟩
    obtain ⟨z, hz, hzp⟩ := (hmem p).mp hp
    exact ⟨z, hz, p, hzp, hpath⟩
  · rintro ⟨z, hz, p, hzp, hpath⟩
    exact ⟨p, (hmem p).mpr ⟨z, hz, hzp⟩, hpath⟩

/-- Links that one batch has returned can be gone up again. -/
theorem up_of_reach {s : LinkStore} {batch : List ℕ} {links : Dict ℕ (List ChainEdge)} (hf : Fetched s batch links)
    {p q z : Pos} (h : Reach s.linkSet p q) (hp : ∃ b ∈ batch, BelowEq s.next b p.1) (hc : z.1 = q.1)
    (hz : z.2 ≤ q.2) : ∃ t ≤ p.2, TransGen (UpIn s.linkSet [links] 0) z (p.1, t) := by
  have hfirst : ∀ {r : Pos} {l : Link}, (∃ b ∈ batch, BelowEq s.next b r.1) → l ∈ s.links → l.srcChain = r.1 →
      firstBatch [links] r.1 = some 0 := fun hr hl hsrc => by
    simp [firstBatch, findIdx?_cons, (hf.keys _).mpr ⟨hr, _, hl, hsrc⟩]
  induction h using TransGen.head_induction_on with
  | single hfol =>
    obtain ⟨t, ht, hm⟩ := hfol
    exact ⟨t, ht, .single ⟨⟨q.2, hz, hc ▸ hm⟩, hfirst hp hm rfl⟩⟩
  | head hfol _ ih =>
    obtain ⟨t, ht, hm⟩ := hfol
    obtain ⟨b, hb, hbp⟩ := id hp
    obtain ⟨u, hu, hup⟩ := ih ⟨b, hb, hbp.tail (mem_next.mpr ⟨_, hm, rfl, rfl⟩)⟩
    exact ⟨t, ht, hup.tail ⟨⟨_, hu, hm⟩, hfirst hp hm rfl⟩⟩

/-- Chains that fit in one batch. -/
theorem reachedInOneBatch_of_few (room : R) (hidx : CorrectIndex auth db) (horder : ∀ l, (order l).Perm l)
    (hall : ∀ S ∈ stateSets, ∀ x ∈ S, db.Indexed x) (hsub : ∀ x ∈ conflicted ++ additional, ∃ S ∈ stateSets, x ∈ S)
    (hfew : (initialInfo db stateSets).seenChains.length ≤ 1000) :
    ReachedInOneBatch auth db (linkBatches db order stateSets) conflicted additional := by
  obtain ⟨-, hset⟩ := loadSets_indexed room hidx hall
  rintro e ⟨⟨x, hx, hxe⟩, z, hz, hez⟩ c n he
  obtain ⟨S, hS, hxS⟩ := hsub x hx
  obtain ⟨S', hS', hzS'⟩ := hsub z (mem_append_left _ hz)
  obtain ⟨p, hxp⟩ := hall S hS x hxS
  obtain ⟨q, hzq⟩ := hall S' hS' z hzS'
  have hchain : p.1 ∈ order (initialInfo db stateSets).seenChains :=
    (horder _).mem_iff.mpr (hset.info.seen.mpr ⟨x, ⟨S, hS, hxS⟩, p.2, hxp⟩)
  refine ⟨z, hz, q, hzq, ?_⟩
  rcases (hidx.cover.belowEq_iff_covers he hzq).mp hez with ⟨hc, hle⟩ | ⟨t, ht, hr⟩
  · exact .inl ⟨hc.symm, hle⟩
  have hbelow : BelowEq db.links.next p.1 c := by
    rcases (hidx.cover.belowEq_iff_covers hxp he).mp hxe with ⟨hc, -⟩ | ⟨t, -, hr⟩
    · exact hc ▸ .refl
    · exact hr.to_reflTransGen.lift Prod.fst fun _ _ ⟨_, _, hm⟩ => mem_next.mpr ⟨_, hm, rfl, rfl⟩
  obtain ⟨u, hu, hup⟩ := up_of_reach (z := q) (fetched db.links ((horder _).nodup_iff.mpr hset.info.nodup)) hr
    ⟨p.1, hchain, hbelow⟩ rfl ht
  rw [linkBatches, getChainLinks_few _ (ne_nil_of_mem hchain) ((horder _).length_eq.trans_le hfew)]
  exact .inr ⟨0, u, hu, hup⟩

/-- The query returns the conflicted subgraph exactly when there is a state set, the linkless events
    are covered and the forward paths stay within one batch. -/
theorem conflicted_subgraph_iff {room : R} (hidx : CorrectIndex auth db)
    (hlen : ∀ e c n, db.selectChain e = some (c, n) → n < maxChainLength)
    (horder : ∀ l, (order l).Perm l)
    (hall : ∀ S ∈ stateSets, ∀ x ∈ S, ∃ p, db.selectChain x = some p)
    (hsub : ∀ x ∈ conflicted ++ additional, ∃ S ∈ stateSets, x ∈ S) :
    (∃ d, getAuthChainDifferenceUsingCoverIndex db order room stateSets (some conflicted) additional =
        .ok d ∧ ∀ e, e ∈ d.conflictedSubgraph ↔ InSubgraph auth conflicted additional e) ↔
    stateSets ≠ [] ∧ LinklessCovered auth db conflicted additional ∧
      ReachedInOneBatch auth db (linkBatches db order stateSets) conflicted additional := by
  by_cases hne : stateSets = []
  · simp [getAuthChainDifferenceUsingCoverIndex, hne]
  have hpos : ∀ x ∈ conflicted ++ additional, ∃ p, db.selectChain x = some p := by
    intro x hx
    obtain ⟨S, hS, hxS⟩ := hsub x hx
    exact hall S hS x hxS
  obtain ⟨d, hd, hmem⟩ := conflictedSubgraph_spec room hidx hlen horder hne hall hsub
  rw [← linklessCovered_iff hidx hpos, and_iff_right hne]
  constructor
  · rintro ⟨d', hd', hexact⟩
    obtain rfl := Except.ok.inj (hd'.symm.trans hd)
    refine ⟨fun e he => ?_, fun e he c n hp => ?_⟩
    · obtain ⟨_, _, _, hback, _⟩ := (hmem e).mp ((hexact e).mpr he)
      exact hback
    · obtain ⟨c', n', hp', _, hfw⟩ := (hmem e).mp ((hexact e).mpr he)
      obtain ⟨rfl, rfl⟩ := Prod.mk.inj (Option.mem_unique hp' hp)
      exact hfw
  · rintro ⟨hback, hfw⟩
    refine ⟨d, hd, fun e => (hmem e).trans ⟨?_, fun he => ?_⟩⟩
    · rintro ⟨c, n, hp, ⟨y, hy, _, _, _, hye⟩, z, hz, q, hzq, hpath⟩
      refine ⟨⟨y, hy, hye⟩, z, hz, (hidx.cover.belowEq_iff_covers hp hzq).mpr ?_⟩
      rcases hpath with ⟨hc, hle⟩ | ⟨i, t, ht, hup⟩
      · exact .inl ⟨hc.symm, hle⟩
      · exact Covers.trans (q := (c, t)) (.inl ⟨rfl, ht⟩) (covers_of_up hup)
    · obtain ⟨y, hy, p, hyp, hl, hye⟩ := hback e he
      obtain ⟨⟨c, n⟩, hp⟩ := hidx.indexed_of_belowEq hyp hye
      exact ⟨c, n, hp, ⟨y, hy, p, hyp, hl, hye⟩, hfw e he c n hp⟩

theorem roomDb_short : ∀ e c n, roomDb.selectChain e = some (c, n) → n < maxChainLength := by
  intro e c n he
  have hrow : ∀ r ∈ roomDb.chains, r.2.2 < maxChainLength := by decide
  exact hrow _ (roomDb_correct.mem_chains.mpr he)

theorem roomDb_sets : ∀ S ∈ [[0], [3]], ∀ x ∈ S, ∃ p, roomDb.selectChain x = some p := by
  intro S hS x hx
  rcases mem_cons.mp hS with rfl | hS
  · obtain rfl := mem_singleton.mp hx
    exact ⟨_, rfl⟩
  · rw [mem_singleton.mp hS] at hx
    obtain rfl := mem_singleton.mp hx
    exact ⟨_, rfl⟩

/-- With both the create and the member event conflicted the subgraph is found: the create event's
    chain has no links, but it is below the member event, whose chain has. -/
theorem conflicted_subgraph_room :
    ∃ d, getAuthChainDifferenceUsingCoverIndex roomDb id 0 [[0], [3]] (some [0, 3]) [] = .ok d ∧
      ∀ e, e ∈ d.conflictedSubgraph ↔ InSubgraph roomAuth [0, 3] [] e := by
  have hsub : ∀ x ∈ [0, 3] ++ [], ∃ S ∈ [[0], [3]], x ∈ S := by decide
  refine (conflicted_subgraph_iff roomDb_correct roomDb_short (fun l => List.Perm.refl l) roomDb_sets
    hsub).mpr ⟨by decide, ?_, reachedInOneBatch_of_few 0 roomDb_correct (fun l => List.Perm.refl l) roomDb_sets
      hsub (by decide)⟩
  have h30 : BelowEq roomAuth 3 0 := .single ((.head _) : 0 ∈ [0, 2, 1])
  intro x hx c n hxp hl hz
  rcases mem_cons.mp hx with rfl | hx
  · exact ⟨3, by decide, (2, 2), rfl, ⟨⟨2, 1, 1, 1⟩, by decide, rfl⟩, h30⟩
  · obtain rfl := mem_singleton.mp hx
    exact ⟨3, by decide, (2, 2), rfl, ⟨⟨2, 1, 1, 1⟩, by decide, rfl⟩, .refl⟩

/-- With only the create event conflicted the subgraph is the create event, and nothing is found:
    its chain has no links, so it is not even marked as reachable from itself. -/
theorem conflicted_subgraph_linkless : CorrectIndex roomAuth roomDb ∧
    (∀ S ∈ [[0], [3]], ∀ x ∈ S, ∃ p, roomDb.selectChain x = some p) ∧
    InSubgraph roomAuth [0] [] 0 ∧
    ∃ d, getAuthChainDifferenceUsingCoverIndex roomDb id 0 [[0], [3]] (some [0]) [] = .ok d ∧
      d.conflictedSubgraph = [] :=
  ⟨roomDb_correct, roomDb_sets, ⟨⟨0, by decide, .refl⟩, 0, by decide, .refl⟩, _, rfl, rfl⟩

end Sithnapse.AuthChain
