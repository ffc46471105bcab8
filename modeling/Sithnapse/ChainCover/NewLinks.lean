import Sithnapse.ChainCover.Calculate

/-! The second half of the calculation: which links the new events get.

    For every auth event of a new event, in any order of events, one of three things holds at the
    end: it is on the event's own chain, it got a link, or another auth event of the same event
    reaches it through stored or new links (`Linked.edges`). -/

namespace Sithnapse.ChainCover
open Kit Kit.Dict Kit.Chain List

variable {E : Type} [LinearOrder E]

/-! ### Loading the stored links -/

theorem loadLinks_spec (s : LinkStore) (hleave : ∀ l ∈ s.links, l.srcChain ≠ l.dstChain)
    {chains : List ℕ} (hnd : chains.Nodup) :
    ∃ m, loadLinks (getChainLinks s chains) = some m ∧ m.linkSet ⊆ s.linkSet := by
  refine foldlM_visited _ (fun _ m => LinkMap.linkSet m ⊆ s.linkSet) _
    (by rw [LinkMap.linkSet_empty]; exact Set.empty_subset _) ?_
  rintro pre d post m hd hm
  obtain ⟨batch, _, hf⟩ := mem_getChainLinks s hnd (hd ▸ by simp : d ∈ getChainLinks s chains)
  refine foldlM_visited _ (fun _ m => LinkMap.linkSet m ⊆ s.linkSet) _ hm ?_
  rintro pre' ⟨c, es⟩ post' m' hc hm'
  have hget : d.get? c = some es := get?_eq_some_iff.mpr (hc ▸ by simp)
  refine foldlM_visited _ (fun _ m => LinkMap.linkSet m ⊆ s.linkSet) _ hm' ?_
  rintro pre'' x post'' m'' hx hm''
  have hmem : edgeLink c x ∈ s.links := by
    rw [← hf.edges c (mem_keys_iff.mpr ⟨es, hget⟩) x, getD_of_get? hget]
    simp only at hx
    rw [hx]
    simp
  obtain ⟨m₁, b, hadd⟩ := m''.addLink_isSome (c, x.1) x.2 false (hleave _ hmem)
  refine ⟨m₁, by simp [hadd], ?_⟩
  intro l hl
  rcases Set.mem_insert_iff.mp (LinkMap.linkSet_addLink hadd hl) with rfl | hl
  · exact hmem
  · exact hm'' hl

/-! ### Dropping reachable auth events -/

omit [LinearOrder E] in
theorem mem_permutations2 {l : List E} {x y : E} :
    (x, y) ∈ permutations2 l ↔ ∃ i j : ℕ, i ≠ j ∧ l[i]? = some x ∧ l[j]? = some y := by
  simp only [permutations2, mem_flatMap, mem_map, mem_filter, Prod.mk.injEq,
    decide_eq_true_eq, Prod.exists, mem_zipIdx_iff_getElem?]
  constructor
  · rintro ⟨a, i, hi, b, j, ⟨hj, hne⟩, rfl, rfl⟩
    exact ⟨i, j, Ne.symm hne, hi, hj⟩
  · rintro ⟨i, j, hne, hi, hj⟩
    exact ⟨x, i, hi, y, j, ⟨hj, Ne.symm hne⟩, rfl, rfl⟩

omit [LinearOrder E] in
/-- With no auth event listed twice, the pairs are pairs of different auth events. -/
theorem ne_of_mem_permutations2 {l : List E} (hnd : l.Nodup) {x y : E}
    (h : (x, y) ∈ permutations2 l) : x ∈ l ∧ y ∈ l ∧ x ≠ y := by
  obtain ⟨i, j, hne, hi, hj⟩ := mem_permutations2.mp h
  refine ⟨mem_of_getElem? hi, mem_of_getElem? hj, ?_⟩
  rintro rfl
  obtain ⟨hi', hix⟩ := List.getElem?_eq_some_iff.mp hi
  obtain ⟨hj', hjx⟩ := List.getElem?_eq_some_iff.mp hj
  exact hne ((List.Nodup.getElem_inj_iff hnd).mp (hix.trans hjx.symm))

/-- What survives the reduction: auth events on other chains; what does not is on the event's chain
    or covered by another auth event. -/
theorem reduceAuth_spec {m : LinkMap} {chainMap : Dict E Pos} {auths : List E} (hnd : auths.Nodup)
    (hmap : ∀ a ∈ auths, ∃ p, chainMap.get? a = some p) (chainId : ℕ) :
    ∃ red, reduceAuth m chainMap auths chainId = some red ∧
      (∀ a ∈ red, a ∈ auths ∧ ∀ p, chainMap.get? a = some p → p.1 ≠ chainId) ∧
      ∀ a ∈ auths, ∀ q, chainMap.get? a = some q → q.1 = chainId ∨ a ∈ red ∨
        ∃ b ∈ auths, b ≠ a ∧ ∃ r, chainMap.get? b = some r ∧ Covers m.linkSet r q := by
  have hpos : auths.mapM (fun a => (chainMap.get? a).map fun p => (a, p)) =
      some (auths.map fun a => (a, chainMap.getD a (0, 0))) := by
    refine mapM_eq_map fun a ha => ?_
    obtain ⟨p, hp⟩ := hmap a ha
    rw [hp, getD_of_get? hp]
    rfl
  have hinit : ∀ a, a ∈ addAll [] (((auths.map fun a => (a, chainMap.getD a (0, 0))).filter
      (·.2.1 ≠ chainId)).map Prod.fst) ↔ a ∈ auths ∧ (chainMap.getD a (0, 0)).1 ≠ chainId := by
    intro a
    simp only [mem_addAll, not_mem_nil, false_or, mem_map, mem_filter, decide_eq_true_eq]
    constructor
    · rintro ⟨_, ⟨⟨x, hx, rfl⟩, hne⟩, rfl⟩
      exact ⟨hx, hne⟩
    · rintro ⟨ha, hne⟩
      exact ⟨_, ⟨⟨a, ha, rfl⟩, hne⟩, rfl⟩
  obtain ⟨red, hred, hsub, hcov⟩ := foldlM_visited (reduceStep m chainMap)
    (fun _ red => (∀ a ∈ red, a ∈ auths ∧ ∀ p, chainMap.get? a = some p → p.1 ≠ chainId) ∧
      ∀ a ∈ auths, ∀ q, chainMap.get? a = some q → q.1 = chainId ∨ a ∈ red ∨
        ∃ b ∈ auths, b ≠ a ∧ ∃ r, chainMap.get? b = some r ∧ Covers m.linkSet r q)
    (permutations2 auths) (s := addAll [] (((auths.map fun a => (a, chainMap.getD a (0, 0))).filter
      (·.2.1 ≠ chainId)).map Prod.fst))
    ⟨fun a ha => ⟨((hinit a).mp ha).1, fun p hp => by
        have := ((hinit a).mp ha).2
        rwa [getD_of_get? hp] at this⟩,
      fun a ha q hq => by
        by_cases hc : q.1 = chainId
        · exact .inl hc
        · exact .inr (.inl ((hinit a).mpr ⟨ha, by rwa [getD_of_get? hq]⟩))⟩
    (by
      rintro pre ⟨x, y⟩ post red hsplit ⟨hsub, hcov⟩
      obtain ⟨hx, hy, hne⟩ := ne_of_mem_permutations2 hnd (hsplit ▸ by simp : (x, y) ∈ permutations2 auths)
      obtain ⟨px, hpx⟩ := hmap x hx
      obtain ⟨py, hpy⟩ := hmap y hy
      obtain ⟨b, hb⟩ := m.existsPathFrom_total px py
      refine ⟨if b then red.filter (· ≠ y) else red, by simp [reduceStep, hpx, hpy, hb], ?_⟩
      cases b with
      | false => exact ⟨hsub, hcov⟩
      | true =>
        refine ⟨fun a ha => hsub a (mem_filter.mp ha).1, fun a ha q hq => ?_⟩
        rcases eq_or_ne a y with rfl | hay
        · obtain rfl : q = py := Option.mem_unique hq hpy
          exact .inr (.inr ⟨x, hx, hne, px, hpx, LinkMap.existsPathFrom_sound hb⟩)
        · refine (hcov a ha q hq).imp_right fun h => h.imp_left fun har => ?_
          exact mem_filter.mpr ⟨har, by simpa using hay⟩)
  exact ⟨red, by simp only [reduceAuth, hpos, Option.bind_eq_bind, Option.bind_some, hred], hsub, hcov⟩

/-! ### Recording the links -/

theorem mem_newChainLinks {ret : Dict E NewEventChainLinks} {l : Link} :
    l ∈ newChainLinks ret ↔ ∃ e x, ret.get? e = some x ∧ ∃ q ∈ x.links,
      l = ⟨x.chainId, x.sequenceNumber, q.1, q.2⟩ := by
  simp only [newChainLinks, mem_flatMap, mem_map, get?_eq_some_iff]
  constructor
  · rintro ⟨⟨e, x⟩, hx, q, hq, rfl⟩
    exact ⟨e, x, hx, q, hq, rfl⟩
  · rintro ⟨e, x, hx, q, hq, rfl⟩
    exact ⟨(e, x), hx, q, hq, rfl⟩

/-- State of the link loop once the events `pre` have been visited. `L` are the stored links. -/
structure Linked (auth : E → List E) (chainMap : Dict E Pos) (L : Set Link) (order pre : List E)
    (st : LinkMap × Dict E NewEventChainLinks) : Prop where
  keys : st.2.keys = order
  pos : ∀ {e x}, st.2.get? e = some x → chainMap.get? e = some (x.chainId, x.sequenceNumber)
  later : ∀ {e x}, st.2.get? e = some x → e ∉ pre → x.links = []
  sound : ∀ {e x q}, st.2.get? e = some x → q ∈ x.links →
    x.chainId ≠ q.1 ∧ ∃ a ∈ auth e, chainMap.get? a = some q
  map : st.1.linkSet ⊆ L ∪ {l | l ∈ newChainLinks st.2}
  edges : ∀ {e x}, e ∈ pre → st.2.get? e = some x → ∀ a ∈ auth e, ∃ q, chainMap.get? a = some q ∧
    (x.chainId = q.1 ∨ q ∈ x.links ∨ ∃ b ∈ auth e, b ≠ a ∧ ∃ r, chainMap.get? b = some r ∧
      Covers (L ∪ {l | l ∈ newChainLinks st.2}) r q)

section LinkLoop

variable {auth : E → List E} {chainMap : Dict E Pos} {authChain : Dict E (List E)} {L : Set Link}
  {order pre : List E} {st : LinkMap × Dict E NewEventChainLinks} {event : E}

/-- The links of one event are appended to its entry and nothing else changes. -/
theorem addEventLinks_spec (m : LinkMap) {ret : Dict E NewEventChainLinks} {x : NewEventChainLinks}
    (hx : ret.get? event = some x) (src : Pos) {red : List E}
    (hred : ∀ a ∈ red, ∃ q, chainMap.get? a = some q ∧ src.1 ≠ q.1) :
    ∃ st', red.foldlM (addEventLink chainMap event src) (m, ret) = some st' ∧
      st'.2.keys = ret.keys ∧ (∀ e, e ≠ event → st'.2.get? e = ret.get? e) ∧
      (∃ links, st'.2.get? event = some ⟨x.chainId, x.sequenceNumber, links⟩ ∧
        ∀ q, q ∈ links ↔ q ∈ x.links ∨ ∃ a ∈ red, chainMap.get? a = some q) ∧
      st'.1.linkSet ⊆ m.linkSet ∪ {l | ∃ a ∈ red, ∃ q, chainMap.get? a = some q ∧
        l = ⟨src.1, src.2, q.1, q.2⟩} := by
  refine foldlM_visited _ (fun done (st' : LinkMap × Dict E NewEventChainLinks) =>
    st'.2.keys = ret.keys ∧ (∀ e, e ≠ event → st'.2.get? e = ret.get? e) ∧
      (∃ links, st'.2.get? event = some ⟨x.chainId, x.sequenceNumber, links⟩ ∧
        ∀ q, q ∈ links ↔ q ∈ x.links ∨ ∃ a ∈ done, chainMap.get? a = some q) ∧
      st'.1.linkSet ⊆ m.linkSet ∪ {l | ∃ a ∈ done, ∃ q, chainMap.get? a = some q ∧
        l = ⟨src.1, src.2, q.1, q.2⟩}) red
    ⟨rfl, fun _ _ => rfl, ⟨x.links, hx, by simp⟩, by simp⟩ ?_
  rintro done a post ⟨m₁, ret₁⟩ hsplit ⟨hkeys, hother, ⟨links, hlinks, hmem⟩, hmap⟩
  obtain ⟨q, hq, hne⟩ := hred a (hsplit ▸ by simp)
  obtain ⟨m₂, b, hadd⟩ := m₁.addLink_isSome src q true hne
  refine ⟨(m₂, ret₁.set event ⟨x.chainId, x.sequenceNumber, links ++ [q]⟩), ?_, ?_, ?_, ?_, ?_⟩
  · simp [addEventLink, hq, hlinks, hadd]
  · rw [keys_set_of_mem _ (mem_keys_iff.mpr ⟨_, hlinks⟩), hkeys]
  · intro e he
    rw [get?_set_ne _ _ he, hother e he]
  · refine ⟨links ++ [q], get?_set_self _ _ _, fun q' => ?_⟩
    simp only [mem_append, mem_singleton, or_and_right, exists_or, exists_eq_left]
    rw [hmem q', hq, Option.some.injEq, or_assoc, eq_comm (a := q)]
  · intro l hl
    rcases Set.mem_insert_iff.mp (LinkMap.linkSet_addLink hadd hl) with rfl | hl
    · exact .inr ⟨a, by simp, q, hq, rfl⟩
    · exact (hmap hl).imp_right fun ⟨a', ha', h⟩ => ⟨a', mem_append_left _ ha', h⟩

/-- One event of the loop. -/
theorem Linked.step (h : Linked auth chainMap L order pre st) (he : event ∈ order)
    (hpre : event ∉ pre) (hauths : ∀ a, a ∈ authChain.getD event [] ↔ a ∈ auth event)
    (hnd : (authChain.getD event []).Nodup)
    (hknown : ∀ a ∈ auth event, ∃ p, chainMap.get? a = some p) :
    ∃ st', linkEvent chainMap authChain st event = some st' ∧
      Linked auth chainMap L order (pre ++ [event]) st' := by
  obtain ⟨m, ret⟩ := st
  obtain ⟨x, hx⟩ := mem_keys_iff.mp (h.keys ▸ he : event ∈ ret.keys)
  have hpos := h.pos hx
  obtain ⟨red, hredeq, hredsub, hredcov⟩ := reduceAuth_spec (m := m) hnd
    (fun a ha => hknown a ((hauths a).mp ha)) x.chainId
  have hred : ∀ a ∈ red, ∃ q, chainMap.get? a = some q ∧ x.chainId ≠ q.1 := by
    intro a ha
    obtain ⟨q, hq⟩ := hknown a ((hauths a).mp (hredsub a ha).1)
    exact ⟨q, hq, Ne.symm ((hredsub a ha).2 q hq)⟩
  obtain ⟨⟨m', ret'⟩, hst, hkeys, hother, ⟨links, hlinks, hmem⟩, hmap⟩ :=
    addEventLinks_spec m hx (x.chainId, x.sequenceNumber) hred
  have hcases : ∀ {e y}, ret'.get? e = some y →
      (e = event ∧ y = ⟨x.chainId, x.sequenceNumber, links⟩) ∨ (e ≠ event ∧ ret.get? e = some y) := by
    intro e y hy
    rcases eq_or_ne e event with rfl | hee
    · exact .inl ⟨rfl, Option.mem_unique hy hlinks⟩
    · exact .inr ⟨hee, hother e hee ▸ hy⟩
  have hnew : ∀ q ∈ links, (⟨x.chainId, x.sequenceNumber, q.1, q.2⟩ : Link) ∈ newChainLinks ret' :=
    fun q hq => mem_newChainLinks.mpr ⟨event, _, hlinks, q, hq, rfl⟩
  have hmono : {l | l ∈ newChainLinks ret} ⊆ {l | l ∈ newChainLinks ret'} := by
    intro l hl
    obtain ⟨e, y, hy, q, hq, rfl⟩ := mem_newChainLinks.mp hl
    rcases eq_or_ne e event with rfl | hee
    · obtain rfl : x = y := Option.mem_unique hx hy
      exact hnew q ((hmem q).mpr (.inl hq))
    · exact mem_newChainLinks.mpr ⟨e, y, (hother e hee).trans hy, q, hq, rfl⟩
  refine ⟨(m', ret'), ?_, hkeys.trans h.keys, ?_, ?_, ?_, ?_, ?_⟩
  · simp only [linkEvent, hpos, Option.bind_eq_bind, Option.bind_some, hredeq, hst]
  · intro e y hy
    rcases hcases hy with ⟨rfl, rfl⟩ | ⟨_, hy⟩
    · exact hpos
    · exact h.pos hy
  · intro e y hy hep
    rw [mem_append, not_or] at hep
    rcases hcases hy with ⟨rfl, _⟩ | ⟨_, hy⟩
    · exact absurd (mem_singleton.mpr rfl) hep.2
    · exact h.later hy hep.1
  · intro e y q hy hq
    rcases hcases hy with ⟨rfl, rfl⟩ | ⟨_, hy⟩
    · rcases (hmem q).mp hq with hq | ⟨a, ha, hq⟩
      · exact h.sound (x := x) hx hq
      · obtain ⟨q', hq', hne⟩ := hred a ha
        obtain rfl : q = q' := Option.mem_unique hq hq'
        exact ⟨hne, a, (hauths a).mp (hredsub a ha).1, hq⟩
    · exact h.sound hy hq
  · intro l hl
    rcases hmap hl with hl | ⟨a, ha, q, hq, rfl⟩
    · exact (h.map hl).imp_right fun hl => hmono hl
    · exact .inr (hnew q ((hmem q).mpr (.inr ⟨a, ha, hq⟩)))
  · intro e y hep hy a ha
    rcases hcases hy with ⟨rfl, rfl⟩ | ⟨hee, hy⟩
    · obtain ⟨q, hq⟩ := hknown a ha
      refine ⟨q, hq, ?_⟩
      rcases hredcov a ((hauths a).mpr ha) q hq with hc | har | ⟨b, hb, hne, r, hr, hcov⟩
      · exact .inl hc.symm
      · exact .inr (.inl ((hmem q).mpr (.inr ⟨a, har, hq⟩)))
      · exact .inr (.inr ⟨b, (hauths b).mp hb, hne, r, hr,
          hcov.mono (h.map.trans (Set.union_subset_union_right _ hmono))⟩)
    · have hep' : e ∈ pre := (mem_append.mp hep).resolve_right fun hc => hee (mem_singleton.mp hc)
      obtain ⟨q, hq, hcase⟩ := h.edges hep' hy a ha
      refine ⟨q, hq, hcase.imp_right fun hcase => hcase.imp_right ?_⟩
      rintro ⟨b, hb, hne, r, hr, hcov⟩
      exact ⟨b, hb, hne, r, hr, hcov.mono (Set.union_subset_union_right _ hmono)⟩

end LinkLoop

end Sithnapse.ChainCover
