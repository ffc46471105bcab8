import Sithnapse.ChainCover.Runs
import Sithnapse.AuthChain.Difference

/-! What the walk over the links computes, and how events are read off it.

    After all batches a state set's map holds, for every chain, the highest position its events
    cover (`reached_iff`); collecting a list of ranges, partly from memory and partly from the
    table, yields exactly the events in the ranges (`mem_collected`). -/

namespace Sithnapse.AuthChain
open Kit Kit.Dict Kit.Chain ChainCover Iterutils List

variable {E T R : Type} [LinearOrder E] {auth : E → List E} {db : Db E T R}

/-- A correct chain cover index of the events that have a position. -/
structure CorrectIndex (auth : E → List E) (db : Db E T R) : Prop where
  keyed : (db.chains.map Prod.fst).Nodup
  placed : (db.chains.map Prod.snd).Nodup
  cover : Cover auth db.selectChain db.selectEvent db.links.linkSet

/-- Committed batches produce one. -/
theorem correctIndex_of_indexed (h : Indexed auth db) : CorrectIndex auth db :=
  ⟨h.tables.keyed, h.tables.placed, h.cover⟩

namespace CorrectIndex

variable (h : CorrectIndex auth db) {e : E} {p : Pos}

include h

theorem mem_chains : (e, p) ∈ db.chains ↔ db.selectChain e = some p :=
  (lookupIn_eq_some h.keyed).symm

theorem selectChain_of_selectEvent (he : db.selectEvent p = some e) : db.selectChain e = some p := by
  have hkeys : ((db.chains.map Prod.swap).map Prod.fst).Nodup := by
    rw [map_map]
    exact h.placed
  obtain ⟨r, hr, hswap⟩ := mem_map.mp ((lookupIn_eq_some hkeys).mp he)
  obtain rfl : r = (e, p) := Prod.swap_injective hswap
  exact h.mem_chains.mp hr

theorem one_le {c n : ℕ} (he : db.selectChain e = some (c, n)) : 1 ≤ n :=
  h.cover.one_le (h.cover.slot_pos he)

theorem one_le_dst : ∀ l ∈ db.links.linkSet, 1 ≤ l.dstSeq := by
  intro l hl
  obtain ⟨_, _, _, hy, _⟩ := h.cover.link_edge hl
  exact h.cover.one_le hy

/-- The indexed events are closed under going down. -/
theorem indexed_of_belowEq {x : E} (hx : db.selectChain x = some p) (hb : BelowEq auth x e) :
    db.Indexed e := by
  rcases belowEq_iff.mp hb with rfl | hb
  · exact ⟨p, hx⟩
  · obtain ⟨q, hq, _⟩ := h.cover.below_covered hx hb
    exact ⟨q, hq⟩

end CorrectIndex

theorem roomDb_correct : CorrectIndex roomAuth roomDb :=
  correctIndex_of_indexed (roomDb_reachable.indexed roomAuth_acyclic roomAuth_nodup)

/-! ### Positions in memory -/

/-- The positions of the events in `D` have been fetched. -/
structure Info (db : Db E T R) (D : Set E) (i : ChainInfo E) : Prop where
  position : ∀ {e p}, i.chainInfo.get? e = some p ↔ e ∈ D ∧ db.selectChain e = some p
  event : ∀ {c n e}, (i.chainToEvent.getD c Dict.empty).get? n = some e → db.selectChain e = some (c, n)
  seen : ∀ {c}, c ∈ i.seenChains ↔ ∃ e ∈ D, ∃ n, db.selectChain e = some (c, n)
  nodup : i.seenChains.Nodup

theorem info_empty : Info db ∅ (ChainInfo.empty : ChainInfo E) := by
  refine ⟨?_, ?_, ?_, nodup_nil⟩
  · simp [ChainInfo.empty]
  · simp [ChainInfo.empty]
  · simp [ChainInfo.empty]

variable {i : ChainInfo E} {M : Dict ℕ ℕ}

theorem Info.row {D : Set E} (h : Info db D i) {e : E} {p : Pos}
    (he : db.selectChain e = some p) : Info db (insert e D) (i.row (e, p)) := by
  refine ⟨?_, ?_, ?_, nodup_addIf _ h.nodup⟩
  · intro x q
    rw [ChainInfo.row, get?_set]
    rcases eq_or_ne x e with rfl | hx
    · simp [he]
    · simp [hx, h.position]
  · intro c n x hx
    rw [ChainInfo.row, getD_set] at hx
    split_ifs at hx with hc
    · rcases get?_set_cases hx with ⟨hn, rfl⟩ | hx
      · rw [hc, hn]
        exact he
      · exact h.event (hc ▸ hx)
    · exact h.event hx
  · intro c
    simp only [ChainInfo.row, mem_addIf, h.seen, Set.mem_insert_iff, exists_eq_or_imp]
    rw [or_comm]
    refine or_congr_left ⟨?_, ?_⟩
    · rintro rfl
      exact ⟨p.2, he⟩
    · rintro ⟨n, hn⟩
      rw [Option.mem_unique he hn]

theorem Info.congr {D D' : Set E} (h : Info db D i)
    (hD : ∀ e p, db.selectChain e = some p → (e ∈ D ↔ e ∈ D')) : Info db D' i := by
  refine ⟨?_, h.event, ?_, h.nodup⟩
  · intro e p
    rw [h.position]
    exact and_congr_left fun hp => hD e p hp
  · intro c
    rw [h.seen]
    exact exists_congr fun e => ⟨fun ⟨he, n, hn⟩ => ⟨(hD e _ hn).mp he, n, hn⟩,
      fun ⟨he, n, hn⟩ => ⟨(hD e _ hn).mpr he, n, hn⟩⟩

theorem Info.fetch {D : Set E} (hidx : CorrectIndex auth db) (h : Info db D i)
    (events : List E) : Info db (D ∪ {e | e ∈ events}) (fetchChainInfo db i events) := by
  have hrows : ∀ (D : Set E) (i : ChainInfo E) (l : List (E × Pos)), Info db D i →
      (∀ r ∈ l, r ∈ db.chains) →
      Info db (D ∪ {e | e ∈ l.map Prod.fst}) (l.foldl ChainInfo.row i) := by
    intro D i l hi hl
    refine foldl_visited ChainInfo.row
      (fun pre i => Info db (D ∪ {e | e ∈ pre.map Prod.fst}) i) l (by simpa using hi) ?_
    rintro pre ⟨e, p⟩ post i hsplit hi
    refine (hi.row (hidx.mem_chains.mp (hl (e, p) (hsplit ▸ by simp)))).congr ?_
    intro x q _
    simp only [Set.mem_insert_iff, Set.mem_union, Set.mem_ofPred_eq, map_append, mem_append,
      map_cons, map_nil, mem_singleton]
    tauto
  have hbatches := foldl_visited
    (fun (i : ChainInfo E) batch => (db.chains.filter (·.1 ∈ batch)).foldl ChainInfo.row i)
    (fun pre i => Info db (D ∪ {e | ∃ b ∈ pre, e ∈ b}) i) (batchIter events 1000)
    (by simpa using h) (by
      rintro pre batch post i - hi
      refine (hrows _ i _ hi fun r hr => (mem_filter.mp hr).1).congr ?_
      intro x q hx
      have hmem : x ∈ (db.chains.filter (·.1 ∈ batch)).map Prod.fst ↔ x ∈ batch := by
        constructor
        · intro hm
          obtain ⟨r, hr, rfl⟩ := mem_map.mp hm
          simpa using (mem_filter.mp hr).2
        · intro hm
          exact mem_map.mpr ⟨(x, q), mem_filter.mpr ⟨hidx.mem_chains.mpr hx, by simpa using hm⟩, rfl⟩
      simp only [Set.mem_union, Set.mem_ofPred_eq, hmem, mem_append, mem_singleton,
        or_and_right, exists_or, exists_eq_left]
      exact or_assoc)
  exact hbatches.congr fun x q _ => by
    simp only [Set.mem_union, Set.mem_ofPred_eq, mem_batchIter (show 0 < 1000 by decide)]

/-! ### The numbers of one state set -/

/-- `M` holds the highest of the positions `ps` on each chain. -/
structure Highest (ps : Set Pos) (M : Dict ℕ ℕ) : Prop where
  entry : ∀ {c t}, M.get? c = some t → (c, t) ∈ ps
  bound : ∀ p ∈ ps, p.1 ∈ M.keys ∧ p.2 ≤ M.getD p.1 0

theorem Highest.empty : Highest ∅ Dict.empty := ⟨by simp, by simp⟩

/-- `M[c] = max(n, M.get(c, 0))`. -/
theorem Highest.raise {ps : Set Pos} (h : Highest ps M) (p : Pos) :
    Highest (insert p ps) (M.set p.1 (max p.2 (M.getD p.1 0))) := by
  refine ⟨fun {c t} ht => ?_, fun q hq => ?_⟩
  · rcases get?_set_cases ht with ⟨rfl, rfl⟩ | ht
    · rcases le_total (M.getD p.1 0) p.2 with hle | hle
      · rw [max_eq_left hle]
        exact Set.mem_insert p ps
      · -- the old number stays: it is an entry unless the new position is number zero
        rw [max_eq_right hle]
        cases hg : M.get? p.1 with
        | none =>
          rw [Dict.getD, hg, Option.getD_none] at hle ⊢
          rw [← Nat.le_zero.mp hle]
          exact Set.mem_insert p ps
        | some t =>
          rw [getD_of_get? hg]
          exact Set.mem_insert_of_mem _ (h.entry hg)
    · exact Set.mem_insert_of_mem _ (h.entry ht)
  · rw [mem_keys_set, getD_set]
    rcases Set.mem_insert_iff.mp hq with rfl | hq
    · rw [if_pos rfl]
      exact ⟨.inl rfl, le_max_left _ _⟩
    · obtain ⟨hk, hle⟩ := h.bound q hq
      refine ⟨.inr hk, ?_⟩
      split_ifs with hc
      · exact le_max_of_le_right (hc ▸ hle)
      · exact hle

/-- A state set of indexed events starts with the highest position of its events on each chain. -/
theorem setChains_spec {D : Set E} (hi : Info db D i) {S : List E}
    (hS : ∀ e ∈ S, e ∈ D ∧ db.Indexed e) :
    ∃ M, setChains i S = some M ∧ Highest {p | ∃ e ∈ S, db.selectChain e = some p} M := by
  refine foldlM_visited _ (fun pre M => Highest {p | ∃ e ∈ pre, db.selectChain e = some p} M) S
    (by simpa using Highest.empty) ?_
  rintro pre e post M hsplit hM
  obtain ⟨heD, p, hp⟩ := hS e (hsplit ▸ by simp)
  refine ⟨M.set p.1 (max p.2 (M.getD p.1 0)), by simp [hi.position.mpr ⟨heD, hp⟩], ?_⟩
  have hset : {q | ∃ x ∈ pre ++ [e], db.selectChain x = some q} =
      insert p {q | ∃ x ∈ pre, db.selectChain x = some q} := by
    ext q
    simp [or_and_right, exists_or, hp, or_comm, eq_comm]
  rw [hset]
  exact hM.raise p

/-- One batch walks every entry of its chains. -/
theorem materializeSet_spec {s : LinkStore} {batch : List ℕ} {links : Dict ℕ (List ChainEdge)}
    (hf : Fetched s batch links) {src : Set Pos} {todo : Set ℕ}
    (h : Labels s.linkSet src todo M) :
    Labels s.linkSet src (todo \ {c | c ∈ links.keys}) (materializeSet links M) ∧
      (∀ k, M.getD k 0 ≤ (materializeSet links M).getD k 0) ∧
      ∀ k ∈ M.keys, k ∈ (materializeSet links M).keys := by
  refine foldl_visited _ (fun pre (M' : Dict ℕ ℕ) =>
    Labels s.linkSet src (todo \ {c | c ∈ pre}) M' ∧ (∀ k, M.getD k 0 ≤ M'.getD k 0) ∧
      ∀ k ∈ M.keys, k ∈ M'.keys) links.keys
    ⟨h.mono_todo fun k _ hk => ⟨hk, not_mem_nil⟩, fun _ => le_refl _, fun _ hk => hk⟩ ?_
  rintro pre c post M' hsplit ⟨hlab, hgrow, hkeys⟩
  have hdrop : ∀ {M' : Dict ℕ ℕ}, Labels s.linkSet src ((todo \ {c | c ∈ pre}) \ {c}) M' →
      Labels s.linkSet src (todo \ {k | k ∈ pre ++ [c]}) M' := fun hl =>
    hl.mono_todo fun k _ hk => ⟨hk.1.1, fun hc => (mem_append.mp hc).elim hk.1.2
      fun hc => hk.2 (mem_singleton.mp hc)⟩
  split
  · rename_i hnone
    refine ⟨hdrop (hlab.mono_todo fun k hk ht => ⟨ht, fun hkc => ?_⟩), hgrow, hkeys⟩
    obtain rfl : k = c := hkc
    exact (M'.get?_eq_none_iff.mp hnone) hk
  · rename_i n hn
    have hm := materialize_spec hf (c := c) (hsplit ▸ by simp) n M'
    refine ⟨hdrop (hlab.step hm ?_ (.inl hn)), fun k => (hgrow k).trans (hm.grows k),
      fun k hk => hm.keys k (hkeys k hk)⟩
    intro q hq
    rcases hlab.sound hn with hp | ⟨p, hp, hr⟩
    · exact .inr ⟨_, hp, hq⟩
    · exact .inr ⟨p, hp, hr.trans hq⟩

/-- All batches. -/
def materializeBatches (batches : List (Dict ℕ (List ChainEdge))) (M : Dict ℕ ℕ) : Dict ℕ ℕ :=
  batches.foldl (fun M links => materializeSet links M) M

theorem materializeBatches_spec {s : LinkStore} {chains : List ℕ} (hnd : chains.Nodup) (hM : ∀ k ∈ M.keys, k ∈ chains) :
    Labels s.linkSet {p | M.get? p.1 = some p.2} ∅ (materializeBatches (getChainLinks s chains) M) ∧
      (∀ k, M.getD k 0 ≤ (materializeBatches (getChainLinks s chains) M).getD k 0) ∧
      ∀ k ∈ M.keys, k ∈ (materializeBatches (getChainLinks s chains) M).keys := by
  have hstart : Labels s.linkSet {p | M.get? p.1 = some p.2} {k | k ∈ M.keys} M :=
    ⟨fun hk => .inl hk, fun {k t} hk => .inl (mem_keys_iff.mpr ⟨t, hk⟩)⟩
  obtain ⟨hlab, hgrow, hkeys⟩ := foldl_visited (fun M links => materializeSet links M)
    (fun pre (M' : Dict ℕ ℕ) => Labels s.linkSet {p | M.get? p.1 = some p.2}
      ({k | k ∈ M.keys} \ {c | ∃ links ∈ pre, c ∈ links.keys}) M' ∧
      (∀ k, M.getD k 0 ≤ M'.getD k 0) ∧ ∀ k ∈ M.keys, k ∈ M'.keys) (getChainLinks s chains)
    ⟨hstart.mono_todo fun k _ hk => ⟨hk, by simp⟩, fun _ => le_refl _, fun _ hk => hk⟩ (by
      rintro pre links post M' hsplit ⟨hlab, hgrow, hkeys⟩
      obtain ⟨batch, _, hf⟩ := mem_getChainLinks s hnd (hsplit ▸ by simp : links ∈ getChainLinks s chains)
      obtain ⟨hl, hg, hk⟩ := materializeSet_spec hf hlab
      refine ⟨hl.mono_todo ?_, fun k => (hgrow k).trans (hg k), fun k hkM => hk k (hkeys k hkM)⟩
      rintro k - ⟨⟨hkM, hpre⟩, hlinks⟩
      refine ⟨hkM, ?_⟩
      rintro ⟨d, hd, hkd⟩
      rcases mem_concat.mp hd with hd | rfl
      · exact hpre ⟨d, hd, hkd⟩
      · exact hlinks hkd)
  refine ⟨⟨hlab.sound, fun {k t} hk => .inr ?_⟩, hgrow, hkeys⟩
  rcases hlab.walked hk with ⟨hkM, hnone⟩ | hw
  · -- a chain of the set that no batch returned has no links
    rintro q ⟨a, _, hm⟩
    exact absurd (exists_getChainLinks s hnd (hM k hkM) ⟨_, hm, rfl⟩) hnone
  · exact hw

/-- After all batches the numbers of a state set are the positions its events cover. -/
theorem reached_iff {s : LinkStore} (hs : ∀ l ∈ s.linkSet, 1 ≤ l.dstSeq) {chains : List ℕ}
    (hnd : chains.Nodup) (hM : ∀ k ∈ M.keys, k ∈ chains) {c n : ℕ} (hn : 1 ≤ n) :
    n ≤ (materializeBatches (getChainLinks s chains) M).getD c 0 ↔
      ∃ k t, M.get? k = some t ∧ Covers s.linkSet (k, t) (c, n) := by
  obtain ⟨hlab, hgrow, hkeys⟩ := materializeBatches_spec hnd hM
  set M' := materializeBatches (getChainLinks s chains) M
  constructor
  · intro hle
    rcases hlab.sound (get?_of_getD_ne (k := c) (w := 0) (by omega)) with hp | ⟨p, hp, hr⟩
    · exact ⟨c, _, hp, .inl ⟨rfl, hle⟩⟩
    · exact ⟨p.1, p.2, hp, .inr ⟨_, hle, hr⟩⟩
  · rintro ⟨k, t, hk, hcov⟩
    have hle : t ≤ M'.getD k 0 := (getD_of_get? hk).symm.trans_le (hgrow k)
    rcases hcov with ⟨hc, hnt⟩ | ⟨u, hu, hr⟩
    · obtain rfl : k = c := hc
      exact hnt.trans hle
    · have hkM' : M'.get? k = some (M'.getD k 0) :=
        get?_of_mem_keys 0 (hkeys k (mem_keys_iff.mpr ⟨t, hk⟩))
      have hw := (hlab.walked hkM').resolve_left id
      have hr' : Reach s.linkSet (k, M'.getD k 0) (c, u) := Reach.of_le (p := (k, t)) rfl hle hr
      exact (show n ≤ u from hu).trans (hlab.reach_le hs hw hr')

/-! ### All maps together -/

section Walks

variable (v21 : Bool) (conflicted additional : List Pos)

theorem setToChain_walks : ∀ (batches : List (Dict ℕ (List ChainEdge))) (w : Walks),
    (batches.foldl (Walks.batch v21 conflicted additional) w).setToChain =
      w.setToChain.map (materializeBatches batches)
  | [], w => (map_id _).symm
  | links :: batches, w => by
    rw [foldl_cons, setToChain_walks batches, Walks.batch, map_map]
    rfl

theorem mem_seen_addKeys {c : ℕ} : ∀ (sets : List (Dict ℕ ℕ)) (seen : List ℕ),
    c ∈ sets.foldl (fun seen chains => addAll seen chains.keys) seen ↔ c ∈ seen ∨ ∃ M ∈ sets, c ∈ M.keys
  | [], seen => by simp
  | M :: sets, seen => by
    rw [foldl_cons, mem_seen_addKeys sets, mem_addAll, exists_mem_cons_iff, or_assoc]

theorem nodup_seen_addKeys : ∀ (sets : List (Dict ℕ ℕ)) {seen : List ℕ}, seen.Nodup →
    (sets.foldl (fun seen chains => addAll seen chains.keys) seen).Nodup
  | [], _, h => h
  | M :: sets, _, h => nodup_seen_addKeys sets (nodup_addAll M.keys h)

/-- Every chain of a state set's map has been noted. -/
theorem seenChains_walks : ∀ (batches : List (Dict ℕ (List ChainEdge))) (w : Walks),
    w.seenChains.Nodup → (∀ M ∈ w.setToChain, ∀ c ∈ M.keys, c ∈ w.seenChains) →
    (batches.foldl (Walks.batch v21 conflicted additional) w).seenChains.Nodup ∧
      ∀ M ∈ (batches.foldl (Walks.batch v21 conflicted additional) w).setToChain, ∀ c ∈ M.keys,
        c ∈ (batches.foldl (Walks.batch v21 conflicted additional) w).seenChains
  | [], _, hnd, hk => ⟨hnd, hk⟩
  | links :: batches, w, hnd, hk => by
    refine seenChains_walks batches _ (nodup_seen_addKeys _ hnd) ?_
    intro M hM c hc
    exact (mem_seen_addKeys _ _).mpr (.inr ⟨M, hM, hc⟩)

end Walks

/-! ### Reading events off ranges -/

/-- Collect the events of several ranges `(lo, hi]` of chains. -/
def collect (chainToEvent : Dict ℕ (Dict ℕ E)) (ranges : List (ℕ × ℕ × ℕ)) (found : List E) :
    List E × Dict ℕ (ℕ × ℕ) :=
  ranges.foldl
    (fun st p => fillRange chainToEvent p.1 p.2 (pyRange (p.2.1 + 1) (p.2.2 + 1)) st)
    (found, Dict.empty)

/-- Ranges chosen from a list keep its order of keys. -/
theorem filterMap_keys_sublist {α β κ : Type} {f : α → Option β} {k : α → κ} {m : β → κ}
    (h : ∀ a b, f a = some b → m b = k a) : ∀ l : List α,
    ((l.filterMap f).map m).Sublist (l.map k)
  | [] => List.Sublist.refl _
  | a :: l => by
    have ih := filterMap_keys_sublist h l
    cases hf : f a with
    | none =>
      rw [filterMap_cons_none hf]
      exact ih.cons _
    | some b =>
      rw [filterMap_cons_some hf, map_cons, map_cons, h a b hf]
      exact ih.cons_cons _

theorem mem_pyRange {a b n : ℕ} : n ∈ pyRange a b ↔ a ≤ n ∧ n < b := by
  rw [pyRange, mem_range'_1]
  omega

variable {known : Dict ℕ (Dict ℕ E)}

/-- Either every number was in memory, or the whole range is noted. -/
theorem fillRange_spec
    (hknown : ∀ {c n e}, (known.getD c Dict.empty).get? n = some e → db.selectChain e = some (c, n))
    (c : ℕ) (gap : ℕ × ℕ) : ∀ (ns : List ℕ) (st : List E × Dict ℕ (ℕ × ℕ)),
    (∀ e ∈ st.1, e ∈ (fillRange known c gap ns st).1) ∧
    (∀ e ∈ (fillRange known c gap ns st).1, e ∈ st.1 ∨ ∃ n ∈ ns, db.selectChain e = some (c, n)) ∧
    (((fillRange known c gap ns st).2 = st.2 ∧
        ∀ n ∈ ns, ∃ e ∈ (fillRange known c gap ns st).1, db.selectChain e = some (c, n)) ∨
      (fillRange known c gap ns st).2 = st.2.set c gap)
  | [], st => ⟨fun _ h => h, fun _ h => .inl h, .inl ⟨rfl, by simp⟩⟩
  | n :: ns, st => by
    rw [fillRange]
    split
    · rename_i e he
      obtain ⟨h1, h2, h3⟩ := fillRange_spec hknown c gap ns (addIf st.1 e, st.2)
      refine ⟨fun x hx => h1 x (mem_addIf.mpr (.inl hx)), ?_, ?_⟩
      · intro x hx
        rcases h2 x hx with hx | ⟨m, hm, hx⟩
        · rcases mem_addIf.mp hx with hx | rfl
          · exact .inl hx
          · exact .inr ⟨n, (.head _), hknown he⟩
        · exact .inr ⟨m, mem_cons_of_mem _ hm, hx⟩
      · refine h3.imp_left fun ⟨hg, hall⟩ => ⟨hg, fun m hm => ?_⟩
        rcases mem_cons.mp hm with rfl | hm
        · exact ⟨e, h1 e (mem_addIf.mpr (.inr rfl)), hknown he⟩
        · exact hall m hm
    · exact ⟨fun _ h => h, fun _ h => .inl h, .inr rfl⟩

theorem mem_fetchEventIdsFromChains (hidx : CorrectIndex auth db) {gaps : Dict ℕ (ℕ × ℕ)} {e : E} :
    e ∈ fetchEventIdsFromChains db gaps ↔ ∃ c g, gaps.get? c = some g ∧
      ∃ n, db.selectChain e = some (c, n) ∧ g.1 < n ∧ n ≤ g.2 := by
  have h := foldl_visited (fun (result : List E) (p : ℕ × ℕ × ℕ) =>
      addAll result ((db.chains.filter fun r =>
        r.2.1 = p.1 ∧ p.2.1 < r.2.2 ∧ r.2.2 ≤ p.2.2).map Prod.fst))
    (fun pre result => ∀ e, e ∈ result ↔ ∃ p ∈ pre, ∃ n, db.selectChain e = some (p.1, n) ∧
      p.2.1 < n ∧ n ≤ p.2.2) gaps.entries (s := []) (by simp) (by
      rintro pre p post result - hres e
      rw [mem_addAll, hres e]
      simp only [mem_append, mem_singleton, or_and_right, exists_or, exists_eq_left]
      refine or_congr_right ?_
      simp only [mem_map, mem_filter, decide_eq_true_eq]
      constructor
      · rintro ⟨⟨x, c, n⟩, ⟨hm, rfl, hlo, hhi⟩, rfl⟩
        exact ⟨n, hidx.mem_chains.mp hm, hlo, hhi⟩
      · rintro ⟨n, hx, hlo, hhi⟩
        exact ⟨(e, p.1, n), ⟨hidx.mem_chains.mpr hx, rfl, hlo, hhi⟩, rfl⟩)
  rw [fetchEventIdsFromChains, h e]
  simp only [Prod.exists, get?_eq_some_iff]

/-- What is collected in memory and fetched from the table are the events in the ranges. -/
theorem mem_collected (hidx : CorrectIndex auth db)
    (hknown : ∀ {c n e}, (known.getD c Dict.empty).get? n = some e → db.selectChain e = some (c, n))
    {ranges : List (ℕ × ℕ × ℕ)} (hnd : (ranges.map Prod.fst).Nodup) {found : List E} {e : E} :
    e ∈ addAll (collect known ranges found).1 (fetchEventIdsFromChains db (collect known ranges found).2) ↔
      e ∈ found ∨ ∃ p ∈ ranges, ∃ n, db.selectChain e = some (p.1, n) ∧ p.2.1 < n ∧ n ≤ p.2.2 := by
  obtain ⟨hold, hsound, hgaps, hall⟩ := foldl_visited
    (fun st (p : ℕ × ℕ × ℕ) => fillRange known p.1 p.2 (pyRange (p.2.1 + 1) (p.2.2 + 1)) st)
    (fun pre (st : List E × Dict ℕ (ℕ × ℕ)) =>
      (∀ e ∈ found, e ∈ st.1) ∧
      (∀ e ∈ st.1, e ∈ found ∨ ∃ p ∈ pre, ∃ n, db.selectChain e = some (p.1, n) ∧ p.2.1 < n ∧ n ≤ p.2.2) ∧
      (∀ c g, st.2.get? c = some g → (c, g) ∈ pre) ∧
      ∀ p ∈ pre, st.2.get? p.1 = some p.2 ∨ ∀ n, p.2.1 < n → n ≤ p.2.2 →
        ∃ e ∈ st.1, db.selectChain e = some (p.1, n)) ranges (s := (found, Dict.empty))
    ⟨fun _ h => h, fun _ h => .inl h, by simp, by simp⟩ (by
      rintro pre ⟨c, gap⟩ post ⟨f, gaps⟩ hsplit ⟨hold, hsound, hgaps, hall⟩
      obtain ⟨h1, h2, h3⟩ := fillRange_spec hknown c gap (pyRange (gap.1 + 1) (gap.2 + 1)) (f, gaps)
      have hnew : ∀ p ∈ pre, p.1 ≠ c := by
        intro p hp hpc
        rw [hsplit, map_append, nodup_append] at hnd
        exact hnd.2.2 p.1 (mem_map_of_mem hp) c (by simp) hpc
      refine ⟨fun x hx => h1 x (hold x hx), ?_, ?_, ?_⟩
      · intro x hx
        rcases h2 x hx with hx | ⟨n, hn, hx⟩
        · refine (hsound x hx).imp_right ?_
          rintro ⟨p, hp, hx⟩
          exact ⟨p, mem_append_left _ hp, hx⟩
        · rw [mem_pyRange] at hn
          exact .inr ⟨(c, gap), by simp, n, hx, hn.1, Nat.lt_succ_iff.mp hn.2⟩
      · intro c' g hg
        rcases h3 with ⟨heq, _⟩ | heq
        · rw [heq] at hg
          exact mem_append_left _ (hgaps c' g hg)
        · rw [heq, get?_set] at hg
          split_ifs at hg with hc
          · rw [hc, ← Option.some.inj hg]
            simp
          · exact mem_append_left _ (hgaps c' g hg)
      · intro p hp
        rcases mem_append.mp hp with hp | hp
        · have hkeep : (fillRange known c gap (pyRange (gap.1 + 1) (gap.2 + 1)) (f, gaps)).2.get? p.1 =
              gaps.get? p.1 := by
            rcases h3 with ⟨heq, _⟩ | heq
            · rw [heq]
            · rw [heq, get?_set_ne _ _ (hnew p hp)]
          rcases hall p hp with hg | hmem
          · exact .inl (hkeep.trans hg)
          · refine .inr fun n hlo hhi => ?_
            obtain ⟨x, hx, hxp⟩ := hmem n hlo hhi
            exact ⟨x, h1 x hx, hxp⟩
        · obtain rfl := mem_singleton.mp hp
          rcases h3 with ⟨_, hmem⟩ | heq
          · exact .inr fun n hlo hhi => hmem n (mem_pyRange.mpr ⟨hlo, by simp only at hhi ⊢; omega⟩)
          · exact .inl (by rw [heq, get?_set_self]))
  rw [mem_addAll, mem_fetchEventIdsFromChains hidx]
  constructor
  · rintro (he | ⟨c, g, hg, hn⟩)
    · exact hsound e he
    · exact .inr ⟨(c, g), hgaps c g hg, hn⟩
  · rintro (he | ⟨p, hp, n, hx, hlo, hhi⟩)
    · exact .inl (hold e he)
    · rcases hall p hp with hg | hmem
      · exact .inr ⟨p.1, p.2, hg, n, hx, hlo, hhi⟩
      · obtain ⟨x, hxf, hxp⟩ := hmem n hlo hhi
        obtain rfl := hidx.cover.pos_injective hx hxp
        exact .inl hxf

end Sithnapse.AuthChain
