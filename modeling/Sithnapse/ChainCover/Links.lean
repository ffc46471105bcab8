import Sithnapse.Kit.Dict
import Sithnapse.Kit.Search

/-! The stores of links between chains, and `_get_chain_links`.

    Links live either in the SQL table `event_auth_chain_links` or, when the embedded engine is
    configured, in one manifest per origin chain. Both are read a batch of at most 1000 chains at a
    time, and each batch returns every link out of every chain reachable from it: SQL with a
    recursive query, the embedded engine with a walk in Python (`mem_fetch`, `mem_keys_fetch`). -/

namespace Sithnapse.ChainCover
open Kit Kit.Dict Kit.Chain List
open Prod (fst)

/-- `(origin_seq, target_chain, target_seq)`. -/
abbrev ChainEdge := ℕ × ℕ × ℕ

/-- The link that `edge` stands for in the list of chain `c`. -/
def edgeLink (c : ℕ) (edge : ChainEdge) : Link := ⟨c, edge.1, edge.2.1, edge.2.2⟩

/-- The entry of a link in the list of its origin chain. -/
def linkEdge (l : Link) : ChainEdge := (l.srcSeq, l.dstChain, l.dstSeq)

@[simp] theorem edgeLink_linkEdge (l : Link) : edgeLink l.srcChain (linkEdge l) = l := rfl

/-- Where links are kept. -/
inductive LinkStore where
  | sql (rows : List Link)
  | embedded (manifests : Dict ℕ (List ChainEdge))

namespace LinkStore

/-- All stored links. -/
def links : LinkStore → List Link
  | .sql rows => rows
  | .embedded manifests => manifests.entries.flatMap fun p => p.2.map (edgeLink p.1)

/-- The stored links as a set. -/
def linkSet (s : LinkStore) : Set Link := {l | l ∈ s.links}

end LinkStore

variable (rows : List Link)

/-- `links.setdefault(origin, []).append(…)` over a row set. -/
def groupLinks : Dict ℕ (List ChainEdge) :=
  rows.foldl (fun d l => d.set l.srcChain (d.getD l.srcChain [] ++ [linkEdge l])) Dict.empty

variable (manifests : Dict ℕ (List ChainEdge))

/-- `put_auth_chain_links_batch`: per origin chain, the stored edges without repeats followed by
    the new ones not yet among them. -/
def putAuthChainLinksBatch (links : List Link) : Dict ℕ (List ChainEdge) :=
  (groupLinks links).entries.foldl (fun m p => m.set p.1 (addAll (addAll [] (m.getD p.1 [])) p.2)) manifests

/-- Store new links: an SQL insert, or an embedded batch put. -/
def LinkStore.put : LinkStore → List Link → LinkStore
  | .sql rows, l => .sql (rows ++ l)
  | .embedded m, l => .embedded (putAuthChainLinksBatch m l)

/-! ### Reading -/

variable (s : LinkStore)

/-- The chains the links of a chain lead to. -/
def LinkStore.next (c : ℕ) : List ℕ :=
  (s.links.filter (·.srcChain = c)).map (·.dstChain)

/-- The recursive query: the origin chains among `batch` and all chains reachable from them, then
    every link out of these. -/
def sqlChainLinks (batch : List ℕ) : Dict ℕ (List ChainEdge) :=
  let start := (rows.filter (·.srcChain ∈ batch)).map (·.srcChain)
  let chains := closure (LinkStore.sql rows).next (rows.map (·.dstChain)) start
  groupLinks (rows.filter (·.srcChain ∈ chains))

/-- `get_auth_chain_links_batch`: the edges out of exactly the given chains, empty ones left out. -/
def getAuthChainLinksBatch (chainIds : List ℕ) : List (ℕ × List ChainEdge) :=
  (chainIds.map fun c => (c, manifests.getD c [])).filter (·.2 ≠ [])

/-- State of the embedded walk: chains still to walk, chains seen, edges accumulated. -/
structure Walk where
  toWalk : List ℕ
  seen : List ℕ
  accumulated : Dict ℕ (List ChainEdge)

/-- Follow one edge. -/
def Walk.edge (w : Walk) (e : ChainEdge) : Walk :=
  if e.2.1 ∈ w.seen then w
  else { w with seen := w.seen ++ [e.2.1], toWalk := addIf w.toWalk e.2.1 }

/-- Record one fetched chain. -/
def Walk.chain (w : Walk) (p : ℕ × List ChainEdge) : Walk :=
  p.2.foldl Walk.edge { w with accumulated := w.accumulated.set p.1 (w.accumulated.getD p.1 [] ++ p.2) }

/-- One round of the embedded walk: fetch up to 1000 chains. -/
def Walk.round (w : Walk) : Walk ⊕ Dict ℕ (List ChainEdge) :=
  match w.toWalk with
  | [] => .inr w.accumulated
  | _ :: _ =>
    .inl ((getAuthChainLinksBatch manifests (w.toWalk.take 1000)).foldl Walk.chain
      { w with toWalk := w.toWalk.drop 1000 })

/-- The closure of one batch of seeds; each round walks at least one chain that is a seed or the
    target of an edge, which bounds the rounds. -/
def embeddedChainLinks (seeds : List ℕ) : Dict ℕ (List ChainEdge) :=
  (loop (Walk.round manifests)
    (seeds.length + (LinkStore.embedded manifests).links.length + 1)
    ⟨seeds, seeds, Dict.empty⟩).getD Dict.empty

/-- All links out of the chains reachable from one batch. -/
def LinkStore.fetch : LinkStore → List ℕ → Dict ℕ (List ChainEdge)
  | .sql rows, batch => sqlChainLinks rows batch
  | .embedded m, batch => embeddedChainLinks m batch

/-- The outer loop of `_get_chain_links`: take 1000 chains, fetch, drop the chains whose links were
    just returned from what is left. At most `n` rounds. -/
def chainLinkBatches (s : LinkStore) : ℕ → List ℕ → List (Dict ℕ (List ChainEdge))
  | 0, _ => []
  | _ + 1, [] => []
  | n + 1, c :: cs =>
    let links := s.fetch ((c :: cs).take 1000)
    links :: chainLinkBatches s n (((c :: cs).drop 1000).filter (· ∉ links.keys))

/-- `_get_chain_links`: the dictionaries the generator yields, in order. -/
def getChainLinks (chainsToFetch : List ℕ) : List (Dict ℕ (List ChainEdge)) :=
  chainLinkBatches s chainsToFetch.length chainsToFetch

/-! ### What the stores hold -/

theorem groupLinks_eq :
    groupLinks rows = Dict.group (rows.map fun l => (l.srcChain, linkEdge l)) := by
  rw [groupLinks, Dict.group, foldl_map]

variable {c : ℕ} {m : Dict ℕ (List ChainEdge)} {chains : List ℕ}

theorem mem_groupLinks {rows : List Link} {x : ChainEdge} :
    x ∈ (groupLinks rows).getD c [] ↔ edgeLink c x ∈ rows := by
  rw [groupLinks_eq, mem_group, mem_map]
  constructor
  · rintro ⟨l, hl, heq⟩
    cases heq
    exact hl
  · intro h
    exact ⟨_, h, rfl⟩

theorem mem_keys_groupLinks {rows : List Link} : c ∈ (groupLinks rows).keys ↔ ∃ l ∈ rows, l.srcChain = c := by
  rw [groupLinks_eq, (group_spec _).2, map_map, mem_map]
  rfl

theorem mem_links_embedded {l : Link} :
    l ∈ (LinkStore.embedded m).links ↔ linkEdge l ∈ m.getD l.srcChain [] := by
  simp only [LinkStore.links, mem_flatMap, mem_map]
  constructor
  · rintro ⟨⟨c, es⟩, hp, x, hx, rfl⟩
    have hget : m.get? c = some es := get?_eq_some_iff.mpr hp
    simpa [edgeLink, linkEdge, getD_of_get? hget] using hx
  · intro h
    have hk : l.srcChain ∈ m.keys := mem_keys_of_mem_getD h
    exact ⟨_, get?_eq_some_iff.mp (get?_of_mem_keys [] hk), linkEdge l, h, rfl⟩

theorem putAuthChainLinksBatch_getD (m : Dict ℕ (List ChainEdge)) (l : List Link) (c : ℕ)
    (x : ChainEdge) : x ∈ (putAuthChainLinksBatch m l).getD c [] ↔ x ∈ m.getD c [] ∨ edgeLink c x ∈ l := by
  have h := foldl_visited
    (fun (m : Dict ℕ (List ChainEdge)) (p : ℕ × List ChainEdge) =>
      m.set p.1 (addAll (addAll [] (m.getD p.1 [])) p.2))
    (fun pre d => ∀ c x, x ∈ d.getD c [] ↔ x ∈ m.getD c [] ∨ ∃ es, (c, es) ∈ pre ∧ x ∈ es)
    (groupLinks l).entries (s := m) (fun _ _ => by simp) (by
      rintro pre ⟨k, es⟩ _ d - hd c x
      rw [getD_set]
      rcases eq_or_ne c k with rfl | hc
      · simp only [if_true, mem_addAll, not_mem_nil, false_or, hd, mem_append,
          mem_singleton, Prod.mk.injEq, true_and]
        constructor
        · rintro ((h | ⟨es', h, hx⟩) | h)
          · exact .inl h
          · exact .inr ⟨es', .inl h, hx⟩
          · exact .inr ⟨es, .inr rfl, h⟩
        · rintro (h | ⟨es', h | rfl, hx⟩)
          · exact .inl (.inl h)
          · exact .inl (.inr ⟨es', h, hx⟩)
          · exact .inr hx
      · simp [hc, hd])
  rw [putAuthChainLinksBatch, h c x, ← mem_groupLinks]
  refine or_congr_right ⟨?_, fun hx => ?_⟩
  · rintro ⟨es, hm, hx⟩
    rwa [getD_of_get? (get?_eq_some_iff.mpr hm)]
  · have hk : c ∈ (groupLinks l).keys := mem_keys_of_mem_getD hx
    exact ⟨_, get?_eq_some_iff.mp (get?_of_mem_keys [] hk), hx⟩

/-- A put adds exactly the given links, in either store. -/
theorem mem_links_put (l : List Link) {x : Link} : x ∈ (s.put l).links ↔ x ∈ s.links ∨ x ∈ l := by
  cases s with
  | sql rows => simp [LinkStore.put, LinkStore.links]
  | embedded m =>
    rw [LinkStore.put, mem_links_embedded, mem_links_embedded, putAuthChainLinksBatch_getD, edgeLink_linkEdge]

theorem mem_next {s : LinkStore} {d : ℕ} : d ∈ s.next c ↔ ∃ l ∈ s.links, l.srcChain = c ∧ l.dstChain = d := by
  simp [LinkStore.next, and_assoc]

/-! ### What a fetch returns -/

/-- `links` holds exactly the chains reachable from `batch` that have links, with all of them. -/
structure Fetched (s : LinkStore) (batch : List ℕ) (links : Dict ℕ (List ChainEdge)) : Prop where
  keys : ∀ c, c ∈ links.keys ↔ (∃ b ∈ batch, BelowEq s.next b c) ∧ ∃ l ∈ s.links, l.srcChain = c
  edges : ∀ c ∈ links.keys, ∀ x, x ∈ links.getD c [] ↔ edgeLink c x ∈ s.links

theorem fetched_sql (batch : List ℕ) :
    Fetched (.sql rows) batch (sqlChainLinks rows batch) := by
  have hcl : ∀ c, c ∈ closure (LinkStore.sql rows).next (rows.map (·.dstChain))
      ((rows.filter (·.srcChain ∈ batch)).map (·.srcChain)) ↔
      ∃ b ∈ (rows.filter (·.srcChain ∈ batch)).map (·.srcChain),
        BelowEq (LinkStore.sql rows).next b c := fun c =>
    mem_closure fun x y hy => by
      obtain ⟨l, hl, _, rfl⟩ := mem_next.mp hy
      exact mem_map_of_mem hl
  -- a seed without links is not in the query's start, but it reaches no other chain either
  have hreach : ∀ c, (∃ l ∈ rows, l.srcChain = c) →
      ((∃ b ∈ (rows.filter (·.srcChain ∈ batch)).map (·.srcChain), BelowEq (LinkStore.sql rows).next b c) ↔
      ∃ b ∈ batch, BelowEq (LinkStore.sql rows).next b c) := by
    rintro c ⟨l, hl, hlc⟩
    constructor
    · rintro ⟨b, hb, hbc⟩
      obtain ⟨l', hl', rfl⟩ := mem_map.mp hb
      exact ⟨_, by simpa using (mem_filter.mp hl').2, hbc⟩
    · rintro ⟨b, hb, hbc⟩
      refine ⟨b, ?_, hbc⟩
      have hrow : ∃ l ∈ rows, l.srcChain = b := by
        rcases Relation.ReflTransGen.cases_head hbc with rfl | ⟨d, hd, _⟩
        · exact ⟨l, hl, hlc⟩
        · obtain ⟨l', hl', h, _⟩ := mem_next.mp hd
          exact ⟨l', hl', h⟩
      obtain ⟨l', hl', rfl⟩ := hrow
      exact mem_map.mpr ⟨l', mem_filter.mpr ⟨hl', by simpa using hb⟩, rfl⟩
  constructor
  · intro c
    rw [sqlChainLinks, mem_keys_groupLinks]
    simp only [mem_filter, decide_eq_true_eq, hcl]
    constructor
    · rintro ⟨l, ⟨hl, hr⟩, rfl⟩
      exact ⟨(hreach _ ⟨l, hl, rfl⟩).mp hr, l, hl, rfl⟩
    · rintro ⟨hr, l, hl, rfl⟩
      exact ⟨l, ⟨hl, (hreach _ ⟨l, hl, rfl⟩).mpr hr⟩, rfl⟩
  · intro c hc x
    rw [sqlChainLinks, mem_keys_groupLinks] at hc
    obtain ⟨l, hl, rfl⟩ := hc
    rw [mem_filter, decide_eq_true_eq] at hl
    rw [sqlChainLinks, mem_groupLinks, mem_filter, decide_eq_true_eq]
    exact ⟨fun h => h.1, fun h => ⟨h, hl.2⟩⟩

theorem walk_edges : ∀ (es : List ChainEdge) (w : Walk),
    (es.foldl Walk.edge w).accumulated = w.accumulated ∧
    (∀ y, y ∈ (es.foldl Walk.edge w).seen ↔ y ∈ w.seen ∨ ∃ e ∈ es, e.2.1 = y) ∧
    (∀ y, y ∈ (es.foldl Walk.edge w).toWalk ↔ y ∈ w.toWalk ∨ (y ∉ w.seen ∧ ∃ e ∈ es, e.2.1 = y)) ∧
    (w.toWalk.Nodup → (es.foldl Walk.edge w).toWalk.Nodup)
  | [], w => by simp
  | e :: es, w => by
    obtain ⟨h1, h2, h3, h4⟩ := walk_edges es (w.edge e)
    rw [foldl_cons]
    by_cases he : e.2.1 ∈ w.seen
    · have hw : w.edge e = w := by simp [Walk.edge, he]
      rw [hw] at h1 h2 h3 h4 ⊢
      refine ⟨h1, fun y => ?_, fun y => ?_, h4⟩
      · rw [h2 y]
        constructor
        · rintro (h | ⟨x, hx, rfl⟩)
          · exact .inl h
          · exact .inr ⟨x, mem_cons_of_mem _ hx, rfl⟩
        · rintro (h | ⟨x, hx, rfl⟩)
          · exact .inl h
          · rcases mem_cons.mp hx with rfl | hx
            · exact .inl he
            · exact .inr ⟨x, hx, rfl⟩
      · rw [h3 y]
        refine or_congr_right (and_congr_right fun hy => ?_)
        constructor
        · rintro ⟨x, hx, rfl⟩
          exact ⟨x, mem_cons_of_mem _ hx, rfl⟩
        · rintro ⟨x, hx, rfl⟩
          rcases mem_cons.mp hx with rfl | hx
          · exact absurd he hy
          · exact ⟨x, hx, rfl⟩
    · have hw : w.edge e = { w with seen := w.seen ++ [e.2.1], toWalk := addIf w.toWalk e.2.1 } := by
        simp [Walk.edge, he]
      rw [hw] at h1 h2 h3 h4 ⊢
      refine ⟨h1, fun y => ?_, fun y => ?_, fun h => h4 (nodup_addIf _ h)⟩
      · rw [h2 y]
        simp only [mem_append, mem_cons, not_mem_nil, or_false, exists_eq_or_imp]
        rw [or_assoc, eq_comm (a := y)]
      · rw [h3 y]
        by_cases hy : y = e.2.1
        · subst hy; simp [he]
        · have hy' : ¬ e.2.1 = y := fun h => hy h.symm
          simp [hy, hy']

/-- A round records the fetched chains and queues the chains they lead to that are new. -/
theorem walk_chains {w : Walk} (l : List (ℕ × List ChainEdge)) (hnd : (l.map fst).Nodup)
    (hfresh : ∀ p ∈ l, p.1 ∉ w.accumulated.keys) :
    (∀ c, c ∈ (l.foldl Walk.chain w).accumulated.keys ↔ c ∈ w.accumulated.keys ∨ c ∈ l.map fst) ∧
    (∀ c es, (c, es) ∈ l → (l.foldl Walk.chain w).accumulated.getD c [] = es) ∧
    (∀ c, c ∉ l.map fst → (l.foldl Walk.chain w).accumulated.getD c [] = w.accumulated.getD c []) ∧
    (∀ y, y ∈ (l.foldl Walk.chain w).seen ↔ y ∈ w.seen ∨ ∃ p ∈ l, ∃ e ∈ p.2, e.2.1 = y) ∧
    (∀ y, y ∈ (l.foldl Walk.chain w).toWalk ↔ y ∈ w.toWalk ∨ (y ∉ w.seen ∧ ∃ p ∈ l, ∃ e ∈ p.2, e.2.1 = y)) ∧
    (w.toWalk.Nodup → (l.foldl Walk.chain w).toWalk.Nodup) := by
  refine foldl_visited Walk.chain (fun pre (v : Walk) =>
    (∀ c, c ∈ v.accumulated.keys ↔ c ∈ w.accumulated.keys ∨ c ∈ pre.map fst) ∧
    (∀ c es, (c, es) ∈ pre → v.accumulated.getD c [] = es) ∧
    (∀ c, c ∉ pre.map fst → v.accumulated.getD c [] = w.accumulated.getD c []) ∧
    (∀ y, y ∈ v.seen ↔ y ∈ w.seen ∨ ∃ p ∈ pre, ∃ e ∈ p.2, e.2.1 = y) ∧
    (∀ y, y ∈ v.toWalk ↔ y ∈ w.toWalk ∨ (y ∉ w.seen ∧ ∃ p ∈ pre, ∃ e ∈ p.2, e.2.1 = y)) ∧
    (w.toWalk.Nodup → v.toWalk.Nodup)) l (by simp) ?_
  rintro pre ⟨k, es⟩ post v hl ⟨h1, h2, h3, h4, h5, h6⟩
  have hk : k ∉ pre.map fst := by
    rw [hl, map_append, nodup_append] at hnd
    intro hc
    exact hnd.2.2 k hc k (by simp) rfl
  have hold : v.accumulated.getD k [] = [] := by
    rw [h3 k hk]
    exact getD_of_not_mem _ (hfresh (k, es) (hl ▸ by simp))
  obtain ⟨g1, g2, g3, g4⟩ := walk_edges es
    { v with accumulated := v.accumulated.set k (v.accumulated.getD k [] ++ es) }
  rw [Walk.chain]
  refine ⟨fun c => ?_, fun c es' hc => ?_, fun c hc => ?_, fun y => ?_, fun y => ?_, fun h => g4 (h6 h)⟩
  · rw [g1, mem_keys_set, h1, map_append, mem_append, map_singleton, mem_singleton]
    tauto
  · rw [g1, getD_set, hold, nil_append]
    rcases mem_concat.mp hc with hc' | hc'
    · have hne : c ≠ k := by
        rintro rfl
        exact hk (mem_map.mpr ⟨(c, es'), hc', rfl⟩)
      rw [if_neg hne, h2 c es' hc']
    · obtain ⟨rfl, rfl⟩ := Prod.mk.inj hc'
      rw [if_pos rfl]
  · rw [map_append, mem_append, not_or] at hc
    have hne : c ≠ k := by simpa using hc.2
    rw [g1, getD_set, if_neg hne, h3 c hc.1]
  · rw [g2 y, h4 y]
    simp only [mem_append, mem_singleton, or_and_right, exists_or, exists_eq_left]
    exact or_assoc
  · rw [g3 y, h5 y, h4 y]
    simp only [mem_append, mem_singleton, or_and_right, exists_or, exists_eq_left]
    generalize (∃ p ∈ pre, ∃ e ∈ p.2, e.2.1 = y) = A
    generalize (∃ e ∈ es, e.2.1 = y) = B
    tauto

theorem mem_next_embedded {d : ℕ} : d ∈ (LinkStore.embedded m).next c ↔ ∃ e ∈ m.getD c [], e.2.1 = d := by
  rw [mem_next]
  constructor
  · rintro ⟨l, hl, rfl, rfl⟩
    exact ⟨linkEdge l, mem_links_embedded.mp hl, rfl⟩
  · rintro ⟨e, he, rfl⟩
    exact ⟨edgeLink c e, mem_links_embedded.mpr he, rfl, rfl⟩

/-- The edges accumulated by the embedded walk are those of the chains walked. -/
structure Accumulated (m : Dict ℕ (List ChainEdge)) (w : Walk) : Prop where
  keys : ∀ c, c ∈ w.accumulated.keys ↔ c ∈ w.seen ∧ c ∉ w.toWalk ∧ m.getD c [] ≠ []
  edges : ∀ c ∈ w.accumulated.keys, w.accumulated.getD c [] = m.getD c []

theorem mem_getAuthChainLinksBatch {ids : List ℕ} {es : List ChainEdge} :
    (c, es) ∈ getAuthChainLinksBatch m ids ↔ c ∈ ids ∧ es = m.getD c [] ∧ m.getD c [] ≠ [] := by
  simp only [getAuthChainLinksBatch, mem_filter, mem_map, Prod.mk.injEq, decide_eq_true_eq]
  constructor
  · rintro ⟨⟨c', hc', rfl, rfl⟩, hne⟩
    exact ⟨hc', rfl, hne⟩
  · rintro ⟨hc, rfl, hne⟩
    exact ⟨⟨c, hc, rfl, rfl⟩, hne⟩

/-- One round of the walk expands up to 1000 chains. -/
theorem round_expands {seeds : List ℕ} {w w' : Walk}
    (hacc : Accumulated m w) (hsearch : Search (LinkStore.embedded m).next (· ∈ seeds) w.seen w.toWalk)
    (hnodup : w.toWalk.Nodup) (hr : w.round m = .inl w') :
    Accumulated m w' ∧ w'.toWalk.Nodup ∧ ∃ B, B ≠ [] ∧ (∀ x ∈ B, x ∈ w.toWalk) ∧
      (∀ y, y ∈ w'.seen ↔ y ∈ w.seen ∨ ∃ x ∈ B, y ∈ (LinkStore.embedded m).next x) ∧
      ∀ y, y ∈ w'.toWalk ↔ (y ∈ w.toWalk ∧ y ∉ B) ∨
        (y ∉ w.seen ∧ ∃ x ∈ B, y ∈ (LinkStore.embedded m).next x) := by
  obtain ⟨todo, seen, acc⟩ := w
  obtain ⟨hkeys, hedges⟩ := hacc
  cases htodo : todo with
  | nil => simp [Walk.round, htodo] at hr
  | cons b rest =>
    have hw : w' = (getAuthChainLinksBatch m (todo.take 1000)).foldl Walk.chain
        ⟨todo.drop 1000, seen, acc⟩ := by
      simpa [Walk.round, htodo] using hr.symm
    have hsplit : ∀ c, c ∈ todo ↔ c ∈ todo.take 1000 ∨ c ∈ todo.drop 1000 := fun c => by
      rw [← mem_append, take_append_drop]
    have hdisj : ∀ c ∈ todo.take 1000, c ∉ todo.drop 1000 := fun c hc hd =>
      disjoint_take_drop hnodup (le_refl 1000) hc hd
    have hsub : ((getAuthChainLinksBatch m (todo.take 1000)).map fst).Sublist (todo.take 1000) := by
      have h := (filter_sublist (p := (·.2 ≠ []))
        (l := (todo.take 1000).map fun c => (c, m.getD c []))).map fst
      rwa [map_map, show fst ∘ (fun c => (c, m.getD c [])) = id from rfl, map_id] at h
    obtain ⟨h1, h2, h3, h4, h5, h6⟩ := walk_chains (w := ⟨todo.drop 1000, seen, acc⟩)
      (getAuthChainLinksBatch m (todo.take 1000))
      (hsub.nodup (hnodup.sublist (take_sublist _ _)))
      (fun p hp hc => ((hkeys p.1).mp hc).2.1 ((hsplit p.1).mpr (.inl (hsub.subset (mem_map_of_mem hp)))))
    rw [← hw] at h1 h2 h3 h4 h5 h6
    have hnd' := h6 (hnodup.sublist (drop_sublist _ _))
    have hnew : ∀ y, (∃ p ∈ getAuthChainLinksBatch m (todo.take 1000), ∃ e ∈ p.2, e.2.1 = y) ↔
        ∃ x ∈ todo.take 1000, y ∈ (LinkStore.embedded m).next x := by
      intro y
      constructor
      · rintro ⟨⟨c, es⟩, hp, e, he, rfl⟩
        obtain ⟨hc, rfl, _⟩ := mem_getAuthChainLinksBatch.mp hp
        exact ⟨c, hc, mem_next_embedded.mpr ⟨e, he, rfl⟩⟩
      · rintro ⟨c, hc, hy⟩
        obtain ⟨e, he, rfl⟩ := mem_next_embedded.mp hy
        exact ⟨(c, m.getD c []), mem_getAuthChainLinksBatch.mpr ⟨hc, rfl, ne_nil_of_mem he⟩, e, he, rfl⟩
    have hfst : ∀ c, c ∈ (getAuthChainLinksBatch m (todo.take 1000)).map fst ↔
        c ∈ todo.take 1000 ∧ m.getD c [] ≠ [] := by
      intro c
      rw [mem_map]
      constructor
      · rintro ⟨⟨c', es⟩, hp, rfl⟩
        obtain ⟨hc, _, hne⟩ := mem_getAuthChainLinksBatch.mp hp
        exact ⟨hc, hne⟩
      · rintro ⟨hc, hne⟩
        exact ⟨(c, m.getD c []), mem_getAuthChainLinksBatch.mpr ⟨hc, rfl, hne⟩, rfl⟩
    have htw : ∀ y, y ∈ w'.toWalk ↔ (y ∈ todo ∧ y ∉ todo.take 1000) ∨
        (y ∉ seen ∧ ∃ x ∈ todo.take 1000, y ∈ (LinkStore.embedded m).next x) := by
      intro y
      rw [h5 y, hnew y]
      refine or_congr_left ⟨fun hy => ⟨(hsplit y).mpr (.inr hy), fun hc => hdisj y hc hy⟩, ?_⟩
      rintro ⟨hy, hny⟩
      exact ((hsplit y).mp hy).resolve_left hny
    have hseen' : ∀ y, y ∈ w'.seen ↔
        y ∈ seen ∨ ∃ x ∈ todo.take 1000, y ∈ (LinkStore.embedded m).next x := fun y => by
      rw [h4 y, hnew y]
    refine ⟨⟨fun c => ?_, fun c hc => ?_⟩, hnd', todo.take 1000, by simp [htodo],
      fun x hx => htodo ▸ (hsplit x).mpr (.inl hx), hseen', htodo ▸ htw⟩
    · rw [h1 c, hfst c, hkeys c, hseen' c, htw c]
      constructor
      · rintro (⟨hs, ht, hne⟩ | ⟨ht, hne⟩)
        · exact ⟨.inl hs, fun hc => hc.elim (fun hc => ht hc.1) (fun hc => hc.1 hs), hne⟩
        · have hs := hsearch.todo_sub c ((hsplit c).mpr (.inl ht))
          exact ⟨.inl hs, fun hc => hc.elim (fun hc => hc.2 ht) (fun hc => hc.1 hs), hne⟩
      · rintro ⟨hs, ht, hne⟩
        rw [not_or, not_and, not_and] at ht
        have hcs : c ∈ seen := hs.elim id fun hx => by
          by_contra hns
          exact ht.2 hns hx
        by_cases hct : c ∈ todo
        · exact .inr ⟨not_not.mp (ht.1 hct), hne⟩
        · exact .inl ⟨hcs, hct, hne⟩
    · by_cases hcl : c ∈ (getAuthChainLinksBatch m (todo.take 1000)).map fst
      · obtain ⟨hct, hne⟩ := (hfst c).mp hcl
        exact h2 c _ (mem_getAuthChainLinksBatch.mpr ⟨hct, rfl, hne⟩)
      · rw [h3 c hcl]
        exact hedges c (((h1 c).mp hc).resolve_right hcl)

/-- A walk with nothing left to walk has fetched its seeds. -/
theorem Accumulated.fetched {seeds seen : List ℕ}
    {acc : Dict ℕ (List ChainEdge)} (hacc : Accumulated m ⟨[], seen, acc⟩)
    (hs : Search (LinkStore.embedded m).next (· ∈ seeds) seen []) : Fetched (.embedded m) seeds acc := by
  have hne : ∀ c, m.getD c [] ≠ [] ↔ ∃ l ∈ (LinkStore.embedded m).links, l.srcChain = c := by
    intro c
    constructor
    · intro h
      obtain ⟨e, he⟩ := exists_mem_of_ne_nil _ h
      exact ⟨edgeLink c e, mem_links_embedded.mpr he, rfl⟩
    · rintro ⟨l, hl, rfl⟩
      exact ne_nil_of_mem (mem_links_embedded.mp hl)
  refine ⟨fun c => ?_, fun c hc x => ?_⟩
  · rw [hacc.keys c, hs.finish, hne c]
    simp
  · rw [hacc.edges c hc, mem_links_embedded]
    rfl

theorem accumulated_start (m : Dict ℕ (List ChainEdge)) (seeds : List ℕ) :
    Accumulated m ⟨seeds, seeds, Dict.empty⟩ :=
  ⟨fun _ => ⟨nofun, fun h => absurd h.1 h.2.1⟩, nofun⟩

theorem fetched_embedded (m : Dict ℕ (List ChainEdge)) {seeds : List ℕ} (hnd : seeds.Nodup) :
    Fetched (.embedded m) seeds (embeddedChainLinks m seeds) := by
  obtain ⟨r, hr, hpost⟩ := search_loop Walk.seen Walk.toWalk
    (n := seeds.length + (LinkStore.embedded m).links.length + 1)
    (fun x y hy => by
      obtain ⟨l, hl, _, rfl⟩ := mem_next.mp hy
      exact mem_map_of_mem hl)
    (fun w w' hacc hs hnd h => round_expands hacc hs hnd h)
    (by
      rintro ⟨todo, seen, acc⟩ r hacc hs hd
      cases todo with
      | cons b rest => simp [Walk.round] at hd
      | nil =>
        obtain rfl : acc = r := by simpa [Walk.round] using hd
        exact hacc.fetched hs)
    (accumulated_start m seeds)
    (Search.start (fun _ => Iff.rfl) (fun _ => Iff.rfl)) hnd
    (by rw [length_map]; simp only; omega)
  rw [embeddedChainLinks, hr]
  exact hpost

theorem fetched {batch : List ℕ} (hnd : batch.Nodup) : Fetched s batch (s.fetch batch) := by
  cases s with
  | sql rows => exact fetched_sql rows batch
  | embedded m => exact fetched_embedded m hnd

/-- Each dictionary the generator yields is the fetch of some batch of the chains asked for. -/
theorem mem_getChainLinks (hnd : chains.Nodup)
    {links : Dict ℕ (List ChainEdge)} (h : links ∈ getChainLinks s chains) :
    ∃ batch, (∀ c ∈ batch, c ∈ chains) ∧ Fetched s batch links := by
  have key : ∀ (n : ℕ) (l : List ℕ), l.Nodup → links ∈ chainLinkBatches s n l →
      ∃ batch, (∀ c ∈ batch, c ∈ l) ∧ Fetched s batch links := by
    intro n
    induction n with
    | zero => intro l _ h; cases h
    | succ n ih =>
      intro l hnd h
      cases l with
      | nil => cases h
      | cons c cs =>
        rw [chainLinkBatches] at h
        rcases mem_cons.mp h with rfl | h
        · exact ⟨_, fun x hx => mem_of_mem_take hx, fetched s (hnd.sublist (take_sublist _ _))⟩
        · obtain ⟨batch, hb, hf⟩ := ih _ ((hnd.sublist (drop_sublist _ _)).filter _) h
          exact ⟨batch, fun x hx => mem_of_mem_drop (mem_filter.mp (hb x hx)).1, hf⟩
  exact key _ _ hnd h

theorem getChainLinks_ne_nil (h : chains ≠ []) : getChainLinks s chains ≠ [] := by
  cases chains with
  | nil => exact absurd rfl h
  | cons c cs =>
    rw [getChainLinks, length_cons, chainLinkBatches]
    exact cons_ne_nil _ _

theorem getChainLinks_few (h : chains ≠ []) (hlen : chains.length ≤ 1000) :
    getChainLinks s chains = [s.fetch chains] := by
  cases chains with
  | nil => exact absurd rfl h
  | cons c cs =>
    rw [getChainLinks, length_cons, chainLinkBatches, take_of_length_le hlen, drop_of_length_le hlen]
    cases cs.length <;> rfl

/-- Every chain asked for that has links is returned by some batch. -/
theorem exists_getChainLinks (hnd : chains.Nodup)
    (hc : c ∈ chains) (hl : ∃ l ∈ s.links, l.srcChain = c) :
    ∃ links ∈ getChainLinks s chains, c ∈ links.keys := by
  have key : ∀ (n : ℕ) (l : List ℕ), l.length ≤ n → l.Nodup → c ∈ l →
      ∃ links ∈ chainLinkBatches s n l, c ∈ links.keys := by
    intro n
    induction n with
    | zero =>
      intro l hlen _ hc
      rw [eq_nil_of_length_eq_zero (Nat.le_zero.mp hlen)] at hc
      cases hc
    | succ n ih =>
      intro l hlen hnd hc
      cases l with
      | nil => cases hc
      | cons d ds =>
        rw [chainLinkBatches]
        have hf := fetched s (hnd.sublist (take_sublist 1000 (d :: ds)))
        by_cases hk : c ∈ (s.fetch ((d :: ds).take 1000)).keys
        · exact ⟨_, (.head _), hk⟩
        · have hdrop : c ∈ (d :: ds).drop 1000 := by
            rw [← take_append_drop 1000 (d :: ds), mem_append] at hc
            exact hc.resolve_left fun ht => hk ((hf.keys c).mpr ⟨⟨c, ht, .refl⟩, hl⟩)
          have hshort : (((d :: ds).drop 1000).filter
              (· ∉ (s.fetch ((d :: ds).take 1000)).keys)).length ≤ n := by
            refine (length_filter_le _ _).trans ?_
            rw [length_drop]
            omega
          obtain ⟨links, hm, hck⟩ := ih _ hshort ((hnd.sublist (drop_sublist _ _)).filter _)
            (mem_filter.mpr ⟨hdrop, decide_eq_true hk⟩)
          exact ⟨links, mem_cons_of_mem _ hm, hck⟩
  exact key _ _ (le_refl _) hnd hc

end Sithnapse.ChainCover
