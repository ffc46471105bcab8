import Sithnapse.ChainCover.Links
import Sithnapse.Kit.Worklist

/-! The two stores of links side by side.

    The same puts and deletes are made on the SQL table, seen as a set of rows, and on the embedded
    manifests; afterwards both hold the same links, each once. `_get_chain_links` is then run on each of
    them with every set iterated in any order and every query returning its rows in any order: both runs
    end, and whatever the batches, each dictionary holds all links of all chains that its chains lead
    to. -/

namespace Sithnapse.ChainCover
open Kit Kit.Dict Kit.Chain List Option

/-! ### Writing -/

/-- `delete_auth_chain_links_batch`: drop the edges at the given numbers from the manifests that exist. -/
def deleteAuthChainLinksBatch (manifests : Dict ℕ (List ChainEdge)) (pairs : List Pos) :
    Dict ℕ (List ChainEdge) :=
  manifests.update ((Dict.group pairs).entries.filterMap fun p =>
    (manifests.get? p.1).map fun edges => (p.1, edges.filter (·.1 ∉ p.2)))

/-- A call of one of the two batch functions. -/
inductive LinkOp where
  | put (links : List Link)
  | delete (pairs : List Pos)

/-- What the call does to the manifests. -/
def LinkOp.embedded (m : Dict ℕ (List ChainEdge)) : LinkOp → Dict ℕ (List ChainEdge)
  | .put links => putAuthChainLinksBatch m links
  | .delete pairs => deleteAuthChainLinksBatch m pairs

/-- The same rows inserted into, or deleted from, the table as a set. -/
def LinkOp.table (rows : List Link) : LinkOp → List Link
  | .put links => addAll rows links
  | .delete pairs => rows.filter fun l => (l.srcChain, l.srcSeq) ∉ pairs

/-- Both stores hold the same links, each once. -/
structure Twin (rows : List Link) (m : Dict ℕ (List ChainEdge)) : Prop where
  rows_nodup : rows.Nodup
  edges_nodup : ∀ c, (m.getD c []).Nodup
  same : ∀ l, l ∈ rows ↔ l ∈ (LinkStore.embedded m).links

variable {m : Dict ℕ (List ChainEdge)} {rows : List Link}

theorem putAuthChainLinksBatch_nodup (h : ∀ c, (m.getD c []).Nodup)
    (l : List Link) (c : ℕ) : ((putAuthChainLinksBatch m l).getD c []).Nodup := by
  refine foldl_visited (fun (m : Dict ℕ (List ChainEdge)) (p : ℕ × List ChainEdge) =>
    m.set p.1 (addAll (addAll [] (m.getD p.1 [])) p.2)) (fun _ d => ∀ c, (d.getD c []).Nodup)
    (groupLinks l).entries h ?_ c
  intro pre p post d _ hd c
  rw [getD_set]
  split
  · exact nodup_addAll _ (nodup_addAll _ nodup_nil)
  · exact hd c

theorem deleteAuthChainLinksBatch_getD (m : Dict ℕ (List ChainEdge)) (pairs : List Pos) (c : ℕ) :
    (deleteAuthChainLinksBatch m pairs).getD c [] = (m.getD c []).filter fun e => (c, e.1) ∉ pairs := by
  have hentry : ∀ w, (c, w) ∈ ((Dict.group pairs).entries.filterMap fun p =>
      (m.get? p.1).map fun edges => (p.1, edges.filter (·.1 ∉ p.2))) ↔
      (if c ∈ pairs.map Prod.fst then (m.get? c).map fun edges => edges.filter fun e => (c, e.1) ∉ pairs
        else none) = some w := by
    intro w
    rw [mem_filterMap, ite_none_right_eq_some, map_eq_some_iff]
    have hseqs : ∀ (seqs : List ℕ), (c, seqs) ∈ (Dict.group pairs).entries → ∀ n, n ∈ seqs ↔ (c, n) ∈ pairs := by
      intro seqs hm n
      rw [← mem_group, getD_of_get? (get?_eq_some_iff.mpr hm)]
    constructor
    · rintro ⟨⟨c', seqs⟩, hm, hw⟩
      obtain ⟨edges, hget, heq⟩ := map_eq_some_iff.mp hw
      cases heq
      refine ⟨(mem_entries_group.mp hm).1, edges, hget, ?_⟩
      simp only [hseqs seqs hm]
    · rintro ⟨hc, edges, hget, rfl⟩
      have hm := get?_eq_some_iff.mp (get?_of_mem_keys [] (((group_spec pairs).2 c).mpr hc))
      refine ⟨_, hm, ?_⟩
      simp only [hget, map_some, hseqs _ hm]
  rw [deleteAuthChainLinksBatch, Dict.getD, get?_update_of_some m hentry]
  split_ifs with hc
  · cases hget : m.get? c <;> rw [Dict.getD, hget] <;> rfl
  · refine (filter_eq_self.mpr fun e _ => decide_eq_true ?_).symm
    exact fun h => hc (mem_map_of_mem h)

theorem Twin.step (h : Twin rows m) (op : LinkOp) : Twin (op.table rows) (op.embedded m) := by
  cases op with
  | put links =>
    refine ⟨nodup_addAll _ h.rows_nodup, putAuthChainLinksBatch_nodup h.edges_nodup links, fun l => ?_⟩
    have hput := mem_links_put (.embedded m) links (x := l)
    rw [LinkOp.table, LinkOp.embedded, mem_addAll, h.same]
    exact hput.symm
  | delete pairs =>
    refine ⟨h.rows_nodup.filter _, fun c => ?_, fun l => ?_⟩
    · rw [LinkOp.embedded, deleteAuthChainLinksBatch_getD]
      exact (h.edges_nodup c).filter _
    · rw [LinkOp.table, LinkOp.embedded, mem_links_embedded, deleteAuthChainLinksBatch_getD,
        mem_filter, mem_filter, h.same, mem_links_embedded]
      rfl

/-- The same calls on the empty table and on the empty engine leave the same links. -/
theorem twin_run (ops : List LinkOp) :
    Twin (ops.foldl LinkOp.table []) (ops.foldl LinkOp.embedded Dict.empty) := by
  have hrun : ∀ (ops : List LinkOp) (rows : List Link) (m : Dict ℕ (List ChainEdge)), Twin rows m →
      Twin (ops.foldl LinkOp.table rows) (ops.foldl LinkOp.embedded m) := by
    intro ops
    induction ops with
    | nil => exact fun _ _ h => h
    | cons op ops ih => exact fun _ _ h => ih _ _ (h.step op)
  exact hrun ops _ _ ⟨nodup_nil, fun _ => nodup_nil, fun l => by simp [LinkStore.links, Dict.empty]⟩

/-! ### Reading in any order -/

/-- The orders in which a run of `_get_chain_links` meets its sets and rows. -/
structure Orders where
  chainsToFetch : List ℕ → Order ℕ
  toWalk : Walk → Order ℕ
  rows : List ℕ → Order Link

variable (o : Orders)

/-- One round of the embedded walk: fetch any 1000 of the waiting chains. -/
def walkRound (m : Dict ℕ (List ChainEdge)) (w : Walk) : Walk ⊕ Dict ℕ (List ChainEdge) :=
  Walk.round m { w with toWalk := (o.toWalk w).arrange w.toWalk }

/-- The closure of one batch of seeds in the embedded engine, in at most `fuel` rounds. -/
def walkSeeds (m : Dict ℕ (List ChainEdge)) (fuel : ℕ) (seeds : List ℕ) : Option (Dict ℕ (List ChainEdge)) :=
  loop (walkRound o m) fuel ⟨seeds, seeds, Dict.empty⟩

/-- The recursive query for one batch, in at most `fuel` rounds, and its rows grouped by origin. -/
def queryLinks (rows : List Link) (fuel : ℕ) (batch : List ℕ) : Option (Dict ℕ (List ChainEdge)) :=
  let start := ((rows.filter (·.srcChain ∈ batch)).map (·.srcChain)).dedup
  (loop (closureStep (LinkStore.sql rows).next) fuel (start, start)).map fun chains =>
    groupLinks ((o.rows batch).arrange (rows.filter (·.srcChain ∈ chains)))

/-- The outer loop, the same in both modes: any 1000 of the chains left, minus those returned. -/
def yields (o : Orders) (fetch : List ℕ → Option (Dict ℕ (List ChainEdge))) :
    ℕ → List ℕ → Option (List (Dict ℕ (List ChainEdge)))
  | _, [] => some []
  | 0, _ :: _ => none
  | n + 1, c :: cs => do
    let arranged := (o.chainsToFetch (c :: cs)).arrange (c :: cs)
    let links ← fetch (arranged.take 1000)
    let rest ← yields o fetch n ((arranged.drop 1000).filter (· ∉ links.keys))
    some (links :: rest)

/-- `_get_chain_links` on either store; `none` when `fuel` rounds of some loop are not enough. -/
def getChainLinksIn (s : LinkStore) (fuel : ℕ) (chainsToFetch : List ℕ) :
    Option (List (Dict ℕ (List ChainEdge))) :=
  match s with
  | .sql rows => yields o (queryLinks o rows fuel) fuel chainsToFetch
  | .embedded m => yields o (walkSeeds o m fuel) fuel chainsToFetch

/-- A fetch of a batch with no link twice. -/
structure FetchedOnce (s : LinkStore) (batch : List ℕ) (links : Dict ℕ (List ChainEdge)) : Prop extends
    Fetched s batch links where
  once : ∀ c, (links.getD c []).Nodup

theorem groupLinks_nodup (h : rows.Nodup) (c : ℕ) : ((groupLinks rows).getD c []).Nodup := by
  rw [groupLinks_eq, (group_spec _).1 c]
  have hinj : (rows.map fun l => (l.srcChain, linkEdge l)).Nodup := by
    refine h.map ?_
    rintro ⟨_, _, _, _⟩ ⟨_, _, _, _⟩ heq
    simpa [linkEdge] using heq
  refine (hinj.filter _).map_on ?_
  rintro ⟨k, x⟩ hx ⟨k', y⟩ hy hxy
  rw [mem_filter, decide_eq_true_eq] at hx hy
  rw [Prod.mk.injEq]
  exact ⟨hx.2.trans hy.2.symm, hxy⟩

theorem queryLinks_fetches (hrows : rows.Nodup) {batch : List ℕ} {fuel : ℕ}
    (hfuel : rows.length + rows.length < fuel) :
    ∃ links, queryLinks o rows fuel batch = some links ∧ FetchedOnce (.sql rows) batch links := by
  have hlen : ((rows.filter (·.srcChain ∈ batch)).map (·.srcChain)).dedup.length ≤ rows.length := by
    refine (dedup_sublist _).length_le.trans ?_
    rw [length_map]
    exact length_filter_le _ _
  have hnext : ∀ c d, d ∈ (LinkStore.sql rows).next c → d ∈ rows.map (·.dstChain) := by
    intro c d hd
    obtain ⟨l, hl, -, rfl⟩ := mem_next.mp hd
    exact mem_map_of_mem hl
  obtain ⟨chains, hloop, hchains⟩ := loop_closure hnext (by
    rw [length_map]
    exact lt_of_le_of_lt (Nat.add_le_add_left hlen _) hfuel)
  refine ⟨_, by rw [queryLinks, hloop]; rfl, ?_, fun c => ?_⟩
  · -- the same members as the query whose rows come in table order
    have hsame : ∀ l, l ∈ (o.rows batch).arrange (rows.filter (·.srcChain ∈ chains)) ↔
        l ∈ rows.filter (·.srcChain ∈ closure (LinkStore.sql rows).next (rows.map (·.dstChain))
          ((rows.filter (·.srcChain ∈ batch)).map (·.srcChain))) := by
      intro l
      simp only [Order.mem_arrange, mem_filter, decide_eq_true_eq, hchains]
      rw [mem_closure hnext]
    have hfetched := fetched_sql rows batch
    rw [sqlChainLinks] at hfetched
    refine ⟨fun c => ?_, fun c hc x => ?_⟩
    · rw [← hfetched.keys, mem_keys_groupLinks, mem_keys_groupLinks]
      simp only [hsame]
    · rw [← hfetched.edges c ?_ x, mem_groupLinks, mem_groupLinks, hsame]
      rw [mem_keys_groupLinks] at hc ⊢
      simpa only [hsame] using hc
  · exact groupLinks_nodup (Order.nodup_arrange.mpr (hrows.filter _)) c

theorem walkSeeds_fetches (hm : ∀ c, (m.getD c []).Nodup)
    {seeds : List ℕ} (hnd : seeds.Nodup) {fuel : ℕ}
    (hfuel : (LinkStore.embedded m).links.length + seeds.length < fuel) :
    ∃ links, walkSeeds o m fuel seeds = some links ∧ FetchedOnce (.embedded m) seeds links := by
  have hstart : Search (LinkStore.embedded m).next (· ∈ seeds) seeds seeds :=
    Search.start (fun _ => Iff.rfl) fun _ => Iff.rfl
  refine search_loop Walk.seen Walk.toWalk
    (U := (LinkStore.embedded m).links.map (·.dstChain))
    (fun x y hy => ?_) (fun w w' hacc hs hnd h => ?_) ?_ (accumulated_start m seeds) hstart hnd
    (by rwa [length_map])
  · obtain ⟨l, hl, -, rfl⟩ := mem_next.mp hy
    exact mem_map_of_mem hl
  · -- the round sees the waiting chains in another order
    have hround := round_expands (w := { w with toWalk := (o.toWalk w).arrange w.toWalk })
      ⟨fun c => by simp only [Order.mem_arrange]; exact hacc.keys c, hacc.edges⟩
      (hs.congr_todo fun _ => Order.mem_arrange) (Order.nodup_arrange.mpr hnd) h
    simpa only [Order.mem_arrange] using hround
  · rintro ⟨todo, seen, acc⟩ r hacc hs hd
    rw [walkRound, Walk.round] at hd
    split at hd
    · rename_i hempty
      obtain rfl := Sum.inr.inj hd
      obtain rfl := Order.arrange_eq_nil.mp hempty
      refine ⟨hacc.fetched hs, fun c => ?_⟩
      by_cases hc : c ∈ acc.keys
      · rw [show acc.getD c [] = m.getD c [] from hacc.edges c hc]
        exact hm c
      · rw [getD_of_not_mem [] hc]
        exact nodup_nil
    · cases hd

/-- The outer loop ends; each dictionary is the fetch of a batch of the chains asked for, and each of
    these chains that has links is in one of them. -/
theorem yields_fetch {s : LinkStore} {fetch : List ℕ → Option (Dict ℕ (List ChainEdge))}
    {N : ℕ} (hfetch : ∀ batch, batch.Nodup → batch.length ≤ N →
      ∃ links, fetch batch = some links ∧ FetchedOnce s batch links) :
    ∀ (n : ℕ) (chains : List ℕ), chains.Nodup → chains.length ≤ n → chains.length ≤ N →
      ∃ dicts, yields o fetch n chains = some dicts ∧
        (∀ links ∈ dicts, ∃ batch, (∀ c ∈ batch, c ∈ chains) ∧ FetchedOnce s batch links) ∧
        ∀ c ∈ chains, (∃ l ∈ s.links, l.srcChain = c) → ∃ links ∈ dicts, c ∈ links.keys := by
  intro n
  induction n with
  | zero =>
    intro chains _ hlen _
    obtain rfl := eq_nil_of_length_eq_zero (Nat.le_zero.mp hlen)
    exact ⟨[], rfl, by simp, by simp⟩
  | succ n ih =>
    intro chains hnd hlen hN
    cases chains with
    | nil => exact ⟨[], rfl, by simp, by simp⟩
    | cons c cs =>
      obtain ⟨arranged, harr⟩ : ∃ l, l = (o.chainsToFetch (c :: cs)).arrange (c :: cs) := ⟨_, rfl⟩
      have hmem : ∀ x, x ∈ arranged ↔ x ∈ c :: cs := fun x => by rw [harr, Order.mem_arrange]
      have hnd' : arranged.Nodup := by rwa [harr, Order.nodup_arrange]
      have hlen' : arranged.length = (c :: cs).length := by rw [harr, ((o.chainsToFetch _).perm _).length_eq]
      obtain ⟨links, hlinks, hfetched⟩ := hfetch (arranged.take 1000) (hnd'.sublist (take_sublist _ _))
        ((length_take_le' _ _).trans (hlen'.trans_le hN))
      obtain ⟨rest, hrest, hbatches, hall⟩ := ih ((arranged.drop 1000).filter (· ∉ links.keys))
        ((hnd'.sublist (drop_sublist _ _)).filter _)
        (by
          have h1 := length_filter_le (· ∉ links.keys) (arranged.drop 1000)
          rw [length_drop, hlen'] at h1
          rw [length_cons] at hlen h1
          omega)
        (((length_filter_le _ _).trans (drop_sublist _ _).length_le).trans (hlen'.trans_le hN))
      refine ⟨links :: rest, by rw [yields, ← harr, hlinks, bind_eq_bind, bind_some, hrest]; rfl,
        fun D hD => ?_, fun x hx hl => ?_⟩
      · rcases mem_cons.mp hD with rfl | hD
        · exact ⟨_, fun x hx => (hmem x).mp (mem_of_mem_take hx), hfetched⟩
        · obtain ⟨batch, hb, hf⟩ := hbatches D hD
          exact ⟨batch, fun x hx => (hmem x).mp (mem_of_mem_drop (mem_filter.mp (hb x hx)).1), hf⟩
      · by_cases hk : x ∈ links.keys
        · exact ⟨links, (.head _), hk⟩
        · have hx' := (hmem x).mpr hx
          rw [← take_append_drop 1000 arranged, mem_append] at hx'
          have hdrop : x ∈ arranged.drop 1000 :=
            hx'.resolve_left fun ht => hk ((hfetched.keys x).mpr ⟨⟨x, ht, .refl⟩, hl⟩)
          obtain ⟨D, hD, hxD⟩ := hall x (mem_filter.mpr ⟨hdrop, decide_eq_true hk⟩) hl
          exact ⟨D, mem_cons_of_mem _ hD, hxD⟩

/-- All links of every chain that a chain of the dictionary leads to are in the dictionary, each once. -/
def SelfContained (rows : List Link) (links : Dict ℕ (List ChainEdge)) : Prop :=
  ∀ c ∈ links.keys, ∀ d, BelowEq (LinkStore.sql rows).next c d →
    (links.getD d []).Nodup ∧ ∀ x, x ∈ links.getD d [] ↔ edgeLink d x ∈ rows

theorem FetchedOnce.selfContained {s : LinkStore} {batch : List ℕ}
    {links : Dict ℕ (List ChainEdge)} (h : FetchedOnce s batch links) (hs : ∀ l, l ∈ rows ↔ l ∈ s.links) :
    SelfContained rows links := by
  intro c hc d hcd
  refine ⟨h.once d, fun x => ?_⟩
  have hreach : BelowEq s.next c d := by
    refine Relation.ReflTransGen.mono (fun a b hab => ?_) c d hcd
    obtain ⟨l, hl, hsrc, hdst⟩ := mem_next.mp hab
    exact mem_next.mpr ⟨l, (hs l).mp hl, hsrc, hdst⟩
  by_cases hd : d ∈ links.keys
  · rw [h.edges d hd, hs]
  · rw [getD_of_not_mem [] hd, hs]
    refine ⟨nofun, fun hx => absurd ((h.keys d).mpr ?_) hd⟩
    obtain ⟨⟨b, hb, hbc⟩, -⟩ := (h.keys c).mp hc
    exact ⟨⟨b, hb, hbc.trans hreach⟩, edgeLink d x, hx, rfl⟩

/-- After the same puts and deletes on both stores, `_get_chain_links` ends on either of them, for any
    set of chains and in whatever orders sets and rows come; every dictionary it yields is self-contained,
    every chain asked for that has links is in one of them, and the two modes give the same links for
    every chain they both yield. -/
theorem chain_links_refine_table (ops : List LinkOp) (o o' : Orders) {chains : List ℕ} (hnd : chains.Nodup) :
    ∃ N, ∀ fuel ≥ N, ∃ fromTable fromEngine,
      getChainLinksIn o (.sql (ops.foldl LinkOp.table [])) fuel chains = some fromTable ∧
      getChainLinksIn o' (.embedded (ops.foldl LinkOp.embedded Dict.empty)) fuel chains = some fromEngine ∧
      (∀ links ∈ fromTable ++ fromEngine, SelfContained (ops.foldl LinkOp.table []) links) ∧
      (∀ c ∈ chains, (∃ l ∈ ops.foldl LinkOp.table [], l.srcChain = c) →
        (∃ links ∈ fromTable, c ∈ links.keys) ∧ ∃ links ∈ fromEngine, c ∈ links.keys) ∧
      ∀ links ∈ fromTable, ∀ links' ∈ fromEngine, ∀ c ∈ links.keys, c ∈ links'.keys →
        (links.getD c []).Perm (links'.getD c []) := by
  have htwin := twin_run ops
  obtain ⟨rows, hrows⟩ : ∃ rows, rows = ops.foldl LinkOp.table [] := ⟨_, rfl⟩
  obtain ⟨m, hm⟩ : ∃ m, m = ops.foldl LinkOp.embedded Dict.empty := ⟨_, rfl⟩
  rw [← hrows, ← hm] at htwin ⊢
  refine ⟨rows.length + rows.length + (LinkStore.embedded m).links.length + chains.length + 1,
    fun fuel hfuel => ?_⟩
  obtain ⟨fromTable, htable, htable₁, htable₂⟩ := yields_fetch o
    (fun batch _ (_ : batch.length ≤ chains.length) =>
      queryLinks_fetches o htwin.rows_nodup (show rows.length + rows.length < fuel by omega))
    fuel chains hnd (by omega) le_rfl
  obtain ⟨fromEngine, hengine, hengine₁, hengine₂⟩ := yields_fetch o'
    (fun batch hb (hlen : batch.length ≤ chains.length) =>
      walkSeeds_fetches o' htwin.edges_nodup hb
        (show (LinkStore.embedded m).links.length + batch.length < fuel by omega))
    fuel chains hnd (by omega) le_rfl
  have hself : ∀ links ∈ fromTable ++ fromEngine, SelfContained rows links := by
    intro links hl
    rcases mem_append.mp hl with hl | hl
    · obtain ⟨batch, -, hf⟩ := htable₁ links hl
      exact hf.selfContained fun _ => Iff.rfl
    · obtain ⟨batch, -, hf⟩ := hengine₁ links hl
      exact hf.selfContained htwin.same
  refine ⟨fromTable, fromEngine, htable, hengine, hself, fun c hc hl => ⟨htable₂ c hc hl, ?_⟩,
    fun links hl links' hl' c hc hc' => ?_⟩
  · obtain ⟨l, hl, hsrc⟩ := hl
    exact hengine₂ c hc ⟨l, (htwin.same l).mp hl, hsrc⟩
  · obtain ⟨hnd₁, hmem₁⟩ := hself links (mem_append_left _ hl) c hc c .refl
    obtain ⟨hnd₂, hmem₂⟩ := hself links' (mem_append_right _ hl') c hc' c .refl
    exact (perm_ext_iff_of_nodup hnd₁ hnd₂).mpr fun x => (hmem₁ x).trans (hmem₂ x).symm

/-- A cycle of two chains, put with a repeat, and a third chain put and deleted again. -/
def cyclicOps : List LinkOp :=
  [.put [⟨1, 1, 2, 1⟩, ⟨1, 1, 2, 1⟩, ⟨3, 4, 1, 1⟩], .put [⟨2, 2, 1, 1⟩, ⟨1, 1, 2, 1⟩], .delete [(3, 4)]]

theorem chain_links_refine_table_cycle : ∃ fuel fromTable fromEngine,
    getChainLinksIn ⟨fun _ => .asAdded, fun _ => .asAdded, fun _ => .asAdded⟩
      (.sql (cyclicOps.foldl LinkOp.table [])) fuel [1, 3] = some fromTable ∧
    getChainLinksIn ⟨fun _ => .latestFirst, fun _ => .latestFirst, fun _ => .latestFirst⟩
      (.embedded (cyclicOps.foldl LinkOp.embedded Dict.empty)) fuel [1, 3] = some fromEngine ∧
    ∃ links ∈ fromEngine, 1 ∈ links.keys := by
  obtain ⟨N, hN⟩ := chain_links_refine_table cyclicOps ⟨fun _ => .asAdded, fun _ => .asAdded, fun _ => .asAdded⟩
    ⟨fun _ => .latestFirst, fun _ => .latestFirst, fun _ => .latestFirst⟩
    (show ([1, 3] : List ℕ).Nodup by decide)
  obtain ⟨fromTable, fromEngine, htable, hengine, -, hall, -⟩ := hN N le_rfl
  exact ⟨N, fromTable, fromEngine, htable, hengine, (hall 1 (by decide) ⟨⟨1, 1, 2, 1⟩, by decide, rfl⟩).2⟩

end Sithnapse.ChainCover
