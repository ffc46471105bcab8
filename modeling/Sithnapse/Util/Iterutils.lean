import Mathlib.Order.Lattice
import Sithnapse.Kit.Dict
import Sithnapse.Kit.Greedy

/-! `batch_iter`, `sorted_topologically` and `sorted_topologically_batched` of
    `synapse/util/iterutils.py`. The latter two are Kahn's algorithm over a mapping from nodes to the
    nodes they depend on: one with a heap that always releases the smallest free node, the other
    releases all free nodes at once.

    On an acyclic graph every node comes out exactly once (`topo_nodup`, `mem_topo`), after the
    nodes it depends on (`topo_before`); a batch holds the nodes with equally long paths. -/

namespace Sithnapse.Iterutils
open Kit Kit.Dict List

/-- `batch_iter(l, size)`, at most `n` batches. -/
def batches {α : Type} (size : ℕ) : ℕ → List α → List (List α)
  | 0, _ => []
  | _ + 1, [] => []
  | n + 1, x :: l => (x :: l).take size :: batches size n ((x :: l).drop size)

/-- `batch_iter(l, size)`. -/
def batchIter {α : Type} (l : List α) (size : ℕ) : List (List α) := batches size l.length l

theorem flatten_batchIter {α : Type} (l : List α) {size : ℕ} (hsize : 0 < size) :
    (batchIter l size).flatten = l := by
  have key : ∀ (n : ℕ) (l : List α), l.length ≤ n → (batches size n l).flatten = l := by
    intro n
    induction n with
    | zero =>
      intro l hl
      rw [eq_nil_of_length_eq_zero (Nat.le_zero.mp hl)]
      rfl
    | succ n ih =>
      intro l hl
      cases l with
      | nil => rfl
      | cons y l =>
        have hdrop : ((y :: l).drop size).length ≤ n := by
          rw [length_drop, length_cons] at *
          omega
        rw [batches, flatten_cons, ih _ hdrop, take_append_drop]
  exact key l.length l (le_refl _)

theorem mem_batchIter {α : Type} {l : List α} {size : ℕ} (hsize : 0 < size) {x : α} :
    (∃ b ∈ batchIter l size, x ∈ b) ↔ x ∈ l := by
  rw [← mem_flatten, flatten_batchIter l hsize]

variable {E : Type} [LinearOrder E]

/-- Count one node's edges: its degree over the nodes being sorted, and the reverse edges. -/
def countEdges (node : E) (edges : List E) (st : Dict E ℕ × Dict E (List E)) : Dict E ℕ × Dict E (List E) :=
  edges.dedup.foldl
    (fun st edge =>
      (if edge ∈ st.1.keys then st.1.set node (st.1.getD node 0 + 1) else st.1,
        st.2.set edge (addIf (st.2.getD edge []) node)))
    st

variable (nodes : List E)

variable (graph : Dict E (List E))

/-- `degree_map` and `reverse_graph`; keys of the graph outside `nodes` are skipped. -/
def degrees : Dict E ℕ × Dict E (List E) :=
  graph.entries.foldl
    (fun st p =>
      if p.1 ∈ st.1.keys then
        let st := countEdges p.1 p.2 st
        (st.1, if p.1 ∈ st.2.keys then st.2 else st.2.set p.1 [])
      else st)
    (Dict.ofList (nodes.map fun n => (n, 0)), Dict.empty)

/-- `heapq.heappop`: the smallest entry and the rest. -/
def heappop (heap : List E) : Option (E × List E) := heap.min?.map fun m => (m, heap.erase m)

/-- Release one dependent of a node that was just yielded. -/
def release (st : List E × Dict E ℕ) (edge : E) : List E × Dict E ℕ :=
  if edge ∈ st.2.keys then
    let d := st.2.getD edge 0 - 1
    (if d = 0 then st.1 ++ [edge] else st.1, st.2.set edge d)
  else st

/-- The main loop, at most `n` rounds. -/
def kahn (reverseGraph : Dict E (List E)) : ℕ → List E → Dict E ℕ → List E
  | 0, _, _ => []
  | n + 1, zeroDegree, degreeMap =>
    match heappop zeroDegree with
    | none => []
    | some (node, rest) =>
      let st := (reverseGraph.getD node []).foldl release (rest, degreeMap)
      node :: kahn reverseGraph n st.1 st.2

/-- `sorted_topologically(nodes, graph)`. -/
def sortedTopologically : List E :=
  let (degreeMap, reverseGraph) := degrees nodes graph
  let zeroDegree := degreeMap.keys.filter fun n => degreeMap.getD n 0 = 0
  kahn reverseGraph degreeMap.keys.length zeroDegree degreeMap

/-- The loop over batches, at most `n` of them. -/
def layers (reverseGraph : Dict E (List E)) : ℕ → List E → Dict E ℕ → List (List E)
  | 0, _, _ => []
  | _ + 1, [], _ => []
  | n + 1, node :: rest, degreeMap =>
    let st := (node :: rest).foldl (fun st node => (reverseGraph.getD node []).foldl release st) ([], degreeMap)
    (node :: rest) :: layers reverseGraph n st.1 st.2

/-- `sorted_topologically_batched(nodes, graph)`. -/
def sortedTopologicallyBatched : List (List E) :=
  let (degreeMap, reverseGraph) := degrees nodes graph
  let zeroDegree := degreeMap.keys.filter fun n => degreeMap.getD n 0 = 0
  layers reverseGraph degreeMap.keys.length zeroDegree degreeMap

/-! ### What the counting pass leaves -/

/-- The nodes being sorted that `n` depends on. -/
def deps (N : List E) (graph : Dict E (List E)) (n : E) : List E :=
  (graph.getD n []).dedup.filter (· ∈ N)

/-- The counting pass after some edges of one node. -/
structure EdgesCounted (node : E) (st : Dict E ℕ × Dict E (List E)) (pre : List E)
    (r : Dict E ℕ × Dict E (List E)) : Prop where
  keys : ∀ x, x ∈ r.1.keys ↔ x ∈ st.1.keys
  deg : ∀ x, r.1.getD x 0 = st.1.getD x 0 + if x = node then (pre.filter (· ∈ st.1.keys)).length else 0
  rev : ∀ x m, m ∈ r.2.getD x [] ↔ m ∈ st.2.getD x [] ∨ m = node ∧ x ∈ pre
  rev_nodup : ∀ x, (r.2.getD x []).Nodup

theorem countEdges_spec {node : E} {st : Dict E ℕ × Dict E (List E)} (hn : node ∈ st.1.keys)
    (hst : ∀ x, (st.2.getD x []).Nodup) (edges : List E) :
    EdgesCounted node st edges.dedup (countEdges node edges st) := by
  refine foldl_visited _ (EdgesCounted node st) _ ⟨fun _ => Iff.rfl, by simp, by simp, hst⟩ ?_
  rintro pre e _ r - ⟨hkeys, hdeg, hrev, hnd⟩
  simp only [hkeys e]
  refine ⟨fun x => ?_, fun x => ?_, fun x m => ?_, fun x => ?_⟩
  · split
    · rw [mem_keys_set, hkeys]
      exact or_iff_right_of_imp fun hx => hx ▸ hn
    · exact hkeys x
  · by_cases he : e ∈ st.1.keys
    · by_cases hx : x = node
      · simp [he, hx, getD_set, hdeg, Nat.add_assoc]
      · simp [he, hx, getD_set, hdeg]
    · simp [he, hdeg]
  · by_cases hx : x = e
    · simp only [hx, getD_set, if_true, mem_addIf, hrev, mem_concat, or_true, and_true]
      tauto
    · simp [hx, getD_set, hrev]
  · rw [getD_set]
    split
    · exact nodup_addIf _ (hnd e)
    · exact hnd x

/-- The state of the counting pass once the entries `pre` of the graph have been visited. -/
structure Counted (N : List E) (pre : List (E × List E)) (st : Dict E ℕ × Dict E (List E)) : Prop where
  keys : ∀ x, x ∈ st.1.keys ↔ x ∈ N
  deg : ∀ n es, (n, es) ∈ pre → n ∈ N → st.1.getD n 0 = (es.dedup.filter (· ∈ N)).length
  deg_zero : ∀ n, n ∉ pre.map Prod.fst → st.1.getD n 0 = 0
  rev : ∀ x m, m ∈ st.2.getD x [] ↔ m ∈ N ∧ ∃ es, (m, es) ∈ pre ∧ x ∈ es
  rev_nodup : ∀ x, (st.2.getD x []).Nodup

theorem counted_step {N : List E} {pre : List (E × List E)} {st : Dict E ℕ × Dict E (List E)}
    (p : E × List E) (hp : p.1 ∉ pre.map Prod.fst) (h : Counted N pre st) :
    Counted N (pre ++ [p])
      (if p.1 ∈ st.1.keys then
        let st := countEdges p.1 p.2 st
        (st.1, if p.1 ∈ st.2.keys then st.2 else st.2.set p.1 [])
      else st) := by
  obtain ⟨n, es⟩ := p
  have hedge : ∀ x m, (∃ es', (m, es') ∈ pre ++ [(n, es)] ∧ x ∈ es') ↔
      (∃ es', (m, es') ∈ pre ∧ x ∈ es') ∨ m = n ∧ x ∈ es := by
    intro x m
    simp [or_and_right, exists_or, and_assoc]
  by_cases hn : n ∈ st.1.keys
  · rw [if_pos hn]
    obtain ⟨h1, h2, h3, h4⟩ := countEdges_spec hn h.rev_nodup es
    -- `setdefault(node, set())` adds an empty entry only where there was none
    have hget : ∀ x, (if n ∈ (countEdges n es st).2.keys then (countEdges n es st).2
        else (countEdges n es st).2.set n []).getD x [] = (countEdges n es st).2.getD x [] := by
      intro x
      split_ifs with hk
      · rfl
      · rw [getD_set]
        split
        · rename_i hx
          rw [hx, getD_of_not_mem _ hk]
        · rfl
    have hN : n ∈ N := (h.keys n).mp hn
    refine ⟨fun x => (h1 x).trans (h.keys x), ?_, ?_, ?_, ?_⟩
    · intro n' es' hm hn'
      simp only [h2 n', h.keys]
      rcases mem_concat.mp hm with hm₁ | hm₁
      · have hne : n' ≠ n := by
          rintro rfl
          exact hp (mem_map.mpr ⟨(n', es'), hm₁, rfl⟩)
        rw [if_neg hne, h.deg n' es' hm₁ hn', Nat.add_zero]
      · obtain ⟨rfl, rfl⟩ := Prod.mk.inj hm₁
        rw [if_pos rfl, h.deg_zero n' hp, Nat.zero_add]
    · intro n' hn'
      rw [map_append, mem_append, not_or] at hn'
      rw [h2 n', if_neg (by simpa using hn'.2), h.deg_zero n' hn'.1]
    · intro x m
      rw [hget, h3 x m, h.rev x m, mem_dedup, hedge, and_or_left]
      exact or_congr_right (and_iff_right_of_imp fun hm => hm.1 ▸ hN).symm
    · intro x
      rw [hget]
      exact h4 x
  · rw [if_neg hn]
    have hN : n ∉ N := fun hc => hn ((h.keys n).mpr hc)
    refine ⟨h.keys, ?_, ?_, ?_, h.rev_nodup⟩
    · intro n' es' hm hn'
      rcases mem_concat.mp hm with hm | hm
      · exact h.deg n' es' hm hn'
      · exact absurd ((Prod.mk.inj hm).1 ▸ hn') hN
    · intro n' hn'
      rw [map_append, mem_append, not_or] at hn'
      exact h.deg_zero n' hn'.1
    · intro x m
      rw [h.rev x m, hedge]
      exact and_congr_right fun hm => (or_iff_left (fun hmn : m = n ∧ x ∈ es => hN (hmn.1 ▸ hm))).symm

theorem counted_degrees :
    Counted (Dict.ofList (nodes.map fun n => (n, 0))).keys graph.entries (degrees nodes graph) := by
  have hzero : ∀ n, (Dict.ofList (nodes.map fun n => (n, 0))).getD n 0 = 0 := by
    intro n
    rw [Dict.getD]
    cases hg : (Dict.ofList (nodes.map fun n => (n, 0))).get? n with
    | none => rfl
    | some v =>
      rcases get?_update_cases _ _ hg with hm | hm
      · obtain ⟨x, _, hx⟩ := mem_map.mp hm
        exact (Prod.mk.inj hx).2.symm
      · simp at hm
  have hbase : Counted (Dict.ofList (nodes.map fun n => (n, 0))).keys []
      (Dict.ofList (nodes.map fun n => (n, 0)), (Dict.empty : Dict E (List E))) :=
    ⟨fun _ => Iff.rfl, by simp, fun n _ => hzero n, fun _ _ => by simp, fun _ => by simp⟩
  refine foldl_visited _ (Counted (Dict.ofList (nodes.map fun n => (n, 0))).keys) graph.entries hbase ?_
  intro pre p post st hl h
  refine counted_step p ?_ h
  have hnd : ((pre ++ p :: post).map Prod.fst).Nodup := hl ▸ graph.nodup
  rw [map_append] at hnd
  exact not_mem_of_nodup hnd

/-! ### The main loop -/

/-- The state after some of the nodes that wait for the one just yielded have been told. -/
structure Released (heap : List E) (deg : Dict E ℕ) (pre : List E) (st : List E × Dict E ℕ) : Prop where
  keys : ∀ x, x ∈ st.2.keys ↔ x ∈ deg.keys
  degree : ∀ x, st.2.getD x 0 = if x ∈ pre then deg.getD x 0 - 1 else deg.getD x 0
  zero : ∀ x, x ∈ st.1 ↔ x ∈ heap ∨ x ∈ pre ∧ deg.getD x 0 - 1 = 0
  nodup : st.1.Nodup

theorem released_foldl {l heap : List E} {deg : Dict E ℕ} (hl : l.Nodup) (hk : ∀ m ∈ l, m ∈ deg.keys)
    (hh : heap.Nodup) (hfresh : ∀ m ∈ l, m ∉ heap) :
    Released heap deg l (l.foldl release (heap, deg)) := by
  refine foldl_visited release (Released heap deg) l ⟨fun _ => Iff.rfl, by simp, by simp, hh⟩ ?_
  rintro pre m post st rfl ⟨hkeys, hget, hmem, hnd⟩
  have hml : m ∈ pre ++ m :: post := by simp
  have hpre := not_mem_of_nodup hl
  have hm := (hkeys m).mpr (hk m hml)
  have hnot : m ∉ st.1 := by
    rw [hmem]
    rintro (h | h)
    · exact hfresh m hml h
    · exact hpre h.1
  simp only [release, if_pos hm, hget m, if_neg hpre]
  refine ⟨fun x => ?_, fun x => ?_, fun x => ?_, ?_⟩
  · rw [mem_keys_set, hkeys]
    exact or_iff_right_of_imp fun hx => hx ▸ hk m hml
  · rw [getD_set, hget x]
    by_cases hx : x = m <;> simp [hx]
  · rcases eq_or_ne x m with rfl | hx
    · split_ifs with hz
      · simp [hz]
      · simp [hz, hmem]
    · split <;> simp [hx, hmem]
  · split
    · exact nodup_append_singleton.mpr ⟨hnd, hnot⟩
    · exact hnd

/-- What already waits in the heap does not matter. -/
theorem release_append (a : List E) : ∀ (l b : List E) (deg : Dict E ℕ), l.foldl release (a ++ b, deg) =
      (a ++ (l.foldl release (b, deg)).1, (l.foldl release (b, deg)).2)
  | [], _, _ => rfl
  | m :: l, b, deg => by
    have hm : release (a ++ b, deg) m = (a ++ (release (b, deg) m).1, (release (b, deg) m).2) := by
      simp only [release]
      split_ifs <;> simp
    rw [foldl_cons, hm, release_append a l, foldl_cons]

/-- There is a path of `k` references from the node. -/
def HasPath {α : Type} (dep : α → List α) : ℕ → α → Prop
  | 0, _ => True
  | k + 1, n => ∃ d ∈ dep n, HasPath dep k d

theorem HasPath.of_succ {α : Type} {dep : α → List α} : ∀ {k : ℕ} {n : α}, HasPath dep (k + 1) n → HasPath dep k n
  | 0, _, _ => trivial
  | _ + 1, _, ⟨d, hd, h⟩ => ⟨d, hd, h.of_succ⟩

theorem HasPath.mono {α : Type} {dep : α → List α} {j k : ℕ} {n : α} (hjk : j ≤ k) (h : HasPath dep k n) :
    HasPath dep j n := by
  induction hjk with
  | refl => exact h
  | step _ ih => exact ih h.of_succ

/-- The heap holds exactly the free nodes: not yet yielded, all dependencies yielded. -/
structure Frontier (N : List E) (dep : E → List E) (done heap : List E) (deg : Dict E ℕ) : Prop where
  keys : ∀ x, x ∈ deg.keys ↔ x ∈ N
  deg_eq : ∀ n ∈ N, deg.getD n 0 = ((dep n).filter (· ∉ done)).length
  heap_iff : ∀ n, n ∈ heap ↔ n ∈ N ∧ n ∉ done ∧ ∀ d ∈ dep n, d ∈ done
  heap_nodup : heap.Nodup
  done_nodup : done.Nodup
  done_sub : ∀ n ∈ done, n ∈ N
  done_dep : ∀ n ∈ done, ∀ d ∈ dep n, d ∈ done

theorem filter_not_mem_concat (l done : List E) (hl : l.Nodup) (x : E) (hx : x ∉ done) :
    (l.filter (· ∉ done ++ [x])).length =
      if x ∈ l then (l.filter (· ∉ done)).length - 1 else (l.filter (· ∉ done)).length := by
  have hfil : l.filter (· ∉ done ++ [x]) = (l.filter (· ∉ done)).erase x := by
    rw [List.Nodup.erase_eq_filter (hl.filter _), filter_filter]
    refine filter_congr fun y _ => ?_
    by_cases h1 : y ∈ done <;> by_cases h2 : y = x <;> simp [h1, h2]
  rw [hfil]
  split_ifs with h
  · exact length_erase_of_mem (mem_filter.mpr ⟨h, by simpa using hx⟩)
  · rw [erase_of_not_mem]
    exact fun hc => h (mem_filter.mp hc).1

section Loops

variable {N : List E} {dep : E → List E} {R : Dict E (List E)} (hdep : ∀ n, (dep n).Nodup)
  (hself : ∀ n, n ∉ dep n) (hrev : ∀ x ∈ N, ∀ m, m ∈ R.getD x [] ↔ m ∈ N ∧ x ∈ dep m)
  (hnd : ∀ x, (R.getD x []).Nodup) {done heap : List E} {deg : Dict E ℕ}
include hdep hself hrev hnd

/-- Yielding a free node frees exactly those that waited only for it. -/
theorem frontier_step {node : E} {rest : List E} (h : Frontier N dep done heap deg)
    (hheap : heap.Perm (node :: rest)) : Frontier N dep (done ++ [node])
      ((R.getD node []).foldl release (rest, deg)).1
      ((R.getD node []).foldl release (rest, deg)).2 := by
  obtain ⟨hN, hdone, hnode⟩ := (h.heap_iff node).mp (hheap.mem_iff.mpr (.head _))
  obtain ⟨hne, hrest⟩ := nodup_cons.mp (hheap.nodup_iff.mp h.heap_nodup)
  have hmem : ∀ x, x ∈ rest ↔ x ≠ node ∧ x ∈ heap := by
    intro x
    rw [hheap.mem_iff, mem_cons]
    constructor
    · exact fun hx => ⟨ne_of_mem_of_not_mem hx hne, .inr hx⟩
    · exact fun hx => hx.2.resolve_left hx.1
  obtain ⟨h1, h2, h3, h4⟩ := released_foldl (hnd node)
    (fun x hx => (h.keys x).mpr ((hrev node hN x).mp hx).1) hrest fun x hx hc =>
      hdone (((h.heap_iff x).mp ((hmem x).mp hc).2).2.2 node ((hrev node hN x).mp hx).2)
  have hdeg : ∀ n ∈ N, (if n ∈ R.getD node [] then deg.getD n 0 - 1 else deg.getD n 0) =
      ((dep n).filter (· ∉ done ++ [node])).length := by
    intro n hn
    rw [filter_not_mem_concat _ _ (hdep n) _ hdone, h.deg_eq n hn]
    simp only [hrev node hN, hn, true_and]
  have hzero : ∀ n, ((dep n).filter (· ∉ done ++ [node])).length = 0 ↔ ∀ d ∈ dep n, d ∈ done ++ [node] := by
    intro n
    rw [length_eq_zero_iff, filter_eq_nil_iff]
    simp only [decide_eq_true_eq, not_not]
  refine ⟨fun x => (h1 x).trans (h.keys x), fun n hn => (h2 n).trans (hdeg n hn), fun n => ?_, h4,
    nodup_append_singleton.mpr ⟨h.done_nodup, hdone⟩, forall_mem_concat.mpr ⟨h.done_sub, hN⟩,
    forall_mem_concat.mpr ⟨fun n hn d hd => mem_append_left _ (h.done_dep n hn d hd),
      fun d hd => mem_append_left _ (hnode d hd)⟩⟩
  rw [h3 n, hmem n, h.heap_iff n, mem_concat, not_or]
  constructor
  · rintro (⟨hne, hn, hnd', hd⟩ | ⟨hn, hz⟩)
    · exact ⟨hn, ⟨hnd', hne⟩, fun d hd' => mem_append_left _ (hd d hd')⟩
    · obtain ⟨hnN, hmn⟩ := (hrev node hN n).mp hn
      have hz' := hdeg n hnN
      rw [if_pos hn, hz] at hz'
      refine ⟨hnN, ⟨fun hc => hdone (h.done_dep n hc node hmn), ?_⟩, (hzero n).mp hz'.symm⟩
      rintro rfl
      exact hself _ hmn
  · rintro ⟨hn, hnd', hd⟩
    by_cases hx : node ∈ dep n
    · have hr := (hrev node hN n).mpr ⟨hn, hx⟩
      have hz := hdeg n hn
      rw [if_pos hr] at hz
      exact .inr ⟨hr, hz.trans ((hzero n).mpr hd)⟩
    · refine .inl ⟨hnd'.2, hn, hnd'.1, fun d hd' => ?_⟩
      exact (mem_concat.mp (hd d hd')).resolve_right fun h' => hx (h' ▸ hd')

omit hdep hself hrev hnd in
/-- When all nodes have been yielded, none is ready. -/
theorem Frontier.stuck (h : Frontier N dep done heap deg) (hlen : N.length ≤ done.length) (x : E) :
    ¬ Ready (· ∈ N) (fun x y => y ∈ dep x) done x := fun hx =>
  hx.2.1 (((subperm_of_subset h.done_nodup h.done_sub).perm_of_length_le hlen).mem_iff.mpr hx.1)

/-- The heap gives the greedy order. -/
theorem kahn_greedy : ∀ (n : ℕ) (done heap : List E) (deg : Dict E ℕ), Frontier N dep done heap deg →
    N.length ≤ done.length + n → Greedy (· ∈ N) (fun x y => y ∈ dep x) id done (kahn R n heap deg)
  | 0, done, heap, deg, h, hlen => h.stuck hlen
  | n + 1, done, heap, deg, h, hlen => by
    rw [kahn]
    cases hmin : heap.min? with
    | none =>
      rw [heappop, hmin]
      rw [min?_eq_none_iff.mp hmin] at h
      exact fun x hx => not_mem_nil ((h.heap_iff x).mpr hx)
    | some node =>
      have hnode := min?_mem hmin
      rw [heappop, hmin]
      refine ⟨(h.heap_iff node).mp hnode, fun y hy => ?_, kahn_greedy n _ _ _
        (frontier_step hdep hself hrev hnd h (perm_cons_erase hnode)) ?_⟩
      · exact (le_min?_iff hmin).mp le_rfl y ((h.heap_iff y).mpr hy)
      · rw [length_append, length_singleton]
        omega

/-- Yielding all free nodes at once. -/
theorem frontier_layer : ∀ (zero new done : List E) (deg : Dict E ℕ), Frontier N dep done (zero ++ new) deg →
    let st := zero.foldl (fun st node => (R.getD node []).foldl release st) (new, deg)
    Frontier N dep (done ++ zero) st.1 st.2
  | [], _, _, _, h => by simpa using h
  | node :: zero, new, done, deg, h => by
    have hstep := frontier_step hdep hself hrev hnd h (.refl (node :: (zero ++ new)))
    rw [release_append] at hstep
    rw [append_cons]
    exact frontier_layer zero _ _ _ hstep

omit [LinearOrder E] hdep hself hrev hnd in
/-- Once no node is ready there is nothing left for any batch. -/
theorem layers_end {i : ℕ} (hac : Chain.Acyclic dep) (hsub : ∀ n ∈ N, ∀ d ∈ dep n, d ∈ N)
    (hdone : ∀ x, x ∈ done ↔ x ∈ N ∧ ¬ HasPath dep i x)
    (hstuck : ∀ x, ¬ Ready (· ∈ N) (fun x y => y ∈ dep x) done x) :
    Topological (· ∈ N) (fun x y => y ∈ dep x) done [] ∧
      ∀ j x, ¬ (x ∈ N ∧ HasPath dep (i + j) x ∧ ¬ HasPath dep (i + j + 1) x) :=
  ⟨⟨by simp, by simpa using hstuck⟩, fun j x hx =>
    ((hdone x).mp (hac.mem_of_stuck hsub hstuck x hx.1)).2 (hx.2.1.mono (Nat.le_add_right i j))⟩

/-- Each batch holds the nodes whose longest path has the length of its index. -/
theorem layers_spec (hac : Chain.Acyclic dep) (hsub : ∀ n ∈ N, ∀ d ∈ dep n, d ∈ N) :
    ∀ (n i : ℕ) (done zero : List E) (deg : Dict E ℕ), Frontier N dep done zero deg →
    N.length ≤ done.length + n → (∀ x, x ∈ done ↔ x ∈ N ∧ ¬ HasPath dep i x) →
    Topological (· ∈ N) (fun x y => y ∈ dep x) done (layers R n zero deg).flatten ∧
      ∀ j x, x ∈ (layers R n zero deg).getD j [] ↔ x ∈ N ∧ HasPath dep (i + j) x ∧ ¬ HasPath dep (i + j + 1) x
  | 0, i, done, zero, deg, h, hlen, hdone => by
    simpa [layers] using layers_end hac hsub hdone (h.stuck hlen)
  | n + 1, i, done, [], deg, h, hlen, hdone => by
    simpa [layers] using layers_end hac hsub hdone fun x hx => not_mem_nil ((h.heap_iff x).mpr hx)
  | n + 1, i, done, node :: rest, deg, h, hlen, hdone => by
    have hzero : ∀ x, x ∈ node :: rest ↔ x ∈ N ∧ HasPath dep i x ∧ ¬ HasPath dep (i + 1) x := by
      intro x
      rw [h.heap_iff]
      refine and_congr_right fun hx => and_congr (by simp [hdone, hx]) ?_
      simp only [HasPath, not_exists, not_and]
      exact forall₂_congr fun d hd => (hdone d).trans (and_iff_right (hsub x hx d hd))
    obtain ⟨horder, hlayers⟩ := layers_spec hac hsub n (i + 1) _ _ _
      (frontier_layer hdep hself hrev hnd (node :: rest) [] done deg (by simpa using h))
      (by rw [length_append, length_cons]; omega) (by
        intro x
        have hsucc : HasPath dep (i + 1) x → HasPath dep i x := HasPath.of_succ
        rw [mem_append, hdone, hzero]
        tauto)
    refine ⟨.append h.heap_nodup (fun x hx => (h.heap_iff x).mp hx) horder, fun j x => ?_⟩
    cases j with
    | zero => exact hzero x
    | succ j =>
      rw [← Nat.add_assoc, Nat.add_right_comm i j 1]
      exact hlayers j x

end Loops

/-! ### The sort -/

theorem mem_keys_degrees {x : E} : x ∈ (degrees nodes graph).1.keys ↔ x ∈ nodes := by
  rw [(counted_degrees nodes graph).keys x, mem_keys_ofList]
  simp

theorem mem_deps {nodes : List E} {graph : Dict E (List E)} {n d : E} :
    d ∈ deps nodes graph n ↔ d ∈ graph.getD n [] ∧ d ∈ nodes := by
  simp [deps]

theorem degree_eq {n : E} (hn : n ∈ nodes) :
    (degrees nodes graph).1.getD n 0 = (deps nodes graph n).length := by
  have h := counted_degrees nodes graph
  have hmem : ∀ x, x ∈ (Dict.ofList (nodes.map fun n => (n, 0))).keys ↔ x ∈ nodes := by
    intro x
    rw [mem_keys_ofList]
    simp
  cases hg : graph.get? n with
  | none =>
    rw [h.deg_zero n (get?_eq_none_iff.mp hg), deps, Dict.getD, hg]
    rfl
  | some es =>
    rw [h.deg n es (get?_eq_some_iff.mp hg) ((hmem n).mpr hn), deps, Dict.getD, hg]
    simp only [hmem, Option.getD_some]

theorem frontier_init : Frontier (degrees nodes graph).1.keys (deps nodes graph) []
      ((degrees nodes graph).1.keys.filter fun n => (degrees nodes graph).1.getD n 0 = 0)
      (degrees nodes graph).1 := by
  refine ⟨fun _ => Iff.rfl, ?_, ?_, (degrees nodes graph).1.nodup.filter _, nodup_nil, nofun, nofun⟩
  · intro n hn
    rw [degree_eq nodes graph ((mem_keys_degrees nodes graph).mp hn)]
    simp
  · intro n
    rw [mem_filter, decide_eq_true_eq]
    refine and_congr_right fun hn => ?_
    rw [degree_eq nodes graph ((mem_keys_degrees nodes graph).mp hn), length_eq_zero_iff,
      eq_nil_iff_forall_not_mem]
    simp

theorem nodup_deps (n : E) : (deps nodes graph n).Nodup := (nodup_dedup _).filter _

theorem deps_sub : ∀ n ∈ (degrees nodes graph).1.keys, ∀ d ∈ deps nodes graph n,
    d ∈ (degrees nodes graph).1.keys := fun _ _ _ hd =>
  (mem_keys_degrees nodes graph).mpr (mem_deps.mp hd).2

/-- The reverse graph holds the edges of the nodes being sorted. -/
theorem mem_reverse : ∀ x ∈ (degrees nodes graph).1.keys, ∀ m, m ∈ (degrees nodes graph).2.getD x [] ↔
    m ∈ (degrees nodes graph).1.keys ∧ x ∈ deps nodes graph m := by
  intro x hx m
  have h := counted_degrees nodes graph
  rw [h.rev x m, ← h.keys m, mem_deps, and_iff_left ((mem_keys_degrees nodes graph).mp hx)]
  refine and_congr_right fun _ => ⟨?_, fun hxm => ?_⟩
  · rintro ⟨es, hes, hxe⟩
    rwa [getD_of_get? (get?_eq_some_iff.mpr hes)]
  · exact ⟨_, get?_eq_some_iff.mp (get?_of_mem_keys [] (mem_keys_of_mem_getD hxm)), hxm⟩

section Spec

variable {nodes : List E} {graph : Dict E (List E)} (hac : Chain.Acyclic (deps nodes graph))
include hac

theorem sortedTopologically_spec : (sortedTopologically nodes graph).Perm (degrees nodes graph).1.keys ∧
      ∀ l x r, sortedTopologically nodes graph = l ++ x :: r → ∀ d ∈ deps nodes graph x, d ∈ l :=
  (topological_iff hac (deps_sub nodes graph) (degrees nodes graph).1.nodup).mp
    (kahn_greedy (nodup_deps nodes graph) (fun n hn => hac n (.single hn)) (mem_reverse nodes graph)
      (counted_degrees nodes graph).rev_nodup _ [] _ _ (frontier_init nodes graph) (Nat.zero_add _).ge).topological

/-- Every node comes out exactly once. -/
theorem topo_nodup : (sortedTopologically nodes graph).Nodup :=
  (sortedTopologically_spec hac).1.nodup_iff.mpr (degrees nodes graph).1.nodup

theorem mem_topo {x : E} : x ∈ sortedTopologically nodes graph ↔ x ∈ nodes := by
  rw [(sortedTopologically_spec hac).1.mem_iff, mem_keys_degrees]

/-- A node comes out after the nodes it depends on. -/
theorem topo_before {l r : List E} {x d : E} (h : sortedTopologically nodes graph = l ++ x :: r)
    (hd : d ∈ graph.getD x []) (hdn : d ∈ nodes) : d ∈ l :=
  (sortedTopologically_spec hac).2 l x r h d (mem_deps.mpr ⟨hd, hdn⟩)

/-- Both sorts give every node once, after the nodes it references; batch `i` holds the nodes whose
    longest path inside the collection has length `i`. -/
theorem sortedTopologically_layers :
    (∀ out ∈ [sortedTopologically nodes graph, (sortedTopologicallyBatched nodes graph).flatten],
      out.Perm nodes.dedup ∧
        ∀ l x r, out = l ++ x :: r → ∀ d ∈ graph.getD x [], d ∈ nodes → d ∈ l) ∧
    ∀ i x, x ∈ (sortedTopologicallyBatched nodes graph).getD i [] ↔
      x ∈ nodes ∧ IsGreatest {k | HasPath (deps nodes graph) k x} i := by
  obtain ⟨hbatched, hlayers⟩ := layers_spec (nodup_deps nodes graph) (fun n hn => hac n (.single hn))
    (mem_reverse nodes graph) (counted_degrees nodes graph).rev_nodup hac (deps_sub nodes graph) _ 0 [] _ _
    (frontier_init nodes graph) (Nat.zero_add _).ge (by simp [HasPath])
  have hbatched := (topological_iff hac (deps_sub nodes graph) (degrees nodes graph).1.nodup).mp hbatched
  have hkeys : (degrees nodes graph).1.keys.Perm nodes.dedup :=
    (perm_ext_iff_of_nodup (degrees nodes graph).1.nodup (nodup_dedup _)).mpr fun x => by
      exact (mem_keys_degrees nodes graph).trans mem_dedup.symm
  refine ⟨fun out hout => ?_, fun i x => ?_⟩
  · have hspec : out.Perm (degrees nodes graph).1.keys ∧
        ∀ l x r, out = l ++ x :: r → ∀ d ∈ deps nodes graph x, d ∈ l := by
      rcases mem_pair.mp hout with rfl | rfl
      · exact sortedTopologically_spec hac
      · exact hbatched
    exact ⟨hspec.1.trans hkeys, fun l x r hl d hd hdn => hspec.2 l x r hl d (mem_deps.mpr ⟨hd, hdn⟩)⟩
  · refine (hlayers i x).trans ?_
    rw [mem_keys_degrees, Nat.zero_add]
    refine and_congr_right fun _ => and_congr_right fun hi => ⟨fun h k hk => ?_, fun h hc => ?_⟩
    · by_contra hik
      exact h (HasPath.mono (by omega) hk)
    · exact Nat.not_succ_le_self i (h hc)

end Spec

/-- A repeated edge, one that leaves the collection, and one from outside. -/
theorem sortedTopologically_layers_triangle :
    let graph := Dict.ofList [(3, [2, 2, 1, 9]), (2, [1]), (5, [3])]
    ∀ i x, x ∈ (sortedTopologicallyBatched [3, 2, 1, 3] graph).getD i [] ↔
      x ∈ [3, 2, 1, 3] ∧ IsGreatest {k | HasPath (deps [3, 2, 1, 3] graph) k x} i :=
  (sortedTopologically_layers (Chain.acyclic_of_rank id fun e a ha => by
    have hlt : ∀ e ∈ [3, 2, 5], ∀ a ∈ (Dict.ofList [(3, [2, 2, 1, 9]), (2, [1]), (5, [3])]).getD e [],
        a ∈ [3, 2, 1, 3] → a < e := by decide
    obtain ⟨hae, han⟩ := mem_deps.mp ha
    exact hlt e (mem_keys_of_mem_getD hae) a hae han)).2

end Sithnapse.Iterutils
