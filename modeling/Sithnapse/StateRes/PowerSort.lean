import Sithnapse.Kit.Greedy
import Sithnapse.StateRes.PowerGraph

/-! The power events in reverse topological order.

    Sorting takes again and again the event with the least key among those whose auth events have all
    come. The heap and the sets it is filled from may hold their members in any order: the result is
    the greedy order of the graph. -/

namespace Sithnapse.StateRes

open Kit Kit.Dict Kit.Chain List

/-! ### The sort -/

section Sorting

variable {E : Type} [DecidableEq E] {κ : Type} [LinearOrder κ]

variable (graph : Dict E (List E))

/-- `reverse_graph`. -/
def reverseGraph : Dict E (List E) :=
  graph.entries.foldl (fun reverse p =>
    p.2.foldl (fun reverse edge => reverse.set edge (addIf (reverse.getD edge []) p.1))
      (reverse.set p.1 (reverse.getD p.1 []))) Dict.empty

/-- The state of `lexicographical_topological_sort`. -/
structure Sorting (E : Type) where
  outdegree : Dict E (List E)
  /-- `zero_outdegree`: `heappop` takes the least out. -/
  zero : List E
  sorted : List E

variable (parents : E → Order E)

/-- One round: the least event, and those it was the last to wait for. -/
def sortRound (reverse : Dict E (List E)) (key : E → κ) (s : Sorting E) :
    Sorting E ⊕ List E :=
  match s.zero.argmin key with
  | none => .inr s.sorted
  | some node =>
    let st := ((parents node).arrange (reverse.getD node [])).foldl (fun st parent =>
      let out := (st.1.getD parent []).filter (· ≠ node)
      (st.1.set parent out, if out = [] then parent :: st.2 else st.2)) (s.outdegree, s.zero.erase node)
    .inl ⟨st.1, st.2, s.sorted ++ [node]⟩

/-- `lexicographical_topological_sort`; `parents` gives the order of the sets of `reverse_graph`. -/
def lexicographicalTopologicalSort (graph : Dict E (List E)) (key : E → κ) : List E :=
  (loop (sortRound parents (reverseGraph graph) key) (graph.keys.length + 1)
    ⟨graph, (graph.entries.filter (·.2 = [])).map Prod.fst, []⟩).getD []

/-- An event is under each of its edges, once. -/
theorem reverseGraph_spec (a : E) :
    ((reverseGraph graph).getD a []).Nodup ∧
      ∀ x, x ∈ (reverseGraph graph).getD a [] ↔ a ∈ graph.getD x [] := by
  obtain ⟨hnd, hmem⟩ := foldl_visited
    (fun (reverse : Dict E (List E)) (p : E × List E) =>
      p.2.foldl (fun reverse edge => reverse.set edge (addIf (reverse.getD edge []) p.1))
        (reverse.set p.1 (reverse.getD p.1 [])))
    (fun pre reverse => (reverse.getD a []).Nodup ∧
      ∀ x, x ∈ reverse.getD a [] ↔ ∃ edges, (x, edges) ∈ pre ∧ a ∈ edges) graph.entries
    (s := Dict.empty) ⟨nodup_nil, fun x => by simp⟩ (by
      rintro pre p _ reverse - ⟨hnd, hmem⟩
      have hset : (reverse.set p.1 (reverse.getD p.1 [])).getD a [] = reverse.getD a [] := by
        rw [getD_set]
        split_ifs with h
        · rw [h]
        · rfl
      rw [getD_foldl_addIf, hset]
      simp only [mem_append, mem_singleton, or_and_right, exists_or, ← hmem]
      by_cases ha : a ∈ p.2
      · rw [if_pos ha]
        refine ⟨nodup_addIf _ hnd, fun x => ?_⟩
        rw [mem_addIf]
        refine or_congr_right ⟨fun hx => ⟨p.2, by rw [hx], ha⟩, ?_⟩
        rintro ⟨edges, hp, -⟩
        exact congrArg Prod.fst hp
      · rw [if_neg ha]
        refine ⟨hnd, fun x => ⟨.inl, fun h => h.resolve_right ?_⟩⟩
        rintro ⟨edges, hp, hx⟩
        exact ha (congrArg Prod.snd hp ▸ hx))
  refine ⟨hnd, fun x => (hmem x).trans ⟨?_, fun ha => ?_⟩⟩
  · rintro ⟨edges, hp, ha⟩
    rwa [getD_of_get? (get?_eq_some_iff.mpr hp)]
  · by_cases hx : x ∈ graph.keys
    · exact ⟨_, get?_eq_some_iff.mp (get?_of_mem_keys [] hx), ha⟩
    · rw [getD_of_not_mem _ hx] at ha
      cases ha

/-- The round after some of the events that wait for the node have been told. -/
structure Told (node : E) (s : Sorting E) (pre : List E) (st : Dict E (List E) × List E) : Prop where
  out : ∀ x, st.1.getD x [] =
    if x ∈ pre then (s.outdegree.getD x []).filter (· ≠ node) else s.outdegree.getD x []
  zero : ∀ x, x ∈ st.2 ↔ x ∈ s.zero.erase node ∨ x ∈ pre ∧ (s.outdegree.getD x []).filter (· ≠ node) = []
  nodup : st.2.Nodup

theorem told_foldl {s : Sorting E} (hzero : s.zero.Nodup) {l : List E} (hl : l.Nodup) (node : E)
    (hfresh : ∀ x ∈ l, x ∉ s.zero) :
    Told node s l (l.foldl (fun st parent =>
      let out := (st.1.getD parent []).filter (· ≠ node)
      (st.1.set parent out, if out = [] then parent :: st.2 else st.2)) (s.outdegree, s.zero.erase node)) := by
  refine foldl_visited _ (Told node s) l ⟨fun x => by simp, fun x => by simp, hzero.erase node⟩ ?_
  rintro pre parent post st rfl ⟨hout, hmem, hnd⟩
  have hpre := not_mem_of_nodup hl
  have hnot : parent ∉ st.2 := by
    rw [hmem]
    rintro (h | h)
    · exact hfresh parent (by simp) (mem_of_mem_erase h)
    · exact hpre h.1
  dsimp only
  rw [hout parent, if_neg hpre]
  refine ⟨fun x => ?_, fun x => ?_, ?_⟩
  · rw [getD_set, hout x]
    by_cases hx : x = parent
    · simp [hx]
    · simp [hx]
  · rcases eq_or_ne x parent with rfl | hx
    · split_ifs with hnil
      · simp only [hnil, mem_append, mem_cons, true_or, or_true, and_self]
      · simp only [hmem, hnil, and_false]
    · split
      · simp [hx, hmem]
      · simp [hx, hmem]
  · split
    · exact nodup_cons.mpr ⟨hnot, hnd⟩
    · exact hnd

/-- The state of the sort after some events have come. -/
structure SortInv (graph : Dict E (List E)) (s : Sorting E) : Prop where
  out : ∀ x y, y ∈ s.outdegree.getD x [] ↔ y ∈ graph.getD x [] ∧ y ∉ s.sorted
  zero : ∀ x, x ∈ s.zero ↔ Ready (· ∈ graph.keys) (fun x y => y ∈ graph.getD x []) s.sorted x
  nodup : s.zero.Nodup
  sorted : ∀ x ∈ s.sorted, ∀ y ∈ graph.getD x [], y ∈ s.sorted

theorem sortInv_start :
    SortInv graph ⟨graph, (graph.entries.filter (·.2 = [])).map Prod.fst, []⟩ := by
  refine ⟨fun x y => by simp, fun x => ?_, ?_, nofun⟩
  · simp only [Ready, mem_map, mem_filter, decide_eq_true_eq, Prod.exists, exists_and_right,
      exists_eq_right, not_mem_nil, not_false_eq_true, true_and, imp_false]
    rw [← eq_nil_iff_forall_not_mem]
    constructor
    · intro hmem
      have hget := get?_eq_some_iff.mpr hmem
      exact ⟨mem_keys_iff.mpr ⟨_, hget⟩, getD_of_get? hget⟩
    · rintro ⟨hx, hnil⟩
      have hget := get?_of_mem_keys [] hx
      rw [hnil] at hget
      exact get?_eq_some_iff.mp hget
  · exact graph.nodup.sublist (filter_sublist.map Prod.fst)

/-- One round keeps the state and appends the event it took. -/
theorem SortInv.round {graph : Dict E (List E)} {s : Sorting E} {node : E} (h : SortInv graph s)
    (hnode : node ∈ s.zero) (parents : Order E) :
    let st := (parents.arrange ((reverseGraph graph).getD node [])).foldl (fun st parent =>
      let out := (st.1.getD parent []).filter (· ≠ node)
      (st.1.set parent out, if out = [] then parent :: st.2 else st.2)) (s.outdegree, s.zero.erase node)
    SortInv graph ⟨st.1, st.2, s.sorted ++ [node]⟩ := by
  obtain ⟨hrnd, hrev⟩ := reverseGraph_spec graph node
  obtain ⟨hkey, hfresh, hdeps⟩ := (h.zero node).mp hnode
  have hmem : ∀ x, x ∈ parents.arrange ((reverseGraph graph).getD node []) ↔ node ∈ graph.getD x [] :=
    fun x => Order.mem_arrange.trans (hrev x)
  have hnodup := (Order.nodup_arrange (o := parents)).mpr hrnd
  obtain ⟨hout, hzero, hnd⟩ := told_foldl h.nodup hnodup node
    fun x hx hz => hfresh (((h.zero x).mp hz).2.2 node ((hmem x).mp hx))
  refine ⟨fun x y => ?_, fun x => ?_, hnd, fun x hx y hy => ?_⟩
  · rw [hout, mem_append, mem_singleton, not_or]
    split_ifs with hx
    · rw [mem_filter, h.out, decide_eq_true_eq, and_assoc]
    · rw [hmem] at hx
      rw [h.out]
      refine and_congr_right fun hy => ⟨fun hs => ⟨hs, ?_⟩, And.left⟩
      rintro rfl
      exact hx hy
  · rw [hzero, hmem, h.nodup.mem_erase_iff, h.zero, filter_eq_nil_iff]
    simp only [Ready, mem_append, mem_singleton, not_or, ne_eq, decide_not, Bool.not_eq_true',
      decide_eq_false_iff_not, not_not, h.out]
    constructor
    · rintro (⟨hne, hx, hxs, hall⟩ | ⟨hx, hall⟩)
      · exact ⟨hx, ⟨hxs, hne⟩, fun y hy => .inl (hall y hy)⟩
      · refine ⟨?_, ⟨fun hxs => hfresh (h.sorted x hxs node hx), ?_⟩, fun y hy => ?_⟩
        · exact mem_keys_of_mem_getD hx
        · rintro rfl
          exact hfresh (hdeps x hx)
        · by_cases hys : y ∈ s.sorted
          · exact .inl hys
          · exact .inr (hall y ⟨hy, hys⟩)
    · rintro ⟨hx, ⟨hxs, hne⟩, hall⟩
      by_cases hn : node ∈ graph.getD x []
      · exact .inr ⟨hn, fun y hy => (hall y hy.1).resolve_left hy.2⟩
      · refine .inl ⟨hne, hx, hxs, fun y hy => (hall y hy).resolve_right ?_⟩
        rintro rfl
        exact hn hy
  · rcases mem_concat.mp hx with hx | rfl
    · exact mem_append_left _ (h.sorted x hx y hy)
    · exact mem_append_left _ (hdeps y hy)

/-- From any state the sort goes on greedily. -/
theorem sortLoop_spec (parents : E → Order E) (graph : Dict E (List E)) (key : E → κ) :
    ∀ (n : ℕ) (s : Sorting E), SortInv graph s → (graph.keys.filter (· ∉ s.sorted)).length < n →
    ∃ l, loop (sortRound parents (reverseGraph graph) key) n s = some (s.sorted ++ l) ∧
      Greedy (· ∈ graph.keys) (fun x y => y ∈ graph.getD x []) key s.sorted l
  | 0, s, _, hn => absurd hn (Nat.not_lt_zero _)
  | n + 1, s, h, hn => by
    cases hmin : s.zero.argmin key with
    | none =>
      refine ⟨[], ?_, fun x hx => ?_⟩
      · simp [loop, sortRound, hmin]
      · rw [← h.zero, argmin_eq_none.mp hmin] at hx
        exact not_mem_nil hx
    | some node =>
      have hnode : node ∈ s.zero := argmin_mem hmin
      have hready := (h.zero node).mp hnode
      obtain ⟨l, hl, hg⟩ := sortLoop_spec parents graph key n _ (h.round hnode (parents node)) (by
        refine lt_of_lt_of_le ?_ (Nat.lt_succ_iff.mp hn)
        have hsplit : graph.keys.filter (· ∉ s.sorted ++ [node]) =
            (graph.keys.filter (· ∉ s.sorted)).filter (· ≠ node) := by
          rw [filter_filter]
          refine filter_congr fun x _ => ?_
          simp [and_comm]
        rw [hsplit, length_filter_lt_length_iff_exists]
        exact ⟨node, mem_filter.mpr ⟨hready.1, by simpa using hready.2.1⟩, by simp⟩)
      refine ⟨node :: l, ?_, hready, fun y hy => ?_, hg⟩
      · rw [loop, sortRound, hmin]
        dsimp only
        rw [hl, append_assoc]
        rfl
      · exact le_of_mem_argmin ((h.zero y).mpr hy) hmin

/-- The sort gives the greedy order of the graph. -/
theorem lexicographicalTopologicalSort_greedy (graph : Dict E (List E)) (key : E → κ) :
    Greedy (· ∈ graph.keys) (fun x y => y ∈ graph.getD x []) key []
      (lexicographicalTopologicalSort parents graph key) := by
  obtain ⟨l, hl, hg⟩ := sortLoop_spec parents graph key (graph.keys.length + 1) _ (sortInv_start graph)
    (Nat.lt_succ_of_le (length_filter_le _ _))
  rw [lexicographicalTopologicalSort, hl]
  exact hg

/-- Among all orders that put every event after its edges, the sort gives the least one by key. The
    order of the dictionary and of the sets does not matter. -/
theorem lexicographicalTopologicalSort_least {graph : Dict E (List E)} {key : E → κ}
    (hac : Acyclic fun x => graph.getD x []) (hedges : ∀ x, ∀ y ∈ graph.getD x [], y ∈ graph.keys)
    (hkey : Function.Injective key) :
    let sorted := lexicographicalTopologicalSort parents graph key
    (sorted.Perm graph.keys ∧ ∀ pre x post, sorted = pre ++ x :: post → ∀ y ∈ graph.getD x [], y ∈ pre) ∧
    (∀ order : List E, order.Perm graph.keys →
      (∀ pre x post, order = pre ++ x :: post → ∀ y ∈ graph.getD x [], y ∈ pre) →
      sorted = order ∨ List.Lex (· < ·) (sorted.map key) (order.map key)) ∧
    ∀ parents' graph', SameSet graph.keys graph'.keys →
      (∀ x, SameSet (graph.getD x []) (graph'.getD x [])) →
      lexicographicalTopologicalSort parents' graph' key = sorted := by
  have htop := fun l => topological_iff (l := l) hac (fun x _ => hedges x) graph.nodup
  have hgreedy := lexicographicalTopologicalSort_greedy parents graph key
  have hinj : ∀ x y, x ∈ graph.keys → y ∈ graph.keys → key x = key y → x = y := fun _ _ _ _ h => hkey h
  refine ⟨(htop _).mp hgreedy.topological, fun order hperm hbefore => ?_, fun parents' graph' hkeys hsame => ?_⟩
  · exact hgreedy.least hinj ((htop order).mpr ⟨hperm, hbefore⟩)
  · refine (hgreedy.unique hinj ?_).symm
    exact (lexicographicalTopologicalSort_greedy parents' graph' key).congr (fun x => (hkeys x).symm)
      (fun x _ y => (hsame x y).symm) fun _ _ => rfl

/-- Event `2` points to `0`. -/
def forkGraph : Dict ℕ (List ℕ) := Dict.ofList [(2, [0]), (1, []), (0, [])]

theorem forkGraph_edges {x y : ℕ} (hy : y ∈ forkGraph.getD x []) : y < x ∧ y ∈ forkGraph.keys := by
  have h : ∀ x ∈ forkGraph.keys, ∀ y ∈ forkGraph.getD x [], y < x ∧ y ∈ forkGraph.keys := by decide
  exact h x (mem_keys_of_mem_getD hy) y hy

theorem lexicographicalTopologicalSort_least_fork :
    (lexicographicalTopologicalSort (fun _ => .asAdded) forkGraph id).Perm forkGraph.keys :=
  (lexicographicalTopologicalSort_least (fun _ => .asAdded)
    (acyclic_of_rank id fun _ _ hy => (forkGraph_edges hy).1) (fun _ _ hy => (forkGraph_edges hy).2)
    Function.injective_id).1.1

end Sorting

/-! ### Power events -/

section PowerEvents

variable {E : Type} [LinearOrder E]

/-- `_get_power_order`: higher power levels first, then older events. -/
def powerOrder (known : Known E) (eventToPl : Dict E ℤ) (e : E) : ℤ ×ₗ ℤ ×ₗ E :=
  toLex (-(eventToPl.getD e 0), toLex (((known e).map Event.originServerTs).getD 0, e))

/-- `_reverse_topological_power_sort`. -/
def reverseTopologicalPowerSort (parents : E → Order E) (room : String) (known look : Known E)
    (full events : List E) : Except (Failure E) (List E) := do
  let graph ← events.foldlM (addEventAndAuthChainToGraph room look full) Dict.empty
  let levels ← graph.keys.mapM (getPowerLevelForSender room look)
  return lexicographicalTopologicalSort parents graph (powerOrder known (Dict.ofList (graph.keys.zip levels)))

theorem powerOrder_injective (known : Known E) (eventToPl : Dict E ℤ) :
    Function.Injective (powerOrder known eventToPl) := by
  intro x y h
  simp only [powerOrder, toLex_inj, Prod.mk.injEq] at h
  exact h.2.2

variable {room : String} {look : Known E}

/-- Only the sorted events and members of the full conflicted set come. -/
theorem mem_reverseTopologicalPowerSort {parents : E → Order E} {known : Known E} {full events sorted : List E}
    (h : reverseTopologicalPowerSort parents room known look full events = .ok sorted)
    (hevents : ∀ e ∈ events, e ∈ full) {x : E} (hx : x ∈ sorted) : x ∈ full := by
  have hgraph : ∀ (events : List E) (graph graph' : Dict E (List E)), (∀ e ∈ events, e ∈ full) →
      (∀ x ∈ graph.keys, x ∈ full) →
      events.foldlM (addEventAndAuthChainToGraph room look full) graph = .ok graph' →
      ∀ x ∈ graph'.keys, x ∈ full := by
    intro events
    induction events with
    | nil =>
      intro graph graph' _ hin h
      cases h
      exact hin
    | cons e events ih =>
      intro graph graph' hev hin h
      rw [foldlM_cons] at h
      obtain ⟨graph₁, hadd, h⟩ := bind_eq_ok.mp h
      refine ih graph₁ graph' (fun x hx => hev x (.tail _ hx)) (fun x hx => ?_) h
      rcases mem_addEventAndAuthChainToGraph hadd hx with hx | rfl | hx
      · exact hin x hx
      · exact hev x (.head _)
      · exact hx
  rw [reverseTopologicalPowerSort] at h
  obtain ⟨graph, hg, h⟩ := bind_eq_ok.mp h
  obtain ⟨levels, -, h⟩ := bind_eq_ok.mp h
  cases h
  have hgreedy := lexicographicalTopologicalSort_greedy parents graph
    (powerOrder known (Dict.ofList (graph.keys.zip levels)))
  exact hgraph events Dict.empty graph hevents (nofun) hg x (hgreedy.mem x hx).1

/-- The order of the power events does not depend on how the sets come. -/
theorem reverseTopologicalPowerSort_alike (hac : Acyclic (references look)) {full full' events events' : List E}
    (hfull : ∀ e ∈ full, ∃ event, getEvent room look e = .ok event) (hsame : SameSet full full')
    (hevents : ∀ e ∈ events, e ∈ full) (hsameEvents : SameSet events events') {known known' : Known E}
    (hknown : ∀ e ∈ full, known e = known' e) (parents parents' : E → Order E) :
    Alike Eq (reverseTopologicalPowerSort parents room known look full events)
      (reverseTopologicalPowerSort parents' room known' look full' events') := by
  have hinner : inner look full' = inner look full := by
    funext e
    exact filter_congr fun x _ => by simp [hsame x]
  obtain ⟨graph, hgraph, h⟩ := powerGraph_spec hac hfull hevents
  obtain ⟨graph', hgraph', h'⟩ := powerGraph_spec hac (fun e he => hfull e ((hsame e).mpr he))
    (fun e he => (hsame e).mp (hevents e ((hsameEvents e).mpr he)))
  have hkeys : SameSet graph.keys graph'.keys := by
    intro x
    simp only [h.mem_keys, h'.mem_keys, hinner, hsameEvents _]
  rw [reverseTopologicalPowerSort, reverseTopologicalPowerSort, hgraph, hgraph']
  refine (alike_mapM_sameSet hkeys).bind fun levels levels' hlevels => ?_
  rw [alike_pure]
  have hgreedy := lexicographicalTopologicalSort_greedy parents graph
    (powerOrder known (Dict.ofList (graph.keys.zip levels)))
  have hgreedy' := lexicographicalTopologicalSort_greedy parents' graph'
    (powerOrder known' (Dict.ofList (graph'.keys.zip levels')))
  refine Greedy.unique (fun x y _ _ hxy => powerOrder_injective _ _ hxy)
    (hgreedy.congr hkeys (fun x hx y => ?_) fun x hx => ?_) hgreedy'
  · rw [(h.edges x hx).2 y, (h'.edges x ((hkeys x).mp hx)).2 y, hinner]
  · obtain ⟨level, hlevel, hget⟩ := get?_ofList_zip (l := graph.keys) graph.nodup hlevels.1 hx
    obtain ⟨level', hlevel', hget'⟩ := get?_ofList_zip (l := graph'.keys) graph'.nodup hlevels.2 ((hkeys x).mp hx)
    obtain rfl : level = level' := Except.ok.inj (hlevel.symm.trans hlevel')
    rw [powerOrder, powerOrder, getD_of_get? hget, getD_of_get? hget', hknown x (h.inFull x (.inl hx))]

end PowerEvents

end Sithnapse.StateRes
