import Sithnapse.Kit.Alike
import Sithnapse.StateRes.Events

/-! The graph of the power events.

    It has the power events of the full conflicted set and what they reach in it, each with its auth
    events in the set. The walk may put an event on its stack more than once. -/

namespace Sithnapse.StateRes

open Kit Kit.Dict Kit.Chain List

variable {E : Type} [DecidableEq E]

/-- One round of `_add_event_and_auth_chain_to_graph`: the stack, its top first, and the graph. -/
def graphRound (room : String) (look : Known E) (full : List E) (s : List E × Dict E (List E)) :
    (List E × Dict E (List E)) ⊕ Except (Failure E) (Dict E (List E)) :=
  match s.1 with
  | [] => .inr (.ok s.2)
  | eid :: stack =>
    let graph := s.2.set eid (s.2.getD eid [])
    match getEvent room look eid with
    | .error failure => .inr (.error failure)
    | .ok event =>
      .inl (event.authEventIds.foldl (fun st aid =>
        if aid ∈ full then
          (if aid ∉ st.2.keys then aid :: st.1 else st.1, st.2.set eid (addIf (st.2.getD eid []) aid))
        else st) (stack, graph))

/-- The number of references of the events of a set, and two more. -/
def graphWidth (look : Known E) (full : List E) : ℕ :=
  (full.map fun e => (references look e).length).sum + 2

/-- `_add_event_and_auth_chain_to_graph`. -/
def addEventAndAuthChainToGraph (room : String) (look : Known E) (full : List E)
    (graph : Dict E (List E)) (e : E) : Except (Failure E) (Dict E (List E)) :=
  (loop (graphRound room look full) (weight (graphWidth look full) full.length + 1)
    ([e], graph)).getD (.ok graph)

/-- The auth events of an event that are in the full conflicted set. -/
def inner (look : Known E) (full : List E) (e : E) : List E :=
  (references look e).filter (· ∈ full)

section Graph

variable {room : String} {look : Known E} {full : List E}

theorem mem_inner {e a : E} : a ∈ inner look full e ↔ a ∈ references look e ∧ a ∈ full := by
  rw [inner, mem_filter, decide_eq_true_eq]

/-- What the loop over the auth events of one event does to the stack and the graph. -/
structure Opened (full : List E) (eid : E) (stack : List E) (graph : Dict E (List E)) (ids : List E)
    (st : List E × Dict E (List E)) : Prop where
  stack : st.1 = ((ids.filter (· ∈ full)).filter (· ∉ graph.keys)).reverse ++ stack
  keys : ∀ x, x ∈ st.2.keys ↔ x ∈ graph.keys
  edges : ∀ x, st.2.getD x [] =
    if x = eid then addAll (graph.getD eid []) (ids.filter (· ∈ full)) else graph.getD x []

theorem opened_foldl (full : List E) {eid : E} {graph : Dict E (List E)} (heid : eid ∈ graph.keys) (stack ids : List E) :
    Opened full eid stack graph ids (ids.foldl (fun st aid =>
      if aid ∈ full then
        (if aid ∉ st.2.keys then aid :: st.1 else st.1, st.2.set eid (addIf (st.2.getD eid []) aid))
      else st) (stack, graph)) := by
  refine foldl_visited _ (Opened full eid stack graph) ids ⟨rfl, fun _ => Iff.rfl, fun x => ?_⟩ ?_
  · split_ifs with hx
    · rw [hx]
      rfl
    · rfl
  · rintro pre aid _ ⟨stack', graph'⟩ - ⟨hstack, hkeys, hedges⟩
    by_cases haid : aid ∈ full
    · have hone : [aid].filter (· ∈ full) = [aid] := filter_cons_of_pos (by simpa using haid)
      rw [if_pos haid]
      refine ⟨?_, fun x => ?_, fun x => ?_⟩
      · rw [hstack, filter_append, hone]
        clear hone
        by_cases hk : aid ∈ graph.keys
        · simp [(hkeys aid).mpr hk, hk]
        · simp [mt (hkeys aid).mp hk, hk]
      · rw [mem_keys_set, hkeys]
        exact ⟨fun hx => hx.elim (fun h => h ▸ heid) id, .inr⟩
      · rw [getD_set, hedges, hedges]
        split
        · rw [if_pos rfl, filter_append, hone, addAll_append]
          rfl
        · rfl
    · have hnone : [aid].filter (· ∈ full) = [] := filter_cons_of_neg (by simpa using haid)
      rw [if_neg haid]
      refine ⟨?_, hkeys, fun x => ?_⟩
      · rw [filter_append, hnone, append_nil, hstack]
      · rw [filter_append, hnone, append_nil, hedges]

/-- A round that goes on takes an event off the stack and opens it. -/
theorem graphRound_cases {s s' : List E × Dict E (List E)} (hs : graphRound room look full s = .inl s') :
    ∃ eid stack, s.1 = eid :: stack ∧
      Opened full eid stack (s.2.set eid (s.2.getD eid [])) (references look eid) s' := by
  obtain ⟨_ | ⟨eid, stack⟩, graph⟩ := s
  · cases hs
  · rw [graphRound] at hs
    dsimp only at hs
    split at hs
    · cases hs
    · rename_i event hevent
      refine ⟨eid, stack, rfl, ?_⟩
      rw [references_of_find (find_of_getEvent hevent), ← Sum.inl.inj hs]
      exact opened_foldl full (mem_keys_set.mpr (.inl rfl)) stack _

/-- The graph so far: reachable events with all their edges, and what waits on the stack. -/
structure Graphing (look : Known E) (full : List E) (seeds : E → Prop)
    (s : List E × Dict E (List E)) : Prop where
  reached : ∀ x, x ∈ s.2.keys ∨ x ∈ s.1 → ∃ e, seeds e ∧ BelowEq (inner look full) e x
  inFull : ∀ x, x ∈ s.2.keys ∨ x ∈ s.1 → x ∈ full
  edges : ∀ x ∈ s.2.keys, (s.2.getD x []).Nodup ∧ SameSet (s.2.getD x []) (inner look full x)
  closed : ∀ x ∈ s.2.keys, ∀ y ∈ inner look full x, y ∈ s.2.keys ∨ y ∈ s.1
  seeds : ∀ x, seeds x → x ∈ s.2.keys ∨ x ∈ s.1

variable {seeds : E → Prop}

theorem Graphing.round {s s' : List E × Dict E (List E)} (h : Graphing look full seeds s)
    (hs : graphRound room look full s = .inl s') : Graphing look full seeds s' := by
  obtain ⟨eid, stack, hstack₀, hstack, hkeys, hedges⟩ := graphRound_cases hs
  obtain ⟨_, graph⟩ := s
  subst hstack₀
  rw [← inner] at hstack hedges
  have hkeys' : ∀ x, x ∈ s'.2.keys ↔ x = eid ∨ x ∈ graph.keys := fun x => by
    rw [hkeys, mem_keys_set]
  have hpushed : ∀ x, x ∈ s'.1 → x ∈ inner look full eid ∨ x ∈ stack := by
    intro x hx
    rw [hstack, mem_append, mem_reverse, mem_filter] at hx
    exact hx.imp_left And.left
  have hkeep : ∀ x, x ∈ graph.keys ∨ x ∈ eid :: stack → x ∈ s'.2.keys ∨ x ∈ s'.1 := by
    rintro x (hx | hx)
    · exact .inl ((hkeys' x).mpr (.inr hx))
    · rcases mem_cons.mp hx with rfl | hx
      · exact .inl ((hkeys' x).mpr (.inl rfl))
      · exact .inr (hstack ▸ mem_append_right _ hx)
  -- nothing new is in the graph or on the stack but the event and its inner auth events
  have hnew : ∀ x, x ∈ s'.2.keys ∨ x ∈ s'.1 →
      (x ∈ graph.keys ∨ x ∈ eid :: stack) ∨ x ∈ inner look full eid := by
    rintro x (hx | hx)
    · rcases (hkeys' x).mp hx with rfl | hx
      · exact .inl (.inr (.head _))
      · exact .inl (.inl hx)
    · rcases hpushed x hx with hx | hx
      · exact .inr hx
      · exact .inl (.inr (.tail _ hx))
  refine ⟨fun x hx => ?_, fun x hx => ?_, fun x hx => ?_, fun x hx y hy => ?_, fun x hx => hkeep x (h.seeds x hx)⟩
  · rcases hnew x hx with hx | hx
    · exact h.reached x hx
    · obtain ⟨e, he, hex⟩ := h.reached eid (.inr (.head _))
      exact ⟨e, he, hex.tail hx⟩
  · rcases hnew x hx with hx | hx
    · exact h.inFull x hx
    · exact (mem_inner.mp hx).2
  · rw [hedges]
    split_ifs with hxe
    · subst hxe
      rw [getD_set, if_pos rfl]
      by_cases hx : x ∈ graph.keys
      · obtain ⟨hnd, hsame⟩ := h.edges x hx
        refine ⟨nodup_addAll _ hnd, fun y => ?_⟩
        rw [mem_addAll, hsame y, or_self]
      · rw [getD_of_not_mem _ hx]
        refine ⟨nodup_addAll _ nodup_nil, fun y => ?_⟩
        rw [mem_addAll]
        simp
    · rw [getD_set, if_neg hxe]
      exact h.edges x (((hkeys' x).mp hx).resolve_left hxe)
  · rcases (hkeys' x).mp hx with rfl | hx
    · by_cases hk : y ∈ s'.2.keys
      · exact .inl hk
      · refine .inr (hstack ▸ mem_append_left _ (mem_reverse.mpr ?_))
        rw [mem_filter, decide_eq_true_eq]
        exact ⟨hy, fun hc => hk ((hkeys y).mpr hc)⟩
    · exact hkeep y (h.closed x hx y hy)

/-- A round makes the stack cheaper. -/
theorem graphRound_weight {rank : E → ℕ} (hrank : ∀ x, ∀ y ∈ inner look full x, rank y < rank x)
    {s s' : List E × Dict E (List E)} (hin : ∀ x ∈ s.1, x ∈ full)
    (hs : graphRound room look full s = .inl s') :
    (s'.1.map fun x => weight (graphWidth look full) (rank x)).sum <
      (s.1.map fun x => weight (graphWidth look full) (rank x)).sum := by
  obtain ⟨eid, stack, hstack, hopened⟩ := graphRound_cases hs
  rw [hopened.stack, hstack, map_append, sum_append, map_cons, sum_cons]
  refine Nat.add_lt_add_right (lt_of_le_of_lt (Nat.le_add_left _ 1) (sum_weight_lt ?_ ?_)) _
  · have hlen : (references look eid).length ∈ full.map fun e => (references look e).length :=
      mem_map.mpr ⟨eid, hin eid (hstack ▸ .head _), rfl⟩
    rw [length_reverse, graphWidth]
    refine Nat.add_le_add_right ?_ 2
    calc _ ≤ ((references look eid).filter (· ∈ full)).length := length_filter_le _ _
      _ ≤ (references look eid).length := length_filter_le _ _
      _ ≤ _ := le_sum_of_mem hlen
  · intro x hx
    rw [mem_reverse, mem_filter] at hx
    exact hrank eid x hx.1

variable (hac : Acyclic (references look))
  (hfull : ∀ e ∈ full, ∃ event, getEvent room look e = .ok event)

include hac hfull

/-- Adding one event adds what it reaches in the full conflicted set. -/
theorem addEventAndAuthChainToGraph_spec {graph : Dict E (List E)} {e : E} (he : e ∈ full)
    (h : Graphing look full seeds ([], graph)) :
    ∃ graph', addEventAndAuthChainToGraph room look full graph e = .ok graph' ∧
      Graphing look full (fun x => seeds x ∨ x = e) ([], graph') := by
  have hinner : Acyclic (inner look full) := hac.mono fun x y hy => (mem_inner.mp hy).1
  obtain ⟨rank, hrank, hbound⟩ := hinner.exists_rank (U := full) fun x y hy => (mem_inner.mp hy).2
  have hstart : Graphing look full (fun x => seeds x ∨ x = e) ([e], graph) := by
    have hold : ∀ x, x ∈ graph.keys ∨ x ∈ [e] → x ∈ graph.keys ∨ x = e :=
      fun x hx => hx.imp_right mem_singleton.mp
    refine ⟨fun x hx => ?_, fun x hx => ?_, h.edges, fun x hx y hy => ?_, fun x hx => ?_⟩
    · rcases hold x hx with hx | rfl
      · obtain ⟨s, hs, hsx⟩ := h.reached x (.inl hx)
        exact ⟨s, .inl hs, hsx⟩
      · exact ⟨x, .inr rfl, .refl⟩
    · rcases hold x hx with hx | rfl
      · exact h.inFull x (.inl hx)
      · exact he
    · exact .inl ((h.closed x hx y hy).resolve_right not_mem_nil)
    · rcases hx with hx | rfl
      · exact .inl ((h.seeds x hx).resolve_right not_mem_nil)
      · exact .inr (mem_singleton.mpr rfl)
  have hfuel : ([e].map fun x => weight (graphWidth look full) (rank x)).sum <
      weight (graphWidth look full) full.length + 1 := by
    have := weight_mono (b := graphWidth look full) (Nat.succ_pos _) (hbound e)
    rw [map_singleton, sum_singleton]
    omega
  obtain ⟨r, hr, hpost⟩ := loop_correct (f := graphRound room look full)
    (Q := fun r => ∃ graph', r = .ok graph' ∧ Graphing look full (fun x => seeds x ∨ x = e) ([], graph'))
    (fun s => (s.1.map fun x => weight (graphWidth look full) (rank x)).sum) (fun s s' h hs => h.round hs)
    (fun s s' h hs => graphRound_weight hrank (fun x hx => h.inFull x (.inr hx)) hs) (fun s r h hs => by
      obtain ⟨stack, graph'⟩ := s
      match stack with
      | [] =>
        obtain rfl := Sum.inr.inj hs
        exact ⟨graph', rfl, h⟩
      | eid :: stack =>
        obtain ⟨event, hevent⟩ := hfull eid (h.inFull eid (.inr (.head _)))
        simp [graphRound, hevent] at hs) _ _ hstart hfuel
  rw [addEventAndAuthChainToGraph, hr]
  exact hpost

/-- The graph of some events: what they reach in the full conflicted set. -/
theorem powerGraph_spec {events : List E} (hevents : ∀ e ∈ events, e ∈ full) :
    ∃ graph, events.foldlM (addEventAndAuthChainToGraph room look full) Dict.empty = .ok graph ∧
      Graphing look full (· ∈ events) ([], graph) := by
  have hstep : ∀ (events : List E) (seeds : E → Prop) (graph : Dict E (List E)),
      (∀ e ∈ events, e ∈ full) → Graphing look full seeds ([], graph) →
      ∃ graph', events.foldlM (addEventAndAuthChainToGraph room look full) graph = .ok graph' ∧
        Graphing look full (fun x => seeds x ∨ x ∈ events) ([], graph') := by
    intro events
    induction events with
    | nil =>
      intro seeds graph _ h
      exact ⟨graph, rfl, by simpa using h⟩
    | cons e events ih =>
      intro seeds graph hin h
      obtain ⟨graph₁, hgraph₁, h₁⟩ := addEventAndAuthChainToGraph_spec hac hfull (hin e (.head _)) h
      obtain ⟨graph', hgraph', h'⟩ := ih _ graph₁ (fun x hx => hin x (.tail _ hx)) h₁
      refine ⟨graph', by rw [foldlM_cons, hgraph₁]; exact hgraph', ?_⟩
      simpa only [mem_cons, or_assoc] using h'
  obtain ⟨graph, hgraph, h⟩ := hstep events (fun _ => False) Dict.empty hevents
    ⟨fun _ h => (h.elim (by simp [Dict.keys, Dict.empty]) (by simp)),
      fun _ h => (h.elim (by simp [Dict.keys, Dict.empty]) (by simp)), nofun,
      nofun, fun _ h => h.elim⟩
  exact ⟨graph, hgraph, by simpa using h⟩

omit hac hfull in
theorem Graphing.mem_keys {graph : Dict E (List E)} (h : Graphing look full seeds ([], graph)) {x : E} :
    x ∈ graph.keys ↔ ∃ e, seeds e ∧ BelowEq (inner look full) e x := by
  refine ⟨fun hx => h.reached x (.inl hx), ?_⟩
  rintro ⟨e, he, hex⟩
  induction hex with
  | refl => exact (h.seeds e he).resolve_right not_mem_nil
  | tail _ hy ih => exact (h.closed _ ih _ hy).resolve_right not_mem_nil

omit hac hfull in
/-- Only the event itself and members of the full conflicted set are added. -/
theorem mem_addEventAndAuthChainToGraph {graph graph' : Dict E (List E)} {e : E}
    (h : addEventAndAuthChainToGraph room look full graph e = .ok graph') {x : E} (hx : x ∈ graph'.keys) :
    x ∈ graph.keys ∨ x = e ∨ x ∈ full := by
  let I : List E × Dict E (List E) → Prop := fun s =>
    ∀ x, x ∈ s.2.keys ∨ x ∈ s.1 → x ∈ graph.keys ∨ x = e ∨ x ∈ full
  have hround : ∀ s s', I s → graphRound room look full s = .inl s' → I s' := by
    intro s s' h hs
    obtain ⟨eid, stack, hstack, hopened⟩ := graphRound_cases hs
    rintro x (hx | hx)
    · rw [hopened.keys, mem_keys_set] at hx
      rcases hx with rfl | hx
      · exact h x (.inr (hstack ▸ .head _))
      · exact h x (.inl hx)
    · rw [hopened.stack, mem_append, mem_reverse, mem_filter, mem_filter, decide_eq_true_eq] at hx
      exact hx.elim (fun hx => .inr (.inr hx.1.2)) fun hx => h x (.inr (hstack ▸ .tail _ hx))
  have hpost : ∀ n r, loop (graphRound room look full) n ([e], graph) = some r →
      ∀ g, r = .ok g → ∀ x ∈ g.keys, x ∈ graph.keys ∨ x = e ∨ x ∈ full := by
    intro n r hr
    refine loop_post (I := I) (Q := fun r => ∀ g, r = .ok g → ∀ x ∈ g.keys, x ∈ graph.keys ∨ x = e ∨ x ∈ full)
      hround ?_ n _ r ?_ hr
    · rintro ⟨stack, g'⟩ r h hs g rfl x hx
      match stack with
      | [] =>
        obtain rfl := Except.ok.inj (Sum.inr.inj hs)
        exact h x (.inl hx)
      | eid :: stack =>
        rw [graphRound] at hs
        dsimp only at hs
        split at hs
        · cases hs
        · cases hs
    · rintro x (hx | hx)
      · exact .inl hx
      · exact .inr (.inl (mem_singleton.mp hx))
  rw [addEventAndAuthChainToGraph] at h
  cases hr : loop (graphRound room look full) (weight (graphWidth look full) full.length + 1) ([e], graph) with
  | none =>
    rw [hr] at h
    cases h
    exact .inl hx
  | some r =>
    rw [hr] at h
    exact hpost _ r hr graph' h x hx

end Graph

end Sithnapse.StateRes
