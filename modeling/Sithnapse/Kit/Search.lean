import Mathlib.Data.List.Nodup
import Sithnapse.Kit.Chain
import Sithnapse.Kit.Loop

/-! Graph search with a work list.

    A search keeps the nodes seen so far and, among them, those still to be expanded. `Search` is
    the invariant of every such walk, whatever order it expands nodes in and however many at a
    time; when nothing is left to expand, the nodes seen are those reachable from the seeds. -/

namespace Kit

open Chain List

variable {α : Type} {next : α → List α} {seeds : α → Prop} {seen todo seen' todo' B : List α}

/-- Seen nodes are reachable, and seen nodes that are not waiting have been expanded. -/
structure Search (next : α → List α) (seeds : α → Prop) (seen todo : List α) : Prop where
  seeds_sub : ∀ x, seeds x → x ∈ seen
  todo_sub : ∀ x ∈ todo, x ∈ seen
  closed : ∀ x ∈ seen, x ∉ todo → ∀ y ∈ next x, y ∈ seen
  sound : ∀ x ∈ seen, ∃ s, seeds s ∧ BelowEq next s x

namespace Search

/-- Nothing expanded yet. -/
theorem start (h : ∀ x, x ∈ seen ↔ seeds x) (ht : ∀ x, x ∈ todo ↔ x ∈ seen) : Search next seeds seen todo :=
  ⟨fun x hx => (h x).mpr hx, fun x hx => (ht x).mp hx, fun x hx hn => absurd ((ht x).mpr hx) hn,
    fun x hx => ⟨x, (h x).mp hx, .refl⟩⟩

/-- Only the members of the waiting list matter. -/
theorem congr_todo (h : Search next seeds seen todo) (ht : ∀ x, x ∈ todo' ↔ x ∈ todo) :
    Search next seeds seen todo' :=
  ⟨h.seeds_sub, fun x hx => h.todo_sub x ((ht x).mp hx),
    fun x hx hn => h.closed x hx fun hc => hn ((ht x).mpr hc), h.sound⟩

/-- Expanding a batch of waiting nodes. -/
theorem expand (h : Search next seeds seen todo) (hb : ∀ x ∈ B, x ∈ todo)
    (hseen : ∀ y, y ∈ seen' ↔ y ∈ seen ∨ ∃ x ∈ B, y ∈ next x)
    (htodo : ∀ y, y ∈ todo' ↔ (y ∈ todo ∧ y ∉ B) ∨ (y ∉ seen ∧ ∃ x ∈ B, y ∈ next x)) :
    Search next seeds seen' todo' := by
  refine ⟨fun x hx => (hseen x).mpr (.inl (h.seeds_sub x hx)), ?_, ?_, ?_⟩
  · intro x hx
    rcases (htodo x).mp hx with ⟨hx, _⟩ | ⟨_, hx⟩
    · exact (hseen x).mpr (.inl (h.todo_sub x hx))
    · exact (hseen x).mpr (.inr hx)
  · intro x hx hn y hy
    rw [htodo x, not_or] at hn
    by_cases hxb : x ∈ B
    · exact (hseen y).mpr (.inr ⟨x, hxb, hy⟩)
    · have hxt : x ∉ todo := fun hc => hn.1 ⟨hc, hxb⟩
      have hxs : x ∈ seen := by
        rcases (hseen x).mp hx with hx | hx
        · exact hx
        · by_contra hc
          exact hn.2 ⟨hc, hx⟩
      exact (hseen y).mpr (.inl (h.closed x hxs hxt y hy))
  · intro x hx
    rcases (hseen x).mp hx with hx | ⟨z, hz, hx⟩
    · exact h.sound x hx
    · obtain ⟨s, hs, hsz⟩ := h.sound z (h.todo_sub z (hb z hz))
      exact ⟨s, hs, hsz.tail hx⟩

/-- With nothing left to expand, exactly the reachable nodes have been seen. -/
theorem finish (h : Search next seeds seen []) {x : α} : x ∈ seen ↔ ∃ s, seeds s ∧ BelowEq next s x := by
  constructor
  · exact h.sound x
  · rintro ⟨s, hs, hsx⟩
    induction hsx with
    | refl => exact h.seeds_sub s hs
    | tail _ hy ih => exact h.closed _ ih not_mem_nil _ hy

end Search

/-- Expanding a batch uses up the nodes of a finite universe that are unseen or waiting. -/
theorem search_measure [DecidableEq α] {U : List α} (hU : U.Nodup) (hnd' : todo'.Nodup)
    (hsub : ∀ x ∈ todo', x ∉ todo → x ∈ U ∧ x ∉ seen)
    (hseen : ∀ x, x ∈ seen' ↔ x ∈ seen ∨ (x ∈ todo' ∧ x ∉ todo)) (htodo : ∀ x ∈ todo, x ∈ seen)
    {b : α} (hb : b ∈ todo) (hb' : b ∉ todo') :
    (U.filter (· ∉ seen')).length + todo'.length < (U.filter (· ∉ seen)).length + todo.length := by
  have hbs : b ∈ seen' := (hseen b).mpr (.inl (htodo b hb))
  have htodo' : ∀ x ∈ todo', x ∈ seen' := by
    intro x hx
    by_cases hxt : x ∈ todo
    · exact (hseen x).mpr (.inl (htodo x hxt))
    · exact (hseen x).mpr (.inr ⟨hx, hxt⟩)
  have hnd : (b :: (U.filter (· ∉ seen') ++ todo')).Nodup := by
    rw [nodup_cons, nodup_append]
    refine ⟨by simp [hbs, hb'], hU.filter _, hnd', ?_⟩
    rintro x hx y hy rfl
    rw [mem_filter, decide_eq_true_eq] at hx
    exact hx.2 (htodo' x hy)
  have hsubset : b :: (U.filter (· ∉ seen') ++ todo') ⊆ U.filter (· ∉ seen) ++ todo := by
    intro x hx
    rw [mem_append, mem_filter, decide_eq_true_eq]
    rcases mem_cons.mp hx with rfl | hx
    · exact .inr hb
    · rcases mem_append.mp hx with hx | hx
      · rw [mem_filter, decide_eq_true_eq] at hx
        exact .inl ⟨hx.1, fun hc => hx.2 ((hseen x).mpr (.inl hc))⟩
      · by_cases hxt : x ∈ todo
        · exact .inr hxt
        · exact .inl (hsub x hx hxt)
  have hlen := (subperm_of_subset hnd hsubset).length_le
  rw [length_cons, length_append, length_append] at hlen
  omega

/-- Loop rule for searches: if every step expands waiting nodes, the loop ends, and it ends with
    what holds when it stops after a search. `U` lists all nodes edges can lead to. -/
theorem search_loop [DecidableEq α] {σ ρ : Type} {f : σ → σ ⊕ ρ} (seenOf todoOf : σ → List α)
    {J : σ → Prop} {Q : ρ → Prop} {U : List α} (hU : ∀ x y, y ∈ next x → y ∈ U)
    (hstep : ∀ s s', J s → Search next seeds (seenOf s) (todoOf s) → (todoOf s).Nodup →
      f s = .inl s' → J s' ∧ (todoOf s').Nodup ∧ ∃ B, B ≠ [] ∧ (∀ x ∈ B, x ∈ todoOf s) ∧
        (∀ y, y ∈ seenOf s' ↔ y ∈ seenOf s ∨ ∃ x ∈ B, y ∈ next x) ∧
        ∀ y, y ∈ todoOf s' ↔ (y ∈ todoOf s ∧ y ∉ B) ∨ (y ∉ seenOf s ∧ ∃ x ∈ B, y ∈ next x))
    (hdone : ∀ s r, J s → Search next seeds (seenOf s) (todoOf s) → f s = .inr r → Q r)
    {n : ℕ} {s : σ} (hJ : J s) (hs : Search next seeds (seenOf s) (todoOf s))
    (hnd : (todoOf s).Nodup) (hn : U.length + (todoOf s).length < n) :
    ∃ r, loop f n s = some r ∧ Q r := by
  let I : σ → Prop := fun s => J s ∧ Search next seeds (seenOf s) (todoOf s) ∧ (todoOf s).Nodup
  have hI : ∀ s s', I s → f s = .inl s' → I s' := by
    rintro s s' ⟨hJ, hs, hnd⟩ h
    obtain ⟨hJ', hnd', B, _, hB, hseen, htodo⟩ := hstep s s' hJ hs hnd h
    exact ⟨hJ', hs.expand hB hseen htodo, hnd'⟩
  refine loop_correct (I := I) (fun s => (U.dedup.filter (· ∉ seenOf s)).length + (todoOf s).length) hI ?_
    (fun s r hs h => hdone s r hs.1 hs.2.1 h) n s ⟨hJ, hs, hnd⟩ ?_
  · rintro s s' ⟨hJ, hs, hnd⟩ h
    obtain ⟨_, hnd', B, hne, hB, hseen, htodo⟩ := hstep s s' hJ hs hnd h
    obtain ⟨b, hb⟩ := exists_mem_of_ne_nil B hne
    refine search_measure (b := b) (nodup_dedup U) hnd' ?_ ?_ hs.todo_sub (hB b hb) ?_
    · intro y hy hyt
      rcases (htodo y).mp hy with hy | ⟨hys, x, _, hx⟩
      · exact absurd hy.1 hyt
      · exact ⟨mem_dedup.mpr (hU x y hx), hys⟩
    · intro y
      rw [hseen y, htodo y]
      constructor
      · rintro (hy | hy)
        · exact .inl hy
        · by_cases hys : y ∈ seenOf s
          · exact .inl hys
          · exact .inr ⟨.inr ⟨hys, hy⟩, fun hc => hys (hs.todo_sub y hc)⟩
      · rintro (hy | ⟨hy, hyt⟩)
        · exact .inl hy
        · exact .inr ((hy.resolve_left fun hc => hyt hc.1).2)
    · intro hc
      rcases (htodo b).mp hc with hc | hc
      · exact hc.2 hb
      · exact hc.1 (hs.todo_sub b (hB b hb))
  · have h1 := length_filter_le (· ∉ seenOf s) U.dedup
    have h2 := (dedup_sublist U).length_le
    omega

/-! ### Expanding everything that waits -/

section Closure

variable [DecidableEq α]

/-- One round of a recursive query: expand the whole working table, keep what is new. -/
def closureStep (next : α → List α) (st : List α × List α) : (List α × List α) ⊕ List α :=
  match st.1 with
  | [] => .inr st.2
  | _ :: _ =>
    let new := (st.1.flatMap next).dedup.filter (· ∉ st.2)
    .inl (new, st.2 ++ new)

/-- A recursive query with set semantics: the working table starts as the seeds; `U` lists all
    nodes edges can lead to and only bounds the number of rounds. -/
def closure (next : α → List α) (U seeds : List α) : List α :=
  (loop (closureStep next) (U.dedup.length + seeds.dedup.length + 1) (seeds.dedup, seeds.dedup)).getD []

/-- A recursive query ends, with all that is reachable. -/
theorem loop_closure {U seedList : List α} (hU : ∀ x y, y ∈ next x → y ∈ U) {n : ℕ}
    (hn : U.length + seedList.dedup.length < n) :
    ∃ r, loop (closureStep next) n (seedList.dedup, seedList.dedup) = some r ∧
      ∀ x, x ∈ r ↔ ∃ s ∈ seedList, BelowEq next s x := by
  refine search_loop (f := closureStep next) Prod.snd Prod.fst
    (J := fun _ => True) (Q := fun r => ∀ x, x ∈ r ↔ ∃ s, s ∈ seedList ∧ BelowEq next s x) hU
    (by
      rintro ⟨todo, seen⟩ s' - hs _ h
      cases todo with
      | nil => simp [closureStep] at h
      | cons b todo =>
        simp only [closureStep, Sum.inl.injEq] at h
        subst h
        have hmem : ∀ y, y ∈ (((b :: todo).flatMap next).dedup.filter (· ∉ seen)) ↔
            y ∉ seen ∧ ∃ x ∈ b :: todo, y ∈ next x := by
          intro y
          simp only [mem_filter, mem_dedup, mem_flatMap, decide_eq_true_eq]
          tauto
        refine ⟨trivial, (nodup_dedup _).filter _, b :: todo, by simp, fun _ h => h, ?_, ?_⟩
        · intro y
          rw [mem_append, hmem]
          by_cases hy : y ∈ seen <;> simp [hy]
        · intro y
          rw [hmem]
          exact ⟨.inr, fun h => h.resolve_left fun hc => hc.2 hc.1⟩)
    (by
      rintro ⟨todo, seen⟩ r - hs h x
      cases todo with
      | nil =>
        simp only [closureStep, Sum.inr.injEq] at h
        subst h
        exact hs.finish
      | cons b todo => simp [closureStep] at h)
    trivial (Search.start (fun _ => mem_dedup) (fun _ => Iff.rfl)) (nodup_dedup _) hn

theorem mem_closure {U seedList : List α} (hU : ∀ x y, y ∈ next x → y ∈ U) {x : α} :
    x ∈ closure next U seedList ↔ ∃ s ∈ seedList, BelowEq next s x := by
  obtain ⟨r, hr, hpost⟩ := loop_closure (U := U.dedup)
    (fun x y hy => mem_dedup.mpr (hU x y hy)) (Nat.lt_succ_self (U.dedup.length + seedList.dedup.length))
  rw [closure, hr]
  exact hpost x

end Closure

/-! ### Searching beyond the seeds -/

section Frontier

variable {f : List α × List α → (List α × List α) ⊕ List α} {found₀ seedList : List α}

/-- What is found comes from below the seeds, and what is found or a seed is waiting or expanded. -/
structure Frontier (next : α → List α) (seedList found₀ : List α) (st : List α × List α) : Prop where
  kept : ∀ x ∈ found₀, x ∈ st.2
  found : ∀ x ∈ st.2, x ∈ found₀ ∨ ∃ s ∈ seedList, Below next s x
  todo : ∀ x ∈ st.1, x ∈ seedList ∨ ∃ s ∈ seedList, Below next s x
  closed : ∀ x, x ∈ seedList ∨ x ∈ st.2 → x ∉ st.1 → ∀ y ∈ next x, y ∈ st.2

theorem Frontier.step {st st' : List α × List α} (h : Frontier next seedList found₀ st)
    (hfound : ∀ y, y ∈ st'.2 ↔ y ∈ st.2 ∨ ∃ x ∈ st.1, y ∈ next x)
    (htodo : ∀ y, y ∈ st'.1 ↔ y ∉ st.2 ∧ ∃ x ∈ st.1, y ∈ next x) : Frontier next seedList found₀ st' := by
  have hbelow : ∀ x ∈ st.1, ∀ y ∈ next x, ∃ s ∈ seedList, Below next s y := by
    intro x hx y hy
    rcases h.todo x hx with hs | ⟨s, hs, hsx⟩
    · exact ⟨x, hs, .single hy⟩
    · exact ⟨s, hs, hsx.tail hy⟩
  refine ⟨fun x hx => (hfound x).mpr (.inl (h.kept x hx)), fun y hy => ?_, fun y hy => ?_,
    fun x hx hn y hy => ?_⟩
  · rcases (hfound y).mp hy with hy | ⟨x, hx, hxy⟩
    · exact h.found y hy
    · exact .inr (hbelow x hx y hxy)
  · obtain ⟨-, x, hx, hxy⟩ := (htodo y).mp hy
    exact .inr (hbelow x hx y hxy)
  · rw [hfound]
    by_cases hxt : x ∈ st.1
    · exact .inr ⟨x, hxt, hy⟩
    · refine .inl (h.closed x (hx.imp_right fun hx => ?_) hxt y hy)
      by_contra hxf
      exact hn ((htodo x).mpr ⟨hxf, ((hfound x).mp hx).resolve_left hxf⟩)

/-- Loop rule for a search that lists what is below its seeds: each round expands all that waits and
    goes on with what is new. `found₀` is what earlier searches found. -/
theorem frontier_loop [DecidableEq α] {U : List α} (hU : ∀ x y, y ∈ next x → y ∈ U)
    (hstep : ∀ st st', f st = .inl st' → st.1 ≠ [] ∧
      (∀ y, y ∈ st'.2 ↔ y ∈ st.2 ∨ ∃ x ∈ st.1, y ∈ next x) ∧
      ∀ y, y ∈ st'.1 ↔ y ∉ st.2 ∧ ∃ x ∈ st.1, y ∈ next x)
    (hdone : ∀ st r, f st = .inr r → st.1 = [] ∧ r = st.2)
    (hclosed : ∀ x ∈ found₀, ∀ y ∈ next x, y ∈ found₀) {n : ℕ} (hn : U.length + 1 < n) :
    ∃ r, loop f n (seedList, found₀) = some r ∧ ∀ y, y ∈ r ↔ y ∈ found₀ ∨ ∃ s ∈ seedList, Below next s y := by
  let μ : List α × List α → ℕ := fun st =>
    (U.dedup.filter (· ∉ st.2)).length + if st.1 = [] then 0 else 1
  have hinv : ∀ st st', Frontier next seedList found₀ st → f st = .inl st' →
      Frontier next seedList found₀ st' := by
    intro st st' h hs
    obtain ⟨-, hfound, htodo⟩ := hstep st st' hs
    exact h.step hfound htodo
  have hdec : ∀ st st', Frontier next seedList found₀ st → f st = .inl st' → μ st' < μ st := by
    intro st st' _ hs
    obtain ⟨hne, hfound, htodo⟩ := hstep st st' hs
    have hsub : U.dedup.filter (· ∉ st'.2) ⊆ U.dedup.filter (· ∉ st.2) := by
      intro y hy
      rw [mem_filter, decide_eq_true_eq] at hy ⊢
      exact ⟨hy.1, fun hc => hy.2 ((hfound y).mpr (.inl hc))⟩
    have hnd : (U.dedup.filter (· ∉ st'.2)).Nodup := (nodup_dedup U).filter _
    show (U.dedup.filter (· ∉ st'.2)).length + (if st'.1 = [] then 0 else 1) <
      (U.dedup.filter (· ∉ st.2)).length + if st.1 = [] then 0 else 1
    rw [if_neg hne]
    by_cases hnil : st'.1 = []
    · rw [if_pos hnil]
      exact Nat.lt_succ_of_le (subperm_of_subset hnd hsub).length_le
    · -- something new was found
      rw [if_neg hnil]
      obtain ⟨y, hy⟩ := exists_mem_of_ne_nil _ hnil
      obtain ⟨hyf, x, hx, hxy⟩ := (htodo y).mp hy
      have hyU : y ∈ U.dedup.filter (· ∉ st.2) := by
        rw [mem_filter, decide_eq_true_eq]
        exact ⟨mem_dedup.mpr (hU x y hxy), hyf⟩
      have hy' : y ∉ U.dedup.filter (· ∉ st'.2) := by
        rw [mem_filter, decide_eq_true_eq]
        exact fun hc => hc.2 ((hfound y).mpr (.inr ⟨x, hx, hxy⟩))
      have hlen := (subperm_of_subset (nodup_cons.mpr ⟨hy', hnd⟩) (cons_subset.mpr ⟨hyU, hsub⟩)).length_le
      rw [length_cons] at hlen
      omega
  have hstart : Frontier next seedList found₀ (seedList, found₀) :=
    ⟨fun _ h => h, fun _ h => .inl h, fun _ h => .inl h, fun x hx hn y hy =>
      hclosed x (hx.resolve_left hn) y hy⟩
  have hμ : μ (seedList, found₀) < n := by
    have h1 := length_filter_le (fun x => decide (x ∉ found₀)) U.dedup
    have h2 := (dedup_sublist U).length_le
    show (U.dedup.filter (· ∉ found₀)).length + (if seedList = [] then 0 else 1) < n
    split <;> omega
  refine loop_correct μ hinv hdec (fun st r h hs y => ?_) n _ hstart hμ
  obtain ⟨hnil, rfl⟩ := hdone st r hs
  refine ⟨h.found y, ?_⟩
  have hexp : ∀ x, x ∈ seedList ∨ x ∈ st.2 → ∀ y ∈ next x, y ∈ st.2 := fun x hx =>
    h.closed x hx (by rw [hnil]; exact not_mem_nil)
  rintro (hy | ⟨s, hs, hsy⟩)
  · exact h.kept y hy
  · induction hsy with
    | single hy => exact hexp s (.inl hs) _ hy
    | tail _ hy ih => exact hexp _ (.inr ih) _ hy

end Frontier

end Kit
