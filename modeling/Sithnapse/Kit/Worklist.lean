import Sithnapse.Kit.Dict
import Sithnapse.Kit.Search

/-! Sets that are iterated in any order, and work lists that keep no record of what they expanded.

    A set is a list whose order means nothing; where a program iterates over it, an `Order` says in
    which arrangement it comes. A work list without a seen set may expand a node again and again, and
    ends only because the graph is acyclic: `weight` charges a node for everything that can follow
    from it. -/

namespace Kit

/-! ### Orders of iteration -/

/-- In which order the members of a set come. -/
structure Order (α : Type) where
  arrange : List α → List α
  perm : ∀ l, (arrange l).Perm l

namespace Order

variable {α : Type}

/-- The members as they were added. -/
def asAdded : Order α := ⟨id, fun _ => .refl _⟩

/-- The member added last comes first. -/
def latestFirst : Order α := ⟨List.reverse, List.reverse_perm⟩

@[simp] theorem mem_arrange {o : Order α} {l : List α} {x : α} : x ∈ o.arrange l ↔ x ∈ l :=
  (o.perm l).mem_iff

theorem nodup_arrange {o : Order α} {l : List α} : (o.arrange l).Nodup ↔ l.Nodup := (o.perm l).nodup_iff

theorem arrange_eq_nil {o : Order α} {l : List α} : o.arrange l = [] ↔ l = [] := by
  constructor
  · intro h
    exact (h ▸ (o.perm l).symm).eq_nil
  · rintro rfl
    exact (o.perm []).eq_nil

end Order

/-! ### Ranks and weights -/

open Chain List

variable {α : Type} {next : α → List α}

/-- An acyclic graph whose edges lead into a finite list has a bounded rank that every edge lowers. -/
theorem Chain.Acyclic.exists_rank (hac : Acyclic next) {U : List α} (hU : ∀ x y, y ∈ next x → y ∈ U) :
    ∃ rank : α → ℕ, (∀ x, ∀ y ∈ next x, rank y < rank x) ∧ ∀ x, rank x ≤ U.length := by
  classical
  refine ⟨fun x => (U.dedup.filter (Below next x ·)).length, fun x y hy => ?_, fun x => ?_⟩
  · have hsub : y :: U.dedup.filter (Below next y ·) ⊆ U.dedup.filter (Below next x ·) := by
      intro z hz
      rw [mem_filter, decide_eq_true_eq]
      rcases mem_cons.mp hz with rfl | hz
      · exact ⟨mem_dedup.mpr (hU x z hy), .single hy⟩
      · rw [mem_filter, decide_eq_true_eq] at hz
        exact ⟨hz.1, .head hy hz.2⟩
    have hnd : (y :: U.dedup.filter (Below next y ·)).Nodup := by
      rw [nodup_cons, mem_filter, decide_eq_true_eq]
      exact ⟨fun h => hac y h.2, (nodup_dedup U).filter _⟩
    exact (subperm_of_subset hnd hsub).length_le
  · exact (length_filter_le _ _).trans (dedup_sublist U).length_le

/-- What a node of some rank costs when nodes have fewer than `b - 1` successors. -/
def weight (b r : ℕ) : ℕ := b ^ (r + 1)

theorem weight_pos {b : ℕ} (hb : 0 < b) (r : ℕ) : 0 < weight b r := Nat.pow_pos hb

theorem weight_mono {b r r' : ℕ} (hb : 0 < b) (h : r ≤ r') : weight b r ≤ weight b r' :=
  Nat.pow_le_pow_right hb (Nat.succ_le_succ h)

/-- A node costs more than its successors together, and one step more. -/
theorem sum_weight_lt {b r : ℕ} {rank : α → ℕ} {l : List α} (hlen : l.length + 2 ≤ b)
    (hrank : ∀ x ∈ l, rank x < r) : 1 + (l.map fun x => weight b (rank x)).sum < weight b r := by
  have hpow : 0 < b ^ r := Nat.pow_pos (by omega)
  have hsum : (l.map fun x => weight b (rank x)).sum ≤ l.length * b ^ r := by
    have := sum_le_card_nsmul (l.map fun x => weight b (rank x)) (b ^ r)
      (forall_mem_map.mpr fun x hx => Nat.pow_le_pow_right (by omega) (hrank x hx))
    simpa using this
  calc 1 + (l.map fun x => weight b (rank x)).sum ≤ b ^ r + l.length * b ^ r := Nat.add_le_add hpow hsum
    _ < 2 * b ^ r + l.length * b ^ r := by omega
    _ = (l.length + 2) * b ^ r := by ring
    _ ≤ b * b ^ r := Nat.mul_le_mul_right _ hlen
    _ = weight b r := by rw [weight, pow_succ, Nat.mul_comm]

section Sets

variable [DecidableEq α]

/-- Adding to a set costs at most what is added. -/
theorem sum_addAll_le (f : α → ℕ) : ∀ l s : List α, ((addAll s l).map f).sum ≤ (s.map f).sum + (l.map f).sum
  | [], s => by simp [addAll]
  | a :: l, s => by
    have hstep : ((addIf s a).map f).sum ≤ (s.map f).sum + f a := by
      rw [addIf]
      split
      · exact Nat.le_add_right _ _
      · simp
    have htail := sum_addAll_le f l (addIf s a)
    rw [addAll, foldl_cons, ← addAll, map_cons, sum_cons]
    omega

/-! ### Searching without a seen set -/

/-- One round: take any waiting node out, add its successors to the waiting ones. -/
def drainRound (pick : List α × List α → Order α) (next : α → List α) (s : List α × List α) :
    (List α × List α) ⊕ List α :=
  match (pick s).arrange s.1 with
  | [] => .inr s.2
  | x :: rest => .inl (addAll rest (next x), addIf s.2 x)

/-- Take nodes out until none waits; `U` lists all nodes edges can lead to and only bounds the number
    of rounds. -/
def drain (pick : List α × List α → Order α) (next : α → List α) (U queue : List α) : List α :=
  (loop (drainRound pick next) (queue.length * weight (U.length + 2) U.length + 1) (queue, [])).getD []

/-- What was taken out and what waits is reachable, and nothing was left behind. -/
structure Draining (next : α → List α) (queue : List α) (s : List α × List α) : Prop where
  seeds : ∀ x ∈ queue, x ∈ s.1 ∨ x ∈ s.2
  closed : ∀ x ∈ s.2, ∀ y ∈ next x, y ∈ s.1 ∨ y ∈ s.2
  sound : ∀ x, x ∈ s.1 ∨ x ∈ s.2 → Under next queue x

theorem Draining.round {pick : List α × List α → Order α} {queue : List α} {s s' : List α × List α}
    (h : Draining next queue s) (hs : drainRound pick next s = .inl s') : Draining next queue s' := by
  rw [drainRound] at hs
  split at hs
  · cases hs
  · rename_i x rest hx
    obtain rfl := Sum.inl.inj hs
    have hmem : ∀ y, y ∈ s.1 ↔ y = x ∨ y ∈ rest := by
      intro y
      rw [← Order.mem_arrange (o := pick s), hx, mem_cons]
    have hkeep : ∀ y, y ∈ s.1 ∨ y ∈ s.2 → y ∈ addAll rest (next x) ∨ y ∈ addIf s.2 x := by
      intro y hy
      rw [hmem] at hy
      rw [mem_addAll, mem_addIf]
      tauto
    refine ⟨fun y hy => hkeep y (h.seeds y hy), fun y hy z hz => ?_, fun y hy => ?_⟩
    · rcases mem_addIf.mp hy with hy | rfl
      · exact hkeep z (h.closed y hy z hz)
      · exact .inl (mem_addAll.mpr (.inr hz))
    · have hx' : Under next queue x := h.sound x (.inl ((hmem x).mpr (.inl rfl)))
      rw [mem_addAll, mem_addIf] at hy
      rcases hy with (hy | hy) | (hy | rfl)
      · exact h.sound y (.inl ((hmem y).mpr (.inr hy)))
      · obtain ⟨q, hq, hqx⟩ := hx'
        exact ⟨q, hq, hqx.tail hy⟩
      · exact h.sound y (.inr hy)
      · exact hx'

/-- In an acyclic graph a work list without a seen set ends, with all that is reachable. -/
theorem mem_drain (hac : Acyclic next) {U queue : List α} (hU : ∀ x y, y ∈ next x → y ∈ U)
    (hnodup : ∀ x, (next x).Nodup) (pick : List α × List α → Order α) {x : α} :
    x ∈ drain pick next U queue ↔ Under next queue x := by
  obtain ⟨rank, hrank, hbound⟩ := hac.exists_rank hU
  have hlen : ∀ x, (next x).length + 2 ≤ U.length + 2 := fun x =>
    Nat.add_le_add_right (subperm_of_subset (hnodup x) fun y hy => hU x y hy).length_le 2
  have hstart : Draining next queue (queue, []) :=
    ⟨fun _ hx => .inl hx, nofun, fun x hx =>
      ⟨x, hx.resolve_right not_mem_nil, .refl⟩⟩
  let μ : List α × List α → ℕ := fun s => (s.1.map fun x => weight (U.length + 2) (rank x)).sum
  have hdec : ∀ s s', Draining next queue s → drainRound pick next s = .inl s' → μ s' < μ s := by
    intro s s' _ hs
    rw [drainRound] at hs
    split at hs
    · cases hs
    · rename_i x rest hx
      obtain rfl := Sum.inl.inj hs
      have hperm := ((pick s).perm s.1).map fun x => weight (U.length + 2) (rank x)
      have hadd := sum_addAll_le (fun x => weight (U.length + 2) (rank x)) (next x) rest
      have hlt := sum_weight_lt (hlen x) (hrank x)
      have hsum := hperm.sum_eq
      rw [hx, map_cons, sum_cons] at hsum
      show ((addAll rest (next x)).map _).sum < (s.1.map _).sum
      omega
  have hfuel : μ (queue, []) < queue.length * weight (U.length + 2) U.length + 1 := by
    have := sum_le_card_nsmul (queue.map fun x => weight (U.length + 2) (rank x))
      (weight (U.length + 2) U.length) (forall_mem_map.mpr fun y _ => weight_mono (by omega) (hbound y))
    rw [length_map, smul_eq_mul] at this
    exact Nat.lt_succ_of_le this
  obtain ⟨r, hr, hpost⟩ : ∃ r, loop (drainRound pick next) _ _ = some r ∧ ∀ x, x ∈ r ↔ Under next queue x := by
    refine loop_correct μ (fun s s' h hs => h.round hs) hdec (fun s r h hs => ?_) _ _ hstart hfuel
    rw [drainRound] at hs
    split at hs
    · rename_i hempty
      obtain rfl := Sum.inr.inj hs
      have hnone : ∀ x, x ∉ s.1 := by
        intro x hx
        rw [Order.arrange_eq_nil.mp hempty] at hx
        exact not_mem_nil hx
      refine fun x => ⟨fun hx => h.sound x (.inr hx), ?_⟩
      rintro ⟨q, hq, hqx⟩
      induction hqx with
      | refl => exact (h.seeds q hq).resolve_left (hnone q)
      | tail _ hy ih => exact (h.closed _ ih _ hy).resolve_left (hnone _)
    · cases hs
  rw [drain, hr]
  exact hpost x

end Sets

end Kit
