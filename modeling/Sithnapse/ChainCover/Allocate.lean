import Sithnapse.Kit.Dict
import Sithnapse.Kit.Chain

/-! `_allocate_chain_ids`: chain and sequence numbers for a batch of new events.

    Events come in topological order. An event continues the chain of the first auth event with its
    type and state key when the next sequence number of that chain is free, and starts a new chain
    otherwise. New chains are numbered by placeholders first; the generator is asked once, at the
    end, for as many ids as there are placeholders. -/

namespace Sithnapse.ChainCover
open Kit Kit.Dict Kit.Chain List
open Prod (fst snd mk.inj)

variable {E T : Type} [DecidableEq E] [DecidableEq T]

/-- A chain that exists in the database, or a placeholder. -/
abbrev ChainRef := ℕ ⊕ ℕ

/-- For each event, the auth event whose chain it may continue. -/
def allocTree (order : List E) (eventToTypes : Dict E T) (eventToAuthChain : Dict E (List E)) :
    List (E × Option E) :=
  order.map fun e =>
    (e, (eventToAuthChain.getD e []).find? fun a => eventToTypes.get? e = eventToTypes.get? a)

/-- `existing_chains`: the chains of the referenced auth events that are in the index. -/
def existingChains (tree : List (E × Option E)) (chainMap : Dict E Pos) : List ℕ :=
  addAll [] (tree.filterMap fun p => (p.2.bind chainMap.get?).map fst)

/-- `SELECT chain_id, MAX(sequence_number) … GROUP BY chain_id`. -/
def maxSeqNos (chains : List (E × Pos)) (existing : List ℕ) : Dict ChainRef ℕ :=
  Dict.ofList (existing.filterMap fun c =>
    (((chains.filter (·.2.1 = c)).map (·.2.2)).max?).map fun m => (.inl c, m))

/-- Loop state: tuples given out, largest sequence number per chain, placeholders used. -/
structure Alloc (E : Type) where
  newChainTuples : Dict E (ChainRef × ℕ)
  chainToMaxSeqNo : Dict ChainRef ℕ
  unallocated : ℕ

/-- Give `event` the tuple `p`. -/
def Alloc.assign (st : Alloc E) (event : E) (p : ChainRef × ℕ) (unallocated : ℕ) : Alloc E :=
  ⟨st.newChainTuples.set event p, st.chainToMaxSeqNo.set p.1 p.2, unallocated⟩

/-- The tuple of the referenced auth event: allocated just now, or in the index. `none` outside is
    a `KeyError`. -/
def Alloc.existing (st : Alloc E) (chainMap : Dict E Pos) : Option E → Option (Option (ChainRef × ℕ))
  | none => some none
  | some a =>
    match st.newChainTuples.get? a with
    | some p => some (some p)
    | none => (chainMap.get? a).map fun p => some (.inl p.1, p.2)

/-- One event. -/
def Alloc.step (chainMap : Dict E Pos) (st : Alloc E) (p : E × Option E) : Option (Alloc E) :=
  (st.existing chainMap p.2).bind fun
    | none => some (st.assign p.1 (.inr st.unallocated, 1) (st.unallocated + 1))
    | some (c, s) => (st.chainToMaxSeqNo.get? c).map fun m =>
        if m < s + 1 then st.assign p.1 (c, s + 1) st.unallocated
        else st.assign p.1 (.inr st.unallocated, 1) (st.unallocated + 1)

/-- `chain_id_to_allocated_map[chain_id]`. -/
def allocatedChain (existing ids : List ℕ) : ChainRef → Option ℕ
  | .inl c => if c ∈ existing then some c else none
  | .inr i => ids[i]?

/-- `_allocate_chain_ids`, for events already in topological order; `gen n` are the ids the
    generator returns when asked for `n`. -/
def allocateChainIds (chains : List (E × Pos)) (gen : ℕ → List ℕ) (order : List E)
    (eventToTypes : Dict E T) (eventToAuthChain : Dict E (List E)) (chainMap : Dict E Pos) :
    Option (Dict E Pos) := do
  let tree := allocTree order eventToTypes eventToAuthChain
  let existing := existingChains tree chainMap
  let st ← tree.foldlM (Alloc.step chainMap) ⟨Dict.empty, maxSeqNos chains existing, 0⟩
  let ids := gen st.unallocated
  let tuples ← st.newChainTuples.entries.mapM fun p =>
    (allocatedChain existing ids p.2.1).map fun c => (p.1, (c, p.2.2))
  pure (Dict.ofList tuples)

/-! ### The allocation loop -/

/-- What the loop has established once the entries `pre` of the tree have been visited. -/
structure Allocated (chains : List (E × Pos)) (auth : E → List E) (chainMap : Dict E Pos)
    (existing : List ℕ) (pre : List (E × Option E)) (st : Alloc E) : Prop where
  keys : st.newChainTuples.keys = pre.map fst
  max_new : ∀ {e c s}, st.newChainTuples.get? e = some (c, s) →
    ∃ m, st.chainToMaxSeqNo.get? c = some m ∧ s ≤ m
  max_old : ∀ c ∈ existing, ∃ m, st.chainToMaxSeqNo.get? (.inl c) = some m ∧
    ∀ r ∈ chains, r.2.1 = c → r.2.2 ≤ m
  ref_old : ∀ {e c s}, st.newChainTuples.get? e = some (.inl c, s) → c ∈ existing
  ref_new : ∀ {e i s}, st.newChainTuples.get? e = some (.inr i, s) → i < st.unallocated
  one_le : ∀ {e c s}, st.newChainTuples.get? e = some (c, s) → 1 ≤ s
  down : ∀ {e c s}, st.newChainTuples.get? e = some (c, s + 1) → 1 ≤ s → ∃ a ∈ auth e,
    st.newChainTuples.get? a = some (c, s) ∨ ∃ c₀, c = .inl c₀ ∧ chainMap.get? a = some (c₀, s)
  order : (st.newChainTuples.entries.map snd).Pairwise fun p q => p.1 = q.1 → p.2 < q.2
  above : ∀ {e c s}, st.newChainTuples.get? e = some (.inl c, s) → ∀ r ∈ chains, r.2.1 = c → r.2.2 < s

section Loop

variable {chains : List (E × Pos)} {auth : E → List E} {chainMap : Dict E Pos} {existing : List ℕ}
  {pre : List (E × Option E)} {st : Alloc E}

/-- Giving a new event a position above everything on its chain. -/
theorem Allocated.assign (h : Allocated chains auth chainMap existing pre st) {e : E} {a? : Option E}
    (he : e ∉ pre.map fst) {c : ChainRef} {s n : ℕ} (hn : st.unallocated ≤ n) (hs : 1 ≤ s)
    (hfree : ∀ {x t}, st.newChainTuples.get? x = some (c, t) → t < s)
    (hold : ∀ c₀, c = .inl c₀ → c₀ ∈ existing ∧ ∀ r ∈ chains, r.2.1 = c₀ → r.2.2 < s)
    (hnew : ∀ i, c = .inr i → i < n)
    (hdown : ∀ t, s = t + 1 → 1 ≤ t → ∃ a ∈ auth e,
      st.newChainTuples.get? a = some (c, t) ∨ ∃ c₀, c = .inl c₀ ∧ chainMap.get? a = some (c₀, t)) :
    Allocated chains auth chainMap existing (pre ++ [(e, a?)]) (st.assign e (c, s) n) := by
  have hek : e ∉ st.newChainTuples.keys := h.keys ▸ he
  have hent : (st.assign e (c, s) n).newChainTuples.entries =
      st.newChainTuples.entries ++ [(e, (c, s))] := entries_set _ hek
  have hget : ∀ x, (st.assign e (c, s) n).newChainTuples.get? x =
      if x = e then some (c, s) else st.newChainTuples.get? x := fun x => get?_set _ _ _ _
  have hmax : ∀ x, (st.assign e (c, s) n).chainToMaxSeqNo.get? x =
      if x = c then some s else st.chainToMaxSeqNo.get? x := fun x => get?_set _ _ _ _
  -- an old tuple is still there, a new one is `e`'s
  have hcases : ∀ {x p}, (st.assign e (c, s) n).newChainTuples.get? x = some p →
      (x = e ∧ p = (c, s)) ∨ st.newChainTuples.get? x = some p := by
    intro x p hx
    rw [hget] at hx
    split_ifs at hx with hxe
    · exact .inl ⟨hxe, (Option.some.inj hx).symm⟩
    · exact .inr hx
  have hkeep : ∀ {x p}, st.newChainTuples.get? x = some p →
      (st.assign e (c, s) n).newChainTuples.get? x = some p := by
    intro x p hx
    rw [hget, if_neg, hx]
    rintro rfl
    exact hek (mem_keys_iff.mpr ⟨p, hx⟩)
  constructor
  · rw [Dict.keys, hent, map_append, ← Dict.keys, h.keys, map_append]
    rfl
  · intro x d t hx
    rw [hmax]
    rcases hcases hx with ⟨_, hp⟩ | hx'
    · obtain ⟨rfl, rfl⟩ := mk.inj hp
      exact ⟨t, if_pos rfl, le_refl _⟩
    · split_ifs with hd
      · subst hd
        exact ⟨s, rfl, (hfree hx').le⟩
      · exact h.max_new hx'
  · intro d hd
    obtain ⟨m, hm, hle⟩ := h.max_old d hd
    rw [hmax]
    split_ifs with hdc
    · exact ⟨s, rfl, fun r hr hrd => ((hold d hdc.symm).2 r hr hrd).le⟩
    · exact ⟨m, hm, hle⟩
  · intro x d t hx
    rcases hcases hx with ⟨_, hp⟩ | hx
    · exact (hold d (mk.inj hp).1.symm).1
    · exact h.ref_old hx
  · intro x i t hx
    rcases hcases hx with ⟨_, hp⟩ | hx
    · exact hnew i (mk.inj hp).1.symm
    · exact lt_of_lt_of_le (h.ref_new hx) hn
  · intro x d t hx
    rcases hcases hx with ⟨_, hp⟩ | hx
    · exact (mk.inj hp).2 ▸ hs
    · exact h.one_le hx
  · intro x d t hx ht
    have hlift : ∀ {a}, (st.newChainTuples.get? a = some (d, t) ∨
        ∃ c₀, d = .inl c₀ ∧ chainMap.get? a = some (c₀, t)) →
        ((st.assign e (c, s) n).newChainTuples.get? a = some (d, t) ∨
          ∃ c₀, d = .inl c₀ ∧ chainMap.get? a = some (c₀, t)) := fun h => h.imp_left hkeep
    rcases hcases hx with ⟨rfl, hp⟩ | hx
    · obtain ⟨rfl, hst⟩ := mk.inj hp
      obtain ⟨a, ha, hpos⟩ := hdown t hst.symm ht
      exact ⟨a, ha, hlift hpos⟩
    · obtain ⟨a, ha, hpos⟩ := h.down hx ht
      exact ⟨a, ha, hlift hpos⟩
  · rw [hent, map_append, pairwise_append]
    refine ⟨h.order, pairwise_singleton _ _, ?_⟩
    intro p hp q hq hpq
    obtain ⟨⟨x, p'⟩, hx, rfl⟩ := mem_map.mp hp
    obtain rfl : q = (c, s) := by simpa using hq
    obtain ⟨d, t⟩ := p'
    subst hpq
    exact hfree (get?_eq_some_iff.mpr hx)
  · intro x d t hx r hr hrd
    rcases hcases hx with ⟨_, hp⟩ | hx
    · obtain ⟨hcd, rfl⟩ := mk.inj hp
      exact (hold d hcd.symm).2 r hr hrd
    · exact h.above hx r hr hrd

/-- One event gets its tuple. -/
theorem Allocated.step (h : Allocated chains auth chainMap existing pre st) {e : E} {a? : Option E}
    (he : e ∉ pre.map fst)
    (hknown : ∀ a, a? = some a → a ∈ auth e ∧ (a ∈ pre.map fst ∨ ∃ p, chainMap.get? a = some p))
    (hex : ∀ a p, a? = some a → chainMap.get? a = some p → p.1 ∈ existing) :
    ∃ st', st.step chainMap (e, a?) = some st' ∧
      Allocated chains auth chainMap existing (pre ++ [(e, a?)]) st' := by
  have hfresh : Allocated chains auth chainMap existing (pre ++ [(e, a?)])
      (st.assign e (.inr st.unallocated, 1) (st.unallocated + 1)) := by
    refine h.assign he (Nat.le_succ _) (le_refl _) ?_ (nofun) ?_ ?_
    · intro x t hx
      exact absurd (h.ref_new hx) (lt_irrefl _)
    · intro i hi
      cases hi
      exact Nat.lt_succ_self _
    · intro t ht h1
      omega
  cases a? with
  | none => exact ⟨_, rfl, hfresh⟩
  | some a =>
    obtain ⟨haut, hav⟩ := hknown a rfl
    -- the auth event has a tuple, on a chain whose maximum is known and bounds the chain
    have hex' : ∃ c s m, st.existing chainMap (some a) = some (some (c, s)) ∧
        st.chainToMaxSeqNo.get? c = some m ∧
        (st.newChainTuples.get? a = some (c, s) ∨ ∃ c₀, c = .inl c₀ ∧ chainMap.get? a = some (c₀, s)) ∧
        (∀ c₀, c = .inl c₀ → c₀ ∈ existing) ∧ (∀ i, c = .inr i → i < st.unallocated) := by
      cases hg : st.newChainTuples.get? a with
      | some p =>
        obtain ⟨c, s⟩ := p
        obtain ⟨m, hm, _⟩ := h.max_new hg
        refine ⟨c, s, m, by simp [Alloc.existing, hg], hm, .inl rfl, ?_, ?_⟩
        · rintro c₀ rfl
          exact h.ref_old hg
        · rintro i rfl
          exact h.ref_new hg
      | none =>
        have hcm : ∃ p, chainMap.get? a = some p := by
          rcases hav with hpre | hcm
          · rw [← h.keys] at hpre
            exact absurd hpre (get?_eq_none_iff.mp hg)
          · exact hcm
        obtain ⟨⟨c₀, s⟩, hp⟩ := hcm
        have hmem := hex a _ rfl hp
        obtain ⟨m, hm, _⟩ := h.max_old c₀ hmem
        refine ⟨.inl c₀, s, m, by simp [Alloc.existing, hg, hp], hm, .inr ⟨c₀, rfl, hp⟩, ?_, ?_⟩
        · rintro c₁ hc
          cases hc
          exact hmem
        · rintro i hi
          cases hi
    obtain ⟨c, s, m, hexi, hm, hpos, hin, hnw⟩ := hex'
    have hstep : st.step chainMap (e, some a) = some
        (if m < s + 1 then st.assign e (c, s + 1) st.unallocated
          else st.assign e (.inr st.unallocated, 1) (st.unallocated + 1)) := by
      simp [Alloc.step, hexi, hm]
    refine ⟨_, hstep, ?_⟩
    split_ifs with hlt
    · refine h.assign he (le_refl _) (Nat.le_add_left 1 s) ?_ ?_ hnw ?_
      · intro x t hx
        obtain ⟨m', hm', hle⟩ := h.max_new hx
        obtain rfl : m = m' := Option.mem_unique hm hm'
        omega
      · rintro c₀ rfl
        refine ⟨hin c₀ rfl, fun r hr hrc => ?_⟩
        obtain ⟨m', hm', hle⟩ := h.max_old c₀ (hin c₀ rfl)
        obtain rfl : m = m' := Option.mem_unique hm hm'
        have := hle r hr hrc
        omega
      · intro t ht _
        obtain rfl : t = s := by omega
        exact ⟨a, haut, hpos⟩
    · exact hfresh

end Loop

/-! ### The result -/

/-- The positions given to new events: above everything in the database on their chain, in the
    order of the events within the batch, and right above an auth event unless they start a chain. -/
structure NewPositions (chains : List (E × Pos)) (auth : E → List E) (chainMap : Dict E Pos)
    (order : List E) (new : Dict E Pos) : Prop where
  keys : new.keys = order
  one_le : ∀ {e c s}, new.get? e = some (c, s) → 1 ≤ s
  down : ∀ {e c s}, new.get? e = some (c, s + 1) → 1 ≤ s → ∃ a ∈ auth e,
    new.get? a = some (c, s) ∨ chainMap.get? a = some (c, s)
  above : ∀ {e p}, new.get? e = some p → ∀ r ∈ chains, r.2.1 = p.1 → r.2.2 < p.2
  order : (new.entries.map snd).Pairwise fun p q => p.1 = q.1 → p.2 < q.2

section NewPositions

variable {chains : List (E × Pos)} {auth : E → List E} {chainMap : Dict E Pos} {order : List E}
  {new : Dict E Pos}

/-- No two new events share a position. -/
theorem NewPositions.injective (h : NewPositions chains auth chainMap order new) {e e' : E} {p : Pos}
    (he : new.get? e = some p) (he' : new.get? e' = some p) : e = e' := by
  have hnd : (new.entries.map snd).Nodup := by
    refine List.Pairwise.imp (fun {p q} hpq => ?_) h.order
    rintro rfl
    exact lt_irrefl _ (hpq rfl)
  exact congrArg fst (inj_on_of_nodup_map hnd (get?_eq_some_iff.mp he) (get?_eq_some_iff.mp he') rfl)

/-- Within a chain, new events are placed in the order of the batch. -/
theorem NewPositions.before (h : NewPositions chains auth chainMap order new) {l r : List E} {a e : E}
    {p q : Pos} (hsplit : order = l ++ e :: r) (ha : a ∈ l) (hp : new.get? a = some p)
    (hq : new.get? e = some q) (hpq : p.1 = q.1) : p.2 < q.2 := by
  obtain ⟨l₁, l₂, hl, rfl, hl₂⟩ := map_eq_append_iff.mp (h.keys.trans hsplit)
  have hnd := new.nodup
  rw [hl, map_append, hl₂, nodup_append, nodup_cons] at hnd
  have hord := h.order
  rw [hl, map_append, pairwise_append] at hord
  have hpm : (a, p) ∈ l₁ ++ l₂ := hl ▸ get?_eq_some_iff.mp hp
  have hqm : (e, q) ∈ l₁ ++ l₂ := hl ▸ get?_eq_some_iff.mp hq
  have hpl : (a, p) ∈ l₁ := by
    rcases mem_append.mp hpm with h' | h'
    · exact h'
    · have ha₂ : a ∈ e :: r := hl₂ ▸ mem_map_of_mem h'
      exact absurd rfl (hnd.2.2 a ha a ha₂)
  have hql : (e, q) ∈ l₂ := by
    rcases mem_append.mp hqm with h' | h'
    · exact absurd rfl (hnd.2.2 e (mem_map_of_mem h') e (.head _))
    · exact h'
  exact hord.2.2 p (mem_map_of_mem hpl) q (mem_map_of_mem hql) hpq

end NewPositions

variable {chains : List (E × Pos)} {existing ids : List ℕ}

omit [DecidableEq E] in
theorem maxSeqNos_spec (hnd : existing.Nodup)
    (hrow : ∀ c ∈ existing, ∃ r ∈ chains, r.2.1 = c) : ∀ c ∈ existing,
    ∃ m, (maxSeqNos chains existing).get? (.inl c) = some m ∧ ∀ r ∈ chains, r.2.1 = c → r.2.2 ≤ m := by
  have hkeys : ∀ l : List ℕ, ((l.filterMap fun c =>
      (((chains.filter (·.2.1 = c)).map (·.2.2)).max?).map fun m => ((.inl c : ChainRef), m)).map
        fst).Sublist (l.map Sum.inl) := by
    intro l
    induction l with
    | nil => simp
    | cons c l ih =>
      rw [filterMap_cons]
      split
      · exact ih.cons _
      · rename_i p hp
        obtain ⟨m, _, rfl⟩ := Option.map_eq_some_iff.mp hp
        exact ih.cons_cons _
  intro c hc
  obtain ⟨r, hr, hrc⟩ := hrow c hc
  cases hm : ((chains.filter (·.2.1 = c)).map (·.2.2)).max? with
  | none =>
    rw [max?_eq_none_iff, map_eq_nil_iff] at hm
    exact absurd (mem_filter.mpr ⟨hr, by simpa using hrc⟩) (hm ▸ not_mem_nil)
  | some m =>
    refine ⟨m, ?_, ?_⟩
    · rw [maxSeqNos, get?_ofList ((hkeys existing).nodup (hnd.map Sum.inl_injective)), mem_filterMap]
      exact ⟨c, hc, by rw [hm]; rfl⟩
    · intro r' hr' hrc'
      exact (max?_eq_some_iff.mp hm).2 _ (mem_map.mpr ⟨r', mem_filter.mpr ⟨hr', by simpa using hrc'⟩, rfl⟩)

theorem mem_existingChains {tree : List (E × Option E)} {chainMap : Dict E Pos} {c : ℕ} :
    c ∈ existingChains tree chainMap ↔ ∃ e a p, (e, some a) ∈ tree ∧ chainMap.get? a = some p ∧ p.1 = c := by
  rw [existingChains, mem_addAll, mem_filterMap]
  constructor
  · rintro (h | ⟨⟨e, a?⟩, hm, h⟩)
    · cases h
    · obtain ⟨p, hp, rfl⟩ := Option.map_eq_some_iff.mp h
      obtain ⟨a, rfl, ha⟩ := Option.bind_eq_some_iff.mp hp
      exact ⟨e, a, p, hm, ha, rfl⟩
  · rintro ⟨e, a, p, hm, hp, rfl⟩
    exact .inr ⟨(e, some a), hm, by simp [hp]⟩

/-- The id a chain ends up with. -/
def realChain (ids : List ℕ) : ChainRef → ℕ
  | .inl c => c
  | .inr i => ids.getD i 0

/-- References the final renaming knows. -/
def ValidRef (existing ids : List ℕ) : ChainRef → Prop
  | .inl c => c ∈ existing
  | .inr i => i < ids.length

theorem realChain_inr {i : ℕ} (h : i < ids.length) : realChain ids (.inr i) = ids[i] := by
  simp [realChain, h]

theorem allocatedChain_eq {r : ChainRef} (h : ValidRef existing ids r) :
    allocatedChain existing ids r = some (realChain ids r) := by
  cases r with
  | inl c => exact if_pos h
  | inr i => rw [allocatedChain, realChain_inr h, getElem?_eq_getElem h]

/-- Distinct chains get distinct ids, because the generator's are not in use. -/
theorem realChain_injOn {r r' : ChainRef} (hnd : ids.Nodup)
    (hfresh : ∀ c ∈ ids, c ∉ existing) (h : ValidRef existing ids r) (h' : ValidRef existing ids r')
    (heq : realChain ids r = realChain ids r') : r = r' := by
  cases r with
  | inl c =>
    cases r' with
    | inl c' => exact congrArg Sum.inl heq
    | inr i =>
      rw [realChain_inr h', realChain] at heq
      exact absurd h (heq ▸ hfresh _ (getElem_mem h'))
  | inr i =>
    cases r' with
    | inl c' =>
      rw [realChain_inr h, realChain] at heq
      exact absurd h' (heq ▸ hfresh _ (getElem_mem h))
    | inr j =>
      rw [realChain_inr h, realChain_inr h'] at heq
      exact congrArg Sum.inr ((List.Nodup.getElem_inj_iff hnd).mp heq)

/-- The generator hands out as many distinct ids as it is asked for, none in use. -/
def FreshIds (chains : List (E × Pos)) (gen : ℕ → List ℕ) : Prop :=
  ∀ n, (gen n).length = n ∧ (gen n).Nodup ∧ ∀ c ∈ gen n, ∀ r ∈ chains, r.2.1 ≠ c

omit [DecidableEq E] in
/-- A counter above all ids in use is such a generator. -/
theorem freshIds_range {k : ℕ} (h : ∀ r ∈ chains, r.2.1 < k) : FreshIds chains fun n => List.range' k n := by
  refine fun n => ⟨length_range', nodup_range', fun c hc r hr => ?_⟩
  have := h r hr
  rw [mem_range'_1] at hc
  omega

/-- Allocation succeeds and gives every event of the batch a position. -/
theorem allocateChainIds_spec {gen : ℕ → List ℕ} (order : List E)
    (types : Dict E T) (authChain : Dict E (List E)) {chainMap : Dict E Pos}
    (hgen : FreshIds chains gen) (hcm : ∀ {a p}, chainMap.get? a = some p → (a, p) ∈ chains)
    (hnd : order.Nodup)
    (hknown : ∀ l e r, order = l ++ e :: r → ∀ a ∈ authChain.getD e [],
      a ∈ l ∨ ∃ p, chainMap.get? a = some p) :
    ∃ new, allocateChainIds chains gen order types authChain chainMap = some new ∧
      NewPositions chains (fun e => authChain.getD e []) chainMap order new := by
  set tree := allocTree order types authChain with htree
  set existing := existingChains tree chainMap with hexisting
  have hfst : tree.map fst = order := by
    rw [htree, allocTree, map_map]
    exact map_id _
  have hauth : ∀ e a, (e, some a) ∈ tree → a ∈ authChain.getD e [] := by
    intro e a hm
    obtain ⟨e', _, he⟩ := mem_map.mp hm
    obtain ⟨rfl, hfind⟩ := mk.inj he
    exact mem_of_find?_eq_some hfind
  have hexrow : ∀ c ∈ existing, ∃ r ∈ chains, r.2.1 = c := by
    intro c hc
    obtain ⟨e, a, p, _, hp, rfl⟩ := mem_existingChains.mp hc
    exact ⟨(a, p), hcm hp, rfl⟩
  have hexnd : existing.Nodup := nodup_addAll _ nodup_nil
  obtain ⟨st, hst, hinv⟩ := foldlM_visited (Alloc.step chainMap)
    (Allocated chains (fun e => authChain.getD e []) chainMap existing) tree
    (s := ⟨Dict.empty, maxSeqNos chains existing, 0⟩)
    ⟨rfl, by simp, maxSeqNos_spec hexnd hexrow, by simp, by simp, by simp, by simp,
      List.Pairwise.nil, by simp⟩
    (by
      rintro pre ⟨e, a?⟩ post st hsplit hinv
      have horder : order = pre.map fst ++ e :: post.map fst := by
        rw [← hfst, hsplit, map_append, map_cons]
      refine hinv.step ?_ ?_ ?_
      · exact not_mem_of_nodup (horder ▸ hnd)
      · rintro a rfl
        have ha := hauth e a (hsplit ▸ by simp)
        exact ⟨ha, hknown _ _ _ horder a ha⟩
      · rintro a p rfl hp
        exact mem_existingChains.mpr ⟨e, a, p, hsplit ▸ by simp, hp, rfl⟩)
  obtain ⟨hlen, hidnd, hidfresh⟩ := hgen st.unallocated
  set ids := gen st.unallocated with hids
  have hvalid : ∀ {e p}, st.newChainTuples.get? e = some p → ValidRef existing ids p.1 := by
    rintro e ⟨c | i, s⟩ he
    · exact hinv.ref_old he
    · exact lt_of_lt_of_eq (hinv.ref_new he) hlen.symm
  have hmapM := mapM_eq_map (f := fun p : E × (ChainRef × ℕ) =>
      (allocatedChain existing ids p.2.1).map fun c => (p.1, (c, p.2.2)))
    (g := fun p => (p.1, (realChain ids p.2.1, p.2.2)))
    (fun p hp => by
      rw [allocatedChain_eq (hvalid (get?_eq_some_iff.mpr hp))]
      rfl)
  refine ⟨Dict.ofList (st.newChainTuples.entries.map fun p => (p.1, (realChain ids p.2.1, p.2.2))), ?_, ?_⟩
  · simp only [allocateChainIds, ← htree, ← hexisting, hst, ← hids, Option.bind_eq_bind,
      Option.bind_some, hmapM]
    rfl
  have hkeys : (st.newChainTuples.entries.map
      fun p => (p.1, (realChain ids p.2.1, p.2.2))).map fst = order := by
    rw [map_map, ← hfst, ← hinv.keys]
    rfl
  have hndk := hkeys ▸ hnd
  have hget : ∀ {e q}, (Dict.ofList (st.newChainTuples.entries.map
      fun p => (p.1, (realChain ids p.2.1, p.2.2)))).get? e = some q ↔
      ∃ p, st.newChainTuples.get? e = some p ∧ q = (realChain ids p.1, p.2) := by
    intro e q
    rw [get?_ofList hndk, mem_map]
    constructor
    · rintro ⟨⟨e', p⟩, hm, he⟩
      cases he
      exact ⟨p, get?_eq_some_iff.mpr hm, rfl⟩
    · rintro ⟨p, hp, rfl⟩
      exact ⟨(e, p), get?_eq_some_iff.mp hp, rfl⟩
  have hunused : ∀ c ∈ ids, c ∉ existing := by
    intro c hc hcx
    obtain ⟨r, hr, hrc⟩ := hexrow c hcx
    exact hidfresh c hc r hr hrc
  constructor
  · rw [Dict.keys, entries_ofList hndk, hkeys]
  · intro e c s he
    obtain ⟨p, hp, heq⟩ := hget.mp he
    rw [(mk.inj heq).2]
    exact hinv.one_le hp
  · intro e c s he hs
    obtain ⟨⟨r, t⟩, hp, heq⟩ := hget.mp he
    cases heq
    obtain ⟨a, ha, hnew | ⟨c₀, rfl, hold⟩⟩ := hinv.down hp hs
    · exact ⟨a, ha, .inl (hget.mpr ⟨_, hnew, rfl⟩)⟩
    · exact ⟨a, ha, .inr hold⟩
  · intro e q he r hr hrq
    obtain ⟨⟨c, s⟩, hp, rfl⟩ := hget.mp he
    cases c with
    | inl c => exact hinv.above hp r hr hrq
    | inr i =>
      have hi : i < ids.length := hvalid hp
      refine absurd hrq (hidfresh _ ?_ r hr)
      simp only [realChain_inr hi]
      exact getElem_mem hi
  · rw [entries_ofList hndk, map_map]
    have hord := hinv.order
    rw [pairwise_map] at hord ⊢
    refine hord.imp_of_mem ?_
    intro p q hp hq hpq hreal
    exact hpq (realChain_injOn hidnd hunused (hvalid (get?_eq_some_iff.mpr hp))
      (hvalid (get?_eq_some_iff.mpr hq)) hreal)

end Sithnapse.ChainCover
