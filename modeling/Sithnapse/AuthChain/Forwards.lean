import Sithnapse.AuthChain.StateSets

/-! What is reachable forwards from the conflicted events.

    The forward walk inverts the links of one batch at a time and does not walk a chain again unless
    its number improves. A chain returned by an early batch is therefore not walked on into chains
    that only a later batch returns. What the walk does compute is described by `forwards_iff`:
    the positions that can be reached by going up through chains which the same batch returned for
    the first time. -/

namespace Sithnapse.AuthChain
open Kit Kit.Dict Kit.Chain ChainCover List Relation

/-- Going up: `q` links to `p`'s chain, at `p` or above. -/
def Up (L : Set Link) (p q : Pos) : Prop := ∃ a, p.2 ≤ a ∧ (⟨q.1, q.2, p.1, a⟩ : Link) ∈ L

/-- The first batch that returns the links of a chain. -/
def firstBatch (batches : List (Dict ℕ (List ChainEdge))) (c : ℕ) : Option ℕ :=
  batches.findIdx? fun links => c ∈ links.keys

/-- Going up to a chain that batch `i` returns for the first time. -/
def UpIn (L : Set Link) (batches : List (Dict ℕ (List ChainEdge))) (i : ℕ) (p q : Pos) : Prop :=
  Up L p q ∧ firstBatch batches q.1 = some i

section Batches

variable {batches : List (Dict ℕ (List ChainEdge))} {s : LinkStore} {c i j : ℕ}

theorem firstBatch_le (hi : i < batches.length) (hc : c ∈ (batches.get ⟨i, hi⟩).keys) :
    ∃ j ≤ i, firstBatch batches c = some j := by
  cases hf : firstBatch batches c with
  | none =>
    rw [firstBatch, findIdx?_eq_none_iff] at hf
    exact absurd hc (by simpa using hf _ (get_mem batches ⟨i, hi⟩))
  | some j =>
    obtain ⟨_, _, hmin⟩ := findIdx?_eq_some_iff_getElem.mp hf
    refine ⟨j, not_lt.mp fun hlt => ?_, rfl⟩
    exact hmin i hlt (by simpa using hc)

theorem firstBatch_mem (h : firstBatch batches c = some i) :
    ∃ hi : i < batches.length, c ∈ (batches.get ⟨i, hi⟩).keys := by
  obtain ⟨hi, hp, _⟩ := findIdx?_eq_some_iff_getElem.mp h
  exact ⟨hi, by simpa using hp⟩

/-- Going up never leads to a chain that was returned earlier. -/
theorem firstBatch_up (hbs : ∀ d ∈ batches, ∃ batch, Fetched s batch d) {p q : Pos}
    (hup : Up s.linkSet p q) (hp : firstBatch batches p.1 = some i)
    (hq : firstBatch batches q.1 = some j) : i ≤ j := by
  obtain ⟨hi, hpi⟩ := firstBatch_mem hp
  obtain ⟨hj, hqj⟩ := firstBatch_mem hq
  obtain ⟨_, hfi⟩ := hbs _ (get_mem batches ⟨i, hi⟩)
  obtain ⟨_, hfj⟩ := hbs _ (get_mem batches ⟨j, hj⟩)
  obtain ⟨a, _, hm⟩ := hup
  obtain ⟨⟨b, hb, hbq⟩, _⟩ := (hfj.keys q.1).mp hqj
  have hpj : p.1 ∈ (batches.get ⟨j, hj⟩).keys :=
    (hfj.keys p.1).mpr ⟨⟨b, hb, hbq.tail (mem_next.mpr ⟨_, hm, rfl, rfl⟩)⟩, ((hfi.keys p.1).mp hpi).2⟩
  obtain ⟨k, hk, hpk⟩ := firstBatch_le hj hpj
  rw [hp] at hpk
  exact (Option.some.inj hpk).trans_le hk

/-- The inverted links of a batch go up to the chains of the batch. -/
theorem forward_take_iff {batch : List ℕ} {links : Dict ℕ (List ChainEdge)}
    (hf : Fetched s batch links) {p q : Pos} :
    Take (· ≥ ·) (fun c => (generateForwardLinks links).getD c []) p q ↔
      q.1 ∈ links.keys ∧ Up s.linkSet p q := by
  have hrow : ∀ a, (a, q) ∈ (generateForwardLinks links).getD p.1 [] ↔
      q.1 ∈ links.keys ∧ (q.2, p.1, a) ∈ links.getD q.1 [] := by
    intro a
    rw [generateForwardLinks, mem_groupLinks]
    simp only [mem_flatMap, mem_map, edgeLink]
    constructor
    · rintro ⟨⟨k, es⟩, hk, ⟨n, d, t⟩, hx, heq⟩
      obtain ⟨rfl, rfl, rfl, rfl⟩ := heq
      have hget := get?_eq_some_iff.mpr hk
      exact ⟨mem_keys_iff.mpr ⟨es, hget⟩, by rwa [getD_of_get? hget]⟩
    · rintro ⟨hk, hx⟩
      exact ⟨_, get?_eq_some_iff.mp (get?_of_mem_keys [] hk), _, hx, rfl⟩
  constructor
  · rintro ⟨a, hle, hm⟩
    obtain ⟨hk, hx⟩ := (hrow a).mp hm
    exact ⟨hk, a, hle, (hf.edges q.1 hk _).mp hx⟩
  · rintro ⟨hk, a, hle, hm⟩
    exact ⟨a, hle, (hrow a).mpr ⟨hk, (hf.edges q.1 hk _).mpr hm⟩⟩

end Batches

/-! ### One batch -/

/-- The forward numbers after the first `j` batches, with conflicted positions `C`. -/
structure Forwards (L : Set Link) (batches : List (Dict ℕ (List ChainEdge))) (C : List Pos) (j : ℕ)
    (F : Dict ℕ ℕ) : Prop where
  sound : ∀ {k t}, F.get? k = some t → (k, t) ∈ C ∨ ∃ i < j, ∃ p ∈ C, TransGen (UpIn L batches i) p (k, t)
  conflicted : 0 < j → ∀ p ∈ C, F.getD p.1 maxChainLength ≤ p.2
  start : ∀ p ∈ C, ∀ q i, Up L p q → firstBatch batches q.1 = some i → i < j → F.getD q.1 maxChainLength ≤ q.2
  closed : ∀ {k t}, F.get? k = some t → ∀ q i, firstBatch batches k = some i → i < j →
    Up L (k, t) q → firstBatch batches q.1 = some i → F.getD q.1 maxChainLength ≤ q.2

/-- The same in the middle of batch `j`, when the positions in `pre` have been walked. -/
structure InBatch (L : Set Link) (batches : List (Dict ℕ (List ChainEdge))) (C : List Pos) (j : ℕ)
    (pre : List Pos) (F : Dict ℕ ℕ) : Prop where
  sound : ∀ {k t}, F.get? k = some t → (k, t) ∈ C ∨ ∃ i < j + 1, ∃ p ∈ C, TransGen (UpIn L batches i) p (k, t)
  conflicted : ∀ p ∈ C, 0 < j ∨ p ∈ pre → F.getD p.1 maxChainLength ≤ p.2
  start : ∀ p ∈ C, ∀ q i, Up L p q → firstBatch batches q.1 = some i →
    i < j ∨ (i = j ∧ p ∈ pre) → F.getD q.1 maxChainLength ≤ q.2
  closed : ∀ {k t}, F.get? k = some t → ∀ q i, firstBatch batches k = some i →
    i < j ∨ (i = j ∧ (k, t) ∉ C) → Up L (k, t) q → firstBatch batches q.1 = some i →
    F.getD q.1 maxChainLength ≤ q.2

variable {batches : List (Dict ℕ (List ChainEdge))} {s : LinkStore} {C pre : List Pos} {j : ℕ}
  {F : Dict ℕ ℕ}

/-- Recording a conflicted position adds at most that position as an entry. -/
theorem set_min_cases {p : Pos} (hp : p.2 < maxChainLength) :
    (∀ {k t}, (F.set p.1 (min p.2 (F.getD p.1 maxChainLength))).get? k = some t →
      F.get? k = some t ∨ (k, t) = p) ∧
    (∀ k, (F.set p.1 (min p.2 (F.getD p.1 maxChainLength))).getD k maxChainLength ≤ F.getD k maxChainLength) ∧
    (F.set p.1 (min p.2 (F.getD p.1 maxChainLength))).getD p.1 maxChainLength ≤ p.2 := by
  refine ⟨?_, ?_, ?_⟩
  · intro k t hk
    rw [get?_set] at hk
    split_ifs at hk with hkp
    · rcases le_total p.2 (F.getD p.1 maxChainLength) with hle | hle
      · rw [min_eq_left hle] at hk
        exact .inr (Prod.ext hkp (Option.some.inj hk).symm)
      · rw [min_eq_right hle] at hk
        cases hg : F.get? p.1 with
        | none =>
          rw [Dict.getD, hg, Option.getD_none] at hle
          exact absurd hle (not_le.mpr hp)
        | some t' =>
          rw [getD_of_get? hg] at hk
          rw [hkp, hg, hk]
          exact .inl rfl
    · exact .inl hk
  · intro k
    rw [getD_set]
    split_ifs with hkp
    · rw [hkp]
      exact min_le_right _ _
    · exact le_refl _
  · rw [getD_set, if_pos rfl]
    exact min_le_left _ _

section Walk

variable (hbs : ∀ d ∈ batches, ∃ batch, Fetched s batch d)

include hbs

/-- Walking one conflicted position. -/
theorem InBatch.walk (hj : j < batches.length)
    (h : InBatch s.linkSet batches C j pre F) {p : Pos} (hpC : p ∈ C) (hp : p.2 < maxChainLength) :
    InBatch s.linkSet batches C j (pre ++ [p])
      (materialize p (generateForwardLinks (batches.get ⟨j, hj⟩))
        (F.set p.1 (min p.2 (F.getD p.1 maxChainLength))) false) := by
  obtain ⟨_, hf⟩ := hbs _ (get_mem batches ⟨j, hj⟩)
  obtain ⟨hentry, hle, hown⟩ := set_min_cases (F := F) hp
  set F₁ := F.set p.1 (min p.2 (F.getD p.1 maxChainLength))
  have hspread := materialize_spread materializeLink_forward p (generateForwardLinks (batches.get ⟨j, hj⟩)) F₁
  set F₂ := materialize p (generateForwardLinks (batches.get ⟨j, hj⟩)) F₁ false
  have hgrow : ∀ k, F₂.getD k maxChainLength ≤ F.getD k maxChainLength := fun k =>
    (hspread.grows k).trans (hle k)
  -- what this walk improves lies on chains that this batch returns for the first time
  have hfirst : ∀ {q : Pos}, q.1 ∈ (batches.get ⟨j, hj⟩).keys → ∃ i ≤ j, firstBatch batches q.1 = some i :=
    fun hq => firstBatch_le hj hq
  have hpath : ∀ {q}, TransGen (Gain (· ≥ ·) maxChainLength
      (fun c => (generateForwardLinks (batches.get ⟨j, hj⟩)).getD c []) F₁) p q →
      firstBatch batches q.1 = some j ∧ TransGen (UpIn s.linkSet batches j) p q := by
    intro q hq
    induction hq with
    | @single q hg =>
      obtain ⟨hk, hup⟩ := (forward_take_iff hf).mp hg.1
      obtain ⟨i, hi, hqi⟩ := hfirst hk
      obtain rfl : i = j := by
        refine le_antisymm hi (not_lt.mp fun hlt => hg.2 ?_)
        exact (hle q.1).trans (h.start p hpC q i hup hqi (.inl hlt))
      exact ⟨hqi, .single ⟨hup, hqi⟩⟩
    | @tail r q _ hg ih =>
      obtain ⟨hk, hup⟩ := (forward_take_iff hf).mp hg.1
      obtain ⟨i, hi, hqi⟩ := hfirst hk
      obtain rfl : i = j := le_antisymm hi (firstBatch_up hbs hup ih.1 hqi)
      exact ⟨hqi, ih.2.tail ⟨hup, hqi⟩⟩
  have hhere : ∀ {q : Pos}, firstBatch batches q.1 = some j → q.1 ∈ (batches.get ⟨j, hj⟩).keys :=
    fun hq => (firstBatch_mem hq).2
  refine ⟨?_, ?_, ?_, ?_⟩
  · intro k t hk
    rcases hspread.entry hk with h₁ | ⟨hg, _⟩
    · rcases hentry h₁ with h₀ | hkp
      · exact h.sound h₀
      · exact .inl (hkp ▸ hpC)
    · exact .inr ⟨j, Nat.lt_succ_self j, p, hpC, (hpath hg).2⟩
  · rintro q hq (h0 | hpre)
    · exact (hgrow _).trans (h.conflicted q hq (.inl h0))
    · rcases mem_concat.mp hpre with hpre | rfl
      · exact (hgrow _).trans (h.conflicted q hq (.inr hpre))
      · exact (hspread.grows _).trans hown
  · rintro r hr q i hup hqi (hlt | ⟨rfl, hpre⟩)
    · exact (hgrow _).trans (h.start r hr q i hup hqi (.inl hlt))
    · rcases mem_concat.mp hpre with hpre | rfl
      · exact (hgrow _).trans (h.start r hr q i hup hqi (.inr ⟨rfl, hpre⟩))
      · exact hspread.start q ((forward_take_iff hf).mpr ⟨hhere hqi, hup⟩)
  · intro k t hk q i hki hij hup hqi
    rcases hspread.entry hk with h₁ | ⟨hg, hpassed⟩
    · rcases hentry h₁ with h₀ | hkp
      · exact (hgrow _).trans (h.closed h₀ q i hki hij hup hqi)
      · -- the entry is the conflicted position itself
        rcases hij with hlt | ⟨_, hnC⟩
        · exact (hgrow _).trans (h.start p hpC q i (hkp ▸ hup) hqi (.inl hlt))
        · exact absurd (hkp ▸ hpC) hnC
    · obtain rfl : i = j := Option.mem_unique hki (hpath hg).1
      exact hpassed q ((forward_take_iff hf).mpr ⟨hhere hqi, hup⟩)

variable (hC : ∀ p ∈ C, p.2 < maxChainLength)

include hC

/-- One batch. -/
theorem Forwards.batch (hj : j < batches.length) (h : Forwards s.linkSet batches C j F) :
    Forwards s.linkSet batches C (j + 1) (accumulateForwardsReachableEvents F (batches.get ⟨j, hj⟩) C) := by
  have hin := foldl_visited (fun (f : Dict ℕ ℕ) (p : Pos) =>
      materialize p (generateForwardLinks (batches.get ⟨j, hj⟩))
        (f.set p.1 (min p.2 (f.getD p.1 maxChainLength))) false)
    (fun pre F => InBatch s.linkSet batches C j pre F) C (s := F)
    (by
      refine ⟨?_, ?_, ?_, ?_⟩
      · intro k t hk
        refine (h.sound hk).imp_right ?_
        rintro ⟨i, hi, hp⟩
        exact ⟨i, hi.trans (Nat.lt_succ_self j), hp⟩
      · exact fun p hp h0 => h.conflicted (h0.resolve_right not_mem_nil) p hp
      · exact fun p hp q i hup hqi hij =>
          h.start p hp q i hup hqi (hij.resolve_right fun hc => not_mem_nil hc.2)
      · rintro k t hk q i hki (hlt | ⟨rfl, hnC⟩) hup hqi
        · exact h.closed hk q i hki hlt hup hqi
        · -- before its batch a chain only carries conflicted positions
          rcases h.sound hk with hc | ⟨i', hi', p, _, hpath⟩
          · exact absurd hc hnC
          · have hlast : firstBatch batches k = some i' := by
              cases hpath with
              | single hu => exact hu.2
              | tail _ hu => exact hu.2
            exact absurd (Option.mem_unique hlast hki) (Nat.ne_of_lt hi'))
    (by
      rintro pre p post F hsplit hF
      have hpC : p ∈ C := hsplit ▸ by simp
      exact hF.walk hbs hj hpC (hC p hpC))
  refine ⟨hin.sound, fun _ p hp => hin.conflicted p hp (.inr hp), ?_, ?_⟩
  · intro p hp q i hup hqi hij
    exact hin.start p hp q i hup hqi ((Nat.lt_succ_iff_lt_or_eq.mp hij).imp_right fun h => ⟨h, hp⟩)
  · intro k t hk q i hki hij hup hqi
    rcases Nat.lt_succ_iff_lt_or_eq.mp hij with hlt | heq
    · exact hin.closed hk q i hki (.inl hlt) hup hqi
    · by_cases hkC : (k, t) ∈ C
      · exact hin.start (k, t) hkC q i hup hqi (.inr ⟨heq, hkC⟩)
      · exact hin.closed hk q i hki (.inr ⟨heq, hkC⟩) hup hqi

/-! ### All batches -/

/-- The forward numbers after all batches. -/
def forwardNumbers (batches : List (Dict ℕ (List ChainEdge))) (C : List Pos) : Dict ℕ ℕ :=
  batches.foldl (fun F links => accumulateForwardsReachableEvents F links C) Dict.empty

theorem forwardNumbers_spec :
    Forwards s.linkSet batches C batches.length (forwardNumbers batches C) := by
  refine foldl_visited (fun F links => accumulateForwardsReachableEvents F links C)
    (fun pre F => Forwards s.linkSet batches C pre.length F) batches
    ⟨by simp, fun h => absurd h (Nat.lt_irrefl 0), fun _ _ _ _ _ _ h => absurd h (Nat.not_lt_zero _),
      by simp⟩ ?_
  rintro pre links post F hsplit hF
  have hj : pre.length < batches.length := by simp [hsplit]
  have hget : batches.get ⟨pre.length, hj⟩ = links := by simp [hsplit]
  rw [length_append, length_singleton, ← hget]
  exact hF.batch hbs hC hj

/-- A position counts as reached forwards exactly when a conflicted one lies at or below it on its
    chain, or some path from a conflicted one goes up to its chain through chains that one batch
    returned for the first time. -/
theorem forwards_iff (hs : ∀ l ∈ s.linkSet, l.srcSeq < maxChainLength)
    (hne : C ≠ [] → batches ≠ []) {c n : ℕ} (hn : n < maxChainLength) :
    (∃ f, (forwardNumbers batches C).get? c = some f ∧ f ≤ n) ↔
      ∃ p ∈ C, (p.1 = c ∧ p.2 ≤ n) ∨ ∃ i t, t ≤ n ∧ TransGen (UpIn s.linkSet batches i) p (c, t) := by
  have h := forwardNumbers_spec hbs hC
  set F := forwardNumbers batches C
  have hkey : ∀ {k m}, m < maxChainLength → F.getD k maxChainLength ≤ m →
      F.get? k = some (F.getD k maxChainLength) := by
    intro k m hm hle
    exact get?_of_getD_ne (hle.trans_lt hm).ne
  constructor
  · rintro ⟨f, hf, hfn⟩
    rcases h.sound hf with hp | ⟨i, _, p, hp, hpath⟩
    · exact ⟨(c, f), hp, .inl ⟨rfl, hfn⟩⟩
    · exact ⟨p, hp, .inr ⟨i, f, hfn, hpath⟩⟩
  · rintro ⟨p, hp, ⟨rfl, hle⟩ | ⟨i, t, ht, hpath⟩⟩
    · have hpos : 0 < batches.length :=
        length_pos_of_ne_nil (hne (ne_nil_of_mem hp))
      have hF := (h.conflicted hpos p hp).trans hle
      exact ⟨_, hkey hn hF, hF⟩
    · have hlen : ∀ {q : Pos}, firstBatch batches q.1 = some i → i < batches.length :=
        fun hq => (firstBatch_mem hq).1
      -- along the path every number is at most the position reached
      have hreach : ∀ {q : Pos}, TransGen (UpIn s.linkSet batches i) p q →
          q.2 < maxChainLength ∧ firstBatch batches q.1 = some i ∧ F.getD q.1 maxChainLength ≤ q.2 := by
        intro q hq
        induction hq with
        | single hu =>
          obtain ⟨a, _, hm⟩ := hu.1
          exact ⟨hs _ hm, hu.2, h.start p hp _ i hu.1 hu.2 (hlen hu.2)⟩
        | @tail r q _ hu ih =>
          obtain ⟨hr, hri, hle⟩ := ih
          obtain ⟨a, ha, hm⟩ := hu.1
          exact ⟨hs _ hm, hu.2, h.closed (hkey hr hle) q i hri (hlen hri) ⟨a, hle.trans ha, hm⟩ hu.2⟩
      have hF := (hreach hpath).2.2.trans ht
      exact ⟨_, hkey hn hF, hF⟩

end Walk

end Sithnapse.AuthChain
