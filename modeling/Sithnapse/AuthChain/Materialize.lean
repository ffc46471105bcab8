import Sithnapse.Kit.Propagate
import Sithnapse.ChainCover.Links

/-! `_materialize`: the highest (or, walking forwards, lowest) sequence number reachable on each
    chain, kept as one number per chain.

    A call only walks on from chains whose number it improves, so what a sequence of calls with the
    same dictionary computes depends on every entry having been walked at some point. `Labels` is
    the invariant of such a sequence: the entries of chains outside `todo` have been walked. -/

namespace Sithnapse.AuthChain
open Kit Kit.Dict Kit.Chain ChainCover

/-- `MAX_CHAIN_LENGTH`. -/
def maxChainLength : ℕ := 2 ^ 53 - 1

/-- One link of the chain being walked, from sequence number `s`. -/
def materializeLink (backwards : Bool) (s : ℕ) (st : List Pos × Dict ℕ ℕ) (x : ChainEdge) :
    List Pos × Dict ℕ ℕ :=
  if backwards then
    -- links that are higher up the chain are ignored
    if x.1 > s then st
    else if st.2.getD x.2.1 0 < x.2.2 then (x.2 :: st.1, st.2.set x.2.1 x.2.2)
    else st
  else
    -- links that are lower down the chain are ignored
    if x.1 < s then st
    else if st.2.getD x.2.1 maxChainLength > x.2.2 then (x.2 :: st.1, st.2.set x.2.1 x.2.2)
    else st

/-- One round of `while stack`. -/
def materializeStep (links : Dict ℕ (List ChainEdge)) (backwards : Bool)
    (st : List Pos × Dict ℕ ℕ) : (List Pos × Dict ℕ ℕ) ⊕ Dict ℕ ℕ :=
  match st.1 with
  | [] => .inr st.2
  | p :: rest => .inl ((links.getD p.1 []).foldl (materializeLink backwards p.2) (rest, st.2))

/-- `_materialize`. Each position put on the stack improves the number of its chain, so there are
    at most as many as links. -/
def materialize (origin : Pos) (links : Dict ℕ (List ChainEdge)) (materialized : Dict ℕ ℕ)
    (backwards : Bool) : Dict ℕ ℕ :=
  (loop (materializeStep links backwards) (links.values.flatten.length + 2)
    ([origin], materialized)).getD materialized

/-! ### Both directions are label propagation -/

theorem materializeLink_back : materializeLink true = offer (· ≤ ·) 0 := by
  funext s st x
  simp only [materializeLink, offer, if_true, gt_iff_lt, not_le]
  simp only [ite_and, ← not_lt, ite_not]

theorem materializeLink_forward : materializeLink false = offer (· ≥ ·) maxChainLength := by
  funext s st x
  simp only [materializeLink, offer, Bool.false_eq_true, if_false, ge_iff_le, gt_iff_lt, not_le]
  simp only [ite_and, ← not_lt, ite_not]

theorem mem_targets {links : Dict ℕ (List ChainEdge)} {c : ℕ} {x : ChainEdge}
    (hx : x ∈ links.getD c []) : x.2 ∈ links.values.flatten.map Prod.snd := by
  have hk : c ∈ links.keys := mem_keys_of_mem_getD hx
  have hv := mem_values_iff.mpr ⟨c, get?_of_mem_keys [] hk⟩
  exact List.mem_map.mpr ⟨x, List.mem_flatten.mpr ⟨_, hv, hx⟩, rfl⟩

theorem materialize_spread {le : ℕ → ℕ → Prop} [DecidableRel le] [Std.Total le] [IsTrans ℕ le]
    {bot : ℕ} {b : Bool} (hb : materializeLink b = offer le bot) (origin : Pos)
    (links : Dict ℕ (List ChainEdge)) (M₀ : Dict ℕ ℕ) :
    Spread le bot (fun c => links.getD c []) origin M₀ (materialize origin links M₀ b) := by
  obtain ⟨M, hM, hspread⟩ := spread_spec le bot (fun c => links.getD c [])
    (fun c x hx => mem_targets hx) (n := links.values.flatten.length + 2)
    (by rw [List.length_map]; omega) origin M₀
  have hstep : materializeStep links b = spreadStep le bot (fun c => links.getD c []) := by
    funext st
    obtain ⟨stack, M⟩ := st
    cases stack with
    | nil => rfl
    | cons p rest => simp only [materializeStep, spreadStep, hb]
  rw [materialize, hstep, show loop _ _ _ = some M from hM]
  exact hspread

/-! ### Walking backwards through fetched links -/

variable {s : LinkStore} {batch : List ℕ} {links : Dict ℕ (List ChainEdge)} {M₀ M M' : Dict ℕ ℕ}

/-- On the chains a fetch reaches, its links are the stored ones. -/
theorem fetched_take_iff (hf : Fetched s batch links) {p q : Pos}
    (hp : ∃ b ∈ batch, BelowEq s.next b p.1) :
    Take (· ≤ ·) (fun c => links.getD c []) p q ↔ Follow s.linkSet p q := by
  constructor
  · rintro ⟨a, hle, hm⟩
    have hk : p.1 ∈ links.keys := mem_keys_of_mem_getD hm
    exact ⟨a, hle, (hf.edges p.1 hk _).mp hm⟩
  · rintro ⟨a, hle, hm⟩
    have hk : p.1 ∈ links.keys := (hf.keys p.1).mpr ⟨hp, _, hm, rfl⟩
    exact ⟨a, hle, (hf.edges p.1 hk _).mpr hm⟩

/-- Every link that can be followed from `p` is accounted for in `M`. -/
def Walked (L : Set Link) (M : Dict ℕ ℕ) (p : Pos) : Prop :=
  ∀ q, Follow L p q → q.2 ≤ M.getD q.1 0

/-- What a call makes of the numbers `M₀`. -/
structure Materialized (L : Set Link) (origin : Pos) (M₀ M : Dict ℕ ℕ) : Prop where
  grows : ∀ k, M₀.getD k 0 ≤ M.getD k 0
  keys : ∀ k ∈ M₀.keys, k ∈ M.keys
  entry : ∀ {k t}, M.get? k = some t → M₀.get? k = some t ∨ (Reach L origin (k, t) ∧ Walked L M (k, t))
  origin : Walked L M origin

theorem materialize_spec (hf : Fetched s batch links) {c : ℕ} (hc : c ∈ links.keys) (n : ℕ)
    (M₀ : Dict ℕ ℕ) :
    Materialized s.linkSet (c, n) M₀ (materialize (c, n) links M₀ true) := by
  have hspread := materialize_spread materializeLink_back (c, n) links M₀
  set M := materialize (c, n) links M₀ true
  have hbatch : ∃ b ∈ batch, BelowEq s.next b c := ((hf.keys c).mp hc).1
  -- along a path both the links and the set of fetched chains are followed
  have hpath : ∀ {q}, Relation.TransGen (Gain (· ≤ ·) 0 (fun c => links.getD c []) M₀) (c, n) q →
      Reach s.linkSet (c, n) q ∧ ∃ b ∈ batch, BelowEq s.next b q.1 := by
    have hone : ∀ {p q : Pos}, (∃ b ∈ batch, BelowEq s.next b p.1) →
        Gain (· ≤ ·) 0 (fun c => links.getD c []) M₀ p q →
        Follow s.linkSet p q ∧ ∃ b ∈ batch, BelowEq s.next b q.1 := by
      rintro p q ⟨b, hb, hbp⟩ ⟨ht, _⟩
      have hfol := (fetched_take_iff hf ⟨b, hb, hbp⟩).mp ht
      obtain ⟨a, _, hm⟩ := id hfol
      exact ⟨hfol, b, hb, hbp.tail (mem_next.mpr ⟨_, hm, rfl, rfl⟩)⟩
    intro q h
    induction h with
    | single hg => exact ⟨.single (hone hbatch hg).1, (hone hbatch hg).2⟩
    | tail _ hg ih => exact ⟨ih.1.tail (hone ih.2 hg).1, (hone ih.2 hg).2⟩
  refine ⟨hspread.grows, hspread.keys, ?_, ?_⟩
  · intro k t hk
    rcases hspread.entry hk with h | ⟨hg, hpassed⟩
    · exact .inl h
    · obtain ⟨hr, hb⟩ := hpath hg
      exact .inr ⟨hr, fun q hq => hpassed q ((fetched_take_iff hf hb).mpr hq)⟩
  · exact fun q hq => hspread.start q ((fetched_take_iff hf hbatch).mpr hq)

/-! ### Sequences of calls -/

/-- The numbers in `M` are reachable from `src` (or in it), and the entries of all chains outside
    `todo` have been walked. -/
structure Labels (L : Set Link) (src : Set Pos) (todo : Set ℕ) (M : Dict ℕ ℕ) : Prop where
  sound : ∀ {k t}, M.get? k = some t → (k, t) ∈ src ∨ ∃ p ∈ src, Reach L p (k, t)
  walked : ∀ {k t}, M.get? k = some t → k ∈ todo ∨ Walked L M (k, t)

namespace Labels

variable {L : Set Link} {src : Set Pos} {todo : Set ℕ} {c n : ℕ}

theorem mono_todo {todo' : Set ℕ} (h : Labels L src todo M) (hsub : ∀ k ∈ M.keys, k ∈ todo → k ∈ todo') :
    Labels L src todo' M :=
  ⟨h.sound, fun {k t} hk => (h.walked hk).imp_left (hsub k (mem_keys_iff.mpr ⟨t, hk⟩))⟩

/-- A call walks the entry of its chain. Its start may be the entry itself, or anything whose links
    lead to `src` or on from it. -/
theorem step (h : Labels L src todo M) (hm : Materialized L (c, n) M M')
    (hsrc : ∀ q, Reach L (c, n) q → q ∈ src ∨ ∃ p ∈ src, Reach L p q)
    (hc : M.get? c = some n ∨ c ∉ todo) : Labels L src (todo \ {c}) M' := by
  constructor
  · intro k t hk
    rcases hm.entry hk with h₀ | ⟨hr, _⟩
    · exact h.sound h₀
    · exact hsrc _ hr
  · intro k t hk
    rcases hm.entry hk with h₀ | ⟨_, hw⟩
    · have hold : Walked L M (k, t) → Walked L M' (k, t) := fun hw q hq => (hw q hq).trans (hm.grows q.1)
      rcases eq_or_ne k c with rfl | hkc
      · rcases hc with hc | hc
        · obtain rfl := Option.mem_unique h₀ hc
          exact .inr hm.origin
        · exact .inr (hold ((h.walked h₀).resolve_left hc))
      · exact (h.walked h₀).imp (fun ht => ⟨ht, hkc⟩) hold
    · exact .inr hw

/-- When nothing is left to walk, everything reachable from a walked position is accounted for. -/
theorem reach_le (h : Labels L src ∅ M) (hL : ∀ l ∈ L, 1 ≤ l.dstSeq) {p q : Pos}
    (hp : Walked L M p) (hr : Reach L p q) : q.2 ≤ M.getD q.1 0 := by
  have hstep : ∀ {q r : Pos}, 1 ≤ q.2 → q.2 ≤ M.getD q.1 0 → Follow L q r → r.2 ≤ M.getD r.1 0 := by
    intro q r h1 hle hf
    have hg := h.walked (get?_of_getD_ne (k := q.1) (w := 0) (by omega))
    exact (hg.resolve_left id) r (Follow.of_le (p := q) rfl hle hf)
  have key : 1 ≤ q.2 ∧ q.2 ≤ M.getD q.1 0 := by
    induction hr with
    | single hf =>
      obtain ⟨a, _, hm⟩ := id hf
      exact ⟨hL _ hm, hp _ hf⟩
    | tail _ hf ih =>
      obtain ⟨a, _, hm⟩ := id hf
      exact ⟨hL _ hm, hstep ih.1 ih.2 hf⟩
  exact key.2

end Labels

end Sithnapse.AuthChain
