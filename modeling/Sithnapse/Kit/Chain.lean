import Mathlib.Tactic
import Mathlib.Logic.Relation
import Mathlib.Data.Set.Finite.List
import Mathlib.Data.Fintype.Order

/-! Chain covers of a directed graph.

    The nodes of a graph `next : E → List E` are laid out on numbered chains, and links between
    chains record the edges that leave a chain. A link `(C, S₁) → (D, T)` may be followed from
    `(C, S)` exactly when `S₁ ≤ S`. `Cover` says what a layout has to satisfy for positions to
    answer reachability questions; `Cover.below_iff` is the answer.

    Two assignments are kept apart: `pos` gives the nodes that are in the index their position, and
    `slot` gives every position that was ever handed out its node. They agree on indexed nodes; a
    slot may also belong to a node that never made it into the index. -/

namespace Kit.Chain
open List Option Relation

/-- Chain number and sequence number. -/
abbrev Pos := ℕ × ℕ

/-- A link from `(srcChain, srcSeq)` to `(dstChain, dstSeq)`. -/
structure Link where
  srcChain : ℕ
  srcSeq : ℕ
  dstChain : ℕ
  dstSeq : ℕ
  deriving DecidableEq, Repr

/-- One link followed from `p` ends at `q`. -/
def Follow (L : Set Link) (p q : Pos) : Prop := ∃ s ≤ p.2, (⟨p.1, s, q.1, q.2⟩ : Link) ∈ L

/-- At least one link followed. -/
def Reach (L : Set Link) : Pos → Pos → Prop := TransGen (Follow L)

/-- `q` lies at or below a position reached from `p` (possibly `p` itself). -/
def Covers (L : Set Link) (p q : Pos) : Prop :=
  (p.1 = q.1 ∧ q.2 ≤ p.2) ∨ ∃ t, q.2 ≤ t ∧ Reach L p (q.1, t)

section Covers

variable {L L' : Set Link} {p q r : Pos}

theorem Follow.of_le {p' : Pos} (hc : p.1 = p'.1) (hs : p.2 ≤ p'.2) (h : Follow L p q) : Follow L p' q := by
  obtain ⟨s, hle, hm⟩ := h
  exact ⟨s, hle.trans hs, hc ▸ hm⟩

theorem Follow.mono (hL : L ⊆ L') (h : Follow L p q) : Follow L' p q := by
  obtain ⟨s, hle, hm⟩ := h
  exact ⟨s, hle, hL hm⟩

theorem Reach.mono (hL : L ⊆ L') (h : Reach L p q) : Reach L' p q :=
  TransGen.mono (fun _ _ => Follow.mono hL) _ _ h

/-- Starting higher on the same chain reaches at least as much. -/
theorem Reach.of_le {p' : Pos} (hc : p.1 = p'.1) (hs : p.2 ≤ p'.2) (h : Reach L p q) : Reach L p' q := by
  induction h with
  | single hf => exact .single (hf.of_le hc hs)
  | tail _ hf ih => exact ih.tail hf

theorem Covers.refl (p : Pos) : Covers L p p := .inl ⟨rfl, le_refl _⟩

theorem Covers.mono (hL : L ⊆ L') (h : Covers L p q) : Covers L' p q := by
  rcases h with h | ⟨t, ht, hr⟩
  · exact .inl h
  · exact .inr ⟨t, ht, hr.mono hL⟩

theorem Covers.of_link {c s d t : ℕ} (h : (⟨c, s, d, t⟩ : Link) ∈ L) : Covers L (c, s) (d, t) :=
  .inr ⟨t, le_refl _, .single ⟨s, le_refl _, h⟩⟩

theorem Covers.trans (h₁ : Covers L p q) (h₂ : Covers L q r) : Covers L p r := by
  rcases h₁ with ⟨hc, hs⟩ | ⟨t, ht, hr⟩
  · rcases h₂ with ⟨hc', hs'⟩ | ⟨u, hu, hr'⟩
    · exact .inl ⟨hc.trans hc', hs'.trans hs⟩
    · exact .inr ⟨u, hu, hr'.of_le hc.symm hs⟩
  · rcases h₂ with ⟨hc', hs'⟩ | ⟨u, hu, hr'⟩
    · exact .inr ⟨t, hs'.trans ht, hc' ▸ hr⟩
    · have hq : Reach L (q.1, t) (r.1, u) := Reach.of_le (p := q) rfl ht hr'
      exact .inr ⟨u, hu, hr.trans hq⟩

/-- Nothing is reached from a chain without links. -/
theorem Reach.exists_link (h : Reach L p q) : ∃ l ∈ L, l.srcChain = p.1 := by
  induction h with
  | single hf =>
    obtain ⟨s, _, hm⟩ := hf
    exact ⟨_, hm, rfl⟩
  | tail _ _ ih => exact ih

end Covers

/-! ### Graphs -/

variable {E : Type} (next : E → List E)

/-- The edges of the graph. -/
def Edge (a b : E) : Prop := b ∈ next a

/-- `b` is strictly below `a`. -/
def Below : E → E → Prop := TransGen (Edge next)

/-- `b` is `a` or below it. -/
def BelowEq : E → E → Prop := ReflTransGen (Edge next)

/-- `e` is a member of `S` or below one. -/
def Under (S : List E) (e : E) : Prop := ∃ x ∈ S, BelowEq next x e

/-- No node is below itself. -/
def Acyclic : Prop := ∀ e, ¬ Below next e e

variable {next}

theorem belowEq_iff {a b : E} : BelowEq next a b ↔ b = a ∨ Below next a b :=
  reflTransGen_iff_eq_or_transGen

theorem Below.belowEq {a b : E} (h : Below next a b) : BelowEq next a b := h.to_reflTransGen

variable {next' : E → List E} {P : E → Prop}

theorem Acyclic.mono (hac : Acyclic next) (h : ∀ x, ∀ y ∈ next' x, y ∈ next x) : Acyclic next' :=
  fun e he => hac e (TransGen.mono h _ _ he)

/-- Only which edges there are matters. -/
theorem under_congr (h : ∀ x y, y ∈ next x ↔ y ∈ next' x) {S : List E} {e : E} :
    Under next S e ↔ Under next' S e := by
  have hedge : Edge next = Edge next' := funext fun x => funext fun y => propext (h x y)
  simp only [Under, BelowEq, hedge]

/-- A rank that every edge lowers rules out cycles. -/
theorem acyclic_of_rank (rank : E → ℕ) (h : ∀ e, ∀ a ∈ next e, rank a < rank e) : Acyclic next := by
  have hlt : ∀ {a b}, Below next a b → rank b < rank a := by
    intro a b hab
    induction hab with
    | single he => exact h _ _ he
    | tail _ he ih => exact lt_trans (h _ _ he) ih
  exact fun e he => lt_irrefl _ (hlt he)

/-- Induction over a finite list along a strict order. -/
theorem induction_finite {R : E → E → Prop} (htrans : ∀ a b c, R a b → R b c → R a c) (hirr : ∀ a, ¬ R a a)
    (l : List E) (h : ∀ a ∈ l, (∀ b ∈ l, R b a → P b) → P a) : ∀ a ∈ l, P a := by
  have hwf : WellFounded (fun x y : {x // x ∈ l} => R x.1 y.1) := by
    have : IsTrans {x // x ∈ l} (fun x y => R x.1 y.1) := ⟨fun _ _ _ => htrans _ _ _⟩
    have : Std.Irrefl (fun x y : {x // x ∈ l} => R x.1 y.1) := ⟨fun x => hirr x.1⟩
    have : Finite {x // x ∈ l} := l.finite_toSet.to_subtype
    exact Finite.wellFounded_of_trans_of_irrefl _
  intro a ha
  exact hwf.induction (C := fun x => P x.1) ⟨a, ha⟩ fun x ih =>
    h x.1 x.2 fun b hb hlt => ih ⟨b, hb⟩ hlt

/-- In an acyclic graph, every node of a finite list is at or below one that no node of the list is
    strictly above. Stated as an induction from above: if `P` passes down from the strictly higher
    nodes of the list, it holds on the whole list. -/
theorem Acyclic.induction_above (hac : Acyclic next) (l : List E)
    (h : ∀ a ∈ l, (∀ b ∈ l, Below next b a → P b) → P a) : ∀ a ∈ l, P a :=
  induction_finite (fun _ _ _ => .trans) hac l h

/-- The same from below: if `P` passes up from the strictly lower nodes of a finite list, it holds
    on the whole list. -/
theorem Acyclic.induction_below (hac : Acyclic next) (l : List E)
    (h : ∀ a ∈ l, (∀ b ∈ l, Below next a b → P b) → P a) : ∀ a ∈ l, P a :=
  induction_finite (R := fun b a => Below next a b) (fun _ _ _ h₁ h₂ => h₂.trans h₁) hac l h

/-- Fewer of the nodes that have edges are at or below the successors of `l` than at or below `l`. -/
theorem Acyclic.length_below_lt [DecidableEq E] (hac : Acyclic next) {K l new : List E}
    (hK : K.Nodup) (hsrc : ∀ x, next x ≠ [] → x ∈ K) (hnew : ∀ y ∈ new, ∃ x ∈ l, y ∈ next x)
    (hne : new ≠ []) {Q : E → Prop} [DecidablePred P] [DecidablePred Q]
    (hP : ∀ y, P y ↔ ∃ x ∈ l, BelowEq next x y) (hQ : ∀ y, Q y ↔ ∃ x ∈ new, BelowEq next x y) :
    (K.filter Q).length < (K.filter P).length := by
  have hstrict : ∀ y, Q y → ∃ x ∈ l, next x ≠ [] ∧ Below next x y := by
    intro y hy
    obtain ⟨b, hb, hby⟩ := (hQ y).mp hy
    obtain ⟨x, hx, hxb⟩ := hnew b hb
    exact ⟨x, hx, ne_nil_of_mem hxb, .head' hxb hby⟩
  -- some node of `l` with edges is not strictly below another one
  obtain ⟨x, hx, hxe, hmax⟩ : ∃ x ∈ l, next x ≠ [] ∧ ¬ Q x := by
    by_contra hc
    push Not at hc
    obtain ⟨y, hy⟩ := exists_mem_of_ne_nil _ hne
    obtain ⟨x, hx, hxy⟩ := hnew y hy
    have hnone : ∀ a ∈ l, next a = [] := by
      refine hac.induction_above l fun a ha ih => ?_
      by_contra hae
      obtain ⟨b, hb, hbe, hba⟩ := hstrict a (hc a ha hae)
      exact hbe (ih b hb hba)
    rw [hnone x hx] at hxy
    exact not_mem_nil hxy
  have hsub : x :: K.filter Q ⊆ K.filter P := by
    intro y hy
    rw [mem_filter, decide_eq_true_eq, hP]
    rcases mem_cons.mp hy with rfl | hy
    · exact ⟨hsrc y hxe, y, hx, .refl⟩
    · rw [mem_filter, decide_eq_true_eq] at hy
      obtain ⟨b, hb, _, hby⟩ := hstrict y hy.2
      exact ⟨hy.1, b, hb, hby.belowEq⟩
  have hnd : (x :: K.filter Q).Nodup := by
    rw [nodup_cons, mem_filter, decide_eq_true_eq]
    exact ⟨fun h => hmax h.2, hK.filter _⟩
  exact (subperm_of_subset hnd hsub).length_le

/-- Paths after one edge has been added. -/
theorem belowEq_insert {e a : E} (h : ∀ x y, y ∈ next' x ↔ y ∈ next x ∨ (x = e ∧ y = a)) {p q : E} :
    BelowEq next' p q ↔ BelowEq next p q ∨ (BelowEq next p e ∧ BelowEq next a q) := by
  have hmono : ∀ {p q}, BelowEq next p q → BelowEq next' p q := fun hpq =>
    ReflTransGen.mono (fun x y hxy => (h x y).mpr (.inl hxy)) _ _ hpq
  constructor
  · intro hpq
    induction hpq with
    | refl => exact .inl .refl
    | tail _ hs ih =>
      rcases (h _ _).mp hs with hs | ⟨rfl, rfl⟩
      · exact ih.imp (·.tail hs) fun ⟨he, ha⟩ => ⟨he, ha.tail hs⟩
      · exact .inr ⟨ih.elim id And.left, .refl⟩
  · rintro (hpq | ⟨hpe, haq⟩)
    · exact hmono hpq
    · exact (hmono hpe).trans (.head ((h e a).mpr (.inr ⟨rfl, rfl⟩)) (hmono haq))

/-! ### Covers -/

/-- The layout `pos`, `slot`, `L` answers reachability in `next`. -/
structure Cover (next : E → List E) (pos : E → Option Pos) (slot : Pos → Option E) (L : Set Link) :
    Prop where
  /-- An indexed node owns its position. -/
  slot_pos : ∀ {e p}, pos e = some p → slot p = some e
  /-- Sequence numbers start at one. -/
  one_le : ∀ {c s e}, slot (c, s) = some e → 1 ≤ s
  /-- Each later slot of a chain points at the slot below it. -/
  down : ∀ {c s e}, slot (c, s + 1) = some e → 1 ≤ s → ∃ a ∈ next e, slot (c, s) = some a
  /-- Every link is an edge. -/
  link_edge : ∀ {c s d t}, (⟨c, s, d, t⟩ : Link) ∈ L →
    ∃ x y, slot (c, s) = some x ∧ slot (d, t) = some y ∧ y ∈ next x
  /-- Every edge out of an indexed node ends at an indexed node its position covers. -/
  covered : ∀ {e p}, pos e = some p → ∀ a ∈ next e, ∃ q, pos a = some q ∧ Covers L p q

namespace Cover

variable {pos : E → Option Pos} {slot : Pos → Option E} {L : Set Link} {a b : E} {p q : Pos}

/-- The empty layout. -/
theorem empty (hpos : ∀ e, pos e = none) (hslot : ∀ p, slot p = none) (hL : ∀ l, l ∉ L) :
    Cover next pos slot L := by
  refine ⟨?_, ?_, ?_, fun hl => absurd hl (hL _), ?_⟩
  · intro e p he
    rw [hpos] at he
    cases he
  · intro c s e he
    rw [hslot] at he
    cases he
  · intro c s e he
    rw [hslot] at he
    cases he
  · intro e p he
    rw [hpos] at he
    cases he

section Sound

variable (hone : ∀ {c s e}, slot (c, s) = some e → 1 ≤ s)
  (hdown : ∀ {c s e}, slot (c, s + 1) = some e → 1 ≤ s → ∃ a ∈ next e, slot (c, s) = some a)
  (hlink : ∀ {c s d t}, (⟨c, s, d, t⟩ : Link) ∈ L →
    ∃ x y, slot (c, s) = some x ∧ slot (d, t) = some y ∧ y ∈ next x)

include hdown

/-- Walking down a chain walks down the graph. -/
theorem down_chain {c : ℕ} : ∀ {s : ℕ} {e : E}, slot (c, s) = some e →
    ∀ t, 1 ≤ t → t ≤ s → ∃ x, slot (c, t) = some x ∧ BelowEq next e x
  | 0, _, _, t, h1, hle => by omega
  | s + 1, e, he, t, h1, hle => by
    rcases Nat.lt_or_ge t (s + 1) with hlt | hge
    · obtain ⟨x, hx, hs⟩ := hdown he (by omega)
      obtain ⟨y, hy, hb⟩ := down_chain hs t h1 (by omega)
      exact ⟨y, hy, hb.head hx⟩
    · obtain rfl : t = s + 1 := by omega
      exact ⟨e, he, .refl⟩

include hone hlink

/-- What a position reaches through links belongs to nodes below its owner. -/
theorem reach_sound (ha : slot p = some a) (h : Reach L p q) : ∃ y, slot q = some y ∧ Below next a y := by
  have hstep : ∀ {p q : Pos} {a : E}, slot p = some a → Follow L p q →
      ∃ y, slot q = some y ∧ Below next a y := by
    rintro ⟨c, s⟩ ⟨d, t⟩ a ha ⟨s₁, hle, hm⟩
    obtain ⟨x, y, hx, hy, hxy⟩ := hlink hm
    obtain ⟨x', hx', hb⟩ := down_chain hdown ha s₁ (hone hx) hle
    obtain rfl : x = x' := mem_unique hx hx'
    exact ⟨y, hy, TransGen.tail' hb hxy⟩
  induction h with
  | single hf => exact hstep ha hf
  | tail _ hf ih =>
    obtain ⟨y, hy, hb⟩ := ih
    obtain ⟨z, hz, hb'⟩ := hstep hy hf
    exact ⟨z, hz, hb.trans hb'⟩

/-- Owners of covered positions are at or below the owner of the covering one. -/
theorem covers_sound (ha : slot p = some a) (hb : slot q = some b) (h : Covers L p q) : BelowEq next a b := by
  obtain ⟨c, s⟩ := p
  obtain ⟨d, t⟩ := q
  rcases h with ⟨hc, hs⟩ | ⟨u, hu, hr⟩
  · subst hc
    obtain ⟨x, hx, hbx⟩ := down_chain hdown ha t (hone hb) hs
    obtain rfl : b = x := mem_unique hb hx
    exact hbx
  · obtain ⟨y, hy, hay⟩ := reach_sound hone hdown hlink ha hr
    obtain ⟨x, hx, hbx⟩ := down_chain hdown hy t (hone hb) hu
    obtain rfl : b = x := mem_unique hb hx
    exact hay.belowEq.trans hbx

end Sound

section Positions

variable (hcov : Cover next pos slot L) (ha : pos a = some p)

include hcov ha

/-- Everything below an indexed node is indexed, at a covered position. -/
theorem below_covered (h : Below next a b) : ∃ q, pos b = some q ∧ Covers L p q := by
  induction h with
  | single he => exact hcov.covered ha _ he
  | tail _ he ih =>
    obtain ⟨q, hq, hpq⟩ := ih
    obtain ⟨r, hr, hqr⟩ := hcov.covered hq _ he
    exact ⟨r, hr, hpq.trans hqr⟩

/-- Two indexed nodes never share a position. -/
theorem pos_injective (hb : pos b = some p) : a = b :=
  some.inj ((hcov.slot_pos ha).symm.trans (hcov.slot_pos hb))

/-- Below-or-equal is covering. -/
theorem belowEq_iff_covers (hb : pos b = some q) : BelowEq next a b ↔ Covers L p q := by
  constructor
  · intro h
    rcases belowEq_iff.mp h with rfl | h
    · obtain rfl : p = q := mem_unique ha hb
      exact Covers.refl p
    · obtain ⟨q', hq', hpq⟩ := hcov.below_covered ha h
      obtain rfl : q = q' := mem_unique hb hq'
      exact hpq
  · exact covers_sound hcov.one_le hcov.down hcov.link_edge (hcov.slot_pos ha) (hcov.slot_pos hb)

/-- Reachability between two distinct indexed nodes, read off their positions. -/
theorem below_iff (hb : pos b = some q) (hne : a ≠ b) :
    Below next a b ↔ (p.1 = q.1 ∧ q.2 < p.2) ∨ ∃ t, q.2 ≤ t ∧ Reach L p (q.1, t) := by
  have hlt : Below next a b ↔ BelowEq next a b := by
    rw [belowEq_iff]
    exact ⟨.inr, fun h => h.resolve_left (Ne.symm hne)⟩
  rw [hlt, hcov.belowEq_iff_covers ha hb]
  constructor
  · rintro (⟨hc, hs⟩ | h)
    · refine .inl ⟨hc, lt_of_le_of_ne hs fun heq => hne ?_⟩
      have hpq : p = q := Prod.ext hc heq.symm
      exact hcov.pos_injective ha (hpq ▸ hb)
    · exact .inr h
  · rintro (⟨hc, hs⟩ | h)
    · exact .inl ⟨hc, hs.le⟩
    · exact .inr h

/-- What is below an indexed node, read off positions alone. -/
theorem below_iff_indexed (hac : Acyclic next) :
    Below next a b ↔ ∃ q, pos b = some q ∧ ((p.1 = q.1 ∧ q.2 < p.2) ∨ ∃ t, q.2 ≤ t ∧ Reach L p (q.1, t)) := by
  rcases eq_or_ne a b with rfl | hne
  · refine ⟨fun h => absurd h (hac a), ?_⟩
    rintro ⟨q, hq, h⟩
    obtain rfl : p = q := mem_unique ha hq
    rcases h with ⟨_, h⟩ | ⟨t, ht, hr⟩
    · exact absurd h (lt_irrefl _)
    · -- a link path back to the own chain would close a cycle
      obtain ⟨y, hy, hay⟩ := reach_sound hcov.one_le hcov.down hcov.link_edge (hcov.slot_pos ha) hr
      obtain ⟨x, hx, hyx⟩ := down_chain hcov.down hy p.2 (hcov.one_le (hcov.slot_pos ha)) ht
      obtain rfl : a = x := some.inj ((hcov.slot_pos ha).symm.trans hx)
      exact TransGen.trans_left hay hyx
  · constructor
    · intro h
      obtain ⟨q, hq, _⟩ := hcov.below_covered ha h
      exact ⟨q, hq, (hcov.below_iff ha hq hne).mp h⟩
    · rintro ⟨q, hq, h⟩
      exact (hcov.below_iff ha hq hne).mpr h

end Positions

/-! #### Growing a cover -/

/-- What one round of indexing hands out: `alloc` extends the index `pos` by new nodes, `slot'` and
    `L'` extend the slots and links. A new node continues a chain below one of its successors or
    starts one, and each of its edges stays on its chain, becomes a link, or was dropped because
    another successor covers it. -/
structure Growth (next : E → List E) (pos alloc : E → Option Pos) (slot slot' : Pos → Option E)
    (L L' : Set Link) : Prop where
  pos_le : ∀ {e p}, pos e = some p → alloc e = some p
  slot_le : ∀ {p e}, slot p = some e → slot' p = some e
  link_le : L ⊆ L'
  slot_alloc : ∀ {e p}, alloc e = some p → slot' p = some e
  slot_new : ∀ {p e}, slot' p = some e → slot p = some e ∨ (pos e = none ∧ alloc e = some p)
  one_le : ∀ {e c s}, pos e = none → alloc e = some (c, s) → 1 ≤ s
  down : ∀ {e c s}, pos e = none → alloc e = some (c, s + 1) → 1 ≤ s → ∃ a ∈ next e, alloc a = some (c, s)
  link_new : ∀ {c s d t}, (⟨c, s, d, t⟩ : Link) ∈ L' → (⟨c, s, d, t⟩ : Link) ∈ L ∨
    ∃ x y, alloc x = some (c, s) ∧ alloc y = some (d, t) ∧ y ∈ next x
  edge : ∀ {e p}, pos e = none → alloc e = some p → ∀ a ∈ next e, ∃ q, alloc a = some q ∧
    ((p.1 = q.1 ∧ q.2 ≤ p.2) ∨ (⟨p.1, p.2, q.1, q.2⟩ : Link) ∈ L' ∨
      ∃ b ∈ next e, b ≠ a ∧ ∃ r, alloc b = some r ∧ Covers L' r q)

variable {alloc : E → Option Pos} {slot' : Pos → Option E} {L' : Set Link}

/-- A successor that was dropped is covered by another one that was not: the relation "covers" has
    no infinite ascent among the successors, because it goes down the graph. -/
theorem grow (hac : Acyclic next) (hcov : Cover next pos slot L)
    (hg : Growth next pos alloc slot slot' L L') : Cover next alloc slot' L' := by
  have hone : ∀ {c s e}, slot' (c, s) = some e → 1 ≤ s := by
    intro c s e he
    rcases hg.slot_new he with h | ⟨hn, ha⟩
    · exact hcov.one_le h
    · exact hg.one_le hn ha
  have hdown : ∀ {c s e}, slot' (c, s + 1) = some e → 1 ≤ s → ∃ a ∈ next e, slot' (c, s) = some a := by
    intro c s e he h1
    rcases hg.slot_new he with h | ⟨hn, ha⟩
    · obtain ⟨a, hae, hs⟩ := hcov.down h h1
      exact ⟨a, hae, hg.slot_le hs⟩
    · obtain ⟨a, hae, hs⟩ := hg.down hn ha h1
      exact ⟨a, hae, hg.slot_alloc hs⟩
  have hlink : ∀ {c s d t}, (⟨c, s, d, t⟩ : Link) ∈ L' →
      ∃ x y, slot' (c, s) = some x ∧ slot' (d, t) = some y ∧ y ∈ next x := by
    intro c s d t hm
    rcases hg.link_new hm with h | ⟨x, y, hx, hy, hxy⟩
    · obtain ⟨x, y, hx, hy, hxy⟩ := hcov.link_edge h
      exact ⟨x, y, hg.slot_le hx, hg.slot_le hy, hxy⟩
    · exact ⟨x, y, hg.slot_alloc hx, hg.slot_alloc hy, hxy⟩
  refine ⟨hg.slot_alloc, hone, hdown, hlink, ?_⟩
  intro e p he
  cases hpos : pos e with
  | some p' =>
    obtain rfl : p = p' := mem_unique he (hg.pos_le hpos)
    intro a ha
    obtain ⟨q, hq, hpq⟩ := hcov.covered hpos a ha
    exact ⟨q, hg.pos_le hq, hpq.mono hg.link_le⟩
  | none =>
    refine hac.induction_above (next e) fun a ha ih => ?_
    obtain ⟨q, hq, hsame | hlk | ⟨b, hb, hne, r, hr, hcv⟩⟩ := hg.edge hpos he a ha
    · exact ⟨q, hq, .inl hsame⟩
    · exact ⟨q, hq, Covers.of_link hlk⟩
    · have hba : Below next b a := by
        rcases belowEq_iff.mp (covers_sound hone hdown hlink (hg.slot_alloc hr) (hg.slot_alloc hq)
          hcv) with h | h
        · exact absurd h.symm hne
        · exact h
      obtain ⟨r', hr', hpr⟩ := ih b hb hba
      obtain rfl : r = r' := mem_unique hr hr'
      exact ⟨q, hq, hpr.trans hcv⟩

/-- If the nodes of the round are given up but their slots and links stay, the old index is still
    covered. -/
theorem abandon (hac : Acyclic next) (hcov : Cover next pos slot L)
    (hg : Growth next pos alloc slot slot' L L') : Cover next pos slot' L' := by
  have h := grow hac hcov hg
  refine ⟨fun he => h.slot_pos (hg.pos_le he), h.one_le, h.down, h.link_edge, ?_⟩
  intro e p he a ha
  obtain ⟨q, hq, hpq⟩ := hcov.covered he a ha
  exact ⟨q, hq, hpq.mono hg.link_le⟩

end Cover

end Kit.Chain
