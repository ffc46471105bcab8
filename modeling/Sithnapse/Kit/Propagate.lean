import Mathlib.Logic.Relation
import Sithnapse.Kit.Dict

/-! Labels pushed along guarded edges.

    Every node carries a label, an absent one counting as `bot`. An edge `(a, d, t)` of a node may
    be taken at label `s` when `a` is at most `s`; it offers the label `t` to `d`. `spread` starts
    at one labelled node and follows edges for as long as they improve a label.

    It does not compute best labels outright: a node whose label is not improved is not walked.
    What it leaves behind is `Spread`: the start and every node it improved have passed their labels
    on, and each improvement came along a path of improvements. -/

namespace Kit
open List Relation

variable {κ α : Type} [DecidableEq κ] (le : α → α → Prop) (bot : α)
  (edges : κ → List (α × κ × α))

/-- Taking one edge from `p` leads to `q`. -/
def Take (p q : κ × α) : Prop := ∃ a, le a p.2 ∧ (a, q) ∈ edges p.1

/-- An edge that improves the label its target has in `M`. -/
def Gain (M : Dict κ α) (p q : κ × α) : Prop := Take le edges p q ∧ ¬ le q.2 (M.getD q.1 bot)

/-- Everything offered from `p` has been accepted. -/
def Passed (M : Dict κ α) (p : κ × α) : Prop := ∀ q, Take le edges p q → le q.2 (M.getD q.1 bot)

/-- What spreading from `start` makes of the labels `M₀`. -/
structure Spread (start : κ × α) (M₀ M : Dict κ α) : Prop where
  grows : ∀ k, le (M₀.getD k bot) (M.getD k bot)
  keys : ∀ k ∈ M₀.keys, k ∈ M.keys
  entry : ∀ {k t}, M.get? k = some t → M₀.get? k = some t ∨
    (TransGen (Gain le bot edges M₀) start (k, t) ∧ Passed le bot edges M (k, t))
  start : Passed le bot edges M start

section Walk

variable [DecidableRel le]

/-- Offer the label of one edge. -/
def offer (s : α) (st : List (κ × α) × Dict κ α) (x : α × κ × α) : List (κ × α) × Dict κ α :=
  if le x.1 s ∧ ¬ le x.2.2 (st.2.getD x.2.1 bot) then (x.2 :: st.1, st.2.set x.2.1 x.2.2) else st

/-- Pop a labelled node and offer along its edges. -/
def spreadStep (st : List (κ × α) × Dict κ α) : (List (κ × α) × Dict κ α) ⊕ Dict κ α :=
  match st.1 with
  | [] => .inr st.2
  | p :: rest => .inl ((edges p.1).foldl (offer le bot p.2) (rest, st.2))

/-- The walk, in at most `n` steps. -/
def spread (n : ℕ) (start : κ × α) (M : Dict κ α) : Option (Dict κ α) :=
  loop (spreadStep le bot edges) n ([start], M)

end Walk

variable {le bot edges} {start : κ × α} {M₀ M M' : Dict κ α}

theorem Passed.mono [IsTrans α le] {p : κ × α} (h : Passed le bot edges M p)
    (hM : ∀ k, le (M.getD k bot) (M'.getD k bot)) : Passed le bot edges M' p := fun q hq =>
  Trans.trans (h q hq) (hM q.1)

/-- Improving one label improves labels. -/
theorem le_getD_set [Std.Total le] {q : κ × α} (hq : ¬ le q.2 (M.getD q.1 bot)) (k : κ) :
    le (M.getD k bot) ((M.set q.1 q.2).getD k bot) := by
  rw [Dict.getD_set]
  split_ifs with hk
  · subst hk
    exact (Std.Total.total _ _).resolve_left hq
  · exact or_self_iff.mp (Std.Total.total (r := le) _ _)

/-! ### The walk -/

section Walk

/-- Invariant of the walk: a label that was improved waits on the stack or has been passed on.
    `p` is the entry being expanded, if any. -/
structure Walking (le : α → α → Prop) (bot : α) (edges : κ → List (α × κ × α)) (start : κ × α)
    (M₀ : Dict κ α) (p : Option (κ × α)) (stack : List (κ × α)) (M : Dict κ α) : Prop where
  grows : ∀ k, le (M₀.getD k bot) (M.getD k bot)
  keys : ∀ k ∈ M₀.keys, k ∈ M.keys
  waiting : ∀ q, p = some q ∨ q ∈ stack → ReflTransGen (Gain le bot edges M₀) start q
  entry : ∀ {k t}, M.get? k = some t → M₀.get? k = some t ∨
    (TransGen (Gain le bot edges M₀) start (k, t) ∧
      (p = some (k, t) ∨ (k, t) ∈ stack ∨ Passed le bot edges M (k, t)))
  start : p = some start ∨ start ∈ stack ∨ Passed le bot edges M start

variable [DecidableRel le] [Std.Total le] [IsTrans α le] {p : κ × α} {stack : List (κ × α)}

omit [DecidableRel le] [IsTrans α le] in
theorem walking_init : Walking le bot edges start M₀ none [start] M₀ :=
  ⟨fun _ => or_self_iff.mp (Std.Total.total (r := le) _ _), fun _ h => h,
    fun q hq => by
      rcases hq with hq | hq
      · cases hq
      · rw [mem_singleton.mp hq],
    .inl, .inr (.inl (.head _))⟩

/-- Offering along one edge of the entry being expanded. -/
theorem Walking.offer (h : Walking le bot edges start M₀ (some p) stack M) {x : α × κ × α}
    (hx : x ∈ edges p.1) :
    Walking le bot edges start M₀ (some p) (Kit.offer le bot p.2 (stack, M) x).1
        (Kit.offer le bot p.2 (stack, M) x).2 ∧
      (∀ k, le (M.getD k bot) ((Kit.offer le bot p.2 (stack, M) x).2.getD k bot)) ∧
      (le x.1 p.2 → le x.2.2 ((Kit.offer le bot p.2 (stack, M) x).2.getD x.2.1 bot)) := by
  have hrefl : ∀ a : α, le a a := fun a => or_self_iff.mp (Std.Total.total (r := le) a a)
  by_cases hc : le x.1 p.2 ∧ ¬ le x.2.2 (M.getD x.2.1 bot)
  · have heq : Kit.offer le bot p.2 (stack, M) x = (x.2 :: stack, M.set x.2.1 x.2.2) := if_pos hc
    have hgrow := le_getD_set (M := M) (q := x.2) hc.2
    have hgain : Gain le bot edges M₀ p x.2 :=
      ⟨⟨x.1, hc.1, hx⟩, fun hle => hc.2 (Trans.trans hle (h.grows _))⟩
    have hpath : TransGen (Gain le bot edges M₀) start x.2 :=
      TransGen.tail' (h.waiting p (.inl rfl)) hgain
    rw [heq]
    refine ⟨⟨fun k => Trans.trans (h.grows k) (hgrow k), ?_, ?_, ?_, ?_⟩, hgrow, ?_⟩
    · intro k hk
      exact Dict.mem_keys_set.mpr (.inr (h.keys k hk))
    · rintro q (hq | hq)
      · exact h.waiting q (.inl hq)
      · rcases mem_cons.mp hq with rfl | hq
        · exact hpath.to_reflTransGen
        · exact h.waiting q (.inr hq)
    · intro k t hk
      rcases Dict.get?_set_cases hk with ⟨rfl, rfl⟩ | hk
      · exact .inr ⟨hpath, .inr (.inl (.head _))⟩
      · rcases h.entry hk with h0 | ⟨hp, hw | hw | hw⟩
        · exact .inl h0
        · exact .inr ⟨hp, .inl hw⟩
        · exact .inr ⟨hp, .inr (.inl (.tail _ hw))⟩
        · exact .inr ⟨hp, .inr (.inr (hw.mono hgrow))⟩
    · rcases h.start with hw | hw | hw
      · exact .inl hw
      · exact .inr (.inl (.tail _ hw))
      · exact .inr (.inr (hw.mono hgrow))
    · intro _
      rw [Dict.getD_set, if_pos rfl]
      exact hrefl _
  · have heq : Kit.offer le bot p.2 (stack, M) x = (stack, M) := if_neg hc
    rw [heq]
    exact ⟨h, fun k => hrefl _, fun hle => not_not.mp fun hn => hc ⟨hle, hn⟩⟩

/-- Popping one entry. -/
theorem Walking.pop (h : Walking le bot edges start M₀ none (p :: stack) M) :
    Walking le bot edges start M₀ none ((edges p.1).foldl (Kit.offer le bot p.2) (stack, M)).1
      ((edges p.1).foldl (Kit.offer le bot p.2) (stack, M)).2 := by
  have hstart : Walking le bot edges start M₀ (some p) stack M := by
    refine ⟨h.grows, h.keys, ?_, ?_, ?_⟩
    · rintro q (hq | hq)
      · cases hq
        exact h.waiting p (.inr (.head _))
      · exact h.waiting q (.inr (.tail _ hq))
    · intro k t hk
      rcases h.entry hk with h0 | ⟨hp, hw | hw | hw⟩
      · exact .inl h0
      · cases hw
      · rcases mem_cons.mp hw with rfl | hw
        · exact .inr ⟨hp, .inl rfl⟩
        · exact .inr ⟨hp, .inr (.inl hw)⟩
      · exact .inr ⟨hp, .inr (.inr hw)⟩
    · rcases h.start with hw | hw | hw
      · cases hw
      · rcases mem_cons.mp hw with rfl | hw
        · exact .inl rfl
        · exact .inr (.inl hw)
      · exact .inr (.inr hw)
  -- after the loop over the edges, the popped entry has passed on everything
  obtain ⟨hwalk, hpassed⟩ := foldl_visited (Kit.offer le bot p.2)
    (fun pre st => Walking le bot edges start M₀ (some p) st.1 st.2 ∧
      ∀ x ∈ pre, le x.1 p.2 → le x.2.2 (st.2.getD x.2.1 bot)) (edges p.1) (s := (stack, M))
    ⟨hstart, nofun⟩ (by
      rintro pre x post ⟨stack, M⟩ hsplit ⟨hwalk, hpre⟩
      obtain ⟨hw, hgrow, hlast⟩ := hwalk.offer (x := x) (hsplit ▸ by simp)
      exact ⟨hw, forall_mem_concat.mpr ⟨fun y hy hle => Trans.trans (hpre y hy hle) (hgrow _), hlast⟩⟩)
  have hp : Passed le bot edges ((edges p.1).foldl (Kit.offer le bot p.2) (stack, M)).2 p := by
    rintro q ⟨a, hle, hm⟩
    exact hpassed (a, q) hm hle
  refine ⟨hwalk.grows, hwalk.keys, ?_, ?_, ?_⟩
  · rintro q (hq | hq)
    · cases hq
    · exact hwalk.waiting q (.inr hq)
  · intro k t hk
    rcases hwalk.entry hk with h0 | ⟨ht, hw | hw | hw⟩
    · exact .inl h0
    · cases hw
      exact .inr ⟨ht, .inr (.inr hp)⟩
    · exact .inr ⟨ht, .inr (.inl hw)⟩
    · exact .inr ⟨ht, .inr (.inr hw)⟩
  · rcases hwalk.start with hw | hw | hw
    · cases hw
      exact .inr (.inr hp)
    · exact .inr (.inl hw)
    · exact .inr (.inr hw)

/-! ### The walk ends -/

/-- The offers that would still improve a label. -/
def openOffers (le : α → α → Prop) [DecidableRel le] (bot : α) (U : List (κ × α)) (M : Dict κ α) :
    List (κ × α) :=
  U.filter fun q => ¬ le q.2 (M.getD q.1 bot)

theorem openOffers_offer {U : List (κ × α)} {s : α} (x : α × κ × α) (hx : x.2 ∈ U)
    (st : List (κ × α) × Dict κ α) :
    (openOffers le bot U (Kit.offer le bot s st x).2).length + (Kit.offer le bot s st x).1.length ≤
      (openOffers le bot U st.2).length + st.1.length := by
  obtain ⟨stack, M⟩ := st
  by_cases hc : le x.1 s ∧ ¬ le x.2.2 (M.getD x.2.1 bot)
  · have heq : Kit.offer le bot s (stack, M) x = (x.2 :: stack, M.set x.2.1 x.2.2) := if_pos hc
    have hgrow := le_getD_set (M := M) (q := x.2) hc.2
    have hsub : openOffers le bot U (M.set x.2.1 x.2.2) =
        (openOffers le bot U M).filter fun q => ¬ le q.2 ((M.set x.2.1 x.2.2).getD q.1 bot) := by
      rw [openOffers, openOffers, filter_filter]
      refine filter_congr fun q _ => ?_
      have himp : le q.2 (M.getD q.1 bot) → le q.2 ((M.set x.2.1 x.2.2).getD q.1 bot) :=
        fun h => Trans.trans h (hgrow q.1)
      by_cases h : le q.2 (M.getD q.1 bot)
      · simp [h, himp h]
      · simp [h]
    have hlt : (openOffers le bot U (M.set x.2.1 x.2.2)).length < (openOffers le bot U M).length := by
      rw [hsub, length_filter_lt_length_iff_exists]
      refine ⟨x.2, mem_filter.mpr ⟨hx, by simpa using hc.2⟩, ?_⟩
      have hrefl : le x.2.2 x.2.2 := or_self_iff.mp (Std.Total.total (r := le) _ _)
      simpa [Dict.getD_set] using hrefl
    rw [heq]
    simp only [length_cons]
    omega
  · rw [show Kit.offer le bot s (stack, M) x = (stack, M) from if_neg hc]

/-- With a step for every possible offer the walk reaches its end, and leaves what `Spread` says. -/
theorem spread_spec (le : α → α → Prop) [DecidableRel le] [Std.Total le] [IsTrans α le] (bot : α)
    (edges : κ → List (α × κ × α)) {U : List (κ × α)} (hU : ∀ c, ∀ x ∈ edges c, x.2 ∈ U) {n : ℕ} (hn : U.length + 1 < n)
    (start : κ × α) (M₀ : Dict κ α) :
    ∃ M, spread le bot edges n start M₀ = some M ∧ Spread le bot edges start M₀ M := by
  let I : List (κ × α) × Dict κ α → Prop := fun st => Walking le bot edges start M₀ none st.1 st.2
  have hstep : ∀ st st', I st → spreadStep le bot edges st = .inl st' → I st' := by
    rintro ⟨stack, M⟩ st' h hs
    cases stack with
    | nil => simp [spreadStep] at hs
    | cons p rest =>
      simp only [spreadStep, Sum.inl.injEq] at hs
      exact hs ▸ h.pop
  have hdec : ∀ st st', I st → spreadStep le bot edges st = .inl st' →
      (openOffers le bot U st'.2).length + st'.1.length <
        (openOffers le bot U st.2).length + st.1.length := by
    rintro ⟨stack, M⟩ st' _ hs
    cases stack with
    | nil => simp [spreadStep] at hs
    | cons p rest =>
      simp only [spreadStep, Sum.inl.injEq] at hs
      have hle := foldl_visited (Kit.offer le bot p.2)
        (fun _ st => (openOffers le bot U st.2).length + st.1.length ≤
          (openOffers le bot U M).length + rest.length) (edges p.1) (s := (rest, M)) (le_refl _) (by
            rintro pre x post st hsplit hst
            exact (openOffers_offer x (hU p.1 x (hsplit ▸ by simp)) st).trans hst)
      rw [← hs]
      simp only [length_cons]
      omega
  have hlen := length_filter_le (fun q : κ × α => ¬ le q.2 (M₀.getD q.1 bot)) U
  refine loop_correct (I := I) (fun st => (openOffers le bot U st.2).length + st.1.length) hstep hdec ?_ n _
    walking_init (by simp only [openOffers, length_singleton]; omega)
  rintro ⟨stack, M⟩ M' h hs
  cases stack with
  | cons p rest => simp [spreadStep] at hs
  | nil =>
    obtain rfl : M = M' := by simpa [spreadStep] using hs
    refine ⟨h.grows, h.keys, ?_, ?_⟩
    · intro k t hk
      rcases h.entry hk with h0 | ⟨ht, hw | hw | hw⟩
      · exact .inl h0
      · cases hw
      · cases hw
      · exact .inr ⟨ht, hw⟩
    · rcases h.start with hw | hw | hw
      · cases hw
      · cases hw
      · exact hw

end Walk

end Kit
