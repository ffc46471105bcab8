import Mathlib.Tactic

/-! Reading in pages.

    A page is read at a position and gives items and the next position; one reads until a page is empty.
    `rest s` is what there is to read from `s` on. If every page is the front of what is left there, and
    empty only if nothing is left, all of it is read, each item once and in order. -/

namespace Kit
open List Option

variable {σ α : Type}

/-- Page after page until an empty one; `none` means the budget ran out. -/
def readAll (page : σ → List α × σ) : ℕ → σ → Option (List α)
  | 0, _ => none
  | n + 1, s =>
    match page s with
    | ([], _) => some []
    | (x :: l, s') => (readAll page n s').map (x :: l ++ ·)

variable {page : σ → List α × σ} {rest : σ → List α} {I : σ → Prop}

theorem readAll_eq (rest : σ → List α)
    (hpage : ∀ s, I s → (page s).1 ≠ [] → I (page s).2 ∧ rest s = (page s).1 ++ rest (page s).2)
    (hempty : ∀ s, I s → (page s).1 = [] → rest s = []) :
    ∀ (n : ℕ) (s : σ), I s → (rest s).length < n → readAll page n s = some (rest s)
  | 0, _, _, hlt => absurd hlt (Nat.not_lt_zero _)
  | n + 1, s, hs, hlt => by
    rw [readAll]
    split
    · rename_i hp
      rw [hempty s hs (by rw [hp])]
    · rename_i x l s' hp
      obtain ⟨hs', hrest⟩ := hpage s hs (by simp [hp])
      simp only [hp] at hs' hrest
      have hlen := congrArg List.length hrest
      rw [length_append, length_cons] at hlen
      rw [readAll_eq rest hpage hempty n s' hs' (by omega), map_some, hrest]

theorem readAll_nil_iff {s : σ} {l : List α} (h : (page s).1 = []) : (∃ m, readAll page m s = some l) ↔ l = [] := by
  have hone : ∀ m, readAll page (m + 1) s = some [] := by
    intro m
    rw [readAll]
    split
    · rfl
    · rename_i hp
      rw [hp] at h
      cases h
  refine ⟨fun ⟨m, hm⟩ => ?_, fun hl => ⟨1, hl ▸ hone 0⟩⟩
  cases m with
  | zero => cases hm
  | succ m => exact some.inj (hm.symm.trans (hone m))

theorem readAll_append_iff {s : σ} {l : List α} (h : (page s).1 ≠ []) : (∃ m, readAll page m s = some l) ↔
    ∃ l', l = (page s).1 ++ l' ∧ ∃ m, readAll page m (page s).2 = some l' := by
  have hstep : ∀ m, readAll page (m + 1) s = (readAll page m (page s).2).map ((page s).1 ++ ·) := by
    intro m
    rw [readAll]
    split
    · rename_i hp
      exact absurd (by rw [hp]) h
    · rename_i hp
      rw [hp]
  constructor
  · rintro ⟨_ | m, hm⟩
    · cases hm
    · rw [hstep, map_eq_some_iff] at hm
      obtain ⟨l', hl', rfl⟩ := hm
      exact ⟨l', rfl, m, hl'⟩
  · rintro ⟨l', rfl, m, hm⟩
    exact ⟨m + 1, by rw [hstep, hm, map_some]⟩

/-! ### Windows

    A page is taken from the next `n` rows: those of them that can be seen, up to `k`. From the first position
    only the wanted rows can be seen, from later ones perhaps others. -/

section Windows

variable {left : σ → List α} {W V p : α → Bool} {n k : ℕ} {l pre post : List α} {x r : α}

def windowPage (n k : ℕ) (p : α → Bool) (l : List α) : List α := ((l.take n).filter p).take k

/-- If none of the next `n` rows is wanted, no later one is. -/
def Gapless (n : ℕ) (W : α → Bool) (rows : List α) : Prop :=
  ∀ l ∈ rows.tails, (∀ r ∈ l.take n, ¬ W r) → ∀ r ∈ l, ¬ W r
  deriving Decidable

/-- Of the first `n` rows, and of the `n` rows after a wanted one, only wanted ones can be seen. -/
def Unmixed [DecidableEq α] (n : ℕ) (W V : α → Bool) (rows : List α) : Prop :=
  ∀ l ∈ rows.tails, (l = rows ∨ ∃ x ∈ rows, W x ∧ x :: l ∈ rows.tails) → ∀ r ∈ l.take n, V r → W r
  deriving Decidable

/-- The rows after the page that is read first. -/
def afterPage [DecidableEq α] (n k : ℕ) (W : α → Bool) (rows : List α) : List α :=
  (windowPage n k W rows).getLast?.elim [] fun x => (rows.dropWhile (· ≠ x)).tail

/-- At `s`, where the rows `left s` are left, a page has what can be seen in the window and leads to the position
    after its last row. -/
structure Windowed (page : σ → List α × σ) (left : σ → List α) (n k : ℕ) (p : α → Bool) (s : σ) : Prop where
  page_eq : (page s).1 = windowPage n k p (left s)
  next : ∀ {pre x post}, left s = pre ++ x :: post → (page s).1.getLast? = some x → left (page s).2 = post

theorem windowPage_split (hne : windowPage n k p l ≠ []) :
    ∃ pre x post, l = pre ++ x :: post ∧ windowPage n k p l = pre.filter p ++ [x] ∧ p x ∧ pre.length < n := by
  obtain ⟨t, ht⟩ : windowPage n k p l <+: (l.take n).filter p := take_prefix ..
  obtain ⟨init, x, hpage⟩ := (eq_nil_or_concat (windowPage n k p l)).resolve_left hne
  rw [hpage, concat_eq_append, append_assoc] at ht
  obtain ⟨a, b, hab, ha, hb⟩ := filter_eq_append_iff.mp ht.symm
  obtain ⟨c, d, rfl, hc, hx, -⟩ := filter_eq_cons_iff.mp hb
  refine ⟨a ++ c, x, d ++ l.drop n, ?_, ?_, hx, ?_⟩
  · conv_lhs => rw [← take_append_drop n l, hab]
    simp
  · rw [hpage, concat_eq_append, filter_append, ha, filter_eq_nil_iff.mpr hc, append_nil]
  · have hlen := length_take_le n l
    rw [hab] at hlen
    simp only [length_append, length_cons] at hlen ⊢
    omega

theorem mem_take_split (hlt : pre.length < n) (hr : r ∈ (pre ++ x :: post).take n) :
    r ∈ pre ∨ r = x ∨ r ∈ post.take n := by
  rw [take_append, mem_append] at hr
  rcases hr with hr | hr
  · exact .inl (mem_of_mem_take hr)
  · obtain ⟨m, rfl⟩ := Nat.exists_eq_add_of_lt hlt
    rw [Nat.add_assoc, Nat.add_sub_cancel_left, take_succ_cons, mem_cons] at hr
    exact .inr (hr.imp_right (take_subset_take_left _ (by omega) ·))

theorem mem_take_front (hlt : pre.length < n) (hr : r ∈ pre ++ [x]) : r ∈ (pre ++ x :: post).take n := by
  obtain ⟨m, rfl⟩ := Nat.exists_eq_add_of_lt hlt
  rw [Nat.add_assoc, take_length_add_append, take_succ_cons, append_cons]
  exact mem_append_left _ hr

/-- The suffixes of a list that goes through `x`. -/
theorem suffix_split (h : l <:+ pre ++ x :: post) : l <:+ post ∨ ∃ c, c <:+ pre ∧ l = c ++ x :: post := by
  obtain ⟨a, ha⟩ := h
  rcases append_eq_append_iff.mp ha with ⟨c, rfl, hc⟩ | ⟨_ | ⟨y, c⟩, rfl, hc⟩
  · exact .inr ⟨c, suffix_append .., hc⟩
  · exact .inr ⟨[], nil_suffix, hc.symm⟩
  · obtain ⟨rfl, rfl⟩ := cons.inj hc
    exact .inl (suffix_append ..)

theorem gapless_split (hlt : pre.length < n) (hx : W x) : Gapless n W (pre ++ x :: post) ↔ Gapless n W post := by
  have hpost : post <:+ pre ++ x :: post := (suffix_cons ..).trans (suffix_append ..)
  refine ⟨fun h l hl => h l ?_, fun h l hl hno => ?_⟩
  · rw [mem_tails] at hl ⊢
    exact hl.trans hpost
  · rcases suffix_split ((mem_tails _ _).mp hl) with hin | ⟨c, hc, rfl⟩
    · exact h l ((mem_tails _ _).mpr hin) hno
    · exact absurd hx (hno x (mem_take_front (hc.length_le.trans_lt hlt) (by simp)))

theorem unmixed_split [DecidableEq α] (hlt : pre.length < n) (hx : W x) (hpre : ∀ r ∈ pre, V r → W r) :
    Unmixed n W V (pre ++ x :: post) ↔ Unmixed n W V post := by
  have hpost : post <:+ pre ++ x :: post := (suffix_cons ..).trans (suffix_append ..)
  simp only [Unmixed, mem_tails]
  constructor
  · rintro h l hl (rfl | ⟨y, hy, hWy, hyl⟩)
    · exact h l hpost (.inr ⟨x, by simp, hx, suffix_append ..⟩)
    · exact h l (hl.trans hpost) (.inr ⟨y, hpost.subset hy, hWy, hyl.trans hpost⟩)
  · -- a window that begins before `x` reaches no further than the one that begins after it
    intro h l _ hl r hr hVr
    have hthrough : ∀ c, c <:+ pre → l = c ++ x :: post → W r := by
      rintro c hc rfl
      rcases mem_take_split (hc.length_le.trans_lt hlt) hr with hr | rfl | hr
      exacts [hpre r (hc.subset hr) hVr, hx, h post suffix_rfl (.inl rfl) r hr hVr]
    rcases hl with rfl | ⟨y, -, hy, hl⟩
    · exact hthrough pre suffix_rfl rfl
    · rcases suffix_split hl with hin | ⟨_ | ⟨z, c⟩, hc, heq⟩
      · exact h l ((suffix_cons ..).trans hin) (.inr ⟨y, hin.subset mem_cons_self, hy, hin⟩) r hr hVr
      · obtain ⟨-, rfl⟩ := cons.inj heq
        exact h l suffix_rfl (.inl rfl) r hr hVr
      · exact hthrough c ((suffix_cons ..).trans hc) (cons.inj heq).2

theorem afterPage_eq [DecidableEq α] (hnodup : (pre ++ x :: post).Nodup)
    (hpage : windowPage n k W (pre ++ x :: post) = pre.filter W ++ [x]) :
    afterPage n k W (pre ++ x :: post) = post := by
  have hx : ∀ y ∈ pre, decide (y ≠ x) = true := fun y hy =>
    decide_eq_true ((nodup_append.mp hnodup).2.2 y hy x mem_cons_self)
  rw [afterPage, hpage, getLast?_concat, elim_some, dropWhile_append_of_pos hx, dropWhile_cons_of_neg (by simp)]
  rfl

/-- A page is right if its rows are wanted, and then the others are left. -/
theorem filter_front_iff (hp : ∀ r, W r → p r) :
    (pre ++ x :: post).filter W = pre.filter p ++ [x] ++ l ↔ (W x ∧ ∀ r ∈ pre, p r → W r) ∧ post.filter W = l := by
  constructor
  · intro h
    have hW : ∀ r ∈ pre.filter p ++ [x], W r := fun r hr =>
      (mem_filter.mp (h ▸ mem_append_left l hr : r ∈ (pre ++ x :: post).filter W)).2
    have hpre : ∀ r ∈ pre, p r → W r := fun r hr hpr => hW r (mem_append_left _ (mem_filter.mpr ⟨hr, hpr⟩))
    have hx : W x := hW x (by simp)
    refine ⟨⟨hx, hpre⟩, ?_⟩
    rw [filter_append, filter_cons, if_pos hx, append_cons,
      filter_congr fun r hr => Bool.eq_iff_iff.mpr ⟨hp r, hpre r hr⟩] at h
    exact append_cancel_left h
  · rintro ⟨⟨hx, hpre⟩, rfl⟩
    rw [filter_append, filter_cons, if_pos hx, append_cons,
      filter_congr fun r hr => Bool.eq_iff_iff.mpr ⟨hp r, hpre r hr⟩]

namespace Windowed

variable {s s₀ : σ} {I : σ → Prop}

theorem exists_split (h : Windowed page left n k p s) (hne : (page s).1 ≠ []) (hp : ∀ r, W r → p r) :
    ∃ pre x post, left s = pre ++ x :: post ∧ (page s).1 = pre.filter p ++ [x] ∧ p x ∧ pre.length < n ∧
      left (page s).2 = post ∧ ((∃ m, readAll page m s = some ((left s).filter W)) ↔
        (W x ∧ ∀ r ∈ pre, p r → W r) ∧ ∃ m, readAll page m (page s).2 = some (post.filter W)) := by
  obtain ⟨pre, x, post, hsplit, hpage, hpx, hlt⟩ := windowPage_split (h.page_eq ▸ hne)
  rw [← h.page_eq] at hpage
  refine ⟨pre, x, post, hsplit, hpage, hpx, hlt, h.next hsplit (by rw [hpage, getLast?_concat]), ?_⟩
  rw [readAll_append_iff hne, hsplit, hpage]
  constructor
  · rintro ⟨l, hl, hread⟩
    obtain ⟨hright, rfl⟩ := (filter_front_iff hp).mp hl
    exact ⟨hright, hread⟩
  · rintro ⟨hright, hread⟩
    exact ⟨_, (filter_front_iff hp).mpr ⟨hright, rfl⟩, hread⟩

theorem empty (h : Windowed page left n k p s) (hk : 0 < k) (hnil : (page s).1 = []) :
    ∀ r ∈ (left s).take n, ¬ p r := by
  rw [h.page_eq, windowPage, take_eq_nil_iff, filter_eq_nil_iff] at hnil
  exact hnil.resolve_left hk.ne'

variable (hk : 0 < k) (hseen : ∀ r, W r → V r)
  (hI : ∀ s, I s → Windowed page left n k V s ∧ ((page s).1 ≠ [] → I (page s).2))
include hk hseen hI

theorem later_exact_iff [DecidableEq α] {s : σ} (hs : I s) : (∃ m, readAll page m s = some ((left s).filter W)) ↔
    Gapless n W (left s) ∧ Unmixed n W V (left s) := by
  obtain ⟨h, hnext⟩ := hI s hs
  by_cases hne : (page s).1 = []
  · have hempty := h.empty hk hne
    rw [readAll_nil_iff hne, filter_eq_nil_iff]
    constructor
    · intro hno
      refine ⟨fun l hl _ r hr => hno r (((mem_tails _ _).mp hl).subset hr), ?_⟩
      rintro l - (rfl | ⟨x, hx, hWx, -⟩) r hr hVr
      · exact absurd hVr (hempty r hr)
      · exact absurd hWx (hno x hx)
    · exact fun hd => hd.1 _ ((mem_tails _ _).mpr suffix_rfl) fun r hr hWr => hempty r hr (hseen r hWr)
  · obtain ⟨pre, x, post, hsplit, -, hVx, hlt, hpost, hiff⟩ := h.exists_split hne hseen
    have hshorter : (left (page s).2).length < (left s).length := by
      rw [hpost, hsplit, length_append, length_cons]
      omega
    have ih := later_exact_iff (hnext hne)
    rw [hpost] at ih
    rw [hiff, ih, hsplit]
    constructor
    · rintro ⟨⟨hx, hpre⟩, hd, hc⟩
      exact ⟨(gapless_split hlt hx).mpr hd, (unmixed_split hlt hx hpre).mpr hc⟩
    · rintro ⟨hd, hc⟩
      have hfront : ∀ r ∈ pre ++ [x], V r → W r := fun r hr =>
        hc _ ((mem_tails _ _).mpr suffix_rfl) (.inl rfl) r (mem_take_front hlt hr)
      have hx := hfront x (by simp) hVx
      have hpre : ∀ r ∈ pre, V r → W r := fun r hr => hfront r (mem_append_left _ hr)
      exact ⟨⟨hx, hpre⟩, (gapless_split hlt hx).mp hd, (unmixed_split hlt hx hpre).mp hc⟩
termination_by (left s).length

/-- Everything that is wanted is read, each row once and in order, if and only if the wanted rows are
    gapless and unmixed. -/
theorem readAll_exact_iff [DecidableEq α] (h : Windowed page left n k W s₀) (hs : (page s₀).1 ≠ [] → I (page s₀).2)
    (hnodup : (left s₀).Nodup) : (∃ m, readAll page m s₀ = some ((left s₀).filter W)) ↔
      Gapless n W (left s₀) ∧ Unmixed n W V (afterPage n k W (left s₀)) := by
  by_cases hne : (page s₀).1 = []
  · rw [readAll_nil_iff hne, filter_eq_nil_iff]
    constructor
    · intro hno
      refine ⟨fun l hl _ r hr => hno r (((mem_tails _ _).mp hl).subset hr), ?_⟩
      rw [afterPage, ← h.page_eq, hne]
      intro l hl _ r hr
      obtain rfl : l = [] := by simpa using hl
      simp at hr
    · exact fun hd => hd.1 _ ((mem_tails _ _).mpr suffix_rfl) (h.empty hk hne)
  · obtain ⟨pre, x, post, hsplit, hpage, hx, hlt, hpost, hiff⟩ := h.exists_split hne fun _ h => h
    have hlater := later_exact_iff hk hseen hI (hs hne)
    rw [h.page_eq, hsplit] at hpage
    rw [hsplit] at hnodup
    rw [hpost] at hlater
    rw [hiff, hlater, hsplit, gapless_split hlt hx, afterPage_eq hnodup hpage]
    exact and_iff_right ⟨hx, fun _ _ h => h⟩

end Windowed
end Windows

/-- A list in an order that a property respects is split by it. -/
theorem filter_append_filter_not {p : α → Bool} : ∀ {l : List α}, l.Pairwise (fun a b => p b → p a) →
    l.filter p ++ l.filter (!p ·) = l
  | [], _ => rfl
  | x :: l, h => by
    obtain ⟨hx, hl⟩ := pairwise_cons.mp h
    have ih := filter_append_filter_not hl
    by_cases hp : p x
    · simp [hp, ih]
    · have hnone : l.filter p = [] := filter_eq_nil_iff.mpr fun y hy hpy => hp (hx y hy hpy)
      rw [hnone, nil_append] at ih
      simp [hp, hnone, ih]

/-- What comes after an item of a list in strict order. -/
theorem filter_after {R : α → α → Prop} [DecidableRel R] (hasymm : ∀ a b, R a b → ¬ R b a) {pre post : List α}
    {x : α} (h : (pre ++ x :: post).Pairwise R) : (pre ++ x :: post).filter (R x ·) = post := by
  obtain ⟨-, hx, hpre⟩ := pairwise_append.mp h
  have hx' := (pairwise_cons.mp hx).1
  have hnil : pre.filter (R x ·) = [] := filter_eq_nil_iff.mpr fun y hy => by
    simpa using hasymm y x (hpre y hy x (.head _))
  have hself : ¬ R x x := fun hxx => hasymm x x hxx hxx
  have hall : post.filter (R x ·) = post := filter_eq_self.mpr fun y hy => by simpa using hx' y hy
  rw [filter_append, hnil, filter_cons, if_neg (by simpa using hself), hall, nil_append]

end Kit
