import Sithnapse.Kit.Dict

/-! Two runs of one program compared.

    Runs that hold the same sets and dictionaries in different orders are compared step by step: sets
    by their members, dictionaries by what they hold under each key, computations that may fail by
    `Alike`, which relates the values of two that return and asks that one fails if the other does. -/

namespace Kit
open List Except

/-! ### Sets and dictionaries -/

/-- Two lists with the same members. -/
def SameSet {α : Type} (l l' : List α) : Prop := ∀ x, x ∈ l ↔ x ∈ l'

namespace SameSet

variable {α β : Type} {l l' : List α}

theorem refl (l : List α) : SameSet l l := fun _ => Iff.rfl

variable (h : SameSet l l')

include h

theorem symm : SameSet l' l := fun x => (h x).symm

theorem nil_iff : l = [] ↔ l' = [] := by
  simp only [eq_nil_iff_forall_not_mem, h _]

theorem map (f : α → β) : SameSet (l.map f) (l'.map f) := by
  intro y
  simp only [mem_map, h _]

theorem filter (p : α → Bool) : SameSet (l.filter p) (l'.filter p) := by
  intro x
  rw [mem_filter, mem_filter, h x]

/-- Sets that repeat nothing are rearrangements of each other. -/
theorem perm (hl : l.Nodup) (hl' : l'.Nodup) : l.Perm l' :=
  (perm_ext_iff_of_nodup hl hl').mpr h

end SameSet

namespace Dict

variable {K V W : Type} [DecidableEq K]

/-- Two dictionaries that hold the same. -/
def Same (d d' : Dict K V) : Prop := ∀ k, d.get? k = d'.get? k

variable {d d' : Dict K V}

theorem Same.refl (d : Dict K V) : Same d d := fun _ => rfl

variable (h : Same d d')

include h

theorem Same.keys : SameSet d.keys d'.keys := by
  intro k
  rw [mem_keys_iff, mem_keys_iff, h k]

theorem Same.entries : SameSet d.entries d'.entries := by
  rintro ⟨k, v⟩
  rw [← get?_eq_some_iff, ← get?_eq_some_iff, h k]

theorem Same.values : SameSet d.values d'.values := h.entries.map Prod.snd

theorem Same.getD (k : K) (v : V) : d.getD k v = d'.getD k v := by
  rw [Dict.getD, Dict.getD, h k]

end Dict

/-! ### Computations -/

variable {ε α β γ δ : Type} {R : α → β → Prop} {S : γ → δ → Prop}

variable {x : Except ε α} {f : α → Except ε β}

/-- What a sequence of computations returns. -/
theorem bind_eq_ok {f : α → Except ε γ} {c : γ} : x >>= f = .ok c ↔ ∃ a, x = .ok a ∧ f a = .ok c := by
  cases x with
  | ok a =>
    refine ⟨fun h => ⟨a, rfl, h⟩, ?_⟩
    rintro ⟨a', ha, h⟩
    rwa [ok.inj ha]
  | error e => exact ⟨nofun, fun ⟨_, h, _⟩ => (by cases h)⟩

theorem map_eq_ok {f : α → γ} {c : γ} : x.map f = .ok c ↔ ∃ a, x = .ok a ∧ f a = c := by
  cases x <;> simp [Except.map]

/-- Both return, with related values, or both fail. -/
def Alike (R : α → β → Prop) : Except ε α → Except ε β → Prop
  | .ok a, .ok b => R a b
  | .error _, .error _ => True
  | _, _ => False

@[simp] theorem alike_ok {a : α} {b : β} : Alike (ε := ε) R (.ok a) (.ok b) ↔ R a b := Iff.rfl

@[simp] theorem alike_pure {a : α} {b : β} : Alike (ε := ε) R (pure a) (pure b) ↔ R a b := Iff.rfl

@[simp] theorem alike_error {e e' : ε} : Alike R (.error e) (.error e') ↔ True := Iff.rfl

namespace Alike

/-- A computation compared with itself. -/
theorem same (x : Except ε α) : Alike Eq x x := by
  cases x with
  | ok a => rfl
  | error e => trivial

variable {y : Except ε β}

/-- What comes next may know how the values came about. -/
theorem bind_of {f : α → Except ε γ} {g : β → Except ε δ}
    (hxy : Alike R x y) (hfg : ∀ a b, x = .ok a → y = .ok b → R a b → Alike S (f a) (g b)) :
    Alike S (x >>= f) (y >>= g) := by
  cases x with
  | ok a =>
    cases y with
    | ok b => exact hfg a b rfl rfl hxy
    | error e => exact hxy.elim
  | error e =>
    cases y with
    | ok b => exact hxy.elim
    | error e' => trivial

theorem bind {f : α → Except ε γ} {g : β → Except ε δ}
    (hxy : Alike R x y) (hfg : ∀ a b, R a b → Alike S (f a) (g b)) : Alike S (x >>= f) (y >>= g) :=
  hxy.bind_of fun a b _ _ => hfg a b

theorem mono {R' : α → β → Prop} (h : Alike R x y) (hR : ∀ a b, R a b → R' a b) : Alike R' x y := by
  cases x with
  | ok a =>
    cases y with
    | ok b => exact hR a b h
    | error e => exact h
  | error e =>
    cases y with
    | ok b => exact h
    | error e' => trivial

theorem ok_left {a : α} (h : Alike R (.ok a) y) : ∃ b, y = .ok b ∧ R a b := by
  cases y with
  | ok b => exact ⟨b, rfl, h⟩
  | error e => exact h.elim

/-- A loop over one list, with related states. -/
theorem foldlM {ι : Type} {f : α → ι → Except ε α} {g : β → ι → Except ε β} :
    ∀ {l : List ι} {a : α} {b : β}, R a b →
    (∀ x ∈ l, ∀ a b, R a b → Alike R (f a x) (g b x)) → Alike R (l.foldlM f a) (l.foldlM g b)
  | [], _, _, h, _ => h
  | x :: l, a, b, h, hstep => by
    rw [foldlM_cons, foldlM_cons]
    refine (hstep x (.head _) a b h).bind fun a b hab => ?_
    exact foldlM hab fun y hy => hstep y (.tail _ hy)

end Alike

/-- A comprehension returns exactly when each of its elements does. -/
theorem mapM_ok_iff : ∀ {l : List α} {r : List β},
    l.mapM f = .ok r ↔ List.Forall₂ (fun a b => f a = .ok b) l r
  | [], r => by
    rw [mapM_nil, List.forall₂_nil_left_iff, eq_comm (a := r)]
    exact ⟨fun h => ok.inj h, fun h => congrArg ok h⟩
  | a :: l, r => by
    rw [mapM_cons]
    constructor
    · intro h
      obtain ⟨b, ha, h⟩ := bind_eq_ok.mp h
      obtain ⟨bs, hl, h⟩ := bind_eq_ok.mp h
      cases h
      exact .cons ha (mapM_ok_iff.mp hl)
    · intro h
      cases h with
      | cons ha hl => rw [ha, mapM_ok_iff.mpr hl]; rfl

theorem mapM_returns_iff : ∀ {l : List α}, (∃ r, l.mapM f = .ok r) ↔ ∀ a ∈ l, ∃ b, f a = .ok b
  | [] => ⟨nofun, fun _ => ⟨[], rfl⟩⟩
  | a :: l => by
    rw [forall_mem_cons, ← mapM_returns_iff]
    constructor
    · rintro ⟨r, hr⟩
      cases mapM_ok_iff.mp hr with
      | cons ha hl => exact ⟨⟨_, ha⟩, _, mapM_ok_iff.mpr hl⟩
    · rintro ⟨⟨b, hb⟩, r, hr⟩
      exact ⟨b :: r, mapM_ok_iff.mpr (.cons hb (mapM_ok_iff.mp hr))⟩

theorem mapM_congr {g : α → Except ε β} : ∀ {l : List α}, (∀ a ∈ l, f a = g a) → l.mapM f = l.mapM g
  | [], _ => rfl
  | a :: l, h => by
    rw [mapM_cons, mapM_cons, h a (.head _), mapM_congr fun b hb => h b (.tail _ hb)]

/-- Comprehensions over the same members return together. -/
theorem alike_mapM_sameSet {l l' : List α} (h : SameSet l l') :
    Alike (fun r r' => List.Forall₂ (fun a b => f a = .ok b) l r ∧
      List.Forall₂ (fun a b => f a = .ok b) l' r') (l.mapM f) (l'.mapM f) := by
  have hboth : (∃ r, l.mapM f = .ok r) ↔ ∃ r, l'.mapM f = .ok r := by
    simp only [mapM_returns_iff, h _]
  cases hr : l.mapM f with
  | ok r =>
    obtain ⟨r', hr'⟩ := hboth.mp ⟨r, hr⟩
    rw [hr']
    exact ⟨mapM_ok_iff.mp hr, mapM_ok_iff.mp hr'⟩
  | error e =>
    cases hr' : l'.mapM f with
    | ok r' =>
      obtain ⟨r, hok⟩ := hboth.mpr ⟨r', hr'⟩
      rw [hr] at hok
      cases hok
    | error e' => trivial

theorem mem_comprehension {l : List α} {r : List β}
    (h : List.Forall₂ (fun a b => f a = .ok b) l r) {b : β} : b ∈ r ↔ ∃ a ∈ l, f a = .ok b := by
  induction h with
  | nil => simp
  | cons hab _ ih =>
    rw [mem_cons, exists_mem_cons_iff, ih, hab, ok.injEq, eq_comm]

/-- A dictionary filled by a comprehension over different keys. -/
theorem get?_ofList_zip [DecidableEq α] {l : List α} {r : List β}
    (hl : l.Nodup) (h : List.Forall₂ (fun a b => f a = .ok b) l r) {a : α} (ha : a ∈ l) :
    ∃ b, f a = .ok b ∧ (Dict.ofList (l.zip r)).get? a = some b := by
  have hfst : (l.zip r).map Prod.fst = l := map_fst_zip (le_of_eq h.length_eq)
  obtain ⟨i, hi, rfl⟩ := getElem_of_mem ha
  have hi' : i < r.length := h.length_eq ▸ hi
  refine ⟨r[i], h.get hi hi', (Dict.get?_ofList (hfst.symm ▸ hl)).mpr ?_⟩
  rw [← getElem_zip (h := by simpa [hi'] using hi)]
  exact getElem_mem _

/-- The members whose test came out true. -/
theorem mem_filter_zip {f : α → Except ε Bool} {l : List α} {r : List Bool}
    (h : List.Forall₂ (fun a b => f a = .ok b) l r) (x : α) :
    x ∈ ((l.zip r).filter (·.2)).map Prod.fst ↔ x ∈ l ∧ f x = .ok true := by
  induction h with
  | nil => simp
  | @cons a b l r hab _ ih =>
    rw [zip_cons_cons, mem_cons, or_and_right, ← ih]
    cases b with
    | true =>
      simp only [filter_cons_of_pos, map_cons, mem_cons]
      exact or_congr_left ⟨fun hx => ⟨hx, hx ▸ hab⟩, And.left⟩
    | false =>
      rw [filter_cons_of_neg (by simp)]
      refine ⟨.inr, fun hx => hx.resolve_left ?_⟩
      rintro ⟨rfl, htrue⟩
      rw [hab] at htrue
      exact Bool.noConfusion (ok.inj htrue)

/-- Set a key to a value, if there is one. -/
def Dict.setSome {K V : Type} [DecidableEq K] (d : Dict K V) (k : K) : Option V → Dict K V
  | some v => d.set k v
  | none => d

/-- Entries set for some of the keys, one after another. -/
theorem Dict.get?_foldl_setSome {K V : Type} [DecidableEq K] (f : K → Option V) (k : K) :
    ∀ (l : List K) (d : Dict K V),
    (l.foldl (fun d k => d.setSome k (f k)) d).get? k = if k ∈ l then (f k).or (d.get? k) else d.get? k
  | [], d => by simp
  | a :: l, d => by
    rw [foldl_cons, Dict.get?_foldl_setSome f k l]
    rcases eq_or_ne k a with rfl | hak
    · cases hf : f k with
      | none => simp [setSome]
      | some v => simp [setSome]
    · cases hf : f a with
      | none => simp [setSome, hak]
      | some v => simp [setSome, hak, Dict.get?_set]

/-- The same, where finding out what to set may fail: the order of the keys does not matter. -/
theorem alike_foldlM_setSome {K V : Type} [DecidableEq K] {f f' : K → Except ε (Option V)} {l l' : List K}
    (hl : SameSet l l') (hf : ∀ k ∈ l, f k = f' k) {d d' : Dict K V} (hd : Dict.Same d d') :
    Alike Dict.Same (l.foldlM (fun d k => do return d.setSome k (← f k)) d)
      (l'.foldlM (fun d k => do return d.setSome k (← f' k)) d') := by
  -- it fails as the comprehension does, and otherwise it is the loop above
  have hfold : ∀ (f : K → Except ε (Option V)) (l : List K) (d : Dict K V),
      l.foldlM (fun d k => do return d.setSome k (← f k)) d =
        (l.mapM f).map fun _ => l.foldl (fun d k => d.setSome k (f k).toOption.join) d := by
    intro f l
    induction l with
    | nil => exact fun d => rfl
    | cons k l ih =>
      intro d
      rw [foldlM_cons, mapM_cons]
      cases hk : f k with
      | error e => rfl
      | ok v =>
        simp only [foldl_cons, hk]
        refine Eq.trans (ih (d.setSome k v)) ?_
        cases l.mapM f <;> rfl
  rw [hfold, hfold, mapM_congr fun k hk => (hf k ((hl k).mpr hk)).symm]
  have hboth := alike_mapM_sameSet (f := f) hl
  cases hr : l.mapM f with
  | error e =>
    rw [hr] at hboth
    cases hr' : l'.mapM f with
    | error e' => trivial
    | ok r' => rw [hr'] at hboth; exact hboth.elim
  | ok r =>
    rw [hr] at hboth
    obtain ⟨r', hr', -⟩ := hboth.ok_left
    rw [hr']
    intro k
    rw [Dict.get?_foldl_setSome, Dict.get?_foldl_setSome, hd k]
    by_cases hk : k ∈ l
    · rw [if_pos hk, if_pos ((hl k).mp hk), hf k hk]
    · rw [if_neg hk, if_neg (mt (hl k).mpr hk)]

/-- Two loops in step: related states go on together, or end together with related results. -/
theorem loop_alike {σ τ ρ ρ' : Type} {f : σ → σ ⊕ ρ} {g : τ → τ ⊕ ρ'} {I : σ → τ → Prop}
    {Q : ρ → ρ' → Prop} (hstep : ∀ s t, I s t → Sum.LiftRel I Q (f s) (g t)) :
    ∀ (n : ℕ) {s : σ} {t : τ}, I s t → Option.Rel Q (loop f n s) (loop g n t)
  | 0, _, _, _ => .none
  | n + 1, s, t, h => by
    have hst := hstep s t h
    rw [loop, loop]
    cases hf : f s with
    | inl s' =>
      cases hg : g t with
      | inl t' =>
        rw [hf, hg, Sum.liftRel_inl_inl] at hst
        exact loop_alike hstep n hst
      | inr r => rw [hf, hg] at hst; cases hst
    | inr r =>
      cases hg : g t with
      | inl t' => rw [hf, hg] at hst; cases hst
      | inr r' =>
        rw [hf, hg, Sum.liftRel_inr_inr] at hst
        exact .some hst

end Kit
