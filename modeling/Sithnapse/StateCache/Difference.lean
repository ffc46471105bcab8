import Mathlib.Data.Finset.Basic
import Sithnapse.StateCache.Filter

/-! The difference of two state filters.

    `approx_difference` takes both filters apart into whole types and single keys, and puts what is left
    together again. A filter cannot say "all keys of a type but these", so a type of which everything is
    wanted stays whole unless the other filter wants all of it too. -/

namespace Sithnapse.StateCache.StateFilter

open Kit Kit.Dict List

/-- `_decompose_into_four_parts`. -/
def decomposeIntoFourParts (f : StateFilter) : (Bool × List String) × List String × List StateKey :=
  ((f.includeOthers, if f.includeOthers then f.types.keys else []),
    (f.types.entries.filter (·.2.isNone)).map Prod.fst, f.concreteTypes)

/-- One round of the loop over the single keys. -/
def insertKey (allPart : Bool) (types : Dict String (Option (List String))) (k : StateKey) :
    Dict String (Option (List String)) :=
  match types.get? k.1 with
  | some (some entry) => types.set k.1 (some (addIf entry k.2))
  | some Option.none => types
  | Option.none => if allPart then types else types.set k.1 (some [k.2])

/-- `_recompose_from_four_parts`. -/
def recomposeFromFourParts (allPart : Bool) (minusWildcards plusWildcards : List String)
    (plusStateKeys : List StateKey) : StateFilter :=
  let excluded := if allPart then Dict.ofList (minusWildcards.map (·, some [])) else .empty
  make (plusStateKeys.foldl (insertKey allPart) (excluded.update (plusWildcards.map (·, Option.none)))) allPart

/-- `approx_difference`. -/
def approxDifference (self other : StateFilter) : StateFilter :=
  let ((selfAll, selfExcludes), selfWildcards, selfConcreteKeys) := self.decomposeIntoFourParts
  let ((otherAll, otherExcludes), otherWildcards, otherConcreteKeys) := other.decomposeIntoFourParts
  let newExcludes := addAll selfExcludes otherWildcards
  let newWildcards := selfWildcards.filter (· ∉ otherWildcards)
  let newConcreteKeys := selfConcreteKeys.filter fun k => k.1 ∉ otherWildcards ∧ k ∉ otherConcreteKeys
  if otherAll then
    let newWildcards :=
      if selfAll then addAll newWildcards (otherExcludes.filter (· ∉ selfExcludes)) else newWildcards
    recomposeFromFourParts false [] (newWildcards.filter (· ∈ otherExcludes))
      (newConcreteKeys.filter (·.1 ∈ otherExcludes))
  else recomposeFromFourParts selfAll newExcludes newWildcards newConcreteKeys

/-! ### The parts -/

variable {f other : StateFilter} {k : StateKey} {t : String}

theorem mem_wildcards :
    t ∈ (f.types.entries.filter (·.2.isNone)).map Prod.fst ↔ f.types.get? t = some Option.none := by
  simp [get?_eq_some_iff]

/-- Where other types are included a canonical filter has no wildcard. -/
theorem get?_ne_wildcard (h : f.includeOthers = true) : f.types.get? t ≠ some Option.none := by
  intro hget
  have hkeep := f.canonical _ (get?_eq_some_iff.mp hget)
  simp [keeps, h] at hkeep

theorem admits_insertKey (a : Bool) (types : Dict String (Option (List String))) (k₀ : StateKey) :
    admits a ((insertKey a types k₀).get? k.1) k.2 = true ↔ admits a (types.get? k.1) k.2 = true ∨ k = k₀ := by
  rw [insertKey, Prod.ext_iff]
  rcases eq_or_ne k.1 k₀.1 with heq | hne
  · rw [heq]
    cases hget : types.get? k₀.1 with
    | none => cases a <;> simp [admits, hget]
    | some entry => cases entry <;> simp [admits, hget]
  · cases types.get? k₀.1 with
    | none => cases a <;> simp [get?_set_ne, hne]
    | some entry => cases entry <;> simp [get?_set_ne, hne]

theorem wants_recompose (a : Bool) (minus plus : List String) (keys : List StateKey) :
    (recomposeFromFourParts a minus plus keys).wants k = true ↔
      (k.1 ∈ plus ∨ a = true ∧ k.1 ∉ minus) ∨ k ∈ keys := by
  rw [recomposeFromFourParts, wants_make]
  refine foldl_visited (insertKey a) (fun pre types => admits a (types.get? k.1) k.2 = true ↔
    (k.1 ∈ plus ∨ a = true ∧ k.1 ∉ minus) ∨ k ∈ pre) keys ?_ fun pre k₀ _ types _ ih => ?_
  · rw [get?_update_map]
    by_cases hplus : k.1 ∈ plus
    · simp [hplus, admits]
    · cases a with
      | false => simp [hplus, admits]
      | true =>
        rw [if_neg hplus, if_pos rfl, get?_ofList_map]
        by_cases hminus : k.1 ∈ minus <;> simp [hplus, hminus, admits]
  · rw [admits_insertKey, ih, mem_append, mem_singleton, or_assoc]

/-- All keys of a type are wanted. -/
def WantsAll (f : StateFilter) (t : String) : Prop :=
  f.types.get? t = some Option.none ∨ f.includeOthers = true ∧ f.types.get? t = Option.none

theorem wants_iff : f.wants k = true ↔ f.WantsAll k.1 ∨ k ∈ f.concreteTypes := by
  rw [wants_eq_admits, mem_concreteTypes, WantsAll]
  cases hget : f.types.get? k.1 with
  | none => simp [admits]
  | some entry => cases entry <;> simp [admits]

/-- What the difference wants, by the parts of the two filters. -/
theorem wants_approxDifference_iff : (f.approxDifference other).wants k = true ↔ ¬ other.WantsAll k.1 ∧
    (f.WantsAll k.1 ∨ k ∈ f.concreteTypes ∧ k ∉ other.concreteTypes) := by
  have hwild : other.includeOthers = true → other.types.get? k.1 ≠ some Option.none := get?_ne_wildcard
  simp only [approxDifference, decomposeIntoFourParts, WantsAll]
  split_ifs with ho hf hf
  -- where the other filter includes the types it does not name, only types it names are left
  · simp [wants_recompose, mem_wildcards, get?_eq_none_iff, ho, hf, hwild ho]
    tauto
  · simp [wants_recompose, mem_wildcards, get?_eq_none_iff, ho, hf, hwild ho]
    tauto
  -- otherwise its whole types and its single keys are taken away
  · simp [wants_recompose, mem_wildcards, get?_eq_none_iff, ho, hf]
    tauto
  · simp [wants_recompose, mem_wildcards, ho, hf]
    tauto

theorem wants_approxDifference : (f.approxDifference other).wants k = true ↔ f.wants k = true ∧
    (other.wants k = false ∨ f.WantsAll k.1 ∧ ¬ other.WantsAll k.1) := by
  rw [wants_approxDifference_iff, ← Bool.not_eq_true, wants_iff, wants_iff]
  tauto

/-- Of a type of which not everything is wanted, only finitely many keys are. -/
theorem finite_wants (h : ¬ f.WantsAll t) : {s | f.wants (t, s) = true}.Finite := by
  cases hget : f.types.get? t with
  | none =>
    have hothers : f.includeOthers = false := eq_false_of_ne_true fun ho => h (.inr ⟨ho, hget⟩)
    simp [wants, hget, hothers]
  | some entry =>
    cases entry with
    | none => exact absurd (.inl hget) h
    | some l => simp [wants, hget]

theorem wants_of_wantsAll (h : f.WantsAll k.1) : f.wants k = true := by
  rcases h with h | h <;> simp [wants, h]

/-- **The difference is sound and the narrowest there is.** It wants what the filter wants and the other
    does not, nothing that the filter does not want, and no more than any filter that does both. -/
theorem approxDifference_narrowest (f other : StateFilter) :
    (∀ k, f.wants k = true → other.wants k = false → (f.approxDifference other).wants k = true) ∧
    (∀ k, (f.approxDifference other).wants k = true → f.wants k = true) ∧
    ∀ g : StateFilter, (∀ k, f.wants k = true → other.wants k = false → g.wants k = true) →
      (∀ k, g.wants k = true → f.wants k = true) →
      ∀ k, (f.approxDifference other).wants k = true → g.wants k = true := by
  refine ⟨fun k hf ho => wants_approxDifference.mpr ⟨hf, .inl ho⟩,
    fun k h => (wants_approxDifference.mp h).1, fun g hg _ k h => ?_⟩
  obtain ⟨hf, ho | ⟨hall, hnot⟩⟩ := wants_approxDifference.mp h
  · exact hg k hf ho
  · -- the other filter wants finitely many keys of the type, so `g` wants infinitely many
    refine wants_of_wantsAll (by_contra fun hgall => ?_)
    obtain ⟨s, hs⟩ := ((finite_wants hgall).union (finite_wants hnot)).infinite_compl.nonempty
    rw [Set.mem_compl_iff, Set.mem_union, not_or] at hs
    exact hs.1 (hg (k.1, s) (wants_of_wantsAll hall) (eq_false_of_ne_true hs.2))

end Sithnapse.StateCache.StateFilter
