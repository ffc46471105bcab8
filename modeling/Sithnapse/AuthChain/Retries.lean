import Sithnapse.Kit.Alike
import Sithnapse.AuthChain.StateSets

/-! Retries of the transaction that computes the auth chain difference.

    `new_transaction` calls the function again with the same argument objects when an attempt is
    aborted. The helper for un-indexed events has by then taken these events out of the caller's state
    sets, and the part of the difference it found for them was a local variable of the aborted attempt.
    A retry therefore answers for the indexed events only (`inDifference_replaced`). -/

namespace Sithnapse.AuthChain
open Kit Kit.Chain ChainCover Iterutils List Except

variable {E T R : Type} [LinearOrder E] [DecidableEq R] {auth : E → List E} {roomOf : E → R}
  {db : Db E T R} {room : R} {stateSets : List (List E)}

/-- Where an attempt is aborted: before `_fixup_auth_chain_difference_sets` has touched the state sets,
    or after it. -/
inductive Aborted where
  | early
  | late
  deriving DecidableEq

/-- The state sets as an attempt leaves them when it is aborted; it may also raise before that. -/
def abortedAttempt (db : Db E T R) (room : R) (stateSets : List (List E)) (conflictedSet : Option (List E))
    (additional : List E) : Aborted → Except Failure (List (List E))
  | .early => .ok stateSets
  | .late =>
    if stateSets = [] then .error .indexError
    else if !argumentsValid (addAll [] stateSets.flatten) conflictedSet additional then .error .assertion
    else do
      let (_, sets, _) ← loadSets db room stateSets
      pure sets

/-- The transaction: aborted attempts, each starting from the state sets the one before left behind, and
    then one that is not aborted. -/
def retriedDifference (db : Db E T R) (order : List ℕ → List ℕ) (room : R) (conflictedSet : Option (List E))
    (additional : List E) : List Aborted → List (List E) → Except Failure (StateDifference E)
  | [], stateSets => getAuthChainDifferenceUsingCoverIndex db order room stateSets conflictedSet additional
  | a :: attempts, stateSets => do
    let stateSets ← abortedAttempt db room stateSets conflictedSet additional a
    retriedDifference db order room conflictedSet additional attempts stateSets

/-! ### The difference does not depend on the v2.1 arguments -/

/-- The walks of the state sets ignore what is conflicted. -/
theorem walks_sets (v21 : Bool) (conflicted additional : List Pos) :
    ∀ (batches : List (Dict ℕ (List ChainEdge))) (w w' : Walks), w.setToChain = w'.setToChain →
      w.seenChains = w'.seenChains →
      (batches.foldl (Walks.batch v21 conflicted additional) w).setToChain =
          (batches.foldl (Walks.batch false [] []) w').setToChain ∧
        (batches.foldl (Walks.batch v21 conflicted additional) w).seenChains =
          (batches.foldl (Walks.batch false [] []) w').seenChains
  | [], _, _, hset, hseen => ⟨hset, hseen⟩
  | links :: batches, w, w', hset, hseen => by
    refine walks_sets v21 conflicted additional batches _ _ ?_ ?_
    · simp only [Walks.batch, hset]
    · simp only [Walks.batch, hset, hseen]

theorem difference_v21 {order : List ℕ → List ℕ} {conflictedSet : Option (List E)} {additional : List E}
    {d : StateDifference E}
    (h : getAuthChainDifferenceUsingCoverIndex db order room stateSets conflictedSet additional = .ok d) :
    ∃ d', getAuthChainDifferenceUsingCoverIndex db order room stateSets none [] = .ok d' ∧
      d'.authDifference = d.authDifference := by
  rw [getAuthChainDifferenceUsingCoverIndex] at h ⊢
  split at h
  · cases h
  · rename_i hne
    split at h
    · cases h
    · rw [if_neg hne, if_neg (by simp [argumentsValid])]
      obtain ⟨⟨diff, sets, info⟩, hload, h⟩ := bind_eq_ok.mp h
      obtain ⟨cp, -, h⟩ := bind_eq_ok.mp h
      obtain ⟨ap, -, h⟩ := bind_eq_ok.mp h
      obtain ⟨Ms, hMs, h⟩ := bind_eq_ok.mp h
      obtain ⟨hset, hseen⟩ := walks_sets conflictedSet.isSome cp ap
        (getChainLinks db.links (order info.seenChains)) ⟨Ms, info.seenChains, Dict.empty, Dict.empty⟩
        ⟨Ms, info.seenChains, Dict.empty, Dict.empty⟩ rfl rfl
      rw [hload]
      simp only [orKeyError, bind, Except.bind, pure, Except.pure, Except.ok.injEq] at h hMs ⊢
      subst h
      rw [hMs]
      refine ⟨_, rfl, ?_⟩
      simp only [authGaps, hset, hseen]
      rfl

/-! ### The state sets a late abort leaves -/

/-- Every un-indexed event of the auth chains waits to be indexed. -/
def Listed (auth : E → List E) (db : Db E T R) (stateSets : List (List E)) : Prop :=
  ∀ S ∈ stateSets, ∀ e, Under auth S e → (∃ p, db.selectChain e = some p) ∨ e ∈ db.toCalculate.map Prod.fst

/-- The answer is right exactly under this condition. -/
def RetrySafe (auth : E → List E) (db : Db E T R) (attempts : List Aborted) (stateSets : List (List E)) :
    Prop :=
  (∀ a ∈ attempts, a = .early) ∨ ∀ e, InDifference auth stateSets e → ∃ p, db.selectChain e = some p

section Late

omit [DecidableEq R]

theorem retrySafe_early {attempts : List Aborted} :
    RetrySafe auth db (.early :: attempts) stateSets ↔ RetrySafe auth db attempts stateSets := by
  simp [RetrySafe]

variable {f : List E → List E} {info : ChainInfo E} {diff : List E} {D : Set E}
  (hidx : CorrectIndex auth db) (h : LoadedSets auth db stateSets f diff D info)

include hidx h

/-- Among the events below the replaced sets, the difference is that of the original sets without the
    un-indexed events. -/
theorem inDifference_replaced {e : E} :
    InDifference auth (stateSets.map f) e ↔ db.Indexed e ∧ InDifference auth stateSets e := by
  have hindexed : ∀ S ∈ stateSets, Under auth (f S) e → db.Indexed e := by
    rintro S hS ⟨x, hx, hxe⟩
    obtain ⟨p, hp⟩ := (h.fetched S hS x hx).2
    exact hidx.indexed_of_belowEq hp hxe
  simp only [InDifference, mem_map, exists_exists_and_eq_and, forall_exists_index, and_imp,
    forall_apply_eq_imp_iff₂]
  constructor
  · rintro ⟨⟨S, hS, hunder⟩, hnot⟩
    obtain ⟨p, hp⟩ := hindexed S hS hunder
    refine ⟨⟨p, hp⟩, ⟨S, hS, (h.under S hS e p hp).mp hunder⟩, fun hall => hnot fun S hS => ?_⟩
    exact (h.under S hS e p hp).mpr (hall S hS)
  · rintro ⟨⟨p, hp⟩, ⟨S, hS, hunder⟩, hnot⟩
    refine ⟨⟨S, hS, (h.under S hS e p hp).mpr hunder⟩, fun hall => hnot fun S hS => ?_⟩
    exact (h.under S hS e p hp).mp (hall S hS)

theorem LoadedSets.listed : Listed auth db (stateSets.map f) := by
  rintro S' hS' e ⟨x, hx, hxe⟩
  obtain ⟨S, hS, rfl⟩ := mem_map.mp hS'
  obtain ⟨p, hp⟩ := (h.fetched S hS x hx).2
  exact .inl (hidx.indexed_of_belowEq hp hxe)

/-- What the transaction returns after a late abort, in terms of what it returns for the replaced sets. -/
theorem difference_after_late {attempts : List Aborted} {result : List E}
    (hresult : (∀ e, e ∈ result ↔ InDifference auth (stateSets.map f) e) ↔
      RetrySafe auth db attempts (stateSets.map f)) :
    (∀ e, e ∈ result ↔ InDifference auth stateSets e) ↔ RetrySafe auth db (.late :: attempts) stateSets := by
  have hmem : ∀ e, e ∈ result ↔ db.Indexed e ∧ InDifference auth stateSets e := by
    have hsafe : RetrySafe auth db attempts (stateSets.map f) :=
      .inr fun e he => ((inDifference_replaced hidx h).mp he).1
    intro e
    rw [hresult.mpr hsafe e, inDifference_replaced hidx h]
  simp only [hmem, RetrySafe, mem_cons, forall_eq_or_imp, reduceCtorEq, false_and, false_or,
    and_iff_right_iff_imp]

end Late

/-- With every un-indexed event of the auth chains waiting to be indexed, the transaction, retried any
    number of times, returns (or raises `_NoChainCoverIndex` because it is asked about un-indexed events of
    another room). Whatever it returns, with or without v2.1 arguments, is the auth chain difference of the
    state sets passed in exactly when no attempt was aborted after the un-indexed events were handled, or
    no un-indexed event is in the difference. -/
theorem retried_difference_correct_iff (hD : Described auth roomOf db) (room : R) {order : List ℕ → List ℕ}
    (horder : ∀ l, (order l).Perm l) (attempts : List Aborted) (stateSets : List (List E))
    (hne : stateSets ≠ [])
    (hlist : ∀ S ∈ stateSets, ∀ e, Under auth S e → (∃ p, db.selectChain e = some p) ∨
      e ∈ db.toCalculate.map Prod.fst) :
    ((∃ d, retriedDifference db order room none [] attempts stateSets = .ok d) ∨
      (retriedDifference db order room none [] attempts stateSets = .error .noChainCoverIndex ∧
        ∃ S ∈ stateSets, ∃ e ∈ S, db.selectChain e = none ∧ roomOf e ≠ room)) ∧
    ∀ conflictedSet additional d,
      retriedDifference db order room conflictedSet additional attempts stateSets = .ok d →
      ((∀ e, e ∈ d.authDifference ↔ InDifference auth stateSets e) ↔
        (∀ a ∈ attempts, a = .early) ∨
          ∀ e, InDifference auth stateSets e → ∃ p, db.selectChain e = some p) := by
  have hidx := hD.toCorrectIndex
  induction attempts generalizing stateSets with
  | nil =>
    rcases loadSets_spec room hD hlist with ⟨f, diff, D, info, hload, hset⟩ | ⟨hload, hroom⟩
    · obtain ⟨d₀, hd₀, hright⟩ := loaded_difference hidx horder hne hload hset
      refine ⟨.inl ⟨d₀, hd₀⟩, fun conflictedSet additional d hd => ?_⟩
      obtain ⟨d', hd', heq⟩ := difference_v21 hd
      obtain rfl : d' = d₀ := ok.inj (hd'.symm.trans hd₀)
      rw [← heq]
      exact ⟨fun _ => .inl nofun, fun _ => hright⟩
    · refine ⟨.inr ⟨difference_not_loaded hne hload, hroom⟩, fun conflictedSet additional d hd => ?_⟩
      obtain ⟨d', hd', -⟩ := difference_v21 hd
      rw [difference_not_loaded hne hload] at hd'
      cases hd'
  | cons a attempts ih =>
    cases a with
    | early =>
      obtain ⟨hreturns, hiff⟩ := ih stateSets hne hlist
      refine ⟨hreturns, fun conflictedSet additional d hd => ?_⟩
      exact (hiff conflictedSet additional d hd).trans retrySafe_early.symm
    | late =>
      rcases loadSets_spec room hD hlist with ⟨f, diff, D, info, hload, hset⟩ | ⟨hload, hroom⟩
      · have hattempt : ∀ conflictedSet additional sets,
            abortedAttempt db room stateSets conflictedSet additional .late = .ok sets →
              sets = stateSets.map f := by
          intro conflictedSet additional sets h
          rw [abortedAttempt, if_neg hne] at h
          split at h
          · cases h
          · rw [hload] at h
            exact (ok.inj h).symm
        have hfirst : abortedAttempt db room stateSets none [] .late = .ok (stateSets.map f) := by
          rw [abortedAttempt, if_neg hne, if_neg (by simp [argumentsValid]), hload]
          rfl
        obtain ⟨hreturns, hiff⟩ := ih (stateSets.map f) (by simpa using hne) (hset.listed hidx)
        refine ⟨.inl ?_, fun conflictedSet additional d hd => ?_⟩
        · rw [retriedDifference, hfirst]
          -- the replaced sets hold indexed events only
          refine hreturns.resolve_right ?_
          rintro ⟨-, S', hS', e, he, hnone, -⟩
          obtain ⟨S, hS, rfl⟩ := mem_map.mp hS'
          obtain ⟨p, hp⟩ := (hset.fetched S hS e he).2
          rw [hnone] at hp
          cases hp
        · rw [retriedDifference] at hd
          obtain ⟨sets, hsets, hd⟩ := bind_eq_ok.mp hd
          rw [hattempt _ _ _ hsets] at hd
          exact difference_after_late hidx hset (hiff conflictedSet additional d hd)
      · refine ⟨.inr ⟨?_, hroom⟩, fun conflictedSet additional d hd => ?_⟩
        · rw [retriedDifference, abortedAttempt, if_neg hne, if_neg (by simp [argumentsValid]), hload]
          rfl
        · rw [retriedDifference, abortedAttempt, if_neg hne] at hd
          split at hd
          · cases hd
          · rw [hload] at hd
            cases hd

/-- Two attempts aborted before the state sets were touched do no harm. -/
theorem retried_difference_correct_early :
    ∃ d, retriedDifference waitingDb id 0 none [] [.early, .early] [[3], [1]] = .ok d ∧
      ∀ e, e ∈ d.authDifference ↔ InDifference roomAuth [[3], [1]] e := by
  have hcorrect := retried_difference_correct_iff waitingDb_described 0
    (fun l => List.Perm.refl (id l)) [.early, .early] [[3], [1]] (by decide) waitingDb_listed
  obtain ⟨d, hd⟩ := hcorrect.1.resolve_right fun h => by
    obtain ⟨-, _, _, _, _, _, hroom⟩ := h
    exact hroom rfl
  exact ⟨d, hd, (hcorrect.2 none [] d hd).mpr (.inl (by decide))⟩

/-- The waiting member event is in the difference, and it is what an aborted attempt makes the retry
    forget. -/
theorem retried_difference_forgets :
    ∃ d, retriedDifference waitingDb id 0 none [] [.late] [[3], [1]] = .ok d ∧
      3 ∉ d.authDifference ∧ InDifference roomAuth [[3], [1]] 3 := by
  have hd : (retriedDifference waitingDb id 0 none [] [.late] [[3], [1]]).toOption.map (·.authDifference) =
      some [] := by decide +kernel
  obtain ⟨d, hok, hd⟩ := Option.map_eq_some_iff.mp hd
  refine ⟨d, toOption_eq_some.mp hok, ?_, ⟨[3], by decide, 3, by decide, .refl⟩, fun hall => ?_⟩
  · rw [hd]
    exact not_mem_nil
  · obtain ⟨x, hx, hx3⟩ := hall [1] (by decide)
    rw [mem_singleton.mp hx] at hx3
    exact absurd (roomAuth_le hx3) (by decide)

end Sithnapse.AuthChain
