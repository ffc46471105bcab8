import Sithnapse.AuthChain.AuthEvents
import Sithnapse.AuthChain.StateSets

/-! `_get_auth_chain_difference_txn`: the auth chain difference without a chain cover index.

    The walk queues events by depth, reads the auth events of the last 100 at a time and keeps for
    every event the state sets that have not been shown to reach it. `Marked` is what these missing
    sets mean at any time: a set is missing exactly when no path of the edges read so far leads from
    it to the event. -/

namespace Sithnapse.AuthChain
open Kit Kit.Dict Kit.Chain Iterutils List Option Relation

variable {E : Type} [LinearOrder E]

/-- The order of `search.sort()`. -/
def searchLe (p q : ℤ × E) : Prop := p.1 < q.1 ∨ p.1 = q.1 ∧ p.2 ≤ q.2

instance : DecidableRel (searchLe (E := E)) := fun _ _ =>
  inferInstanceAs (Decidable (_ ∨ _))

def sortSearch (l : List (ℤ × E)) : List (ℤ × E) := l.insertionSort searchLe

/-- The walk's variables. -/
structure MissingWalk (E : Type) where
  search : List (ℤ × E)
  missing : Dict E (List ℕ)
  auths : Dict E (List E)
  cache : AuthCache E

/-- The sets that do not contain the event. -/
def initialMissing (stateSets : List (List E)) (e : E) : List ℕ :=
  (List.range stateSets.length).filter fun i => e ∉ stateSets.getD i []

/-- `event_to_missing_sets[a].intersection_update(event_to_missing_sets[e])`. -/
def intersectMissing (e : E) (missing : Dict E (List ℕ)) (a : E) : Option (Dict E (List ℕ)) := do
  let sets ← missing.get? a
  let reached ← missing.get? e
  some (missing.set a (sets.filter (· ∈ reached)))

/-- The inner loop: mark all known ancestors, level by level. -/
def markAncestors (e : E) (auths : Dict E (List E)) : ℕ → List E → Dict E (List ℕ) → Option (Dict E (List ℕ))
  | 0, _, _ => none
  | _ + 1, [], missing => some missing
  | n + 1, a :: as, missing => do
    let missing ← (a :: as).foldlM (intersectMissing e) missing
    markAncestors e auths n ((a :: as).foldl (fun new a => addAll new (auths.getD a [])) []) missing

/-- One row of `found`. -/
def walkRow (sets : ℕ) (st : MissingWalk E) (row : E × E × ℤ) : Option (MissingWalk E) :=
  let (e, a, depth) := row
  let auths := st.auths.set e (addIf (st.auths.getD e []) a)
  match st.missing.get? a with
  | none => do
    let missing ← intersectMissing e (st.missing.set a (List.range sets)) a
    some { st with search := st.search ++ [(depth, a)], missing := missing, auths := auths }
  | some _ => do
    let missing ← markAncestors e auths (auths.keys.length + 2) (auths.getD a []) st.missing
    let missing ← intersectMissing e missing a
    some { st with missing := missing, auths := auths }

/-- `all(not event_to_missing_sets[eid] for _, eid in search)`. -/
def allReached (st : MissingWalk E) : Option Bool :=
  st.search.allM fun p => (st.missing.get? p.2).map List.isEmpty

/-- One round of the outer loop. -/
def walkRound (t : AuthTables E) (evict : AuthCache E → AuthCache E) (sets : ℕ)
    (st : MissingWalk E) : MissingWalk E ⊕ Option (List E) :=
  match allReached st with
  | none => .inr none
  | some true => .inr (some ((st.missing.entries.filter fun p => p.2 ≠ []).map Prod.fst))
  | some false =>
    let keep := st.search.take (st.search.length - 100)
    let chunk := st.search.drop (st.search.length - 100)
    let (found, cache) := authRows t st.cache (chunk.map Prod.snd)
    match found.foldlM (walkRow sets) { st with search := keep, cache := evict cache } with
    | none => .inr none
    | some st => .inl { st with search := sortSearch st.search }

/-- `SELECT depth, event_id FROM events WHERE event_id IN …`. -/
def AuthTables.selectDepth (t : AuthTables E) (events : List E) : List (ℤ × E) :=
  (t.events.filter (·.1 ∈ events)).map Prod.swap

/-- `_get_auth_chain_difference_txn`. -/
def getAuthChainDifference (t : AuthTables E) (evict : AuthCache E → AuthCache E)
    (cache : AuthCache E) (stateSets : List (List E)) : Except Failure (List E) :=
  if stateSets = [] then .error .indexError
  else
    let initial := addAll [] stateSets.flatten
    let start : MissingWalk E :=
      ⟨sortSearch ((batchIter initial 1000).flatMap t.selectDepth),
        Dict.ofList (initial.map fun e => (e, initialMissing stateSets e)), Dict.empty, cache⟩
    orKeyError
      (loop (walkRound t evict stateSets.length) (initial.length + t.eventAuth.length + 1) start).join

/-! ### Marking ancestors -/

/-- The edges read so far. -/
def known (auths : Dict E (List E)) (e : E) : List E := auths.getD e []

/-- The missing sets of the events in `A` were intersected with `reached`. -/
structure Masked (A : Set E) (reached : List ℕ) (missing missing' : Dict E (List ℕ)) : Prop where
  keys : ∀ x, x ∈ missing'.keys ↔ x ∈ missing.keys
  entry : ∀ x sets, missing.get? x = some sets → ∃ sets', missing'.get? x = some sets' ∧
    ∀ i, i ∈ sets' ↔ i ∈ sets ∧ (x ∈ A → i ∈ reached)

variable {e a : E} {reached : List ℕ} {missing missing' missing'' : Dict E (List ℕ)} {A B : Set E}

theorem Masked.none : Masked ∅ reached missing missing :=
  ⟨fun _ => Iff.rfl, fun _ sets h => ⟨sets, h, fun i => by simp⟩⟩

theorem Masked.union (h : Masked A reached missing missing')
    (h' : Masked B reached missing' missing'') : Masked (A ∪ B) reached missing missing'' := by
  refine ⟨fun x => (h'.keys x).trans (h.keys x), fun x sets hx => ?_⟩
  obtain ⟨sets', hx', hmem⟩ := h.entry x sets hx
  obtain ⟨sets'', hx'', hmem'⟩ := h'.entry x sets' hx'
  refine ⟨sets'', hx'', fun i => ?_⟩
  rw [hmem', hmem, Set.mem_union, or_imp, and_assoc]

theorem Masked.congr (h : Masked A reached missing missing') (hAB : ∀ x, x ∈ A ↔ x ∈ B) :
    Masked B reached missing missing' := Set.ext hAB ▸ h

theorem intersectMissing_spec (he : missing.get? e = some reached) (ha : a ∈ missing.keys) :
    ∃ missing', intersectMissing e missing a = some missing' ∧ Masked {a} reached missing missing' ∧
      ∀ x, x ≠ a → missing'.get? x = missing.get? x := by
  obtain ⟨sets, hsets⟩ := mem_keys_iff.mp ha
  refine ⟨missing.set a (sets.filter (· ∈ reached)), ?_, ⟨fun x => ?_, fun x sets' hx => ?_⟩, ?_⟩
  · rw [intersectMissing, hsets, he]
    rfl
  · rw [mem_keys_set, or_iff_right_of_imp (fun hx => hx ▸ ha)]
  · rw [get?_set]
    split_ifs with hxa
    · subst hxa
      obtain rfl := mem_unique hsets hx
      exact ⟨_, rfl, fun i => by simp⟩
    · exact ⟨sets', hx, fun i => by simp [hxa]⟩
  · exact fun x hx => get?_set_ne _ _ hx

/-- One level of the inner loop. -/
theorem markLevel_spec (he : missing.get? e = some reached) {l : List E}
    (hl : ∀ a ∈ l, a ∈ missing.keys ∧ a ≠ e) :
    ∃ missing', l.foldlM (intersectMissing e) missing = some missing' ∧
      Masked {x | x ∈ l} reached missing missing' ∧ missing'.get? e = some reached := by
  refine foldlM_visited _ (fun pre (m : Dict E (List ℕ)) => Masked {x | x ∈ pre} reached missing m ∧
    m.get? e = some reached) l ⟨Masked.none.congr (by simp), he⟩ ?_
  rintro pre a post m rfl ⟨hm, he⟩
  have ha := hl a (by simp)
  obtain ⟨m', hm', hmask, hrest⟩ := intersectMissing_spec he ((hm.keys a).mpr ha.1)
  exact ⟨m', hm', (hm.union hmask).congr (by simp [or_comm]), (hrest e ha.2.symm).trans he⟩

/-- The inner loop reaches all known ancestors. -/
theorem markAncestors_spec {auths : Dict E (List E)} (hac : Acyclic (known auths)) :
    ∀ (n : ℕ) (l : List E) (missing : Dict E (List ℕ)), missing.get? e = some reached →
      (∀ x, Under (known auths) l x → x ∈ missing.keys ∧ x ≠ e) →
      ∀ (P : E → Prop) [DecidablePred P], (∀ x, P x ↔ Under (known auths) l x) →
      (auths.keys.filter P).length + 1 < n →
      ∃ missing', markAncestors e auths n l missing = some missing' ∧
        Masked {x | Under (known auths) l x} reached missing missing' ∧
        missing'.get? e = some reached
  | 0, _, _, _, _, _, _, _, h => absurd h (Nat.not_lt_zero _)
  | n + 1, [], missing, he, _, _, _, _, _ => by
    exact ⟨missing, rfl, Masked.none.congr (by simp [Under]), he⟩
  | n + 1, a :: as, missing, he, hl, P, _, hP, hn => by
    classical
    obtain ⟨m, hm, hmask, hem⟩ := markLevel_spec he fun x hx => hl x ⟨x, hx, .refl⟩
    set new := (a :: as).foldl (fun new a => addAll new (auths.getD a [])) [] with hdef
    have hnew : ∀ y, y ∈ new ↔ ∃ x ∈ a :: as, y ∈ known auths x := by
      intro y
      refine foldl_visited _ (fun pre new => y ∈ new ↔ ∃ x ∈ pre, y ∈ known auths x) (a :: as) (by simp) ?_
      intro pre x post new _ ih
      simp [ih, known, or_and_right, exists_or]
    have hunder : ∀ x, Under (known auths) (a :: as) x ↔ x ∈ a :: as ∨ Under (known auths) new x := by
      intro x
      constructor
      · rintro ⟨y, hy, hyx⟩
        rcases belowEq_iff.mp hyx with rfl | hyx
        · exact .inl hy
        · obtain ⟨z, hz, hzx⟩ := TransGen.head'_iff.mp hyx
          exact .inr ⟨z, (hnew z).mpr ⟨y, hy, hz⟩, hzx⟩
      · rintro (hx | ⟨z, hz, hzx⟩)
        · exact ⟨x, hx, .refl⟩
        · obtain ⟨y, hy, hyz⟩ := (hnew z).mp hz
          exact ⟨y, hy, .head hyz hzx⟩
    have hkeys : ∀ x, known auths x ≠ [] → x ∈ auths.keys := fun x hx => mem_keys_of_getD_ne hx
    have hfuel : new = [] ∧ 0 < n ∨
        (auths.keys.filter fun x => Under (known auths) new x).length + 1 < n := by
      rcases eq_or_ne new [] with hnil | hne
      · exact .inl ⟨hnil, by omega⟩
      · have hlt := hac.length_below_lt (Q := fun x => Under (known auths) new x) auths.nodup hkeys
          (fun y => (hnew y).mp) hne hP fun _ => Iff.rfl
        have hkn : auths.entries.map Prod.fst = auths.keys := rfl
        rw [hkn] at hlt
        exact .inr (by omega)
    have hrest : ∃ m', markAncestors e auths n new m = some m' ∧
        Masked {x | Under (known auths) new x} reached m m' ∧ m'.get? e = some reached := by
      rcases hfuel with ⟨hnil, hpos⟩ | hlt
      · obtain ⟨k, rfl⟩ := Nat.exists_eq_succ_of_ne_zero hpos.ne'
        rw [hnil]
        exact ⟨m, rfl, Masked.none.congr (by simp [Under]), hem⟩
      · refine markAncestors_spec hac n new m hem (fun x hx => ?_) _ (fun _ => Iff.rfl) hlt
        obtain ⟨hk, hne⟩ := hl x ((hunder x).mpr (.inr hx))
        exact ⟨(hmask.keys x).mpr hk, hne⟩
    obtain ⟨m', hm', hmask', hem'⟩ := hrest
    refine ⟨m', ?_, (hmask.union hmask').congr fun x => (hunder x).symm, hem'⟩
    rw [markAncestors, hm]
    exact hm'

/-! ### What the missing sets mean -/

/-- Every event read so far has an entry, and a state set is missing from it exactly when no path of
    edges read so far leads from the set to the event. -/
structure Marked (stateSets : List (List E)) (auths : Dict E (List E)) (missing : Dict E (List ℕ)) :
    Prop where
  keys : ∀ x, x ∈ missing.keys ↔ (∃ S ∈ stateSets, x ∈ S) ∨ ∃ y, x ∈ known auths y
  sources : ∀ y, known auths y ≠ [] → y ∈ missing.keys
  entry : ∀ x sets, missing.get? x = some sets → ∀ i, i ∈ sets ↔
    i < stateSets.length ∧ ¬ Under (known auths) (stateSets.getD i []) x

variable {stateSets : List (List E)} {auths : Dict E (List E)}

/-- Reading the edge from `e` to `a` and masking everything below. -/
theorem Marked.insert (h : Marked stateSets auths missing) {auths' : Dict E (List E)}
    (hedge : ∀ x y, y ∈ known auths' x ↔ y ∈ known auths x ∨ (x = e ∧ y = a))
    (he : missing.get? e = some reached) {m : Dict E (List ℕ)}
    (hm : ∀ x, x ∈ m.keys ↔ x = a ∨ x ∈ missing.keys)
    (hentry : ∀ x sets, m.get? x = some sets → ∀ i, i ∈ sets ↔
      i < stateSets.length ∧ ¬ Under (known auths) (stateSets.getD i []) x)
    (hmask : Masked {x | BelowEq (known auths) a x} reached m missing') :
    Marked stateSets auths' missing' := by
  have hek : e ∈ missing.keys := mem_keys_iff.mpr ⟨_, he⟩
  refine ⟨fun x => ?_, fun y hy => ?_, fun x sets' hx i => ?_⟩
  · rw [hmask.keys, hm, h.keys]
    simp only [hedge, exists_or]
    constructor
    · rintro (rfl | hx | hx)
      · exact .inr (.inr ⟨e, rfl, rfl⟩)
      · exact .inl hx
      · exact .inr (.inl hx)
    · rintro (hx | hx | ⟨_, _, rfl⟩)
      · exact .inr (.inl hx)
      · exact .inr (.inr hx)
      · exact .inl rfl
  · rw [hmask.keys, hm]
    obtain ⟨z, hz⟩ := exists_mem_of_ne_nil _ hy
    rcases (hedge y z).mp hz with hz | ⟨rfl, _⟩
    · exact .inr (h.sources y (ne_nil_of_mem hz))
    · exact .inr hek
  · obtain ⟨sets, hsets⟩ := mem_keys_iff.mp ((hmask.keys x).mp (mem_keys_iff.mpr ⟨_, hx⟩))
    obtain ⟨sets'', hx'', hmem⟩ := hmask.entry x sets hsets
    obtain rfl := mem_unique hx hx''
    have hunder : Under (known auths') (stateSets.getD i []) x ↔
        Under (known auths) (stateSets.getD i []) x ∨
          (Under (known auths) (stateSets.getD i []) e ∧ BelowEq (known auths) a x) := by
      simp only [Under, belowEq_insert hedge, and_or_left, exists_or, ← and_assoc]
      rw [exists_and_right]
    rw [hmem, hentry x sets hsets, Set.mem_ofPred_eq, h.entry e reached he, hunder]
    tauto

theorem known_set (auths : Dict E (List E)) (x y : E) :
    y ∈ known (auths.set e (addIf (auths.getD e []) a)) x ↔ y ∈ known auths x ∨ (x = e ∧ y = a) := by
  rw [known, getD_set]
  split_ifs with hx
  · subst hx
    simp [known]
  · simp [known, hx]

/-- One row of `found`. -/
theorem walkRow_spec {st : MissingWalk E} (h : Marked stateSets st.auths st.missing)
    (he : e ∈ st.missing.keys) (d : ℤ)
    (hac : Acyclic (known (st.auths.set e (addIf (st.auths.getD e []) a)))) :
    ∃ st', walkRow stateSets.length st (e, a, d) = some st' ∧
      Marked stateSets st'.auths st'.missing ∧
      (∀ x y, y ∈ known st'.auths x ↔ y ∈ known st.auths x ∨ (x = e ∧ y = a)) ∧
      st'.search = st.search ++ (if a ∈ st.missing.keys then [] else [(d, a)]) ∧
      st'.cache = st.cache := by
  obtain ⟨reached, hreached⟩ := mem_keys_iff.mp he
  set auths' := st.auths.set e (addIf (st.auths.getD e []) a) with hauths
  have hedge : ∀ x y, y ∈ known auths' x ↔ y ∈ known st.auths x ∨ (x = e ∧ y = a) :=
    known_set st.auths
  have hae : a ≠ e := by
    rintro rfl
    exact hac a (.single ((hedge a a).mpr (.inr ⟨rfl, rfl⟩)))
  have hbelow : ∀ x, BelowEq (known auths') a x ↔ BelowEq (known st.auths) a x := by
    intro x
    rw [belowEq_insert hedge]
    exact ⟨fun hx => hx.elim id And.right, .inl⟩
  cases hget : st.missing.get? a with
  | none =>
    -- a new event: no edge read so far touches it
    have hak : a ∉ st.missing.keys := get?_eq_none_iff.mp hget
    have halone : ∀ x, BelowEq (known st.auths) a x ↔ x = a := by
      intro x
      constructor
      · intro hx
        rcases hx.cases_head with rfl | ⟨y, hy, _⟩
        · rfl
        · exact absurd (h.sources a (ne_nil_of_mem hy)) hak
      · rintro rfl
        exact .refl
    have hfresh : ∀ i, ¬ Under (known st.auths) (stateSets.getD i []) a := by
      rintro i ⟨y, hy, hya⟩
      rcases hya.cases_tail with rfl | ⟨z, _, hz⟩
      · refine hak ((h.keys a).mpr (.inl ⟨stateSets.getD i [], ?_, hy⟩))
        rw [getD_eq_getElem?_getD] at hy ⊢
        cases hi : stateSets[i]? with
        | none => simp [hi] at hy
        | some S => exact mem_of_getElem? hi
      · exact hak ((h.keys a).mpr (.inr ⟨z, hz⟩))
    have hre : (st.missing.set a (List.range stateSets.length)).get? e = some reached := by
      rw [get?_set_ne _ _ hae.symm, hreached]
    obtain ⟨m', hm', hmask, _⟩ := intersectMissing_spec (a := a) hre (mem_keys_set.mpr (.inl rfl))
    refine ⟨⟨st.search ++ [(d, a)], m', auths', st.cache⟩, ?_, ?_, hedge, by rw [if_neg hak], rfl⟩
    · simp only [walkRow, hget, hm', ← hauths]
      rfl
    · refine h.insert hedge hreached (fun x => mem_keys_set) (fun x sets hx i => ?_)
        (hmask.congr fun x => (halone x).symm)
      rcases get?_set_cases hx with ⟨rfl, rfl⟩ | hx
      · rw [mem_range]
        exact (and_iff_left (hfresh i)).symm
      · exact h.entry x sets hx i
  | some sets =>
    have hak : a ∈ st.missing.keys := mem_keys_iff.mpr ⟨_, hget⟩
    have hlevel : ∀ x, Under (known auths') (auths'.getD a []) x ↔ Below (known auths') a x :=
      fun x => (TransGen.head'_iff (r := Edge (known auths'))).symm
    have hbelow_keys : ∀ x, Below (known auths') a x → x ∈ st.missing.keys ∧ x ≠ e := by
      intro x hx
      obtain ⟨y, _, hy⟩ := TransGen.tail'_iff.mp hx
      constructor
      · rcases (hedge y x).mp hy with hy | ⟨_, rfl⟩
        · exact (h.keys x).mpr (.inr ⟨y, hy⟩)
        · exact hak
      · rintro rfl
        exact hac a (hx.tail ((hedge x a).mpr (.inr ⟨rfl, rfl⟩)))
    classical
    obtain ⟨m, hm, hmask, hme⟩ := markAncestors_spec hac (auths'.keys.length + 2) (auths'.getD a [])
      st.missing hreached (fun x hx => hbelow_keys x ((hlevel x).mp hx))
      (fun x => Under (known auths') (auths'.getD a []) x) (fun _ => Iff.rfl)
      (by have := length_filter_le (fun x => decide (Under (known auths') (auths'.getD a []) x)) auths'.keys
          omega)
    obtain ⟨m', hm', hmask', _⟩ := intersectMissing_spec hme ((hmask.keys a).mpr hak)
    refine ⟨⟨st.search, m', auths', st.cache⟩, ?_, ?_, hedge, by rw [if_pos hak, append_nil], rfl⟩
    · simp only [walkRow, hget, ← hauths, hm, bind_eq_bind, bind_some, hm']
    · refine h.insert hedge hreached
        (fun x => (or_iff_right_of_imp fun hx => hx ▸ hak).symm) h.entry
        ((hmask.union hmask').congr fun x => ?_)
      rw [Set.mem_union, Set.mem_ofPred_eq, hlevel, Set.mem_singleton_iff, Set.mem_ofPred_eq, ← hbelow,
        belowEq_iff, or_comm]

end Sithnapse.AuthChain
