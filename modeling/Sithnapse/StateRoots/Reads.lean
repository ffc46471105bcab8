import Sithnapse.StateRoots.RefCounts

/-! Reading roots after any calls.

    A state group's root is reached over its pointer and shared with every state group of the same
    StateGroupId. Where equal StateGroupIds mean equal values, a read gives for every state group the
    value put last, unless it was deleted since: a put finds the shared copy in place or writes it, and
    a delete frees it only with the last pointer. -/

namespace Sithnapse.StateRoots

open Kit List Except

variable {C : Type} [DecidableEq C] {s : Store} {hash : Hashes C}

/-- The value a batch puts for a state group. -/
def putValue (roots : List (ℤ × Bytes)) (g : ℤ) : Option Bytes :=
  (roots.reverse.find? (·.1 = g)).map Prod.snd

/-- What a successful call means for the value of each state group. -/
def Call.effect (values : ℤ → Option Bytes) : Call → ℤ → Option Bytes
  | put _ _ _ roots => fun g => (putValue roots g).or (values g)
  | delete _ _ stateGroups => fun g => if g ∈ stateGroups then none else values g

section

variable (hash : Hashes C)

/-- The store and, for each state group, the value put last and not deleted since. -/
def track (st : Store × (ℤ → Option Bytes)) (call : Call) : Store × (ℤ → Option Bytes) :=
  let result := call.apply hash st.1
  (result.1, if result.2.isOk then call.effect st.2 else st.2)

/-- The values expected after some calls. -/
def expected (calls : List Call) : ℤ → Option Bytes :=
  (calls.foldl (track hash) (Dict.empty, fun _ => none)).2

/-- The root values of a call. -/
def Call.values : Call → List Bytes
  | put _ _ _ roots => roots.map Prod.snd
  | delete _ _ _ => []

/-- Values with equal StateGroupIds are equal. -/
def Canonical (values : List Bytes) : Prop :=
  ∀ v ∈ values, ∀ v' ∈ values, ∀ id, stateGroupIdFromRootValue hash v = .ok id →
    stateGroupIdFromRootValue hash v' = .ok id → v = v'

theorem track_fst (calls : List Call) :
    (calls.foldl (track hash) (Dict.empty, fun _ => none)).1 = runCalls hash calls := by
  induction calls using List.reverseRecOn with
  | nil => rfl
  | append_singleton calls call ih =>
    rw [foldl_append, runCalls_concat, ← ih]
    rfl

theorem expected_concat (calls : List Call) (call : Call) :
    expected hash (calls ++ [call]) =
      if (call.apply hash (runCalls hash calls)).2.isOk then call.effect (expected hash calls)
      else expected hash calls := by
  rw [expected, foldl_append, ← track_fst]
  rfl

end

/-! ### The invariant -/

/-- Each state group resolves to its value by two hops. -/
structure Resolves (hash : Hashes C) (seen : List Bytes) (s : Store) (values : ℤ → Option Bytes) :
    Prop where
  hit : ∀ {g v}, values g = some v → v ∈ seen ∧ ∃ id, stateGroupIdFromRootValue hash v = .ok id ∧
    s.read (.pointer g) = some id.1 ∧ s.read (.root id) = some v
  miss : ∀ {g}, values g = none → s.read (.pointer g) = none

variable {id : StateGroupId} {values : ℤ → Option Bytes} {seen : List Bytes}

theorem stateGroupId_of_forRoom {value roomPrefix : Bytes}
    (h : stateGroupIdFromRootValueForRoom hash value roomPrefix = .ok id) :
    stateGroupIdFromRootValue hash value = .ok id := by
  rw [stateGroupIdFromRootValueForRoom] at h
  split at h
  · cases h
  · split at h
    · cases h
    · split at h
      · cases h
      · exact h

omit [DecidableEq C] in
/-- A live pointer's root is the value of the state group. -/
theorem Resolves.root_of_pointer {seen : List Bytes} {values : ℤ → Option Bytes}
    (h : Resolves hash seen s values) {g : ℤ}
    (hp : s.read (.pointer g) = some id.1) :
    ∃ v ∈ seen, values g = some v ∧ stateGroupIdFromRootValue hash v = .ok id ∧
      s.read (.root id) = some v := by
  cases hg : values g with
  | none =>
    rw [h.miss hg] at hp
    cases hp
  | some v =>
    obtain ⟨hseen, i, hi, hpi, hr⟩ := h.hit hg
    obtain rfl : i = id := Subtype.ext (Option.mem_unique hpi hp)
    exact ⟨v, hseen, rfl, hi, hr⟩

theorem putValue_eq_some {roots : List (ℤ × Bytes)} {g : ℤ} {v : Bytes}
    (h : putValue roots g = some v) : (g, v) ∈ roots := by
  obtain ⟨⟨g', v'⟩, hfind, rfl⟩ := Option.map_eq_some_iff.mp h
  have hg := find?_some hfind
  simp only [decide_eq_true_eq] at hg
  exact hg ▸ mem_reverse.mp (mem_of_find?_eq_some hfind)

theorem putValue_eq_none {roots : List (ℤ × Bytes)} {g : ℤ} (h : putValue roots g = none) :
    ∀ v, (g, v) ∉ roots := by
  intro v hv
  rw [putValue, Option.map_eq_none_iff, find?_eq_none] at h
  exact h (g, v) (mem_reverse.mpr hv) (by simp)

/-! ### Puts -/

section Put

variable {walk : HashOrder} {roomPrefix : Bytes}
  {roots : List (ℤ × Bytes)} {v : Validated} {d : Store}

/-- A stored root stays when a plan is written. -/
theorem PutPlan.read_root_of_some {l : List Root} (hd : PutPlan s l d) {b : Bytes}
    (hr : s.read (.root id) = some b) : Store.read (s.update d.entries) (.root id) = some b := by
  rw [read_update_dict]
  cases hk : d.get? (.root id) with
  | none => exact hr
  | some b' =>
    obtain ⟨e, -, -, -, -, hnone⟩ := (hd.root id b').mp hk
    rw [hr] at hnone
    cases hnone

theorem Resolves.put (h : Resolves hash seen s values) (hc : Counted s)
    (hcan : Canonical hash (seen ++ roots.map Prod.snd)) (hv : Validates hash roomPrefix roots v)
    (hd : PutPlan s (walk.order v.1.entries) d) :
    Resolves hash (seen ++ roots.map Prod.snd) (s.update d.entries)
      fun g => (putValue roots g).or (values g) := by
  refine ⟨fun {g b} hb => ?_, fun {g} hb => ?_⟩
  · cases hput : putValue roots g with
    | none =>
      -- not in the batch: pointer and root are as before
      rw [hput, Option.none_or] at hb
      obtain ⟨hseen, id, hid, hp, hr⟩ := h.hit hb
      exact ⟨mem_append_left _ hseen, id, hid, hd.read_pointer.mpr (.inl hp), hd.read_root_of_some hr⟩
    | some b' =>
      rw [hput, Option.some_or, Option.some.injEq] at hb
      subst hb
      have hmem := putValue_eq_some hput
      have hnew : b' ∈ seen ++ roots.map Prod.snd :=
        mem_append_right _ (mem_map_of_mem hmem)
      obtain ⟨id, hget⟩ := hv.complete _ hmem
      obtain ⟨-, hroom, hsem⟩ := hv.sound hget
      have hid := stateGroupId_of_forRoom hroom
      have he : (g, id, b') ∈ walk.order v.1.entries :=
        (walk.perm _).mem_iff.mpr (Dict.get?_eq_some_iff.mp hget)
      refine ⟨hnew, id, hid, ?_, ?_⟩
      · cases hp : s.read (.pointer g) with
        | none => exact hd.read_pointer.mpr (.inr ⟨hp, _, he, rfl, rfl⟩)
        | some b₀ => exact hd.read_pointer.mpr (.inl (hd.agrees _ he b₀ hp ▸ hp))
      · cases hr : s.read (.root id) with
        | some b₀ =>
          -- the shared copy is there: some state group points at it, and its value is the same
          have hpos := (hc.roots id).mp (by rw [hr]; rfl)
          obtain ⟨g₀, hg₀⟩ := Finset.card_pos.mp (Nat.pos_of_ne_zero hpos)
          obtain ⟨v₀, hv₀, -, hid₀, hr₀⟩ := h.root_of_pointer (mem_livePointers.mp hg₀)
          have hb₀ : b₀ = v₀ := Option.mem_unique hr hr₀
          have hsame := hcan v₀ (mem_append_left _ hv₀) b' hnew id hid₀ hid
          rw [hd.read_root_of_some hr, hb₀, hsame]
        | none =>
          have hp : s.read (.pointer g) = none := by
            cases hp : s.read (.pointer g) with
            | none => rfl
            | some b₀ =>
              obtain ⟨v₀, -, -, -, hr₀⟩ := h.root_of_pointer (hd.agrees _ he b₀ hp ▸ hp)
              rw [hr] at hr₀
              cases hr₀
          have hroot := (hd.root id b').mpr ⟨_, he, rfl, rfl, hp, hr⟩
          rw [read_update_dict, hroot]
          exact present_of_ne ((hv.roots_ne walk).2 _ he)
  · rw [Option.or_eq_none_iff] at hb
    have hnot := putValue_eq_none hb.1
    cases hp : Store.read (s.update d.entries) (.pointer g) with
    | none => rfl
    | some b =>
      rcases hd.read_pointer.mp hp with hp | ⟨-, e, he, rfl, -⟩
      · rw [h.miss hb.2] at hp
        cases hp
      · have hget := Dict.get?_eq_some_iff.mpr ((walk.perm _).mem_iff.mp he)
        exact absurd (hv.sound hget).1 (hnot _)

end Put

/-! ### Deletes -/

omit [DecidableEq C] in
theorem Resolves.delete {groups : List ℤ} {pairs : List (NodeId × Bytes)} (h : Resolves hash seen s values)
    (hd : DeletePlan s groups pairs) (hg : groups.Nodup) :
    Resolves hash seen (s.update pairs) fun g => if g ∈ groups then none else values g := by
  refine ⟨fun {g v} hv => ?_, fun {g} hv => ?_⟩
  · by_cases hgm : g ∈ groups
    · rw [if_pos hgm] at hv
      cases hv
    · rw [if_neg hgm] at hv
      obtain ⟨hseen, id, hid, hp, hr⟩ := h.hit hv
      refine ⟨hseen, id, hid, by rw [hd.read_pointer, if_neg hgm, hp], ?_⟩
      -- this state group keeps pointing at the root, so it is not freed
      have hlt : dropped s groups id < refs s id := by
        rw [dropped_eq_card hg]
        refine Finset.card_lt_card (Finset.ssubset_iff_subset_ne.mpr ⟨Finset.inter_subset_left, ?_⟩)
        intro heq
        have hlive := mem_livePointers.mpr hp
        rw [← heq, Finset.mem_inter, mem_toFinset] at hlive
        exact hgm hlive.2
      rw [hd.read_root, if_neg fun h => h.2 hlt, hr]
  · rw [hd.read_pointer]
    by_cases hgm : g ∈ groups
    · rw [if_pos hgm]
    · rw [if_neg hgm] at hv ⊢
      exact h.miss hv

/-! ### Every run -/

/-- A successful call keeps every state group resolved. -/
theorem Resolves.apply
    (h : Resolves hash seen s values) (call : Call) (hc : Counted s) (hcan : Canonical hash (seen ++ call.values)) :
    Resolves hash (seen ++ call.values) (call.apply hash s).1
      (if (call.apply hash s).2.isOk then call.effect values else values) := by
  have hmono : Resolves hash (seen ++ call.values) s values :=
    ⟨fun hg => ⟨mem_append_left _ (h.hit hg).1, (h.hit hg).2⟩, h.miss⟩
  cases call with
  | put walk stored roomPrefix roots =>
    rcases apply_put_cases hash hc walk stored roomPrefix roots with ⟨e, he, -⟩ | ⟨v, d, hv, hplan, he⟩
    · rw [he]
      exact hmono
    · rw [he]
      exact h.put hc hcan hv hplan
  | delete walk stored stateGroups =>
    rcases apply_delete_cases hash hc walk stored stateGroups with ⟨e, he, -⟩ | ⟨pairs, hplan, he⟩
    · rw [he]
      exact hmono
    · rw [he]
      have hres := hmono.delete hplan (nodup_addAll _ nodup_nil)
      simp only [mem_addAll, not_mem_nil, false_or] at hres
      exact hres

omit [DecidableEq C] in
theorem Canonical.mono {l l' : List Bytes} (h : Canonical hash l') (hl : ∀ v ∈ l, v ∈ l') :
    Canonical hash l :=
  fun v hv v' hv' => h v (hl v hv) v' (hl v' hv')

theorem resolves_runCalls (calls : List Call) (hcan : Canonical hash (calls.flatMap Call.values)) :
    Resolves hash (calls.flatMap Call.values) (runCalls hash calls) (expected hash calls) := by
  induction calls using List.reverseRecOn with
  | nil => exact ⟨fun h => absurd h (by simp [expected]), fun _ => rfl⟩
  | append_singleton calls call ih =>
    rw [flatMap_append, flatMap_singleton] at hcan ⊢
    rw [runCalls_concat, expected_concat]
    exact (ih (hcan.mono fun v hv => mem_append_left _ hv)).apply call (counted_runCalls hash calls) hcan

/-! ### Reads -/

/-- A read follows each pointer and looks the root up among those fetched. -/
theorem Counted.getStateHamtRoots (hc : Counted s) (groups : List ℤ) : getStateHamtRoots s groups =
      .ok (groups.map fun g => (pointerOf s g).bind fun id => s.read (.root id)) := by
  have hpointers : groups.mapM (StateRoots.readPointer s) = .ok (groups.map (pointerOf s)) :=
    mapM_eq_ok fun g _ => hc.readPointer g
  rw [StateRoots.getStateHamtRoots, hpointers]
  refine congrArg ok ?_
  rw [map_map]
  refine map_congr_left fun g hg => ?_
  rw [Function.comp_apply]
  cases hp : pointerOf s g with
  | none => rfl
  | some i =>
    have hwanted : i ∈ addAll [] ((groups.map (pointerOf s)).filterMap id) :=
      mem_addAll.mpr (.inr (mem_filterMap.mpr ⟨some i, mem_map.mpr ⟨g, hg, hp⟩, rfl⟩))
    rw [Option.bind_some, Option.bind_some,
      Dict.get?_ofList_map fun j => s.read (.root j), if_pos hwanted]
    rfl

omit [DecidableEq C] in
/-- The resolved state groups are what a read gives. -/
theorem Resolves.getStateHamtRoots (h : Resolves hash seen s values) (hc : Counted s) (groups : List ℤ) :
    getStateHamtRoots s groups = .ok (groups.map values) := by
  rw [hc.getStateHamtRoots]
  refine congrArg ok (map_congr_left fun g _ => ?_)
  cases hg : values g with
  | none =>
    have hp : pointerOf s g = none := by
      refine Option.eq_none_iff_forall_ne_some.mpr fun id hid => ?_
      rw [hc.pointerOf_eq_some, h.miss hg] at hid
      cases hid
    rw [hp]
    rfl
  | some v =>
    obtain ⟨-, id, -, hp, hr⟩ := h.hit hg
    rw [hc.pointerOf_eq_some.mpr hp, Option.bind_some, hr]

/-- After any calls whose equal StateGroupIds stand for equal values, a read gives each requested
    state group the value put last and not deleted since, in order and with repeats; a delete leaves
    the reads of all state groups it does not list as they were. -/
theorem reads_latest_root (hash : Hashes C) (calls : List Call)
    (hcan : Canonical hash (calls.flatMap Call.values)) :
    (∀ groups, getStateHamtRoots (runCalls hash calls) groups = .ok (groups.map (expected hash calls))) ∧
    ∀ walk stored stateGroups groups, (∀ g ∈ groups, g ∉ stateGroups) →
      getStateHamtRoots ((Call.delete walk stored stateGroups).apply hash (runCalls hash calls)).1 groups =
        getStateHamtRoots (runCalls hash calls) groups := by
  have h := resolves_runCalls calls hcan
  have hc := counted_runCalls hash calls
  refine ⟨h.getStateHamtRoots hc, fun walk stored stateGroups groups hg => ?_⟩
  set call := Call.delete walk stored stateGroups
  have h' := h.apply call hc (hcan.mono fun v hv => by simpa [call, Call.values] using hv)
  rw [h'.getStateHamtRoots (hc.apply hash call).1, h.getStateHamtRoots hc]
  refine congrArg ok (map_congr_left fun g hgm => ?_)
  split
  · exact if_neg (hg g hgm)
  · rfl

/-- An encoded root of the room `!r` under an empty prefix. -/
def sampleRoot : Bytes :=
  rootMagic ++ [0, 0] ++ [0, 2] ++ [33, 114] ++ List.replicate 32 7 ++ List.replicate 2048 0

/-- Every lattice has the same StateGroupId and every room the same collection. -/
def sampleHashes : Hashes Unit :=
  ⟨fun _ => ⟨List.replicate 32 1, rfl⟩, fun _ => (), fun _ => ()⟩

def sampleWalk : HashOrder := ⟨fun l => l, fun l => .refl l⟩

/-- Two state groups share a root; the first is deleted. -/
def sampleCalls : List Call :=
  [.put sampleWalk true [] [(41, sampleRoot), (42, sampleRoot)], .delete sampleWalk true [41]]

theorem reads_latest_root_shared : getStateHamtRoots (runCalls sampleHashes sampleCalls) [42, 41, 42] =
      .ok [some sampleRoot, none, some sampleRoot] := by
  have hcan : Canonical sampleHashes (sampleCalls.flatMap Call.values) := by
    intro v hv v' hv' id _ _
    simp only [sampleCalls, flatMap_cons, flatMap_nil, Call.values, map_cons,
      map_nil, append_nil, mem_cons, not_mem_nil, or_false, or_self] at hv hv'
    rw [hv, hv']
  rw [(reads_latest_root sampleHashes sampleCalls hcan).1]
  have hvalues : [42, 41, 42].map (expected sampleHashes sampleCalls) =
      [some sampleRoot, none, some sampleRoot] := by decide +kernel
  rw [hvalues]

end Sithnapse.StateRoots
