import Sithnapse.Kit.Outcome
import Sithnapse.StateRoots.Records

/-! What puts and deletes write.

    `Counted` is the invariant of the store: the count record of a StateGroupId is the number of state
    groups that point at it, and the count and the encoded root are there exactly while that number is
    positive. Over such a store a put plans one reference for each state group that had no pointer
    (`PutPlan`), and a delete takes away one for each distinct state group that had one
    (`DeletePlan`). Neither ends in an error branch for counts that do not fit their pointers. -/

namespace Sithnapse.StateRoots

open Kit Kit.Dict List

variable {C : Type} [DecidableEq C] {s : Store} {id : StateGroupId} {g : ℤ}

/-! ### Reading after a write -/

/-- The contents a record has once it is written. -/
def present (b : Bytes) : Option Bytes := if b = [] then none else some b

theorem read_update_dict (s d : Store) (k : NodeId) :
    Store.read (s.update d.entries) k = match d.get? k with
      | some b => present b
      | none => s.read k := by
  rw [Store.read, get?_update_entries]
  cases d.get? k with
  | none => rfl
  | some b => by_cases hb : b = [] <;> simp [present, hb]

theorem present_of_ne {b : Bytes} (h : b ≠ []) : present b = some b := if_neg h

theorem id_ne_nil (id : StateGroupId) : id.1 ≠ [] := by
  intro h
  have := id.2
  rw [h] at this
  cases this

theorem beBytes_ne_nil (n : ℕ) : beBytes 8 n ≠ [] := ne_nil_of_length_eq_add_one (length_beBytes 8 n)

/-! ### Live pointers -/

/-- The state group of a pointer record. -/
def NodeId.stateGroup? : NodeId → Option ℤ
  | .pointer g => some g
  | _ => none

/-- The state groups that point at a StateGroupId. -/
def livePointers (s : Store) (id : StateGroupId) : Finset ℤ :=
  (s.keys.filterMap NodeId.stateGroup?).toFinset.filter fun g => s.read (.pointer g) = some id.1

theorem mem_livePointers : g ∈ livePointers s id ↔ s.read (.pointer g) = some id.1 := by
  rw [livePointers, Finset.mem_filter, mem_toFinset, mem_filterMap]
  refine ⟨fun h => h.2, fun h => ⟨⟨.pointer g, ?_, rfl⟩, h⟩⟩
  obtain ⟨hget, -⟩ := Option.filter_eq_some_iff.mp h
  exact mem_keys_iff.mpr ⟨_, hget⟩

/-- The number of live pointers. -/
def refs (s : Store) (id : StateGroupId) : ℕ := (livePointers s id).card

/-- A positive count, or none. -/
def countOf (n : ℕ) : Option ℕ := if n = 0 then none else some n

/-- The records agree with the live pointers. -/
structure Counted (s : Store) : Prop where
  pointers : ∀ {g b}, s.read (.pointer g) = some b → b.length = 32
  counts : ∀ id, s.read (.refcount id) = (countOf (refs s id)).map (beBytes 8)
  bound : ∀ id, refs s id < 2 ^ 64
  roots : ∀ id, (s.read (.root id)).isSome ↔ refs s id ≠ 0

theorem Counted.empty : Counted (Dict.empty : Store) := by
  have hrefs : ∀ id, refs (Dict.empty : Store) id = 0 := fun id => rfl
  refine ⟨fun h => absurd h (by simp [Store.read]), fun id => ?_, fun id => ?_, fun id => ?_⟩
  · rw [hrefs]
    rfl
  · rw [hrefs]
    decide
  · simp [hrefs, Store.read]

theorem Counted.readCount (h : Counted s) (id : StateGroupId) :
    readCount s id = .ok (countOf (refs s id)) := by
  rw [StateRoots.readCount, h.counts, countOf]
  split
  · rename_i hn
    rw [Option.map_eq_none_iff] at hn
    rw [hn]
  · rename_i b hb
    by_cases h0 : refs s id = 0
    · simp [h0] at hb
    · simp only [if_neg h0, Option.map_some, Option.some.injEq] at hb ⊢
      rw [← hb, decodeCount, if_pos (length_beBytes 8 _), beValue_beBytes 8 _ (h.bound id)]
      rfl

/-- The id a state group points at, `none` for a record that is no pointer. -/
def pointerOf (s : Store) (g : ℤ) : Option StateGroupId := ((readPointer s g).toOption).join

theorem Counted.readPointer (h : Counted s) (g : ℤ) : readPointer s g = .ok (pointerOf s g) := by
  rw [pointerOf, StateRoots.readPointer]
  cases hb : s.read (.pointer g) with
  | none => rfl
  | some b =>
    simp only [decodePointer, dif_pos (h.pointers hb)]
    rfl

theorem Counted.pointerOf_eq_some (h : Counted s) :
    pointerOf s g = some id ↔ s.read (.pointer g) = some id.1 := by
  rw [pointerOf, StateRoots.readPointer]
  cases hb : s.read (.pointer g) with
  | none => simp [Except.toOption]
  | some b =>
    simp only [decodePointer, dif_pos (h.pointers hb), Except.map, Except.toOption, Option.join_some,
      Option.some.injEq]
    exact Subtype.ext_iff

/-! ### Errors that remain possible -/

/-- The error branches for counts that do not fit their pointers. -/
def Failure.miscount : Failure → Bool
  | .countTooSmall | .noCount | .uninitializedCount => true
  | _ => false

/-- A call's computation that does not end in one of those branches. -/
abbrev Fits {α : Type} (Q : α → Prop) (x : Except Failure α) : Prop :=
  Outcome (fun e => e.miscount = false) Q x

theorem rootRecordParts_fits (value : Bytes) : Fits (fun _ => value ≠ []) (rootRecordParts value) := by
  rw [rootRecordParts]
  split_ifs with hv
  · rfl
  · have hne : value ≠ [] := by
      rintro rfl
      exact hv (.inl (by simp))
    dsimp only
    split
    · rfl
    · split
      · rfl
      · split
        · rfl
        · exact hne

theorem stateGroupId_fits (hash : Hashes C) (value roomPrefix : Bytes) :
    Fits (fun _ => value ≠ []) (stateGroupIdFromRootValueForRoom hash value roomPrefix) := by
  have h := rootRecordParts_fits value
  rw [stateGroupIdFromRootValueForRoom, stateGroupIdFromRootValue]
  cases hp : rootRecordParts value with
  | error e =>
    rw [hp] at h
    exact h
  | ok parts =>
    rw [hp] at h
    dsimp only
    split
    · rfl
    · split
      · rfl
      · exact h

theorem checkRoot_fits (hash : Hashes C) (s : Store) (roomPrefix : Bytes) (id : StateGroupId) :
    Fits (fun _ => True) (checkRoot hash s roomPrefix id) := by
  rw [checkRoot]
  split
  · trivial
  · refine (stateGroupId_fits hash _ roomPrefix).bind fun actual _ => ?_
    split
    · rfl
    · trivial

theorem mapM_readCount (h : Counted s) (ids : List StateGroupId) :
    (ids.mapM fun i => (readCount s i).map (i, ·)) = .ok (ids.map fun i => (i, countOf (refs s i))) :=
  mapM_eq_ok fun i _ => by rw [h.readCount]; rfl

/-! ### Putting -/

/-- A validated root: state group, StateGroupId and value. -/
abbrev Root := ℤ × StateGroupId × Bytes

/-- What validation establishes about a batch. -/
structure Validates (hash : Hashes C) (roomPrefix : Bytes) (roots : List (ℤ × Bytes)) (v : Validated) :
    Prop where
  sound : ∀ {g e}, v.1.get? g = some e → (g, e.2) ∈ roots ∧
    stateGroupIdFromRootValueForRoom hash e.2 roomPrefix = .ok e.1 ∧ v.2.get? e.1 = some e.2
  complete : ∀ r ∈ roots, ∃ i, v.1.get? r.1 = some (i, r.2)
  ids : ∀ {i}, i ∈ v.2.keys → ∃ g b, v.1.get? g = some (i, b)

theorem validateRoot_fits {hash : Hashes C} {roomPrefix : Bytes} {pre : List (ℤ × Bytes)}
    {v : Validated} (h : Validates hash roomPrefix pre v) (root : ℤ × Bytes) :
    Fits (Validates hash roomPrefix (pre ++ [root])) (validateRoot hash roomPrefix v root) := by
  -- what remembering one more root leaves true of the batch
  have hadd : ∀ i, stateGroupIdFromRootValueForRoom hash root.2 roomPrefix = .ok i →
      v.1.get? root.1 = none → (∀ b, v.2.get? i = some b → b = root.2) →
      Validates hash roomPrefix (pre ++ [root]) (v.1.set root.1 (i, root.2), v.2.set i root.2) := by
    intro i hi hnone hsame
    refine ⟨fun {g e} he => ?_, fun r hr => ?_, fun {j} hj => ?_⟩
    · rcases get?_set_cases he with ⟨hg, rfl⟩ | he
      · refine ⟨by simp [hg], hi, get?_set_self _ _ _⟩
      · obtain ⟨hmem, hid, hval⟩ := h.sound he
        refine ⟨mem_append_left _ hmem, hid, ?_⟩
        by_cases hij : e.1 = i
        · rw [hij, get?_set_self, hsame e.2 (hij ▸ hval)]
        · rw [get?_set_ne _ _ hij, hval]
    · by_cases hrg : r.1 = root.1
      · rcases mem_concat.mp hr with hr | rfl
        · obtain ⟨j, hj⟩ := h.complete r hr
          rw [hrg, hnone] at hj
          cases hj
        · exact ⟨i, get?_set_self _ _ _⟩
      · obtain ⟨j, hj⟩ := h.complete r ((mem_concat.mp hr).resolve_right fun hr => hrg (congrArg Prod.fst hr))
        exact ⟨j, by rw [get?_set_ne _ _ hrg, hj]⟩
    · rcases mem_keys_set.mp hj with rfl | hj
      · exact ⟨root.1, root.2, get?_set_self _ _ _⟩
      · obtain ⟨g, b, hg⟩ := h.ids hj
        have hne : g ≠ root.1 := by
          rintro rfl
          rw [hnone] at hg
          cases hg
        exact ⟨g, b, by rw [get?_set_ne _ _ hne, hg]⟩
  have hparse := stateGroupId_fits hash root.2 roomPrefix
  rw [validateRoot]
  cases hi : stateGroupIdFromRootValueForRoom hash root.2 roomPrefix with
  | error e =>
    rw [hi] at hparse
    exact hparse
  | ok i =>
    dsimp only [bind, Except.bind]
    cases hg : v.1.get? root.1 with
    | some previous =>
      dsimp only
      split
      · rfl
      · -- the same root again
        rename_i hsame
        push Not at hsame
        refine ⟨fun {g e} he => ?_, forall_mem_concat.mpr ⟨h.complete, i, ?_⟩, h.ids⟩
        · obtain ⟨hmem, hid, hval⟩ := h.sound he
          exact ⟨mem_append_left _ hmem, hid, hval⟩
        · rw [hg, ← hsame.1, ← hsame.2]
    | none =>
      cases hp : v.2.get? i with
      | none => exact hadd i hi hg fun b hb => absurd (hp.symm.trans hb) (by simp)
      | some previous =>
        dsimp only
        split_ifs with hsame
        · rfl
        · rw [not_not] at hsame
          exact hadd i hi hg fun b hb => (Option.mem_unique hp hb).symm.trans hsame

theorem validateRoots_fits (hash : Hashes C) (roomPrefix : Bytes) (roots : List (ℤ × Bytes)) :
    Fits (Validates hash roomPrefix roots)
      (roots.foldlM (validateRoot hash roomPrefix) (Dict.empty, Dict.empty)) := by
  refine Outcome.foldlM _ (Validates hash roomPrefix) roots ⟨?_, ?_, ?_⟩ ?_
  · intro g e he
    cases he
  · intro r hr
    cases hr
  · intro i hi
    exact absurd hi (by simp [Dict.keys, Dict.empty])
  · rintro pre root _ v - hv
    exact validateRoot_fits hv root

/-- How many of some roots are new pointers to an id. -/
def fresh (s : Store) (l : List Root) (id : StateGroupId) : ℕ :=
  l.countP fun e => e.2.1 = id ∧ s.read (.pointer e.1) = none

theorem fresh_concat (s : Store) (l : List Root) (e : Root) (id : StateGroupId) :
    fresh s (l ++ [e]) id = fresh s l id + if e.2.1 = id ∧ s.read (.pointer e.1) = none then 1 else 0 := by
  simp only [fresh, countP_append, countP_singleton, decide_eq_true_eq]

/-- What the write loop has accumulated over some roots. -/
structure Written (s : Store) (base : Dict StateGroupId (Option ℕ)) (pre : List Root) (w : Writes) :
    Prop where
  pairs : ∀ p, p ∈ w.pairs ↔ ∃ e ∈ pre, s.read (.pointer e.1) = none ∧
    (p = (.pointer e.1, e.2.1.1) ∨ (p = (.root e.2.1, e.2.2) ∧ s.read (.root e.2.1) = none))
  changed : ∀ id, id ∈ w.changed ↔ fresh s pre id ≠ 0
  kept : ∀ id, fresh s pre id = 0 → w.counts.getD id none = base.getD id none
  counts : ∀ id, fresh s pre id ≠ 0 → w.counts.getD id none = some (refs s id + fresh s pre id)
  bound : ∀ id, fresh s pre id ≠ 0 → refs s id + fresh s pre id < 2 ^ 64
  agrees : ∀ e ∈ pre, ∀ b, s.read (.pointer e.1) = some b → b = e.2.1.1

variable {base : Dict StateGroupId (Option ℕ)}

/-- One more reference to an id: the count the loop holds, and the branches it does not take. -/
theorem nextCount_fits (h : Counted s) {pre : List Root}
    {w : Writes} (hw : Written s base pre w) (hbase : base.getD id none = countOf (refs s id)) :
    Fits (fun c => c = refs s id + fresh s pre id + 1 ∧ c < 2 ^ 64) (nextCount s w.counts id) := by
  -- the count held is the references plus the new ones, `none` standing for zero
  have hheld : w.counts.getD id none = countOf (refs s id + fresh s pre id) := by
    by_cases hf : fresh s pre id = 0
    · rw [hw.kept id hf, hbase, hf, Nat.add_zero]
    · rw [hw.counts id hf, countOf, if_neg (by omega)]
  rw [nextCount, hheld, countOf]
  by_cases h0 : refs s id + fresh s pre id = 0
  · rw [if_pos h0]
    have hroot : (s.read (.root id)).isSome = false := by
      rw [← Bool.not_eq_true, h.roots]
      omega
    simp only [hroot, Bool.false_eq_true, if_false, outcome_ok]
    exact ⟨by omega, by decide⟩
  · rw [if_neg h0]
    dsimp only
    split_ifs with hlt
    · exact ⟨rfl, hlt⟩
    · rfl

theorem addPointer_fits (h : Counted s) {pre : List Root}
    {w : Writes} (hw : Written s base pre w) {e : Root}
    (hbase : base.getD e.2.1 none = countOf (refs s e.2.1)) :
    Fits (Written s base (pre ++ [e])) (addPointer s w e) := by
  rw [addPointer]
  cases hp : s.read (.pointer e.1) with
  | some b =>
    -- an existing pointer: nothing is written
    have hf : ∀ i, fresh s (pre ++ [e]) i = fresh s pre i := fun i => by
      rw [fresh_concat, hp, if_neg (by simp), Nat.add_zero]
    dsimp only
    split_ifs with hb
    · refine ⟨fun p => ?_, ?_, ?_, ?_, ?_, ?_⟩
      · rw [hw.pairs]
        constructor
        · rintro ⟨e', he', hrest⟩
          exact ⟨e', mem_append_left _ he', hrest⟩
        · rintro ⟨e', he', hnone, hrest⟩
          rcases mem_concat.mp he' with he' | he'
          · exact ⟨e', he', hnone, hrest⟩
          · rw [he', hp] at hnone
            cases hnone
      · intro i
        rw [hf, hw.changed]
      · intro i hi
        exact hw.kept i (hf i ▸ hi)
      · intro i hi
        rw [hf] at hi ⊢
        exact hw.counts i hi
      · intro i hi
        rw [hf] at hi ⊢
        exact hw.bound i hi
      · exact forall_mem_concat.mpr ⟨hw.agrees, fun b' hb' => (Option.mem_unique hp hb').symm.trans hb⟩
    · rfl
  | none =>
    have hself : fresh s (pre ++ [e]) e.2.1 = fresh s pre e.2.1 + 1 := by
      rw [fresh_concat, hp, if_pos ⟨rfl, rfl⟩]
    have hother : ∀ i, i ≠ e.2.1 → fresh s (pre ++ [e]) i = fresh s pre i := fun i hi => by
      rw [fresh_concat, if_neg fun hc => hi hc.1.symm, Nat.add_zero]
    refine (nextCount_fits h hw hbase).bind fun c hc => ?_
    obtain ⟨hc, hlt⟩ := hc
    refine ⟨fun p => ?_, fun i => ?_, fun i hi => ?_, fun i hi => ?_, fun i hi => ?_, fun e' he' b' hb' => ?_⟩
    · have hroot : p ∈ (if (s.read (.root e.2.1)).isSome = true then []
          else [(NodeId.root e.2.1, e.2.2)]) ↔ p = (.root e.2.1, e.2.2) ∧ s.read (.root e.2.1) = none := by
        cases s.read (.root e.2.1) <;> simp
      simp only [mem_append, hw.pairs, mem_singleton, hroot]
      constructor
      · rintro ((⟨e', he', hrest⟩ | hr) | hr)
        · exact ⟨e', .inl he', hrest⟩
        · exact ⟨e, .inr rfl, hp, .inr hr⟩
        · exact ⟨e, .inr rfl, hp, .inl hr⟩
      · rintro ⟨e', he' | rfl, hnone, hrest⟩
        · exact .inl (.inl ⟨e', he', hnone, hrest⟩)
        · rcases hrest with hr | hr
          · exact .inr hr
          · exact .inl (.inr hr)
    · rw [mem_addIf, hw.changed]
      by_cases hi : i = e.2.1
      · rw [hi, hself]
        simp
      · rw [hother i hi]
        simp [hi]
    · have hne : i ≠ e.2.1 := by
        rintro rfl
        omega
      rw [getD_set, if_neg hne]
      exact hw.kept i (hother i hne ▸ hi)
    · rw [getD_set]
      by_cases hie : i = e.2.1
      · rw [if_pos hie, hie, hself, hc, Nat.add_assoc]
      · rw [if_neg hie, hother i hie]
        exact hw.counts i (hother i hie ▸ hi)
    · by_cases hie : i = e.2.1
      · rw [hie, hself]
        omega
      · rw [hother i hie]
        exact hw.bound i (hother i hie ▸ hi)
    · rcases mem_concat.mp he' with he' | he'
      · exact hw.agrees e' he' b' hb'
      · rw [he', hp] at hb'
        cases hb'

/-- A batch without contradictory records becomes a dictionary of them. -/
theorem deduplicate_fits (pairs : List (NodeId × Bytes)) :
    Fits (fun d => ∀ k b, d.get? k = some b ↔ (k, b) ∈ pairs) (deduplicateRootNodePairs pairs) := by
  refine Outcome.foldlM _ (fun pre (d : Store) => ∀ k b, d.get? k = some b ↔ (k, b) ∈ pre) pairs ?_ ?_
  · intro k b
    simp
  · rintro pre ⟨k₀, b₀⟩ _ d - hd
    cases hg : d.get? k₀ with
    | some previous =>
      dsimp only
      split_ifs with hsame
      · rfl
      · rw [not_not] at hsame
        intro k b
        rw [hd, mem_append, mem_singleton]
        refine ⟨.inl, ?_⟩
        rintro (hmem | he)
        · exact hmem
        · obtain ⟨rfl, rfl⟩ := Prod.mk.inj he
          exact (hd k b).mp (hsame ▸ hg)
    | none =>
      intro k b
      rw [get?_set, mem_append, mem_singleton, Prod.mk.injEq]
      rcases eq_or_ne k k₀ with rfl | hk
      · have hnot : (k, b) ∉ pre := fun hmem => by
          rw [← hd, hg] at hmem
          cases hmem
        rw [if_pos rfl, Option.some.injEq]
        exact ⟨fun hb => .inr ⟨rfl, hb.symm⟩, fun hb => (hb.resolve_left hnot).2.symm⟩
      · rw [if_neg hk, hd]
        simp [hk]

/-- The records a put writes, over the stored ones. -/
structure PutPlan (s : Store) (l : List Root) (d : Store) : Prop where
  pointer : ∀ g b, d.get? (.pointer g) = some b ↔ ∃ e ∈ l, e.1 = g ∧ s.read (.pointer g) = none ∧ b = e.2.1.1
  root : ∀ id b, d.get? (.root id) = some b ↔
    ∃ e ∈ l, e.2.1 = id ∧ e.2.2 = b ∧ s.read (.pointer e.1) = none ∧ s.read (.root id) = none
  refcount : ∀ id b, d.get? (.refcount id) = some b ↔
    fresh s l id ≠ 0 ∧ b = beBytes 8 (refs s id + fresh s l id)
  bound : ∀ id, fresh s l id ≠ 0 → refs s id + fresh s l id < 2 ^ 64
  agrees : ∀ e ∈ l, ∀ b, s.read (.pointer e.1) = some b → b = e.2.1.1

theorem mem_countPairs {w : Writes} {entries : List (StateGroupId × Option ℕ)}
    (hperm : entries.Perm w.counts.entries) {p : NodeId × Bytes} :
    p ∈ countPairs w entries ↔
      ∃ i c, i ∈ w.changed ∧ w.counts.get? i = some (some c) ∧ p = (.refcount i, beBytes 8 c) := by
  rw [countPairs, mem_filterMap]
  constructor
  · rintro ⟨⟨i, o⟩, hmem, he⟩
    split at he
    · rename_i hi
      obtain ⟨c, rfl, hc⟩ := Option.map_eq_some_iff.mp he
      exact ⟨i, c, hi, get?_eq_some_iff.mpr (hperm.mem_iff.mp hmem), hc.symm⟩
    · cases he
  · rintro ⟨i, c, hi, hget, rfl⟩
    refine ⟨(i, some c), hperm.mem_iff.mpr (get?_eq_some_iff.mp hget), ?_⟩
    simp [hi]

/-- The accumulated writes, once free of contradictions, are a plan. -/
theorem Written.plan {l : List Root} {w : Writes}
    (hw : Written s base l w) {entries : List (StateGroupId × Option ℕ)}
    (hperm : entries.Perm w.counts.entries) {d : Store}
    (hd : ∀ k b, d.get? k = some b ↔ (k, b) ∈ w.pairs ++ countPairs w entries) : PutPlan s l d := by
  have hmem : ∀ k b, d.get? k = some b ↔ (k, b) ∈ w.pairs ∨
      ∃ i c, i ∈ w.changed ∧ w.counts.get? i = some (some c) ∧ (k, b) = (.refcount i, beBytes 8 c) :=
    fun k b => by rw [hd, mem_append, mem_countPairs hperm]
  refine ⟨fun g b => ?_, fun id b => ?_, fun id b => ?_, hw.bound, hw.agrees⟩
  · rw [hmem, hw.pairs]
    constructor
    · rintro (⟨e, he, hnone, hk | ⟨hk, -⟩⟩ | ⟨i, c, -, -, hk⟩)
      · cases hk
        exact ⟨e, he, rfl, hnone, rfl⟩
      · cases hk
      · cases hk
    · rintro ⟨e, he, rfl, hnone, rfl⟩
      exact .inl ⟨e, he, hnone, .inl rfl⟩
  · rw [hmem, hw.pairs]
    constructor
    · rintro (⟨e, he, hnone, hk | ⟨hk, hroot⟩⟩ | ⟨i, c, -, -, hk⟩)
      · cases hk
      · cases hk
        exact ⟨e, he, rfl, rfl, hnone, hroot⟩
      · cases hk
    · rintro ⟨e, he, rfl, rfl, hnone, hroot⟩
      exact .inl ⟨e, he, hnone, .inr ⟨rfl, hroot⟩⟩
  · rw [hmem, hw.pairs]
    constructor
    · rintro (⟨e, he, hnone, hk | ⟨hk, hroot⟩⟩ | ⟨i, c, hi, hget, hk⟩)
      · cases hk
      · cases hk
      · cases hk
        have hf := (hw.changed id).mp hi
        have hc := hw.counts id hf
        rw [getD_of_get? hget] at hc
        exact ⟨hf, by rw [Option.some.inj hc]⟩
    · rintro ⟨hf, rfl⟩
      refine .inr ⟨id, _, (hw.changed id).mpr hf, ?_, rfl⟩
      have hc := hw.counts id hf
      rw [Dict.getD] at hc
      cases hget : w.counts.get? id with
      | none => simp [hget] at hc
      | some o => rw [hget] at hc; exact congrArg some hc

theorem planPut_fits (h : Counted s) (hash : Hashes C) (walk : HashOrder) (roomPrefix : Bytes)
    (roots : List (ℤ × Bytes)) :
    Fits (fun d => ∃ v, Validates hash roomPrefix roots v ∧ PutPlan s (walk.order v.1.entries) d)
      (planPut hash walk s roomPrefix roots) := by
  rw [planPut]
  refine (validateRoots_fits hash roomPrefix roots).bind fun v hv => ?_
  refine (Outcome.mapM fun i _ => checkRoot_fits hash s roomPrefix i).bind
    fun _ _ => ?_
  rw [mapM_readCount h]
  set base := Dict.ofList ((walk.order v.2.keys).map fun i => (i, countOf (refs s i))) with hbase
  have hget : ∀ e ∈ walk.order v.1.entries, base.getD e.2.1 none = countOf (refs s e.2.1) := by
    intro e he
    have hv₁ := get?_eq_some_iff.mpr ((walk.perm _).mem_iff.mp he)
    have hkey : e.2.1 ∈ walk.order v.2.keys :=
      (walk.perm _).mem_iff.mpr (mem_keys_iff.mpr ⟨_, (hv.sound hv₁).2.2⟩)
    rw [hbase, Dict.getD, get?_ofList_map, if_pos hkey]
    rfl
  refine Outcome.bind (P := Written s base (walk.order v.1.entries)) ?_ fun w hw =>
    (deduplicate_fits _).mono fun d hd => ⟨v, hv, hw.plan (walk.perm _) hd⟩
  refine Outcome.foldlM _ (Written s base) _ ⟨?_, ?_, fun _ _ => rfl, ?_, ?_, by simp⟩ ?_
  · simp
  · simp [fresh]
  · simp [fresh]
  · simp [fresh]
  · rintro pre e post w hl hw
    exact addPointer_fits h hw (hget e (by rw [hl]; simp))

/-! ### Deleting -/

/-- How many of some state groups point at an id. -/
def dropped (s : Store) (groups : List ℤ) (id : StateGroupId) : ℕ :=
  groups.countP fun g => s.read (.pointer g) = some id.1

/-- The records a delete writes, over the stored ones. -/
structure DeletePlan (s : Store) (groups : List ℤ) (pairs : List (NodeId × Bytes)) : Prop where
  pointer : ∀ g b, (NodeId.pointer g, b) ∈ pairs ↔ g ∈ groups ∧ b = []
  refcount : ∀ id b, (NodeId.refcount id, b) ∈ pairs ↔ dropped s groups id ≠ 0 ∧
    b = if dropped s groups id < refs s id then beBytes 8 (refs s id - dropped s groups id) else []
  root : ∀ id b, (NodeId.root id, b) ∈ pairs ↔ dropped s groups id ≠ 0 ∧
    ¬ dropped s groups id < refs s id ∧ b = []

theorem dropped_eq_card {groups : List ℤ} (hg : groups.Nodup) (id : StateGroupId) :
    dropped s groups id = (livePointers s id ∩ groups.toFinset).card := by
  have hset : livePointers s id ∩ groups.toFinset =
      (groups.filter fun g => s.read (.pointer g) = some id.1).toFinset := by
    ext g
    simp [mem_livePointers, and_comm]
  rw [hset, toFinset_card_of_nodup (hg.filter _), dropped, countP_eq_length_filter]

theorem dropped_le {groups : List ℤ} (hg : groups.Nodup) (id : StateGroupId) :
    dropped s groups id ≤ refs s id := by
  rw [dropped_eq_card hg]
  exact Finset.card_le_card Finset.inter_subset_left

theorem addDecrement_fits (pointers : List (Option StateGroupId)) :
    Fits (fun d => ∀ id, d.get? id = countOf (pointers.count (some id)))
      (pointers.foldlM addDecrement Dict.empty) := by
  refine Outcome.foldlM _
    (fun pre (d : Dict StateGroupId ℕ) => ∀ id, d.get? id = countOf (pre.count (some id))) pointers ?_ ?_
  · intro id
    rfl
  · rintro pre (_ | i) _ d - hd
    · intro id
      rw [hd, count_append]
      simp
    · have hget : d.getD i 0 = pre.count (some i) := by
        rw [Dict.getD, hd, countOf]
        split_ifs with h0
        · rw [h0]
          rfl
        · rfl
      rw [addDecrement]
      split
      · intro id
        rw [get?_set, count_append, hget]
        rcases eq_or_ne id i with rfl | hi
        · simp [countOf]
        · rw [if_neg hi, hd]
          simp [Ne.symm hi]
      · rfl

/-- The records of an id that loses `n` of its `refs` pointers. -/
def releasedPairs (s : Store) (e : StateGroupId × ℕ) : List (NodeId × Bytes) :=
  if e.2 < refs s e.1 then [(.refcount e.1, beBytes 8 (refs s e.1 - e.2))]
  else [(.refcount e.1, []), (.root e.1, [])]

theorem planDelete_fits (h : Counted s) (walk : HashOrder) (stateGroups : List ℤ) :
    Fits (DeletePlan s (addAll [] stateGroups)) (planDelete walk s stateGroups) := by
  set groups := addAll [] stateGroups with hgroups
  have hnd : groups.Nodup := nodup_addAll _ nodup_nil
  have hpointers : groups.mapM (readPointer s) = .ok (groups.map (pointerOf s)) :=
    mapM_eq_ok fun g _ => h.readPointer g
  have hcount : ∀ id, (groups.map (pointerOf s)).count (some id) = dropped s groups id := by
    intro id
    rw [List.count, countP_map, dropped]
    refine countP_congr fun g _ => ?_
    simp [h.pointerOf_eq_some]
  rw [planDelete, ← hgroups, hpointers]
  set ids := walk.order (addAll [] ((groups.map (pointerOf s)).filterMap id)) with hids
  refine Outcome.bind (P := fun counts => counts = ids.map fun i => (i, countOf (refs s i)))
    (by rw [mapM_readCount h]; exact rfl) ?_
  rintro counts rfl
  refine (addDecrement_fits (groups.map (pointerOf s))).bind fun d hd => ?_
  -- an id that loses pointers has that many, so its count is there and large enough
  have hentry : ∀ e ∈ walk.order d.entries, e.2 = dropped s groups e.1 ∧ e.2 ≠ 0 := by
    intro e he
    have hget := get?_eq_some_iff.mpr ((walk.perm _).mem_iff.mp he)
    rw [hd, hcount, countOf] at hget
    split at hget
    · cases hget
    · rename_i h0
      have := Option.some.inj hget
      exact ⟨this.symm, this ▸ h0⟩
  have hreleased : ((walk.order d.entries).mapM fun e =>
      releasePairs ((Dict.ofList (ids.map fun i => (i, countOf (refs s i)))).getD e.1 none) e.1 e.2) =
      .ok ((walk.order d.entries).map (releasedPairs s)) := by
    refine mapM_eq_ok fun e he => ?_
    obtain ⟨hn, h0⟩ := hentry e he
    have hle := dropped_le (s := s) hnd e.1
    have hmem : e.1 ∈ ids := by
      rw [hids, (walk.perm _).mem_iff, mem_addAll, mem_filterMap]
      refine .inr ⟨some e.1, ?_, rfl⟩
      rw [← count_pos_iff, hcount]
      omega
    rw [Dict.getD, get?_ofList_map, if_pos hmem, Option.getD_some, countOf,
      if_neg (by omega), releasePairs, releasedPairs]
    split
    · omega
    · split
      · rfl
      · rfl
  refine Outcome.bind
    (by rw [hreleased]; exact rfl) ?_
  rintro released rfl
  have hmem : ∀ k b, (k, b) ∈ ((walk.order d.entries).map (releasedPairs s)).flatten ↔
      ∃ i, dropped s groups i ≠ 0 ∧ (k, b) ∈ releasedPairs s (i, dropped s groups i) := by
    intro k b
    rw [mem_flatten]
    constructor
    · rintro ⟨ps, hps, hkb⟩
      obtain ⟨⟨i, n⟩, he, rfl⟩ := mem_map.mp hps
      obtain ⟨hn, h0⟩ := hentry _ he
      dsimp only at hn h0
      subst hn
      exact ⟨i, h0, hkb⟩
    · rintro ⟨i, h0, hkb⟩
      refine ⟨_, mem_map_of_mem ((walk.perm _).mem_iff.mpr ?_), hkb⟩
      rw [← get?_eq_some_iff, hd, hcount, countOf, if_neg h0]
  refine ⟨fun g b => ?_, fun id b => ?_, fun id b => ?_⟩
  · rw [mem_append, hmem, mem_map]
    constructor
    · rintro (⟨g', hg', hk⟩ | ⟨i, -, hkb⟩)
      · cases hk
        exact ⟨hg', rfl⟩
      · rw [releasedPairs] at hkb
        split at hkb <;> simp at hkb
    · rintro ⟨hg, rfl⟩
      exact .inl ⟨g, hg, rfl⟩
  · rw [mem_append, hmem, mem_map]
    constructor
    · rintro (⟨g', -, hk⟩ | ⟨i, h0, hkb⟩)
      · cases hk
      · rw [releasedPairs] at hkb
        split at hkb <;> rename_i hlt <;> simp at hkb <;> obtain ⟨rfl, rfl⟩ := hkb
        · exact ⟨h0, (if_pos hlt).symm⟩
        · exact ⟨h0, (if_neg hlt).symm⟩
    · rintro ⟨h0, rfl⟩
      refine .inr ⟨id, h0, ?_⟩
      rw [releasedPairs]
      split <;> simp
  · rw [mem_append, hmem, mem_map]
    constructor
    · rintro (⟨g', -, hk⟩ | ⟨i, h0, hkb⟩)
      · cases hk
      · rw [releasedPairs] at hkb
        split at hkb <;> rename_i hlt <;> simp at hkb
        obtain ⟨rfl, rfl⟩ := hkb
        exact ⟨h0, hlt, rfl⟩
    · rintro ⟨h0, hlt, rfl⟩
      refine .inr ⟨id, h0, ?_⟩
      rw [releasedPairs, if_neg hlt]
      simp

end Sithnapse.StateRoots
