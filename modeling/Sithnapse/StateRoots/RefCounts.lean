import Sithnapse.StateRoots.Plans

/-! Reference counts of StateGroupIds.

    Writing what a put or a delete has planned keeps the counts equal to the numbers of live pointers,
    so they are in every store the calls reach, and the error branches for counts that do not fit
    their pointers are never taken. -/

namespace Sithnapse.StateRoots

open Kit List

variable {C : Type} [DecidableEq C] {s : Store} {id : StateGroupId} {g : ℤ}

/-! ### The store after a put -/

/-- The state groups among some roots that are new pointers to an id. -/
def freshGroups (s : Store) (l : List Root) (id : StateGroupId) : Finset ℤ :=
  ((l.filter fun e => e.2.1 = id ∧ s.read (.pointer e.1) = none).map Prod.fst).toFinset

theorem mem_freshGroups {l : List Root} :
    g ∈ freshGroups s l id ↔ s.read (.pointer g) = none ∧ ∃ b, (g, id, b) ∈ l := by
  simp only [freshGroups, mem_toFinset, mem_map, mem_filter, decide_eq_true_eq]
  constructor
  · rintro ⟨⟨g', i, b⟩, ⟨hmem, rfl, hnone⟩, rfl⟩
    exact ⟨hnone, b, hmem⟩
  · rintro ⟨hnone, b, hmem⟩
    exact ⟨(g, id, b), ⟨hmem, rfl, hnone⟩, rfl⟩

theorem card_freshGroups {l : List Root} (hl : (l.map Prod.fst).Nodup) :
    (freshGroups s l id).card = fresh s l id := by
  rw [freshGroups, toFinset_card_of_nodup, length_map, fresh, countP_eq_length_filter]
  exact hl.sublist (filter_sublist.map Prod.fst)

section Put

variable {l : List Root} {d : Store}

variable (hd : PutPlan s l d)

include hd

theorem PutPlan.read_pointer {b : Bytes} :
    Store.read (s.update d.entries) (.pointer g) = some b ↔
      s.read (.pointer g) = some b ∨ (s.read (.pointer g) = none ∧ ∃ e ∈ l, e.1 = g ∧ b = e.2.1.1) := by
  rw [read_update_dict]
  cases hk : d.get? (.pointer g) with
  | some b' =>
    obtain ⟨e, he, hg, hnone, rfl⟩ := (hd.pointer g b').mp hk
    dsimp only
    rw [present_of_ne (id_ne_nil _), hnone]
    refine ⟨fun hb => .inr ⟨rfl, e, he, hg, (Option.some.inj hb).symm⟩, ?_⟩
    rintro (hb | ⟨-, e', he', hg', rfl⟩)
    · cases hb
    · -- two roots of the batch with this group have the same id
      have := (hd.pointer g e'.2.1.1).mpr ⟨e', he', hg', hnone, rfl⟩
      rw [hk] at this
      exact this
  | none =>
    refine ⟨.inl, ?_⟩
    rintro (hb | ⟨hnone, e, he, hg, rfl⟩)
    · exact hb
    · have := (hd.pointer g e.2.1.1).mpr ⟨e, he, hg, hnone, rfl⟩
      rw [hk] at this
      cases this

theorem PutPlan.livePointers (id : StateGroupId) :
    livePointers (s.update d.entries) id = livePointers s id ∪ freshGroups s l id := by
  ext g
  rw [Finset.mem_union, mem_livePointers, mem_livePointers, hd.read_pointer, mem_freshGroups]
  refine or_congr_right (and_congr_right fun _ => ?_)
  constructor
  · rintro ⟨⟨g', i, b⟩, he, rfl, hid⟩
    obtain rfl := Subtype.ext hid
    exact ⟨b, he⟩
  · rintro ⟨b, he⟩
    exact ⟨(g, id, b), he, rfl, rfl⟩

theorem PutPlan.refs (hl : (l.map Prod.fst).Nodup) (id : StateGroupId) :
    refs (s.update d.entries) id = refs s id + fresh s l id := by
  have hdisj : Disjoint (StateRoots.livePointers s id) (freshGroups s l id) := by
    rw [Finset.disjoint_left]
    intro g hg hf
    rw [mem_livePointers, (mem_freshGroups.mp hf).1] at hg
    cases hg
  rw [StateRoots.refs, hd.livePointers, Finset.card_union_of_disjoint hdisj, card_freshGroups hl]
  rfl

theorem Counted.put (h : Counted s) (hl : (l.map Prod.fst).Nodup)
    (hne : ∀ e ∈ l, e.2.2 ≠ []) : Counted (s.update d.entries) := by
  refine ⟨fun {g b} hb => ?_, fun id => ?_, fun id => ?_, fun id => ?_⟩
  · rcases hd.read_pointer.mp hb with hb | ⟨-, e, -, -, rfl⟩
    · exact h.pointers hb
    · exact e.2.1.2
  · rw [read_update_dict, hd.refs hl]
    by_cases hf : fresh s l id = 0
    · have hk : d.get? (.refcount id) = none :=
        Option.eq_none_iff_forall_ne_some.mpr fun b hb => ((hd.refcount id b).mp hb).1 hf
      rw [hk, hf]
      exact h.counts id
    · rw [(hd.refcount id _).mpr ⟨hf, rfl⟩, countOf, if_neg (by omega)]
      exact present_of_ne (beBytes_ne_nil _)
  · rw [hd.refs hl]
    by_cases hf : fresh s l id = 0
    · rw [hf]
      exact h.bound id
    · exact hd.bound id hf
  · rw [hd.refs hl, read_update_dict]
    cases hk : d.get? (.root id) with
    | some b =>
      obtain ⟨e, he, rfl, rfl, hnone, -⟩ := (hd.root id b).mp hk
      have hpos : 0 < fresh s l e.2.1 :=
        countP_pos_iff.mpr ⟨e, he, by simp [hnone]⟩
      dsimp only
      rw [present_of_ne (hne e he)]
      simp only [Option.isSome_some, true_iff]
      omega
    | none =>
      rw [h.roots]
      refine ⟨fun hr => by omega, fun hr => ?_⟩
      by_contra hr₀
      have hpos : 0 < fresh s l id := by omega
      obtain ⟨e, he, hcond⟩ := countP_pos_iff.mp hpos
      obtain ⟨rfl, hnone⟩ := of_decide_eq_true hcond
      have hroot : s.read (.root e.2.1) = none := by
        rw [← Option.not_isSome_iff_eq_none, h.roots]
        exact not_not.mpr hr₀
      have := (hd.root e.2.1 e.2.2).mpr ⟨e, he, rfl, rfl, hnone, hroot⟩
      rw [hk] at this
      cases this

end Put

/-! ### The store after a delete -/

theorem read_update_of_iff {pairs : List (NodeId × Bytes)} {k : NodeId} {b : Bytes} {P : Prop} [Decidable P]
    (s : Store) (h : ∀ b', (k, b') ∈ pairs ↔ P ∧ b' = b) :
    Store.read (s.update pairs) k = if P then present b else s.read k := by
  rw [Store.read, Dict.get?_update_of_iff s h]
  split
  · by_cases hb : b = [] <;> simp [present, hb]
  · rfl

section Delete

variable {groups : List ℤ} {pairs : List (NodeId × Bytes)}

variable (hd : DeletePlan s groups pairs)

include hd

theorem DeletePlan.read_pointer (g : ℤ) :
    Store.read (s.update pairs) (.pointer g) = if g ∈ groups then none else s.read (.pointer g) :=
  read_update_of_iff s (hd.pointer g)

theorem DeletePlan.read_root (id : StateGroupId) : Store.read (s.update pairs) (.root id) =
    if dropped s groups id ≠ 0 ∧ ¬ dropped s groups id < refs s id then none else s.read (.root id) :=
  read_update_of_iff s fun b => (hd.root id b).trans and_assoc.symm

theorem DeletePlan.refs (hg : groups.Nodup) (id : StateGroupId) :
    refs (s.update pairs) id = refs s id - dropped s groups id := by
  have hlive : livePointers (s.update pairs) id = livePointers s id \ groups.toFinset := by
    ext g
    rw [Finset.mem_sdiff, mem_livePointers, mem_livePointers, hd.read_pointer, mem_toFinset]
    by_cases hgm : g ∈ groups <;> simp [hgm]
  rw [StateRoots.refs, hlive, dropped_eq_card hg, Finset.card_sdiff, Finset.inter_comm]
  rfl

theorem Counted.delete (h : Counted s) (hg : groups.Nodup) :
    Counted (s.update pairs) := by
  refine ⟨fun {g b} hb => ?_, fun id => ?_, fun id => ?_, fun id => ?_⟩
  · rw [hd.read_pointer] at hb
    split at hb
    · cases hb
    · exact h.pointers hb
  · have hle := dropped_le (s := s) hg id
    rw [hd.refs hg, read_update_of_iff s (hd.refcount id)]
    by_cases h0 : dropped s groups id = 0
    · rw [if_neg (not_not.mpr h0), h0, Nat.sub_zero]
      exact h.counts id
    · rw [if_pos h0, countOf]
      split
      · rw [present_of_ne (beBytes_ne_nil _), if_neg (by omega)]
        rfl
      · rw [if_pos (by omega)]
        rfl
  · rw [hd.refs hg]
    exact (Nat.sub_le _ _).trans_lt (h.bound id)
  · have hle := dropped_le (s := s) hg id
    rw [hd.refs hg, hd.read_root]
    split_ifs with hfree
    · simp only [Option.isSome_none, Bool.false_eq_true, false_iff]
      omega
    · rw [h.roots]
      omega

end Delete

/-! ### Every run -/

variable (hash : Hashes C)

section Cases

variable (h : Counted s) (walk : HashOrder) (stored : Bool)

include h

/-- A put leaves what it planned, or nothing when the plan or the storage engine fails. -/
theorem apply_put_cases (roomPrefix : Bytes) (roots : List (ℤ × Bytes)) :
    (∃ e, (Call.put walk stored roomPrefix roots).apply hash s = (s, .error e) ∧ e.miscount = false) ∨
    ∃ v d, Validates hash roomPrefix roots v ∧ PutPlan s (walk.order v.1.entries) d ∧
      (Call.put walk stored roomPrefix roots).apply hash s = (s.update d.entries, .ok ()) := by
  have hplan := planPut_fits h hash walk roomPrefix roots
  rw [Call.apply]
  generalize planPut hash walk s roomPrefix roots = plan at hplan ⊢
  cases plan with
  | error e => exact .inl ⟨e, rfl, hplan⟩
  | ok d =>
    obtain ⟨v, hv, hplan⟩ := hplan
    cases stored with
    | false => exact .inl ⟨.storage, rfl, rfl⟩
    | true => exact .inr ⟨v, d, hv, hplan, rfl⟩

theorem apply_delete_cases (stateGroups : List ℤ) :
    (∃ e, (Call.delete walk stored stateGroups).apply hash s = (s, .error e) ∧ e.miscount = false) ∨
    ∃ pairs, DeletePlan s (addAll [] stateGroups) pairs ∧
      (Call.delete walk stored stateGroups).apply hash s = (s.update pairs, .ok ()) := by
  have hplan := planDelete_fits h walk stateGroups
  rw [Call.apply]
  generalize planDelete walk s stateGroups = plan at hplan ⊢
  cases plan with
  | error e => exact .inl ⟨e, rfl, hplan⟩
  | ok pairs =>
    cases stored with
    | false => exact .inl ⟨.storage, rfl, rfl⟩
    | true => exact .inr ⟨pairs, hplan, rfl⟩

end Cases

theorem Validates.roots_ne {hash : Hashes C} {roomPrefix : Bytes} {roots : List (ℤ × Bytes)}
    {v : Validated} (hv : Validates hash roomPrefix roots v) (walk : HashOrder) :
    ((walk.order v.1.entries).map Prod.fst).Nodup ∧ ∀ e ∈ walk.order v.1.entries, e.2.2 ≠ [] := by
  refine ⟨((walk.perm _).map Prod.fst).nodup_iff.mpr v.1.nodup, fun e he => ?_⟩
  have hid := (hv.sound (Dict.get?_eq_some_iff.mpr ((walk.perm _).mem_iff.mp he))).2.1
  have hne := stateGroupId_fits hash e.2.2 roomPrefix
  rw [hid] at hne
  exact hne

/-- A call keeps the counts right; if it fails, the store is as before and the failure is not a
    miscount. -/
theorem Counted.apply (h : Counted s) (hash : Hashes C) (call : Call) :
    Counted (call.apply hash s).1 ∧ ∀ e, (call.apply hash s).2 = .error e →
      (call.apply hash s).1 = s ∧ e.miscount = false := by
  cases call with
  | put walk stored roomPrefix roots =>
    rcases apply_put_cases hash h walk stored roomPrefix roots with ⟨e, he, hno⟩ | ⟨v, d, hv, hplan, he⟩
    · rw [he]
      exact ⟨h, fun e' he' => ⟨rfl, Except.error.inj he' ▸ hno⟩⟩
    · obtain ⟨hnd, hne⟩ := hv.roots_ne walk
      rw [he]
      exact ⟨h.put hplan hnd hne, nofun⟩
  | delete walk stored stateGroups =>
    rcases apply_delete_cases hash h walk stored stateGroups with ⟨e, he, hno⟩ | ⟨pairs, hplan, he⟩
    · rw [he]
      exact ⟨h, fun e' he' => ⟨rfl, Except.error.inj he' ▸ hno⟩⟩
    · rw [he]
      exact ⟨h.delete hplan (nodup_addAll _ nodup_nil), nofun⟩

theorem runCalls_concat (calls : List Call) (call : Call) :
    runCalls hash (calls ++ [call]) = (call.apply hash (runCalls hash calls)).1 := by
  rw [runCalls, foldl_append]
  rfl

theorem counted_runCalls (calls : List Call) : Counted (runCalls hash calls) := by
  induction calls using List.reverseRecOn with
  | nil => exact Counted.empty
  | append_singleton calls call ih =>
    rw [runCalls_concat]
    exact (ih.apply hash call).1

/-- The reference count stored for an id, 0 without a record. -/
def storedCount (s : Store) (id : StateGroupId) : ℕ := ((s.read (.refcount id)).map beValue).getD 0

/-- After any calls, failed ones included: counts are the numbers of live pointers, counts and roots
    are there exactly while that number is positive, and the next call, if it fails, changes nothing
    and does not fail by a miscount. -/
theorem reference_counts_exact (calls : List Call) :
    (∀ id, storedCount (runCalls hash calls) id = refs (runCalls hash calls) id ∧
      (((runCalls hash calls).read (.refcount id)).isSome ↔ 0 < refs (runCalls hash calls) id) ∧
      (((runCalls hash calls).read (.root id)).isSome ↔ 0 < refs (runCalls hash calls) id)) ∧
    ∀ (call : Call) (e : Failure), (call.apply hash (runCalls hash calls)).2 = .error e →
      (call.apply hash (runCalls hash calls)).1 = runCalls hash calls ∧
        e ≠ .countTooSmall ∧ e ≠ .noCount ∧ e ≠ .uninitializedCount := by
  have h := counted_runCalls hash calls
  refine ⟨fun id => ⟨?_, ?_, ?_⟩, fun call e he => ?_⟩
  · rw [storedCount, h.counts, countOf]
    split_ifs with h0
    · rw [h0]
      rfl
    · rw [Option.map_some, Option.map_some, Option.getD_some, beValue_beBytes 8 _ (h.bound id)]
  · rw [h.counts, countOf, Nat.pos_iff_ne_zero]
    split_ifs with h0
    · simp [h0]
    · simp [h0]
  · rw [h.roots, Nat.pos_iff_ne_zero]
  · obtain ⟨hsame, hmis⟩ := (h.apply hash call).2 e he
    refine ⟨hsame, ?_, ?_, ?_⟩ <;> rintro rfl <;> exact absurd hmis (by simp [Failure.miscount])

end Sithnapse.StateRoots
