import Sithnapse.SlidingSync.RequiredState

/-! What one response does to the record of what the client has.

    Say which entries a client knows, that is, for which it has received the value that is current at
    the position it is at. The record kept for the room is right if everything the remembered map covers
    and every lazily returned member is known (`Record`). A response at a later time makes known what it
    sends, and keeps known what did not change; the record it leaves behind is right again, except that
    `_required_state_changes` overlooks two kinds of requests (`Careful`). -/

namespace Sithnapse.SlidingSync

open Finset Option

variable {T K : Type} [DecidableEq T] [DecidableEq K]

/-- What `get_room_sync_data` finds out for one request. -/
structure SyncData (T K : Type) where
  wanted : Wanted T K
  changes : RequiredStateChanges T K

/-- A later response in a room, given the lazy members reported as returned before. -/
def syncData (user : K) (order : SetOrder T K) (prev request : RequiredStateMap T K)
    (timelineMembership : Finset K) (limited : Bool) (deltas : List (Entry T K))
    (previouslyReturned : Finset (StateKey K)) : SyncData T K :=
  let w := wanted user request timelineMembership limited deltas
  ⟨w, requiredStateChanges user order prev request previouslyReturned w.lazyLoadUserIds deltas⟩

/-- The response contains the entry if the entry has a value. -/
def SyncData.Sends (d : SyncData T K) (deltas : List (Entry T K)) (e : Entry T K) : Prop :=
  (e ∈ deltas ∨ d.changes.addedStateFilter.Matches e) ∧ d.wanted.requiredStateFilter.Matches e

instance (d : SyncData T K) (deltas : List (Entry T K)) (e : Entry T K) : Decidable (d.Sends deltas e) :=
  inferInstanceAs (Decidable (_ ∧ _))

/-- What is known after the response. -/
def SyncData.After (d : SyncData T K) (deltas : List (Entry T K)) (known : Entry T K → Prop) (e : Entry T K) :
    Prop := d.Sends deltas e ∨ known e ∧ e ∉ deltas

/-- A remembered map and the lazily returned members are right about what is known. With a wildcard for the
    type in the map, everything has been sent. -/
structure Record (user : K) (known : Entry T K → Prop) (map : RequiredStateMap T K)
    (returned : Set (StateKey K)) : Prop where
  covered : ∀ e, Covers user map e → known e
  everything : (map.keys .wildcard).Nonempty → ∀ e, known e
  members : ∀ u ∈ returned, known (.member, u)

/-- If `$LAZY` is added, the other members named are covered already, reported as returned, or have changed. -/
def LazyAddedAlone (user : K) (old request previouslyReturned changed : Finset (StateKey K)) : Prop :=
  .lazy ∉ old → .lazy ∈ request → ∀ k ∈ request, k = .lazy ∨ .wildcard ∈ old ∨
    k ≠ .wildcard ∧ (KeysCover user old (normalized user k) ∨
      normalized user k ∈ previouslyReturned ∨ normalized user k ∈ changed)
  deriving Decidable

/-- If `$ME` is given up for other keys of the type, the user's own entry is still covered or has not changed. -/
def MeGivenUpUnchanged (user : K) (s : TypeKeys K) : Prop :=
  .me ∈ s.old → .me ∉ s.request → (s.request \ s.old).Nonempty → .named user ∈ s.changed →
    KeysCover user s.request (.named user)
  deriving Decidable

/-- The requests `_required_state_changes` handles: with a type wildcard in one of the maps, or else as above. -/
def Careful (user : K) (prev request : RequiredStateMap T K) (previouslyReturned : Finset (StateKey K))
    (deltas : List (Entry T K)) : Prop :=
  prev.keys .wildcard = ∅ → request.keys .wildcard = ∅ →
    LazyAddedAlone user (prev.keys .member) (request.keys .member) previouslyReturned
      (changedKeys deltas .member) ∧
    ∀ t ∈ prev.types, MeGivenUpUnchanged user (typeKeys prev request deltas t)
  deriving Decidable

/-! ### One event type -/

section Passes

variable {user : K} {order : SetOrder T K} {previouslyReturned : Finset (StateKey K)} {t : EventType T}
  {s : TypeKeys K} {k : StateKey K}

variable {keys : Finset (StateKey K)}

/-- An explicit key of a set, with the key it stands for. -/
theorem mem_explicit {k : StateKey K} : k ∈ explicit keys ↔ k ∈ keys ∧ k ≠ .wildcard ∧ k ≠ .lazy := by
  rw [explicit, mem_sdiff, mem_insert, mem_singleton, not_or]

theorem keysCover_of_mem (hk : k ∈ keys) (hexplicit : k ≠ .wildcard ∧ k ≠ .lazy) :
    KeysCover user keys (normalized user k) := .inr (mem_image_of_mem _ (mem_explicit.mpr ⟨hk, hexplicit⟩))

/-- A key is covered by a wildcard, or by an explicit key that stands for it. -/
theorem KeysCover.cases (h : KeysCover user keys k) : .wildcard ∈ keys ∨
    ∃ k' ∈ keys, (k' ≠ .wildcard ∧ k' ≠ .lazy) ∧ normalized user k' = k := by
  refine h.imp_right fun hkey => ?_
  obtain ⟨k', hk', rfl⟩ := mem_image.mp hkey
  obtain ⟨hmem, hexplicit⟩ := mem_explicit.mp hk'
  exact ⟨k', hmem, hexplicit, rfl⟩

/-- What may be remembered of a type: what is requested, and what was remembered and has not changed. -/
def Kept (user : K) (s : TypeKeys K) (k : StateKey K) : Prop :=
  KeysCover user s.request k ∨ KeysCover user s.old k ∧ k ∉ s.changed

omit [DecidableEq K] in
/-- `$ME` is kept apart from the keys that stand for themselves. -/
theorem normalized_of_ne_me (hk : k ≠ .me) : normalized user k = k := by
  cases k with
  | me => exact absurd rfl hk
  | wildcard => rfl
  | lazy => rfl
  | named _ => rfl

/-- The previous keys that are kept are requested again, or their entries have not changed; for `$ME` this
    needs to be asked. -/
theorem inheritable_unchanged (hme : .me ∈ s.old → .me ∉ s.request → .named user ∈ s.changed →
    KeysCover user s.request (.named user)) (hk : k ∈ s.inheritable) : Kept user s (normalized user k) := by
  obtain ⟨hold, hkept⟩ := mem_sdiff.mp hk
  obtain ⟨hmem, hexplicit⟩ := mem_explicit.mp hold
  by_cases hreq : k ∈ s.request
  · exact .inl (keysCover_of_mem hreq hexplicit)
  · have hunchanged : k ∉ s.changed := fun hc =>
      hkept (mem_inter.mpr ⟨mem_sdiff.mpr ⟨hmem, hreq⟩, hc⟩)
    rcases eq_or_ne k .me with rfl | hkme
    · by_cases hc : .named user ∈ s.changed
      · exact .inl (hme hmem hreq hc)
      · exact .inr ⟨keysCover_of_mem hmem hexplicit, hc⟩
    · refine .inr ⟨keysCover_of_mem hmem hexplicit, ?_⟩
      rwa [normalized_of_ne_me hkme]

omit [DecidableEq T] in
theorem extended_subset (order : SetOrder T K) (s : TypeKeys K) :
    s.extended order ⊆ s.request ∪ s.inheritable := by
  rw [TypeKeys.extended]
  split
  · split
    · exact union_subset_union_right (order.islice_subset _ _)
    · exact subset_union_left
  · exact Subset.refl _

/-- What the first loop remembers for a type. -/
theorem firstPass_remembers (hme : MeGivenUpUnchanged user s)
    (h : (firstPass user order previouslyReturned t s).1 = some keys) (hk : KeysCover user keys k) :
    Kept user s k := by
  rw [firstPass] at h
  split at h
  · cases h
  split at h
  · cases h
  rename_i hadds
  split at h
  · cases h
    exact .inl hk
  cases h
  rcases (hk.mono (extended_subset order s)).cases with hwild | ⟨k', hmem, hexplicit, rfl⟩
  · rcases mem_union.mp hwild with hwild | hwild
    · exact .inl (.inl hwild)
    · exact absurd rfl (mem_explicit.mp (mem_sdiff.mp hwild).1).2.1
  · rcases mem_union.mp hmem with hreq | hinherit
    · exact .inl (keysCover_of_mem hreq hexplicit)
    · exact inheritable_unchanged
        (fun h₁ h₂ h₃ => hme h₁ h₂ (nonempty_iff_ne_empty.mpr hadds) h₃) hinherit

/-- The keys that count as changed in the second loop. -/
def TypeKeys.withMe (user : K) (s : TypeKeys K) : TypeKeys K :=
  if .named user ∈ s.changed then { s with changed := insert .me s.changed } else s

theorem withMe_fields (user : K) (s : TypeKeys K) :
    (s.withMe user).old = s.old ∧ (s.withMe user).request = s.request := by
  rw [TypeKeys.withMe]
  split <;> exact ⟨rfl, rfl⟩

/-- A key whose entry changed counts as changed. -/
theorem mem_changed_withMe (h : normalized user k ∈ s.changed) : k ∈ (s.withMe user).changed := by
  rw [TypeKeys.withMe]
  rcases eq_or_ne k .me with rfl | hkme
  · rw [if_pos (show .named user ∈ s.changed from h)]
    exact mem_insert_self _ _
  · rw [normalized_of_ne_me hkme] at h
    split
    · exact mem_insert_of_mem h
    · exact h

/-- An old key that is not invalidated is requested, or its entry has not changed. -/
theorem kept_of_valid (hmem : k ∈ s.old) (hexplicit : k ≠ .wildcard ∧ k ≠ .lazy)
    (hvalid : k ∉ (s.withMe user).invalidated) : Kept user s (normalized user k) := by
  obtain ⟨hold, hrequest⟩ := withMe_fields user s
  by_cases hreq : k ∈ s.request
  · exact .inl (keysCover_of_mem hreq hexplicit)
  · refine .inr ⟨keysCover_of_mem hmem hexplicit, fun hc => hvalid ?_⟩
    rw [TypeKeys.invalidated, hold, hrequest]
    exact mem_inter.mpr ⟨mem_sdiff.mpr ⟨hmem, hreq⟩, mem_changed_withMe hc⟩

/-- What the second loop remembers for a type. -/
theorem secondPass_remembers (h : secondPass user t s = some keys) (hk : KeysCover user keys k) :
    Kept user s k := by
  obtain ⟨hold, hrequest⟩ := withMe_fields user s
  rw [secondPass] at h
  split at h
  · cases h
  simp only [← TypeKeys.withMe.eq_1, hold, hrequest] at h
  split at h
  · cases h
  split at h
  · cases h
    exact .inl hk
  rename_i hwild
  split at h
  · cases h
    exact .inl hk
  split at h
  · cases h
    exact .inl hk
  split at h
  · cases h
    rcases hk.cases with hmem | ⟨k', hmem, hexplicit, rfl⟩
    · exact .inl (.inl (decide_eq_decide.mp (not_ne_iff.mp hwild) |>.mp (mem_sdiff.mp hmem).1))
    · obtain ⟨hmem, hvalid⟩ := mem_sdiff.mp hmem
      exact kept_of_valid hmem hexplicit hvalid
  · cases h

/-- A type that neither loop puts into `changes` keeps its keys, and may. -/
theorem unchanged_remembers (hfirst : (firstPass user order previouslyReturned t s).1 = none)
    (hsecond : secondPass user t s = none ∨ ∀ k, k ∉ s.changed) (hk : KeysCover user s.old k) :
    Kept user s k := by
  obtain ⟨hold, hrequest⟩ := withMe_fields user s
  rcases hsecond with hsecond | hnone
  · rw [firstPass] at hfirst
    rw [secondPass] at hsecond
    split at hfirst
    · rename_i heq
      exact .inl (heq ▸ hk)
    rename_i hne
    split at hfirst
    · rename_i hadds
      rw [if_neg hne] at hsecond
      simp only [← TypeKeys.withMe.eq_1, hold, hrequest] at hsecond
      rw [if_neg (not_nonempty_iff_eq_empty.mpr hadds)] at hsecond
      split at hsecond
      · cases hsecond
      rename_i hwild
      split at hsecond
      · cases hsecond
      split at hsecond
      · cases hsecond
      split at hsecond
      · cases hsecond
      rename_i hvalid
      rw [not_nonempty_iff_eq_empty] at hvalid
      rcases hk.cases with hmem | ⟨k', hmem, hexplicit, rfl⟩
      · exact .inl (.inl (decide_eq_decide.mp (not_ne_iff.mp hwild) |>.mp hmem))
      · exact kept_of_valid hmem hexplicit (by rw [hvalid]; exact notMem_empty k')
    · split at hfirst
      · cases hfirst
      · cases hfirst
  · exact .inr ⟨hk, hnone k⟩

/-- What the first loop fetches for a type makes up for what the old keys lack. -/
theorem firstPass_fetches
    (hlazy : t = .member → LazyAddedAlone user s.old s.request previouslyReturned s.changed)
    (hk : KeysCover user s.request k) (hchanged : k ∉ s.changed) :
    KeysCover user s.old k ∨ t = .member ∧ k ∈ previouslyReturned ∨
      (t, none) ∈ (firstPass user order previouslyReturned t s).2 ∨
      (t, some k) ∈ (firstPass user order previouslyReturned t s).2 := by
  rw [firstPass]
  split
  · rename_i heq
    exact .inl (heq ▸ hk)
  split
  · rename_i hadds
    exact .inl (hk.mono (sdiff_eq_empty_iff_subset.mp hadds))
  split
  · rename_i hadds
    rcases hk.cases with hwild | ⟨k', hmem, ⟨-, hnotLazy⟩, rfl⟩
    · rcases hlazy hadds.1 hadds.2.1 hadds.2.2 _ hwild with h | h | ⟨h, -⟩
      · cases h
      · exact .inl (.inl h)
      · exact absurd rfl h
    · rcases hlazy hadds.1 hadds.2.1 hadds.2.2 k' hmem with h | h | ⟨-, h | h | h⟩
      · exact absurd h hnotLazy
      · exact .inl (.inl h)
      · exact .inl h
      · exact .inr (.inl ⟨hadds.1, h⟩)
      · exact absurd h hchanged
  split
  · rename_i hwild
    exact .inl (.inl hwild)
  split_ifs with hnotWild
  · exact .inr (.inr (.inl (mem_singleton_self _)))
  · obtain ⟨k', hmem, hexplicit, rfl⟩ := hk.cases.resolve_left hnotWild
    by_cases hold : k' ∈ s.old
    · exact .inl (keysCover_of_mem hold hexplicit)
    have hin : ∀ x ∈ addedKey user previouslyReturned t k',
        x ∈ (s.request \ s.old).biUnion (addedKey user previouslyReturned t) := fun x hx =>
      mem_biUnion.mpr ⟨k', mem_sdiff.mpr ⟨hmem, hold⟩, hx⟩
    rcases eq_or_ne k' .me with rfl | hme
    · exact .inr (.inr (.inr (hin _ (by simp [addedKey, normalized]))))
    rw [normalized_of_ne_me hme]
    by_cases hret : t = .member ∧ k' ∈ previouslyReturned
    · exact .inr (.inl hret)
    · refine .inr (.inr (.inr (hin _ ?_)))
      by_cases ht : t = .member
      · have hnot : k' ∉ previouslyReturned := fun h => hret ⟨ht, h⟩
        simp [addedKey, hme, hexplicit.2, hnot]
      · simp [addedKey, hme, hexplicit.2, ht]

end Passes

/-! ### The map that is remembered -/

section Remembered

variable {user : K} {order : SetOrder T K} {prev request : RequiredStateMap T K}
  {previouslyReturned requestLazyLoad : Finset (StateKey K)} {deltas : List (Entry T K)} {t : EventType T}
  {k : StateKey K}

theorem changes_of_eq (h : prev.keys t = request.keys t) :
    changes user order prev request previouslyReturned deltas t = none := by
  have heq : (typeKeys prev request deltas t).old = (typeKeys prev request deltas t).request := h
  rw [changes, firstPass, if_pos heq, secondPass, if_pos heq, ite_self]
  rfl

theorem keys_eq_empty {m : RequiredStateMap T K} (h : t ∉ m.types) : m.keys t = ∅ := by
  refine eq_empty_of_forall_notMem fun k hk => h ?_
  exact mem_image.mpr ⟨(t, k), RequiredStateMap.mem_keys.mp hk, rfl⟩

theorem changes_of_not_mem (h : t ∉ loopTypes prev request) :
    changes user order prev request previouslyReturned deltas t = none ∧ prev.keys t = ∅ := by
  rw [loopTypes, mem_union, not_or] at h
  have hprev := keys_eq_empty h.1
  exact ⟨changes_of_eq (hprev.trans (keys_eq_empty h.2).symm), hprev⟩

/-- The remembered keys of a type are those of `changes`, or the previous ones. -/
theorem keys_newRequiredStateMap (t : EventType T) :
    ((newRequiredStateMap user order prev request previouslyReturned deltas).getD prev).keys t =
      (changes user order prev request previouslyReturned deltas t).getD (prev.keys t) := by
  rw [newRequiredStateMap]
  split_ifs with hnone
  · ext k
    rw [getD_some, RequiredStateMap.mem_keys, mem_biUnion]
    constructor
    · rintro ⟨t', -, hk⟩
      obtain ⟨k', hk', heq⟩ := mem_image.mp hk
      cases heq
      exact hk'
    · intro hk
      by_cases ht : t ∈ loopTypes prev request
      · exact ⟨t, ht, mem_image_of_mem _ hk⟩
      · have hnone : changes user order prev request previouslyReturned deltas t = none ∧ prev.keys t = ∅ :=
          changes_of_not_mem ht
        rw [hnone.1, hnone.2] at hk
        exact absurd hk (notMem_empty k)
  · rw [getD_none]
    cases hc : changes user order prev request previouslyReturned deltas t with
    | none => rfl
    | some keys =>
      refine absurd ⟨t, ?_, by rw [hc]; rfl⟩ hnone
      by_contra ht
      rw [(changes_of_not_mem ht).1] at hc
      cases hc

/-- What is remembered of a type is requested, or was remembered before and has not changed. -/
theorem changes_remembers (hme : MeGivenUpUnchanged user (typeKeys prev request deltas t))
    (hk : KeysCover user ((changes user order prev request previouslyReturned deltas t).getD (prev.keys t)) k) :
    KeysCover user (request.keys t) k ∨ KeysCover user (prev.keys t) k ∧ (t, k) ∉ deltas := by
  rw [← mem_changedKeys]
  have hrest : (secondPass user t (typeKeys prev request deltas t) = none ∨ ∀ k, k ∉ changedKeys deltas t) →
      KeysCover user ((firstPass user order previouslyReturned t (typeKeys prev request deltas t)).1.getD
        (prev.keys t)) k →
      Kept user (typeKeys prev request deltas t) k := by
    intro hsecond hk
    cases hfirst : (firstPass user order previouslyReturned t (typeKeys prev request deltas t)).1 with
    | some keys =>
      rw [hfirst] at hk
      exact firstPass_remembers hme hfirst hk
    | none =>
      rw [hfirst] at hk
      exact unchanged_remembers hfirst hsecond hk
  by_cases ht : t ∈ deltas.map Prod.fst
  · rw [changes, if_pos ht] at hk
    cases hsecond : secondPass user t (typeKeys prev request deltas t) with
    | some keys =>
      rw [hsecond] at hk
      exact secondPass_remembers hsecond hk
    | none =>
      rw [hsecond] at hk
      exact hrest (.inl hsecond) hk
  · rw [changes, if_neg ht] at hk
    refine hrest (.inr fun k' hk' => ht ?_) hk
    exact List.mem_map.mpr ⟨(t, k'), mem_changedKeys.mp hk', rfl⟩

end Remembered

/-! ### One response -/

section Response

variable {user : K} {order : SetOrder T K} {prev request : RequiredStateMap T K} {timelineMembership : Finset K}
  {limited : Bool} {deltas : List (Entry T K)} {previouslyReturned : Finset (StateKey K)}
  {known : Entry T K → Prop} {returned : Set (StateKey K)}

/-- What was known stays known if a change to it passes the filter. -/
theorem SyncData.After.keep {d : SyncData T K} {e : Entry T K} (hknown : known e)
    (hfilter : e ∈ deltas → d.wanted.requiredStateFilter.Matches e) : d.After deltas known e := by
  by_cases he : e ∈ deltas
  · exact .inl ⟨.inl he, hfilter he⟩
  · exact .inr ⟨hknown, he⟩

/-- The map remembered after the response. -/
def SyncData.stored (d : SyncData T K) (prev : RequiredStateMap T K) : RequiredStateMap T K :=
  d.changes.changedRequiredStateMap.getD prev

/-- A response, and the record it leaves: what the request covers, what is remembered, the members returned. -/
structure Delivered (user : K) (request stored : RequiredStateMap T K) (lazyLoad extra : Finset (StateKey K))
    (known : Entry T K → Prop) : Prop where
  requested : ∀ e, Covers user request e → known e
  remembered : ∀ e, Covers user stored e → known e
  everything : (stored.keys .wildcard).Nonempty → ∀ e, known e
  lazyMembers : ∀ u ∈ lazyLoad, known (.member, u)
  extraMembers : ∀ u ∈ extra, known (.member, u)

theorem delivered_of_all {stored : RequiredStateMap T K} {lazyLoad extra : Finset (StateKey K)}
    (h : ∀ e, known e) : Delivered user request stored lazyLoad extra known :=
  ⟨fun e _ => h e, fun e _ => h e, fun _ => h, fun _ _ => h _, fun _ _ => h _⟩

/-- The same map again: only lazily loaded members are added. -/
theorem delivered_of_eq (hrec : Record user known request returned) (hrequest : request.keys .wildcard = ∅)
    (hsub : ∀ u ∈ previouslyReturned, u ∈ returned) :
    let d := syncData user order request request timelineMembership limited deltas previouslyReturned
    Delivered user request (d.stored request) d.wanted.lazyLoadUserIds d.changes.extraUsersToAddToLazyCache
      (d.After deltas known) := by
  intro d
  have hchanges : d.stored request = request ∧ d.changes.extraUsersToAddToLazyCache = ∅ ∧
      d.changes.addedStateFilter = .fromTypes ((d.wanted.lazyLoadUserIds \ previouslyReturned).image
        fun u => (.member, some u)) := by
    simp only [d, SyncData.stored, syncData, requiredStateChanges, if_true, getD_none, true_and]
  have hcovered : ∀ e, Covers user request e → d.After deltas known e := fun e he =>
    SyncData.After.keep (hrec.covered e he) fun _ => matches_of_covers he _ _ _
  rw [hchanges.1, hchanges.2.1]
  refine ⟨hcovered, hcovered, fun h => absurd hrequest h.ne_empty, fun u hu => ?_, fun u hu => ?_⟩
  · by_cases hret : u ∈ previouslyReturned
    · exact SyncData.After.keep (hrec.members u (hsub u hret)) fun _ => matches_of_lazy hu
    · refine .inl ⟨.inr ?_, matches_of_lazy hu⟩
      rw [hchanges.2.2]
      exact .inr (mem_image_of_mem _ (mem_sdiff.mpr ⟨hu, hret⟩))
  · exact absurd hu (notMem_empty u)

/-- A lazily loaded member that did not change is a user of the timeline. -/
theorem lazy_named {u : StateKey K} (hu : u ∈ (wanted user request timelineMembership limited deltas).lazyLoadUserIds)
    (hdelta : (.member, u) ∉ deltas) : ∃ x, u = .named x := by
  rw [wanted] at hu
  split at hu
  · exact absurd hu (notMem_empty u)
  · have hload := (mem_sdiff.mp hu).1
    split at hload
    · rcases mem_union.mp hload with hload | hload
      · obtain ⟨x, -, rfl⟩ := mem_image.mp hload
        exact ⟨x, rfl⟩
      · cases limited with
        | true => exact absurd hload (notMem_empty u)
        | false => exact absurd (mem_changedKeys.mp hload) hdelta
    · exact absurd hload (notMem_empty u)

/-- Members the previous map named are covered by it. -/
theorem keysCover_previouslyRequired {x : K} (h : .named x ∈ previouslyRequiredStateMembers user prev) :
    KeysCover user (prev.keys .member) (.named x) := by
  have hown : .named x ∈ prev.keys .member → KeysCover user (prev.keys .member) (.named x) := fun hmem =>
    keysCover_of_mem hmem (by simp)
  rw [previouslyRequiredStateMembers] at h
  split_ifs at h with hme
  · rcases mem_insert.mp h with hx | hmem
    · rw [hx]
      exact keysCover_of_mem hme (by simp)
    · exact hown hmem
  · exact hown h

variable (hrec : Record user known prev returned)

include hrec

/-- A lazily returned member that is not invalidated stays known. -/
theorem after_returned (hasked : ∀ u ∈ returned, (.member, u) ∈ deltas → u ∈ previouslyReturned)
    {u : StateKey K} (hu : u ∈ returned)
    (hvalid : u ∉ (syncData user order prev request timelineMembership limited deltas
      previouslyReturned).changes.lazyMembersInvalidated) :
    (syncData user order prev request timelineMembership limited deltas previouslyReturned).After deltas known
      (.member, u) := by
  refine SyncData.After.keep (hrec.members u hu) fun hdelta => ?_
  refine matches_of_lazy ?_
  by_contra hnot
  refine hvalid ?_
  have hinvalid : u ∈ lazyMembersInvalidated previouslyReturned
      (wanted user request timelineMembership limited deltas).lazyLoadUserIds deltas :=
    mem_inter.mpr ⟨mem_sdiff.mpr ⟨mem_changedKeys.mpr hdelta, hnot⟩, hasked u hu hdelta⟩
  simp only [syncData, requiredStateChanges]
  split_ifs <;> exact hinvalid

/-- With a type wildcard in the request everything is sent, or has been and the changes are. -/
theorem after_all (hrequest : (request.keys .wildcard).Nonempty) (e : Entry T K) :
    (syncData user order prev request timelineMembership limited deltas previouslyReturned).After deltas known
      e := by
  have hfilter : (wanted user request timelineMembership limited deltas).requiredStateFilter.Matches e := by
    rw [wanted, if_pos hrequest]
    trivial
  by_cases hprev : (prev.keys .wildcard).Nonempty
  · exact SyncData.After.keep (hrec.everything hprev e) fun _ => hfilter
  · rw [not_nonempty_iff_eq_empty] at hprev
    refine .inl ⟨.inr ?_, hfilter⟩
    have hne : prev ≠ request := by
      rintro rfl
      exact absurd hprev hrequest.ne_empty
    simp only [syncData, requiredStateChanges, if_neg hne, hprev, notMem_empty, if_false,
      sdiff_empty, if_pos hrequest]
    trivial

/-- A request that gives up the type wildcards gets what it covers, which had been sent before. -/
theorem delivered_of_narrowed (hrequest : request.keys .wildcard = ∅)
    (hprev : (prev.keys .wildcard).Nonempty) :
    let d := syncData user order prev request timelineMembership limited deltas previouslyReturned
    Delivered user request (d.stored prev) d.wanted.lazyLoadUserIds d.changes.extraUsersToAddToLazyCache
      (d.After deltas known) := by
  intro d
  have hne : prev ≠ request := by
    rintro rfl
    exact absurd hrequest hprev.ne_empty
  have hchanges : d.stored prev = request ∧ d.changes.extraUsersToAddToLazyCache = ∅ := by
    simp only [d, SyncData.stored, syncData, requiredStateChanges, if_neg hne, hrequest, empty_sdiff,
      Finset.not_nonempty_empty, if_false, Finset.sdiff_empty, if_pos hprev]
    split <;> exact ⟨rfl, rfl⟩
  have hcovered : ∀ e, Covers user request e → d.After deltas known e := fun e he =>
    SyncData.After.keep (hrec.everything hprev e) fun _ => matches_of_covers he _ _ _
  rw [hchanges.1, hchanges.2]
  refine ⟨hcovered, hcovered, fun h => absurd hrequest h.ne_empty, fun u hu => ?_, fun u hu => ?_⟩
  · exact SyncData.After.keep (hrec.everything hprev _) fun _ => matches_of_lazy hu
  · exact absurd hu (notMem_empty u)

/-- A different map, neither with a type wildcard. -/
theorem delivered_of_changed (hne : prev ≠ request) (hprev : prev.keys .wildcard = ∅)
    (hrequest : request.keys .wildcard = ∅) (hsub : ∀ u ∈ previouslyReturned, u ∈ returned)
    (hlazy : LazyAddedAlone user (prev.keys .member) (request.keys .member) previouslyReturned
      (changedKeys deltas .member))
    (hme : ∀ t ∈ prev.types, MeGivenUpUnchanged user (typeKeys prev request deltas t)) :
    let d := syncData user order prev request timelineMembership limited deltas previouslyReturned
    Delivered user request (d.stored prev) d.wanted.lazyLoadUserIds d.changes.extraUsersToAddToLazyCache
      (d.After deltas known) := by
  intro d
  obtain ⟨hstored, hextra, hadded⟩ :
      d.stored prev = (newRequiredStateMap user order prev request previouslyReturned deltas).getD prev ∧
      d.changes.extraUsersToAddToLazyCache =
        usersToAddToLazyCache user order prev request previouslyReturned deltas ∧
      d.changes.addedStateFilter =
        .fromTypes (added user order prev request previouslyReturned d.wanted.lazyLoadUserIds deltas) := by
    simp only [d, SyncData.stored, syncData, requiredStateChanges, if_neg hne, hprev, hrequest,
      Finset.notMem_empty, if_false, Finset.sdiff_empty, Finset.not_nonempty_empty, and_self]
  have hold : ∀ e : Entry T K, KeysCover user (prev.keys e.1) e.2 → known e := fun e he =>
    hrec.covered e ((covers_iff hprev).mpr he)
  have hcovered : ∀ e, Covers user request e → d.After deltas known e := by
    intro e he
    have hfilter := matches_of_covers he timelineMembership limited deltas
    rw [covers_iff hrequest] at he
    by_cases hdelta : e ∈ deltas
    · exact .inl ⟨.inl hdelta, hfilter⟩
    have htype : e.1 ∈ loopTypes prev request := by
      refine mem_union_right _ ?_
      by_contra hnot
      rw [keys_eq_empty hnot] at he
      simp [KeysCover, explicit] at he
    have hfetch : KeysCover user (prev.keys e.1) e.2 ∨ e.1 = .member ∧ e.2 ∈ previouslyReturned ∨
        (e.1, none) ∈ (firstPass user order previouslyReturned e.1 (typeKeys prev request deltas e.1)).2 ∨
        (e.1, some e.2) ∈ (firstPass user order previouslyReturned e.1 (typeKeys prev request deltas e.1)).2 := by
      refine firstPass_fetches (s := typeKeys prev request deltas e.1) (fun ht => ?_) he
        fun h => hdelta (mem_changedKeys.mp h)
      rw [ht]
      exact hlazy
    rcases hfetch with hcov | ⟨ht, hret⟩ | hall | hone
    · exact .inr ⟨hold e hcov, hdelta⟩
    · refine .inr ⟨?_, hdelta⟩
      have hmember := hrec.members e.2 (hsub e.2 hret)
      rwa [← ht] at hmember
    · refine .inl ⟨.inr ?_, hfilter⟩
      rw [hadded]
      exact .inl (mem_union_left _ (mem_biUnion.mpr ⟨e.1, htype, hall⟩))
    · refine .inl ⟨.inr ?_, hfilter⟩
      rw [hadded]
      exact .inr (mem_union_left _ (mem_biUnion.mpr ⟨e.1, htype, hone⟩))
  have hwild : (d.stored prev).keys .wildcard = ∅ := by
    rw [hstored, keys_newRequiredStateMap, changes_of_eq (hprev.trans hrequest.symm), getD_none, hprev]
  have hmeAll : ∀ t, MeGivenUpUnchanged user (typeKeys prev request deltas t) := by
    intro t
    by_cases ht : t ∈ prev.types
    · exact hme t ht
    · intro hmem
      have hmem' : .me ∈ prev.keys t := hmem
      rw [keys_eq_empty ht] at hmem'
      exact absurd hmem' (notMem_empty _)
  refine ⟨hcovered, fun e he => ?_, fun h => absurd hwild h.ne_empty, fun u hu => ?_, fun u hu => ?_⟩
  · rw [covers_iff hwild, hstored, keys_newRequiredStateMap] at he
    rcases changes_remembers (hmeAll e.1) he with hreq | ⟨hkept, hdelta⟩
    · exact hcovered e ((covers_iff hrequest).mpr hreq)
    · exact .inr ⟨hold e hkept, hdelta⟩
  · have hfilter := matches_of_lazy hu
    by_cases hdelta : (.member, u) ∈ deltas
    · exact .inl ⟨.inl hdelta, hfilter⟩
    by_cases hret : u ∈ previouslyReturned
    · exact .inr ⟨hrec.members u (hsub u hret), hdelta⟩
    by_cases hreq : u ∈ previouslyRequiredStateMembers user prev
    · obtain ⟨x, rfl⟩ := lazy_named hu hdelta
      exact .inr ⟨hold _ (keysCover_previouslyRequired hreq), hdelta⟩
    · refine .inl ⟨.inr ?_, hfilter⟩
      rw [hadded]
      exact .inr (mem_union_right _ (mem_image_of_mem _ (mem_sdiff.mpr ⟨mem_sdiff.mpr ⟨hu, hret⟩, hreq⟩)))
  · rw [hextra, usersToAddToLazyCache] at hu
    split at hu
    · obtain ⟨hu, hdelta⟩ := mem_filter.mp hu
      exact .inr ⟨hold (.member, u) (.inr hu), hdelta⟩
    · exact absurd hu (notMem_empty u)

/-- A response to a request that is handled leaves a right record. -/
theorem delivered (hsub : ∀ u ∈ previouslyReturned, u ∈ returned)
    (hcareful : Careful user prev request previouslyReturned deltas) :
    let d := syncData user order prev request timelineMembership limited deltas previouslyReturned
    Delivered user request (d.stored prev) d.wanted.lazyLoadUserIds d.changes.extraUsersToAddToLazyCache
      (d.After deltas known) := by
  by_cases hrequest : (request.keys .wildcard).Nonempty
  · exact delivered_of_all (after_all hrec hrequest)
  rw [not_nonempty_iff_eq_empty] at hrequest
  by_cases hprev : (prev.keys .wildcard).Nonempty
  · exact delivered_of_narrowed hrec hrequest hprev
  rw [not_nonempty_iff_eq_empty] at hprev
  rcases eq_or_ne prev request with rfl | hne
  · exact delivered_of_eq hrec hrequest hsub
  · obtain ⟨hlazy, hme⟩ := hcareful hprev hrequest
    exact delivered_of_changed hrec hne hprev hrequest hsub hlazy hme

end Response

end Sithnapse.SlidingSync
