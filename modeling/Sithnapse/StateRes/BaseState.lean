import Sithnapse.StateRes.Resolve

/-! The base state of state resolution v2, and the key of the conflict cache.

    `resolve_events_with_store` starts from the part of the unconflicted state that is needed to check
    the conflicted events. Nothing else is ever read, so starting from all of it makes no difference;
    and since the key of the cache has the events of the base state, an entry is only found by
    resolutions that would have computed it themselves. -/

namespace Sithnapse.StateRes

open Kit Kit.Dict Kit.Chain List Option
open Kit.Dict (Same)

variable {E : Type} [LinearOrder E]

/-- Resolve from a base state and lay the unconflicted state over the result. -/
def resolveFrom (ω : ResolveOrders E) (R : Resolver E) (m : EventMap E) (full : List E)
    (base unconflicted : Dict StateKey E) : Except (Failure E) (Dict StateKey E) := do
  let resolved ← resolveConflictedSet ω R m full base
  return resolved.update unconflicted.entries

/-- `key_material` of `_conflict_cache_key`; the key is its digest. -/
def conflictCacheKeyMaterial (R : Resolver E) (full : List E) (base : Dict StateKey E) :
    String × String × List E × List E :=
  (R.roomId, R.roomVersion.identifier, full.insertionSort (· ≤ ·), base.values.insertionSort (· ≤ ·))

variable {R : Resolver E} {m m' : EventMap E} {full full' : List E}

theorem authTypes_of_authCheck {types : E → Order StateKey} {known : Known E} {d d' : Dict StateKey E} {e : E}
    (h : authCheck types R known d e = .ok d') : ∃ l, authTypesOf R known e = .ok l := by
  rw [authCheck] at h
  split at h
  · cases h
  · rename_i event hevent
    rw [authTypesOf_of_known hevent]
    obtain ⟨auth, hauth, -⟩ := bind_eq_ok.mp h
    rw [authEvents] at hauth
    obtain ⟨named, -, hauth⟩ := bind_eq_ok.mp hauth
    obtain ⟨l, hl, -⟩ := bind_eq_ok.mp hauth
    exact ⟨l, hl⟩

theorem authTypes_of_iterativeAuthChecks {types : E → Order StateKey} {known : Known E} :
    ∀ {events : List E} {d d' : Dict StateKey E}, iterativeAuthChecks types R known events d = .ok d' →
    ∀ e ∈ events, ∃ l, authTypesOf R known e = .ok l
  | e :: events, d, d', h, x, hx => by
    rw [iterativeAuthChecks, foldlM_cons] at h
    obtain ⟨d₁, hd₁, h⟩ := bind_eq_ok.mp h
    rcases mem_cons.mp hx with rfl | hx
    · exact authTypes_of_authCheck hd₁
    · exact authTypes_of_iterativeAuthChecks h x hx

/-- Every conflicted event is checked, so its auth types are asked for. -/
theorem authTypes_of_resolve {ω : ResolveOrders E} {base resolved : Dict StateKey E}
    (h : resolveConflictedSet ω R m full base = .ok resolved) :
    ∀ e ∈ full, ∃ l, authTypesOf R m.dict.get? e = .ok l := by
  intro e he
  rw [resolveConflictedSet] at h
  obtain ⟨flags, -, h⟩ := bind_eq_ok.mp h
  obtain ⟨sorted, -, h⟩ := bind_eq_ok.mp h
  obtain ⟨resolved₁, hpower, h⟩ := bind_eq_ok.mp h
  obtain ⟨leftover, hleftover, h⟩ := bind_eq_ok.mp h
  by_cases hsorted : e ∈ sorted
  · exact authTypes_of_iterativeAuthChecks hpower e hsorted
  · refine authTypes_of_iterativeAuthChecks h e ((mainlineSort_perm hleftover).mem_iff.mpr ?_)
    rw [mem_filter, Order.mem_arrange, decide_eq_true_eq]
    exact ⟨he, hsorted⟩

omit [LinearOrder E] in
/-- The unconflicted state is its restriction with all of it behind. -/
theorem behind_restrict (keys : List StateKey) (u : Dict StateKey E) :
    Behind (· ∈ keys) u.get? (restrict keys u) u := by
  refine ⟨fun key hkey => ?_, fun key => ?_⟩
  · rw [get?_restrict, if_pos hkey]
  · rw [get?_restrict]
    split
    · cases u.get? key <;> rfl
    · rfl

/-- Starting from the restricted base state gives the same as starting from all unconflicted state. -/
theorem restricted_same (hv2 : R.roomVersion.stateRes = .v2) (ω : ResolveOrders E) (u : Dict StateKey E) :
    Alike Same
      (do resolveFrom ω R m full (← baseState ω.fullConflictedSet ω.baseStateKeys R m.dict.get? full u) u)
      (resolveFrom ω R m full u u) := by
  rw [baseState, hv2]
  dsimp only [baseStateKeys]
  cases htypes : (ω.fullConflictedSet.arrange full).mapM (authTypesOf R m.dict.get?) with
  | error failure =>
    cases hrun : resolveConflictedSet ω R m full u with
    | error failure' =>
      rw [resolveFrom, hrun]
      trivial
    | ok resolved =>
      obtain ⟨types, h⟩ := mapM_returns_iff.mpr fun e (he : e ∈ ω.fullConflictedSet.arrange full) =>
        authTypes_of_resolve hrun e (Order.mem_arrange.mp he)
      rw [htypes] at h
      cases h
  | ok types =>
    have hmem := @mem_baseStateKeys E _ _ _ R _ _ (mapM_ok_iff.mp htypes)
    refine (resolveConflictedSet_behind (N := (· ∈ ω.baseStateKeys.arrange (types.foldl addAll [powerLevelsKey])))
      ?_ ?_ (behind_restrict _ u) ω).bind fun resolved resolved' h key => ?_
    · exact Order.mem_arrange.mpr (hmem.mpr (.inl rfl))
    · intro e he event hevent l hl key hkey
      exact Order.mem_arrange.mpr (hmem.mpr (.inr ⟨e, he, l, (authTypesOf_of_known hevent).trans hl, hkey⟩))
    · rw [get?_update_entries, get?_update_entries, h.behind key]
      cases u.get? key with
      | none => simp
      | some e => rfl

/-! ### The conflict cache -/

/-- What `resolve_events_with_store` has made sure of when it comes to the conflicted set. -/
structure Prepared (R : Resolver E) (m : EventMap E) (full : List E) : Prop where
  inRoom : InRoom R m.dict.get?
  known : ∀ e ∈ full, e ∈ m.dict.keys
  nodup : full.Nodup

theorem prepared_of_checkRoom (h : checkRoom R m = .ok ()) (hnd : full.Nodup) :
    Prepared R m (full.filter (· ∈ m.dict.keys)) :=
  ⟨checkRoom_ok.mp h, fun e he => by simpa using (mem_filter.mp he).2, hnd.filter _⟩

omit [LinearOrder E] in
/-- Base states with the same events are the same, as each event is under its own key. -/
theorem same_of_values {keyOf : E → StateKey} {base base' : Dict StateKey E}
    (hbase : ∀ key e, base.get? key = some e → keyOf e = key)
    (hbase' : ∀ key e, base'.get? key = some e → keyOf e = key)
    (h : SameSet base.values base'.values) : Same base base' := by
  have hhalf : ∀ {d d' : Dict StateKey E}, (∀ key e, d.get? key = some e → keyOf e = key) →
      (∀ key e, d'.get? key = some e → keyOf e = key) → SameSet d.values d'.values →
      ∀ key e, d.get? key = some e → d'.get? key = some e := by
    intro d d' hd hd' h key e he
    obtain ⟨key', he'⟩ := mem_values_iff.mp ((h e).mp (mem_values_iff.mpr ⟨key, he⟩))
    rwa [← hd key e he, hd' key' e he']
  exact fun key => ext fun e => ⟨hhalf hbase hbase' h key e, hhalf hbase' hbase h.symm key e⟩

theorem get?_of_baseState {events : Order E} {keys : Order StateKey} {known : Known E} {u base : Dict StateKey E}
    (h : baseState events keys R known full u = .ok base) {key : StateKey} {e : E}
    (he : base.get? key = some e) : u.get? key = some e := by
  have hrestrict : ∀ l : List StateKey, (restrict l u).get? key = some e → u.get? key = some e := by
    intro l hl
    rw [get?_restrict] at hl
    split at hl
    · exact hl
    · cases hl
  rw [baseState] at h
  split at h
  · cases h
    cases he
  · obtain ⟨l, -, h⟩ := bind_eq_ok.mp h
    cases h
    exact hrestrict _ he
  · cases h
    exact hrestrict _ he

/-- The same events and auth rules: then the resolver is known by the room and the name of its version. -/
def SameRules (R R' : Resolver E) : Prop :=
  R.roomId = R'.roomId → R.roomVersion.identifier = R'.roomVersion.identifier → R = R'

/-- **Restricting the base state loses nothing.** Resolving from it gives the same state as resolving from
    all unconflicted state; and resolutions with equal key material have the same result, up to the
    unconflicted state that is laid over it. -/
theorem base_state_lossless (hv2 : R.roomVersion.stateRes = .v2) :
    (∀ (ω : ResolveOrders E) (m : EventMap E) (full : List E) (u : Dict StateKey E), Alike Same
      (do resolveFrom ω R m full (← baseState ω.fullConflictedSet ω.baseStateKeys R m.dict.get? full u) u)
      (resolveFrom ω R m full u u)) ∧
    ∀ (R' : Resolver E) (ω ω' : ResolveOrders E) (m m' : EventMap E) (full full' : List E)
      (u u' base base' : Dict StateKey E) (keyOf : E → StateKey), SameRules R R' →
      find R m'.dict.get? = find R m.dict.get? → Acyclic (references (find R m.dict.get?)) →
      Prepared R m full → Prepared R' m' full' →
      (∀ key e, u.get? key = some e → keyOf e = key) → (∀ key e, u'.get? key = some e → keyOf e = key) →
      baseState ω.fullConflictedSet ω.baseStateKeys R m.dict.get? full u = .ok base →
      baseState ω'.fullConflictedSet ω'.baseStateKeys R' m'.dict.get? full' u' = .ok base' →
      conflictCacheKeyMaterial R full base = conflictCacheKeyMaterial R' full' base' →
      Alike Same (resolveConflictedSet ω R m full base) (resolveConflictedSet ω' R' m' full' base') ∧
      Alike (fun r r' => ∀ key, u.get? key = none → u'.get? key = none → r.get? key = r'.get? key)
        (resolveFrom ω R m full base u) (resolveFrom ω' R' m' full' base' u') := by
  refine ⟨fun ω m full u => restricted_same hv2 ω u, ?_⟩
  intro R' ω ω' m m' full full' u u' base base' keyOf hrules hfind hac hm hm' hu hu' hbase hbase' hkey
  rw [conflictCacheKeyMaterial, conflictCacheKeyMaterial] at hkey
  simp only [Prod.mk.injEq] at hkey
  obtain ⟨hroom, hversion, hfull, hvalues⟩ := hkey
  obtain rfl := hrules hroom hversion
  have hsorted : ∀ {l l' : List E}, l.insertionSort (· ≤ ·) = l'.insertionSort (· ≤ ·) → SameSet l l' := by
    intro l l' h x
    rw [← (perm_insertionSort (· ≤ ·) l).mem_iff, h, (perm_insertionSort (· ≤ ·) l').mem_iff]
  have hsame : Same base base' := same_of_values (fun key e he => hu key e (get?_of_baseState hbase he))
    (fun key e he => hu' key e (get?_of_baseState hbase' he)) (hsorted hvalues)
  have hknown : ∀ e ∈ full, m'.dict.get? e = m.dict.get? e := by
    intro e he
    obtain ⟨event, hevent⟩ := mem_keys_iff.mp (hm.known e he)
    obtain ⟨event', hevent'⟩ := mem_keys_iff.mp (hm'.known e ((hsorted hfull e).mp he))
    have := congrFun hfind e
    rw [find, find, hevent, hevent'] at this
    rw [hevent, hevent']
    exact this
  have hrun := resolveConflictedSet_alike hac hm.inRoom hm'.inRoom hfind hm.nodup hm'.nodup (hsorted hfull) hknown
    hsame ω ω'
  refine ⟨hrun, hrun.bind fun r r' h key hkey hkey' => ?_⟩
  rw [get?_update_entries, get?_update_entries, hkey, hkey', h key]

/-- The topic on two unconflicted states that differ in the room's name: the same key, and the same topic. -/
theorem base_state_lossless_fork : let ω : ResolveOrders ℕ := .all .asAdded .asAdded
    let full := [3].filter (· ∈ forkMap.dict.keys)
    let u : Dict StateKey ℕ := .ofList [(createKey, 1)]
    let u' : Dict StateKey ℕ := .ofList [(createKey, 1), (("m.room.name", ""), 7)]
    Alike Same (do
        let base ← baseState ω.fullConflictedSet ω.baseStateKeys forkResolver forkMap.dict.get? full u'
        resolveFrom ω forkResolver forkMap full base u')
      (resolveFrom ω forkResolver forkMap full u' u') ∧
    Alike (fun r r' => ∀ key, u.get? key = none → u'.get? key = none → r.get? key = r'.get? key)
      (resolveFrom ω forkResolver forkMap full u u) (resolveFrom ω forkResolver forkMap full u u') := by
  intro ω full u u'
  obtain ⟨hlossless, hkey⟩ := base_state_lossless (R := forkResolver) rfl
  have hprepared : Prepared forkResolver forkMap full := prepared_of_checkRoom rfl (by decide)
  let keyOf (e : ℕ) : StateKey := if e = 1 then createKey else ("m.room.name", "")
  have hkeyed : ∀ l ∈ [u, u'], ∀ key e, l.get? key = some e → keyOf e = key := by
    intro l hl key e he
    have hall : ∀ l ∈ [u, u'], ∀ p ∈ l.entries, keyOf p.2 = p.1 := by decide +kernel
    exact hall l hl (key, e) (get?_eq_some_iff.mp he)
  refine ⟨hlossless ω forkMap full u', ?_⟩
  exact (hkey forkResolver ω ω forkMap forkMap full full u u' u u keyOf
    (fun _ _ => rfl) rfl (acyclic_of_rank id fun x y h => (forkResolver_references h).2) hprepared hprepared
    (hkeyed u (by simp)) (hkeyed u' (by simp)) rfl rfl rfl).2

end Sithnapse.StateRes
