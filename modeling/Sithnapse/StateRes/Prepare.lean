import Sithnapse.StateRes.Conflicted

/-! What happens to the state sets before the conflicted events are applied.

    The state is split into what all sets agree on and the conflicted rest, the events that will be
    read are fetched into the event map, and the base state is cut down to the keys that are needed.
    Each part is described by what it holds, so that the order of the sets, repetitions among them and
    the order inside sets and dicts do not show. -/

namespace Sithnapse.StateRes

open Kit Kit.Dict Kit.Chain List Option
open Kit.Dict (empty Same)

/-! ### The conflicted state -/

section Seperate

variable {E : Type} [DecidableEq E]

variable (sets : List (Dict StateKey E))

/-- `set(itertools.chain.from_iterable(state_sets))`. -/
def allStateKeys : List StateKey :=
  sets.foldl (fun keys s => addAll keys s.keys) []

variable (key : StateKey)

/-- `event_ids` of a key; `none` if a state set does not have the key. -/
def eventIds : List (Option E) :=
  addAll [] (sets.map (·.get? key))

/-- The event of a key, if the sets have just one. -/
def unconflictedId : Option E :=
  match eventIds sets key with
  | [some e] => some e
  | _ => none

/-- The events of a key otherwise. -/
def conflictedIds : Option (List E) :=
  match unconflictedId sets key with
  | some _ => none
  | none => some ((eventIds sets key).filterMap id)

/-- `_seperate`: the unconflicted and the conflicted state. -/
def seperate (order : Order StateKey) (sets : List (Dict StateKey E)) :
    Dict StateKey E × Dict StateKey (List E) :=
  (order.arrange (allStateKeys sets)).foldl (fun st key =>
    (st.1.setSome key (unconflictedId sets key), st.2.setSome key (conflictedIds sets key)))
    (empty, empty)

/-- All state sets have the event under the key. -/
def Agreed (e : E) : Prop :=
  sets ≠ [] ∧ ∀ s ∈ sets, s.get? key = some e

variable {key : StateKey} {order : Order StateKey}

variable {sets : List (Dict StateKey E)}

omit [DecidableEq E] in
theorem mem_allStateKeys : key ∈ allStateKeys sets ↔ ∃ s ∈ sets, key ∈ s.keys := by
  rw [allStateKeys, mem_foldl_addAll Dict.keys]
  simp

theorem mem_eventIds {x : Option E} : x ∈ eventIds sets key ↔ ∃ s ∈ sets, s.get? key = x := by
  simp [eventIds]

/-- The sets have one event under the key. -/
theorem unconflictedId_iff {e : E} : unconflictedId sets key = some e ↔ Agreed sets key e := by
  have hsingle : unconflictedId sets key = some e ↔ eventIds sets key = [some e] := by
    rw [unconflictedId]
    split
    · rename_i h
      simp [h]
    · rename_i h
      exact ⟨nofun, fun hc => absurd hc (h e)⟩
  rw [hsingle]
  constructor
  · intro h
    refine ⟨?_, fun s hs => ?_⟩
    · rintro rfl
      cases h
    · exact mem_singleton.mp (h ▸ mem_eventIds.mpr ⟨s, hs, rfl⟩)
  · rintro ⟨hne, hall⟩
    have hnd : (eventIds sets key).Nodup := nodup_addAll _ nodup_nil
    refine perm_singleton.mp ((perm_ext_iff_of_nodup hnd (nodup_singleton _)).mpr fun x => ?_)
    rw [mem_eventIds, mem_singleton]
    constructor
    · rintro ⟨s, hs, rfl⟩
      exact hall s hs
    · rintro rfl
      obtain ⟨s, hs⟩ := exists_mem_of_ne_nil _ hne
      exact ⟨s, hs, hall s hs⟩

theorem seperate_eq (order : Order StateKey) (sets : List (Dict StateKey E)) : seperate order sets =
      ((order.arrange (allStateKeys sets)).foldl (fun d key => d.setSome key (unconflictedId sets key)) empty,
        (order.arrange (allStateKeys sets)).foldl (fun d key => d.setSome key (conflictedIds sets key)) empty) := by
  rw [seperate]
  generalize order.arrange (allStateKeys sets) = keys
  generalize (empty : Dict StateKey E) = d
  generalize (empty : Dict StateKey (List E)) = d'
  induction keys generalizing d d' with
  | nil => rfl
  | cons key keys ih => rw [foldl_cons, ih, foldl_cons, foldl_cons]

/-- The unconflicted state is what all sets agree on. -/
theorem get?_unconflicted {e : E} : (seperate order sets).1.get? key = some e ↔ Agreed sets key e := by
  rw [seperate_eq, get?_foldl_setSome, ← unconflictedId_iff]
  split_ifs with hkey
  · simp
  · refine ⟨fun h => by simp at h, fun h => absurd ?_ hkey⟩
    obtain ⟨hne, hall⟩ := unconflictedId_iff.mp h
    obtain ⟨s, hs⟩ := exists_mem_of_ne_nil _ hne
    rw [Order.mem_arrange, mem_allStateKeys]
    exact ⟨s, hs, mem_keys_iff.mpr ⟨e, hall s hs⟩⟩

/-- An event is conflicted if a set has it under a key on which the sets do not agree. -/
def Conflicted (sets : List (Dict StateKey E)) (e : E) : Prop :=
  ∃ key, (∀ e', ¬ Agreed sets key e') ∧ ∃ s ∈ sets, s.get? key = some e

theorem get?_conflicted {ids : List E} (h : (seperate order sets).2.get? key = some ids) :
    (∀ e, ¬ Agreed sets key e) ∧ (∃ e, e ∈ ids) ∧ ∀ e, e ∈ ids ↔ ∃ s ∈ sets, s.get? key = some e := by
  rw [seperate_eq, get?_foldl_setSome] at h
  split_ifs at h with hkey
  · obtain ⟨s, hs, hkey⟩ := mem_allStateKeys.mp (Order.mem_arrange.mp hkey)
    obtain ⟨e₀, he₀⟩ := mem_keys_iff.mp hkey
    rw [get?_empty, or_none, conflictedIds] at h
    split at h
    · cases h
    · rename_i hnone
      cases h
      have hmem : ∀ e, e ∈ (eventIds sets key).filterMap id ↔ ∃ s ∈ sets, s.get? key = some e := fun e => by
        simp [mem_eventIds]
      refine ⟨fun e he => ?_, ⟨e₀, (hmem e₀).mpr ⟨s, hs, he₀⟩⟩, hmem⟩
      rw [unconflictedId_iff.mpr he] at hnone
      cases hnone
  · cases h

theorem mem_conflicted (order : Order StateKey) {e : E} :
    e ∈ (seperate order sets).2.values.flatten ↔ Conflicted sets e := by
  rw [mem_flatten]
  constructor
  · rintro ⟨ids, hids, he⟩
    obtain ⟨key, hkey⟩ := mem_values_iff.mp hids
    obtain ⟨hnot, -, hmem⟩ := get?_conflicted hkey
    exact ⟨key, hnot, (hmem e).mp he⟩
  · rintro ⟨key, hnot, s, hs, he⟩
    have hnone : unconflictedId sets key = none :=
      eq_none_iff_forall_ne_some.mpr fun e' h => hnot e' (unconflictedId_iff.mp h)
    have hkey : key ∈ order.arrange (allStateKeys sets) := by
      rw [Order.mem_arrange, mem_allStateKeys]
      exact ⟨s, hs, mem_keys_iff.mpr ⟨e, he⟩⟩
    have hget : (seperate order sets).2.get? key = some ((eventIds sets key).filterMap id) := by
      rw [seperate_eq, get?_foldl_setSome, if_pos hkey, conflictedIds, hnone]
      rfl
    exact ⟨_, mem_values_iff.mpr ⟨key, hget⟩, ((get?_conflicted hget).2.2 e).mpr ⟨s, hs, he⟩⟩

/-- There is conflicted state exactly if there is a conflicted event. -/
theorem conflicted_eq_nil : (seperate order sets).2.entries = [] ↔ ∀ e, ¬ Conflicted sets e := by
  constructor
  · intro h e he
    rw [← mem_conflicted order, Dict.values, h] at he
    simp at he
  · intro h
    rw [eq_nil_iff_forall_not_mem]
    rintro ⟨key, ids⟩ hmem
    obtain ⟨hnot, ⟨e, he⟩, hids⟩ := get?_conflicted (get?_eq_some_iff.mpr hmem)
    exact h e ⟨key, hnot, (hids e).mp he⟩

/-- Two lists with the same state sets, whatever their order, repetitions and the order of the dicts. -/
def SameStates (sets sets' : List (Dict StateKey E)) : Prop :=
  (∀ s ∈ sets, ∃ s' ∈ sets', Same s s') ∧ ∀ s' ∈ sets', ∃ s ∈ sets, Same s s'

variable {sets' : List (Dict StateKey E)}

section Matched

variable {α : Type} {l l' : List α} {same : α → α → Prop} {p : α → Prop}
  (h : (∀ s ∈ l, ∃ s' ∈ l', same s s') ∧ ∀ s' ∈ l', ∃ s ∈ l, same s s') (hp : ∀ s s', same s s' → (p s ↔ p s'))

include h hp

/-- What depends on the content of a set only holds of some set of both lists or of none. -/
theorem exists_iff_of_same : (∃ s ∈ l, p s) ↔ ∃ s ∈ l', p s := by
  constructor
  · rintro ⟨s, hs, hps⟩
    obtain ⟨s', hs', hss'⟩ := h.1 s hs
    exact ⟨s', hs', (hp s s' hss').mp hps⟩
  · rintro ⟨s', hs', hps'⟩
    obtain ⟨s, hs, hss'⟩ := h.2 s' hs'
    exact ⟨s, hs, (hp s s' hss').mpr hps'⟩

theorem forall_iff_of_same : (∀ s ∈ l, p s) ↔ ∀ s ∈ l', p s := by
  have := exists_iff_of_same h fun s s' hs => not_congr (hp s s' hs)
  rw [← not_iff_not]
  push Not
  exact this

end Matched

omit [DecidableEq E] in
theorem SameStates.agreed (h : SameStates sets sets') (key : StateKey) (e : E) :
    Agreed sets key e ↔ Agreed sets' key e := by
  have hnil : sets ≠ [] ↔ sets' ≠ [] := by
    have := exists_iff_of_same (p := fun _ => True) h fun _ _ _ => Iff.rfl
    simpa [eq_nil_iff_forall_not_mem] using this
  exact and_congr hnil (forall_iff_of_same h fun s s' hs => by rw [hs key])

omit [DecidableEq E] in
theorem SameStates.conflicted (h : SameStates sets sets') (e : E) : Conflicted sets e ↔ Conflicted sets' e :=
  exists_congr fun key => and_congr (forall_congr' fun e' => not_congr (h.agreed key e'))
    (exists_iff_of_same h fun s s' hs => by rw [hs key])

end Seperate

/-! ### The auth difference -/

section Difference

variable {E : Type} [DecidableEq E]

/-- Two lists with the same sets. -/
def SameSets (l l' : List (List E)) : Prop :=
  (∀ s ∈ l, ∃ s' ∈ l', SameSet s s') ∧ ∀ s' ∈ l', ∃ s ∈ l, SameSet s s'

/-- The answer of the store depends on what is in the sets it is asked about. -/
def Extensional (store : AuthStore E) : Prop :=
  ∀ sets sets' conflicted conflicted' additional additional', SameSets sets sets' →
    Rel SameSet conflicted conflicted' → SameSet additional additional' →
    Alike (fun d d' => SameSet d.authDifference d'.authDifference ∧
        Rel SameSet d.conflictedSubgraph d'.conflictedSubgraph)
      (store sets conflicted additional) (store sets' conflicted' additional')

variable {events events' : AuthIds E} {sets sets' : List (Dict StateKey E)}

omit [DecidableEq E] in
theorem under_values_congr {next : E → List E} {s s' : Dict StateKey E} (h : Same s s') (x : E) :
    Under next s.values x ↔ Under next s'.values x :=
  exists_congr fun v => and_congr_left fun _ => h.values v

theorem stateSetsIds_same (hac : Acyclic events.next) (hnext : events'.next = events.next)
    (hkeys : SameSet events.keys events'.keys) (hsets : SameStates sets sets') :
    SameSets (stateSetsIds events sets) (stateSetsIds events' sets') := by
  obtain ⟨ids, hids, hmem⟩ := mem_stateSetsIds hac sets
  obtain ⟨ids', hids', hmem'⟩ := mem_stateSetsIds (hnext ▸ hac) sets'
  have hsame : ∀ s s', Same s s' → SameSet (ids s) (ids' s') := by
    intro s s' h x
    rw [hmem, hmem', hkeys x, hnext, under_values_congr h]
  rw [hids, hids']
  refine ⟨fun l hl => ?_, fun l hl => ?_⟩
  · obtain ⟨s, hs, rfl⟩ := mem_map.mp hl
    obtain ⟨s', hs', h⟩ := hsets.1 s hs
    exact ⟨ids' s', mem_map_of_mem hs', hsame s s' h⟩
  · obtain ⟨s', hs', rfl⟩ := mem_map.mp hl
    obtain ⟨s, hs, h⟩ := hsets.2 s' hs'
    exact ⟨ids s, mem_map_of_mem hs, hsame s s' h⟩

/-- The auth difference does not depend on how the sets come. -/
theorem splitDifference_alike (hac : Acyclic events.next) (hevents : Same events events')
    (hsets : SameStates sets sets') (hne : sets ≠ []) {store : AuthStore E} (hstore : Extensional store)
    {conflicted conflicted' : Option (List E)} (hconflicted : Rel SameSet conflicted conflicted')
    (ω ω' : DifferenceOrders E) :
    Alike SameSet (splitDifference ω store sets events conflicted)
      (splitDifference ω' store sets' events' conflicted') := by
  have hnext : events'.next = events.next := funext fun e => (hevents.getD e []).symm
  have hkeys : SameSet events.keys events'.keys := hevents.keys
  have hempty : events'.entries = [] ↔ events.entries = [] := hevents.entries.nil_iff.symm
  have hne' : sets' ≠ [] := by
    obtain ⟨s, hs⟩ := exists_mem_of_ne_nil _ hne
    obtain ⟨s', hs', -⟩ := hsets.1 s hs
    exact ne_nil_of_mem hs'
  obtain ⟨P, A, hP, hA, herr, hok⟩ := splitDifference_spec hac ω store hne conflicted
  obtain ⟨P', A', hP', hA', herr', hok'⟩ := splitDifference_spec (hnext ▸ hac) ω' store hne' conflicted'
  rw [hnext] at hA' hok'
  have hpart : ∀ x, ((∃ s ∈ sets, x ∈ events.keys ∧ Under events.next s.values x) ∧
      ¬ ∀ s ∈ sets, x ∈ events.keys ∧ Under events.next s.values x) ↔
      ((∃ s ∈ sets', x ∈ events'.keys ∧ Under events.next s.values x) ∧
        ¬ ∀ s ∈ sets', x ∈ events'.keys ∧ Under events.next s.values x) := by
    intro x
    have hs : ∀ s s' : Dict StateKey E, Same s s' →
        ((x ∈ events.keys ∧ Under events.next s.values x) ↔ x ∈ events.keys ∧ Under events.next s'.values x) :=
      fun s s' h => by rw [under_values_congr h]
    simp only [← hkeys x]
    rw [exists_iff_of_same hsets hs, forall_iff_of_same hsets hs]
  have hgetD : SameSet (conflicted.getD []) (conflicted'.getD []) := by
    cases hconflicted with
    | none => exact SameSet.refl _
    | some hc => exact hc
  have hadd : SameSet A A' := fun x => by simp only [hA, hA', hkeys _, hgetD _]
  have hpersisted : Rel SameSet (conflicted.map P) (conflicted'.map P') := by
    cases hconflicted with
    | none => exact .none
    | some hc => exact .some fun x => by rw [hP _ rfl, hP' _ rfl, hc x, hkeys x]
  have hask := hstore _ _ _ _ _ _ (stateSetsIds_same hac hnext hkeys hsets) hpersisted hadd
  cases hd : store (stateSetsIds events sets) (conflicted.map P) A with
  | error failure =>
    rw [hd] at hask
    cases hd' : store (stateSetsIds events' sets') (conflicted'.map P') A' with
    | error failure' => rw [herr failure hd, herr' failure' hd']; trivial
    | ok d' => rw [hd'] at hask; exact hask.elim
  | ok d =>
    rw [hd] at hask
    obtain ⟨d', hd', hdiff, hsub⟩ := hask.ok_left
    obtain ⟨r, hr, hmem⟩ := hok d hd
    obtain ⟨r', hr', hmem'⟩ := hok' d' hd'
    rw [hr, hr']
    intro x
    rw [hmem, hmem', hdiff x, hpart x]
    refine or_congr_right (or_congr_right ?_)
    cases hg : d.conflictedSubgraph with
    | none =>
      rw [hg] at hsub
      cases hg' : d'.conflictedSubgraph with
      | none => simp
      | some g' => rw [hg'] at hsub; cases hsub
    | some g =>
      rw [hg] at hsub
      cases hg' : d'.conflictedSubgraph with
      | none => rw [hg'] at hsub; cases hsub
      | some g' =>
        rw [hg'] at hsub
        cases hsub with
        | some hsub =>
          cases hconflicted with
          | none => simp [hsub x]
          | some hc =>
            simp only [getD_some, hsub _, mem_def, some.injEq, exists_eq_left',
              hP _ rfl, hP' _ rfl, hc _, hkeys _, hadd _, hempty, ne_eq]

end Difference

end Sithnapse.StateRes
