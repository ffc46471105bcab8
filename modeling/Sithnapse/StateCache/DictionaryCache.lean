import Sithnapse.Kit.Contract
import Sithnapse.StateCache.Filter

/-! The two dictionary caches of state groups.

    Each cache keeps, in one LRU map, single entries of a group's state (or that there is none) and
    full dictionaries. The programs below perform the LRU map's operations one at a time; before each
    of them any entries may have been evicted and either cache invalidated. State groups never change,
    so the caches can only ever say the truth about a group, each about its half of the state. -/

namespace Sithnapse.StateCache

open Kit List Function
open Kit.Dict hiding keys

variable {G V : Type} [DecidableEq G]

/-- The cache of member events, or of all others. -/
inductive Half
  | members
  | others
  deriving DecidableEq

/-- The keys of a half. -/
def Half.has : Half → StateKey → Bool
  | .members, k => k.1 = member
  | .others, k => k.1 ≠ member

/-- The LRU map of a `DictionaryCache`: entries under `(key, dict_key)`, where no value is the
    sentinel, and under `(key, FULL)`; and the sequence number. -/
structure Cache (G V : Type) where
  entries : Dict (G × StateKey) (Option V)
  full : Dict G (StateMap V)
  sequence : ℕ

/-- Both caches. -/
abbrev Caches (G V : Type) := Half → Cache G V

/-- What the environment does before an operation: the entries it leaves, and which caches it
    invalidates. -/
structure Evictions (G : Type) where
  keepEntry : Half → G × StateKey → Bool
  keepFull : Half → G → Bool
  invalidates : Half → Bool

/-- The operations of the programs: reads and writes of an LRU map, reads of a sequence number, and
    the query to the database. -/
inductive Op (G V : Type)
  | get (cache : Half) (group : G) (key : StateKey)
  | getFull (cache : Half) (group : G)
  | set (cache : Half) (group : G) (key : StateKey) (value : Option V)
  | setFull (cache : Half) (group : G) (value : StateMap V)
  | sequence (cache : Half)
  | getStateGroupsFromGroups (groups : List G) (stateFilter : StateFilter)

/-- The reply to an operation; a read of the LRU map may find nothing. -/
def Reply : Op G V → Type
  | .get _ _ _ => Option (Option V)
  | .getFull _ _ => Option (StateMap V)
  | .set _ _ _ _ => Unit
  | .setFull _ _ _ => Unit
  | .sequence _ => ℕ
  | .getStateGroupsFromGroups _ _ => Dict G (StateMap V)

abbrev CacheProg (G V α : Type) := Prog (Op G V) Reply α

variable (c : Half)

variable (key : G)

/-- `self.cache.get((key, dict_key))`. -/
def lruGet (dictKey : StateKey) : CacheProg G V (Option (Option V)) :=
  .op (.get c key dictKey) .done

/-- `self.cache.get((key, FULL))`. -/
def lruGetFull : CacheProg G V (Option (StateMap V)) := .op (.getFull c key) .done

/-- `self.cache[(key, dict_key)] = value`. -/
def lruSet (dictKey : StateKey) (value : Option V) : CacheProg G V Unit :=
  .op (.set c key dictKey value) .done

/-- `self.cache[(key, FULL)] = value`. -/
def lruSetFull (value : StateMap V) : CacheProg G V Unit :=
  .op (.setFull c key value) .done

/-- `cache.sequence`. -/
def readSequence : CacheProg G V ℕ := .op (.sequence c) .done

/-- `_get_state_groups_from_groups`. -/
def getStateGroupsFromGroups (groups : List G) (f : StateFilter) : CacheProg G V (Dict G (StateMap V)) :=
  .op (.getStateGroupsFromGroups groups f) .done

/-- The caches after the environment's evictions. -/
def Caches.evict (s : Caches G V) (e : Evictions G) : Caches G V := fun c =>
  { entries := (s c).entries.filter (e.keepEntry c)
    full := (s c).full.filter (e.keepFull c)
    sequence := if e.invalidates c then (s c).sequence + 1 else (s c).sequence }

/-- An operation on caches with their evictions done, where `state` gives each group's state. -/
def exec (state : G → StateMap V) (o : Op G V) (e : Evictions G) (caches : Caches G V) :
    Option (Reply o × Caches G V) :=
  let s := caches.evict e
  match o with
  | .get c g k => some ((s c).entries.get? (g, k), s)
  | .getFull c g => some ((s c).full.get? g, s)
  | .set c g k v =>
    some ((), update s c { s c with entries := (s c).entries.set (g, k) v })
  | .setFull c g d => some ((), update s c { s c with full := (s c).full.set g d })
  | .sequence c => some ((s c).sequence, s)
  | .getStateGroupsFromGroups groups f =>
    some (.ofList (groups.map fun g => (g, f.filterState (state g))), s)

/-! ### DictionaryCache -/

/-- `DictionaryEntry`. -/
structure DictionaryEntry (V : Type) where
  full : Bool
  knownAbsent : List StateKey
  value : StateMap V

/-- What the first loop of `get` has found. -/
structure Found (V : Type) where
  values : StateMap V
  knownAbsent : List StateKey
  missing : List StateKey

/-- One round of that loop. -/
def lookup (found : Found V) (dictKey : StateKey) : CacheProg G V (Found V) := do
  match ← lruGet c key dictKey with
  | none => return { found with missing := found.missing ++ [dictKey] }
  | some none => return { found with knownAbsent := addIf found.knownAbsent dictKey }
  | some (some v) => return { found with values := found.values.set dictKey v }

/-- One round of the loop that copies entries out of the full dictionary. -/
def copyEntry (full values : StateMap V) (dictKey : StateKey) : CacheProg G V (StateMap V) := do
  lruSet c key dictKey (full.get? dictKey)
  match full.get? dictKey with
  | some v => return values.set dictKey v
  | none => return values

/-- `_get_full_dict`. -/
def getFullDict : CacheProg G V (DictionaryEntry V) := do
  match ← lruGetFull c key with
  | some entry => return ⟨true, [], entry⟩
  | none => return ⟨false, [], .empty⟩

/-- `DictionaryCache.get`. -/
def get : Option (List StateKey) → CacheProg G V (DictionaryEntry V)
  | none => getFullDict c key
  | some dictKeys => do
    let found ← dictKeys.foldlM (lookup c key) ⟨.empty, [], []⟩
    if found.missing.isEmpty then
      return ⟨false, found.knownAbsent, found.values⟩
    else
      match ← lruGetFull c key with
      | none => return ⟨false, found.knownAbsent, found.values⟩
      | some entry =>
        let values ← found.missing.foldlM (copyEntry c key entry) found.values
        return ⟨true, [], values⟩

/-- `_update_subset`. -/
def updateSubset (value : StateMap V) (fetchedKeys : List StateKey) : CacheProg G V Unit := do
  value.entries.foldlM (fun _ p => lruSet c key p.1 (some p.2)) ()
  fetchedKeys.foldlM (fun _ k =>
    if k ∈ value.keys then return () else lruSet c key k none) ()

/-- `DictionaryCache.update`. -/
def update (sequence : ℕ) (key : G) (value : StateMap V)
    (fetchedKeys : Option (List StateKey)) : CacheProg G V Unit := do
  let current ← readSequence c
  if current = sequence then
    match fetchedKeys with
    | none => lruSetFull c key value
    | some keys => updateSubset c key value keys

/-! ### What the caches may say -/

section Contract

variable (state : G → StateMap V)

/-- A group's entry under a key, if the key belongs to the half. -/
def truth (c : Half) (g : G) (k : StateKey) : Option V := if c.has k then (state g).get? k else none

/-- Only the truth is written, and only the truth is read. -/
def contract : Contract (Op G V) Reply where
  pre
    | .set c g k v => v = truth state c g k
    | .setFull c g d => ∀ k, d.get? k = truth state c g k
    | _ => True
  post
    | .get c g k => fun reply => ∀ v, reply = some v → v = truth state c g k
    | .getFull c g => fun reply => ∀ d, reply = some d → ∀ k, d.get? k = truth state c g k
    | .getStateGroupsFromGroups groups f => fun reply =>
      (∀ g, g ∈ reply.keys ↔ g ∈ groups) ∧ ∀ g d, reply.get? g = some d → d = f.filterState (state g)
    | _ => fun _ => True

/-- Everything in the caches is true. -/
def Truthful (s : Caches G V) : Prop := ∀ c,
  (∀ g k v, (s c).entries.get? (g, k) = some v → v = truth state c g k) ∧
  ∀ g d, (s c).full.get? g = some d → ∀ k, d.get? k = truth state c g k

variable {state}

variable {s : Caches G V} {k : StateKey} {g : G}

theorem Truthful.evict (h : Truthful state s) (e : Evictions G) : Truthful state (s.evict e) := fun c =>
  ⟨fun g k v hv => (h c).1 g k v (get?_of_filter hv), fun g d hd => (h c).2 g d (get?_of_filter hd)⟩

theorem Truthful.set (h : Truthful state s) (c : Half) {v : Option V} (hv : v = truth state c g k) :
    Truthful state (Function.update s c { s c with entries := (s c).entries.set (g, k) v }) := by
  intro c'
  rcases eq_or_ne c' c with rfl | hc
  · rw [update_self]
    refine ⟨fun g' k' v' hget => ?_, (h c').2⟩
    rcases get?_set_cases hget with ⟨hkey, rfl⟩ | hget
    · obtain ⟨rfl, rfl⟩ := Prod.mk.injEq .. ▸ hkey
      exact hv
    · exact (h c').1 g' k' v' hget
  · rw [update_of_ne hc]
    exact h c'

theorem Truthful.setFull (h : Truthful state s) (c : Half) {d : StateMap V}
    (hd : ∀ k, d.get? k = truth state c g k) :
    Truthful state (Function.update s c { s c with full := (s c).full.set g d }) := by
  intro c'
  rcases eq_or_ne c' c with rfl | hc
  · rw [update_self]
    refine ⟨(h c').1, fun g' d' hget => ?_⟩
    rcases get?_set_cases hget with ⟨rfl, rfl⟩ | hget
    · exact hd
    · exact (h c').2 g' d' hget
  · rw [update_of_ne hc]
    exact h c'

theorem post_getStateGroupsFromGroups (groups : List G) (f : StateFilter) :
    (contract state).post (.getStateGroupsFromGroups groups f)
      (Dict.ofList (groups.map fun g => (g, f.filterState (state g)))) := by
  refine ⟨fun g => ?_, fun g d hd => ?_⟩
  · rw [mem_keys_ofList, map_map]
    simp
  · rcases get?_update_cases _ _ hd with hmem | hempty
    · obtain ⟨g', -, hpair⟩ := mem_map.mp hmem
      obtain ⟨rfl, rfl⟩ := Prod.mk.injEq .. ▸ hpair
      rfl
    · cases hempty

/-- Truthful caches fulfil the contract, whatever is evicted. -/
theorem exec_contract {o : Op G V} {e : Evictions G} (h : Truthful state s)
    (hpre : (contract state).pre o) :
    ∃ r s', exec state o e s = some (r, s') ∧ Truthful state s' ∧ (contract state).post o r := by
  have hev := h.evict e
  cases o with
  | get c g k => exact ⟨_, _, rfl, hev, fun v hv => (hev c).1 g k v hv⟩
  | getFull c g => exact ⟨_, _, rfl, hev, fun d hd => (hev c).2 g d hd⟩
  | set c g k v => exact ⟨_, _, rfl, hev.set c hpre, trivial⟩
  | setFull c g d => exact ⟨_, _, rfl, hev.setFull c hpre, trivial⟩
  | sequence c => exact ⟨_, _, rfl, hev, trivial⟩
  | getStateGroupsFromGroups groups f =>
    exact ⟨_, _, rfl, hev, post_getStateGroupsFromGroups groups f⟩

/-! ### What the cache's functions return -/

variable (c : Half)

theorem op_meets (o : Op G V) (h : (contract state).pre o) :
    (Prog.op o .done : CacheProg G V (Reply o)).Meets (contract state) ((contract state).post o) :=
  ⟨h, fun _ hr => hr⟩

/-- What `get` promises about a group's half: values and absences are true, and a full entry has all
    the values asked for. -/
structure EntryFor (state : G → StateMap V) (c : Half) (g : G) (dictKeys : Option (List StateKey))
    (entry : DictionaryEntry V) : Prop where
  value : ∀ k v, entry.value.get? k = some v → truth state c g k = some v
  absent : ∀ k ∈ entry.knownAbsent, truth state c g k = none
  full : entry.full = true → ∀ k, (∀ keys, dictKeys = some keys → k ∈ keys) →
    entry.value.get? k = truth state c g k

/-- The first loop keeps true what it found, and has placed every key it visited. -/
structure FoundFor (state : G → StateMap V) (c : Half) (g : G) (visited : List StateKey)
    (found : Found V) : Prop where
  value : ∀ k v, found.values.get? k = some v → truth state c g k = some v
  absent : ∀ k ∈ found.knownAbsent, truth state c g k = none
  placed : ∀ k ∈ visited, k ∈ found.missing ∨ found.values.get? k = truth state c g k

theorem lookup_meets {c : Half} {visited : List StateKey} {found : Found V}
    (h : FoundFor state c g visited found) :
    (lookup c g found k).Meets (contract state) (FoundFor state c g (visited ++ [k])) := by
  refine (op_meets (.get c g k) trivial).bind fun reply hreply => ?_
  match reply, hreply with
  | none, _ =>
    refine ⟨h.value, h.absent, fun k' hk' => ?_⟩
    rcases mem_append.mp hk' with hk' | hk'
    · exact (h.placed k' hk').imp (mem_append_left _) id
    · exact .inl (mem_append_right _ hk')
  | some none, hreply =>
    have htruth : truth state c g k = none := (hreply none rfl).symm
    refine ⟨h.value, fun k' hk' => ?_, fun k' hk' => ?_⟩
    · rcases mem_addIf.mp hk' with hk' | rfl
      · exact h.absent k' hk'
      · exact htruth
    · rcases mem_concat.mp hk' with hk' | rfl
      · exact h.placed k' hk'
      · refine .inr ?_
        cases hval : found.values.get? k' with
        | none => exact htruth.symm
        | some v => exact (h.value k' v hval).symm
  | some (some v), hreply =>
    have htruth : truth state c g k = some v := (hreply (some v) rfl).symm
    have hset : ∀ k', (found.values.set k v).get? k' =
        if k' = k then some v else found.values.get? k' := fun k' => found.values.get?_set k k' v
    refine ⟨fun k' v' hv' => ?_, h.absent, fun k' hk' => ?_⟩
    · rw [hset] at hv'
      split_ifs at hv' with hk
      · rw [hk, htruth, hv']
      · exact h.value k' v' hv'
    · rw [hset]
      by_cases hk : k' = k
      · rw [if_pos hk, hk, htruth]
        exact .inr rfl
      · rw [if_neg hk]
        exact h.placed k' ((mem_concat.mp hk').resolve_right hk)

/-- The entries copied out of the full dictionary are true, as those found before. -/
theorem copyEntry_meets {c : Half} {full values : StateMap V}
    (hfull : ∀ k, full.get? k = truth state c g k) {settled : List StateKey}
    (h : ∀ k v, values.get? k = some v → truth state c g k = some v)
    (hsettled : ∀ k ∈ settled, values.get? k = truth state c g k) :
    (copyEntry c g full values k).Meets (contract state) fun values' =>
      (∀ k v, values'.get? k = some v → truth state c g k = some v) ∧
        ∀ k' ∈ settled ++ [k], values'.get? k' = truth state c g k' := by
  refine (op_meets (.set c g k _) (hfull k)).bind fun _ _ => ?_
  cases hk : full.get? k with
  | none =>
    refine ⟨h, forall_mem_concat.mpr ⟨hsettled, ?_⟩⟩
    rw [hfull] at hk
    cases hval : values.get? k with
    | none => exact hk.symm
    | some v => exact (h k v hval).symm
  | some v =>
    rw [hfull] at hk
    refine ⟨fun k' v' hv' => ?_, fun k' hk' => ?_⟩
    · rw [get?_set] at hv'
      split_ifs at hv' with hkk
      · rw [hkk, hk, hv']
      · exact h k' v' hv'
    · rw [get?_set]
      by_cases hkk : k' = k
      · rw [if_pos hkk, hkk, hk]
      · rw [if_neg hkk]
        exact hsettled k' ((mem_concat.mp hk').resolve_right hkk)

theorem getFullDict_meets (g : G) :
    (getFullDict c g).Meets (contract state) (EntryFor state c g none) := by
  refine (op_meets (.getFull c g) trivial).bind fun reply hreply => ?_
  cases reply with
  | none => exact ⟨nofun, nofun, nofun⟩
  | some d =>
    have hd := hreply d rfl
    exact ⟨fun k v hv => hd k ▸ hv, nofun, fun _ k _ => hd k⟩

/-- `get` returns the truth, and all of it where it says so. -/
theorem get_meets (g : G) (dictKeys : Option (List StateKey)) :
    (get c g dictKeys).Meets (contract state) (EntryFor state c g dictKeys) := by
  cases dictKeys with
  | none => exact getFullDict_meets c g
  | some keys =>
    have hloop : (keys.foldlM (lookup c g) ⟨.empty, [], []⟩).Meets (contract state)
        (FoundFor state c g keys) :=
      Prog.Meets.foldlM (fun _ _ _ _ h => lookup_meets h)
        ⟨nofun, nofun, nofun⟩
    refine hloop.bind fun found hfound => ?_
    have hpartial : EntryFor state c g (some keys) ⟨false, found.knownAbsent, found.values⟩ :=
      ⟨hfound.value, hfound.absent, nofun⟩
    split
    · exact hpartial
    · refine (op_meets (.getFull c g) trivial).bind fun reply hreply => ?_
      cases reply with
      | none => exact hpartial
      | some full =>
        -- the keys found before stay settled while the missing ones are copied
        obtain ⟨settled, hdef⟩ : ∃ l, l = keys.filter (· ∉ found.missing) := ⟨_, rfl⟩
        have hsettled : ∀ k ∈ settled, found.values.get? k = truth state c g k := by
          intro k hk
          rw [hdef, mem_filter, decide_eq_true_eq] at hk
          exact (hfound.placed k hk.1).resolve_left hk.2
        have hcopy := Prog.Meets.foldlM
          (I := fun copied values => (∀ k v, values.get? k = some v → truth state c g k = some v) ∧
            ∀ k ∈ settled ++ copied, values.get? k = truth state c g k) (l := found.missing)
          (fun pre k values _ hI => (copyEntry_meets (hreply full rfl) hI.1 hI.2).mono
            fun values' h => ⟨h.1, by rw [← append_assoc]; exact h.2⟩)
          ⟨hfound.value, by rw [append_nil]; exact hsettled⟩
        refine hcopy.bind fun values hvalues => ?_
        refine ⟨hvalues.1, nofun, fun _ k hk => ?_⟩
        refine hvalues.2 k (mem_append.mpr ?_)
        by_cases hmissing : k ∈ found.missing
        · exact .inr hmissing
        · rw [hdef]
          exact .inl (mem_filter.mpr ⟨hk keys rfl, decide_eq_true hmissing⟩)

/-- An update with a group's half as far as some keys go: full, or those keys and no others. -/
theorem update_meets (sequence : ℕ) {value : StateMap V} {fetchedKeys : Option (List StateKey)}
    (hvalue : ∀ k v, value.get? k = some v → truth state c g k = some v)
    (hfetched : ∀ k, (∀ keys, fetchedKeys = some keys → k ∈ keys) → value.get? k = truth state c g k) :
    (update c sequence g value fetchedKeys).Meets (contract state) fun _ => True := by
  refine (op_meets (.sequence c) trivial).bind fun current _ => ?_
  split
  · cases fetchedKeys with
    | none => exact op_meets (.setFull c g value) fun k => hfetched k nofun
    | some keys =>
      have hputs : (value.entries.foldlM (fun _ p => lruSet c g p.1 (some p.2)) ()).Meets
          (contract state) fun _ => True :=
        Prog.Meets.foldlM (I := fun _ _ => True) (fun _ p _ hp _ => by
          exact op_meets (.set c g p.1 _) (hvalue p.1 p.2 (get?_eq_some_iff.mpr hp)).symm) trivial
      refine hputs.bind fun _ _ => ?_
      refine Prog.Meets.foldlM (I := fun _ _ => True) (fun _ k _ hk _ => ?_) trivial
      split_ifs with habsent
      · exact trivial
      · refine op_meets (.set c g k _) (?_ : none = truth state c g k)
        rw [← hfetched k fun keys' h => Option.some.inj h ▸ hk]
        exact (get?_eq_none_iff.mpr habsent).symm
  · exact trivial

end Contract

end Sithnapse.StateCache
