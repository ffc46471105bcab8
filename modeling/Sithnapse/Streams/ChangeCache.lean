import Mathlib.Data.List.Sort
import Sithnapse.Kit.Dict

/-! The stream change cache: the position of the latest change of each entity.

    Two indexes are kept together, from positions to the entities that changed last there and from an
    entity to that position. When there are too many positions the smallest are forgotten, and the
    horizon `_earliest_known_stream_pos` moves up: below it every answer is "may have changed". -/

namespace Sithnapse.Streams
open Kit Kit.Dict List Function

variable {E : Type} [DecidableEq E]

structure StreamChangeCache (E : Type) where
  maxSize : ℕ
  cache : Dict ℤ (List E)
  entityToKey : E → Option ℤ
  earliestKnownStreamPos : ℤ

namespace StreamChangeCache

variable (currentStreamPos : ℤ)

/-- The constructor; prefilled entries are reported afterwards. -/
def new (maxSize : ℕ) : StreamChangeCache E :=
  ⟨maxSize, .empty, fun _ => none, currentStreamPos⟩

variable (c : StreamChangeCache E)

/-- The positions in the order of the sorted dictionary. -/
def positions : List ℤ := c.cache.keys.mergeSort (· ≤ ·)

/-- The position `k` is forgotten. -/
def popitem (k : ℤ) : StreamChangeCache E :=
  { c with
    cache := c.cache.filter (· ≠ k)
    earliestKnownStreamPos := max k c.earliestKnownStreamPos
    entityToKey := fun e => if e ∈ c.cache.getD k [] then none else c.entityToKey e }

/-- `while len(self._cache) > self._max_size`, the positions from the smallest on. -/
def evictFrom : List ℤ → StreamChangeCache E → StreamChangeCache E
  | [], c => c
  | k :: ks, c => if c.cache.keys.length ≤ c.maxSize then c else evictFrom ks (c.popitem k)

def evict : StreamChangeCache E := evictFrom c.positions c

/-- `set_cache_factor`, for a new maximum size. -/
def resize (newSize : ℕ) : StreamChangeCache E :=
  if newSize = c.maxSize then c else evict { c with maxSize := newSize }

/-- The entity is filed at a new position. -/
def file (entity : E) (pos : ℤ) : StreamChangeCache E :=
  let there := c.cache.getD pos []
  { c with
    cache := c.cache.set pos (if entity ∈ there then there else there ++ [entity])
    entityToKey := update c.entityToKey entity (some pos) }

/-- The entity is taken from its old position; `none` is a `KeyError`. -/
def unfile (entity : E) (old : ℤ) : Option (StreamChangeCache E) :=
  match c.cache.get? old with
  | none => none
  | some e =>
    if entity ∈ e then
      let rest := e.filter (· ≠ entity)
      some { c with cache := if rest = [] then c.cache.filter (· ≠ old) else c.cache.set old rest }
    else none

def entityHasChanged (entity : E) (pos : ℤ) : Option (StreamChangeCache E) :=
  if pos ≤ c.earliestKnownStreamPos then some c
  else
    match c.entityToKey entity with
    | none => some (c.file entity pos).evict
    | some old => if pos ≤ old then some c else (c.unfile entity old).map fun c => (c.file entity pos).evict

def hasEntityChanged (entity : E) (pos : ℤ) : Bool :=
  if pos < c.earliestKnownStreamPos then true
  else
    match c.entityToKey entity with
    | none => false
    | some latest => pos < latest

/-- `none` is a miss. -/
def getAllEntitiesChanged (pos : ℤ) : Option (List E) :=
  if pos < c.earliestKnownStreamPos then none
  else some ((c.positions.filter (pos < ·)).flatMap fun k => c.cache.getD k [])

/-- `isSet` says whether the entities were given as a set; `max_stream_pos` is the last position. -/
def getEntitiesChanged (isSet : Bool) (entities : List E) (pos : ℤ) (perfFactor : ℤ) : List E :=
  match c.positions.getLast? with
  | none => entities
  | some maxStreamPos =>
    if pos < c.earliestKnownStreamPos then entities
    else if maxStreamPos - pos > perfFactor * entities.length then
      entities.filter fun e => (c.entityToKey e).getD (-1) > pos
    else
      match c.getAllEntitiesChanged pos with
      | none => entities
      | some changed =>
        if !isSet && changed.length < entities.length then changed.filter (· ∈ entities)
        else entities.filter (· ∈ changed)

/-- What the queries say of an entity that may have changed after a position. -/
def MayHaveChanged (e : E) (q : ℤ) : Prop :=
  c.hasEntityChanged e q = true ∧
    ∀ isSet entities perfFactor, e ∈ entities → e ∈ c.getEntitiesChanged isSet entities q perfFactor

/-! ### What the two indexes keep -/

/-- The two indexes agree above the horizon, and know the latest of the changes reported there. -/
structure Sound (log : List (E × ℤ)) (c : StreamChangeCache E) : Prop where
  index : ∀ e k, c.entityToKey e = some k ↔ e ∈ c.cache.getD k []
  above : ∀ k ∈ c.cache.keys, c.earliestKnownStreamPos < k
  latest : ∀ e k, c.entityToKey e = some k → IsGreatest {p | (e, p) ∈ log} k
  known : ∀ e p, (e, p) ∈ log → c.earliestKnownStreamPos < p → ∃ k, c.entityToKey e = some k

variable {log : List (E × ℤ)} {c : StreamChangeCache E}

omit [DecidableEq E] in
theorem sound_new (pos : ℤ) (maxSize : ℕ) : Sound [] (new pos maxSize : StreamChangeCache E) where
  index e k := by simp [new]
  above k h := by simp [new, Dict.empty, Dict.keys] at h
  latest e k h := by simp [new] at h
  known e p h := by simp at h

variable (d : Dict ℤ (List E))

omit [DecidableEq E] in
theorem mem_keys_filter_ne {k k' : ℤ} :
    k' ∈ (d.filter (· ≠ k)).keys ↔ k' ∈ d.keys ∧ k' ≠ k := by
  simp only [Dict.filter, Dict.keys, mem_map, mem_filter, decide_eq_true_eq]
  grind

omit [DecidableEq E] in
theorem getD_filter_ne (k k' : ℤ) :
    (d.filter (· ≠ k)).getD k' [] = if k' = k then [] else d.getD k' [] := by
  have hget : (d.filter (· ≠ k)).get? k' = if k' = k then none else d.get? k' := by
    ext v
    rw [get?_eq_some_iff, Dict.filter, mem_filter]
    split <;> simp_all [get?_eq_some_iff]
  rw [Dict.getD, hget]
  split <;> rfl

omit [DecidableEq E] in
/-- A set that becomes empty is deleted. -/
theorem getD_shrink (old k : ℤ) (rest : List E) [Decidable (rest = [])] :
    (if rest = [] then d.filter (· ≠ old) else d.set old rest).getD k [] =
      if k = old then rest else d.getD k [] := by
  split
  · rename_i hrest
    rw [getD_filter_ne, hrest]
  · exact getD_set ..

omit [DecidableEq E] in
theorem Sound.lt (h : Sound log c) {e : E} {k : ℤ} (hk : c.entityToKey e = some k) :
    c.earliestKnownStreamPos < k :=
  h.above k (mem_keys_of_mem_getD ((h.index e k).mp hk))

/-- Forgetting the smallest position. -/
theorem Sound.popitem (h : Sound log c) {k : ℤ} (hleast : ∀ k' ∈ c.cache.keys, k ≤ k') :
    Sound log (c.popitem k) := by
  constructor
  · intro e k'
    have hindex := h.index e
    simp only [StreamChangeCache.popitem, getD_filter_ne, ← hindex]
    grind
  · intro k' hk'
    obtain ⟨hk', hne⟩ := (mem_keys_filter_ne _).mp hk'
    have := hleast k' hk'
    have := h.above k' hk'
    simp only [StreamChangeCache.popitem]
    omega
  · intro e k' hk'
    simp only [StreamChangeCache.popitem] at hk'
    exact h.latest e k' (by grind)
  · intro e p hp hpos
    simp only [StreamChangeCache.popitem, ← h.index] at hpos ⊢
    obtain ⟨k', hk'⟩ := h.known e p hp (by omega)
    have hle : p ≤ k' := (h.latest e k' hk').2 hp
    grind

/-- The loop: what is left of the list are the positions there are, in order. -/
theorem Sound.evictFrom : ∀ (ks : List ℤ) {c : StreamChangeCache E}, Sound log c → ks.Pairwise (· < ·) →
    (∀ k, k ∈ ks ↔ k ∈ c.cache.keys) → Sound log (evictFrom ks c)
  | [], _, h, _, _ => h
  | k :: ks, c, h, hsorted, hks => by
    rw [StreamChangeCache.evictFrom]
    split
    · exact h
    · obtain ⟨hk, hsorted⟩ := pairwise_cons.mp hsorted
      refine Sound.evictFrom ks (h.popitem fun k' hk' => ?_) hsorted fun k' => ?_
      · rcases mem_cons.mp ((hks k').mpr hk') with rfl | hmem
        · exact le_refl _
        · exact (hk k' hmem).le
      · have := hks k'
        simp only [StreamChangeCache.popitem, mem_keys_filter_ne]
        grind

omit [DecidableEq E] in
theorem mem_positions {k : ℤ} : k ∈ c.positions ↔ k ∈ c.cache.keys := mem_mergeSort

omit [DecidableEq E] in
theorem positions_sorted (c : StreamChangeCache E) : c.positions.Pairwise (· < ·) := by
  have hle : c.positions.Pairwise (· ≤ ·) := pairwise_mergeSort' (· ≤ ·) c.cache.keys
  have hnodup : c.positions.Nodup := (mergeSort_perm _ _).nodup_iff.mpr c.cache.nodup
  exact (hle.and hnodup).imp fun h => lt_of_le_of_ne h.1 h.2

section

variable (h : Sound log c)

include h

theorem Sound.evict : Sound log c.evict :=
  h.evictFrom _ c.positions_sorted fun _ => mem_positions

theorem Sound.resize (n : ℕ) : Sound log (c.resize n) := by
  rw [StreamChangeCache.resize]
  split
  · exact h
  · exact Sound.evict { h with }

omit [DecidableEq E] in
/-- A report at or below the horizon, or below what is known, changes nothing. -/
theorem Sound.old {e : E} {p : ℤ}
    (hp : p ≤ c.earliestKnownStreamPos ∨ ∃ k, c.entityToKey e = some k ∧ p ≤ k) : Sound (log ++ [(e, p)]) c where
  index := h.index
  above := h.above
  latest e' k hk := by
    have := h.lt hk
    have hlatest := h.latest e' k hk
    refine ⟨mem_append_left _ hlatest.1, fun p' hp' => ?_⟩
    rcases mem_append.mp hp' with hp' | hp'
    · exact hlatest.2 hp'
    · grind
  known e' p' hp' hpos := by
    rcases mem_append.mp hp' with hp' | hp'
    · exact h.known e' p' hp' hpos
    · grind

/-- A newer report moves the entity: it is at the new position and nowhere else. -/
theorem Sound.moved {c' : StreamChangeCache E} {e : E} {p : ℤ}
    (hpos : c'.earliestKnownStreamPos = c.earliestKnownStreamPos) (hp : c.earliestKnownStreamPos < p)
    (hnew : ∀ k, c.entityToKey e = some k → k < p)
    (hkey : c'.entityToKey = update c.entityToKey e (some p))
    (hkeys : ∀ k ∈ c'.cache.keys, k = p ∨ k ∈ c.cache.keys)
    (hcache : ∀ k e', e' ∈ c'.cache.getD k [] ↔ if e' = e then k = p else e' ∈ c.cache.getD k []) :
    Sound (log ++ [(e, p)]) c' where
  index e' k := by
    rw [hcache, hkey, update_apply, ← h.index]
    grind
  above k hk := by
    rcases hkeys k hk with rfl | hk
    · omega
    · have := h.above k hk
      omega
  latest e' k hk := by
    rw [hkey, update_apply] at hk
    split_ifs at hk with heq
    · subst heq
      cases hk
      refine ⟨by simp, fun p' hp' => ?_⟩
      rcases mem_append.mp hp' with hp' | hp'
      · by_cases hlow : c.earliestKnownStreamPos < p'
        · obtain ⟨k', hk'⟩ := h.known e' p' hp' hlow
          exact ((h.latest e' k' hk').2 hp').trans (hnew k' hk').le
        · omega
      · grind
    · have hlatest := h.latest e' k hk
      refine ⟨mem_append_left _ hlatest.1, fun p' hp' => hlatest.2 ?_⟩
      simpa [heq] using hp'
  known e' p' hp' hlow := by
    rw [hkey, update_apply]
    split_ifs with hne
    · exact ⟨p, rfl⟩
    · exact h.known e' p' (by simpa [hne] using hp') (hpos ▸ hlow)

/-- Reporting a change never fails. -/
theorem Sound.entityHasChanged (e : E) (p : ℤ) :
    ∃ c', c.entityHasChanged e p = some c' ∧ Sound (log ++ [(e, p)]) c' := by
  rw [StreamChangeCache.entityHasChanged]
  split_ifs with hp
  · exact ⟨c, rfl, h.old (.inl ‹_›)⟩
  · cases hk : c.entityToKey e with
    | none =>
      have hnot : ∀ k, e ∉ c.cache.getD k [] := fun k => by
        rw [← h.index, hk]
        exact nofun
      refine ⟨_, rfl, Sound.evict (h.moved rfl (not_le.mp hp) (by simp [hk]) rfl ?_ ?_)⟩
      · exact fun k hk => mem_keys_set.mp hk
      · intro k e'
        simp only [file, getD_set, hnot, if_false]
        grind
    | some old =>
      simp only
      split
      · exact ⟨c, rfl, h.old (.inr ⟨old, hk, ‹_›⟩)⟩
      · rename_i hold
        have hmem := (h.index e old).mp hk
        have honly : ∀ k, e ∈ c.cache.getD k [] → k = old := fun k he => by
          rw [← h.index, hk] at he
          exact (Option.some.inj he).symm
        obtain ⟨s, hs⟩ := mem_keys_iff.mp (mem_keys_of_mem_getD hmem)
        rw [getD_of_get? hs] at hmem
        simp only [unfile, hs, hmem, if_true, Option.map_some]
        refine ⟨_, rfl, Sound.evict (h.moved rfl (not_le.mp hp) (by grind) rfl ?_ ?_)⟩
        · intro k hk
          rcases mem_keys_set.mp hk with hk | hk
          · exact .inl hk
          · have := mem_keys_iff (d := c.cache) (k := old)
            split at hk
            · exact .inr ((mem_keys_filter_ne _).mp hk).1
            · rw [mem_keys_set] at hk
              grind
        · intro k e'
          have hold' := getD_of_get? (w := []) hs
          have hmem' := honly k
          simp only [file, getD_set, getD_shrink]
          grind

end

/-! ### Runs -/

inductive Op (E : Type) where
  | entityHasChanged (entity : E) (pos : ℤ)
  | resize (newSize : ℕ)

def step (c : StreamChangeCache E) : Op E → Option (StreamChangeCache E)
  | .entityHasChanged entity pos => c.entityHasChanged entity pos
  | .resize newSize => some (c.resize newSize)

/-- The changes reported in a run. -/
def reported (ops : List (Op E)) : List (E × ℤ) :=
  ops.filterMap fun
    | .entityHasChanged entity pos => some (entity, pos)
    | .resize _ => none

theorem Sound.run : ∀ (ops : List (Op E)) {c : StreamChangeCache E} {log : List (E × ℤ)}, Sound log c →
    ∃ c', ops.foldlM step c = some c' ∧ Sound (log ++ reported ops) c'
  | [], c, log, h => ⟨c, rfl, by simpa [reported] using h⟩
  | .resize n :: ops, c, log, h => Sound.run ops (h.resize n)
  | .entityHasChanged e p :: ops, c, log, h => by
    obtain ⟨c₁, hstep, h₁⟩ := h.entityHasChanged e p
    obtain ⟨c', hrun, h'⟩ := Sound.run ops h₁
    refine ⟨c', ?_, by rwa [append_assoc] at h'⟩
    rw [foldlM_cons, show step c (.entityHasChanged e p) = some c₁ from hstep]
    exact hrun

/-! ### Queries -/

omit [DecidableEq E] in
/-- Above the horizon, the entities filed later are those with a later report. -/
theorem Sound.later_iff (h : Sound log c) {q : ℤ} (hq : c.earliestKnownStreamPos ≤ q) (e : E) :
    (∃ k, c.entityToKey e = some k ∧ q < k) ↔ ∃ p, IsGreatest {p | (e, p) ∈ log} p ∧ q < p := by
  constructor
  · exact fun ⟨k, hk, hlt⟩ => ⟨k, h.latest e k hk, hlt⟩
  · rintro ⟨p, hp, hlt⟩
    obtain ⟨k, hk⟩ := h.known e p hp.1 (by omega)
    exact ⟨k, hk, hlt.trans_le ((h.latest e k hk).2 hp.1)⟩

omit [DecidableEq E] in
theorem Sound.mem_getAllEntitiesChanged (h : Sound log c) {q : ℤ} {l : List E}
    (hl : c.getAllEntitiesChanged q = some l) (e : E) : e ∈ l ↔ ∃ k, c.entityToKey e = some k ∧ q < k := by
  rw [getAllEntitiesChanged] at hl
  split at hl
  · cases hl
  · cases hl
    simp only [mem_flatMap, mem_filter, mem_positions, decide_eq_true_eq, ← h.index]
    constructor
    · rintro ⟨k, ⟨-, hlt⟩, hk⟩
      exact ⟨k, hk, hlt⟩
    · rintro ⟨k, hk, hlt⟩
      exact ⟨k, ⟨mem_keys_of_mem_getD ((h.index e k).mp hk), hlt⟩, hk⟩

/-- Above the horizon both strategies give the entities filed later. -/
theorem Sound.mem_getEntitiesChanged (h : Sound log c) (hne : c.cache.keys ≠ []) {q : ℤ} (hq₀ : 0 ≤ q)
    (hq : c.earliestKnownStreamPos ≤ q) (isSet : Bool) (entities : List E) (perfFactor : ℤ) (e : E) :
    e ∈ c.getEntitiesChanged isSet entities q perfFactor ↔
      e ∈ entities ∧ ∃ k, c.entityToKey e = some k ∧ q < k := by
  have hpos : c.positions ≠ [] := fun hnil => hne (eq_nil_iff_forall_not_mem.mpr fun k hk => by
    simpa [hnil] using (mem_positions (c := c)).mpr hk)
  rw [getEntitiesChanged, getLast?_eq_some_getLast hpos]
  simp only [if_neg (not_lt.mpr hq)]
  split
  · rw [mem_filter, decide_eq_true_eq]
    cases c.entityToKey e with
    | none => simp; omega
    | some k => simp
  · obtain ⟨l, hl⟩ : ∃ l, c.getAllEntitiesChanged q = some l := ⟨_, if_neg (not_lt.mpr hq)⟩
    have hmem := h.mem_getAllEntitiesChanged hl e
    rw [hl]
    simp only
    split <;> simp [hmem, and_comm]

/-- Below the horizon every entity may have changed. -/
theorem mayHaveChanged_of_lt {q : ℤ} (hq : q < c.earliestKnownStreamPos) (e : E) : c.MayHaveChanged e q := by
  refine ⟨if_pos hq, fun isSet entities perfFactor he => ?_⟩
  rw [getEntitiesChanged]
  split
  · exact he
  · rwa [if_pos hq]

/-- A change reported after the queried position shows in every answer. -/
theorem Sound.shows (h : Sound log c) {e : E} {p q : ℤ} (hp : (e, p) ∈ log) (hlt : q < p) :
    c.MayHaveChanged e q ∧ ∀ l, c.getAllEntitiesChanged q = some l → e ∈ l := by
  by_cases hq : q < c.earliestKnownStreamPos
  · have hall : c.getAllEntitiesChanged q = none := if_pos hq
    exact ⟨mayHaveChanged_of_lt hq e, fun l hl => by simp [hall] at hl⟩
  · obtain ⟨k, hk⟩ := h.known e p hp (by omega)
    have hqk : q < k := hlt.trans_le ((h.latest e k hk).2 hp)
    obtain ⟨changed, hchanged⟩ : ∃ l, c.getAllEntitiesChanged q = some l := ⟨_, if_neg hq⟩
    have hmem : e ∈ changed := (h.mem_getAllEntitiesChanged hchanged e).mpr ⟨k, hk, hqk⟩
    refine ⟨⟨?_, fun isSet entities perfFactor he => ?_⟩, fun l hl => ?_⟩
    · rw [hasEntityChanged, if_neg hq, hk]
      exact decide_eq_true hqk
    · rw [getEntitiesChanged]
      split
      · exact he
      · rw [if_neg hq, hchanged]
        dsimp only
        split_ifs
        · exact mem_filter.mpr ⟨he, by simpa [hk] using hqk⟩
        · exact mem_filter.mpr ⟨hmem, decide_eq_true he⟩
        · exact mem_filter.mpr ⟨he, decide_eq_true hmem⟩
    · rwa [← Option.some.inj (hchanged.symm.trans hl)]

/-- In every run, a change reported after the queried position shows in every answer; and within its range
    a cache that holds anything tells exactly the entities whose latest change is later. -/
theorem change_cache_exact (maxSize : ℕ) (ops : List (Op E)) :
    ∃ c, ops.foldlM step (new currentStreamPos maxSize) = some c ∧ ∀ q ≥ 0,
      (∀ e p, (e, p) ∈ reported ops → q < p → c.hasEntityChanged e q = true ∧
        (∀ isSet entities perfFactor, e ∈ entities → e ∈ c.getEntitiesChanged isSet entities q perfFactor) ∧
        ∀ l, c.getAllEntitiesChanged q = some l → e ∈ l) ∧
      (c.cache.keys ≠ [] → c.earliestKnownStreamPos ≤ q → ∀ isSet entities perfFactor e,
        e ∈ c.getEntitiesChanged isSet entities q perfFactor ↔
          e ∈ entities ∧ ∃ p, IsGreatest {p | (e, p) ∈ reported ops} p ∧ q < p) := by
  obtain ⟨c, hrun, h⟩ := Sound.run ops (sound_new currentStreamPos maxSize)
  rw [nil_append] at h
  refine ⟨c, hrun, fun q hq₀ => ⟨fun e p hp hlt => ?_, fun hne hq isSet entities perfFactor e => ?_⟩⟩
  · obtain ⟨⟨hchanged, hgiven⟩, hall⟩ := h.shows hp hlt
    exact ⟨hchanged, hgiven, hall⟩
  · rw [h.mem_getEntitiesChanged hne hq₀ hq, h.later_iff hq]

/-! ### Everything changed -/

def allEntitiesChanged (c : StreamChangeCache E) (pos : ℤ) : StreamChangeCache E :=
  { c with cache := .empty, entityToKey := fun _ => none, earliestKnownStreamPos := pos }

inductive Report (E : Type) where
  | op (o : Op E)
  | all (pos : ℤ)

namespace Report

def step (c : StreamChangeCache E) : Report E → Option (StreamChangeCache E)
  | .op o => c.step o
  | .all pos => some (c.allEntitiesChanged pos)

variable (rs : List (Report E))

/-- The changes reported one by one. -/
def changes : List (E × ℤ) :=
  reported (rs.filterMap fun | .op o => some o | .all _ => none)

/-- The positions at which everything was reported. -/
def alls : List ℤ := rs.filterMap fun | .op _ => none | .all pos => some pos

/-- A later query below a report says that the entity may have changed. -/
def Shown (c : StreamChangeCache E) : Prop :=
  ∀ e q, (∀ p, (e, p) ∈ changes rs → q < p →
      c.MayHaveChanged e q ∧ ∀ l, c.getAllEntitiesChanged q = some l → e ∈ l) ∧
    ∀ p ∈ alls rs, q < p → c.MayHaveChanged e q

/-- Everything is never reported changed below an earlier report. -/
def Forward : Prop :=
  ∀ pre p post, rs = pre ++ .all p :: post → (∀ x ∈ changes pre, x.2 ≤ p) ∧ ∀ p' ∈ alls pre, p' ≤ p

end Report

theorem horizon_evictFrom : ∀ (ks : List ℤ) (c : StreamChangeCache E),
    c.earliestKnownStreamPos ≤ (evictFrom ks c).earliestKnownStreamPos
  | [], _ => le_refl _
  | k :: ks, c => by
    rw [evictFrom]
    split
    · exact le_refl _
    · exact (le_max_right k _).trans (horizon_evictFrom ks (c.popitem k))

theorem horizon_step {o : Op E} {c' : StreamChangeCache E} (h : c.step o = some c') :
    c.earliestKnownStreamPos ≤ c'.earliestKnownStreamPos := by
  cases o with
  | resize n =>
    cases h
    rw [resize]
    split
    · exact le_refl _
    · exact horizon_evictFrom _ _
  | entityHasChanged e p =>
    rw [step, entityHasChanged] at h
    split_ifs at h
    · cases h
      exact le_refl _
    · split at h
      · cases h
        exact horizon_evictFrom _ _
      · split_ifs at h
        · cases h
          exact le_refl _
        · obtain ⟨c₁, hc₁, rfl⟩ := Option.map_eq_some_iff.mp h
          refine le_trans (le_of_eq ?_) (horizon_evictFrom _ _)
          rw [unfile] at hc₁
          split at hc₁
          · cases hc₁
          · split_ifs at hc₁
            cases hc₁
            rfl

omit [DecidableEq E] in
theorem sound_allEntitiesChanged (c : StreamChangeCache E) {p : ℤ} (hp : ∀ x ∈ log, x.2 ≤ p) :
    Sound log (c.allEntitiesChanged p) where
  index e k := by simp [StreamChangeCache.allEntitiesChanged]
  above k hk := by simp [StreamChangeCache.allEntitiesChanged, Dict.empty, Dict.keys] at hk
  latest e k hk := by cases hk
  known e p' hp' hlt := absurd (hp _ hp') (not_le.mpr hlt)

omit [DecidableEq E] in
theorem Report.changes_concat (rs : List (Report E)) (r : Report E) :
    changes (rs ++ [r]) = changes rs ++ changes [r] := by
  simp [changes, reported, filterMap_append]

/-- A run in which nothing goes back keeps the changes, and the horizon stays above all that was invalidated. -/
theorem Report.sound_run (maxSize : ℕ) (rs : List (Report E)) (h : Forward rs) :
    ∃ c, rs.foldlM step (new currentStreamPos maxSize) = some c ∧ Sound (changes rs) c ∧
      ∀ p ∈ alls rs, p ≤ c.earliestKnownStreamPos := by
  induction rs using List.reverseRecOn with
  | nil => exact ⟨_, rfl, sound_new .., nofun⟩
  | append_singleton rs r ih =>
    obtain ⟨c, hrun, hsound, halls⟩ := ih fun pre p post heq => h pre p (post ++ [r]) (by simp [heq])
    rw [foldlM_append, hrun, changes_concat]
    cases r with
    | all p =>
      obtain ⟨hchanges, hbefore⟩ := h rs p [] rfl
      refine ⟨_, rfl, ?_, ?_⟩
      · simpa [changes, reported] using sound_allEntitiesChanged c hchanges
      · simpa [alls, allEntitiesChanged, or_imp, forall_and] using hbefore
    | op o =>
      obtain ⟨c', hc', hsound'⟩ : ∃ c', c.step o = some c' ∧ Sound (changes rs ++ changes [.op o]) c' := by
        cases o with
        | resize n => exact ⟨_, rfl, by simpa [changes, reported] using hsound.resize n⟩
        | entityHasChanged e p => exact hsound.entityHasChanged e p
      refine ⟨c', by simp [step, hc'], hsound', fun p hp => ?_⟩
      exact (halls p (by simpa [alls] using hp)).trans (horizon_step hc')

/-- Every answer of every run shows what was reported exactly when everything is never reported changed
    below an earlier report. -/
theorem invalidation_shown_iff [Inhabited E] (currentStreamPos : ℤ) (maxSize : ℕ) (rs : List (Report E)) :
    (∀ pre post, rs = pre ++ post → ∃ c, pre.foldlM Report.step (new currentStreamPos maxSize) = some c ∧
      Report.Shown pre c) ↔ Report.Forward rs := by
  constructor
  · intro h pre p post heq
    obtain ⟨c, hrun, hshown⟩ := h (pre ++ [.all p]) post (by simp [heq])
    obtain ⟨c₀, -, hc⟩ : ∃ c₀, pre.foldlM Report.step (new currentStreamPos maxSize) = some c₀ ∧
        c₀.allEntitiesChanged p = c := by
      rw [foldlM_append, Option.bind_eq_bind, Option.bind_eq_some_iff] at hrun
      obtain ⟨c₀, h₀, hc⟩ := hrun
      exact ⟨c₀, h₀, Option.some.inj hc⟩
    have hlost : ∀ e, ¬ c.MayHaveChanged e p := by
      rintro e ⟨hchanged, -⟩
      simp [← hc, hasEntityChanged, allEntitiesChanged] at hchanged
    rw [Report.Shown] at hshown
    refine ⟨fun x hx => not_lt.mp fun hlt => ?_, fun p' hp' => not_lt.mp fun hlt => ?_⟩
    · refine hlost x.1 ((hshown x.1 p).1 x.2 ?_ hlt).1
      rw [Report.changes_concat]
      exact mem_append_left _ hx
    · refine hlost default ((hshown default p).2 p' ?_ hlt)
      rw [Report.alls, filterMap_append]
      exact mem_append_left _ hp'
  · intro h pre post heq
    obtain ⟨c, hrun, hsound, halls⟩ := Report.sound_run currentStreamPos maxSize pre
      fun pre' p post' heq' => h pre' p (post' ++ post) (by simp [heq, heq'])
    refine ⟨c, hrun, fun e q => ⟨fun p hp hlt => hsound.shows hp hlt, fun p hp hlt => ?_⟩⟩
    exact mayHaveChanged_of_lt (hlt.trans_le (halls p hp)) e

/-- A change at 5, then everything at 3: the change is not shown after 4. -/
theorem invalidation_hides_change : let rs : List (Report Unit) := [.op (.entityHasChanged () 5), .all 3]
    ((), 5) ∈ Report.changes rs ∧
      (rs.foldlM Report.step (new 1 10)).map (·.hasEntityChanged () 4) = some false := by
  decide +kernel

end StreamChangeCache

end Sithnapse.Streams
