import Mathlib.Data.List.Nodup
import Sithnapse.Kit.Loop

/-! Insertion-ordered dictionaries and duplicate-free lists used as sets.

    A dictionary is an association list together with the proof that no key occurs twice, so that
    iterating over the entries and looking keys up always agree. Writing to a present key keeps its
    place; writing to an absent key appends. Sets are lists that `addIf` never lets repeat. -/

namespace Kit
open List
open Prod (fst snd)

-- the key types of orders and pairs, under names that do not depend on where a definition stands
instance lawfulBEqOfOrder {E : Type} [LinearOrder E] : LawfulBEq E := inferInstance

instance lawfulBEqPair : LawfulBEq (ℕ × ℕ) := inferInstance

instance lawfulBEqStrings : LawfulBEq (String × String) := inferInstance

/-- An insertion-ordered dictionary: its entries, no key twice. -/
structure Dict (K V : Type) where
  entries : List (K × V)
  nodup : (entries.map fst).Nodup

namespace Dict

variable {K V : Type} [DecidableEq K]

/-- The value stored in an association list under `k`. -/
def lookupIn (k : K) : List (K × V) → Option V
  | [] => none
  | (k', v) :: r => if k' = k then some v else lookupIn k r

/-- Overwrite in place, or append when the key is new. -/
def setIn (k : K) (v : V) : List (K × V) → List (K × V)
  | [] => [(k, v)]
  | (k', v') :: r => if k' = k then (k, v) :: r else (k', v') :: setIn k v r

theorem keys_setIn (k : K) (v : V) : ∀ l : List (K × V), (setIn k v l).map fst =
      if k ∈ l.map fst then l.map fst else l.map fst ++ [k]
  | [] => by simp [setIn]
  | (k', v') :: r => by
    by_cases h : k' = k
    · simp [setIn, h]
    · have h' : ¬ k = k' := fun e => h e.symm
      simp only [setIn, if_neg h, map_cons, keys_setIn k v r, mem_cons, h', false_or]
      split <;> simp

variable {l : List (K × V)} {k : K} {v : V} {d : Dict K V}

theorem nodup_setIn (k : K) (v : V) (h : (l.map fst).Nodup) : ((setIn k v l).map fst).Nodup := by
  rw [keys_setIn]
  split_ifs with hk
  · exact h
  · exact nodup_append_singleton.mpr ⟨h, hk⟩

/-- The empty dictionary. -/
def empty : Dict K V := ⟨[], nodup_nil⟩

section

variable (d : Dict K V)

/-- `d.get(k)`. -/
def get? (k : K) : Option V := lookupIn k d.entries

/-- `d.get(k, v)`. -/
def getD (d : Dict K V) (k : K) (v : V) : V := (d.get? k).getD v

/-- `d[k] = v`. -/
def set (k : K) (v : V) : Dict K V := ⟨setIn k v d.entries, nodup_setIn k v d.nodup⟩

/-- The keys, in insertion order. -/
def keys : List K := d.entries.map fst

/-- The values, in insertion order of their keys. -/
def values : List V := d.entries.map snd

/-- Write a list of pairs, later ones winning. -/
def update (l : List (K × V)) : Dict K V := l.foldl (fun d p => d.set p.1 p.2) d

/-- `dict(pairs)`. -/
def ofList (l : List (K × V)) : Dict K V := update empty l

/-! ### Lookups -/

theorem lookupIn_setIn_self (k : K) (v : V) : ∀ l : List (K × V), lookupIn k (setIn k v l) = some v
  | [] => by simp [setIn, lookupIn]
  | (k', v') :: r => by
    by_cases h : k' = k
    · simp [setIn, lookupIn, h]
    · simp [setIn, lookupIn, h, lookupIn_setIn_self k v r]

theorem lookupIn_setIn_ne {k₁ : K} (v : V) (hne : k₁ ≠ k) :
    ∀ l : List (K × V), lookupIn k₁ (setIn k v l) = lookupIn k₁ l
  | [] => by simp [setIn, lookupIn, hne.symm]
  | (k', v') :: r => by
    by_cases h : k' = k
    · subst h; simp [setIn, lookupIn, hne.symm]
    · by_cases h₁ : k' = k₁
      · simp [setIn, lookupIn, h₁, hne]
      · simp [setIn, lookupIn, h, h₁, lookupIn_setIn_ne v hne r]

theorem lookupIn_eq_some : ∀ {l : List (K × V)}, (l.map fst).Nodup → (lookupIn k l = some v ↔ (k, v) ∈ l)
  | [], _ => by simp [lookupIn]
  | (k', v') :: r, h => by
    rw [map_cons, nodup_cons] at h
    rcases eq_or_ne k' k with rfl | hk
    · have hr : (k', v) ∉ r := fun hm => h.1 (mem_map.mpr ⟨_, hm, rfl⟩)
      simp only [lookupIn, if_pos, Option.some.injEq, mem_cons, Prod.mk.injEq, true_and, hr, or_false]
      exact eq_comm
    · have hk' : ¬ k = k' := fun e => hk e.symm
      simp [lookupIn, hk, hk', lookupIn_eq_some h.2]

theorem lookupIn_eq_none : ∀ {l : List (K × V)}, lookupIn k l = none ↔ k ∉ l.map fst
  | [] => by simp [lookupIn]
  | (k', v') :: r => by
    by_cases hk : k' = k
    · simp [lookupIn, hk]
    · have hk' : ¬ k = k' := fun e => hk e.symm
      rw [lookupIn, if_neg hk, lookupIn_eq_none, map_cons, mem_cons, not_or]
      exact ⟨fun h => ⟨hk', h⟩, fun h => h.2⟩

theorem lookupIn_append (k : K) : ∀ l l' : List (K × V),
    lookupIn k (l ++ l') = (lookupIn k l).or (lookupIn k l')
  | [], _ => rfl
  | (k', v) :: r, l' => by
    rw [cons_append, lookupIn, lookupIn]
    split
    · rfl
    · exact lookupIn_append k r l'

@[simp] theorem get?_empty (k : K) : (empty : Dict K V).get? k = none := rfl

@[simp] theorem get?_set_self (k : K) (v : V) : (d.set k v).get? k = some v :=
  lookupIn_setIn_self k v d.entries

theorem get?_set_ne {k₁ : K} (v : V) (hne : k₁ ≠ k) : (d.set k v).get? k₁ = d.get? k₁ :=
  lookupIn_setIn_ne v hne d.entries

theorem get?_set (k k₁ : K) (v : V) : (d.set k v).get? k₁ = if k₁ = k then some v else d.get? k₁ := by
  split
  · rename_i h; subst h; exact get?_set_self d k₁ v
  · rename_i h; exact get?_set_ne d v h

end

/-- An entry of a dictionary after one was set is that one or an old one. -/
theorem get?_set_cases {k₁ : K} {w : V} (h : (d.set k v).get? k₁ = some w) :
    (k₁ = k ∧ v = w) ∨ d.get? k₁ = some w := by
  rw [get?_set] at h
  split_ifs at h with hk
  · exact .inl ⟨hk, Option.some.inj h⟩
  · exact .inr h

theorem get?_eq_some_iff : d.get? k = some v ↔ (k, v) ∈ d.entries :=
  lookupIn_eq_some d.nodup

theorem get?_eq_none_iff : d.get? k = none ↔ k ∉ d.keys :=
  lookupIn_eq_none

theorem mem_keys_iff : k ∈ d.keys ↔ ∃ v, d.get? k = some v := by
  rw [← Option.ne_none_iff_exists', ne_eq, get?_eq_none_iff, not_not]

theorem mem_keys_set {k₁ : K} : k₁ ∈ (d.set k v).keys ↔ k₁ = k ∨ k₁ ∈ d.keys := by
  simp only [mem_keys_iff, get?_set]
  by_cases h : k₁ = k <;> simp [h]

theorem keys_set_of_mem (v : V) (h : k ∈ d.keys) : (d.set k v).keys = d.keys :=
  (keys_setIn k v d.entries).trans (if_pos h)

theorem mem_values_iff : v ∈ d.values ↔ ∃ k, d.get? k = some v := by
  simp only [values, mem_map, get?_eq_some_iff]
  constructor
  · rintro ⟨⟨k, _⟩, hm, rfl⟩; exact ⟨k, hm⟩
  · rintro ⟨k, hm⟩; exact ⟨(k, v), hm, rfl⟩

theorem getD_set (d : Dict K V) (k k₁ : K) (v w : V) :
    (d.set k v).getD k₁ w = if k₁ = k then v else d.getD k₁ w := by
  rw [getD, get?_set]
  split <;> rfl

theorem getD_of_get? {w : V} (h : d.get? k = some v) : d.getD k w = v := by
  rw [getD, h]; rfl

theorem get?_of_mem_keys (w : V) (h : k ∈ d.keys) : d.get? k = some (d.getD k w) := by
  obtain ⟨v, hv⟩ := mem_keys_iff.mp h
  rw [hv, getD_of_get? hv]

theorem getD_of_not_mem (w : V) (h : k ∉ d.keys) : d.getD k w = w := by
  rw [getD, get?_eq_none_iff.mpr h]; rfl

theorem mem_keys_of_getD_ne {w : V} (h : d.getD k w ≠ w) : k ∈ d.keys :=
  by_contra fun hc => h (getD_of_not_mem w hc)

theorem get?_of_getD_ne {w : V} (h : d.getD k w ≠ w) : d.get? k = some (d.getD k w) :=
  get?_of_mem_keys w (mem_keys_of_getD_ne h)

theorem mem_keys_of_mem_getD {d : Dict K (List V)} {v : V} (h : v ∈ d.getD k []) : k ∈ d.keys :=
  mem_keys_of_getD_ne (ne_nil_of_mem h)

@[simp] theorem getD_empty (k : K) (v : V) : (empty : Dict K V).getD k v = v := rfl

theorem mem_keys_update : ∀ (l : List (K × V)) (d : Dict K V) {k : K},
    k ∈ (d.update l).keys ↔ k ∈ d.keys ∨ k ∈ l.map fst
  | [], d, k => by simp [update]
  | p :: l, d, k => by
    rw [update, foldl_cons, ← update, mem_keys_update l, mem_keys_set, map_cons, mem_cons]
    tauto

theorem mem_keys_ofList : k ∈ (ofList l).keys ↔ k ∈ l.map fst := by
  rw [ofList, mem_keys_update]
  simp [keys, empty]

theorem setIn_of_not_mem (v : V) : ∀ {l : List (K × V)}, k ∉ l.map fst → setIn k v l = l ++ [(k, v)]
  | [], _ => rfl
  | (k', v') :: r, h => by
    rw [map_cons, mem_cons, not_or] at h
    rw [setIn, if_neg (Ne.symm h.1), setIn_of_not_mem v h.2, cons_append]

/-- A new key goes to the end. -/
theorem entries_set (v : V) (h : k ∉ d.keys) : (d.set k v).entries = d.entries ++ [(k, v)] :=
  setIn_of_not_mem v h

theorem entries_update : ∀ (l : List (K × V)) (d : Dict K V),
    (d.keys ++ l.map fst).Nodup → (d.update l).entries = d.entries ++ l
  | [], d, _ => by simp [update]
  | p :: l, d, h => by
    have hp : p.1 ∉ d.keys := not_mem_of_nodup h
    have hkeys : (d.set p.1 p.2).keys = d.keys ++ [p.1] := by
      rw [keys, entries_set p.2 hp, map_append]
      rfl
    rw [update, foldl_cons, ← update, entries_update l _ (by simpa [hkeys] using h),
      entries_set p.2 hp, append_assoc]
    rfl

theorem entries_ofList (h : (l.map fst).Nodup) : (ofList l).entries = l := by
  rw [ofList, entries_update l _ (by simpa [keys, empty] using h)]
  rfl

theorem get?_ofList (h : (l.map fst).Nodup) : (ofList l).get? k = some v ↔ (k, v) ∈ l := by
  rw [get?_eq_some_iff, entries_ofList h]

theorem get?_update : ∀ (l : List (K × V)) (d : Dict K V), (l.map fst).Nodup → ∀ k,
    (d.update l).get? k = (lookupIn k l).or (d.get? k)
  | [], _, _, _ => rfl
  | (k', v) :: l, d, h, k => by
    rw [map_cons, nodup_cons] at h
    rw [update, foldl_cons, ← update, get?_update l _ h.2, get?_set, lookupIn]
    rcases eq_or_ne k' k with rfl | hk
    · rw [lookupIn_eq_none.mpr h.1, if_pos rfl, if_pos rfl]
      rfl
    · rw [if_neg hk, if_neg fun e => hk e.symm]

/-- The entries under some keys. -/
def filter (d : Dict K V) (p : K → Bool) : Dict K V :=
  ⟨d.entries.filter fun e => p e.1, (filter_sublist.map fst).nodup d.nodup⟩

theorem get?_of_filter {p : K → Bool} (h : (d.filter p).get? k = some v) : d.get? k = some v := by
  rw [get?_eq_some_iff] at h ⊢
  exact (mem_filter.mp h).1

/-- `{k: f(v) for k, v in d.items()}`. -/
def mapValues {W : Type} (d : Dict K V) (f : V → W) : Dict K W :=
  ⟨d.entries.map fun e => (e.1, f e.2), by rw [map_map]; exact d.nodup⟩

theorem get?_mapValues {W : Type} (d : Dict K V) (f : V → W) (k : K) :
    (d.mapValues f).get? k = (d.get? k).map f := by
  have hlookup : ∀ l : List (K × V), lookupIn k (l.map fun e => (e.1, f e.2)) = (lookupIn k l).map f := by
    intro l
    induction l with
    | nil => rfl
    | cons e l ih =>
      rw [map_cons, lookupIn, lookupIn]
      split
      · rfl
      · exact ih
  exact hlookup d.entries

/-- `d.update(d')`. -/
theorem get?_update_entries (d d' : Dict K V) (k : K) :
    (d.update d'.entries).get? k = (d'.get? k).or (d.get? k) :=
  get?_update d'.entries d d'.nodup k

theorem update_concat (d : Dict K V) (l : List (K × V)) (p : K × V) :
    d.update (l ++ [p]) = (d.update l).set p.1 p.2 := by
  rw [update, foldl_append]
  rfl

/-- Writes that agree on a key leave what they agree on. -/
theorem get?_update_of_mem (d : Dict K V) (hmem : (k, v) ∈ l)
    (huniq : ∀ w, (k, w) ∈ l → w = v) : (d.update l).get? k = some v := by
  induction l using List.reverseRecOn with
  | nil => cases hmem
  | append_singleton l p ih =>
    rw [update_concat]
    by_cases hk : k = p.1
    · have hp : p.2 = v := huniq p.2 (by rw [hk]; simp)
      rw [hk, get?_set_self, hp]
    · have hmem' : (k, v) ∈ l := (mem_concat.mp hmem).resolve_right fun hm => hk (congrArg fst hm)
      rw [get?_set_ne _ _ hk]
      exact ih hmem' fun w hw => huniq w (mem_append_left _ hw)

theorem get?_update_of_not_mem (d : Dict K V) (h : ∀ w, (k, w) ∉ l) : (d.update l).get? k = d.get? k := by
  induction l using List.reverseRecOn with
  | nil => rfl
  | append_singleton l p ih =>
    have hk : k ≠ p.1 := by
      rintro rfl
      exact h p.2 (by simp)
    rw [update_concat, get?_set_ne _ _ hk]
    exact ih fun w hw => h w (mem_append_left _ hw)

/-- Writes under a key that are the value of an option, if any. -/
theorem get?_update_of_some (d : Dict K V) {o : Option V} (h : ∀ w, (k, w) ∈ l ↔ o = some w) :
    (d.update l).get? k = o.or (d.get? k) := by
  cases o with
  | none => exact get?_update_of_not_mem d fun w hw => Option.some_ne_none w ((h w).mp hw).symm
  | some v => exact get?_update_of_mem d ((h v).mpr rfl) fun w hw => (Option.some.inj ((h w).mp hw)).symm

theorem get?_update_of_iff (d : Dict K V) {P : Prop} [Decidable P] (h : ∀ w, (k, w) ∈ l ↔ P ∧ w = v) :
    (d.update l).get? k = if P then some v else d.get? k := by
  have ho : ∀ w, (k, w) ∈ l ↔ (if P then some v else none) = some w := fun w => by
    rw [h, Option.ite_none_right_eq_some, Option.some.injEq, eq_comm]
  rw [get?_update_of_some d ho]
  split <;> rfl

/-- Writing a computed value under each of some keys. -/
theorem get?_update_map (d : Dict K V) (f : K → V) {l : List K} (k : K) :
    (d.update (l.map fun k => (k, f k))).get? k = if k ∈ l then some (f k) else d.get? k := by
  refine get?_update_of_iff d fun w => mem_map.trans ⟨?_, fun ⟨hk, hw⟩ => ⟨k, hk, hw ▸ rfl⟩⟩
  rintro ⟨x, hx, heq⟩
  cases heq
  exact ⟨hx, rfl⟩

theorem get?_ofList_map (f : K → V) {l : List K} (k : K) :
    (ofList (l.map fun k => (k, f k))).get? k = if k ∈ l then some (f k) else none :=
  get?_update_map empty f k

/-- What a list of writes leaves under `k` is one of the values written there, or the old one. -/
theorem get?_update_cases : ∀ (l : List (K × V)) (d : Dict K V) {k : K} {v : V},
    (d.update l).get? k = some v → (k, v) ∈ l ∨ d.get? k = some v
  | [], _, _, _, h => .inr h
  | p :: l, d, k, v, h => by
    rw [update, foldl_cons, ← update] at h
    rcases get?_update_cases l _ h with hm | hg
    · exact .inl (.tail _ hm)
    · rw [get?_set] at hg
      split_ifs at hg with hk
      · rw [Option.some.injEq] at hg
        exact .inl (mem_cons.mpr (.inl (by rw [hk, ← hg])))
      · exact .inr hg

/-! ### Grouping -/

/-- Collect values under their keys, in order. -/
def group (l : List (K × V)) : Dict K (List V) :=
  l.foldl (fun d p => d.set p.1 (d.getD p.1 [] ++ [p.2])) empty

theorem group_spec (l : List (K × V)) :
    (∀ k, (group l).getD k [] = (l.filter (·.1 = k)).map snd) ∧
      ∀ k, k ∈ (group l).keys ↔ k ∈ l.map fst := by
  refine foldl_visited _ (fun pre (d : Dict K (List V)) =>
    (∀ k, d.getD k [] = (pre.filter (·.1 = k)).map snd) ∧
    ∀ k, k ∈ d.keys ↔ k ∈ pre.map fst) l ⟨fun _ => rfl, fun k => ?_⟩ ?_
  · simp [empty, keys]
  · rintro pre p _ d - ⟨hget, hkeys⟩
    refine ⟨fun k => ?_, fun k => ?_⟩
    · rw [getD_set, hget, hget, filter_append, map_append]
      rcases eq_or_ne k p.1 with rfl | hk
      · simp
      · simp [hk, Ne.symm hk]
    · rw [mem_keys_set, hkeys, map_append, mem_append, or_comm]
      simp

theorem mem_entries_group {vs : List V} :
    (k, vs) ∈ (group l).entries ↔ k ∈ l.map fst ∧ vs = (l.filter (·.1 = k)).map snd := by
  rw [← get?_eq_some_iff, ← (group_spec l).1 k, ← (group_spec l).2 k]
  constructor
  · intro h
    exact ⟨mem_keys_iff.mpr ⟨vs, h⟩, (getD_of_get? h).symm⟩
  · rintro ⟨hk, rfl⟩
    exact get?_of_mem_keys [] hk

theorem mem_group : v ∈ (group l).getD k [] ↔ (k, v) ∈ l := by
  rw [(group_spec l).1 k, mem_map]
  constructor
  · rintro ⟨⟨k', v⟩, hp, rfl⟩
    rw [mem_filter, decide_eq_true_eq] at hp
    obtain ⟨hp, rfl⟩ := hp
    exact hp
  · intro h
    exact ⟨(k, v), mem_filter.mpr ⟨h, decide_eq_true rfl⟩, rfl⟩

end Dict

/-! ### Lists as sets -/

section Sets

variable {α : Type} [DecidableEq α]

/-- `s.add(a)`. -/
def addIf (s : List α) (a : α) : List α := if a ∈ s then s else s ++ [a]

/-- `s.update(l)`. -/
def addAll (s l : List α) : List α := l.foldl addIf s

@[simp] theorem mem_addIf {s : List α} {a x : α} : x ∈ addIf s a ↔ x ∈ s ∨ x = a := by
  unfold addIf
  split_ifs with h
  · constructor
    · exact .inl
    · rintro (hx | rfl)
      · exact hx
      · exact h
  · simp

theorem nodup_addIf {s : List α} (a : α) (h : s.Nodup) : (addIf s a).Nodup := by
  unfold addIf
  split_ifs with ha
  · exact h
  · exact nodup_append_singleton.mpr ⟨h, ha⟩

@[simp] theorem mem_addAll : ∀ {l s : List α} {x : α}, x ∈ addAll s l ↔ x ∈ s ∨ x ∈ l
  | [], s, x => by simp [addAll]
  | a :: l, s, x => by
    have ih := mem_addAll (l := l) (s := addIf s a) (x := x)
    rw [addAll, foldl_cons, ← addAll, ih, mem_addIf, mem_cons, or_assoc]

theorem addAll_append (s a b : List α) : addAll s (a ++ b) = addAll (addAll s a) b := foldl_append

theorem length_le_addAll : ∀ (l s : List α), s.length ≤ (addAll s l).length
  | [], _ => le_rfl
  | a :: l, s => by
    have hstep : s.length ≤ (addIf s a).length := by
      rw [addIf]
      split
      · exact le_rfl
      · simp
    exact hstep.trans (length_le_addAll l (addIf s a))

theorem length_addAll_le : ∀ (l s : List α), (addAll s l).length ≤ s.length + l.length
  | [], _ => le_rfl
  | a :: l, s => by
    have hstep : (addIf s a).length ≤ s.length + 1 := by
      rw [addIf]
      split
      · exact Nat.le_succ _
      · simp
    have htail := length_addAll_le l (addIf s a)
    rw [addAll, foldl_cons, ← addAll, length_cons]
    omega

/-- Nothing is added twice. -/
theorem addAll_eq_self : ∀ {l s : List α}, (∀ a ∈ l, a ∈ s) → addAll s l = s
  | [], _, _ => rfl
  | a :: l, s, h => by
    have ha : addIf s a = s := if_pos (h a (.head _))
    rw [addAll, foldl_cons, ← addAll, ha]
    exact addAll_eq_self fun b hb => h b (.tail _ hb)

theorem nodup_addAll : ∀ (l : List α) {s : List α}, s.Nodup → (addAll s l).Nodup
  | [], _, h => h
  | a :: l, _, h => nodup_addAll l (nodup_addIf a h)

/-- The union of several sets. -/
theorem mem_foldl_addAll {β : Type} (f : β → List α) {x : α} : ∀ (l : List β) (s : List α),
    x ∈ l.foldl (fun s b => addAll s (f b)) s ↔ x ∈ s ∨ ∃ b ∈ l, x ∈ f b
  | [], s => by simp
  | b :: l, s => by
    rw [foldl_cons, mem_foldl_addAll f l, mem_addAll]
    simp [or_assoc]

theorem addIf_addIf (s : List α) (a : α) : addIf (addIf s a) a = addIf s a := if_pos (mem_addIf.mpr (.inr rfl))

/-- Adding one member to the sets under several keys. -/
theorem Dict.getD_foldl_addIf {K : Type} [DecidableEq K] (x : α) (a : K) :
    ∀ (l : List K) (d : Dict K (List α)),
    (l.foldl (fun d k => d.set k (addIf (d.getD k []) x)) d).getD a [] =
      if a ∈ l then addIf (d.getD a []) x else d.getD a []
  | [], d => by simp
  | k :: l, d => by
    rw [foldl_cons, Dict.getD_foldl_addIf x a l, Dict.getD_set]
    rcases eq_or_ne a k with rfl | hak
    · simp [addIf_addIf]
    · simp [hak]

end Sets

end Kit
