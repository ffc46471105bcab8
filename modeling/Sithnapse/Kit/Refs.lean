import Sithnapse.Kit.Dict

/-! Reference counts over a dictionary.

    `holders d v` is the number of keys that hold `v`. The two accounting rules say what a batch of
    writes and a batch of deletions do to it: every key written gives up the value it held and takes
    the new one, every key deleted gives up its value. Counters are a second dictionary, an absent
    counter standing for zero; `tally` and `bump` add a list of references to it at once. -/

namespace Kit
open List
open Prod (fst snd)

variable {K V : Type} [DecidableEq K] [DecidableEq V]

namespace Dict

variable (d : Dict K V)

/-- The number of keys that hold `v`. -/
def holders (v : V) : ℕ := d.values.count v

theorem holders_pos {v : V} : 0 < d.holders v ↔ ∃ k, d.get? k = some v := by
  rw [holders, count_pos_iff, mem_values_iff]

/-! ### Writes -/

theorem count_setIn (k : K) (v w : V) : ∀ l : List (K × V),
    ((setIn k v l).map snd).count w + (lookupIn k l).toList.count w =
      (l.map snd).count w + [v].count w
  | [] => by simp [setIn, lookupIn]
  | (k', v') :: r => by
    rw [setIn, lookupIn]
    split
    · simp only [map_cons, count_cons, Option.toList_some, count_nil]
      omega
    · have ih := count_setIn k v w r
      simp only [map_cons, count_cons] at ih ⊢
      omega

/-- A write takes the reference its key held and gives it a new one. -/
theorem holders_set (k : K) (v w : V) :
    (d.set k v).holders w + (d.get? k).toList.count w = d.holders w + [v].count w :=
  count_setIn k v w d.entries

/-- What some keys hold, in order. -/
def held (l : List K) : List V := l.filterMap d.get?

omit [DecidableEq V] in
theorem held_set_of_not_mem {k : K} (v : V) {l : List K} (h : k ∉ l) : (d.set k v).held l = d.held l := by
  refine filterMap_congr fun k' hk' => ?_
  have hne : k' ≠ k := by
    rintro rfl
    exact h hk'
  rw [get?_set_ne _ _ hne]

theorem count_held_cons (k : K) (l : List K) (w : V) :
    (d.held (k :: l)).count w = (d.get? k).toList.count w + (d.held l).count w := by
  rw [held, filterMap_cons, ← held]
  cases d.get? k with
  | none => simp
  | some v =>
    simp only [count_cons, Option.toList_some, count_nil]
    omega

/-- A batch of writes under different keys: what the keys held is given up, what is written is
    taken. -/
theorem holders_update (w : V) : ∀ (l : List (K × V)) (d : Dict K V), (l.map fst).Nodup →
    (d.update l).holders w + (d.held (l.map fst)).count w = d.holders w + (l.map snd).count w
  | [], d, _ => by simp [update, held]
  | (k, v) :: l, d, h => by
    rw [map_cons, nodup_cons] at h
    have ih := holders_update w l (d.set k v) h.2
    have hset := holders_set d k v w
    rw [held_set_of_not_mem d v h.1] at ih
    rw [update, foldl_cons, ← update, map_cons, count_held_cons, map_cons, count_cons]
    simp only [count_cons, count_nil] at hset ⊢
    omega

/-! ### Deletions -/

omit [DecidableEq V] in
theorem get?_filter (p : K → Bool) (k : K) : (d.filter p).get? k = if p k then d.get? k else none := by
  split_ifs with hp
  · refine Option.ext fun v => ?_
    rw [get?_eq_some_iff, get?_eq_some_iff, filter, mem_filter]
    exact ⟨And.left, fun h => ⟨h, hp⟩⟩
  · rw [get?_eq_none_iff, keys, filter, mem_map]
    rintro ⟨e, he, rfl⟩
    exact hp (mem_filter.mp he).2

/-- Equal lookups hold equally many references. -/
theorem holders_congr {d d' : Dict K V} (h : ∀ k, d.get? k = d'.get? k) (v : V) :
    d.holders v = d'.holders v := by
  have hperm : d.entries.Perm d'.entries := by
    refine (perm_ext_iff_of_nodup d.nodup.of_map d'.nodup.of_map).mpr fun e => ?_
    rw [← get?_eq_some_iff, ← get?_eq_some_iff, h]
  exact (hperm.map snd).count_eq v

/-- What different keys hold is what the dictionary restricted to them holds. -/
theorem count_held {l : List K} (h : l.Nodup) (v : V) :
    (d.held l).count v = (d.filter (· ∈ l)).holders v := by
  have hkeys : ((l.filterMap fun k => (d.get? k).map (k, ·)).map fst).Nodup := by
    rw [map_filterMap]
    refine h.filterMap fun a b c ha hb => ?_
    rw [Option.map_map, Option.mem_def, Option.map_eq_some_iff] at ha hb
    obtain ⟨_, -, rfl⟩ := ha
    obtain ⟨_, -, hb⟩ := hb
    exact hb.symm
  have hheld : d.held l = (l.filterMap fun k => (d.get? k).map (k, ·)).map snd := by
    rw [map_filterMap]
    refine filterMap_congr fun k _ => ?_
    cases d.get? k <;> rfl
  rw [hheld]
  refine holders_congr (d := ⟨_, hkeys⟩) (fun k => Option.ext fun w => ?_) v
  rw [get?_eq_some_iff, mem_filterMap, get?_filter]
  constructor
  · rintro ⟨k', hk', hw⟩
    obtain ⟨w', hget, he⟩ := Option.map_eq_some_iff.mp hw
    obtain ⟨rfl, rfl⟩ := Prod.mk.injEq .. ▸ he
    rw [if_pos (decide_eq_true hk'), hget]
  · intro hw
    split at hw
    · rename_i hk
      exact ⟨k, of_decide_eq_true hk, by rw [hw]; rfl⟩
    · cases hw

omit [DecidableEq K] in
/-- Deleting the keys that fail a test gives up what they hold. -/
theorem holders_filter (p : K → Bool) (v : V) :
    (d.filter p).holders v + (d.filter fun k => !p k).holders v = d.holders v := by
  have hsplit := (filter_append_perm (fun e : K × V => p e.1) d.entries).map snd
  have hcount := hsplit.count_eq v
  rw [map_append, count_append] at hcount
  exact hcount

end Dict

/-! ### Counters -/

/-- How often each member occurs. -/
def tally (l : List V) : Dict V ℤ := l.foldl (fun c v => c.set v (c.getD v 0 + 1)) Dict.empty

theorem getD_tally (l : List V) (v : V) : (tally l).getD v 0 = l.count v := by
  have hfold : ∀ (l : List V) (c : Dict V ℤ),
      (l.foldl (fun c v => c.set v (c.getD v 0 + 1)) c).getD v 0 = c.getD v 0 + l.count v := by
    intro l
    induction l with
    | nil => simp
    | cons x l ih =>
      intro c
      rw [foldl_cons, ih, Dict.getD_set, count_cons]
      rcases eq_or_ne v x with rfl | hx
      · simp
        ring
      · simp [hx, Ne.symm hx]
  rw [tally, hfold, Dict.getD_empty, zero_add]

/-- Add to several counters at once: all are read before any is written. -/
def Dict.bump (c : Dict V ℤ) (pairs : List (V × ℤ)) : Dict V ℤ :=
  c.update (pairs.map fun p => (p.1, c.getD p.1 0 + p.2))

/-- Bumping by a dictionary of amounts. -/
theorem Dict.getD_bump (c amounts : Dict V ℤ) (v : V) :
    (c.bump amounts.entries).getD v 0 = c.getD v 0 + amounts.getD v 0 := by
  have hkeys : (amounts.entries.map fun p => (p.1, c.getD p.1 0 + p.2)).map fst = amounts.keys := by
    rw [map_map]
    rfl
  cases hv : amounts.get? v with
  | none =>
    have hmem : ∀ w, (v, w) ∉ amounts.entries.map fun p => (p.1, c.getD p.1 0 + p.2) := by
      intro w hw
      have : v ∈ amounts.keys := hkeys ▸ mem_map_of_mem hw
      exact get?_eq_none_iff.mp hv this
    rw [Dict.getD, Dict.bump, Dict.get?_update_of_not_mem c hmem, ← Dict.getD]
    simp [Dict.getD, hv]
  | some n =>
    have hmem : (v, c.getD v 0 + n) ∈ amounts.entries.map fun p => (p.1, c.getD p.1 0 + p.2) :=
      mem_map.mpr ⟨(v, n), get?_eq_some_iff.mp hv, rfl⟩
    have huniq : ∀ w, (v, w) ∈ amounts.entries.map (fun p => (p.1, c.getD p.1 0 + p.2)) →
        w = c.getD v 0 + n := by
      intro w hw
      obtain ⟨⟨v', m⟩, hm, he⟩ := mem_map.mp hw
      obtain ⟨rfl, rfl⟩ := Prod.mk.injEq .. ▸ he
      have hvm := get?_eq_some_iff.mpr hm
      rw [hv, Option.some.injEq] at hvm
      rw [hvm]
    rw [Dict.bump, Dict.getD_of_get? (Dict.get?_update_of_mem c hmem huniq), Dict.getD_of_get? hv]

end Kit
