import Sithnapse.Kit.Dict

/-! Batches of writes.

    A list of writes gives each key the last value it names (`lastIn`). A batch may be grouped first,
    one write per group, and the groups applied in any order: each group then carries the writes of
    its own keys in their old order. -/

namespace Kit
open List

variable {K V C N : Type} [DecidableEq K]

/-- The last value a list of writes gives a key. -/
def lastIn (k : K) : List (K × V) → Option V
  | [] => none
  | (k', v) :: l => (lastIn k l).or (if k' = k then some v else none)

theorem lastIn_append (k : K) (l l' : List (K × V)) : lastIn k (l ++ l') = (lastIn k l').or (lastIn k l) := by
  induction l with
  | nil => simp [lastIn]
  | cons p l ih =>
    rw [cons_append, lastIn, lastIn, ih, Option.or_assoc]

theorem lastIn_mem {k : K} {v : V} : ∀ {l : List (K × V)}, lastIn k l = some v → (k, v) ∈ l
  | [], h => by simp [lastIn] at h
  | (k', v') :: l, h => by
    rw [lastIn, Option.or_eq_some_iff] at h
    rcases h with h | ⟨-, h⟩
    · exact mem_cons_of_mem _ (lastIn_mem h)
    · split at h
      · rename_i hk
        rw [Option.some.injEq] at h
        rw [hk, h]
        exact (.head _)
      · cases h

theorem lastIn_eq_none {k : K} : ∀ {l : List (K × V)}, lastIn k l = none ↔ k ∉ l.map Prod.fst
  | [] => by simp [lastIn]
  | (k', v) :: l => by
    rw [lastIn, Option.or_eq_none_iff, lastIn_eq_none, map_cons, mem_cons, not_or]
    by_cases hk : k' = k
    · simp [hk]
    · simp [hk, Ne.symm hk]

theorem lastIn_of_nodup {k : K} {v : V} {l : List (K × V)} (hnodup : (l.map Prod.fst).Nodup) (h : (k, v) ∈ l) :
    lastIn k l = some v := by
  cases hlast : lastIn k l with
  | none => exact absurd (mem_map_of_mem h) (lastIn_eq_none.mp hlast)
  | some w =>
    have heq := inj_on_of_nodup_map hnodup h (lastIn_mem hlast) rfl
    rw [(Prod.mk.inj heq).2]

theorem Dict.get?_update_last (d : Dict K V) (l : List (K × V)) (k : K) :
    (d.update l).get? k = (lastIn k l).or (d.get? k) := by
  induction l generalizing d with
  | nil => rfl
  | cons p l ih =>
    obtain ⟨k', v⟩ := p
    rw [Dict.update, foldl_cons, ← Dict.update, ih, lastIn, Option.or_assoc, Dict.get?_set]
    by_cases hk : k' = k
    · simp [hk]
    · simp [hk, Ne.symm hk]

/-! ### Grouped batches -/

section Groups

variable [DecidableEq C] [DecidableEq N]

/-- The writes of each group of keys, in order. -/
def collect (l : List ((C × N) × V)) : Dict C (List (N × V)) :=
  Dict.group (l.map fun p => (p.1.1, (p.1.2, p.2)))

/-- The groups are each the writes of a batch to the keys of that group. -/
structure Grouping (l : List ((C × N) × V)) (ws : List (C × List (N × V))) : Prop where
  nodup : (ws.map Prod.fst).Nodup
  covers : ∀ p ∈ l, ∃ w ∈ ws, w.1 = p.1.1
  only : ∀ w ∈ ws, ∃ p ∈ l, p.1.1 = w.1
  last : ∀ w ∈ ws, ∀ n, lastIn n w.2 = lastIn (w.1, n) l

theorem lastIn_filter_group (c : C) (n : N) : ∀ l : List ((C × N) × V),
    lastIn n (((l.map fun p => (p.1.1, (p.1.2, p.2))).filter (·.1 = c)).map Prod.snd) = lastIn (c, n) l
  | [] => rfl
  | ((c', n'), v) :: l => by
    have ih := lastIn_filter_group c n l
    rw [map_cons, filter_cons, lastIn, ← ih]
    by_cases hc : c' = c
    · simp [hc, lastIn]
    · simp [hc]

theorem grouping_collect (l : List ((C × N) × V)) : Grouping l (collect l).entries := by
  have hspec := Dict.group_spec (l.map fun p => (p.1.1, (p.1.2, p.2)))
  have hkeys : ∀ c, c ∈ (collect l).keys ↔ ∃ p ∈ l, p.1.1 = c := by
    intro c
    rw [collect, hspec.2, map_map, mem_map]
    rfl
  refine ⟨(collect l).nodup, fun p hp => ?_, fun w hw => ?_, fun w hw n => ?_⟩
  · obtain ⟨w, hw, hc⟩ := mem_map.mp ((hkeys p.1.1).mpr ⟨p, hp, rfl⟩)
    exact ⟨w, hw, hc⟩
  · exact (hkeys w.1).mp (mem_map_of_mem hw)
  · have hget : (collect l).getD w.1 [] = w.2 := Dict.getD_of_get? (Dict.get?_eq_some_iff.mpr hw)
    rw [← hget, collect, hspec.1, lastIn_filter_group]

theorem Grouping.perm {l : List ((C × N) × V)} {ws ws' : List (C × List (N × V))} (h : Grouping l ws)
    (hp : ws'.Perm ws) : Grouping l ws' where
  nodup := (hp.map Prod.fst).nodup_iff.mpr h.nodup
  covers p hl := by
    obtain ⟨w, hw, hc⟩ := h.covers p hl
    exact ⟨w, hp.mem_iff.mpr hw, hc⟩
  only w hw := h.only w (hp.mem_iff.mp hw)
  last w hw := h.last w (hp.mem_iff.mp hw)

theorem lastIn_of_not_group {c : C} {n : N} {l : List ((C × N) × V)} (h : ∀ p ∈ l, p.1.1 ≠ c) :
    lastIn (c, n) l = none := by
  rw [lastIn_eq_none, mem_map]
  rintro ⟨p, hp, he⟩
  exact h p hp (by rw [he])

/-- Two batches to different groups, one after the other. -/
theorem Grouping.append {l l' : List ((C × N) × V)} {ws ws' : List (C × List (N × V))}
    (h : Grouping l ws) (h' : Grouping l' ws') (hdisj : ∀ p ∈ l, ∀ p' ∈ l', p.1.1 ≠ p'.1.1) :
    Grouping (l ++ l') (ws ++ ws') where
  nodup := by
    rw [map_append, nodup_append]
    refine ⟨h.nodup, h'.nodup, fun c hc c' hc' hcc => ?_⟩
    obtain ⟨w, hw, rfl⟩ := mem_map.mp hc
    obtain ⟨w', hw', rfl⟩ := mem_map.mp hc'
    obtain ⟨p, hp, hpw⟩ := h.only w hw
    obtain ⟨p', hp', hpw'⟩ := h'.only w' hw'
    exact hdisj p hp p' hp' (by rw [hpw, hpw', hcc])
  covers p hp := by
    rcases mem_append.mp hp with hp | hp
    · obtain ⟨w, hw, hc⟩ := h.covers p hp
      exact ⟨w, mem_append_left _ hw, hc⟩
    · obtain ⟨w, hw, hc⟩ := h'.covers p hp
      exact ⟨w, mem_append_right _ hw, hc⟩
  only w hw := by
    rcases mem_append.mp hw with hw | hw
    · obtain ⟨p, hp, hc⟩ := h.only w hw
      exact ⟨p, mem_append_left _ hp, hc⟩
    · obtain ⟨p, hp, hc⟩ := h'.only w hw
      exact ⟨p, mem_append_right _ hp, hc⟩
  last w hw n := by
    rw [lastIn_append]
    rcases mem_append.mp hw with hw | hw
    · obtain ⟨p, hp, hc⟩ := h.only w hw
      rw [lastIn_of_not_group fun p' hp' => hc ▸ (hdisj p hp p' hp').symm, Option.none_or]
      exact h.last w hw n
    · obtain ⟨p', hp', hc⟩ := h'.only w hw
      rw [lastIn_of_not_group (l := l) fun p hp => hc ▸ hdisj p hp p' hp', Option.or_none]
      exact h'.last w hw n

/-- One group written to a store with two-part keys. -/
def Dict.putMany (d : Dict (C × N) V) (w : C × List (N × V)) : Dict (C × N) V :=
  d.update (w.2.map fun p => ((w.1, p.1), p.2))

theorem lastIn_pair (c c' : C) (n : N) : ∀ l : List (N × V),
    lastIn (c', n) (l.map fun p => ((c, p.1), p.2)) = if c = c' then lastIn n l else none
  | [] => by simp [lastIn]
  | (n', v) :: l => by
    rw [map_cons, lastIn, lastIn_pair c c' n l, lastIn]
    by_cases hc : c = c'
    · simp [hc]
    · simp [hc]

/-- What one group of a batch writes. -/
theorem Grouping.get?_putMany {l : List ((C × N) × V)} {ws : List (C × List (N × V))}
    (h : Grouping l ws) {w : C × List (N × V)} (hw : w ∈ ws) (d : Dict (C × N) V) (c : C) (n : N) :
    (d.putMany w).get? (c, n) = (if w.1 = c then lastIn (c, n) l else none).or (d.get? (c, n)) := by
  rw [Dict.putMany, Dict.get?_update_last, lastIn_pair, h.last w hw]
  by_cases hc : w.1 = c
  · simp [hc]
  · simp [hc]

end Groups

end Kit
