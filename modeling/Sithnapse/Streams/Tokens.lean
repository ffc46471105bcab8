import Mathlib.Data.Fintype.EquivFin
import Mathlib.Data.List.Sort
import Sithnapse.Kit.Alike
import Sithnapse.Kit.Paging

/-! Multi-writer stream tokens, and reading a sharded stream between two of them.

    A token gives every writer a position: those ahead of the baseline are named, all others are at it.
    Instance names are never empty (an instance is `worker_name or "master"`), so `if instance_name` asks
    whether the column is NULL. -/

namespace Sithnapse.Streams
open Kit Kit.Dict List

variable {I : Type} [DecidableEq I]

/-- The named writers are ahead of the baseline, as `__attrs_post_init__` enforces. -/
structure MultiWriterStreamToken (I : Type) [DecidableEq I] where
  stream : ℤ
  instanceMap : Dict I ℤ
  ahead : ∀ i p, instanceMap.get? i = some p → stream < p

namespace MultiWriterStreamToken

variable (t high : MultiWriterStreamToken I)

def getStreamPosForInstance (i : I) : ℤ := t.instanceMap.getD i t.stream

def getMaxStreamPos : ℤ := t.instanceMap.values.max?.getD t.stream

def isBeforeOrEq (t other : MultiWriterStreamToken I) : Bool :=
  if t.stream > other.stream then false
  else (addAll t.instanceMap.keys other.instanceMap.keys).all fun i =>
    t.getStreamPosForInstance i ≤ other.getStreamPosForInstance i

/-- The position a row is compared with; rows from before there were several writers have no instance. -/
def posFor : Option I → ℤ
  | some i => t.getStreamPosForInstance i
  | none => t.stream

def isStreamPositionInRange (low high : Option (MultiWriterStreamToken I)) (i : Option I) (pos : ℤ) : Bool :=
  if low.any (pos ≤ ·.posFor i) then false else !high.any (·.posFor i < pos)

theorem stream_le_pos (i : I) : t.stream ≤ t.getStreamPosForInstance i := by
  rw [getStreamPosForInstance, Dict.getD]
  cases h : t.instanceMap.get? i with
  | none => exact le_refl _
  | some p => exact (t.ahead i p h).le

theorem stream_le_posFor : ∀ i, t.stream ≤ t.posFor i
  | some i => t.stream_le_pos i
  | none => le_refl _

theorem pos_of_not_mem {i : I} (h : i ∉ t.instanceMap.keys) : t.getStreamPosForInstance i = t.stream :=
  getD_of_not_mem _ h

theorem posFor_le_max : ∀ i, t.posFor i ≤ t.getMaxStreamPos := by
  have hmax : ∀ p ∈ t.instanceMap.values, p ≤ t.getMaxStreamPos := fun p hp => by
    obtain ⟨m, hm⟩ := Option.isSome_iff_exists.mp (isSome_max?_of_mem hp)
    rw [getMaxStreamPos, hm]
    exact (max?_eq_some_iff.mp hm).2 p hp
  have hstream : t.stream ≤ t.getMaxStreamPos := by
    rw [getMaxStreamPos]
    cases hm : t.instanceMap.values.max? with
    | none => exact le_refl _
    | some m =>
      obtain ⟨i, hi⟩ := mem_values_iff.mp (max?_mem hm)
      exact (t.ahead i m hi).le
  rintro (_ | i)
  · exact hstream
  · by_cases hi : i ∈ t.instanceMap.keys
    · obtain ⟨p, hp⟩ := mem_keys_iff.mp hi
      rw [posFor, getStreamPosForInstance, getD_of_get? hp]
      exact hmax p (mem_values_iff.mpr ⟨i, hp⟩)
    · rw [posFor, t.pos_of_not_mem hi]
      exact hstream

/-! ### The bounds as SQL -/

/-- A condition on a row with an instance column that may be NULL and a stream id. -/
inductive Sql (I : Type) where
  | streamAbove (value : ℤ)
  | streamAtMost (value : ℤ)
  | instanceIsNotDistinctFrom (value : I)
  | not (e : Sql I)
  | and (e f : Sql I)
  | or (e f : Sql I)

/-- Three-valued logic: `none` is NULL. -/
def Sql.eval (i : Option I) (streamId : ℤ) : Sql I → Option Bool
  | streamAbove v => some (v < streamId)
  | streamAtMost v => some (streamId ≤ v)
  | instanceIsNotDistinctFrom v => some (i = some v)
  | not e => (e.eval i streamId).map (!·)
  | and e f =>
    match e.eval i streamId, f.eval i streamId with
    | some false, _ | _, some false => some false
    | some true, some true => some true
    | _, _ => none
  | or e f =>
    match e.eval i streamId, f.eval i streamId with
    | some true, _ | _, some true => some true
    | some false, some false => some false
    | _, _ => none

/-- `instance_name IS NOT DISTINCT FROM ? AND stream_id <= ?`. -/
def Sql.writerUpTo (e : I × ℤ) : Sql I := .and (.instanceIsNotDistinctFrom e.1) (.streamAtMost e.2)

def makeMultiwriterShardedTokenBoundsSql : Sql I :=
  let upper := high.instanceMap.entries.foldl (fun c e => .or c (.writerUpTo e)) (.streamAtMost high.stream)
  let clauses := t.instanceMap.entries.foldl (fun c e => .and c (.not (.writerUpTo e)))
    (.and (.streamAbove t.stream) (.streamAtMost high.getMaxStreamPos))
  .and clauses upper

theorem Sql.eval_and {e f : Sql I} {i : Option I} {s : ℤ} {a b : Bool} (he : e.eval i s = some a)
    (hf : f.eval i s = some b) : (e.and f).eval i s = some (a && b) := by
  rw [eval, he, hf]
  cases a <;> cases b <;> rfl

theorem Sql.eval_or {e f : Sql I} {i : Option I} {s : ℤ} {a b : Bool} (he : e.eval i s = some a)
    (hf : f.eval i s = some b) : (e.or f).eval i s = some (a || b) := by
  rw [eval, he, hf]
  cases a <;> cases b <;> rfl

theorem Sql.eval_writerUpTo (e : I × ℤ) (i : Option I) (s : ℤ) :
    (Sql.writerUpTo e).eval i s = some (decide (i = some e.1) && decide (s ≤ e.2)) :=
  Sql.eval_and rfl rfl

theorem Sql.eval_upper (i : Option I) (s : ℤ) : ∀ (l : List (I × ℤ)) {c : Sql I} {a : Bool},
    c.eval i s = some a → (l.foldl (fun c e => c.or (.writerUpTo e)) c).eval i s =
      some (a || l.any fun e => decide (i = some e.1) && decide (s ≤ e.2))
  | [], c, a, h => by simpa using h
  | e :: l, c, a, h => by
    rw [foldl_cons, eval_upper i s l (Sql.eval_or h (Sql.eval_writerUpTo e i s)), any_cons, Bool.or_assoc]

theorem Sql.eval_lower (i : Option I) (s : ℤ) : ∀ (l : List (I × ℤ)) {c : Sql I} {a : Bool},
    c.eval i s = some a → (l.foldl (fun c e => c.and (.not (.writerUpTo e))) c).eval i s =
      some (a && !l.any fun e => decide (i = some e.1) && decide (s ≤ e.2))
  | [], c, a, h => by simpa using h
  | e :: l, c, a, h => by
    have he : (Sql.not (.writerUpTo e)).eval i s = some (!(decide (i = some e.1) && decide (s ≤ e.2))) := by
      rw [eval, Sql.eval_writerUpTo, Option.map_some]
    rw [foldl_cons, eval_lower i s l (Sql.eval_and h he), any_cons, Bool.not_or, Bool.and_assoc]

/-- A named writer's bound, or the baseline. -/
theorem le_posFor_iff (i : Option I) (s : ℤ) : s ≤ t.posFor i ↔
    s ≤ t.stream ∨ (t.instanceMap.entries.any fun e => decide (i = some e.1) && decide (s ≤ e.2)) = true := by
  have hany : (t.instanceMap.entries.any fun e => decide (i = some e.1) && decide (s ≤ e.2)) = true ↔
      ∃ j p, t.instanceMap.get? j = some p ∧ i = some j ∧ s ≤ p := by
    simp [get?_eq_some_iff]
  rw [hany]
  cases i with
  | none => simp [posFor]
  | some i =>
    rw [posFor, getStreamPosForInstance, Dict.getD]
    cases h : t.instanceMap.get? i with
    | none => simp [h]
    | some p =>
      have := t.ahead i p h
      grind

theorem eval_bounds (i : Option I) (s : ℤ) :
    (makeMultiwriterShardedTokenBoundsSql t high).eval i s =
      some (isStreamPositionInRange (some t) (some high) i s) := by
  rw [makeMultiwriterShardedTokenBoundsSql, Sql.eval_and
    (Sql.eval_lower i s _ (Sql.eval_and rfl rfl)) (Sql.eval_upper i s _ rfl), isStreamPositionInRange]
  have hlow := t.le_posFor_iff i s
  have hhigh := high.le_posFor_iff i s
  have hmax := high.posFor_le_max i
  grind

/-! ### Reading on after a partial read -/

/-- A token that names the writers ahead of its baseline. -/
def ofPositions (baseline : ℤ) (names : List I) (pos : I → ℤ) : MultiWriterStreamToken I where
  stream := baseline
  instanceMap := .ofList (((addAll [] names).filter (baseline < pos ·)).map fun i => (i, pos i))
  ahead i p h := by
    rw [get?_ofList_map] at h
    grind

theorem pos_ofPositions {baseline : ℤ} {names : List I} {pos : I → ℤ} {i : I} (hle : baseline ≤ pos i)
    (hnot : i ∉ names → pos i = baseline) : (ofPositions baseline names pos).getStreamPosForInstance i = pos i := by
  rw [getStreamPosForInstance, ofPositions, Dict.getD, get?_ofList_map]
  grind [mem_addAll]

/-- Where the reader is after the rows up to `last`; `none` is the failed assertion. -/
def advanceAfterPartialRead (last : ℤ) : Option (MultiWriterStreamToken I) :=
  if t.stream < last then
    some (ofPositions (max t.stream (min last high.stream)) (t.instanceMap.keys ++ high.instanceMap.keys) fun i =>
      max (t.getStreamPosForInstance i) (min last (high.getStreamPosForInstance i)))
  else none

variable {t high}

/-- Every writer has moved to `last`, but not past the upper token. -/
theorem posFor_advance (high : MultiWriterStreamToken I) {last : ℤ} (h : t.stream < last) :
    ∃ t', advanceAfterPartialRead t high last = some t' ∧
      ∀ i, t'.posFor i = max (t.posFor i) (min last (high.posFor i)) := by
  refine ⟨_, if_pos h, fun i => ?_⟩
  cases i with
  | none => rfl
  | some i =>
    have ht := t.stream_le_pos i
    have hhigh := high.stream_le_pos i
    refine pos_ofPositions (by omega) fun hi => ?_
    rw [mem_append, not_or] at hi
    rw [t.pos_of_not_mem hi.1, high.pos_of_not_mem hi.2]

variable (rows : List (Option I × ℤ)) (limit : ℕ)

/-- The rows between two tokens, by stream id. -/
def between (t high : MultiWriterStreamToken I) : List (Option I × ℤ) :=
  (rows.mergeSort (·.2 ≤ ·.2)).filter fun r => (makeMultiwriterShardedTokenBoundsSql t high).eval r.1 r.2 = some true

/-- A read of at most `limit` whole stream ids, and the token to go on with. -/
def readPage (high t : MultiWriterStreamToken I) : List (Option I × ℤ) × MultiWriterStreamToken I :=
  match ((addAll [] ((between rows t high).map Prod.snd)).take limit).getLast? with
  | none => ([], t)
  | some last => ((between rows t high).filter (·.2 ≤ last), (advanceAfterPartialRead t high last).getD t)

theorem between_eq : between rows t high =
    (rows.mergeSort (·.2 ≤ ·.2)).filter fun r => isStreamPositionInRange (some t) (some high) r.1 r.2 := by
  simp [between, eval_bounds]

theorem sorted_between : (between rows t high).Pairwise (·.2 ≤ ·.2) := by
  have hsorted : (rows.mergeSort fun a b => decide (a.2 ≤ b.2)).Pairwise fun a b => decide (a.2 ≤ b.2) :=
    pairwise_mergeSort (by grind) (by grind) rows
  exact (hsorted.imp of_decide_eq_true).sublist filter_sublist

variable {rows limit}

/-- After a read, what is left are the rows with later ids. -/
theorem between_advance {last : ℤ} {t' : MultiWriterStreamToken I}
    (h : ∀ i, t'.posFor i = max (t.posFor i) (min last (high.posFor i))) :
    between rows t' high = (between rows t high).filter fun r => !decide (r.2 ≤ last) := by
  rw [between_eq, between_eq, filter_filter]
  refine filter_congr fun r _ => ?_
  have := h r.1
  simp only [isStreamPositionInRange, Option.any_some]
  grind

theorem readPage_spec (hlimit : 0 < limit) (t : MultiWriterStreamToken I) :
    between rows t high = (readPage rows limit high t).1 ++ between rows (readPage rows limit high t).2 high ∧
      ((readPage rows limit high t).1 = [] → between rows t high = []) := by
  rw [readPage]
  split
  · rename_i hnone
    have hnil : between rows t high = [] := by
      rcases hb : between rows t high with _ | ⟨r, l⟩
      · rfl
      · have hmem : r.2 ∈ addAll [] ((between rows t high).map Prod.snd) := by simp [hb]
        rw [getLast?_eq_none_iff, take_eq_nil_iff] at hnone
        grind
    exact ⟨rfl, fun _ => hnil⟩
  · rename_i last hlast
    obtain ⟨r, hr, rfl⟩ : ∃ r ∈ between rows t high, r.2 = last := by
      simpa using mem_of_mem_take (mem_of_getLast? hlast)
    have hlow : t.stream < r.2 := by
      have hrange := (mem_filter.mp (between_eq rows ▸ hr)).2
      have := t.stream_le_posFor r.1
      simp only [isStreamPositionInRange, Option.any_some] at hrange
      grind
    obtain ⟨t', ht', hpos⟩ := posFor_advance high hlow
    rw [ht', Option.getD_some, between_advance hpos]
    refine ⟨(filter_append_filter_not ((sorted_between rows).imp ?_)).symm, fun hnil => ?_⟩
    · intro a b hab hb
      have := of_decide_eq_true hb
      exact decide_eq_true (by omega)
    · have hread : r ∈ (between rows t high).filter (·.2 ≤ r.2) := mem_filter.mpr ⟨hr, by simp⟩
      rw [show (between rows t high).filter (·.2 ≤ r.2) = [] from hnil] at hread
      cases hread

/-- The clause selects the rows in range, and reading on after partial reads reads them all, once each. -/
theorem sharded_reads_partition (t high : MultiWriterStreamToken I) (rows : List (Option I × ℤ)) {limit : ℕ}
    (hlimit : 0 < limit) :
    (∀ i s, (makeMultiwriterShardedTokenBoundsSql t high).eval i s =
      some (isStreamPositionInRange (some t) (some high) i s)) ∧
    ∃ l N, (∀ n ≥ N, readAll (readPage rows limit high) n t = some l) ∧ l.Pairwise (·.2 ≤ ·.2) ∧
      l.Perm (rows.filter fun r => isStreamPositionInRange (some t) (some high) r.1 r.2) := by
  refine ⟨t.eval_bounds high, between rows t high, (between rows t high).length + 1, fun n hn => ?_,
    sorted_between rows, ?_⟩
  · exact readAll_eq (between rows · high) (I := fun _ => True)
      (fun s _ _ => ⟨trivial, (readPage_spec hlimit s).1⟩) (fun s _ => (readPage_spec hlimit s).2) n t trivial hn
  · rw [between_eq]
    exact (mergeSort_perm ..).filter _

theorem sharded_reads_partition_one : 0 < 1 ∧ ∃ l N, ∀ n ≥ N, readAll (readPage [(none, 6), (some true, 9)] 1
    (⟨8, .ofList [(true, 9)], by decide⟩ : MultiWriterStreamToken Bool)) n ⟨5, .empty, nofun⟩ = some l := by
  obtain ⟨-, l, N, h, -⟩ := sharded_reads_partition ⟨5, .empty, nofun⟩
    (⟨8, .ofList [(true, 9)], by decide⟩ : MultiWriterStreamToken Bool) [(none, 6), (some true, 9)] Nat.one_pos
  exact ⟨Nat.one_pos, l, N, h⟩

/-! ### The lattice of tokens -/

/-- `copy_and_advance`: a writer is named while it is ahead of the later baseline. -/
def copyAndAdvance (t other : MultiWriterStreamToken I) : MultiWriterStreamToken I :=
  ofPositions (max t.stream other.stream) (t.instanceMap.keys ++ other.instanceMap.keys) fun i =>
    max (t.getStreamPosForInstance i) (other.getStreamPosForInstance i)

/-- `bound_stream_token`. -/
def boundStreamToken (t : MultiWriterStreamToken I) (maxStream : ℤ) : MultiWriterStreamToken I :=
  if t.getMaxStreamPos ≤ maxStream then t
  else ofPositions (min t.stream maxStream) t.instanceMap.keys fun i =>
    min (t.getStreamPosForInstance i) maxStream

section

variable (t u : MultiWriterStreamToken I)

theorem pos_copyAndAdvance (i : I) :
    (t.copyAndAdvance u).getStreamPosForInstance i =
      max (t.getStreamPosForInstance i) (u.getStreamPosForInstance i) := by
  have ht := t.stream_le_pos i
  have hu := u.stream_le_pos i
  refine pos_ofPositions (by omega) fun hi => ?_
  rw [mem_append, not_or] at hi
  rw [t.pos_of_not_mem hi.1, u.pos_of_not_mem hi.2]

theorem pos_boundStreamToken (t : MultiWriterStreamToken I) (m : ℤ) (i : I) :
    (t.boundStreamToken m).getStreamPosForInstance i = min (t.getStreamPosForInstance i) m := by
  rw [boundStreamToken]
  split_ifs with hmax
  · exact (min_eq_left ((t.posFor_le_max (some i)).trans hmax)).symm
  · have ht := t.stream_le_pos i
    refine pos_ofPositions (by omega) fun hi => ?_
    rw [t.pos_of_not_mem hi]

/-- An unnamed writer is at the baseline, so the positions of all writers tell the token. -/
theorem exists_pos_eq_stream [Infinite I] :
    ∃ i, t.getStreamPosForInstance i = t.stream ∧ u.getStreamPosForInstance i = u.stream := by
  obtain ⟨i, hi⟩ := Infinite.exists_notMem_finset (t.instanceMap.keys ++ u.instanceMap.keys).toFinset
  rw [mem_toFinset, mem_append, not_or] at hi
  exact ⟨i, t.pos_of_not_mem hi.1, u.pos_of_not_mem hi.2⟩

theorem isBeforeOrEq_iff [Infinite I] :
    t.isBeforeOrEq u = true ↔ ∀ i, t.getStreamPosForInstance i ≤ u.getStreamPosForInstance i := by
  rw [isBeforeOrEq]
  constructor
  · intro h i
    split_ifs at h with hstream
    by_cases hi : i ∈ addAll t.instanceMap.keys u.instanceMap.keys
    · exact of_decide_eq_true (all_eq_true.mp h i hi)
    · rw [mem_addAll, not_or] at hi
      rw [t.pos_of_not_mem hi.1, u.pos_of_not_mem hi.2]
      exact not_lt.mp hstream
  · intro h
    obtain ⟨i, ht, hu⟩ := exists_pos_eq_stream t u
    rw [if_neg (not_lt.mpr (ht ▸ hu ▸ h i)), all_eq_true]
    exact fun i _ => decide_eq_true (h i)

end

/-- Equal as Python compares tokens. -/
def Same (t u : MultiWriterStreamToken I) : Prop :=
  t.stream = u.stream ∧ Dict.Same t.instanceMap u.instanceMap

theorem same_of_pos [Infinite I] {t u : MultiWriterStreamToken I}
    (h : ∀ i, t.getStreamPosForInstance i = u.getStreamPosForInstance i) : Same t u := by
  obtain ⟨i, ht, hu⟩ := exists_pos_eq_stream t u
  have hstream : t.stream = u.stream := ht ▸ hu ▸ h i
  refine ⟨hstream, fun j => ?_⟩
  have hj := h j
  rw [getStreamPosForInstance, getStreamPosForInstance, Dict.getD, Dict.getD] at hj
  have htj := t.ahead j
  have huj := u.ahead j
  cases hget : t.instanceMap.get? j <;> cases hget' : u.instanceMap.get? j <;> grind

/-- Tokens as functions from writers to positions: the comparison is the pointwise order, advancing is the
    pointwise maximum, so the least upper bound, and bounding is the pointwise minimum. The named writers
    stay ahead of the baseline. -/
theorem tokens_form_lattice [Infinite I] (t u v : MultiWriterStreamToken I) (m : ℤ) :
    (t.isBeforeOrEq u = true ↔ ∀ i, t.getStreamPosForInstance i ≤ u.getStreamPosForInstance i) ∧
    (∀ i, (t.copyAndAdvance u).getStreamPosForInstance i =
      max (t.getStreamPosForInstance i) (u.getStreamPosForInstance i)) ∧
    ((t.copyAndAdvance u).isBeforeOrEq v = true ↔ t.isBeforeOrEq v = true ∧ u.isBeforeOrEq v = true) ∧
    Same ((t.copyAndAdvance u).copyAndAdvance v) (t.copyAndAdvance (u.copyAndAdvance v)) ∧
    Same (t.copyAndAdvance u) (u.copyAndAdvance t) ∧ Same (t.copyAndAdvance t) t ∧
    (∀ i, (t.boundStreamToken m).getStreamPosForInstance i = min (t.getStreamPosForInstance i) m) ∧
    ∀ r ∈ [t.copyAndAdvance u, t.boundStreamToken m], ∀ i p, r.instanceMap.get? i = some p → r.stream < p := by
  refine ⟨isBeforeOrEq_iff t u, pos_copyAndAdvance t u, ?_, same_of_pos fun i => ?_, same_of_pos fun i => ?_,
    same_of_pos fun i => ?_, pos_boundStreamToken t m, fun r _ => r.ahead⟩
  · simp only [isBeforeOrEq_iff, pos_copyAndAdvance, max_le_iff, forall_and]
  · simp only [pos_copyAndAdvance, max_assoc]
  · rw [pos_copyAndAdvance, pos_copyAndAdvance, max_comm]
  · rw [pos_copyAndAdvance, max_self]

theorem tokens_form_lattice_nat : let t : MultiWriterStreamToken ℕ := ofPositions 5 [1] fun _ => 7
    Same (t.copyAndAdvance ⟨6, .empty, nofun⟩) (copyAndAdvance ⟨6, .empty, nofun⟩ t) :=
  (tokens_form_lattice _ _ ⟨0, .empty, nofun⟩ 0).2.2.2.2.1

end MultiWriterStreamToken

end Sithnapse.Streams
