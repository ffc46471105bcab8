import Sithnapse.RoomIndex.Log

/-! Lookups in the room index.

    `put` appends to the shard of the namespace and remembers the prefixes in a bounded cache;
    `get_many` asks the cache first, then the shard, then a file of the old format, and remembers what
    it found. The cache may drop any of its entries whenever something is put into it. Lookups are
    compared with the list of everything that was put: the newest prefix that is not all zero. -/

namespace Sithnapse.RoomIndex

open Kit Kit.Dict List

/-- A key of `PREFIX_CACHE`. -/
abbrev CacheKey := Digest × StateGroup

/-- Which entries stay after each `put` into the cache. -/
abbrev Evictions := ℕ → CacheKey → Bool

/-- The files of the index and the cache of the process. -/
structure Index where
  shards : Dict ℕ (List UInt8)
  legacy : Digest → Option (List UInt8)
  cache : Dict CacheKey (List UInt8)

/-- A new index. -/
def Index.new : Index := ⟨Dict.empty, fun _ => none, Dict.empty⟩

/-- `cache.put` for some entries in turn. -/
def cachePut (keep : Evictions) :
    ℕ → List (CacheKey × List UInt8) → Dict CacheKey (List UInt8) → Dict CacheKey (List UInt8)
  | _, [], cache => cache
  | n, e :: entries, cache => cachePut keep (n + 1) entries ((cache.set e.1 e.2).filter (keep n))

/-- The legacy file's prefix of a group: `read_exact_at`, and not all zero. -/
def legacyPrefix (file : List UInt8) (g : StateGroup) : Option (List UInt8) :=
  let offset := min (g.toNat * roomPrefixLen) (2 ^ 64 - 1)
  let record := (file.drop offset).take roomPrefixLen
  if record.length = roomPrefixLen ∧ nonzero record then some record else none

section Calls

variable {N : Type} (digest : N → Digest)

/-- `put`. -/
def put (keep : Evictions) (index : Index) (ns : N) (entries : List (StateGroup × List UInt8)) : Index :=
  if entries = [] then index
  else
    let d := digest ns
    let written := (entries.map fun e => encodeRecord d e.1 e.2).flatten
    let cached := (entries.filter fun e => nonzero (padded e.2)).map fun e => ((d, e.1), padded e.2)
    { index with
      shards := index.shards.set (shardFor d) (index.shards.getD (shardFor d) [] ++ written)
      cache := cachePut keep 0 cached index.cache }

variable (index : Index)

/-- What the shared file of the namespace says of the groups. -/
def scanShard (d : Digest) (wanted : List StateGroup) : Dict StateGroup (List UInt8) :=
  match index.shards.get? (shardFor d) with
  | some file => scanLatestPrefixes file d wanted
  | none => Dict.empty

/-- The groups that are not in the cache. -/
def missingGroups (d : Digest) (groups : List StateGroup) : List StateGroup :=
  groups.filter fun g => (index.cache.get? (d, g)).isNone

/-- The answers of the cache and the shared file. -/
def sharedAnswers (d : Digest) (groups : List StateGroup) : List (Option (List UInt8)) :=
  let found := scanShard index d (addAll [] (missingGroups index d groups))
  groups.map fun g => (index.cache.get? (d, g)).or (found.get? g)

/-- Ask the legacy file for what is still open. -/
def legacyAnswers (d : Digest) (groups : List StateGroup)
    (out : List (Option (List UInt8))) : List (Option (List UInt8)) :=
  if out.any Option.isNone then
    match index.legacy d with
    | some file => (groups.zip out).map fun e => e.2.or (legacyPrefix file e.1)
    | none => out
  else out

/-- `get_many`. -/
def getMany (keep : Evictions) (index : Index) (ns : N) (groups : List StateGroup) :
    List (Option (List UInt8)) × Index :=
  let d := digest ns
  if missingGroups index d groups = [] then (groups.map fun g => index.cache.get? (d, g), index)
  else
    let out := legacyAnswers index d groups (sharedAnswers index d groups)
    let cached := (groups.zip out).filterMap fun e => e.2.map fun p => ((d, e.1), p)
    (out, { index with cache := cachePut keep 0 cached index.cache })

/-- A call, with what the cache drops during it. -/
inductive Call (N : Type) where
  | put (ns : N) (entries : List (StateGroup × List UInt8)) (keep : Evictions)
  | getMany (ns : N) (groups : List StateGroup) (keep : Evictions)

/-- The index after a call. -/
def step : Call N → Index
  | .put ns entries keep => put digest keep index ns entries
  | .getMany ns groups keep => (getMany digest keep index ns groups).2

end Calls

/-! ### What was put -/

section History

variable {N : Type}

/-- One `put` of a prefix. -/
structure Entry (N : Type) where
  ns : N
  group : StateGroup
  room : List UInt8

/-- What a call puts. -/
def Call.entries : Call N → List (Entry N)
  | .put ns entries _ => entries.map fun e => ⟨ns, e.1, e.2⟩
  | .getMany _ _ _ => []

/-- Everything that was put, oldest first. -/
def history (calls : List (Call N)) : List (Entry N) := calls.flatMap Call.entries

/-- The newest prefix put for a group of a namespace that is not all zero, filled up to its length. -/
def newestPut [DecidableEq N] (puts : List (Entry N)) (ns : N) (g : StateGroup) : Option (List UInt8) :=
  puts.reverse.findSome? fun e =>
    if e.ns = ns ∧ e.group = g ∧ nonzero (padded e.room) then some (padded e.room) else none

end History

section Proofs

variable {N : Type} {digest : N → Digest}

/-- The record of an entry. -/
def Entry.record (digest : N → Digest) (e : Entry N) : List UInt8 :=
  encodeRecord (digest e.ns) e.group e.room

/-- The index holds what was put: each shard its records in order, and the cache nothing that the
    records do not say. -/
structure Holds (digest : N → Digest) (puts : List (Entry N)) (index : Index) : Prop where
  shards : ∀ shard, index.shards.getD shard [] =
    ((puts.filter fun e => shardFor (digest e.ns) = shard).map (Entry.record digest)).flatten
  legacy : ∀ d, index.legacy d = none
  cache : ∀ d g p, index.cache.get? (d, g) = some p → newest d g (puts.map (Entry.record digest)) = some p

theorem holds_new : Holds digest [] Index.new :=
  ⟨fun _ => rfl, fun _ => rfl, nofun⟩

/-- Records of other shards say nothing of a namespace. -/
theorem newest_shard (puts : List (Entry N)) (d : Digest) (g : StateGroup) :
    newest d g ((puts.filter fun e => shardFor (digest e.ns) = shardFor d).map (Entry.record digest)) =
      newest d g (puts.map (Entry.record digest)) := by
  induction puts with
  | nil => rfl
  | cons e puts ih =>
    by_cases he : shardFor (digest e.ns) = shardFor d
    · rw [filter_cons_of_pos (by simpa using he), map_cons, map_cons, newest_cons, newest_cons, ih]
    · have hne : digest e.ns ≠ d := fun h => he (by rw [h])
      have hnone : readRecord d g (e.record digest) = none := by
        rw [Entry.record, readRecord_encodeRecord, if_neg fun h => hne h.1]
      rw [filter_cons_of_neg (by simpa using he), map_cons, newest_cons, hnone, Option.or_none, ih]

variable {puts : List (Entry N)} {index : Index}

/-- The shared file answers for the whole log. -/
theorem get?_scanShard (h : Holds digest puts index)
    (d : Digest) {wanted : List StateGroup} {g : StateGroup} (hg : g ∈ wanted) :
    (scanShard index d wanted).get? g = newest d g (puts.map (Entry.record digest)) := by
  have hfile := h.shards (shardFor d)
  rw [← newest_shard, scanShard]
  cases hshard : index.shards.get? (shardFor d) with
  | none =>
    -- no file: nothing was written to the shard, since each record has bytes
    rw [Dict.getD, hshard, Option.getD_none] at hfile
    have hnil : (puts.filter fun e => shardFor (digest e.ns) = shardFor d).map (Entry.record digest) = [] := by
      refine eq_nil_iff_forall_not_mem.mpr fun r hr => ?_
      have hempty := flatten_eq_nil_iff.mp hfile.symm r hr
      obtain ⟨e, -, rfl⟩ := mem_map.mp hr
      have hlen := length_encodeRecord (digest e.ns) e.group e.room
      rw [show encodeRecord (digest e.ns) e.group e.room = [] from hempty] at hlen
      cases hlen
    rw [hnil]
    rfl
  | some file =>
    rw [Dict.getD, hshard, Option.getD_some] at hfile
    rw [hfile, ← append_nil (List.flatten _)]
    refine get?_scanLatestPrefixes (fun r hr => ?_) (by decide) d hg
    obtain ⟨e, -, rfl⟩ := mem_map.mp hr
    exact length_encodeRecord _ _ _

/-! ### The cache -/

/-- What some entries put under a key last. -/
def lastFor (k : CacheKey) : List (CacheKey × List UInt8) → Option (List UInt8)
  | [] => none
  | e :: entries => (lastFor k entries).or (if e.1 = k then some e.2 else none)

theorem mem_of_lastFor {k : CacheKey} {p : List UInt8} : ∀ {entries : List (CacheKey × List UInt8)},
    lastFor k entries = some p → (k, p) ∈ entries
  | e :: entries, h => by
    rw [lastFor, Option.or_eq_some_iff, Option.ite_none_right_eq_some] at h
    rcases h with hlater | ⟨-, rfl, h⟩
    · exact mem_cons_of_mem _ (mem_of_lastFor hlater)
    · cases h
      exact .head _

/-- Whatever was dropped on the way, what is in the cache was put last or was there before. -/
theorem get?_cachePut {keep : Evictions} {k : CacheKey} {p : List UInt8} :
    ∀ (entries : List (CacheKey × List UInt8)) {n : ℕ} {cache : Dict CacheKey (List UInt8)},
    (cachePut keep n entries cache).get? k = some p →
    (lastFor k entries).or (cache.get? k) = some p
  | [], _, _, h => h
  | e :: entries, n, cache, h => by
    have ih := get?_cachePut entries h
    rw [lastFor, Option.or_assoc, Option.or_eq_some_iff]
    refine (Option.or_eq_some_iff.mp ih).imp_right fun ⟨hlater, hkept⟩ => ⟨hlater, ?_⟩
    rw [← get?_of_filter hkept, get?_set]
    simp only [eq_comm (a := k)]
    split <;> rfl

/-- What a `put` caches is what its own records say. -/
theorem lastFor_put (d : Digest) (k : CacheKey) : ∀ entries : List (StateGroup × List UInt8),
    lastFor k ((entries.filter fun e => nonzero (padded e.2)).map fun e => ((d, e.1), padded e.2)) =
      newest k.1 k.2 (entries.map fun e => encodeRecord d e.1 e.2)
  | [] => rfl
  | e :: entries => by
    rw [map_cons, newest_cons, readRecord_encodeRecord, ← lastFor_put d k entries]
    by_cases hz : nonzero (padded e.2) = true
    · rw [filter_cons_of_pos (by simpa using hz), map_cons, lastFor]
      simp only [hz, and_true, Prod.ext_iff]
    · rw [filter_cons_of_neg (by simpa using hz), if_neg fun h => hz h.2.2, Option.or_none]

/-! ### One call -/

section

variable (h : Holds digest puts index)

include h

theorem holds_put
    (keep : Evictions) (ns : N) (entries : List (StateGroup × List UInt8)) :
    Holds digest (puts ++ entries.map fun e => ⟨ns, e.1, e.2⟩) (put digest keep index ns entries) := by
  have hrecords : (entries.map fun e => (⟨ns, e.1, e.2⟩ : Entry N)).map (Entry.record digest) =
      entries.map fun e => encodeRecord (digest ns) e.1 e.2 := by
    rw [map_map]
    rfl
  rw [put]
  split_ifs with hnil
  · rw [hnil, map_nil, append_nil]
    exact h
  · refine ⟨fun shard => ?_, h.legacy, fun d g p hp => ?_⟩
    · have hns : ∀ e ∈ entries.map fun e => (⟨ns, e.1, e.2⟩ : Entry N), e.ns = ns := by
        intro e he
        obtain ⟨_, -, rfl⟩ := mem_map.mp he
        rfl
      rw [filter_append, map_append, flatten_append, ← h.shards, Dict.getD, get?_set]
      by_cases hshard : shard = shardFor (digest ns)
      · rw [if_pos hshard, Option.getD_some, hshard, filter_eq_self.mpr, hrecords]
        exact fun e he => by simp [hns e he]
      · rw [if_neg hshard, filter_eq_nil_iff.mpr, map_nil, flatten_nil, append_nil, Dict.getD]
        exact fun e he => by simpa [hns e he] using fun h => hshard h.symm
    · have hlast := get?_cachePut _ hp
      rw [lastFor_put] at hlast
      rw [map_append, newest_append, hrecords, Option.or_eq_some_iff]
      exact (Option.or_eq_some_iff.mp hlast).imp_right fun hold => ⟨hold.1, h.cache d g p hold.2⟩

/-- The cache and the shared file together answer for the whole log. -/
theorem sharedAnswers_eq (d : Digest) (groups : List StateGroup) :
    sharedAnswers index d groups = groups.map fun g => newest d g (puts.map (Entry.record digest)) := by
  refine map_congr_left fun g hg => ?_
  cases hc : index.cache.get? (d, g) with
  | some p => rw [Option.some_or, h.cache d g p hc]
  | none =>
    have hmissing : g ∈ missingGroups index d groups := mem_filter.mpr ⟨hg, by rw [hc]; rfl⟩
    rw [Option.none_or, get?_scanShard h d (mem_addAll.mpr (.inr hmissing))]

/-- `get_many` answers for the whole log, whatever is in the cache. -/
theorem getMany_answers
    (keep : Evictions) (ns : N) (groups : List StateGroup) :
    (getMany digest keep index ns groups).1 =
      groups.map fun g => newest (digest ns) g (puts.map (Entry.record digest)) := by
  rw [getMany]
  split_ifs with hnone
  · refine map_congr_left fun g hg => ?_
    have hhit := filter_eq_nil_iff.mp hnone g hg
    rw [Option.isNone_iff_eq_none] at hhit
    obtain ⟨p, hp⟩ := Option.ne_none_iff_exists'.mp hhit
    rw [hp, h.cache _ _ _ hp]
  · rw [legacyAnswers, h.legacy, sharedAnswers_eq h]
    split <;> rfl

theorem holds_getMany (keep : Evictions) (ns : N) (groups : List StateGroup) :
    Holds digest puts (getMany digest keep index ns groups).2 := by
  have hanswers := getMany_answers h keep ns groups
  rw [getMany] at hanswers ⊢
  split_ifs at hanswers with hnone
  · rw [if_pos hnone]
    exact h
  · rw [if_neg hnone]
    refine ⟨h.shards, h.legacy, fun d g p hp => ?_⟩
    have hlast := get?_cachePut _ hp
    dsimp only at hanswers
    rw [hanswers] at hlast
    rcases Option.or_eq_some_iff.mp hlast with hfound | ⟨-, hold⟩
    · -- what was remembered is the answer of some group of the call
      obtain ⟨⟨g₁, answer⟩, hzip, hkey⟩ := mem_filterMap.mp (mem_of_lastFor hfound)
      obtain ⟨p₁, rfl, heq⟩ := Option.map_eq_some_iff.mp hkey
      rw [← map_prod_left_eq_zip, mem_map] at hzip
      obtain ⟨g₂, -, hpair⟩ := hzip
      simp only [Prod.mk.injEq] at heq hpair
      obtain ⟨⟨rfl, rfl⟩, rfl⟩ := heq
      obtain ⟨rfl, hnewest⟩ := hpair
      exact hnewest
    · exact h.cache d g p hold

/-- A call keeps the index right. -/
theorem holds_step :
    ∀ call : Call N, Holds digest (puts ++ call.entries) (step digest index call)
  | .put ns entries keep => holds_put h keep ns entries
  | .getMany ns groups keep => by
    rw [Call.entries, append_nil]
    exact holds_getMany h keep ns groups

end

/-- The index stays right in every run. -/
theorem holds_calls : ∀ (calls : List (Call N)) {puts : List (Entry N)} {index : Index},
    Holds digest puts index → Holds digest (puts ++ history calls) (calls.foldl (step digest) index)
  | [], _, _, h => by simpa [history] using h
  | call :: calls, puts, index, h => by
    rw [history, flatMap_cons, ← append_assoc]
    exact holds_calls calls (holds_step h call)

theorem newestPut_cons [DecidableEq N] (e : Entry N) (puts : List (Entry N)) (ns : N) (g : StateGroup) :
    newestPut (e :: puts) ns g = (newestPut puts ns g).or
      (if e.ns = ns ∧ e.group = g ∧ nonzero (padded e.room) then some (padded e.room) else none) := by
  rw [newestPut, reverse_cons, findSome?_append, findSome?_singleton]
  rfl

/-- The newest record is that of the newest put, when no other namespace that was put to has the
    digest. -/
theorem newest_eq_newestPut [DecidableEq N] {ns : N} (g : StateGroup) : ∀ {puts : List (Entry N)},
    (∀ e ∈ puts, digest e.ns = digest ns → e.ns = ns) →
    newest (digest ns) g (puts.map (Entry.record digest)) = newestPut puts ns g
  | [], _ => rfl
  | e :: puts, hdigest => by
    have hns : digest e.ns = digest ns ↔ e.ns = ns :=
      ⟨hdigest e (.head _), congrArg digest⟩
    rw [map_cons, newest_cons, newestPut_cons, Entry.record, readRecord_encodeRecord,
      newest_eq_newestPut g fun e he => hdigest e (.tail _ he)]
    simp only [hns]

/-- **Lookups equal the log.** After any calls, whatever the cache dropped, `get_many` gives for each
    group the newest prefix put for it that is not all zero. -/
theorem lookups_equal_log [DecidableEq N] (digest : N → Digest) (calls : List (Call N))
    (keep : Evictions) (ns : N) (groups : List StateGroup)
    (hdigest : ∀ e ∈ history calls, digest e.ns = digest ns → e.ns = ns) :
    (getMany digest keep (calls.foldl (step digest) Index.new) ns groups).1 =
      groups.map (newestPut (history calls) ns) := by
  have hholds : Holds digest (history calls) (calls.foldl (step digest) Index.new) :=
    holds_calls calls holds_new
  rw [getMany_answers hholds]
  exact map_congr_left fun g _ => newest_eq_newestPut g hdigest

/-- Two namespaces of one shard and a cache that keeps nothing, or drops one namespace; an all-zero
    prefix does not hide an older one, and a short one is filled up. -/
theorem lookups_equal_log_shared :
    let digest : Bool → Digest := fun b => ⟨(if b then 0 else 64) :: List.replicate 15 7, by simp⟩
    let calls : List (Call Bool) :=
      [.put true [(1, [1, 2]), (1, [3]), (2, [0, 0])] fun _ _ => false,
       .put false [(1, [9])] fun _ _ => true,
       .getMany true [1, 2, 1] fun _ k => k.2 ≠ 1,
       .put true [(1, [])] fun _ _ => true]
    shardFor (digest true) = shardFor (digest false) ∧
      (getMany digest (fun _ _ => true) (calls.foldl (step digest) Index.new) true [1, 2, 3]).1 =
        [some [3, 0, 0, 0, 0, 0, 0, 0], none, none] := by
  intro digest calls
  have hdigest : ∀ e ∈ history calls, digest e.ns = digest true → e.ns = true := by
    intro e _ hd
    cases hns : e.ns with
    | true => rfl
    | false =>
      rw [hns] at hd
      exact absurd hd (by decide)
  refine ⟨by decide, ?_⟩
  rw [lookups_equal_log digest calls (fun _ _ => true) true [1, 2, 3] hdigest]
  decide +kernel

/-! ### Torn records -/

/-- A new process: the cache is empty. -/
def Index.restart (index : Index) : Index := { index with cache := Dict.empty }

/-- A crash inside `put`: of the record it was writing, the first bytes are at the end of the shard. -/
def Index.tear (index : Index) (d : Digest) (torn : List UInt8) : Index :=
  { index with shards := index.shards.set (shardFor d) (index.shards.getD (shardFor d) [] ++ torn) }

/-- A `put` to the shard. -/
def Call.PutsTo (digest : N → Digest) (shard : ℕ) : Call N → Prop
  | .put ns _ _ => shardFor (digest ns) = shard
  | .getMany _ _ _ => False

section

variable (h : Holds digest puts index)

include h

theorem Holds.restart : Holds digest puts index.restart :=
  ⟨h.shards, h.legacy, nofun⟩

/-- Nothing was left of the record. -/
theorem Holds.tear_nil (d : Digest) : Holds digest puts (index.tear d []) := by
  refine ⟨fun shard => ?_, h.legacy, h.cache⟩
  rw [Index.tear, append_nil, getD_set, ← h.shards]
  split_ifs with hshard
  · rw [hshard]
  · rfl

/-- A lookup after a restart, and after one more record was put to a torn shard: the bytes read as the
    last record are the torn ones and the first of the new record, and the rest of it is passed over. -/
theorem getMany_after_tear (ns : N) (keep : Evictions) (g : StateGroup)
    {torn : List UInt8} (htorn : torn.length < recordLen) (room : List UInt8) :
    (getMany digest keep (put digest keep (index.tear (digest ns) torn).restart ns [(g, room)]).restart
        ns [g]).1 = [newest (digest ns) g
      ((puts.filter fun e => shardFor (digest e.ns) = shardFor (digest ns)).map (Entry.record digest) ++
        [torn ++ (encodeRecord (digest ns) g room).take (recordLen - torn.length)])] := by
  obtain ⟨old, hold⟩ : ∃ l, l = (puts.filter fun e => shardFor (digest e.ns) = shardFor (digest ns)).map
    (Entry.record digest) := ⟨_, rfl⟩
  have hlen := length_encodeRecord (digest ns) g room
  have hrecords : ∀ r ∈ old ++ [torn ++ (encodeRecord (digest ns) g room).take (recordLen - torn.length)],
      r.length = recordLen := by
    refine forall_mem_concat.mpr ⟨fun r hr => ?_, ?_⟩
    · rw [hold] at hr
      obtain ⟨e, -, rfl⟩ := mem_map.mp hr
      exact length_encodeRecord _ _ _
    · rw [length_append, length_take, hlen]
      omega
  have htail : ((encodeRecord (digest ns) g room).drop (recordLen - torn.length)).length < recordLen := by
    rw [length_drop, hlen]
    omega
  have hscan := get?_scanLatestPrefixes hrecords htail (digest ns) (mem_singleton_self g)
  rw [flatten_append, flatten_singleton, append_assoc, append_assoc,
    take_append_drop, hold, ← h.shards] at hscan
  have hfile : (put digest keep (index.tear (digest ns) torn).restart ns [(g, room)]).shards.get?
      (shardFor (digest ns)) = some (index.shards.getD (shardFor (digest ns)) [] ++
        (torn ++ encodeRecord (digest ns) g room)) := by
    simp [put, Index.tear, Index.restart, getD_set]
  have hlegacy : ∀ i : Index, (∀ d, i.legacy d = none) → (getMany digest keep i.restart ns [g]).1 =
      [(scanShard i (digest ns) [g]).get? g] := by
    intro i hi
    simp [getMany, missingGroups, Index.restart, sharedAnswers, legacyAnswers, hi, scanShard, addAll, addIf]
  rw [hlegacy (put digest keep (index.tear (digest ns) torn).restart ns [(g, room)]) h.legacy, scanShard,
    hfile, ← hscan]

end

/-- Lookups find everything that was put before and after a crash exactly when the crash left nothing of
    the record it tore. -/
theorem torn_append_recovers_iff (digest : N → Digest) (calls : List (Call N)) (torn : Entry N)
    (left : Fin recordLen) :
    (∀ later : List (Call N), (∀ c ∈ later, c.PutsTo digest (shardFor (digest torn.ns))) →
      ∀ keep ns g p,
        newest (digest ns) g ((history calls ++ history later).map (Entry.record digest)) = some p →
        (getMany digest keep (later.foldl (step digest) ((calls.foldl (step digest) Index.new).tear
          (digest torn.ns) ((torn.record digest).take left)).restart).restart ns [g]).1 = [some p]) ↔
      left.val = 0 := by
  have hholds : Holds digest (history calls) (calls.foldl (step digest) Index.new) :=
    holds_calls calls holds_new
  constructor
  · intro h
    by_contra hleft
    have htorn : ((torn.record digest).take left).length = left := by
      rw [length_take, Entry.record, length_encodeRecord]
      exact min_eq_left left.isLt.le
    -- records that differ in their last byte only: a lookup does not see which of them was put
    obtain ⟨answer, hanswer⟩ : ∃ answer, ∀ b : UInt8, (getMany digest (fun _ _ => true)
        (put digest (fun _ _ => true) ((calls.foldl (step digest) Index.new).tear (digest torn.ns)
          ((torn.record digest).take left)).restart torn.ns [(0, [1, 0, 0, 0, 0, 0, 0, b])]).restart
        torn.ns [0]).1 = [answer] := by
      apply Exists.intro
      intro b
      have hfront : encodeRecord (digest torn.ns) 0 [1, 0, 0, 0, 0, 0, 0, b] =
          indexMagic ++ ((digest torn.ns).val ++ (beBytes 8 0 ++ [1, 0, 0, 0, 0, 0, 0])) ++ [b] := by
        simp [encodeRecord, padded, roomPrefixLen]
      rw [getMany_after_tear hholds torn.ns _ 0 (htorn.trans_lt left.isLt) _, hfront, htorn,
        take_append_of_le_length]
      simp only [length_append, (digest torn.ns).property, length_beBytes, indexMagic, recordLen,
        length_cons, length_nil]
      omega
    have hput : ∀ b : UInt8, answer = some [1, 0, 0, 0, 0, 0, 0, b] := by
      intro b
      have hfound := h [.put torn.ns [(0, [1, 0, 0, 0, 0, 0, 0, b])] fun _ _ => true]
        (by simp [Call.PutsTo]) (fun _ _ => true) torn.ns 0 [1, 0, 0, 0, 0, 0, 0, b] ?_
      · exact head_eq_of_cons_eq ((hanswer b).symm.trans hfound)
      · rw [map_append, newest_append]
        simp [history, Call.entries, Entry.record, newest, readRecord_encodeRecord, padded, roomPrefixLen, nonzero]
    exact absurd ((hput 0).symm.trans (hput 1)) (by decide)
  · intro hleft later hlater keep ns g p hp
    rw [hleft, take_zero]
    rw [getMany_answers (holds_calls later (hholds.tear_nil _).restart).restart, map_singleton, hp]

/-- Of a record for group 2, all but the prefix is left. The record put for group 3 afterwards is lost, and
    its first bytes are read as the prefix of group 2. -/
theorem torn_append_loses_later : let digest : Unit → Digest := fun _ => ⟨List.replicate 16 7, by simp⟩
    let later : List (Call Unit) := [.put () [(3, [9])] fun _ _ => true]
    let index := later.foldl (step digest) (Index.new.tear (digest ()) ((encodeRecord (digest ()) 2 [5]).take 28)).restart
    newest (digest ()) 3 ((history later).map (Entry.record digest)) = some [9, 0, 0, 0, 0, 0, 0, 0] ∧
      (getMany digest (fun _ _ => true) index.restart () [3, 2]).1 =
        [none, some [77, 84, 82, 73, 7, 7, 7, 7]] := by
  decide +kernel

end Proofs

end Sithnapse.RoomIndex
