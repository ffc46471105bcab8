import Sithnapse.Kit.Bytes
import Sithnapse.Kit.Dict

/-! The append-only files of the room index.

    A record ties a state group of a namespace to the first eight bytes of its room. Namespaces share a
    fixed number of files, the shards, and are told apart by a digest in the record. A lookup reads a
    shard backwards in chunks and stops once it has found everything it looks for; a record whose
    prefix is all zero is passed over. -/

namespace Sithnapse.RoomIndex

open Kit Kit.Dict List Option

/-- A state group, by the bits of its `i64`. -/
abbrev StateGroup := BitVec 64

/-- The first 16 bytes of the SHA-256 of a namespace. -/
abbrev Digest := { b : List UInt8 // b.length = 16 }

/-- `INDEX_MAGIC`. -/
def indexMagic : List UInt8 := [77, 84, 82, 73]

/-- `SHARD_COUNT`. -/
def shardCount : ℕ := 64

/-- `ROOM_PREFIX_LEN`. -/
def roomPrefixLen : ℕ := 8

/-- `RECORD_LEN`. -/
def recordLen : ℕ := 36

/-- `SCAN_CHUNK_RECORDS`. -/
def scanChunkRecords : ℕ := 2048

variable (d : Digest)

/-- `shard_for`. -/
def shardFor : ℕ := (d.val.headD 0).toNat % shardCount

/-- The first eight bytes of a room prefix, filled up with zeros. -/
def padded (p : List UInt8) : List UInt8 :=
  p.take roomPrefixLen ++ List.replicate (roomPrefixLen - p.length) 0

/-- `any(|&b| b != 0)`. -/
def nonzero (p : List UInt8) : Bool := p.any fun b => b ≠ 0

/-- The record that `put` writes. -/
def encodeRecord (g : StateGroup) (p : List UInt8) : List UInt8 :=
  indexMagic ++ (d.val ++ (beBytes 8 g.toNat ++ padded p))

/-! ### The backward scan -/

/-- The group of a record. -/
def recordGroup (record : List UInt8) : StateGroup :=
  BitVec.ofNat 64 (beValue ((record.drop 20).take 8))

/-- The prefix of a record. -/
def recordPrefix (record : List UInt8) : List UInt8 := (record.drop 28).take roomPrefixLen

/-- The record is one of the index, and of the namespace. -/
def ofNamespace (record : List UInt8) : Bool :=
  record.take 4 = indexMagic ∧ (record.drop 4).take 16 = d.val

/-- One record of the scan. -/
def scanRecord (wanted : List StateGroup) (found : Dict StateGroup (List UInt8))
    (record : List UInt8) : Dict StateGroup (List UInt8) :=
  if ¬ ofNamespace d record then found
  else if recordGroup record ∉ wanted ∨ (found.get? (recordGroup record)).isSome then found
  else if nonzero (recordPrefix record) then found.set (recordGroup record) (recordPrefix record)
  else found

/-- `as_chunks::<RECORD_LEN>`. -/
def splitRecords : ℕ → List UInt8 → List (List UInt8)
  | 0, _ => []
  | n + 1, bytes => bytes.take recordLen :: splitRecords n (bytes.drop recordLen)

/-- One round of the scan: the chunk before the records already read. -/
def scanRound (file : List UInt8) (d : Digest) (wanted : List StateGroup)
    (s : ℕ × Dict StateGroup (List UInt8)) :
    (ℕ × Dict StateGroup (List UInt8)) ⊕ Dict StateGroup (List UInt8) :=
  if 0 < s.1 ∧ s.2.entries.length < wanted.length then
    let chunkRecords := min s.1 scanChunkRecords
    let start := s.1 - chunkRecords
    let bytes := (file.drop (start * recordLen)).take (chunkRecords * recordLen)
    .inl (start, (splitRecords chunkRecords bytes).reverse.foldl (scanRecord d wanted) s.2)
  else .inr s.2

/-- `scan_latest_prefixes`; the budget is that of one record a round. -/
def scanLatestPrefixes (file : List UInt8) (d : Digest) (wanted : List StateGroup) :
    Dict StateGroup (List UInt8) :=
  let records := file.length / recordLen
  (loop (scanRound file d wanted) (records + 1) (records, Dict.empty)).getD Dict.empty

/-! ### Records -/

/-- What a record says of a group. -/
def readRecord (g : StateGroup) (record : List UInt8) : Option (List UInt8) :=
  if ofNamespace d record ∧ recordGroup record = g ∧ nonzero (recordPrefix record) then
    some (recordPrefix record)
  else none

/-- What the newest of some records, the last, says of a group. -/
def newest (g : StateGroup) (records : List (List UInt8)) : Option (List UInt8) :=
  records.reverse.findSome? (readRecord d g)

@[simp] theorem length_padded (p : List UInt8) : (padded p).length = roomPrefixLen := by
  rw [padded, length_append, length_take, length_replicate]
  omega

theorem length_encodeRecord (g : StateGroup) (p : List UInt8) : (encodeRecord d g p).length = recordLen := by
  simp only [encodeRecord, length_append, d.property, length_beBytes, length_padded]
  rfl

/-- A record gives back its namespace, group and prefix. -/
theorem readRecord_encodeRecord (d d' : Digest) (g g' : StateGroup) (p : List UInt8) :
    readRecord d g (encodeRecord d' g' p) =
      if d' = d ∧ g' = g ∧ nonzero (padded p) then some (padded p) else none := by
  have hmagic : (encodeRecord d' g' p).take 4 = indexMagic := take_left' rfl
  have hrest : (encodeRecord d' g' p).drop 4 = d'.val ++ (beBytes 8 g'.toNat ++ padded p) :=
    drop_left' rfl
  have hdigest : ((encodeRecord d' g' p).drop 4).take 16 = d'.val := by
    rw [hrest, take_left' d'.property]
  have hafter : (encodeRecord d' g' p).drop 20 = beBytes 8 g'.toNat ++ padded p := by
    rw [show 20 = 4 + 16 from rfl, ← drop_drop, hrest, drop_left' d'.property]
  have hgroup : recordGroup (encodeRecord d' g' p) = g' := by
    rw [recordGroup, hafter, take_left' (length_beBytes 8 _), beValue_beBytes 8 _ g'.isLt,
      BitVec.ofNat_toNat, BitVec.setWidth_eq]
  have hprefix : recordPrefix (encodeRecord d' g' p) = padded p := by
    rw [recordPrefix, show 28 = 20 + 8 from rfl, ← drop_drop, hafter,
      drop_left' (length_beBytes 8 _), take_of_length_le (length_padded p).le]
  have hof : ofNamespace d (encodeRecord d' g' p) = decide (d' = d) := by
    rw [ofNamespace, hmagic, hdigest]
    simp [Subtype.ext_iff]
  simp only [readRecord, hof, hgroup, hprefix, decide_eq_true_iff]

theorem newest_append (g : StateGroup) (older newer : List (List UInt8)) :
    newest d g (older ++ newer) = (newest d g newer).or (newest d g older) := by
  rw [newest, reverse_append, findSome?_append]
  rfl

theorem newest_cons (g : StateGroup) (r : List UInt8) (records : List (List UInt8)) :
    newest d g (r :: records) = (newest d g records).or (readRecord d g r) := by
  rw [newest, reverse_cons, findSome?_append]
  cases hr : readRecord d g r <;> simp [newest, hr]

/-! ### What the scan finds -/

/-- A record fills in the group it is about, if that is wanted and still open. -/
theorem get?_scanRecord (wanted : List StateGroup) (found : Dict StateGroup (List UInt8))
    (record : List UInt8) (g : StateGroup) :
    (scanRecord d wanted found record).get? g =
      (found.get? g).or (if g ∈ wanted then readRecord d g record else none) := by
  rw [scanRecord, readRecord]
  by_cases hof : ofNamespace d record = true
  · rw [if_neg (by simp [hof])]
    rcases eq_or_ne (recordGroup record) g with rfl | hg
    · by_cases hw : recordGroup record ∈ wanted
      · cases hf : found.get? (recordGroup record) with
        | some q => simp [hf]
        | none => cases nonzero (recordPrefix record) <;> simp [hf, hw, hof]
      · simp [hw]
    · have hne : g ≠ recordGroup record := fun h => hg h.symm
      split
      · simp [hg]
      · split
        · rw [get?_set_ne _ _ hne]
          simp [hg]
        · simp [hg]
  · rw [if_pos (by simpa using hof)]
    simp [hof]

/-- A chunk, read from its end, gives what its newest records say. -/
theorem get?_foldl_scanRecord (d : Digest) (wanted : List StateGroup) {g : StateGroup}
    (hg : g ∈ wanted) : ∀ (records : List (List UInt8)) (found : Dict StateGroup (List UInt8)),
    (records.foldl (scanRecord d wanted) found).get? g =
      (found.get? g).or (records.findSome? (readRecord d g))
  | [], found => by simp
  | record :: records, found => by
    rw [foldl_cons, get?_foldl_scanRecord d wanted hg records, get?_scanRecord, if_pos hg,
      findSome?_cons, Option.or_assoc]
    cases readRecord d g record <;> rfl

/-- Only wanted groups are found. -/
theorem keys_foldl_scanRecord (d : Digest) (wanted : List StateGroup) :
    ∀ (records : List (List UInt8)) {found : Dict StateGroup (List UInt8)},
    (∀ g ∈ found.keys, g ∈ wanted) → ∀ g ∈ (records.foldl (scanRecord d wanted) found).keys, g ∈ wanted
  | [], _, h => h
  | record :: records, found, h => by
    refine keys_foldl_scanRecord d wanted records fun g hg => ?_
    obtain ⟨v, hv⟩ := mem_keys_iff.mp hg
    rw [get?_scanRecord] at hv
    by_contra hw
    rw [if_neg hw, or_none] at hv
    exact hw (h g (mem_keys_iff.mpr ⟨v, hv⟩))

/-! ### Files of whole records, and the first bytes of one more -/

section Aligned

variable {records : List (List UInt8)} (tail : List UInt8)

theorem length_flatten_records (h : ∀ r ∈ records, r.length = recordLen) :
    records.flatten.length = records.length * recordLen := by
  rw [length_flatten, map_congr_left h, map_const', sum_replicate, smul_eq_mul]

theorem drop_flatten_records (k : ℕ) (h : ∀ r ∈ records, r.length = recordLen) (hk : k ≤ records.length) :
    (records.flatten ++ tail).drop (k * recordLen) = (records.drop k).flatten ++ tail := by
  have hlen : (records.take k).flatten.length = k * recordLen := by
    rw [length_flatten_records fun r hr => h r (mem_of_mem_take hr), length_take_of_le hk]
  nth_rewrite 1 [← take_append_drop k records]
  rw [flatten_append, append_assoc, drop_left' hlen]

theorem splitRecords_flatten : ∀ (k : ℕ) {records : List (List UInt8)} (rest : List UInt8),
    (∀ r ∈ records, r.length = recordLen) → k ≤ records.length →
    splitRecords k (records.flatten ++ rest) = records.take k
  | 0, _, _, _, _ => rfl
  | k + 1, [], _, _, hk => by simp at hk
  | k + 1, r :: records, rest, h, hk => by
    have hr := h r (.head _)
    rw [splitRecords, flatten_cons, append_assoc, take_left' hr, drop_left' hr,
      take_succ_cons, splitRecords_flatten k rest (fun x hx => h x (.tail _ hx)) (Nat.le_of_succ_le_succ hk)]

/-- Cutting the bytes off at the end of a chunk does not matter to its records. -/
theorem splitRecords_take : ∀ (k : ℕ) (bytes : List UInt8),
    splitRecords k (bytes.take (k * recordLen)) = splitRecords k bytes
  | 0, _ => rfl
  | k + 1, bytes => by
    have htake : (bytes.take ((k + 1) * recordLen)).take recordLen = bytes.take recordLen := by
      rw [take_take, Nat.min_eq_left (Nat.le_mul_of_pos_left _ (Nat.succ_pos k))]
    have hdrop : (bytes.take ((k + 1) * recordLen)).drop recordLen =
        (bytes.drop recordLen).take (k * recordLen) := by
      rw [drop_take, Nat.succ_mul, Nat.add_sub_cancel]
    rw [splitRecords, splitRecords, htake, hdrop, splitRecords_take k]

/-- The records of a chunk. -/
theorem chunk_records (h : ∀ r ∈ records, r.length = recordLen) {start n : ℕ}
    (hn : start + n ≤ records.length) :
    splitRecords n (((records.flatten ++ tail).drop (start * recordLen)).take (n * recordLen)) =
      (records.drop start).take n := by
  have hrest : ∀ r ∈ records.drop start, r.length = recordLen :=
    fun r hr => h r (mem_of_mem_drop hr)
  rw [splitRecords_take, drop_flatten_records tail start h (by omega)]
  exact splitRecords_flatten n tail hrest (by rw [length_drop]; omega)

end Aligned

/-- The scan has read the records from some point on. -/
structure Scanned (d : Digest) (wanted : List StateGroup) (records : List (List UInt8))
    (s : ℕ × Dict StateGroup (List UInt8)) : Prop where
  left : s.1 ≤ records.length
  found : ∀ g ∈ wanted, s.2.get? g = newest d g (records.drop s.1)
  keys : ∀ g ∈ s.2.keys, g ∈ wanted

variable {records : List (List UInt8)} {tail : List UInt8} {wanted : List StateGroup}

/-- A round reads the chunk before. -/
theorem Scanned.round {d : Digest}
    (hrecords : ∀ r ∈ records, r.length = recordLen) {s s' : ℕ × Dict StateGroup (List UInt8)}
    (h : Scanned d wanted records s) (hs : scanRound (records.flatten ++ tail) d wanted s = .inl s') :
    Scanned d wanted records s' ∧ s'.1 < s.1 := by
  rw [scanRound] at hs
  split at hs
  · rename_i hgo
    obtain rfl := Sum.inl.inj hs
    have hleft := h.left
    have hpos : 0 < min s.1 scanChunkRecords := lt_min hgo.1 (by decide)
    have hmin : min s.1 scanChunkRecords ≤ s.1 := min_le_left _ _
    rw [chunk_records tail hrecords (by omega)]
    -- the unread part ends with this chunk, and the part read so far follows it
    have hread : ∀ g, newest d g (records.drop (s.1 - min s.1 scanChunkRecords)) =
        (newest d g (records.drop s.1)).or (newest d g
          ((records.drop (s.1 - min s.1 scanChunkRecords)).take (min s.1 scanChunkRecords))) := by
      intro g
      have hsplit := take_append_drop (min s.1 scanChunkRecords)
        (records.drop (s.1 - min s.1 scanChunkRecords))
      rw [drop_drop, Nat.sub_add_cancel hmin] at hsplit
      rw [← newest_append, hsplit]
    refine ⟨⟨?_, fun g hg => ?_, ?_⟩, ?_⟩
    · exact (Nat.sub_le _ _).trans hleft
    · rw [get?_foldl_scanRecord d wanted hg, h.found g hg, hread]
      rfl
    · exact keys_foldl_scanRecord d wanted _ h.keys
    · exact Nat.sub_lt hgo.1 hpos
  · cases hs

/-- The scan ends with all that is wanted, whether it read every record or stopped early. -/
theorem Scanned.done {d : Digest}
    {s : ℕ × Dict StateGroup (List UInt8)} {found : Dict StateGroup (List UInt8)}
    (h : Scanned d wanted records s) (hs : scanRound (records.flatten ++ tail) d wanted s = .inr found) :
    ∀ g ∈ wanted, found.get? g = newest d g records := by
  rw [scanRound] at hs
  split at hs
  · cases hs
  · rename_i hstop
    obtain rfl := Sum.inr.inj hs
    intro g hg
    rw [h.found g hg]
    by_cases hzero : s.1 = 0
    · rw [hzero, drop_zero]
    · -- as many are found as wanted, so this one is; older records add nothing to it
      have hlen : wanted.length ≤ s.2.keys.length := by
        rw [Dict.keys, length_map]
        omega
      have hperm := (subperm_of_subset s.2.nodup h.keys).perm_of_length_le hlen
      obtain ⟨q, hq⟩ := mem_keys_iff.mp (hperm.mem_iff.mpr hg)
      rw [h.found g hg] at hq
      rw [hq, ← take_append_drop s.1 records, newest_append, hq, some_or]

/-- The scan gives, for each wanted group, what the newest whole record of the file says. -/
theorem get?_scanLatestPrefixes (hrecords : ∀ r ∈ records, r.length = recordLen)
    (htail : tail.length < recordLen) (d : Digest) {g : StateGroup} (hg : g ∈ wanted) :
    (scanLatestPrefixes (records.flatten ++ tail) d wanted).get? g = newest d g records := by
  have hcount : (records.flatten ++ tail).length / recordLen = records.length := by
    rw [length_append, length_flatten_records hrecords, Nat.add_comm,
      Nat.add_mul_div_right _ _ (by decide), Nat.div_eq_of_lt htail, Nat.zero_add]
  have hstart : Scanned d wanted records (records.length, Dict.empty) :=
    ⟨le_rfl, fun g _ => by rw [drop_length]; rfl, nofun⟩
  obtain ⟨found, hfound, hpost⟩ := loop_correct Prod.fst
    (fun s s' h hs => (h.round hrecords hs).1) (fun s s' h hs => (h.round hrecords hs).2)
    (fun s r h hs => h.done hs) (records.length + 1) _ hstart (Nat.lt_succ_self _)
  rw [scanLatestPrefixes, hcount, hfound, getD_some]
  exact hpost g hg

end Sithnapse.RoomIndex
