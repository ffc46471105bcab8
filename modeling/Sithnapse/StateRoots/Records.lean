import Sithnapse.Kit.Dict
import Sithnapse.Kit.Bytes

/-! HAMT root records of one room collection.

    Three families of records share the collection: a pointer per state group holding a 32-byte
    StateGroupId, one encoded root per StateGroupId, and one 8-byte big-endian reference count per
    StateGroupId. A record of no bytes counts as absent, which is how deletion works. `put` and
    `delete` read everything they need, compute the records to write, and write them in one `put_many`;
    whatever goes wrong before that leaves the collection as it was. -/

namespace Sithnapse.StateRoots

open Kit

/-- Raw record contents. -/
abbrev Bytes := List UInt8

/-- A 32-byte StateGroupId. -/
abbrev StateGroupId := { b : Bytes // b.length = 32 }

/-- The node ids of one namespace: `root_node_id`, `state_group_root_node_id` and
    `state_group_refcount_node_id`, which never meet. -/
inductive NodeId
  | pointer (stateGroup : ℤ)
  | root (id : StateGroupId)
  | refcount (id : StateGroupId)
  deriving DecidableEq

/-- The records of one room collection. -/
abbrev Store := Dict NodeId Bytes

/-- A record's contents; no bytes is no record. -/
def Store.read (s : Store) (k : NodeId) : Option Bytes := (s.get? k).filter (· ≠ [])

/-- Ways a call fails. -/
inductive Failure
  | invalidRecord
  | truncatedRecord
  | latticeLength
  | invalidUtf8
  | prefixMismatch
  | roomMismatch
  | duplicateStateGroup
  | duplicateStateGroupId
  | indexCollision
  | corruptCount
  | corruptPointer
  | pointerCollision
  | countOverflow
  | uninitializedCount
  | duplicateNode
  | countTooSmall
  | noCount
  | storage
  deriving DecidableEq

/-! ### Root values -/

/-- `MTHR` and the version byte. -/
def rootMagic : Bytes := [77, 84, 72, 82, 1]

/-- `ROOM_PREFIX_LEN`. -/
def roomPrefixLen : ℕ := 8

/-- `root_record_parts`: room prefix, room id and lattice of an encoded root. -/
def rootRecordParts (value : Bytes) : Except Failure (Bytes × String × Bytes) :=
  if value.length < 7 ∨ value.take 5 ≠ rootMagic then .error .invalidRecord
  else
    let prefixLen := beValue ((value.drop 5).take 2)
    let roomLenEnd := 7 + prefixLen + 2
    if value.length < roomLenEnd then .error .truncatedRecord
    else
      let roomLen := beValue ((value.drop (7 + prefixLen)).take 2)
      let latticeStart := roomLenEnd + roomLen + 32
      if value.length ≠ latticeStart + 2048 then .error .latticeLength
      else
        match String.fromUTF8? ⟨((value.drop roomLenEnd).take roomLen).toArray⟩ with
        | none => .error .invalidUtf8
        | some roomId => .ok ((value.drop 7).take prefixLen, roomId, value.drop latticeStart)

/-- The hash functions the records depend on. -/
structure Hashes (C : Type) where
  /-- `state_group_id_from_lthash` of the lattice lanes. -/
  stateGroupId : Bytes → StateGroupId
  /-- `state_hamt_room_id`. -/
  stateHamtRoomId : String → C
  /-- `room_id_from_prefix`. -/
  roomIdFromPrefix : Bytes → C

variable {C : Type} [DecidableEq C]

variable (hash : Hashes C)

/-- `state_group_id_from_root_value`. -/
def stateGroupIdFromRootValue (value : Bytes) : Except Failure StateGroupId :=
  (rootRecordParts value).map fun parts => hash.stateGroupId parts.2.2

/-- `state_group_id_from_root_value_for_room`. -/
def stateGroupIdFromRootValueForRoom (value roomPrefix : Bytes) : Except Failure StateGroupId :=
  match rootRecordParts value with
  | .error e => .error e
  | .ok (recordPrefix, roomId, _) =>
    if recordPrefix ≠ roomPrefix then .error .prefixMismatch
    else if roomPrefix.length ≠ roomPrefixLen ∧
        hash.stateHamtRoomId roomId ≠ hash.roomIdFromPrefix roomPrefix then .error .roomMismatch
    else stateGroupIdFromRootValue hash value

/-! ### Decoding records -/

/-- A 32-byte pointer. -/
def decodePointer (b : Bytes) : Except Failure StateGroupId :=
  if h : b.length = 32 then .ok ⟨b, h⟩ else .error .corruptPointer

/-- `u64::from_be_bytes` of an 8-byte record. -/
def decodeCount (b : Bytes) : Except Failure ℕ :=
  if b.length = 8 then .ok (beValue b) else .error .corruptCount

/-- The stored pointer of a state group. -/
def readPointer (s : Store) (stateGroup : ℤ) : Except Failure (Option StateGroupId) :=
  match s.read (.pointer stateGroup) with
  | none => .ok none
  | some b => (decodePointer b).map some

/-- The stored reference count of a StateGroupId. -/
def readCount (s : Store) (id : StateGroupId) : Except Failure (Option ℕ) :=
  match s.read (.refcount id) with
  | none => .ok none
  | some b => (decodeCount b).map some

/-! ### Writing roots -/

/-- The order in which one call walks its hash maps. -/
structure HashOrder where
  order : ∀ {α : Type}, List α → List α
  perm : ∀ {α : Type} (l : List α), (order l).Perm l

/-- `operational_values` and `semantic_values`. -/
abbrev Validated := Dict ℤ (StateGroupId × Bytes) × Dict StateGroupId Bytes

/-- One root of the batch, checked against those before it. -/
def validateRoot (roomPrefix : Bytes) (st : Validated) (root : ℤ × Bytes) : Except Failure Validated := do
  let id ← stateGroupIdFromRootValueForRoom hash root.2 roomPrefix
  match st.1.get? root.1 with
  | some previous =>
    if previous.1 ≠ id ∨ previous.2 ≠ root.2 then .error .duplicateStateGroup else pure st
  | none =>
    match st.2.get? id with
    | some previous =>
      if previous ≠ root.2 then .error .duplicateStateGroupId
      else pure (st.1.set root.1 (id, root.2), st.2.set id root.2)
    | none => pure (st.1.set root.1 (id, root.2), st.2.set id root.2)

/-- The stored root of an id, if any, decodes to that id. -/
def checkRoot (s : Store) (roomPrefix : Bytes) (id : StateGroupId) : Except Failure Unit :=
  match s.read (.root id) with
  | none => .ok ()
  | some b => do
    let actual ← stateGroupIdFromRootValueForRoom hash b roomPrefix
    if actual ≠ id then .error .indexCollision else .ok ()

/-- What the write loop accumulates. -/
structure Writes where
  pairs : List (NodeId × Bytes)
  changed : List StateGroupId
  counts : Dict StateGroupId (Option ℕ)

/-- The reference count of an id with one more pointer. -/
def nextCount (s : Store) (counts : Dict StateGroupId (Option ℕ)) (id : StateGroupId) : Except Failure ℕ :=
  match counts.getD id none with
  | some c => if c + 1 < 2 ^ 64 then .ok (c + 1) else .error .countOverflow
  | none => if (s.read (.root id)).isSome then .error .uninitializedCount else .ok 1

/-- One validated root: nothing if its pointer is there, else a pointer, one more reference, and the
    root unless it is stored. -/
def addPointer (s : Store) (w : Writes) (root : ℤ × StateGroupId × Bytes) : Except Failure Writes :=
  match s.read (.pointer root.1) with
  | some b => if b = root.2.1.1 then .ok w else .error .pointerCollision
  | none => do
    let count ← nextCount s w.counts root.2.1
    let rootPair :=
      if (s.read (.root root.2.1)).isSome then [] else [(NodeId.root root.2.1, root.2.2)]
    pure ⟨w.pairs ++ rootPair ++ [(.pointer root.1, root.2.1.1)], addIf w.changed root.2.1,
      w.counts.set root.2.1 (some count)⟩

/-- `deduplicate_root_node_pairs`. -/
def deduplicateRootNodePairs (pairs : List (NodeId × Bytes)) : Except Failure Store :=
  pairs.foldlM (fun d p => match d.get? p.1 with
    | some previous => if previous ≠ p.2 then .error .duplicateNode else pure d
    | none => pure (d.set p.1 p.2)) Dict.empty

/-- The counts to write back. -/
def countPairs (w : Writes) (entries : List (StateGroupId × Option ℕ)) : List (NodeId × Bytes) :=
  entries.filterMap fun e =>
    if e.1 ∈ w.changed then e.2.map fun c => (.refcount e.1, beBytes 8 c) else none

/-- The records `put_state_hamt_roots` writes. -/
def planPut (walk : HashOrder) (s : Store) (roomPrefix : Bytes)
    (roots : List (ℤ × Bytes)) : Except Failure Store := do
  let validated ← roots.foldlM (validateRoot hash roomPrefix) (Dict.empty, Dict.empty)
  let ids := walk.order validated.2.keys
  let _ ← ids.mapM (checkRoot hash s roomPrefix)
  let counts ← ids.mapM fun id => (readCount s id).map (id, ·)
  let w ← (walk.order validated.1.entries).foldlM (addPointer s) ⟨[], [], Dict.ofList counts⟩
  deduplicateRootNodePairs (w.pairs ++ countPairs w (walk.order w.counts.entries))

/-! ### Deleting roots -/

/-- One more pointer to delete for its StateGroupId. -/
def addDecrement (d : Dict StateGroupId ℕ) (pointer : Option StateGroupId) :
    Except Failure (Dict StateGroupId ℕ) :=
  match pointer with
  | none => .ok d
  | some id => if d.getD id 0 + 1 < 2 ^ 64 then .ok (d.set id (d.getD id 0 + 1)) else .error .countOverflow

/-- The records of a StateGroupId that loses `decrement` pointers. -/
def releasePairs (count : Option ℕ) (id : StateGroupId) (decrement : ℕ) :
    Except Failure (List (NodeId × Bytes)) :=
  match count with
  | none => .error .noCount
  | some c =>
    if c < decrement then .error .countTooSmall
    else if decrement < c then .ok [(.refcount id, beBytes 8 (c - decrement))]
    else .ok [(.refcount id, []), (.root id, [])]

/-- The records `delete_state_hamt_roots_for_room` writes. -/
def planDelete (walk : HashOrder) (s : Store) (stateGroups : List ℤ) :
    Except Failure (List (NodeId × Bytes)) := do
  let groups := addAll [] stateGroups
  let pointers ← groups.mapM (readPointer s)
  let ids := walk.order (addAll [] (pointers.filterMap id))
  let counts ← ids.mapM fun id => (readCount s id).map (id, ·)
  let decrements ← pointers.foldlM addDecrement Dict.empty
  let released ← (walk.order decrements.entries).mapM fun e =>
    releasePairs ((Dict.ofList counts).getD e.1 none) e.1 e.2
  pure (groups.map (fun g => (NodeId.pointer g, [])) ++ released.flatten)

/-! ### Calls -/

/-- A call of the API with everything that decides its outcome; `stored` says whether the storage
    engine answers its reads and its `put_many`. -/
inductive Call
  | put (walk : HashOrder) (stored : Bool) (roomPrefix : Bytes) (roots : List (ℤ × Bytes))
  | delete (walk : HashOrder) (stored : Bool) (stateGroups : List ℤ)

/-- `put_many`, atomic. -/
def putMany (s : Store) (stored : Bool) (pairs : List (NodeId × Bytes)) : Store × Except Failure Unit :=
  if stored then (s.update pairs, .ok ()) else (s, .error .storage)

/-- `put_state_hamt_roots` and `delete_state_hamt_roots_for_room`. -/
def Call.apply (s : Store) : Call → Store × Except Failure Unit
  | put walk stored roomPrefix roots =>
    match planPut hash walk s roomPrefix roots with
    | .error e => (s, .error e)
    | .ok pairs => putMany s stored pairs.entries
  | delete walk stored stateGroups =>
    match planDelete walk s stateGroups with
    | .error e => (s, .error e)
    | .ok pairs => putMany s stored pairs

/-- The store after a sequence of calls, each of which may fail. -/
def runCalls (calls : List Call) : Store :=
  calls.foldl (fun s c => (c.apply hash s).1) Dict.empty

/-- `get_state_hamt_roots_for_room` by way of `follow_root_pointers`. -/
def getStateHamtRoots (s : Store) (stateGroups : List ℤ) : Except Failure (List (Option Bytes)) := do
  let resolved ← stateGroups.mapM (readPointer s)
  let wanted := addAll [] (resolved.filterMap id)
  let byId := Dict.ofList (wanted.map fun i => (i, s.read (.root i)))
  pure (resolved.map fun pointer => pointer.bind fun i => (byId.get? i).join)

end Sithnapse.StateRoots
