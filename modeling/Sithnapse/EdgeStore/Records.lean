import Sithnapse.Kit.Dict
import Sithnapse.EdgeStore.Codec

/-! The embedded store of prev-event edges.

    Records live in one collection per room. A backward record holds an event's prev events, and is
    empty once the event was deleted; a forward record lists the events that named a prev event, and is
    never shortened. Locators lead from an event id to its room's collection. `write_edges` works out
    the records to write from the rows and the forward lists it has read; it serves the direct write
    and the optimistic one. -/

namespace Sithnapse.EdgeStore

open Kit Kit.Dict List

variable {R : Type}

/-- `(room_id, event_id, prev_event_id, is_state)`. -/
structure EdgeRow (R : Type) where
  room : R
  event : String
  prev : String
  isState : Bool
  deriving DecidableEq

/-- The records, by room collection and event, and the locators. -/
structure Store (R : Type) where
  backward : Dict (R × String) (List UInt8)
  forward : Dict (R × String) (List UInt8)
  locator : Dict String R

/-- No records. -/
def Store.empty : Store R := ⟨Dict.empty, Dict.empty, Dict.empty⟩

/-- The errors of a read. -/
inductive Failure
  | malformed (m : Malformed)
  /-- "event-edge backward record identity mismatch: requested …, record says …" -/
  | identityMismatch (requested self : String)
  deriving DecidableEq

/-! ### Writing -/

/-- The order in which one call walks its hash maps. -/
structure MapOrder (R : Type) where
  reads : List (R × String) → List (R × String)
  backward : List ((R × String) × List (String × Bool)) → List ((R × String) × List (String × Bool))
  forward : List ((R × String) × List String) → List ((R × String) × List String)
  reads_perm : ∀ l, (reads l).Perm l
  backward_perm : ∀ l, (backward l).Perm l
  forward_perm : ∀ l, (forward l).Perm l

/-- The maps as they were built. -/
def MapOrder.asBuilt : MapOrder R := ⟨id, id, id, fun l => .refl l, fun l => .refl l, fun l => .refl l⟩

/-- The children of a forward record; a missing and an empty one have none. -/
def childList : Option (List UInt8) → Except Malformed (List String)
  | some (b :: bytes) => decodeForwardEdges (b :: bytes)
  | _ => .ok []

variable [DecidableEq R]

/-- `backward_map`. -/
def backwardMap (rows : List (EdgeRow R)) : Dict (R × String) (List (String × Bool)) :=
  Dict.group (rows.map fun row => ((row.room, row.event), (row.prev, row.isState)))

/-- `forward_map`. -/
def forwardMap (rows : List (EdgeRow R)) : Dict (R × String) (List String) :=
  Dict.group (rows.map fun row => ((row.room, row.prev), row.event))

/-- What a call writes. -/
structure EdgeWrites (R : Type) where
  backward : List ((R × String) × List UInt8)
  forward : List ((R × String) × List UInt8)
  locators : Dict String R

variable (o : MapOrder R)

/-- The records of `write_edges` once the forward lists are read; a list without new children is not
    rewritten. -/
def edgeWrites (existing : R × String → List String) (rows : List (EdgeRow R)) : EdgeWrites R :=
  let backward := o.backward (backwardMap rows).entries
  let forward := o.forward (forwardMap rows).entries
  { backward := backward.map fun p => (p.1, encodeBackwardEdges p.1.2 p.2)
    forward := forward.filterMap fun p =>
      if p.2.any fun c => c ∉ existing p.1 then
        some (p.1, encodeForwardEdges (addAll (existing p.1) p.2))
      else none
    locators := Dict.ofList (backward.map (fun p => (p.1.2, p.1.1)) ++ forward.map fun p => (p.1.2, p.1.1)) }

/-- `forward_cache`: every forward list is read, and decoded, before anything is written. -/
def forwardCache (read : R × String → Option (List UInt8)) (keys : List (R × String)) :
    Except Malformed (Dict (R × String) (List String)) :=
  (keys.mapM fun key => (childList (read key)).map (key, ·)).map Dict.ofList

/-- `write_edges`. -/
def writeEdges (read : R × String → Option (List UInt8)) (rows : List (EdgeRow R)) :
    Except Malformed (EdgeWrites R) :=
  (forwardCache read (o.reads (forwardMap rows).keys)).map fun cache =>
    edgeWrites o (fun key => cache.getD key []) rows

/-- The records written at once. -/
def Store.put (s : Store R) (w : EdgeWrites R) : Store R :=
  ⟨s.backward.update w.backward, s.forward.update w.forward, s.locator.update w.locators.entries⟩

/-- `event_edges_put` without interference. -/
def eventEdgesPut (s : Store R) (rows : List (EdgeRow R)) : Except Malformed (Store R) :=
  (writeEdges o s.forward.get? rows).map s.put

/-! ### Reading -/

/-- The edges of one event. -/
def getBackward (s : Store R) (e : String) : Except Failure (Option (List (String × Bool))) :=
  match (s.locator.get? e).bind fun r => s.backward.get? (r, e) with
  | some (b :: bytes) =>
    match decodeBackwardEdges (b :: bytes) with
    | .error m => .error (.malformed m)
    | .ok (self, edges) => if self ≠ e then .error (.identityMismatch e self) else .ok (some edges)
  | _ => .ok none

/-- `event_edges_get_backward`. -/
def eventEdgesGetBackward (s : Store R) (events : List String) :
    Except Failure (List (String × Option (List (String × Bool)))) :=
  events.mapM fun e => (getBackward s e).map (e, ·)

/-- Whether a child is live (`some true`), deleted (`some false`), or unknown. -/
def Store.live (s : Store R) (r : R) (child : String) : Option Bool :=
  (s.backward.get? (r, child)).map fun bytes => !bytes.isEmpty

/-- The live ones of some children, unless one is unknown. -/
def keepLive (status : String → Option Bool) : List String → Option (List String)
  | [] => some []
  | c :: cs =>
    match status c with
    | some true => (keepLive status cs).map (c :: ·)
    | some false => keepLive status cs
    | none => none

/-- The children handed out: an incomplete lookup and an empty one are both a miss. -/
def handOut : Option (List String) → Option (List String)
  | some (c :: cs) => some (c :: cs)
  | _ => none

/-- The children of one event. -/
def getForward (s : Store R) (p : String) : Except Failure (Option (List String)) :=
  match s.locator.get? p with
  | none => .ok none
  | some r =>
    match s.forward.get? (r, p) with
    | some (b :: bytes) =>
      match decodeForwardEdges (b :: bytes) with
      | .error m => .error (.malformed m)
      | .ok children => .ok (handOut (keepLive (s.live r) children))
    | _ => .ok none

/-- `event_edges_get_forward`. -/
def eventEdgesGetForward (s : Store R) (prevs : List String) :
    Except Failure (List (String × Option (List String))) :=
  prevs.mapM fun p => (getForward s p).map (p, ·)

/-! ### Deleting -/

/-- `event_edges_delete`: the backward records become empty, forward lists stay. -/
def eventEdgesDelete (s : Store R) (events : List String) : Store R :=
  { s with backward := s.backward.update (events.filterMap fun e =>
      (s.locator.get? e).map fun r => ((r, e), [])) }

/-! ### What a write leaves -/

/-- The edges that rows carry for an event. -/
def edgesOf (rows : List (EdgeRow R)) (key : R × String) : List (String × Bool) :=
  (rows.filter fun row => (row.room, row.event) = key).map fun row => (row.prev, row.isState)

/-- The children that rows carry for a prev event. -/
def childrenOf (rows : List (EdgeRow R)) (key : R × String) : List String :=
  (rows.filter fun row => (row.room, row.prev) = key).map EdgeRow.event

variable {rows : List (EdgeRow R)} {key : R × String}

theorem mem_childrenOf {c : String} :
    c ∈ childrenOf rows key ↔ ∃ row ∈ rows, (row.room, row.prev) = key ∧ row.event = c := by
  simp [childrenOf, and_assoc]

theorem mem_backwardMap {edges : List (String × Bool)} : (key, edges) ∈ (backwardMap rows).entries ↔
      (∃ row ∈ rows, (row.room, row.event) = key) ∧ edges = edgesOf rows key := by
  rw [backwardMap, mem_entries_group, edgesOf, filter_map, map_map, map_map]
  simp only [mem_map, Function.comp_apply]
  rfl

theorem mem_forwardMap {children : List String} : (key, children) ∈ (forwardMap rows).entries ↔
      (∃ row ∈ rows, (row.room, row.prev) = key) ∧ children = childrenOf rows key := by
  rw [forwardMap, mem_entries_group, childrenOf, filter_map, map_map, map_map]
  simp only [mem_map, Function.comp_apply]
  rfl

variable (s : Store R) (existing : R × String → List String)

theorem mem_edgeWrites_backward {bytes : List UInt8} :
    (key, bytes) ∈ (edgeWrites o existing rows).backward ↔
      (∃ row ∈ rows, (row.room, row.event) = key) ∧ bytes = encodeBackwardEdges key.2 (edgesOf rows key) := by
  simp only [edgeWrites, mem_map, (o.backward_perm _).mem_iff]
  constructor
  · rintro ⟨⟨k, edges⟩, hmem, heq⟩
    cases heq
    obtain ⟨hrow, rfl⟩ := mem_backwardMap.mp hmem
    exact ⟨hrow, rfl⟩
  · rintro ⟨hrow, rfl⟩
    exact ⟨(key, edgesOf rows key), mem_backwardMap.mpr ⟨hrow, rfl⟩, rfl⟩

theorem mem_edgeWrites_forward {bytes : List UInt8} :
    (key, bytes) ∈ (edgeWrites o existing rows).forward ↔
      (∃ c ∈ childrenOf rows key, c ∉ existing key) ∧
        bytes = encodeForwardEdges (addAll (existing key) (childrenOf rows key)) := by
  simp only [edgeWrites, mem_filterMap, (o.forward_perm _).mem_iff]
  constructor
  · rintro ⟨⟨k, children⟩, hmem, heq⟩
    split at heq
    · rename_i hany
      obtain ⟨rfl, rfl⟩ := Prod.mk.inj (Option.some.inj heq)
      obtain ⟨-, rfl⟩ := mem_forwardMap.mp hmem
      exact ⟨by simpa using hany, rfl⟩
    · cases heq
  · rintro ⟨⟨c, hc, hnew⟩, rfl⟩
    obtain ⟨row, hrow, hkey, -⟩ := mem_childrenOf.mp hc
    refine ⟨(key, childrenOf rows key), mem_forwardMap.mpr ⟨⟨row, hrow, hkey⟩, rfl⟩, ?_⟩
    exact if_pos (any_eq_true.mpr ⟨c, hc, by simpa using hnew⟩)

/-- Backward records are those of the rows, for the events they carry. -/
theorem backward_put (rows : List (EdgeRow R)) (key : R × String) :
    (s.put (edgeWrites o existing rows)).backward.get? key =
      if ∃ row ∈ rows, (row.room, row.event) = key then
        some (encodeBackwardEdges key.2 (edgesOf rows key))
      else s.backward.get? key := by
  exact get?_update_of_iff _ fun b => mem_edgeWrites_backward o existing

/-- A forward record is rewritten where a child is new. -/
theorem forward_put (rows : List (EdgeRow R)) (key : R × String) :
    (s.put (edgeWrites o existing rows)).forward.get? key =
      if ∃ c ∈ childrenOf rows key, c ∉ existing key then
        some (encodeForwardEdges (addAll (existing key) (childrenOf rows key)))
      else s.forward.get? key := by
  exact get?_update_of_iff _ fun b => mem_edgeWrites_forward o existing

/-- The forward record of a parent after rows were put: its children, each once. -/
def forwardRecord (rows : List (EdgeRow R)) (key : R × String) : Option (List UInt8) :=
  if childrenOf rows key = [] then none
  else some (encodeForwardEdges (addAll [] (childrenOf rows key)))

theorem childrenOf_append (rows rows' : List (EdgeRow R)) (key : R × String) :
    childrenOf (rows ++ rows') key = childrenOf rows key ++ childrenOf rows' key := by
  simp [childrenOf]

/-- The record gives the children back while they fit. -/
theorem childList_forwardRecord (hids : ∀ row ∈ rows, Reemitted row.event)
    (hlen : (addAll [] (childrenOf rows key)).length < 2 ^ 32) :
    childList (forwardRecord rows key) = .ok (addAll [] (childrenOf rows key)) := by
  rw [forwardRecord]
  split_ifs with hnil
  · rw [hnil]
    rfl
  · have hre : ∀ c ∈ addAll [] (childrenOf rows key), Reemitted c := by
      intro c hc
      obtain ⟨row, hrow, -, rfl⟩ := mem_childrenOf.mp ((mem_addAll.mp hc).resolve_left (by simp))
      exact hids row hrow
    exact decodeForwardEdges_encode hre hlen

/-- A write from the current list leaves the record of the old rows with the new ones. -/
theorem forwardRecord_put {s : Store R} {existing : R × String → List String}
    {new : List (EdgeRow R)} (h : s.forward.get? key = forwardRecord rows key)
    (hexisting : childrenOf new key ≠ [] → existing key = addAll [] (childrenOf rows key)) :
    (s.put (edgeWrites o existing new)).forward.get? key = forwardRecord (rows ++ new) key := by
  rw [forward_put, forwardRecord, childrenOf_append]
  by_cases hnil : childrenOf new key = []
  · rw [hnil, if_neg (by simp), append_nil]
    exact h
  · have hne : childrenOf rows key ++ childrenOf new key ≠ [] := by simp [hnil]
    rw [hexisting hnil, if_neg hne, addAll_append]
    split_ifs with hold
    · rfl
    · -- every child was known, so the parent had a record and it stays as it is
      have hall : ∀ c ∈ childrenOf new key, c ∈ addAll [] (childrenOf rows key) :=
        fun c hc => by_contra fun hc' => hold ⟨c, hc, hc'⟩
      have hsome : childrenOf rows key ≠ [] := by
        intro hempty
        obtain ⟨c, hc⟩ := exists_mem_of_ne_nil _ hnil
        have hin := hall c hc
        rw [hempty] at hin
        cases hin
      rw [h, forwardRecord, if_neg hsome, addAll_eq_self hall]

/-- Locators lead to the room of a row that names the event. -/
theorem edgeWrites_locators_room {e : String} {r : R}
    (h : (edgeWrites o existing rows).locators.get? e = some r) :
    ∃ row ∈ rows, row.room = r ∧ (row.event = e ∨ row.prev = e) := by
  rcases get?_update_cases _ _ h with hmem | hmem
  · rcases mem_append.mp hmem with hmem | hmem
    · obtain ⟨⟨key, edges⟩, hkey, heq⟩ := mem_map.mp hmem
      cases heq
      obtain ⟨⟨row, hrow, hk⟩, -⟩ := mem_backwardMap.mp ((o.backward_perm _).mem_iff.mp hkey)
      exact ⟨row, hrow, congrArg Prod.fst hk, .inl (congrArg Prod.snd hk)⟩
    · obtain ⟨⟨key, children⟩, hkey, heq⟩ := mem_map.mp hmem
      cases heq
      obtain ⟨⟨row, hrow, hk⟩, -⟩ := mem_forwardMap.mp ((o.forward_perm _).mem_iff.mp hkey)
      exact ⟨row, hrow, congrArg Prod.fst hk, .inr (congrArg Prod.snd hk)⟩
  · cases hmem

/-- Every event a row names has a locator. -/
theorem edgeWrites_locators_some {row : EdgeRow R} (hrow : row ∈ rows) {e : String}
    (he : row.event = e ∨ row.prev = e) :
    ∃ r, (edgeWrites o existing rows).locators.get? e = some r := by
  rw [← mem_keys_iff, edgeWrites, mem_keys_ofList, map_append, mem_append, map_map, map_map, mem_map, mem_map]
  rcases he with rfl | rfl
  · refine .inl ⟨((row.room, row.event), edgesOf rows (row.room, row.event)), ?_, rfl⟩
    exact (o.backward_perm _).mem_iff.mpr (mem_backwardMap.mpr ⟨⟨row, hrow, rfl⟩, rfl⟩)
  · refine .inr ⟨((row.room, row.prev), childrenOf rows (row.room, row.prev)), ?_, rfl⟩
    exact (o.forward_perm _).mem_iff.mpr (mem_forwardMap.mpr ⟨⟨row, hrow, rfl⟩, rfl⟩)

/-- Locators stay, or lead to the one room that names the event. -/
theorem locator_put {e : String}
    {r : R} (hroom : ∀ row ∈ rows, row.event = e ∨ row.prev = e → row.room = r) :
    (s.put (edgeWrites o existing rows)).locator.get? e =
      if ∃ row ∈ rows, row.event = e ∨ row.prev = e then some r else s.locator.get? e := by
  show (s.locator.update _).get? e = _
  rw [get?_update_entries]
  cases hr : (edgeWrites o existing rows).locators.get? e with
  | none =>
    rw [Option.none_or, if_neg]
    rintro ⟨row, hrow, he⟩
    obtain ⟨r', hr'⟩ := edgeWrites_locators_some o existing hrow he
    rw [hr] at hr'
    cases hr'
  | some r' =>
    obtain ⟨row, hrow, rfl, he⟩ := edgeWrites_locators_room o existing hr
    rw [Option.some_or, if_pos ⟨row, hrow, he⟩, hroom row hrow he]

/-! ### What a delete leaves -/

theorem backward_delete (events : List String) (r : R) (e : String) :
    (eventEdgesDelete s events).backward.get? (r, e) =
      if e ∈ events ∧ s.locator.get? e = some r then some [] else s.backward.get? (r, e) := by
  refine get?_update_of_iff _ fun b => ?_
  simp only [mem_filterMap, Option.map_eq_some_iff, Prod.mk.injEq]
  constructor
  · rintro ⟨x, hx, r', hr', ⟨rfl, rfl⟩, rfl⟩
    exact ⟨⟨hx, hr'⟩, rfl⟩
  · rintro ⟨⟨he, hr⟩, rfl⟩
    exact ⟨e, he, r, hr, ⟨rfl, rfl⟩, rfl⟩

/-! ### What a later put leaves -/

/-- The backward read of an event, as far as its record's count goes. -/
theorem getBackward_record {s : Store R} {r : R} {e : String} {l : List (String × Bool)}
    (hloc : s.locator.get? e = some r) (hrecord : s.backward.get? (r, e) = some (encodeBackwardEdges e l))
    (hself : Reemitted e) (hids : ∀ x ∈ l.take (l.length % 2 ^ 16), Reemitted x.1) :
    getBackward s e = .ok (some (l.take (l.length % 2 ^ 16))) := by
  have hdecode := decodeBackwardEdges_encode hself hids
  rw [getBackward, hloc, Option.bind_some, hrecord]
  rw [encodeBackwardEdges] at hdecode ⊢
  simp only [hdecode, ne_eq, not_true_eq_false, if_false]

/-- A put that returns has written what `write_edges` worked out. -/
theorem put_of_ok {o : MapOrder R} {s s' : Store R} {rows : List (EdgeRow R)}
    (h : eventEdgesPut o s rows = .ok s') : ∃ existing, s' = s.put (edgeWrites o existing rows) := by
  obtain ⟨w, hw, rfl⟩ := map_eq_ok.mp h
  obtain ⟨cache, -, rfl⟩ := map_eq_ok.mp hw
  exact ⟨_, rfl⟩

/-- A later put that carries some of an event's edges keeps the others exactly when it does not carry
    the event at all, or carries every edge. -/
theorem backward_kept_iff (s : Store R) (rows : List (EdgeRow R)) {s' : Store R}
    {e : String} {r : R} {edges : List (String × Bool)} (hloc : s.locator.get? e = some r)
    (hread : getBackward s e = .ok (some edges)) (hself : Reemitted e)
    (hids : ∀ x ∈ edges, Reemitted x.1)
    (hroom : ∀ row ∈ rows, row.event = e ∨ row.prev = e → row.room = r)
    (hsome : ∀ x ∈ edgesOf rows (r, e), x ∈ edges) (hput : eventEdgesPut o s rows = .ok s') :
    (∃ l, getBackward s' e = .ok (some l) ∧ ∀ x ∈ edges, x ∈ l) ↔
      (∀ row ∈ rows, row.event ≠ e) ∨
        ∀ x ∈ edges, x ∈ (edgesOf rows (r, e)).take ((edgesOf rows (r, e)).length % 2 ^ 16) := by
  obtain ⟨existing, rfl⟩ := put_of_ok hput
  have hloc' : (s.put (edgeWrites o existing rows)).locator.get? e = some r := by
    rw [locator_put o s existing hroom, hloc, ite_self]
  by_cases hnamed : ∃ row ∈ rows, (row.room, row.event) = (r, e)
  · have hread' := getBackward_record hloc' (by rw [backward_put, if_pos hnamed]) hself
      fun x hx => hids x (hsome x (mem_of_mem_take hx))
    obtain ⟨row, hrow, hkey⟩ := hnamed
    rw [or_iff_right fun hnone => hnone row hrow (congrArg Prod.snd hkey), hread']
    simp
  · have hsame : getBackward (s.put (edgeWrites o existing rows)) e = getBackward s e := by
      rw [getBackward, getBackward, hloc', hloc, Option.bind_some, Option.bind_some, backward_put,
        if_neg hnamed]
    rw [hsame, hread]
    refine iff_of_true ⟨edges, rfl, fun _ h => h⟩ (.inl fun row hrow he => hnamed ⟨row, hrow, ?_⟩)
    rw [he, hroom row hrow (.inl he)]

/-- An event with two prev events. -/
def forked : Store String :=
  Store.empty.put (edgeWrites .asBuilt (fun _ => []) [⟨"!r", "$e", "$a", false⟩, ⟨"!r", "$e", "$b", false⟩])

theorem backward_kept_child : ∃ s', eventEdgesPut .asBuilt forked [⟨"!r", "$f", "$e", false⟩] = .ok s' ∧
    ∃ l, getBackward s' "$e" = .ok (some l) ∧ ∀ x ∈ [("$a", false), ("$b", false)], x ∈ l :=
  ⟨_, rfl, (backward_kept_iff .asBuilt forked [⟨"!r", "$f", "$e", false⟩] (r := "!r") (by decide +kernel) (by decide +kernel)
    (by decide +kernel) (by decide +kernel) (by decide +kernel) (by decide +kernel) rfl).mpr
      (.inl (by decide +kernel))⟩

/-- The edges queued again for the children of `$a` alone. -/
theorem repair_narrows : getBackward forked "$e" = .ok (some [("$a", false), ("$b", false)]) ∧
    ∃ s', eventEdgesPut .asBuilt forked [⟨"!r", "$e", "$a", false⟩] = .ok s' ∧
      getBackward s' "$e" = .ok (some [("$a", false)]) :=
  ⟨by decide +kernel, _, rfl, by decide +kernel⟩

end Sithnapse.EdgeStore
