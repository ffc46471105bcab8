import Sithnapse.EventJson.Mirror

/-! Reads of the event JSON mirror.

    The mirror is a map from events to rows, blurred by crashes: after a put that returned an event has
    its row, after a delete that returned it has none, and after a call that crashed either may be the
    case. `expected` follows that map along the history of calls, and every state of the mirror agrees
    with it, whatever the collections written so far. -/

namespace Sithnapse.EventJson

open Kit List
open Option (some.injEq map_some none_or)

variable {E R : Type} [DecidableEq E] {ids : Ids E R} {roomOf : E → R}

/-- What is known of an event. -/
inductive Expect (E R : Type)
  | unknown
  | miss
  | holds (row : Row E R)

/-- What is known after one more call, which returned or not. -/
def Expect.after (e : E) (x : Expect E R) : Call E R × Bool → Expect E R
  | (.put rows, returned) =>
    match newest rows e with
    | none => x
    | some row => if returned then .holds row else .unknown
  | (.delete events, returned) =>
    if e ∈ events then
      if returned then .miss
      else
        match x with
        | .miss => .miss
        | _ => .unknown
    else x

/-- What is known after a history of calls. -/
def expected (e : E) (log : List (Call E R × Bool)) : Expect E R := log.foldl (Expect.after e) .miss

/-- The engine's records agree with what is known. -/
def Expect.Meets (ids : Ids E R) (roomOf : E → R) (s : Engine) (e : E) : Expect E R → Prop
  | .unknown => True
  | .miss => live (s.get? (locatorKey ids e)) = none
  | .holds row => s.get? (locatorKey ids e) = some (ids.room (roomOf e)).1 ∧
      s.get? (ids.room (roomOf e), ids.node e) = some row.body ∧
      s.get? (ids.room (roomOf e), ids.metaNode e) = some row.metadata

/-- Body and metadata are both gone, or both of one put of the history. -/
def OfOnePut (log : List (Call E R × Bool)) (e : E) (body metadata : Option Bytes) : Prop :=
  (live body = none ∧ live metadata = none) ∨
    ∃ rows returned row, (Call.put rows, returned) ∈ log ∧ accepted (Call.put rows) = true ∧
      newest rows e = some row ∧ body = some row.body ∧ metadata = some row.metadata

variable {log : List (Call E R × Bool)}

theorem OfOnePut.concat {e : E} {body metadata : Option Bytes}
    (h : OfOnePut log e body metadata) (x : Call E R × Bool) : OfOnePut (log ++ [x]) e body metadata := by
  refine h.imp id ?_
  rintro ⟨rows, returned, row, hmem, hrest⟩
  exact ⟨rows, returned, row, mem_append_left _ hmem, hrest⟩

/-- The records of one event between two calls. -/
structure EventBase (ids : Ids E R) (roomOf : E → R) (s : Engine) (log : List (Call E R × Bool)) (e : E) :
    Prop where
  locator : s.get? (locatorKey ids e) = none ∨ s.get? (locatorKey ids e) = some [] ∨
    s.get? (locatorKey ids e) = some (ids.room (roomOf e)).1
  records : OfOnePut log e (s.get? (ids.room (roomOf e), ids.node e))
    (s.get? (ids.room (roomOf e), ids.metaNode e))
  elsewhere : ∀ r, r ≠ roomOf e → s.get? (ids.room r, ids.node e) = none ∧
    s.get? (ids.room r, ids.metaNode e) = none
  expect : (expected e log).Meets ids roomOf s e

/-- The records of all events between two calls. -/
structure Base (ids : Ids E R) (roomOf : E → R) (s : Engine) (log : List (Call E R × Bool)) : Prop where
  accepts : ∀ x ∈ log, accepted x.1 = true
  event : ∀ e, EventBase ids roomOf s log e

theorem base_empty : Base ids roomOf .empty [] :=
  ⟨nofun, fun _ => ⟨.inl rfl, .inl ⟨rfl, rfl⟩, fun _ _ => ⟨rfl, rfl⟩, rfl⟩⟩

theorem EventBase.resolve {s : Engine} {e : E}
    (h : EventBase ids roomOf s log e) {c : Id} (hc : EventJson.resolve ids s e = some c) :
    c = ids.room (roomOf e) := by
  rcases h.locator with hl | hl | hl
  · rw [resolve_of_dead (show live (s.get? (locatorKey ids e)) = none by rw [hl]; rfl)] at hc
    cases hc
  · rw [resolve_of_dead (show live (s.get? (locatorKey ids e)) = none by rw [hl]; rfl)] at hc
    cases hc
  · rw [resolve_of_get? hl, some.injEq] at hc
    exact hc.symm

theorem Base.locatorsNameRooms {s : Engine} (h : Base ids roomOf s log) :
    LocatorsNameRooms ids s := fun e _ hc => ⟨roomOf e, (h.event e).resolve hc⟩

theorem expected_concat (e : E) (log : List (Call E R × Bool)) (x : Call E R × Bool) :
    expected e (log ++ [x]) = (expected e log).after e x := by
  rw [expected, foldl_append]
  rfl

/-! ### One call, partly or wholly done -/

/-- A call that does not touch the event's records. -/
theorem EventBase.unchanged {s₀ s : Engine} {e : E} {x : Call E R × Bool}
    (h : EventBase ids roomOf s₀ log e) (hx : ∀ y : Expect E R, y.after e x = y)
    (hl : s.get? (locatorKey ids e) = s₀.get? (locatorKey ids e))
    (hn : ∀ r, s.get? (ids.room r, ids.node e) = s₀.get? (ids.room r, ids.node e))
    (hm : ∀ r, s.get? (ids.room r, ids.metaNode e) = s₀.get? (ids.room r, ids.metaNode e)) :
    EventBase ids roomOf s (log ++ [x]) e where
  locator := by
    rw [hl]
    exact h.locator
  records := by
    rw [hn, hm]
    exact h.records.concat x
  elsewhere r hr := by
    rw [hn, hm]
    exact h.elsewhere r hr
  expect := by
    rw [expected_concat, hx]
    have hexpect := h.expect
    revert hexpect
    cases expected e log with
    | unknown => exact fun _ => trivial
    | miss =>
      intro hexpect
      rw [Expect.Meets, hl]
      exact hexpect
    | holds row =>
      intro hexpect
      rw [Expect.Meets, hl, hn, hm]
      exact hexpect

section After

variable {s₀ s : Engine} {done : List Write} {returned : Bool} {e : E}

theorem EventBase.put {rows : List (Row E R)} (h : EventBase ids roomOf s₀ log e)
    (hrows : SameRoom roomOf (.put rows)) (hacc : accepted (.put rows : Call E R) = true)
    (hp : Partly (callRecords ids s₀ (.put rows)) done s₀ s)
    (hall : returned = true → Grouping (callRecords ids s₀ (.put rows)) done) :
    EventBase ids roomOf s (log ++ [(.put rows, returned)]) e := by
  classical
  have hloc := lastIn_put_locator ids hrows s₀ e
  have hnode := fun r => (lastIn_put_records ids hrows s₀ r e).1
  have hmeta := fun r => (lastIn_put_records ids hrows s₀ r e).2
  cases hnew : newest rows e with
  | none =>
    refine h.unchanged (fun y => ?_) ?_ (fun r => ?_) fun r => ?_
    · simp only [Expect.after, hnew]
    · exact hp.of_none (by rw [← locatorKey, hloc, hnew]; rfl)
    · exact hp.of_none (by rw [hnode, hnew]; split <;> rfl)
    · exact hp.of_none (by rw [hmeta, hnew]; split <;> rfl)
  | some row =>
    rw [hnew, map_some] at hloc
    have hnode' := hnode (roomOf e)
    have hmeta' := hmeta (roomOf e)
    rw [if_pos rfl, hnew, map_some] at hnode' hmeta'
    refine ⟨?_, ?_, fun r hr => ?_, ?_⟩
    · have hget := hp (ids.bucket (ids.node e)) (ids.node e)
      rw [← locatorKey, hloc] at hget
      rw [hget]
      split
      · exact .inr (.inr rfl)
      · rw [none_or]
        exact h.locator
    · -- body and metadata are in one collection: both are written or neither is
      rw [hp, hp, hnode', hmeta']
      split
      · exact .inr ⟨rows, returned, row, mem_append_right _ (.head _), hacc, hnew, rfl, rfl⟩
      · rw [none_or, none_or]
        exact h.records.concat _
    · rw [hp.of_none (by rw [hnode, if_neg hr]), hp.of_none (by rw [hmeta, if_neg hr])]
      exact h.elsewhere r hr
    · rw [expected_concat, Expect.after]
      simp only [hnew]
      split_ifs with hret
      · exact ⟨hp.of_all (hall hret) hloc, hp.of_all (hall hret) hnode', hp.of_all (hall hret) hmeta'⟩
      · trivial

theorem EventBase.delete {events : List E} (h : EventBase ids roomOf s₀ log e)
    (hp : Partly (callRecords ids s₀ (.delete events)) done s₀ s)
    (hrooms : LocatorsNameRooms ids s₀)
    (hall : returned = true → Grouping (callRecords ids s₀ (.delete events)) done) :
    EventBase ids roomOf s (log ++ [(.delete events, returned)]) e := by
  have hloc := lastIn_delete_locator hrooms events e
  by_cases he : e ∈ events
  · rw [if_pos he] at hloc
    have helse : ∀ r n, n = ids.node e ∨ n = ids.metaNode e → r ≠ roomOf e →
        lastIn (ids.room r, n) (callRecords ids s₀ (.delete events)) = none := fun r n hn hr =>
      lastIn_delete_eq_none hn (.inr fun hres => hr (ids.room_inj (h.resolve hres)))
    have hget := hp (ids.bucket (ids.node e)) (ids.node e)
    rw [← locatorKey, hloc] at hget
    refine ⟨?_, ?_, fun r hr => ?_, ?_⟩
    · rw [hget]
      split
      · exact .inr (.inl rfl)
      · rw [none_or]
        exact h.locator
    · -- both records get their tombstones at once, or neither does
      by_cases hres : EventJson.resolve ids s₀ e = some (ids.room (roomOf e))
      · rw [hp, hp, lastIn_delete_resolved (.inl rfl) he hres, lastIn_delete_resolved (.inr rfl) he hres]
        split
        · exact .inl ⟨rfl, rfl⟩
        · rw [none_or, none_or]
          exact h.records.concat _
      · rw [hp.of_none (lastIn_delete_eq_none (.inl rfl) (.inr hres)),
          hp.of_none (lastIn_delete_eq_none (.inr rfl) (.inr hres))]
        exact h.records.concat _
    · rw [hp.of_none (helse r _ (.inl rfl) hr), hp.of_none (helse r _ (.inr rfl) hr)]
      exact h.elsewhere r hr
    · rw [expected_concat]
      simp only [Expect.after, if_pos he]
      split_ifs with hret
      · rw [Expect.Meets]
        rw [show s.get? (locatorKey ids e) = some [] from hp.of_all (hall hret) hloc]
        rfl
      · have hexpect := h.expect
        revert hexpect
        cases expected e log with
        | unknown => exact fun _ => trivial
        | holds row => exact fun _ => trivial
        | miss =>
          intro hexpect
          dsimp only [Expect.Meets] at hexpect ⊢
          rw [hget]
          split
          · rfl
          · rw [none_or]
            exact hexpect
  · refine h.unchanged (fun y => ?_) ?_ (fun r => ?_) fun r => ?_
    · simp only [Expect.after, if_neg he]
    · exact hp.of_none (by rw [← locatorKey, hloc, if_neg he])
    · exact hp.of_none (lastIn_delete_eq_none (.inl rfl) (.inl he))
    · exact hp.of_none (lastIn_delete_eq_none (.inr rfl) (.inl he))

theorem Base.after {c : Call E R} (h : Base ids roomOf s₀ log) (hc : SameRoom roomOf c)
    (hacc : accepted c = true) (hp : Partly (callRecords ids s₀ c) done s₀ s)
    (hall : returned = true → Grouping (callRecords ids s₀ c) done) :
    Base ids roomOf s (log ++ [(c, returned)]) := by
  refine ⟨forall_mem_concat.mpr ⟨h.accepts, hacc⟩, fun e => ?_⟩
  cases c with
  | put rows => exact (h.event e).put hc hacc hp hall
  | delete events => exact (h.event e).delete hp h.locatorsNameRooms hall

end After

/-! ### Runs -/

/-- Every event is always put with the same room. -/
def Rooms (roomOf : E → R) (_ : System E R) : Action E R → Prop
  | .call c _ => SameRoom roomOf c
  | _ => True

/-- The engine is in its state between calls, or a call has written some of its collections. -/
def RunInv (ids : Ids E R) (roomOf : E → R) (s : System E R) : Prop :=
  match s.pending with
  | none => Base ids roomOf s.engine s.log
  | some (c, ws) => ∃ s₀ o done, Base ids roomOf s₀ s.log ∧ SameRoom roomOf c ∧ accepted c = true ∧
      done ++ ws = callWrites ids o s₀ c ∧ Partly (callRecords ids s₀ c) done s₀ s.engine

theorem runInv_step {s s' : System E R} {a : Action E R} (h : RunInv ids roomOf s)
    (hok : Rooms roomOf s a) (hs : step ids s a = some s') : RunInv ids roomOf s' := by
  rcases step_cases hs with ⟨c, o, rfl, hp, hacc, rfl⟩ | ⟨c, w, ws, rfl, hp, rfl⟩ | ⟨c, rfl, hp, rfl⟩ |
    ⟨c, ws, rfl, hp, rfl⟩
  · rw [RunInv, hp] at h
    exact ⟨s.engine, o, [], h, hok, hacc, rfl, partly_nil _ _⟩
  all_goals
    rw [RunInv, hp] at h
    obtain ⟨s₀, o, done, hbase, hroom, hacc, hws, hpart⟩ := h
    have hgroup := grouping_callWrites hbase.locatorsNameRooms o c
    rw [← hws] at hgroup
  · refine ⟨s₀, o, done ++ [w], hbase, hroom, hacc, ?_, hpart.write hgroup⟩
    rw [← hws, append_assoc]
    rfl
  · rw [append_nil] at hgroup
    exact hbase.after hroom hacc hpart fun _ => hgroup
  · exact hbase.after hroom hacc hpart nofun

/-- A call under way is like one that crashed. -/
theorem RunInv.base {s : System E R} (h : RunInv ids roomOf s) : Base ids roomOf s.engine s.history := by
  rw [RunInv] at h
  rw [System.history]
  cases hp : s.pending with
  | none =>
    rw [hp] at h
    rw [Option.map_none, Option.toList_none, append_nil]
    exact h
  | some p =>
    obtain ⟨c, ws⟩ := p
    rw [hp] at h
    obtain ⟨s₀, o, done, hbase, hroom, hacc, -, hpart⟩ := h
    exact hbase.after hroom hacc hpart nofun

/-! ### What the history says -/

theorem foldl_after_unnamed (e : E) : ∀ (log : List (Call E R × Bool)) (x : Expect E R),
    (∀ c ∈ log, e ∉ c.1.events) → log.foldl (Expect.after e) x = x
  | [], _, _ => rfl
  | (c, returned) :: log, x, h => by
    have hc := h _ (.head _)
    have hafter : Expect.after e x (c, returned) = x := by
      cases c with
      | put rows => simp only [Expect.after, newest_eq_none.mpr hc]
      | delete events => exact if_neg hc
    rw [foldl_cons, hafter]
    exact foldl_after_unnamed e log x fun c hc => h c (.tail _ hc)

theorem foldl_after_miss (e : E) : ∀ log : List (Call E R × Bool),
    (∀ rows returned, (.put rows, returned) ∈ log → e ∉ (Call.put rows).events) →
    log.foldl (Expect.after e) .miss = .miss
  | [], _ => rfl
  | (c, returned) :: log, h => by
    have hafter : Expect.after e .miss (c, returned) = .miss := by
      cases c with
      | put rows => simp only [Expect.after, newest_eq_none.mpr (h rows returned (.head _))]
      | delete events =>
        simp only [Expect.after]
        split_ifs <;> rfl
    rw [foldl_cons, hafter]
    exact foldl_after_miss e log fun rows returned hm => h rows returned (.tail _ hm)

theorem expected_of_put {e : E} {pre post : List (Call E R × Bool)} {rows : List (Row E R)}
    {row : Row E R} (hrow : newest rows e = some row) (hpost : ∀ c ∈ post, e ∉ c.1.events) :
    expected e (pre ++ (.put rows, true) :: post) = .holds row := by
  rw [expected, foldl_append, foldl_cons, foldl_after_unnamed e post _ hpost]
  simp only [Expect.after, hrow, if_true]

theorem expected_of_delete {e : E} {pre post : List (Call E R × Bool)} {events : List E}
    (he : e ∈ events)
    (hpost : ∀ rows returned, (.put rows, returned) ∈ post → e ∉ (Call.put rows).events) :
    expected e (pre ++ (.delete events, true) :: post) = .miss := by
  have hafter : Expect.after e (pre.foldl (Expect.after e) .miss) (.delete events, true) = .miss := by
    simp only [Expect.after, if_pos he, if_true]
  rw [expected, foldl_append, foldl_cons, hafter]
  exact foldl_after_miss e post hpost

/-! ### Reads -/

omit [DecidableEq E] in
theorem live_of_mem {rows : List (Row E R)} {row : Row E R} (hacc : accepted (.put rows : Call E R) = true)
    (h : row ∈ rows) : live (some row.metadata) = some row.metadata ∧ live (some row.body) = some row.body := by
  have hrow := all_eq_true.mp hacc row h
  rw [Bool.and_eq_true] at hrow
  constructor
  · cases hm : row.metadata with
    | nil => simp [hm] at hrow
    | cons b l => rfl
  · cases hb : row.body with
    | nil => simp [hb] at hrow
    | cons b l => rfl

/-- What a read of an event may return after a history of calls. -/
structure ReadRight (history : List (Call E R × Bool)) (e : E) (read : Option Bytes × Option Bytes) :
    Prop where
  /-- A miss, or metadata and body of one put. -/
  onePut : read = (none, none) ∨ ∃ rows returned row, (.put rows, returned) ∈ history ∧
    newest rows e = some row ∧ read = (some row.metadata, some row.body)
  /-- The newest put, if it returned and no delete was made later. -/
  newestPut : ∀ pre rows post row, history = pre ++ (.put rows, true) :: post →
    newest rows e = some row → (∀ c ∈ post, e ∉ c.1.events) → read = (some row.metadata, some row.body)
  /-- A miss after a delete that returned, with no put since. -/
  deleted : ∀ pre events post, history = pre ++ (.delete events, true) :: post → e ∈ events →
    (∀ rows returned, (.put rows, returned) ∈ post → e ∉ (Call.put rows).events) → read = (none, none)
  /-- A miss or that put, if the only put of the event crashed. -/
  firstPut : ∀ pre rows post row, history = pre ++ (.put rows, false) :: post →
    newest rows e = some row →
    (∀ rows' returned, (.put rows', returned) ∈ pre ++ post → e ∉ (Call.put rows').events) →
    read = (none, none) ∨ read = (some row.metadata, some row.body)

theorem Base.getRow {s : Engine} {log : List (Call E R × Bool)} (h : Base ids roomOf s log) (e : E) :
    getRow ids s e = (none, none) ∨ ∃ rows returned row, (.put rows, returned) ∈ log ∧
      newest rows e = some row ∧ getRow ids s e = (some row.metadata, some row.body) := by
  rw [EventJson.getRow]
  cases hres : resolve ids s e with
  | none => exact .inl rfl
  | some c =>
    obtain rfl := (h.event e).resolve hres
    dsimp only
    rcases (h.event e).records with ⟨hbody, hmeta⟩ | ⟨rows, returned, row, hmem, hacc, hrow, hbody, hmeta⟩
    · rw [hbody, hmeta]
      exact .inl rfl
    · obtain ⟨hlm, hlb⟩ := live_of_mem hacc (newest_event hrow).1
      rw [hbody, hmeta, hlm, hlb]
      exact .inr ⟨rows, returned, row, hmem, hrow, rfl⟩

theorem Base.readRight {s : Engine} {log : List (Call E R × Bool)} (h : Base ids roomOf s log) (e : E) :
    ReadRight log e (EventJson.getRow ids s e) where
  onePut := h.getRow e
  newestPut pre rows post row hlog hrow hpost := by
    have hexpect := (h.event e).expect
    rw [hlog, expected_of_put hrow hpost] at hexpect
    obtain ⟨hloc, hbody, hmeta⟩ := hexpect
    have hacc := h.accepts (.put rows, true) (by rw [hlog]; simp)
    obtain ⟨hlm, hlb⟩ := live_of_mem hacc (newest_event hrow).1
    rw [EventJson.getRow, resolve_of_get? hloc]
    dsimp only
    rw [hmeta, hbody, hlm, hlb]
  deleted pre events post hlog he hpost := by
    have hexpect := (h.event e).expect
    rw [hlog, expected_of_delete he hpost] at hexpect
    rw [EventJson.getRow, resolve_of_dead hexpect]
  firstPut pre rows post row hlog hrow hothers := by
    refine (h.getRow e).imp id ?_
    rintro ⟨rows', returned, row', hmem, hrow', hread⟩
    have hnamed : e ∈ (Call.put rows').events := by
      by_contra hnot
      rw [newest_eq_none.mpr hnot] at hrow'
      cases hrow'
    -- the put read is the only one that names the event
    rw [hlog, mem_append, mem_cons] at hmem
    have hsame : rows' = rows := by
      rcases hmem with hmem | hmem | hmem
      · exact absurd hnamed (hothers rows' returned (mem_append_left _ hmem))
      · exact Call.put.inj (Prod.mk.inj hmem).1
      · exact absurd hnamed (hothers rows' returned (mem_append_right _ hmem))
    rw [hsame, hrow, some.injEq] at hrow'
    rw [hread, hrow']

/-- In every run of put and delete batches, each event put with one room, with a crash between any two
    collection writes: a read returns what the history of calls allows for every id. -/
theorem event_json_reads_refine_map (ids : Ids E R) (roomOf : E → R) {s : System E R}
    (h : Run (step ids) (Rooms roomOf) System.start s) (events : List E) :
    (eventJsonGet ids s.engine events).map Prod.fst = events ∧
      ∀ x ∈ eventJsonGet ids s.engine events, ReadRight s.history x.1 x.2 := by
  have hinv : RunInv ids roomOf s := h.invariant (I := RunInv ids roomOf) base_empty runInv_step
  refine ⟨?_, fun x hx => ?_⟩
  · rw [eventJsonGet, map_map]
    exact map_id events
  · obtain ⟨e, -, rfl⟩ := mem_map.mp hx
    exact hinv.base.readRight e

/-- A put that crashes after the room's records, and the same event put again. -/
def crashedPut : List (Action (Fin 2) (Fin 2)) :=
  [.call (.put [⟨0, 0, [1], [2]⟩]) .asBuilt, .write, .crash,
    .call (.put [⟨0, 0, [3], [4]⟩]) .asBuilt, .write, .write, .finish]

instance (roomOf : E → R) [DecidableEq R] (s : System E R) (a : Action E R) : Decidable (Rooms roomOf s a) :=
  match a with
  | .call (.put rows) _ => inferInstanceAs (Decidable (∀ row ∈ rows, row.room = roomOf row.event))
  | .call (.delete _) _ | .write | .finish | .crash => .isTrue trivial

theorem event_json_reads_refine_map_crashed : ∃ s, Run (step twoIds) (Rooms fun _ => 0) System.start s ∧
      eventJsonGet twoIds s.engine [0, 1] = [(0, some [3], some [4]), (1, none, none)] ∧
      ∀ x ∈ eventJsonGet twoIds s.engine [0, 1], ReadRight s.history x.1 x.2 :=
  Run.exists_get crashedPut (by decide +kernel) fun hrun =>
    ⟨by decide +kernel, (event_json_reads_refine_map twoIds (fun _ => 0) hrun [0, 1]).2⟩

end Sithnapse.EventJson
