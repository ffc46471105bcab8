import Mathlib.Data.Prod.Lex
import Sithnapse.Streams.Tokens

/-! Paginating the events of a room, by topological or by stream ordering.

    A query bounds the rows by the two tokens, fetches twice the limit, drops the rows that are out of the
    tokens' range after all, and the last row kept gives the token to go on with. Before the query, two
    tokens that are the wrong way round end the pagination; they are compared by their stream parts, also
    where the query goes by topological ordering. -/

namespace Sithnapse.Streams
open Kit List

variable {I : Type} [DecidableEq I]

inductive Direction where
  | forwards
  | backwards
  deriving DecidableEq

/-- A live token, or a historical one with a topological part. -/
structure RoomStreamToken (I : Type) [DecidableEq I] extends MultiWriterStreamToken I where
  topological : Option ℤ

structure EventRow (I : Type) where
  instanceName : Option I
  topologicalOrdering : ℤ
  streamOrdering : ℤ
  deriving DecidableEq

def RoomStreamToken.plain (topological : Option ℤ) (stream : ℤ) : RoomStreamToken I :=
  ⟨⟨stream, .empty, nofun⟩, topological⟩

/-- `(values) < (topological_ordering, stream_ordering)`; without a first value only the second counts. -/
def sqlLt (v : Option ℤ × ℤ) (r : EventRow I) : Bool :=
  match v.1 with
  | none => v.2 < r.streamOrdering
  | some t => t < r.topologicalOrdering || (t = r.topologicalOrdering && v.2 < r.streamOrdering)

def sqlGe (v : Option ℤ × ℤ) (r : EventRow I) : Bool :=
  match v.1 with
  | none => v.2 ≥ r.streamOrdering
  | some t => t > r.topologicalOrdering || (t = r.topologicalOrdering && v.2 ≥ r.streamOrdering)

/-- The bound for a token that is the upper one or the lower one. -/
def generatePaginationBound (upper : Bool) (t : RoomStreamToken I) : Option ℤ × ℤ :=
  match t.topological with
  | some topological => (some topological, t.stream)
  | none => (none, if upper then t.getMaxStreamPos else t.stream)

def generatePaginationWhereClause (d : Direction) (start : RoomStreamToken I) (stop : Option (RoomStreamToken I))
    (r : EventRow I) : Bool :=
  match d with
  | .backwards => sqlGe (generatePaginationBound true start) r &&
      stop.all fun t => sqlLt (generatePaginationBound false t) r
  | .forwards => sqlLt (generatePaginationBound false start) r &&
      stop.all fun t => sqlGe (generatePaginationBound true t) r

def generateNextToken (d : Direction) (lastTopoOrdering : Option ℤ) (lastStreamOrdering : ℤ) : RoomStreamToken I :=
  .plain lastTopoOrdering (match d with
    | .backwards => lastStreamOrdering - 1
    | .forwards => lastStreamOrdering)

/-- `_filter_results`, and `_filter_results_by_stream` on live tokens; `master` wrote the rows without an
    instance. -/
def filterResults (master : I) (lower upper : Option (RoomStreamToken I)) (r : EventRow I) : Bool :=
  let i := r.instanceName.getD master
  (lower.all fun t =>
    match t.topological with
    | some topological => sqlLt (some topological, t.stream) r
    | none => t.getStreamPosForInstance i < r.streamOrdering) &&
  upper.all fun t =>
    match t.topological with
    | some topological => sqlGe (some topological, t.stream) r
    | none => r.streamOrdering ≤ t.getStreamPosForInstance i

/-- The tokens are the wrong way round. -/
def bailsEarly (d : Direction) (start : RoomStreamToken I) : Option (RoomStreamToken I) → Bool
  | none => false
  | some stop =>
    match d with
    | .forwards => stop.isBeforeOrEq start.toMultiWriterStreamToken
    | .backwards => start.isBeforeOrEq stop.toMultiWriterStreamToken

/-- How a query orders its rows and what topological part its next token has. -/
structure Ordering (I : Type) where
  le : EventRow I → EventRow I → Bool
  topo : EventRow I → Option ℤ

def topologicalOrdering : Ordering I :=
  ⟨fun a b => a.topologicalOrdering < b.topologicalOrdering ||
    (a.topologicalOrdering = b.topologicalOrdering && a.streamOrdering ≤ b.streamOrdering),
    fun r => some r.topologicalOrdering⟩

def streamOrdering : Ordering I := ⟨fun a b => a.streamOrdering ≤ b.streamOrdering, fun _ => none⟩

variable (o : Ordering I) (events : List (EventRow I)) (d : Direction) (limit : ℕ) (master : I)

/-- `ORDER BY` in the direction. -/
def ordered : List (EventRow I) :=
  match d with
  | .forwards => events.mergeSort o.le
  | .backwards => events.mergeSort fun a b => o.le b a

def inRange (start : RoomStreamToken I) (stop : Option (RoomStreamToken I)) : EventRow I → Bool :=
  match d with
  | .forwards => filterResults master (some start) stop
  | .backwards => filterResults master stop (some start)

/-- The rows the query fetches. -/
def fetchedRows (start : RoomStreamToken I) (stop : Option (RoomStreamToken I)) : List (EventRow I) :=
  ((ordered o events d).filter (generatePaginationWhereClause d start stop)).take (2 * limit)

/-- One page, and the token that it returns. `hasChanged` is the sanity check before the query. -/
def paginate (hasChanged : RoomStreamToken I → Bool) (stop : Option (RoomStreamToken I))
    (start : RoomStreamToken I) : List (EventRow I) × RoomStreamToken I :=
  if bailsEarly d start stop || !hasChanged start then ([], stop.getD start)
  else
    let rows := ((fetchedRows o events d limit start stop).filter (inRange d master start stop)).take limit
    match rows.getLast? with
    | none => ([], stop.getD start)
    | some r => (rows, generateNextToken d (o.topo r) r.streamOrdering)

def paginateRoomEventsByTopologicalOrdering : Option (RoomStreamToken I) → RoomStreamToken I →
    List (EventRow I) × RoomStreamToken I := paginate topologicalOrdering events d limit master fun _ => true

/-- `events_stream_cache.has_entity_changed` is asked about the lower token. -/
def hasChanged (hasEntityChanged : ℤ → Bool) (stop : Option (RoomStreamToken I)) (start : RoomStreamToken I) :
    Bool :=
  match d with
  | .forwards => hasEntityChanged start.stream
  | .backwards => stop.all fun t => hasEntityChanged t.stream

def paginateRoomEventsByStreamOrdering (hasEntityChanged : ℤ → Bool) (stop : Option (RoomStreamToken I)) :
    RoomStreamToken I → List (EventRow I) × RoomStreamToken I :=
  paginate streamOrdering events d limit master (hasChanged d hasEntityChanged stop) stop

/-! ### Orders -/

/-- `b` comes after `a` in the direction. -/
def Ordering.before (d : Direction) (a b : EventRow I) : Bool :=
  match d with
  | .forwards => !o.le b a
  | .backwards => !o.le a b

structure Ordering.Lawful (o : Ordering I) : Prop where
  trans : ∀ a b c, o.le a b → o.le b c → o.le a c
  total : ∀ a b, o.le a b || o.le b a
  antisymm : ∀ a b, o.le a b → o.le b a → a.streamOrdering = b.streamOrdering

omit [DecidableEq I] in
theorem lawful_topologicalOrdering : (topologicalOrdering : Ordering I).Lawful := by
  constructor <;> simp only [topologicalOrdering] <;> grind

omit [DecidableEq I] in
theorem lawful_streamOrdering : (streamOrdering : Ordering I).Lawful := by
  constructor <;> simp only [streamOrdering] <;> grind

variable {o events d limit master}

omit [DecidableEq I] in
theorem Ordering.Lawful.before_asymm (h : o.Lawful) (a b : EventRow I) (hab : o.before d a b) :
    ¬ o.before d b a := by
  have := h.total a b
  cases d <;> simp_all [before]

omit [DecidableEq I] in
/-- Rows with distinct stream orderings are in strict order. -/
theorem ordered_strict (h : o.Lawful) (hdistinct : (events.map (·.streamOrdering)).Nodup) :
    (ordered o events d).Pairwise fun a b => o.before d a b := by
  have hperm : (ordered o events d).Perm events := by
    cases d <;> exact mergeSort_perm ..
  have hnodup : (ordered o events d).Pairwise fun a b => a.streamOrdering ≠ b.streamOrdering :=
    pairwise_map.mp ((hperm.map _).nodup_iff.mpr hdistinct)
  cases d with
  | forwards =>
    have hsorted : (ordered o events .forwards).Pairwise fun a b => o.le a b :=
      pairwise_mergeSort h.trans h.total events
    refine (hsorted.and hnodup).imp fun {a b} hab => ?_
    have := h.antisymm a b hab.1
    simp only [Ordering.before]
    grind
  | backwards =>
    have hsorted : (ordered o events .backwards).Pairwise fun a b => o.le b a :=
      pairwise_mergeSort (fun a b c hab hbc => h.trans c b a hbc hab) (fun a b => h.total b a) events
    refine (hsorted.and hnodup).imp fun {a b} hab => ?_
    have := h.antisymm b a hab.1
    simp only [Ordering.before]
    grind

omit [DecidableEq I] in
/-- What is left after a row. -/
theorem filter_left (h : o.Lawful) (hdistinct : (events.map (·.streamOrdering)).Nodup) {P P' : EventRow I → Bool}
    {pre post : List (EventRow I)} {r : EventRow I} (hl : (ordered o events d).filter P = pre ++ r :: post)
    (hP : ∀ x, P' x = (P x && o.before d r x)) : (ordered o events d).filter P' = post := by
  have hstrict : (pre ++ r :: post).Pairwise fun a b => o.before d a b :=
    hl ▸ (ordered_strict h hdistinct).filter P
  rw [← filter_after h.before_asymm hstrict, ← hl, filter_filter]
  exact filter_congr fun x _ => by simp [hP, Bool.and_comm]

/-! ### By topological ordering -/

/-- A historical token. -/
def historical (t : ℤ × ℤ) : RoomStreamToken I := .plain (some t.1) t.2

/-- Between two positions, counted in lexicographic order. -/
def LiesBetween (d : Direction) (start : ℤ × ℤ) (stop : Option (ℤ × ℤ)) (r : EventRow I) : Prop :=
  match d with
  | .forwards => toLex start < toLex (r.topologicalOrdering, r.streamOrdering) ∧
      ∀ t ∈ stop, toLex (r.topologicalOrdering, r.streamOrdering) ≤ toLex t
  | .backwards => toLex (r.topologicalOrdering, r.streamOrdering) ≤ toLex start ∧
      ∀ t ∈ stop, toLex t < toLex (r.topologicalOrdering, r.streamOrdering)

instance (start : ℤ × ℤ) (stop : Option (ℤ × ℤ)) (r : EventRow I) : Decidable (LiesBetween d start stop r) := by
  cases d <;> exact inferInstanceAs (Decidable (_ ∧ ∀ _ ∈ _, _))

theorem inRange_historical (master : I) (start : ℤ × ℤ) (stop : Option (ℤ × ℤ)) (r : EventRow I) :
    inRange d master (historical start) (stop.map historical) r = decide (LiesBetween d start stop r) ∧
    generatePaginationWhereClause d (historical start) (stop.map historical) r =
      decide (LiesBetween d start stop r) := by
  cases d <;> cases stop <;>
    simp only [inRange, filterResults, generatePaginationWhereClause, generatePaginationBound, historical,
      RoomStreamToken.plain, LiesBetween, Prod.Lex.toLex_lt_toLex, Prod.Lex.toLex_le_toLex, sqlLt, sqlGe,
      Option.map_some, Option.map_none, Option.all_some, Option.all_none, Option.mem_def] <;> grind

variable (events d)

/-- The events to be paginated. -/
def eventsBetween (start : ℤ × ℤ) (stop : Option (ℤ × ℤ)) : List (EventRow I) :=
  (ordered topologicalOrdering events d).filter (LiesBetween d start stop ·)

/-- Where a reader of some events stands. -/
def positionAfter (start : ℤ × ℤ) (l : List (EventRow I)) : ℤ × ℤ :=
  match l.getLast? with
  | none => start
  | some r => (r.topologicalOrdering, match d with
    | .forwards => r.streamOrdering
    | .backwards => r.streamOrdering - 1)

variable {events d}

omit [DecidableEq I] in
theorem positionAfter_append (start : ℤ × ℤ) (l l' : List (EventRow I)) :
    positionAfter d start (l ++ l') = positionAfter d (positionAfter d start l) l' := by
  rcases eq_nil_or_concat l' with rfl | ⟨pre, r, rfl⟩
  · simp [positionAfter]
  · simp [positionAfter, ← append_assoc]

omit [DecidableEq I] in
/-- After some of the events, the others are left. -/
theorem eventsBetween_positionAfter (hdistinct : (events.map (·.streamOrdering)).Nodup) {start : ℤ × ℤ}
    {stop : Option (ℤ × ℤ)} {p post : List (EventRow I)} (h : eventsBetween events d start stop = p ++ post) :
    eventsBetween events d (positionAfter d start p) stop = post := by
  rcases eq_nil_or_concat p with rfl | ⟨pre, r, rfl⟩
  · exact h
  rw [concat_eq_append, append_assoc] at h
  have hr : LiesBetween d start stop r := by
    have hmem : r ∈ eventsBetween events d start stop := by simp [h]
    exact of_decide_eq_true (mem_filter.mp hmem).2
  refine filter_left lawful_topologicalOrdering hdistinct h fun x => ?_
  rw [concat_eq_append, positionAfter, getLast?_concat, ← Bool.decide_coe (Ordering.before ..),
    ← Bool.decide_and, decide_eq_decide]
  cases d <;> simp only [LiesBetween, Prod.Lex.toLex_lt_toLex, Prod.Lex.toLex_le_toLex, Ordering.before,
    topologicalOrdering] at hr ⊢ <;> grind

/-- A page is the front of what is left, unless the tokens seem to be the wrong way round. -/
theorem paginate_historical (events : List (EventRow I)) (d : Direction) (master : I) (hlimit : 0 < limit)
    (start : ℤ × ℤ) (stop : Option (ℤ × ℤ)) :
    let page := paginateRoomEventsByTopologicalOrdering events d limit master (stop.map historical)
      (historical start)
    let front := (eventsBetween events d start stop).take limit
    (bailsEarly d (historical start : RoomStreamToken I) (stop.map historical) → page.1 = []) ∧
    (¬ bailsEarly d (historical start : RoomStreamToken I) (stop.map historical) → page.1 = front ∧
      (front ≠ [] → page.2 = historical (positionAfter d start front))) := by
  have hrows : ((fetchedRows topologicalOrdering events d limit (historical start) (stop.map historical)).filter
      (inRange d master (historical start) (stop.map historical))).take limit =
      (eventsBetween events d start stop).take limit := by
    rw [fetchedRows, filter_congr fun r _ => (inRange_historical master start stop r).2,
      ← eventsBetween, filter_eq_self.mpr, take_take, Nat.min_eq_left (by omega)]
    intro r hr
    rw [(inRange_historical master start stop r).1]
    exact (mem_filter.mp (mem_of_mem_take hr)).2
  simp only [paginateRoomEventsByTopologicalOrdering, paginate, hrows, Bool.not_true, Bool.or_false]
  refine ⟨fun hb => by rw [if_pos hb], fun hb => ?_⟩
  rw [if_neg hb, positionAfter]
  cases hlast : ((eventsBetween events d start stop).take limit).getLast? with
  | none => exact ⟨(getLast?_eq_none_iff.mp hlast).symm, fun hne => absurd (getLast?_eq_none_iff.mp hlast) hne⟩
  | some r => exact ⟨rfl, fun _ => by cases d <;> rfl⟩

/-- Where a reader stands after `j` full pages. -/
def standing (events : List (EventRow I)) (d : Direction) (limit : ℕ) (start : ℤ × ℤ) (stop : Option (ℤ × ℤ))
    (j : ℕ) : ℤ × ℤ :=
  positionAfter d start ((eventsBetween events d start stop).take (j * limit))

section Pages

variable {start : ℤ × ℤ} {stop : Option (ℤ × ℤ)} (hdistinct : (events.map (·.streamOrdering)).Nodup)
  (hlimit : 0 < limit)
include hdistinct hlimit

omit hlimit in
omit [DecidableEq I] in
theorem eventsBetween_standing (j : ℕ) : eventsBetween events d (standing events d limit start stop j) stop =
    (eventsBetween events d start stop).drop (j * limit) :=
  eventsBetween_positionAfter hdistinct (take_append_drop ..).symm

variable (master) in
/-- A page is empty, or it is the next one of the events and leads to where a reader of it stands. -/
theorem page_standing (j : ℕ) :
    let page := paginateRoomEventsByTopologicalOrdering events d limit master (stop.map historical)
      (historical (standing events d limit start stop j))
    (page.1 ≠ [] → page.2 = historical (standing events d limit start stop (j + 1)) ∧
      (eventsBetween events d start stop).drop (j * limit) =
        page.1 ++ (eventsBetween events d start stop).drop ((j + 1) * limit)) ∧
    (page.1 = [] ↔ (bailsEarly d (historical (standing events d limit start stop j) : RoomStreamToken I)
      (stop.map historical) ∨ (eventsBetween events d start stop).length ≤ j * limit)) := by
  obtain ⟨hbails, hreads⟩ := paginate_historical events d master hlimit
    (standing events d limit start stop j) stop
  rw [eventsBetween_standing hdistinct] at hreads
  by_cases hb : bailsEarly d (historical (standing events d limit start stop j) : RoomStreamToken I)
      (stop.map historical)
  · exact ⟨fun hne => absurd (hbails hb) hne, fun _ => .inl hb, fun _ => hbails hb⟩
  · obtain ⟨hfst, hsnd⟩ := hreads hb
    refine ⟨fun hne => ⟨?_, ?_⟩, ?_⟩
    · rw [hsnd (hfst ▸ hne), standing, ← positionAfter_append, ← take_add, ← Nat.add_one_mul, ← standing]
    · rw [hfst, Nat.add_one_mul, ← drop_drop, take_append_drop]
    · rw [hfst, take_eq_nil_iff, drop_eq_nil_iff]
      simp [hb, hlimit.ne']

/-- From a position on, the pages give the events that are left if they are not ended too early there or later. -/
theorem standing_exact_iff (j : ℕ) :
    (∃ n, readAll (paginateRoomEventsByTopologicalOrdering events d limit master (stop.map historical)) n
      (historical (standing events d limit start stop j)) =
        some ((eventsBetween events d start stop).drop (j * limit))) ↔
    ∀ i, j ≤ i → i * limit < (eventsBetween events d start stop).length →
      ¬ bailsEarly d (historical (standing events d limit start stop i) : RoomStreamToken I)
        (stop.map historical) := by
  obtain ⟨hgo, hempty⟩ := page_standing master hdistinct hlimit j
  by_cases hne : (paginateRoomEventsByTopologicalOrdering events d limit master (stop.map historical)
      (historical (standing events d limit start stop j))).1 = []
  · rw [readAll_nil_iff hne, drop_eq_nil_iff]
    constructor
    · intro hlen i hi hlt
      exact absurd hlt (not_lt.mpr (hlen.trans (Nat.mul_le_mul_right _ hi)))
    · intro hclear
      by_contra hlt
      exact (hempty.mp hne).elim (hclear j le_rfl (not_le.mp hlt)) hlt
  · obtain ⟨hbails, hlen⟩ := not_or.mp (hempty.not.mp hne)
    obtain ⟨htoken, hsplit⟩ := hgo hne
    have hshorter : (eventsBetween events d start stop).length - (j + 1) * limit <
        (eventsBetween events d start stop).length - j * limit := by
      rw [Nat.add_one_mul]
      omega
    rw [readAll_append_iff hne, hsplit, htoken]
    simp only [append_cancel_left_eq, exists_eq_left']
    rw [standing_exact_iff (j + 1)]
    refine ⟨fun h i hi hlt => ?_, fun h i hi => h i (Nat.le_of_succ_le hi)⟩
    rcases hi.eq_or_lt with rfl | hi
    exacts [hbails, h i hi hlt]
termination_by (eventsBetween events d start stop).length - j * limit

/-- The pages give the events between the tokens, each once and in order, if and only if the tokens are
    never the wrong way round by their stream parts while events are left. -/
theorem topological_pagination_exact_iff :
    (∃ n, readAll (paginateRoomEventsByTopologicalOrdering events d limit master (stop.map historical)) n
      (historical start) = some (eventsBetween events d start stop)) ↔
    ∀ j, j * limit < (eventsBetween events d start stop).length →
      ¬ bailsEarly d (historical (standing events d limit start stop j) : RoomStreamToken I)
        (stop.map historical) := by
  have hfirst : (∃ n, readAll (paginateRoomEventsByTopologicalOrdering events d limit master (stop.map historical)) n
      (historical (standing events d limit start stop 0)) = _) ↔ _ := standing_exact_iff hdistinct hlimit 0
  simpa [standing, positionAfter] using hfirst

end Pages

/-- Two pages, with an event after the upper token. -/
theorem topological_pagination_two_pages :
    let events : List (EventRow Unit) := [⟨none, 1, 6⟩, ⟨none, 2, 4⟩, ⟨none, 2, 7⟩, ⟨none, 3, 9⟩]
    ∃ n, readAll (paginateRoomEventsByTopologicalOrdering events .forwards 2 () ((some (2, 8)).map historical)) n
      (historical (1, 5)) = some (eventsBetween events .forwards (1, 5) (some (2, 8))) := by
  intro events
  have hbetween : eventsBetween events .forwards (1, 5) (some (2, 8)) = events.take 3 := by
    rw [eventsBetween, show ordered topologicalOrdering events .forwards = events from mergeSort_of_pairwise (by decide)]
    decide
  refine (topological_pagination_exact_iff (by decide) Nat.two_pos).mpr fun j hj => ?_
  rw [standing, hbetween]
  rw [hbetween] at hj
  have hj : j < 2 := by
    have hlt : j * 2 < 3 := hj
    omega
  interval_cases j <;> decide

/-- The stream part of the upper token is lower, so its events are not even asked for. -/
theorem topological_pagination_bails : LiesBetween .forwards (1, 5) (some (2, 3)) (⟨none, 1, 6⟩ : EventRow Unit) ∧
    ∀ n l, readAll (paginateRoomEventsByTopologicalOrdering [⟨none, 1, 6⟩] .forwards 1 ()
      (some (historical (2, 3)))) n (historical (1, 5)) = some l → l = [] := by
  refine ⟨by decide, fun n l h => ?_⟩
  cases n with
  | zero => cases h
  | succ n => exact (Option.some.inj h).symm

/-! ### By stream ordering -/

/-- Between the two tokens' positions for the event's own writer. -/
def LiesWithin (d : Direction) (master : I) (start stop : RoomStreamToken I) (r : EventRow I) : Prop :=
  let i := r.instanceName.getD master
  match d with
  | .forwards => start.getStreamPosForInstance i < r.streamOrdering ∧
      r.streamOrdering ≤ stop.getStreamPosForInstance i
  | .backwards => r.streamOrdering ≤ start.getStreamPosForInstance i ∧
      stop.getStreamPosForInstance i < r.streamOrdering

instance (start stop : RoomStreamToken I) (r : EventRow I) : Decidable (LiesWithin d master start stop r) := by
  cases d <;> exact inferInstanceAs (Decidable (_ ∧ _))

/-- Not beyond the second token's position for the event's own writer. -/
def NotBeyond (d : Direction) (master : I) (stop : RoomStreamToken I) (r : EventRow I) : Prop :=
  match d with
  | .forwards => r.streamOrdering ≤ stop.getStreamPosForInstance (r.instanceName.getD master)
  | .backwards => stop.getStreamPosForInstance (r.instanceName.getD master) < r.streamOrdering

instance (stop : RoomStreamToken I) (r : EventRow I) : Decidable (NotBeyond d master stop r) := by
  cases d
  exacts [inferInstanceAs (Decidable ((_ : ℤ) ≤ _)), inferInstanceAs (Decidable ((_ : ℤ) < _))]

section Live

variable {start stop t : RoomStreamToken I} {r : EventRow I} {hasEntityChanged : ℤ → Bool}

theorem MultiWriterStreamToken.pos_le_of_isBeforeOrEq {t other : MultiWriterStreamToken I}
    (h : t.isBeforeOrEq other) (i : I) : t.getStreamPosForInstance i ≤ other.getStreamPosForInstance i := by
  rw [isBeforeOrEq] at h
  split at h
  · cases h
  · by_cases hi : i ∈ addAll t.instanceMap.keys other.instanceMap.keys
    · exact of_decide_eq_true (all_eq_true.mp h i hi)
    · rw [mem_addAll, not_or] at hi
      rw [t.pos_of_not_mem hi.1, other.pos_of_not_mem hi.2]
      omega

theorem inRange_live (ht : t.topological = none) (hstop : stop.topological = none) :
    inRange d master t (some stop) r = decide (LiesWithin d master t stop r) := by
  cases d <;> simp [inRange, filterResults, LiesWithin, ht, hstop] <;> grind

theorem LiesWithin.notBeyond (h : LiesWithin d master t stop r) : NotBeyond d master stop r := by
  cases d <;> exact h.2

theorem liesWithin_plain {q : ℤ} (h : generatePaginationWhereClause d (.plain none q) (some stop) r = true) :
    LiesWithin d master (.plain none q) stop r ↔ NotBeyond d master stop r := by
  cases d with
  | forwards =>
    have hq : q < r.streamOrdering := of_decide_eq_true (Bool.and_eq_true_iff.mp h).1
    exact and_iff_right hq
  | backwards =>
    have hq : r.streamOrdering ≤ q := of_decide_eq_true (Bool.and_eq_true_iff.mp h).1
    exact and_iff_right hq

/-- The scalar bounds of the query select every event in range. -/
theorem LiesWithin.selected (h : LiesWithin d master t stop r) (ht : t.topological = none)
    (hstop : stop.topological = none) : generatePaginationWhereClause d t (some stop) r = true := by
  have hlow (t : RoomStreamToken I) := t.stream_le_pos (r.instanceName.getD master)
  have hhigh (t : RoomStreamToken I) := t.posFor_le_max (some (r.instanceName.getD master))
  simp only [MultiWriterStreamToken.posFor] at hhigh
  have := hlow t
  have := hlow stop
  have := hhigh t
  have := hhigh stop
  cases d <;> simp only [LiesWithin] at h <;>
    simp only [generatePaginationWhereClause, generatePaginationBound, ht, sqlLt, sqlGe] <;> grind

/-- Neither check before the query keeps an event in range from being found. -/
theorem LiesWithin.asked (h : LiesWithin d master t stop r)
    (hcache : ∀ q < r.streamOrdering, hasEntityChanged q = true) :
    bailsEarly d t (some stop) = false ∧ hasChanged d hasEntityChanged (some stop) t = true := by
  have ht := t.stream_le_pos (r.instanceName.getD master)
  have hstop := stop.stream_le_pos (r.instanceName.getD master)
  refine ⟨Bool.eq_false_iff.mpr fun hb => ?_, ?_⟩
  · cases d <;> have := MultiWriterStreamToken.pos_le_of_isBeforeOrEq hb (r.instanceName.getD master) <;>
      simp only [LiesWithin] at h <;> omega
  · cases d <;> simp only [LiesWithin] at h <;> exact hcache _ (by omega)

omit [DecidableEq I] in
theorem mem_ordered {o : Ordering I} : r ∈ ordered o events d ↔ r ∈ events := by
  cases d <;> simp [ordered]

variable (events d stop) in
/-- The rows in the scalar bounds of the two tokens. -/
def rowsBetween (t : RoomStreamToken I) : List (EventRow I) :=
  (ordered streamOrdering events d).filter (generatePaginationWhereClause d t (some stop))

/-- After a row the later ones are left. -/
theorem rowsBetween_next (hdistinct : (events.map (·.streamOrdering)).Nodup) (ht : t.topological = none)
    {pre post : List (EventRow I)} (h : rowsBetween events d stop t = pre ++ r :: post) :
    rowsBetween events d stop (generateNextToken d none r.streamOrdering) = post := by
  have hr : r ∈ rowsBetween events d stop t := by simp [h]
  have hr := (mem_filter.mp hr).2
  refine filter_left lawful_streamOrdering hdistinct h fun x => ?_
  have hlower : ∀ y : EventRow I, sqlLt (generatePaginationBound false t) y = decide (t.stream < y.streamOrdering) :=
    fun y => by rw [generatePaginationBound, ht]; rfl
  have hupper : ∀ y : EventRow I, sqlGe (generatePaginationBound true t) y =
      decide (t.getMaxStreamPos ≥ y.streamOrdering) := fun y => by rw [generatePaginationBound, ht]; rfl
  cases d with
  | forwards =>
    have hr : t.stream < r.streamOrdering := of_decide_eq_true ((hlower r).symm.trans (Bool.and_eq_true_iff.mp hr).1)
    show (decide (r.streamOrdering < x.streamOrdering) && _) =
      ((sqlLt _ x && _) && !decide (x.streamOrdering ≤ r.streamOrdering))
    rw [hlower]
    grind
  | backwards =>
    have hr : t.getMaxStreamPos ≥ r.streamOrdering :=
      of_decide_eq_true ((hupper r).symm.trans (Bool.and_eq_true_iff.mp hr).1)
    show (decide (r.streamOrdering - 1 ≥ x.streamOrdering) && _) =
      ((sqlGe _ x && _) && !decide (r.streamOrdering ≤ x.streamOrdering))
    rw [hupper]
    grind

variable (d master) in
/-- A page has the rows in the window that are in range, up to the limit, and leads to the position after the last. -/
theorem windowed_live (hdistinct : (events.map (·.streamOrdering)).Nodup) (hlimit : 0 < limit)
    (hcache : ∀ r ∈ events, ∀ q < r.streamOrdering, hasEntityChanged q = true) (ht : t.topological = none)
    (hstop : stop.topological = none) :
    let page := paginateRoomEventsByStreamOrdering events d limit master hasEntityChanged (some stop)
    Windowed page (rowsBetween events d stop) (2 * limit) limit (LiesWithin d master t stop ·) t ∧
      ((page t).1 ≠ [] → ∃ q, (page t).2 = .plain none q) := by
  intro page
  have hpage : (page t).1 = windowPage (2 * limit) limit (LiesWithin d master t stop ·) (rowsBetween events d stop t) ∧
      ∀ r, (page t).1.getLast? = some r → (page t).2 = generateNextToken d none r.streamOrdering := by
    simp only [page, paginateRoomEventsByStreamOrdering, paginate, windowPage]
    rw [filter_congr fun r _ => inRange_live ht hstop, fetchedRows, ← rowsBetween]
    rcases hkept : ((rowsBetween events d stop t).take (2 * limit)).filter
      fun r => decide (LiesWithin d master t stop r) with _ | ⟨r, kept⟩
    · simp
    · obtain ⟨hfetched, hr⟩ := mem_filter.mp (hkept ▸ mem_cons_self : r ∈ List.filter _ _)
      have hmem := mem_ordered.mp (mem_filter.mp (mem_of_mem_take hfetched)).1
      obtain ⟨hbails, hchanged⟩ := (of_decide_eq_true hr).asked (hcache r hmem)
      rw [if_neg (by simp [hbails, hchanged])]
      cases hlast : ((r :: kept).take limit).getLast? with
      | none => simp [hlimit.ne'] at hlast
      | some r' =>
        simp only [hlast]
        exact ⟨trivial, fun r'' h => Option.some.inj h ▸ rfl⟩
  refine ⟨⟨hpage.1, fun hrows hlast => ?_⟩, fun hne => ⟨_, hpage.2 _ (getLast?_eq_some_getLast hne)⟩⟩
  rw [hpage.2 _ hlast]
  exact rowsBetween_next hdistinct ht hrows

end Live

/-- Writer `true` is ahead of the baseline. -/
def aheadToken : RoomStreamToken Bool := ⟨⟨5, .ofList [(true, 8)], by decide⟩, none⟩

end Sithnapse.Streams
