import Sithnapse.Kit.Search
import Sithnapse.Util.Iterutils

/-! `_calculate_new_extremities` and the two queries it makes.

    The queries read the tables as the batches before have left them; the events of the batch at hand are
    stored afterwards. A stored event has a row in `events`, its metadata in SQL or in the embedded mirror,
    a row in `rejections` if it was rejected, and rows in `event_edges` if it was not: the rejected events
    of a batch are dropped before the edges are written. -/

namespace Sithnapse.Extremities

open Kit Kit.Chain Iterutils List

/-- An event with the parts of its metadata and context that matter here. -/
structure Event (E : Type) where
  eventId : E
  prevEventIds : List E
  outlier : Bool
  softFailed : Bool
  rejected : Bool
  deriving DecidableEq

/-- The tables the queries join, and the embedded mirror of `event_json`. Of the internal metadata only
    the soft-failed flag is kept. -/
structure Tables (E : Type) where
  events : List (E × Bool)
  eventEdges : List (E × E)
  rejections : List E
  eventJson : Dict E Bool
  embeddedJson : Dict E Bool
  embeddedEventJsonEnabled : Bool

variable {E : Type} [DecidableEq E]

namespace Tables

/-- No events. -/
def empty (embeddedEventJsonEnabled : Bool) : Tables E :=
  ⟨[], [], [], Dict.empty, Dict.empty, embeddedEventJsonEnabled⟩

/-- The metadata of an event, from SQL or else from the mirror. -/
def metadata (t : Tables E) (e : E) : Option Bool :=
  (t.eventJson.get? e).or (if t.embeddedEventJsonEnabled then t.embeddedJson.get? e else none)

/-- Missing metadata counts as not soft-failed. -/
def softFailed (t : Tables E) (e : E) : Bool := (t.metadata e).getD false

/-- `INNER JOIN events … NOT events.outlier`. -/
def stored (t : Tables E) (e : E) : Bool := (e, false) ∈ t.events

/-- What persisting an event writes to these tables. -/
def store (t : Tables E) (e : Event E) : Tables E :=
  { t with
    events := t.events ++ [(e.eventId, e.outlier)]
    eventJson := if t.embeddedEventJsonEnabled then t.eventJson else t.eventJson.set e.eventId e.softFailed
    embeddedJson :=
      if t.embeddedEventJsonEnabled then t.embeddedJson.set e.eventId e.softFailed else t.embeddedJson
    rejections := if e.rejected then t.rejections ++ [e.eventId] else t.rejections
    eventEdges :=
      if e.rejected then t.eventEdges else addAll t.eventEdges (e.prevEventIds.map (e.eventId, ·)) }

end Tables

variable (t : Tables E)

/-- `_get_events_which_are_prevs`. -/
def getEventsWhichArePrevs (eventIds : List E) : List E :=
  (batchIter eventIds 100).flatMap fun chunk =>
    (t.eventEdges.filter fun row => row.2 ∈ chunk ∧ t.stored row.1 ∧ row.1 ∉ t.rejections ∧
      ¬ t.softFailed row.1).map Prod.snd

variable (includeSoftFailed : Bool)

/-- One row of the recursive search: what is to be checked next, what has been found. -/
def rejectedRow (st : List E × List E) (row : E × E) : List E × List E :=
  if row.2 ∈ st.2 then st
  else if (includeSoftFailed && t.softFailed row.1) || row.1 ∈ t.rejections then
    (st.1 ++ [row.2], st.2 ++ [row.2])
  else st

/-- One round of `while to_recursively_check`. -/
def rejectedRound (st : List E × List E) : (List E × List E) ⊕ List E :=
  match st.1 with
  | [] => .inr st.2
  | _ :: _ =>
    .inl ((t.eventEdges.filter fun row => row.1 ∈ st.1 ∧ t.stored row.1).foldl
      (rejectedRow t includeSoftFailed) ([], st.2))

/-- `_get_prevs_before_rejected_txn` for one chunk; every round but the last finds the prev event of
    another edge. -/
def prevsBeforeRejectedTxn (existingPrevs chunk : List E) : List E :=
  (loop (rejectedRound t includeSoftFailed) (t.eventEdges.length + 2) (chunk, existingPrevs)).getD
    existingPrevs

/-- `_get_prevs_before_rejected`. -/
def getPrevsBeforeRejected (eventIds : List E) (includeSoftFailed : Bool) : List E :=
  (batchIter eventIds 100).foldl (prevsBeforeRejectedTxn t includeSoftFailed) []

/-- Not an outlier, not rejected, not soft-failed. -/
def Event.isNew (e : Event E) : Bool := !e.outlier && !e.rejected && !e.softFailed

/-- `_calculate_new_extremities`. -/
def calculateNewExtremities (batch : List (Event E)) (latestEventIds : List E) : List E :=
  let newEvents := batch.filter (·.isNew)
  let result := addAll latestEventIds (newEvents.map (·.eventId))
  let result := result.filter (· ∉ newEvents.flatMap (·.prevEventIds))
  let result := result.filter (· ∉ getEventsWhichArePrevs t result)
  result.filter (· ∉ getPrevsBeforeRejected t (newEvents.flatMap (·.prevEventIds)) true)

/-- The tables and the forward extremities of a room. -/
structure Room (E : Type) where
  tables : Tables E
  forwardExtremities : List E

/-- Persist one batch of new events. -/
def Room.persist (r : Room E) (batch : List (Event E)) : Room E where
  tables := batch.foldl Tables.store r.tables
  forwardExtremities := calculateNewExtremities r.tables batch r.forwardExtremities

/-- A room after some batches. -/
def Room.after (embeddedEventJsonEnabled : Bool) (batches : List (List (Event E))) : Room E :=
  batches.foldl Room.persist ⟨Tables.empty embeddedEventJsonEnabled, []⟩

/-! ### What the queries return -/

theorem mem_getEventsWhichArePrevs {t : Tables E} {ids : List E} {p : E} :
    p ∈ getEventsWhichArePrevs t ids ↔ p ∈ ids ∧ ∃ e, (e, p) ∈ t.eventEdges ∧ t.stored e = true ∧
      e ∉ t.rejections ∧ t.softFailed e = false := by
  rw [getEventsWhichArePrevs, mem_flatMap, ← mem_batchIter (show 0 < 100 by decide)]
  constructor
  · rintro ⟨chunk, hchunk, hp⟩
    obtain ⟨⟨e, q⟩, hrow, rfl⟩ := mem_map.mp hp
    rw [mem_filter, decide_eq_true_eq, Bool.not_eq_true] at hrow
    exact ⟨⟨chunk, hchunk, hrow.2.1⟩, e, hrow.1, hrow.2.2⟩
  · rintro ⟨⟨chunk, hchunk, hp⟩, e, hrow, hrest⟩
    refine ⟨chunk, hchunk, mem_map.mpr ⟨(e, p), ?_, rfl⟩⟩
    rw [mem_filter, decide_eq_true_eq, Bool.not_eq_true]
    exact ⟨hrow, hp, hrest⟩

/-- The prev events the recursive search finds at an event. -/
def passed (e : E) : List E :=
  if t.stored e ∧ ((includeSoftFailed = true ∧ t.softFailed e = true) ∨ e ∈ t.rejections) then
    (t.eventEdges.filter (·.1 = e)).map Prod.snd
  else []

theorem mem_passed {t : Tables E} {inc : Bool} {e p : E} : p ∈ passed t inc e ↔
    (e, p) ∈ t.eventEdges ∧ t.stored e = true ∧
      ((inc = true ∧ t.softFailed e = true) ∨ e ∈ t.rejections) := by
  rw [passed]
  split_ifs with h
  · simp only [mem_map, mem_filter, decide_eq_true_eq]
    constructor
    · rintro ⟨⟨a, q⟩, ⟨hrow, rfl⟩, rfl⟩
      exact ⟨hrow, h⟩
    · rintro ⟨hrow, -⟩
      exact ⟨(e, p), ⟨hrow, rfl⟩, rfl⟩
  · exact ⟨nofun, fun hp => absurd hp.2 h⟩

theorem rejectedRows_spec (inc : Bool) {P : E → Prop}
    (hP : ∀ e, (inc && t.softFailed e || decide (e ∈ t.rejections)) = true ↔ P e) (rows : List (E × E))
    (found : List E) :
    (∀ y, y ∈ (rows.foldl (rejectedRow t inc) ([], found)).2 ↔ y ∈ found ∨ ∃ e, (e, y) ∈ rows ∧ P e) ∧
    ∀ y, y ∈ (rows.foldl (rejectedRow t inc) ([], found)).1 ↔ y ∉ found ∧ ∃ e, (e, y) ∈ rows ∧ P e := by
  obtain ⟨hfound, htodo⟩ := foldl_visited (rejectedRow t inc) (fun pre (st : List E × List E) =>
    (∀ y, y ∈ st.2 ↔ y ∈ found ∨ ∃ e, (e, y) ∈ pre ∧ P e) ∧
    ∀ y, y ∈ st.1 ↔ y ∉ found ∧ y ∈ st.2) rows (s := ([], found))
    ⟨fun y => by simp, fun y => by simp⟩ (by
      rintro pre ⟨e, p⟩ post ⟨todo, seen⟩ - ⟨hfound, htodo⟩
      have hsplit : ∀ y, (∃ e', (e', y) ∈ pre ++ [(e, p)] ∧ P e') ↔
          (∃ e', (e', y) ∈ pre ∧ P e') ∨ (y = p ∧ P e) := by
        intro y
        simp only [mem_append, mem_singleton, Prod.mk.injEq, or_and_right, exists_or]
        refine or_congr_right ⟨?_, fun ⟨hy, h⟩ => ⟨e, ⟨rfl, hy⟩, h⟩⟩
        rintro ⟨e', ⟨rfl, hy⟩, h⟩
        exact ⟨hy, h⟩
      rw [rejectedRow]
      split
      · -- the prev event was found before
        rename_i hp
        refine ⟨fun y => ?_, htodo⟩
        rw [hsplit, ← or_assoc, ← hfound]
        exact ⟨Or.inl, fun h => h.elim id fun h => h.1 ▸ hp⟩
      · rename_i hp
        split
        · rename_i hpass
          refine ⟨fun y => ?_, fun y => ?_⟩
          · rw [hsplit, ← or_assoc, ← hfound, mem_append, mem_singleton]
            exact or_congr_right ⟨fun h => ⟨h, (hP e).mp hpass⟩, fun h => h.1⟩
          · have hpf : p ∉ found := fun hc => hp ((hfound p).mpr (Or.inl hc))
            rw [mem_append, mem_append, htodo, mem_singleton]
            by_cases hy : y = p
            · simp [hy, hpf]
            · simp [hy]
        · rename_i hpass
          refine ⟨fun y => ?_, htodo⟩
          rw [hsplit, hfound]
          simp [mt (hP e).mpr hpass])
  refine ⟨hfound, fun y => ?_⟩
  rw [htodo y, hfound y]
  exact and_congr_right fun hy => or_iff_right hy

/-- The search for one chunk ends, with what is below the chunk through passed events added. -/
theorem mem_prevsBeforeRejectedTxn {t : Tables E} {inc : Bool} {existing chunk : List E}
    (hclosed : ∀ x ∈ existing, ∀ y ∈ passed t inc x, y ∈ existing) (y : E) :
    y ∈ prevsBeforeRejectedTxn t inc existing chunk ↔
      y ∈ existing ∨ ∃ s ∈ chunk, Below (passed t inc) s y := by
  have hround : ∀ st st', rejectedRound t inc st = .inl st' → st.1 ≠ [] ∧
      (∀ p, p ∈ st'.2 ↔ p ∈ st.2 ∨ ∃ e ∈ st.1, p ∈ passed t inc e) ∧
      ∀ p, p ∈ st'.1 ↔ p ∉ st.2 ∧ ∃ e ∈ st.1, p ∈ passed t inc e := by
    intro st st' hs
    rw [rejectedRound] at hs
    split at hs
    · cases hs
    · rename_i hne
      obtain rfl := Sum.inl.inj hs
      have hrows : ∀ p, (∃ e, (e, p) ∈ (t.eventEdges.filter fun row => row.1 ∈ st.1 ∧ t.stored row.1) ∧
          ((inc = true ∧ t.softFailed e = true) ∨ e ∈ t.rejections)) ↔
          ∃ e ∈ st.1, p ∈ passed t inc e := by
        intro p
        simp only [mem_filter, decide_eq_true_eq, mem_passed]
        exact exists_congr fun e => ⟨fun ⟨⟨h1, h2, h3⟩, h4⟩ => ⟨h2, h1, h3, h4⟩,
          fun ⟨h2, h1, h3, h4⟩ => ⟨⟨h1, h2, h3⟩, h4⟩⟩
      obtain ⟨hfound, htodo⟩ := rejectedRows_spec t inc (P := fun e => (inc = true ∧ t.softFailed e = true) ∨
        e ∈ t.rejections) (fun e => by simp) (t.eventEdges.filter fun row => row.1 ∈ st.1 ∧ t.stored row.1) st.2
      simp only [hrows] at hfound htodo
      exact ⟨by rw [hne]; exact cons_ne_nil _ _, hfound, htodo⟩
  have hdone : ∀ st r, rejectedRound t inc st = .inr r → st.1 = [] ∧ r = st.2 := by
    intro st r hs
    rw [rejectedRound] at hs
    split at hs
    · rename_i hnil
      exact ⟨hnil, (Sum.inr.inj hs).symm⟩
    · cases hs
  have hU : ∀ e p, p ∈ passed t inc e → p ∈ t.eventEdges.map Prod.snd := fun e p hp =>
    mem_map.mpr ⟨(e, p), (mem_passed.mp hp).1, rfl⟩
  obtain ⟨r, hr, hmem⟩ := frontier_loop hU hround hdone hclosed
    (by rw [length_map]; exact Nat.lt_succ_self _)
  rw [prevsBeforeRejectedTxn, hr]
  exact hmem y

theorem mem_getPrevsBeforeRejected {t : Tables E} {ids : List E} {inc : Bool} {y : E} :
    y ∈ getPrevsBeforeRejected t ids inc ↔ ∃ s ∈ ids, Below (passed t inc) s y := by
  have hfold := foldl_visited (prevsBeforeRejectedTxn t inc)
    (fun pre existing => ∀ y, y ∈ existing ↔ ∃ s ∈ pre.flatten, Below (passed t inc) s y)
    (batchIter ids 100) (s := []) (fun y => by simp) (by
      intro pre chunk post existing _ h y
      rw [mem_prevsBeforeRejectedTxn (fun x hx z hz => ?_), h, flatten_append, flatten_singleton]
      · simp only [mem_append, or_and_right, exists_or]
      · obtain ⟨s, hs, hsx⟩ := (h x).mp hx
        exact (h z).mpr ⟨s, hs, hsx.tail hz⟩)
  rw [getPrevsBeforeRejected, hfold, flatten_batchIter ids (by decide)]

end Sithnapse.Extremities
