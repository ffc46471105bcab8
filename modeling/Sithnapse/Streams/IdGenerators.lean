import Mathlib.Data.List.Sort
import Sithnapse.Kit.Dict

/-! `MultiWriterIdGenerator`: where the writers of a stream stand after a start.

    Positions are positive also where the ids of the stream are negative. The rows that are not below the
    smallest position known are walked in the order of their ids, and each row of this instance overwrites
    its position, so the last of them decides. -/

namespace Sithnapse.Streams
open Kit Kit.Dict List

variable {I : Type} [DecidableEq I]

/-- What is stored of a stream: its rows of `stream_positions`, the writers and ids in its tables, and on
    PostgreSQL the last value of its sequence. -/
structure StreamTables (I : Type) where
  streamPositions : Dict I ℤ
  tables : List (List (Option I × ℤ))
  lastValue : Option ℤ

structure MultiWriterIdGenerator (I : Type) where
  instanceName : I
  writers : List I
  positive : Bool
  currentPositions : Dict I ℤ
  persistedUptoPosition : ℤ
  knownPersistedPositions : List ℤ

namespace MultiWriterIdGenerator

variable (g : MultiWriterIdGenerator I) (db : StreamTables I)

def returnFactor : ℤ := if g.positive then 1 else -1

/-- The loop at the end of `_add_persisted_position`, over the heap as a sorted list. -/
def skipForward : List ℤ → ℤ → List ℤ × ℤ
  | [], upto => ([], upto)
  | p :: known, upto =>
    if p ≤ upto then skipForward known upto
    else if p = upto + 1 then skipForward known (upto + 1)
    else (p :: known, upto)

/-- `_add_persisted_position` during a start, when nothing is in flight. -/
def addPersistedPosition (newId : ℤ) : MultiWriterIdGenerator I :=
  let minCurr := (g.currentPositions.filter (· ≠ g.instanceName)).values.min?.getD
    (g.currentPositions.getD g.instanceName 0)
  let (known, upto) := skipForward (g.knownPersistedPositions.orderedInsert (· ≤ ·) newId)
    (max minCurr g.persistedUptoPosition)
  { g with knownPersistedPositions := known, persistedUptoPosition := upto }

/-- The positions of `stream_positions` without stale writers, and the own one from the sequence. -/
def storedPositions : Dict I ℤ :=
  let current := if g.writers = [] then g.currentPositions
    else (db.streamPositions.filter (· ∈ g.writers)).mapValues (· * g.returnFactor)
  match db.lastValue with
  | some v => if g.instanceName ∈ g.writers then current.set g.instanceName v else current
  | none => current

/-- The rows from a position on, in the order of their ids. -/
def rowsFrom (minStreamId : ℤ) : List (Option I × ℤ) :=
  (db.tables.flatten.filter fun row => if g.positive then minStreamId * g.returnFactor ≤ row.2
    else minStreamId * g.returnFactor ≥ row.2).insertionSort (·.2 ≤ ·.2)

def loadRow (row : Option I × ℤ) : MultiWriterIdGenerator I :=
  let streamId := g.returnFactor * row.2
  let added := g.addPersistedPosition streamId
  if row.1 = some g.instanceName then
    { added with currentPositions := added.currentPositions.set g.instanceName streamId }
  else added

/-- `setdefault` for every configured writer. -/
def setDefaults (position : ℤ) (writers : List I) (current : Dict I ℤ) : Dict I ℤ :=
  writers.foldl (fun d w => if w ∈ d.keys then d else d.set w position) current

/-- `_load_current_ids`, with what it leaves in `stream_positions`. -/
def loadCurrentIds : MultiWriterIdGenerator I × Dict I ℤ :=
  let current := g.storedPositions db
  let loaded : MultiWriterIdGenerator I := match current.values.min? with
    | none =>
      let maxIds := db.tables.map fun table : List (Option I × ℤ) =>
        max ((table.map (g.returnFactor * ·.2)).max?.getD 1) 1
      { g with currentPositions := current, persistedUptoPosition := maxIds.foldl max 1 }
    | some minStreamId => (g.rowsFrom db minStreamId).foldl loadRow
        { g with currentPositions := current, persistedUptoPosition := minStreamId }
  ({ loaded with
      currentPositions := setDefaults loaded.persistedUptoPosition g.writers loaded.currentPositions },
    if g.writers = [] then db.streamPositions else db.streamPositions.filter (· ∈ g.writers))

/-- The ids this instance wrote at or beyond the smallest position loaded, in their order. -/
def ownIds : List ℤ :=
  match (g.storedPositions db).values.min? with
  | none => []
  | some minStreamId => ((g.rowsFrom db minStreamId).filter (·.1 = some g.instanceName)).map Prod.snd

/-- The rows leave the last own id as the own position. -/
theorem own_foldl_loadRow : ∀ (rows : List (Option I × ℤ)) (g : MultiWriterIdGenerator I),
    (rows.foldl loadRow g).currentPositions.get? g.instanceName =
      (((rows.filter (·.1 = some g.instanceName)).map Prod.snd).getLast?.map (g.returnFactor * ·)).or
        (g.currentPositions.get? g.instanceName)
  | [], _ => rfl
  | row :: rows, g => by
    have hstatic : (g.loadRow row).instanceName = g.instanceName ∧
        (g.loadRow row).returnFactor = g.returnFactor := by
      rw [loadRow]
      split <;> exact ⟨rfl, rfl⟩
    have ih := own_foldl_loadRow rows (g.loadRow row)
    rw [hstatic.1, hstatic.2] at ih
    rw [foldl_cons, ih, loadRow]
    split_ifs with hown
    · rw [get?_set_self, filter_cons_of_pos (by simpa using hown), map_cons, getLast?_cons]
      cases (map Prod.snd _).getLast? <;> rfl
    · rw [filter_cons_of_neg (by simpa using hown)]
      rfl

theorem get?_setDefaults {k : I} {p q : ℤ} : ∀ (writers : List I) {d : Dict I ℤ},
    d.get? k = some p → (setDefaults q writers d).get? k = some p
  | [], _, h => h
  | w :: writers, d, h => by
    refine get?_setDefaults writers ?_
    dsimp only
    split_ifs with hw
    · exact h
    · rwa [get?_set_ne]
      rintro rfl
      exact hw (mem_keys_iff.mpr ⟨p, h⟩)

theorem own_position {last : ℤ} (h : (g.ownIds db).getLast? = some last) :
    (g.loadCurrentIds db).1.currentPositions.get? g.instanceName = some (g.returnFactor * last) := by
  refine get?_setDefaults g.writers ?_
  rw [ownIds] at h
  split at h
  · cases h
  · refine (own_foldl_loadRow _ _).trans ?_
    rw [h]
    rfl

theorem sorted_ownIds : (g.ownIds db).Pairwise (· ≤ ·) := by
  rw [ownIds]
  split
  · exact .nil
  · have : Std.Total fun a b : Option I × ℤ => a.2 ≤ b.2 := ⟨fun a b => le_total a.2 b.2⟩
    have : IsTrans (Option I × ℤ) fun a b => a.2 ≤ b.2 := ⟨fun _ _ _ => le_trans⟩
    exact pairwise_map.mpr ((pairwise_insertionSort _ _).filter _)

/-- The own position is that of the last own id: right where the ids grow, and where they fall only while
    there is one. -/
theorem own_position_recovered_iff :
    (∀ id ∈ g.ownIds db, ∃ p, (g.loadCurrentIds db).1.currentPositions.get? g.instanceName = some p ∧
      g.returnFactor * id ≤ p) ↔
      g.positive = true ∨ ∀ id ∈ g.ownIds db, ∀ id' ∈ g.ownIds db, id = id' := by
  cases hlast : (g.ownIds db).getLast? with
  | none => simp [getLast?_eq_none_iff.mp hlast]
  | some last =>
    obtain ⟨l, hl⟩ := getLast?_eq_some_iff.mp hlast
    have hle : ∀ id ∈ g.ownIds db, id ≤ last := by
      have hsorted := g.sorted_ownIds db
      rw [hl, pairwise_append] at hsorted
      exact hl ▸ forall_mem_concat.mpr ⟨fun id hid => hsorted.2.2 id hid last (.head _), le_refl last⟩
    simp only [g.own_position db hlast, Option.some.injEq, exists_eq_left']
    cases hpos : g.positive with
    | true => simpa [returnFactor, hpos] using hle
    | false =>
      simp only [returnFactor, hpos, Bool.false_eq_true, ↓reduceIte, neg_mul, one_mul, neg_le_neg_iff, false_or]
      refine ⟨fun h id hid id' hid' => ?_, fun h id hid => (h _ (mem_of_getLast? hlast) id hid).le⟩
      exact ((hle id hid).antisymm (h id hid)).trans ((h id' hid').antisymm (hle id' hid'))

/-- A stream of negative ids: the rows -2 and -5 of this instance leave it at position 2. -/
theorem own_position_behind :
    let g : MultiWriterIdGenerator Unit := ⟨(), [()], false, .empty, 1, []⟩
    (g.loadCurrentIds ⟨Dict.empty.set () (-1), [[(some (), -2), (some (), -5)]], none⟩).1.currentPositions.get? () =
      some 2 := by
  decide +kernel

end MultiWriterIdGenerator

end Sithnapse.Streams
