import Mathlib.Data.Prod.Lex
import Mathlib.Data.List.Sort
import Sithnapse.Kit.Dict
import Sithnapse.Kit.Replay

/-! The forward edge lists of one generation, and the outbox deltas applied to them.

    A generation's collection holds, for each parent event, the record of its children. An outbox row
    says that an edge was inserted or deleted at a source version of the room. `applyForwardDelta`
    folds a batch of rows into a last-operation-wins map per parent and child, and rewrites the record
    of every parent named. Read as a set of edges, a collection changes exactly as by replaying the
    rows one after the other. -/

namespace Sithnapse.ForwardIndex

open Kit Kit.Dict List

variable {E : Type} [LinearOrder E]

/-- The `operation` column of the outbox, in the order of its texts. -/
inductive Operation
  | delete
  | insert
  deriving DecidableEq

/-- `operation == "insert"`. -/
def Operation.isInsert : Operation → Bool
  | .delete => false
  | .insert => true

/-- One row of `edge_index_outbox`. -/
structure OutboxRow (E : Type) where
  sourceVersion : ℕ
  eventId : E
  prevEventId : E
  operation : Operation
  deriving DecidableEq

namespace OutboxRow

/-- The edge a row is about, as `event_edges` stores it: the event and its parent. -/
def edge (r : OutboxRow E) : E × E := (r.eventId, r.prevEventId)

/-- Whether the edge is there after the row. -/
def inserts (r : OutboxRow E) : Bool := r.operation.isInsert

/-- The columns of `ORDER BY source_version, event_id, prev_event_id, operation`. -/
def sortKey (r : OutboxRow E) : ℕ ×ₗ E ×ₗ E ×ₗ Bool :=
  toLex (r.sourceVersion, toLex (r.eventId, toLex (r.prevEventId, r.inserts)))

end OutboxRow

/-- The order the outbox is read in. -/
def rowLe (a b : OutboxRow E) : Prop := a.sortKey ≤ b.sortKey

instance : DecidableRel (rowLe : OutboxRow E → OutboxRow E → Prop) :=
  fun a b => inferInstanceAs (Decidable (a.sortKey ≤ b.sortKey))

instance : Std.Total (rowLe : OutboxRow E → OutboxRow E → Prop) := ⟨fun a b => le_total a.sortKey b.sortKey⟩

instance : IsTrans (OutboxRow E) rowLe := ⟨fun _ _ _ => le_trans⟩

theorem sourceVersion_le_of_rowLe {a b : OutboxRow E} (h : rowLe a b) :
    a.sourceVersion ≤ b.sourceVersion := by
  rcases Prod.Lex.le_iff.mp h with h | h
  · exact le_of_lt h
  · exact le_of_eq h.1

variable (rows : List (OutboxRow E))

/-- Rows read in order. -/
def ordered : List (OutboxRow E) := rows.insertionSort rowLe

@[simp] theorem mem_ordered {rows : List (OutboxRow E)} {r : OutboxRow E} : r ∈ ordered rows ↔ r ∈ rows :=
  (perm_insertionSort rowLe rows).mem_iff

theorem ordered_versions : (ordered rows).Pairwise (·.sourceVersion ≤ ·.sourceVersion) :=
  (pairwise_insertionSort rowLe rows).imp sourceVersion_le_of_rowLe

/-- `max(row[1] for row in rows)`. -/
def maxVersion : ℕ := (rows.map OutboxRow.sourceVersion).foldl max 0

/-- The edge set after a list of rows, in order. -/
def replayRows (S : Set (E × E)) (rows : List (OutboxRow E)) : Set (E × E) :=
  replay OutboxRow.edge OutboxRow.inserts S rows

/-! ### The collection of one generation -/

/-- The decoded records of one forward collection: parent to children. -/
abbrev Forward (E : Type) := Dict E (List E)

variable (fwd : Forward E)

/-- The edges a collection records. -/
def edgeSet : Set (E × E) := {x | x.1 ∈ fwd.getD x.2 []}

theorem mem_edgeSet {fwd : Forward E} {x : E × E} : x ∈ edgeSet fwd ↔ x.1 ∈ fwd.getD x.2 [] := Iff.rfl

@[simp] theorem edgeSet_empty : edgeSet (Dict.empty : Forward E) = ∅ := by
  ext x
  simp [mem_edgeSet]

/-- `deltas`: for every parent, each child's last operation. -/
def foldDelta : Dict E (Dict E Bool) :=
  rows.foldl
    (fun d r => d.set r.prevEventId ((d.getD r.prevEventId Dict.empty).set r.eventId r.inserts))
    Dict.empty

/-- One entry of a parent's delta applied to its list. -/
def applyChild (children : List E) (p : E × Bool) : List E :=
  if p.2 then (if p.1 ∈ children then children else children ++ [p.1])
  else children.filter (· ≠ p.1)

/-- The list of one parent after its delta, sorted and without repeats. -/
def mergeChildren (children : List E) (state : Dict E Bool) : List E :=
  ((state.entries.foldl applyChild children).insertionSort (· ≤ ·)).dedup

/-- `apply_forward_delta`. -/
def applyForwardDelta (rows : List (OutboxRow E)) : Forward E :=
  let deltas := foldDelta rows
  let parents := deltas.keys.insertionSort (· ≤ ·)
  fwd.update (parents.map fun p => (p, mergeChildren (fwd.getD p []) (deltas.getD p Dict.empty)))

/-- `event_edges_build_generation_batch`: overwrite the records of the given parents. -/
def buildGenerationBatch (edges : List (E × List E)) : Forward E := fwd.update edges

/-! ### A delta replays its rows -/

theorem mem_applyChild {children : List E} {p : E × Bool} {c : E} :
    c ∈ applyChild children p ↔ c ∈ change Prod.fst Prod.snd {c | c ∈ children} p := by
  obtain ⟨a, b⟩ := p
  by_cases hca : c = a
  · rw [mem_change_self hca, hca, applyChild]
    cases b
    · simp
    · by_cases ha : a ∈ children <;> simp [ha]
  · rw [mem_change_ne hca, applyChild]
    cases b
    · simp [hca]
    · by_cases ha : a ∈ children <;> simp [ha, hca]

theorem mem_foldl_applyChild (l : List (E × Bool)) (children : List E) {c : E} :
    c ∈ l.foldl applyChild children ↔ c ∈ replay Prod.fst Prod.snd {c | c ∈ children} l := by
  induction l generalizing children with
  | nil => rfl
  | cons p l ih =>
    have hstep : {c | c ∈ applyChild children p} = change Prod.fst Prod.snd {c | c ∈ children} p :=
      Set.ext fun _ => mem_applyChild
    rw [foldl_cons, ih, hstep]
    rfl

/-- What a child's last operation leaves of its membership. -/
def decided (b : Option Bool) (was : Prop) : Prop :=
  match b with
  | some b => b = true
  | none => was

theorem mem_mergeChildren {children : List E} {state : Dict E Bool} {c : E} :
    c ∈ mergeChildren children state ↔ decided (state.get? c) (c ∈ children) := by
  rw [mergeChildren, mem_dedup, (perm_insertionSort _ _).mem_iff, mem_foldl_applyChild]
  cases hc : state.get? c with
  | some b =>
    have hmem : (c, b) ∈ state.entries := get?_eq_some_iff.mp hc
    refine mem_replay_of_latest (fun _ => 0) (pairwise_of_forall fun _ _ => le_rfl) hmem
      rfl (fun _ _ _ => le_rfl) ?_
    rintro ⟨c', b'⟩ hmem' rfl -
    exact Option.some.inj ((get?_eq_some_iff.mpr hmem').symm.trans hc)
  | none =>
    refine mem_replay_of_untouched ?_
    rintro ⟨c', b'⟩ hmem' rfl
    rw [get?_eq_some_iff.mpr hmem'] at hc
    cases hc

theorem mem_replayRows_iff (S : Set (E × E)) (x : E × E) :
    x ∈ replayRows S rows ↔ decided (((foldDelta rows).getD x.2 Dict.empty).get? x.1) (x ∈ S) := by
  refine foldl_visited _ (fun pre (d : Dict E (Dict E Bool)) =>
    x ∈ replayRows S pre ↔ decided ((d.getD x.2 Dict.empty).get? x.1) (x ∈ S)) rows Iff.rfl ?_
  rintro pre r _ d - ih
  rw [replayRows, replay_concat, getD_set]
  by_cases hp : x.2 = r.prevEventId
  · by_cases hc : x.1 = r.eventId
    · rw [mem_change_self (Prod.ext hc hp), if_pos hp, hc, get?_set_self]
      rfl
    · rw [mem_change_ne fun e => hc (congrArg Prod.fst e), if_pos hp, get?_set_ne _ _ hc, ← hp]
      exact ih
  · rw [mem_change_ne fun e => hp (congrArg Prod.snd e), if_neg hp]
    exact ih

/-- Applying a delta replays its rows on the recorded edges. -/
theorem edgeSet_applyForwardDelta (rows : List (OutboxRow E)) :
    edgeSet (applyForwardDelta fwd rows) = replayRows (edgeSet fwd) rows := by
  ext x
  have hperm := perm_insertionSort (· ≤ ·) (foldDelta rows).keys
  rw [mem_replayRows_iff, mem_edgeSet, applyForwardDelta, Dict.getD, get?_update_map]
  by_cases hp : x.2 ∈ (foldDelta rows).keys
  · rw [if_pos (hperm.mem_iff.mpr hp)]
    exact mem_mergeChildren
  · rw [if_neg fun h => hp (hperm.mem_iff.mp h), getD_of_not_mem _ hp]
    rfl

/-- **A delta may be applied again.** Rows that come a second time, after a crash say, and first to some
    point and then to the end, leave the lists that applying all of them once leaves. -/
theorem applyForwardDelta_again (pre post : List (OutboxRow E)) :
    edgeSet (applyForwardDelta (applyForwardDelta fwd pre) (pre ++ post)) =
      edgeSet (applyForwardDelta fwd (pre ++ post)) := by
  rw [edgeSet_applyForwardDelta, edgeSet_applyForwardDelta, edgeSet_applyForwardDelta]
  refine Set.ext fun x => mem_replay_congr fun hx => mem_replay_of_untouched ?_
  exact fun r hr => hx r (mem_append_left _ hr)

/-- A batch of built records replaces those of its parents. -/
theorem mem_edgeSet_buildGenerationBatch (grouped : Dict E (List E)) (x : E × E) :
    x ∈ edgeSet (buildGenerationBatch fwd grouped.entries) ↔
      if x.2 ∈ grouped.keys then x.1 ∈ grouped.getD x.2 [] else x ∈ edgeSet fwd := by
  rw [mem_edgeSet, buildGenerationBatch, Dict.getD, get?_update_entries]
  by_cases hp : x.2 ∈ grouped.keys
  · rw [if_pos hp, get?_of_mem_keys [] hp]
    rfl
  · rw [if_neg hp, get?_eq_none_iff.mpr hp]
    rfl

end Sithnapse.ForwardIndex
