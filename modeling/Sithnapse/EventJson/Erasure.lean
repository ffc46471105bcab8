import Sithnapse.EventJson.Reads

/-! Erasure from the event JSON mirror.

    A delete finds an event's records through its locator alone, and the locator is the first thing it
    tombstones. So a delete erases what it names as long as every live record is covered by a live
    locator. Calls that return leave the engine so; a call that crashes need not: a put that wrote a
    room's records and not their locators, or a delete that tombstoned locators and not the records
    behind them, leaves records that no later delete reaches, though it returns. -/

namespace Sithnapse.EventJson

open Kit List Option

variable {E R : Type} [DecidableEq E] {ids : Ids E R} {roomOf : E → R}

/-- The event has no live record in a room's collection. -/
def NoRecord (ids : Ids E R) (s : Engine) (r : R) (e : E) : Prop :=
  live (s.get? (ids.room r, ids.node e)) = none ∧ live (s.get? (ids.room r, ids.metaNode e)) = none

/-- Every live record has a locator that leads to it. -/
def Covered (ids : Ids E R) (s : Engine) : Prop :=
  ∀ e r, NoRecord ids s r e ∨ s.get? (locatorKey ids e) = some (ids.room r).1

/-- Every event is put with one room, and a call crashes only where every live record has a locator. -/
def Careful (ids : Ids E R) (roomOf : E → R) (s : System E R) : Action E R → Prop
  | .call c _ => SameRoom roomOf c
  | .crash => Covered ids s.engine
  | _ => True

/-- Whether an event is erased after one more call: a delete that returned erases it, any put, returned
    or not, may bring it back. -/
def erasedAfter (e : E) (x : Bool) : Call E R × Bool → Bool
  | (.put rows, _) => if e ∈ (Call.put rows).events then false else x
  | (.delete events, returned) => if e ∈ events && returned then true else x

def erased (e : E) (log : List (Call E R × Bool)) : Bool := log.foldl (erasedAfter e) true

theorem erased_concat (e : E) (log : List (Call E R × Bool)) (x : Call E R × Bool) :
    erased e (log ++ [x]) = erasedAfter e (erased e log) x := by
  rw [erased, foldl_append]
  rfl

/-! ### One call -/

section After

variable {s₀ s : Engine} {log : List (Call E R × Bool)} {done : List Write}

/-- A put leaves alone the records of events it does not name. -/
theorem Partly.put_unnamed {rows : List (Row E R)} (hrows : SameRoom roomOf (.put rows)) {e : E}
    (he : e ∉ (Call.put rows).events) (hp : Partly (callRecords ids s₀ (.put rows)) done s₀ s) :
    s.get? (locatorKey ids e) = s₀.get? (locatorKey ids e) ∧
      ∀ r, (NoRecord ids s r e ↔ NoRecord ids s₀ r e) := by
  classical
  have hnew : newest rows e = none := newest_eq_none.mpr he
  refine ⟨hp.of_none ?_, fun r => ?_⟩
  · rw [← locatorKey, lastIn_put_locator ids hrows, hnew]
    rfl
  · obtain ⟨hn, hm⟩ := lastIn_put_records ids hrows s₀ r e
    rw [hnew, map_none, ite_self] at hn hm
    rw [NoRecord, NoRecord, hp.of_none hn, hp.of_none hm]

/-- A delete leaves alone the events it does not name. -/
theorem Partly.delete_unnamed {events : List E} (hrooms : LocatorsNameRooms ids s₀) {e : E}
    (he : e ∉ events) (hp : Partly (callRecords ids s₀ (.delete events)) done s₀ s) :
    s.get? (locatorKey ids e) = s₀.get? (locatorKey ids e) ∧
      ∀ r, (NoRecord ids s r e ↔ NoRecord ids s₀ r e) := by
  refine ⟨hp.of_none ?_, fun r => ?_⟩
  · rw [← locatorKey, lastIn_delete_locator hrooms, if_neg he]
  · rw [NoRecord, NoRecord, hp.of_none (lastIn_delete_eq_none (.inl rfl) (.inl he)),
      hp.of_none (lastIn_delete_eq_none (.inr rfl) (.inl he))]

/-- A delete brings no record back. -/
theorem Partly.delete_noRecord {events : List E} {e : E} {r : R}
    (hp : Partly (callRecords ids s₀ (.delete events)) done s₀ s) (h : NoRecord ids s₀ r e) :
    NoRecord ids s r e := by
  by_cases hres : e ∈ events ∧ resolve ids s₀ e = some (ids.room r)
  · rw [NoRecord, hp, hp, lastIn_delete_resolved (.inl rfl) hres.1 hres.2,
      lastIn_delete_resolved (.inr rfl) hres.1 hres.2]
    split
    · exact ⟨rfl, rfl⟩
    · rw [none_or, none_or]
      exact h
  · rw [not_and_or] at hres
    rw [NoRecord, hp.of_none (lastIn_delete_eq_none (.inl rfl) hres),
      hp.of_none (lastIn_delete_eq_none (.inr rfl) hres)]
    exact h

/-- A delete that wrote all its collections, from an engine whose records are covered, leaves no record
    of an event it names. -/
theorem Partly.delete_erases {events : List E} {e : E} (hcov : Covered ids s₀) (he : e ∈ events)
    (hp : Partly (callRecords ids s₀ (.delete events)) done s₀ s)
    (hall : Grouping (callRecords ids s₀ (.delete events)) done) (r : R) : NoRecord ids s r e := by
  rcases hcov e r with hnone | hloc
  · exact hp.delete_noRecord hnone
  · have hres : resolve ids s₀ e = some (ids.room r) := resolve_of_get? hloc
    rw [NoRecord, hp.of_all hall (lastIn_delete_resolved (.inl rfl) he hres),
      hp.of_all hall (lastIn_delete_resolved (.inr rfl) he hres)]
    exact ⟨rfl, rfl⟩

/-- Erased events have no records, between calls. -/
def Erases (ids : Ids E R) (s : Engine) (log : List (Call E R × Bool)) : Prop :=
  ∀ e, erased e log = true → ∀ r, NoRecord ids s r e

theorem Erases.after {c : Call E R} {returned : Bool} (h : Erases ids s₀ log) (hcov : Covered ids s₀)
    (hc : SameRoom roomOf c) (hp : Partly (callRecords ids s₀ c) done s₀ s)
    (hall : returned = true → Grouping (callRecords ids s₀ c) done) :
    Erases ids s (log ++ [(c, returned)]) := by
  intro e he r
  rw [erased_concat] at he
  cases c with
  | put rows =>
    rw [erasedAfter] at he
    split at he
    · cases he
    · rename_i hnot
      exact ((hp.put_unnamed hc hnot).2 r).mpr (h e he r)
  | delete events =>
    rw [erasedAfter] at he
    split_ifs at he with hnamed
    · rw [Bool.and_eq_true, decide_eq_true_eq] at hnamed
      exact hp.delete_erases hcov hnamed.1 (hall hnamed.2) r
    · exact hp.delete_noRecord (h e he r)

/-- A call that returned leaves every live record covered. -/
theorem Covered.after {c : Call E R} (hcov : Covered ids s₀) (hbase : Base ids roomOf s₀ log)
    (hacc : accepted c = true) (hc : SameRoom roomOf c) (hp : Partly (callRecords ids s₀ c) done s₀ s)
    (hall : Grouping (callRecords ids s₀ c) done) : Covered ids s := by
  intro e r
  have hrooms := hbase.locatorsNameRooms
  cases c with
  | put rows =>
    by_cases he : e ∈ (Call.put rows).events
    · obtain ⟨row, hrow⟩ : ∃ row, newest rows e = some row := by
        rw [← ne_none_iff_exists']
        exact fun hnone => newest_eq_none.mp hnone he
      have hloc := lastIn_put_locator ids hc s₀ e
      rw [hrow, map_some] at hloc
      by_cases hr : r = roomOf e
      · rw [hr]
        exact .inr (hp.of_all hall hloc)
      · -- no record of the event was ever written in another room
        have hafter := (hbase.after hc hacc hp fun (_ : true = true) => hall).event e
        obtain ⟨hn, hm⟩ := hafter.elsewhere r hr
        refine .inl ?_
        rw [NoRecord, hn, hm]
        exact ⟨rfl, rfl⟩
    · obtain ⟨hl, hr⟩ := hp.put_unnamed hc he
      rw [hl, hr]
      exact hcov e r
  | delete events =>
    by_cases he : e ∈ events
    · exact .inl (hp.delete_erases hcov he hall r)
    · obtain ⟨hl, hr⟩ := hp.delete_unnamed hrooms he
      rw [hl, hr]
      exact hcov e r

end After

/-! ### Runs -/

/-- Between calls the records are covered and the erased events have none; a call under way started
    from such an engine. -/
def ErasureInv (ids : Ids E R) (roomOf : E → R) (s : System E R) : Prop :=
  match s.pending with
  | none => Base ids roomOf s.engine s.log ∧ Covered ids s.engine ∧ Erases ids s.engine s.log
  | some (c, ws) => ∃ s₀ o done, (Base ids roomOf s₀ s.log ∧ Covered ids s₀ ∧ Erases ids s₀ s.log) ∧
      SameRoom roomOf c ∧ accepted c = true ∧ done ++ ws = callWrites ids o s₀ c ∧
      Partly (callRecords ids s₀ c) done s₀ s.engine

theorem erasureInv_step {s s' : System E R} {a : Action E R} (h : ErasureInv ids roomOf s)
    (hok : Careful ids roomOf s a) (hs : step ids s a = some s') : ErasureInv ids roomOf s' := by
  rcases step_cases hs with ⟨c, o, rfl, hp, hacc, rfl⟩ | ⟨c, w, ws, rfl, hp, rfl⟩ | ⟨c, rfl, hp, rfl⟩ |
    ⟨c, ws, rfl, hp, rfl⟩
  · rw [ErasureInv, hp] at h
    exact ⟨s.engine, o, [], h, hok, hacc, rfl, partly_nil _ _⟩
  all_goals
    rw [ErasureInv, hp] at h
    obtain ⟨s₀, o, done, ⟨hbase, hcov, herases⟩, hroom, hacc, hws, hpart⟩ := h
    have hgroup := grouping_callWrites hbase.locatorsNameRooms o c
    rw [← hws] at hgroup
  · refine ⟨s₀, o, done ++ [w], ⟨hbase, hcov, herases⟩, hroom, hacc, ?_, hpart.write hgroup⟩
    rw [← hws, append_assoc]
    rfl
  · rw [append_nil] at hgroup
    exact ⟨hbase.after hroom hacc hpart fun _ => hgroup,
      hcov.after hbase hacc hroom hpart hgroup,
      herases.after hcov hroom hpart fun _ => hgroup⟩
  · exact ⟨hbase.after hroom hacc hpart nofun, hok, herases.after hcov hroom hpart nofun⟩

theorem erasureInv_start : ErasureInv ids roomOf System.start :=
  ⟨base_empty, fun _ _ => .inl ⟨rfl, rfl⟩, fun _ _ _ => ⟨rfl, rfl⟩⟩

theorem ErasureInv.erases {s : System E R} (h : ErasureInv ids roomOf s) : Erases ids s.engine s.history := by
  rw [ErasureInv] at h
  rw [System.history]
  cases hp : s.pending with
  | none =>
    rw [hp] at h
    rw [map_none, toList_none, append_nil]
    exact h.2.2
  | some p =>
    obtain ⟨c, ws⟩ := p
    rw [hp] at h
    obtain ⟨s₀, o, done, ⟨hbase, hcov, herases⟩, hroom, -, -, hpart⟩ := h
    exact herases.after hcov hroom hpart (by simp)

/-- An event is erased from a delete that returned on, until it is put. -/
theorem erased_of_delete {e : E} {pre post : List (Call E R × Bool)} {events : List E} (he : e ∈ events)
    (hpost : ∀ rows returned, (.put rows, returned) ∈ post → e ∉ (Call.put rows).events) :
    erased e (pre ++ (.delete events, true) :: post) = true := by
  have hafter : erasedAfter e (pre.foldl (erasedAfter e) true)
      ((.delete events, true) : Call E R × Bool) = true := by
    simp [erasedAfter, he]
  rw [erased, foldl_append, foldl_cons, hafter]
  induction post with
  | nil => rfl
  | cons x post ih =>
    obtain ⟨c, returned⟩ := x
    have hx : erasedAfter e true (c, returned) = true := by
      cases c with
      | put rows => exact if_neg (hpost rows returned (.head _))
      | delete events' =>
        rw [erasedAfter]
        split <;> rfl
    rw [foldl_cons, hx]
    exact ih fun rows returned hm => hpost rows returned (.tail _ hm)

/-- In every run of put and delete batches, each event put with one room, in which calls crash only
    where every live record has a locator that leads to it: once a delete naming an event has returned,
    and while the event is not put again, no room collection has a live record of it. -/
theorem deleted_event_json_erased (ids : Ids E R) (roomOf : E → R) {s : System E R}
    (h : Run (step ids) (Careful ids roomOf) System.start s) {pre post : List (Call E R × Bool)}
    {events : List E} (hlog : s.history = pre ++ (.delete events, true) :: post) {e : E} (he : e ∈ events)
    (hpost : ∀ rows returned, (.put rows, returned) ∈ post → e ∉ (Call.put rows).events) (r : R) :
    live (s.engine.get? (ids.room r, ids.node e)) = none ∧
      live (s.engine.get? (ids.room r, ids.metaNode e)) = none := by
  have hinv : ErasureInv ids roomOf s :=
    h.invariant (I := ErasureInv ids roomOf) erasureInv_start erasureInv_step
  refine hinv.erases e ?_ r
  rw [hlog]
  exact erased_of_delete he hpost

instance [Fintype E] [Fintype R] (s : Engine) : Decidable (Covered ids s) :=
  inferInstanceAs (Decidable (∀ _ _, (_ ∧ _) ∨ _))

instance [Fintype E] [Fintype R] [DecidableEq R] (s : System E R) (a : Action E R) :
    Decidable (Careful ids roomOf s a) :=
  match a with
  | .call (.put rows) _ => inferInstanceAs (Decidable (∀ row ∈ rows, row.room = roomOf row.event))
  | .call (.delete _) _ | .write | .finish => .isTrue trivial
  | .crash => inferInstanceAs (Decidable (Covered ids s.engine))

/-- A delete that crashes at once and is retried, with a second event left alone. -/
def retriedDelete : List (Action (Fin 2) (Fin 2)) :=
  [.call (.put [⟨0, 0, [1], [2]⟩, ⟨0, 1, [3], [4]⟩]) .asBuilt, .write, .write, .finish,
    .call (.delete [0]) .asBuilt, .crash, .call (.delete [0]) .asBuilt, .write, .write, .finish]

theorem deleted_event_json_erased_retried :
    ∃ s, Run (step twoIds) (Careful twoIds fun _ => 0) System.start s ∧
      s.engine.get? (twoIds.room 0, twoIds.node 1) = some [4] ∧
      live (s.engine.get? (twoIds.room 0, twoIds.node 0)) = none := by
  obtain ⟨s, hrun, hother, hhistory⟩ : ∃ s, Run (step twoIds) (Careful twoIds fun _ => 0) System.start s ∧
      s.engine.get? (twoIds.room 0, twoIds.node 1) = some [4] ∧ s.history = [(.put [⟨0, 0, [1], [2]⟩,
        ⟨0, 1, [3], [4]⟩], true), (.delete [0], false)] ++ (.delete [0], true) :: [] :=
    Run.exists_exec retriedDelete ⟨_, rfl, by decide +kernel, rfl⟩
  exact ⟨s, hrun, hother, (deleted_event_json_erased twoIds (fun _ => 0) hrun hhistory (by decide)
    (nofun) 0).1⟩

/-- A delete that crashes between the locators and the records, and is retried: the retry returns, and
    body and metadata are still there. -/
theorem retried_delete_keeps_body : ∃ s, Run (step twoIds) (Rooms fun _ => 0) System.start s ∧
      s.history.map Prod.snd = [true, false, true] ∧
      s.history.map (fun x => x.1.events) = [[0], [0], [0]] ∧ s.pending.isNone = true ∧
      getRow twoIds s.engine 0 = (none, none) ∧
      live (s.engine.get? (twoIds.room 0, twoIds.node 0)) = some [2] ∧
      live (s.engine.get? (twoIds.room 0, twoIds.metaNode 0)) = some [1] :=
  Run.exists_exec [.call (.put [⟨0, 0, [1], [2]⟩]) .asBuilt, .write, .write, .finish,
    .call (.delete [0]) .asBuilt, .write, .crash, .call (.delete [0]) .asBuilt, .write, .finish]
    (by decide +kernel)

end Sithnapse.EventJson
