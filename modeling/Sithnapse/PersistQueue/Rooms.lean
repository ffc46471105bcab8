import Mathlib.Logic.Function.Basic
import Sithnapse.Kit.Loop

/-! What the event persistence queue is for.

    Seen from outside, every room has a line of waiting items and at most one item in progress. A task that
    is added joins the last waiting item if the two can be merged and else becomes a new item at the end;
    the first waiting item is handed to the callback when nothing is in progress. `Ledger` says what then
    holds of any number of rooms at any time: nothing added is lost, doubled or overtaken, and whoever added
    a task waits for the item that carries it. -/

namespace Sithnapse.PersistQueue
open Kit List Function Option
open Function (update)

/-- `_PersistEventsTask` and `_UpdateCurrentStateTask`. -/
inductive Task (α : Type) where
  | persistEvents (eventsAndContexts : List α) (backfilled : Bool)
  | updateCurrentState
  deriving DecidableEq

/-- `self.try_merge(task)`: what `self` is afterwards, or `none` for `False`. -/
def Task.tryMerge {α : Type} : Task α → Task α → Option (Task α)
  | .persistEvents events backfilled, .persistEvents events' backfilled' =>
    if backfilled ≠ backfilled' then none else some (.persistEvents (events ++ events') backfilled)
  | .updateCurrentState, .updateCurrentState => some .updateCurrentState
  | _, _ => none

/-- The events of a task, each with the task's backfilled flag. -/
def Task.events {α : Type} : Task α → List (α × Bool)
  | .persistEvents events backfilled => events.map (·, backfilled)
  | .updateCurrentState => []

theorem Task.events_tryMerge {α : Type} {self task merged : Task α} (h : self.tryMerge task = some merged) :
    merged.events = self.events ++ task.events := by
  cases self with
  | persistEvents events backfilled =>
    cases task with
    | persistEvents events' backfilled' =>
      rw [Task.tryMerge] at h
      split at h
      · cases h
      · rename_i hb
        cases h
        rw [Task.events, Task.events, Task.events, map_append, not_ne_iff.mp hb]
    | updateCurrentState => cases h
  | updateCurrentState =>
    cases task with
    | persistEvents _ _ => cases h
    | updateCurrentState =>
      cases h
      rfl

theorem Task.events_backfilled {α : Type} (task : Task α) :
    ∃ backfilled, ∀ e ∈ task.events, e.2 = backfilled := by
  cases task with
  | persistEvents events backfilled =>
    refine ⟨backfilled, fun e he => ?_⟩
    obtain ⟨x, -, rfl⟩ := mem_map.mp he
    rfl
  | updateCurrentState => exact ⟨false, nofun⟩

/-- An item: its task, and its deferred once that has been resolved with a result or an error. -/
structure Item (α ρ : Type) where
  task : Task α
  deferred : Option ρ

/-- A call of `add_to_queue`, with the item whose deferred it waits for. -/
structure Added (R α : Type) where
  room : R
  task : Task α
  item : ℕ

/-- A call of the callback. -/
structure Handed (R α : Type) where
  room : R
  item : ℕ
  task : Task α

/-- All rooms, the items, and what has happened so far. -/
@[ext]
structure Rooms (R α ρ : Type) where
  waiting : R → List ℕ
  current : R → Option ℕ
  items : ℕ → Item α ρ
  newItem : ℕ
  added : List (Added R α)
  handed : List (Handed R α)
  completed : List (ℕ × ρ)

variable {R α ρ : Type} [DecidableEq R]

namespace Rooms

variable (b : Rooms R α ρ)

/-- A task joins a waiting item. -/
def merge (r : R) (task : Task α) (i : ℕ) (merged : Task α) : Rooms R α ρ :=
  { b with
    items := update b.items i { b.items i with task := merged }
    added := b.added ++ [⟨r, task, i⟩] }

/-- A task becomes a new item at the end of the line. -/
def append (r : R) (task : Task α) : Rooms R α ρ :=
  { b with
    waiting := update b.waiting r (b.waiting r ++ [b.newItem])
    items := update b.items b.newItem ⟨task, none⟩
    newItem := b.newItem + 1
    added := b.added ++ [⟨r, task, b.newItem⟩] }

/-- The first waiting item is handed to the callback. -/
def start (r : R) (i : ℕ) (rest : List ℕ) : Rooms R α ρ :=
  { b with
    waiting := update b.waiting r rest
    current := update b.current r (some i)
    handed := b.handed ++ [⟨r, i, (b.items i).task⟩] }

/-- The callback has returned or raised. -/
def complete (r : R) (i : ℕ) (outcome : ρ) : Rooms R α ρ :=
  { b with
    current := update b.current r none
    items := update b.items i { b.items i with deferred := some outcome }
    completed := b.completed ++ [(i, outcome)] }

omit [DecidableEq R] in
theorem merge_added (r : R) (task merged : Task α) (i : ℕ) :
    (b.merge r task i merged).added = b.added ++ [⟨r, task, i⟩] := rfl

theorem append_added (r : R) (task : Task α) : (b.append r task).added = b.added ++ [⟨r, task, b.newItem⟩] := rfl

theorem start_handed (r : R) (i : ℕ) (rest : List ℕ) :
    (b.start r i rest).handed = b.handed ++ [⟨r, i, (b.items i).task⟩] := rfl

/-- One move of one room. -/
inductive Step : Rooms R α ρ → Rooms R α ρ → Prop
  | merge {b : Rooms R α ρ} {r : R} {task merged : Task α} {i : ℕ} :
      (b.waiting r).getLast? = some i → (b.items i).task.tryMerge task = some merged →
      Step b (b.merge r task i merged)
  | append {b : Rooms R α ρ} (r : R) (task : Task α) : Step b (b.append r task)
  | start {b : Rooms R α ρ} {r : R} {i : ℕ} {rest : List ℕ} : b.current r = none →
      b.waiting r = i :: rest → Step b (b.start r i rest)
  | complete {b : Rooms R α ρ} {r : R} {i : ℕ} (outcome : ρ) : b.current r = some i →
      Step b (b.complete r i outcome)

/-- Nothing has been added. -/
def empty : Rooms R α ρ :=
  ⟨fun _ => [], fun _ => none, fun _ => ⟨.updateCurrentState, none⟩, 0, [], [], []⟩

end Rooms

/-- The books of the queue. -/
structure Ledger (b : Rooms R α ρ) : Prop where
  /-- Calls wait for items of their own room. -/
  known : ∀ c ∈ b.added, c.item < b.newItem
  sameRoom : ∀ c ∈ b.added, ∀ c' ∈ b.added, c.item = c'.item → c.room = c'.room
  /-- An item carries what was added to it, in order. -/
  carried : ∀ i < b.newItem, (∃ c ∈ b.added, c.item = i) ∧
    (b.items i).task.events = (b.added.filter (·.item = i)).flatMap (·.task.events)
  /-- Waiting items have not been handed out. -/
  waiting : ∀ r, ∀ i ∈ b.waiting r, (∃ c ∈ b.added, c.item = i ∧ c.room = r) ∧ i ∉ b.handed.map (·.item)
  waiting_nodup : ∀ r, (b.waiting r).Nodup
  /-- Items are handed out once, for the room they were added for, with all they carry. -/
  handed : ∀ h ∈ b.handed, (∃ c ∈ b.added, c.item = h.item ∧ c.room = h.room) ∧ h.task = (b.items h.item).task
  handed_nodup : (b.handed.map (·.item)).Nodup
  current : ∀ r i, b.current r = some i → (∃ h ∈ b.handed, h.item = i ∧ h.room = r) ∧
    (b.items i).deferred = none
  /-- Everything that was added waits or has been handed out, in the order it was added. -/
  order : ∀ r, (b.handed.filter (·.room = r)).flatMap (·.task.events) ++
    (b.waiting r).flatMap (fun i => (b.items i).task.events) =
      (b.added.filter (·.room = r)).flatMap (·.task.events)
  /-- An item waits, is in progress or is resolved. -/
  settled : ∀ i < b.newItem, (∃ r, i ∈ b.waiting r) ∨ (∃ r, b.current r = some i) ∨
    ∃ outcome, (b.items i).deferred = some outcome
  /-- Deferreds are resolved with the outcome of the callback for their item. -/
  resolved : ∀ i outcome, (b.items i).deferred = some outcome ↔ (i, outcome) ∈ b.completed
  completed : ∀ p ∈ b.completed, p.1 ∈ b.handed.map (·.item)
  completed_nodup : (b.completed.map Prod.fst).Nodup

theorem ledger_empty : Ledger (Rooms.empty : Rooms R α ρ) := by
  constructor <;> simp [Rooms.empty]

namespace Ledger

variable {b : Rooms R α ρ}

variable {r : R} {i : ℕ}

/-- Waiting items belong to one room only. -/
theorem room_of_waiting (h : Ledger b) {r' : R} (hr : i ∈ b.waiting r) (hr' : i ∈ b.waiting r') : r = r' := by
  obtain ⟨⟨c, hc, rfl, rfl⟩, -⟩ := h.waiting r i hr
  obtain ⟨⟨c', hc', hi, rfl⟩, -⟩ := h.waiting r' _ hr'
  exact h.sameRoom c hc c' hc' hi.symm

theorem waiting_lt (h : Ledger b) (hr : i ∈ b.waiting r) : i < b.newItem := by
  obtain ⟨⟨c, hc, rfl, -⟩, -⟩ := h.waiting r i hr
  exact h.known c hc

theorem handed_lt (h : Ledger b) {x : Handed R α} (hx : x ∈ b.handed) : x.item < b.newItem := by
  obtain ⟨⟨c, hc, hi, -⟩, -⟩ := h.handed x hx
  exact hi ▸ h.known c hc

/-- An item that has not been handed out is not resolved. -/
theorem deferred_of_not_handed (h : Ledger b) (hi : i ∉ b.handed.map (·.item)) : (b.items i).deferred = none :=
  eq_none_iff_forall_ne_some.mpr fun outcome ho => hi (h.completed _ ((h.resolved i outcome).mp ho))

theorem exists_mem_concat {β : Type} {l : List β} {P : β → Prop} (x : β) (h : ∃ c ∈ l, P c) :
    ∃ c ∈ l ++ [x], P c :=
  h.imp fun _ => And.imp_left (mem_append_left _)

variable (h : Ledger b)

include h

theorem merge {task merged : Task α}
    (hlast : (b.waiting r).getLast? = some i) (hmerge : (b.items i).task.tryMerge task = some merged) :
    Ledger (b.merge r task i merged) := by
  have hwait : i ∈ b.waiting r := mem_of_getLast? hlast
  obtain ⟨⟨c₀, hc₀, hi₀, hr₀⟩, hnot⟩ := h.waiting r i hwait
  have hevents := Task.events_tryMerge hmerge
  have hdef : ∀ j, ((b.merge r task i merged).items j).deferred = (b.items j).deferred := by
    intro j
    simp only [Rooms.merge, update_apply]
    split_ifs with hj
    · rw [hj]
    · rfl
  have htask : ∀ j, j ≠ i → ((b.merge r task i merged).items j).task = (b.items j).task := by
    intro j hj
    simp only [Rooms.merge, update_of_ne hj]
  have htaski : ((b.merge r task i merged).items i).task = merged := by
    simp only [Rooms.merge, update_self]
  refine ⟨?_, ?_, ?_, ?_, h.waiting_nodup, ?_, h.handed_nodup, ?_, ?_, ?_, ?_, h.completed, h.completed_nodup⟩
  · exact forall_mem_concat.mpr ⟨h.known, h.waiting_lt hwait⟩
  · -- the new call waits for an item of its room
    have hnew : ∀ c ∈ b.added, c.item = i → c.room = r := fun c hc hi =>
      (h.sameRoom c hc c₀ hc₀ (hi.trans hi₀.symm)).trans hr₀
    intro c hc c' hc' hi
    rcases mem_concat.mp hc with hc | rfl <;> rcases mem_concat.mp hc' with hc' | rfl
    · exact h.sameRoom c hc c' hc' hi
    · exact hnew c hc hi
    · exact (hnew c' hc' hi.symm).symm
    · rfl
  · intro j hj
    refine (h.carried j hj).imp (exists_mem_concat _) fun hcarried => ?_
    rw [Rooms.merge_added, filter_append, flatMap_append, ← hcarried]
    rcases eq_or_ne j i with rfl | hji
    · rw [htaski, hevents]
      simp
    · rw [htask j hji]
      simp [Ne.symm hji]
  · intro r' j hj
    exact (h.waiting r' j hj).imp_left (exists_mem_concat _)
  · intro x hx
    refine (h.handed x hx).imp (exists_mem_concat _) fun htx => ?_
    rw [htx, htask]
    rintro rfl
    exact hnot (mem_map_of_mem hx)
  · intro r' j hj
    rw [hdef]
    exact h.current r' j hj
  · intro r'
    rw [Rooms.merge_added, filter_append, flatMap_append, ← h.order r']
    by_cases hr : r' = r
    · -- the item is the last of its line, so what joins it comes last
      subst hr
      obtain ⟨pre, hpre⟩ := getLast?_eq_some_iff.mp hlast
      have hpre_ne : ∀ j ∈ pre, j ≠ i := by
        have hnd := h.waiting_nodup r'
        rw [hpre, nodup_append] at hnd
        exact fun j hj => hnd.2.2 j hj i (.head _)
      show _ ++ (b.waiting r').flatMap _ = _
      rw [hpre, flatMap_append, flatMap_append, flatMap_singleton, flatMap_singleton,
        htaski, hevents, flatMap_congr fun j hj => congrArg Task.events (htask j (hpre_ne j hj))]
      simp [Rooms.merge, append_assoc]
    · have hne : ∀ j ∈ b.waiting r', j ≠ i := by
        rintro j hj rfl
        exact hr (h.room_of_waiting hj hwait)
      show _ ++ (b.waiting r').flatMap _ = _
      rw [flatMap_congr fun j hj => congrArg Task.events (htask j (hne j hj))]
      simp [Rooms.merge, Ne.symm hr]
  · intro j hj
    rw [hdef]
    exact h.settled j hj
  · intro j outcome
    rw [hdef]
    exact h.resolved j outcome

theorem append (r : R) (task : Task α) : Ledger (b.append r task) := by
  have hold : ∀ j < b.newItem, (b.append r task).items j = b.items j := by
    intro j hj
    simp only [Rooms.append, update_of_ne hj.ne]
  have hnew : (b.append r task).items b.newItem = ⟨task, none⟩ := update_self ..
  have hwaiting : ∀ r' j, j ∈ (b.append r task).waiting r' ↔ j ∈ b.waiting r' ∨ (r' = r ∧ j = b.newItem) := by
    intro r' j
    simp only [Rooms.append, update_apply]
    split_ifs with hr
    · rw [hr, mem_append, mem_singleton]
      simp
    · simp [hr]
  have hfresh : ∀ c ∈ b.added, c.item ≠ b.newItem := fun c hc => (h.known c hc).ne
  have hnot : b.newItem ∉ b.handed.map (·.item) := by
    intro hi
    obtain ⟨x, hx, hxi⟩ := mem_map.mp hi
    exact (h.handed_lt hx).ne hxi
  refine ⟨?_, ?_, ?_, ?_, ?_, ?_, h.handed_nodup, ?_, ?_, ?_, ?_, h.completed, h.completed_nodup⟩
  · intro c hc
    rcases mem_concat.mp hc with hc | rfl
    · exact (h.known c hc).trans (Nat.lt_succ_self _)
    · exact Nat.lt_succ_self _
  · intro c hc c' hc' hi
    rcases mem_concat.mp hc with hc | rfl <;> rcases mem_concat.mp hc' with hc' | rfl
    · exact h.sameRoom c hc c' hc' hi
    · exact absurd hi (hfresh c hc)
    · exact absurd hi.symm (hfresh c' hc')
    · rfl
  · intro j hj
    rw [Rooms.append_added, filter_append, flatMap_append]
    rcases Nat.lt_succ_iff_lt_or_eq.mp hj with hj | rfl
    · refine (h.carried j hj).imp (exists_mem_concat _) fun hcarried => ?_
      rw [hold j hj, hcarried]
      simp [hj.ne']
    · refine ⟨⟨_, mem_concat_self, rfl⟩, ?_⟩
      have hnil : b.added.filter (·.item = b.newItem) = [] := by
        rw [filter_eq_nil_iff]
        exact fun c hc => by simpa using hfresh c hc
      rw [hnew, hnil]
      simp
  · intro r' j hj
    rcases (hwaiting r' j).mp hj with hj | ⟨rfl, rfl⟩
    · exact (h.waiting r' j hj).imp_left (exists_mem_concat _)
    · exact ⟨⟨_, mem_concat_self, rfl, rfl⟩, hnot⟩
  · intro r'
    simp only [Rooms.append, update_apply]
    split
    · rw [nodup_append]
      refine ⟨h.waiting_nodup r, nodup_singleton _, fun j hj j' hj' => ?_⟩
      rw [mem_singleton.mp hj']
      exact (h.waiting_lt hj).ne
    · exact h.waiting_nodup r'
  · intro x hx
    rw [hold _ (h.handed_lt hx)]
    exact (h.handed x hx).imp_left (exists_mem_concat _)
  · intro r' j hj
    obtain ⟨⟨x, hx, hxj, hxr⟩, hdef⟩ := h.current r' j hj
    rw [hold j (hxj ▸ h.handed_lt hx)]
    exact ⟨⟨x, hx, hxj, hxr⟩, hdef⟩
  · intro r'
    have hcongr : ∀ r'', (b.waiting r'').flatMap (fun j => ((b.append r task).items j).task.events) =
        (b.waiting r'').flatMap fun j => (b.items j).task.events := fun r'' =>
      flatMap_congr fun j hj => by rw [hold j (h.waiting_lt hj)]
    rw [Rooms.append_added, filter_append, flatMap_append, ← h.order r']
    rcases eq_or_ne r' r with rfl | hr
    · have hline : (b.append r' task).waiting r' = b.waiting r' ++ [b.newItem] := update_self ..
      rw [hline, flatMap_append, hcongr, flatMap_singleton, hnew]
      simp [Rooms.append, append_assoc]
    · have hline : (b.append r task).waiting r' = b.waiting r' := update_of_ne hr ..
      rw [hline, hcongr]
      simp [Rooms.append, Ne.symm hr]
  · intro j hj
    rcases Nat.lt_succ_iff_lt_or_eq.mp hj with hj | rfl
    · rw [hold j hj]
      rcases h.settled j hj with ⟨r', hr'⟩ | hrest
      · exact .inl ⟨r', (hwaiting r' j).mpr (.inl hr')⟩
      · exact .inr hrest
    · exact .inl ⟨r, (hwaiting r _).mpr (.inr ⟨rfl, rfl⟩)⟩
  · intro j outcome
    show _ ↔ (j, outcome) ∈ b.completed
    rw [← h.resolved j outcome]
    by_cases hj : j = b.newItem
    · rw [hj, hnew, h.deferred_of_not_handed hnot]
    · simp only [Rooms.append, update_of_ne hj]

theorem start {rest : List ℕ} (hidle : b.current r = none)
    (hline : b.waiting r = i :: rest) : Ledger (b.start r i rest) := by
  have hwait : i ∈ b.waiting r := by rw [hline]; exact (.head _)
  obtain ⟨hcall, hnot⟩ := h.waiting r i hwait
  have hnd := h.waiting_nodup r
  rw [hline, nodup_cons] at hnd
  have hsub : ∀ r' j, j ∈ (b.start r i rest).waiting r' → j ∈ b.waiting r' ∧ j ≠ i := by
    intro r' j hj
    simp only [Rooms.start, update_apply] at hj
    split_ifs at hj with hr
    · rw [hr, hline]
      exact ⟨mem_cons_of_mem _ hj, fun hji => hnd.1 (hji ▸ hj)⟩
    · refine ⟨hj, ?_⟩
      rintro rfl
      exact hr (h.room_of_waiting hj hwait)
  have hcur : ∀ r' j, (b.start r i rest).current r' = some j ↔
      (r' = r ∧ j = i) ∨ (r' ≠ r ∧ b.current r' = some j) := by
    intro r' j
    simp only [Rooms.start, update_apply]
    split_ifs with hr
    · simp [hr, eq_comm]
    · simp [hr]
  refine ⟨h.known, h.sameRoom, h.carried, ?_, ?_, ?_, ?_, ?_, ?_, ?_, h.resolved, ?_, h.completed_nodup⟩
  · intro r' j hj
    obtain ⟨hj, hji⟩ := hsub r' j hj
    refine ⟨(h.waiting r' j hj).1, ?_⟩
    rw [Rooms.start_handed, map_append, mem_append, not_or]
    exact ⟨(h.waiting r' j hj).2, by simpa using hji⟩
  · intro r'
    simp only [Rooms.start, update_apply]
    split
    · exact hnd.2
    · exact h.waiting_nodup r'
  · exact forall_mem_concat.mpr ⟨h.handed, hcall, rfl⟩
  · rw [Rooms.start_handed, map_append]
    exact nodup_append_singleton.mpr ⟨h.handed_nodup, hnot⟩
  · intro r' j hj
    rcases (hcur r' j).mp hj with ⟨rfl, rfl⟩ | ⟨-, hj⟩
    · exact ⟨⟨_, mem_concat_self, rfl, rfl⟩, h.deferred_of_not_handed hnot⟩
    · exact (h.current r' j hj).imp_left (exists_mem_concat _)
  · intro r'
    have horder := h.order r'
    rw [Rooms.start_handed, filter_append, flatMap_append]
    rcases eq_or_ne r' r with rfl | hr
    · have hrest : (b.start r' i rest).waiting r' = rest := update_self ..
      rw [hline] at horder
      rw [hrest]
      simpa [Rooms.start, append_assoc] using horder
    · have hrest : (b.start r i rest).waiting r' = b.waiting r' := update_of_ne hr ..
      rw [hrest]
      simpa [Rooms.start, Ne.symm hr] using horder
  · intro j hj
    rcases h.settled j hj with ⟨r', hr'⟩ | ⟨r', hr'⟩ | hres
    · by_cases hji : j = i
      · exact .inr (.inl ⟨r, (hcur r j).mpr (.inl ⟨rfl, hji⟩)⟩)
      · refine .inl ⟨r', ?_⟩
        simp only [Rooms.start, update_apply]
        split_ifs with hr
        · rw [hr, hline] at hr'
          exact (mem_cons.mp hr').resolve_left hji
        · exact hr'
    · refine .inr (.inl ⟨r', (hcur r' j).mpr (.inr ⟨?_, hr'⟩)⟩)
      rintro rfl
      rw [hidle] at hr'
      cases hr'
    · exact .inr (.inr hres)
  · intro p hp
    rw [Rooms.start_handed, map_append]
    exact mem_append_left _ (h.completed p hp)

theorem complete (outcome : ρ) (hrun : b.current r = some i) :
    Ledger (b.complete r i outcome) := by
  obtain ⟨⟨x₀, hx₀, hxi, hxr⟩, hdef⟩ := h.current r i hrun
  have htask : ∀ j, ((b.complete r i outcome).items j).task = (b.items j).task := by
    intro j
    simp only [Rooms.complete, update_apply]
    split_ifs with hj
    · rw [hj]
    · rfl
  have hdeferred : ∀ j, j ≠ i → ((b.complete r i outcome).items j).deferred = (b.items j).deferred := by
    intro j hj
    simp only [Rooms.complete, update_of_ne hj]
  have hdone : ((b.complete r i outcome).items i).deferred = some outcome := by
    simp only [Rooms.complete, update_self]
  have hcur : ∀ r' j, (b.complete r i outcome).current r' = some j → r' ≠ r ∧ b.current r' = some j := by
    intro r' j hj
    simp only [Rooms.complete, update_apply] at hj
    split at hj
    · cases hj
    · rename_i hr
      exact ⟨hr, hj⟩
  have hunres : ∀ o, (i, o) ∉ b.completed := by
    intro o ho
    have := (h.resolved i o).mpr ho
    rw [hdef] at this
    cases this
  refine ⟨h.known, h.sameRoom, ?_, h.waiting, h.waiting_nodup, ?_, h.handed_nodup, ?_, ?_, ?_, ?_, ?_, ?_⟩
  · intro j hj
    rw [htask]
    exact h.carried j hj
  · intro x hx
    rw [htask]
    exact h.handed x hx
  · intro r' j hj
    obtain ⟨hr, hj⟩ := hcur r' j hj
    obtain ⟨⟨x, hx, hxj, hxr'⟩, hdef'⟩ := h.current r' j hj
    refine ⟨⟨x, hx, hxj, hxr'⟩, ?_⟩
    rw [hdeferred]
    · exact hdef'
    · -- an item is in progress in the room it was added for
      rintro rfl
      obtain rfl : x = x₀ := inj_on_of_nodup_map h.handed_nodup hx hx₀ (hxj.trans hxi.symm)
      exact hr (hxr'.symm.trans hxr)
  · intro r'
    simp only [htask]
    exact h.order r'
  · intro j hj
    by_cases hji : j = i
    · rw [hji]
      exact .inr (.inr ⟨outcome, hdone⟩)
    · rw [hdeferred j hji]
      rcases h.settled j hj with hw | ⟨r', hr'⟩ | hres
      · exact .inl hw
      · refine .inr (.inl ⟨r', (update_of_ne ?_ ..).trans hr'⟩)
        rintro rfl
        exact hji (mem_unique hr' hrun)
      · exact .inr (.inr hres)
  · intro j o
    show _ ↔ (j, o) ∈ b.completed ++ [(i, outcome)]
    rw [mem_append, mem_singleton, Prod.mk.injEq]
    by_cases hji : j = i
    · rw [hji, hdone, some.injEq]
      constructor
      · rintro rfl
        exact .inr ⟨rfl, rfl⟩
      · rintro (ho | ⟨-, rfl⟩)
        · exact absurd ho (hunres o)
        · rfl
    · rw [hdeferred j hji, h.resolved]
      simp [hji]
  · refine forall_mem_concat.mpr ⟨h.completed, ?_⟩
    rw [← hxi]
    exact mem_map_of_mem hx₀
  · show ((b.completed ++ [(i, outcome)]).map Prod.fst).Nodup
    rw [map_append]
    refine nodup_append_singleton.mpr ⟨h.completed_nodup, fun hi => ?_⟩
    obtain ⟨⟨j, o⟩, hp, rfl⟩ := mem_map.mp hi
    exact hunres o hp

/-- Every move of every room keeps the books. -/
theorem step {b' : Rooms R α ρ} (hs : Rooms.Step b b') : Ledger b' := by
  cases hs with
  | merge hlast hmerge => exact h.merge hlast hmerge
  | append r task => exact h.append r task
  | start hidle hline => exact h.start hidle hline
  | complete outcome hrun => exact h.complete outcome hrun

end Ledger

end Sithnapse.PersistQueue
