import Sithnapse.Kit.Refs
import Sithnapse.Kit.Runs
import Sithnapse.PersistQueue.Rooms

/-! `_EventPeristenceQueue`.

    The queues are deques found through a dictionary; the loop that handles a room looks its deque up once
    and then drains that object, while later calls look the room up again. A step is what runs without
    giving up control: a call of `add_to_queue` up to the point where it waits, the loop up to the next
    call of the callback or to its end, the completion of a callback. Calls made from callbacks of finished
    items, and callbacks that complete at once, are steps that follow each other directly. Every step is a
    move of the rooms or changes nothing in them (`step_refines`). -/

namespace Sithnapse.PersistQueue

open Kit Kit.Dict List Function Option

variable {R α ρ : Type} [DecidableEq R]

/-- A running `handle_queue_loop`: the deque its generator drains, once it has looked it up, and the item
    whose callback it waits for. -/
structure Loop (R : Type) where
  room : R
  queue : Option ℕ
  item : Option ℕ

/-- The queue with its deques, items and loops on a heap, and what has happened so far. -/
structure Queue (R α ρ : Type) where
  eventPersistQueues : Dict R ℕ
  currentlyPersistingRooms : List R
  deques : ℕ → List ℕ
  items : ℕ → Item α ρ
  loops : ℕ → Option (Loop R)
  newDeque : ℕ
  newItem : ℕ
  newLoop : ℕ
  added : List (Added R α)
  handed : List (Handed R α)
  completed : List (ℕ × ρ)

namespace Queue

variable (q : Queue R α ρ)

/-- `self._event_persist_queues.setdefault(room_id, deque())`. -/
def setdefault (r : R) : ℕ × Queue R α ρ :=
  match q.eventPersistQueues.get? r with
  | some d => (d, q)
  | none =>
    (q.newDeque, { q with
      eventPersistQueues := q.eventPersistQueues.set r q.newDeque
      deques := update q.deques q.newDeque []
      newDeque := q.newDeque + 1 })

/-- `_handle_queue`: start a loop unless there is one. -/
def handleQueue (r : R) : Queue R α ρ :=
  if r ∈ q.currentlyPersistingRooms then q
  else
    { q with
      currentlyPersistingRooms := q.currentlyPersistingRooms ++ [r]
      loops := update q.loops q.newLoop (some ⟨r, none, none⟩)
      newLoop := q.newLoop + 1 }

/-- `add_to_queue`, up to the point where it waits for the item's deferred. -/
def addToQueue (r : R) (task : Task α) : Queue R α ρ :=
  let (d, q) := q.setdefault r
  match (q.deques d).getLast?.bind fun i => ((q.items i).task.tryMerge task).map (i, ·) with
  | some (i, merged) =>
    handleQueue { q with
      items := update q.items i { q.items i with task := merged }
      added := q.added ++ [⟨r, task, i⟩] } r
  | none =>
    handleQueue { q with
      items := update q.items q.newItem ⟨task, none⟩
      deques := update q.deques d (q.deques d ++ [q.newItem])
      newItem := q.newItem + 1
      added := q.added ++ [⟨r, task, q.newItem⟩] } r

/-- The `finally` block. -/
def endLoop (l : ℕ) (r : R) : Queue R α ρ :=
  let popped := q.eventPersistQueues.filter (· ≠ r)
  { q with
    eventPersistQueues :=
      match q.eventPersistQueues.get? r with
      | none => popped
      | some d => if q.deques d = [] then popped else popped.set r d
    currentlyPersistingRooms := q.currentlyPersistingRooms.filter (· ≠ r)
    loops := update q.loops l none }

/-- The deque a loop's generator drains: looked up when it starts. -/
def getDrainingQueue (r : R) : Option ℕ → ℕ × Queue R α ρ
  | some d => (d, q)
  | none => q.setdefault r

/-- The loop goes on: it takes the next item off its deque and calls the callback, or ends. -/
def advance (l : ℕ) (r : R) (queue : Option ℕ) : Queue R α ρ :=
  let (d, q) := q.getDrainingQueue r queue
  match q.deques d with
  | [] => q.endLoop l r
  | i :: rest =>
    { q with
      deques := update q.deques d rest
      loops := update q.loops l (some ⟨r, some d, some i⟩)
      handed := q.handed ++ [⟨r, i, (q.items i).task⟩] }

/-- The callback of a loop's item has returned or raised: the item's deferred is resolved. -/
def resolve (l : ℕ) (r : R) (queue : Option ℕ) (i : ℕ) (outcome : ρ) : Queue R α ρ :=
  { q with
    items := update q.items i { q.items i with deferred := some outcome }
    loops := update q.loops l (some ⟨r, queue, none⟩)
    completed := q.completed ++ [(i, outcome)] }

/-- A queue nothing was added to. -/
def empty : Queue R α ρ :=
  ⟨Dict.empty, [], fun _ => [], fun _ => ⟨.updateCurrentState, none⟩, fun _ => none, 0, 0, 0, [], [], []⟩

end Queue

/-- What can happen. -/
inductive Action (R α ρ : Type) where
  | add (room : R) (task : Task α)
  | advance (loop : ℕ)
  | complete (loop : ℕ) (outcome : ρ)

variable (q : Queue R α ρ)

/-- One step; a loop advances while no callback of its runs. -/
def step : Action R α ρ → Option (Queue R α ρ)
  | .add r task => some (q.addToQueue r task)
  | .advance l =>
    match q.loops l with
    | some ⟨r, queue, none⟩ => some (q.advance l r queue)
    | _ => none
  | .complete l outcome =>
    match q.loops l with
    | some ⟨r, queue, some i⟩ => some (q.resolve l r queue i outcome)
    | _ => none

/-! ### How queues, loops and rooms hang together -/

/-- A room has a deque as long as it has a loop, and one loop at most; the loop drains that deque. -/
structure Wired (q : Queue R α ρ) : Prop where
  served : ∀ r, (∃ d, q.eventPersistQueues.get? r = some d) ↔ ∃ l a, q.loops l = some a ∧ a.room = r
  persisting : ∀ r, r ∈ q.currentlyPersistingRooms ↔ ∃ l a, q.loops l = some a ∧ a.room = r
  one : ∀ l l' a a', q.loops l = some a → q.loops l' = some a' → a.room = a'.room → l = l'
  own : ∀ l a d, q.loops l = some a → a.queue = some d → q.eventPersistQueues.get? a.room = some d
  apart : ∀ r r' d, q.eventPersistQueues.get? r = some d → q.eventPersistQueues.get? r' = some d → r = r'
  deque_lt : ∀ r d, q.eventPersistQueues.get? r = some d → d < q.newDeque
  loop_lt : ∀ l a, q.loops l = some a → l < q.newLoop

/-- The items waiting for a room. -/
def Queue.waiting (r : R) : List ℕ :=
  match q.eventPersistQueues.get? r with
  | some d => q.deques d
  | none => []

open Classical in
/-- The item in progress in a room. -/
noncomputable def Queue.current (r : R) : Option ℕ :=
  if h : ∃ p : ℕ × Loop R, q.loops p.1 = some p.2 ∧ p.2.room = r then h.choose.2.item else none

/-- The rooms as this queue has them. -/
noncomputable def Queue.rooms : Rooms R α ρ :=
  ⟨q.waiting, q.current, q.items, q.newItem, q.added, q.handed, q.completed⟩

section Reading

variable {q : Queue R α ρ}

theorem Queue.waiting_of_get? {r : R} {d : ℕ} (h : q.eventPersistQueues.get? r = some d) :
    q.waiting r = q.deques d := by
  rw [Queue.waiting, h]

theorem Queue.waiting_of_none {r : R} (h : q.eventPersistQueues.get? r = none) : q.waiting r = [] := by
  rw [Queue.waiting, h]

omit [DecidableEq R] in
theorem Queue.current_of_none {r : R} (h : ¬ ∃ l a, q.loops l = some a ∧ a.room = r) :
    q.current r = none := dif_neg fun ⟨p, hp⟩ => h ⟨p.1, p.2, hp⟩

end Reading

/-! ### One step -/

namespace Wired

variable {q : Queue R α ρ}

variable {a : Loop R} {l : ℕ}

variable (h : Wired q)

include h

theorem get?_of_loop (hl : q.loops l = some a) :
    ∃ d, q.eventPersistQueues.get? a.room = some d := (h.served a.room).mpr ⟨l, a, hl, rfl⟩

theorem not_served {r : R} (hget : q.eventPersistQueues.get? r = none) :
    ¬ ∃ l a, q.loops l = some a ∧ a.room = r := by
  rw [← h.served, hget]
  simp

theorem current_eq (hl : q.loops l = some a) : q.current a.room = a.item := by
  have hex : ∃ p : ℕ × Loop R, q.loops p.1 = some p.2 ∧ p.2.room = a.room := ⟨(l, a), hl, rfl⟩
  rw [Queue.current, dif_pos hex]
  obtain ⟨hloop, hroom⟩ := hex.choose_spec
  rw [h.one _ _ _ _ hloop hl hroom] at hloop
  rw [mem_unique hloop hl]

theorem current_eq_some {r : R} {i : ℕ} :
    q.current r = some i ↔ ∃ l a, q.loops l = some a ∧ a.room = r ∧ a.item = some i := by
  by_cases hex : ∃ l a, q.loops l = some a ∧ a.room = r
  · obtain ⟨l, a, hl, rfl⟩ := hex
    rw [h.current_eq hl]
    refine ⟨fun hi => ⟨l, a, hl, rfl, hi⟩, ?_⟩
    rintro ⟨l', a', hl', hr, hi⟩
    obtain rfl := h.one l' l a' a hl' hl hr
    rwa [mem_unique hl hl']
  · rw [Queue.current_of_none hex]
    exact ⟨nofun, fun ⟨l, a, hl, hr, _⟩ => absurd ⟨l, a, hl, hr⟩ hex⟩

/-- A new call finds the deque of the room's loop, or there is neither. -/
theorem addToQueue_cases (r : R) (task : Task α) :
    (∃ d i merged, q.eventPersistQueues.get? r = some d ∧ (q.deques d).getLast? = some i ∧
      (q.items i).task.tryMerge task = some merged ∧
      q.addToQueue r task = { q with
        items := update q.items i { q.items i with task := merged }
        added := q.added ++ [⟨r, task, i⟩] }) ∨
    (∃ d, q.eventPersistQueues.get? r = some d ∧
      q.addToQueue r task = { q with
        items := update q.items q.newItem ⟨task, none⟩
        deques := update q.deques d (q.deques d ++ [q.newItem])
        newItem := q.newItem + 1
        added := q.added ++ [⟨r, task, q.newItem⟩] }) ∨
    (q.eventPersistQueues.get? r = none ∧
      q.addToQueue r task = { q with
        eventPersistQueues := q.eventPersistQueues.set r q.newDeque
        currentlyPersistingRooms := q.currentlyPersistingRooms ++ [r]
        deques := update q.deques q.newDeque [q.newItem]
        items := update q.items q.newItem ⟨task, none⟩
        loops := update q.loops q.newLoop (some ⟨r, none, none⟩)
        newDeque := q.newDeque + 1
        newItem := q.newItem + 1
        newLoop := q.newLoop + 1
        added := q.added ++ [⟨r, task, q.newItem⟩] }) := by
  cases hget : q.eventPersistQueues.get? r with
  | some d =>
    have hper : r ∈ q.currentlyPersistingRooms := (h.persisting r).mpr ((h.served r).mp ⟨d, hget⟩)
    have hset : q.setdefault r = (d, q) := by rw [Queue.setdefault, hget]
    rw [Queue.addToQueue, hset]
    simp only
    split
    · rename_i i merged hbind
      obtain ⟨i', hlast, hmap⟩ := bind_eq_some_iff.mp hbind
      obtain ⟨merged', hmerge, heq⟩ := map_eq_some_iff.mp hmap
      obtain ⟨rfl, rfl⟩ := Prod.mk.inj heq
      exact .inl ⟨d, i', merged', rfl, hlast, hmerge, if_pos hper⟩
    · exact .inr (.inl ⟨d, rfl, if_pos hper⟩)
  | none =>
    have hper : r ∉ q.currentlyPersistingRooms := fun hc => h.not_served hget ((h.persisting r).mp hc)
    refine .inr (.inr ⟨rfl, ?_⟩)
    rw [Queue.addToQueue, Queue.setdefault, hget]
    simp only [update_self, getLast?_nil, bind_none, Queue.handleQueue, if_neg hper, nil_append, update_idem]

/-- A loop finds the deque that new calls find. -/
theorem advance_cases {r : R} {queue : Option ℕ} (hl : q.loops l = some ⟨r, queue, none⟩) :
    ∃ d, q.eventPersistQueues.get? r = some d ∧
      ((q.deques d = [] ∧ q.advance l r queue = { q with
        eventPersistQueues := q.eventPersistQueues.filter (· ≠ r)
        currentlyPersistingRooms := q.currentlyPersistingRooms.filter (· ≠ r)
        loops := update q.loops l none }) ∨
      ∃ i rest, q.deques d = i :: rest ∧ q.advance l r queue = { q with
        deques := update q.deques d rest
        loops := update q.loops l (some ⟨r, some d, some i⟩)
        handed := q.handed ++ [⟨r, i, (q.items i).task⟩] }) := by
  obtain ⟨d, hget⟩ := h.get?_of_loop hl
  have hfound : q.getDrainingQueue r queue = (d, q) := by
    cases queue with
    | none => rw [Queue.getDrainingQueue, Queue.setdefault, show q.eventPersistQueues.get? r = some d from hget]
    | some d' =>
      have hown : q.eventPersistQueues.get? r = some d' := h.own l _ d' hl rfl
      rw [Queue.getDrainingQueue, mem_unique hown hget]
  refine ⟨d, hget, ?_⟩
  rw [Queue.advance, hfound]
  simp only
  cases hdeque : q.deques d with
  | nil =>
    refine .inl ⟨rfl, ?_⟩
    simp only [Queue.endLoop, show q.eventPersistQueues.get? r = some d from hget, hdeque, if_true]
  | cons i rest => exact .inr ⟨i, rest, rfl, rfl⟩

/-- A loop's record changes, its room does not. -/
theorem reloop (a' : Loop R) (hl : q.loops l = some a) (hroom : a'.room = a.room)
    (hown : ∀ d, a'.queue = some d → q.eventPersistQueues.get? a.room = some d) :
    Wired { q with loops := update q.loops l (some a') } := by
  have hloops : ∀ l' b, update q.loops l (some a') l' = some b →
      ∃ b', q.loops l' = some b' ∧ b'.room = b.room ∧
        ∀ d, b.queue = some d → q.eventPersistQueues.get? b.room = some d := by
    intro l' b hb
    by_cases hl' : l' = l
    · subst hl'
      rw [update_self, some.injEq] at hb
      subst hb
      exact ⟨a, hl, hroom.symm, fun d hd => hroom ▸ hown d hd⟩
    · rw [update_of_ne hl'] at hb
      exact ⟨b, hb, rfl, fun d hd => h.own l' b d hb hd⟩
  have hex : ∀ r, (∃ l' b, update q.loops l (some a') l' = some b ∧ b.room = r) ↔
      ∃ l' b, q.loops l' = some b ∧ b.room = r := by
    intro r
    constructor
    · rintro ⟨l', b, hb, rfl⟩
      obtain ⟨b', hb', hr, -⟩ := hloops l' b hb
      exact ⟨l', b', hb', hr⟩
    · rintro ⟨l', b, hb, rfl⟩
      by_cases hl' : l' = l
      · subst hl'
        rw [hl, some.injEq] at hb
        exact ⟨l', a', update_self .., by rw [hroom, hb]⟩
      · exact ⟨l', b, by rw [update_of_ne hl']; exact hb, rfl⟩
  refine ⟨fun r => (h.served r).trans (hex r).symm, fun r => (h.persisting r).trans (hex r).symm, ?_, ?_,
    h.apart, h.deque_lt, ?_⟩
  · intro l₁ l₂ b₁ b₂ h₁ h₂ hr
    obtain ⟨b₁', h₁', hr₁, -⟩ := hloops l₁ b₁ h₁
    obtain ⟨b₂', h₂', hr₂, -⟩ := hloops l₂ b₂ h₂
    exact h.one l₁ l₂ b₁' b₂' h₁' h₂' (hr₁.trans (hr.trans hr₂.symm))
  · intro l' b d hb hd
    obtain ⟨-, -, -, hq⟩ := hloops l' b hb
    exact hq d hd
  · intro l' b hb
    obtain ⟨b', hb', -⟩ := hloops l' b hb
    exact h.loop_lt l' b' hb'

/-- The first call for a room. -/
theorem firstCall {r : R} (hget : q.eventPersistQueues.get? r = none) : Wired { q with
      eventPersistQueues := q.eventPersistQueues.set r q.newDeque
      currentlyPersistingRooms := q.currentlyPersistingRooms ++ [r]
      loops := update q.loops q.newLoop (some ⟨r, none, none⟩)
      newDeque := q.newDeque + 1
      newLoop := q.newLoop + 1 } := by
  have hnoloop : ∀ l a, q.loops l = some a → a.room ≠ r := fun l a hl hr => h.not_served hget ⟨l, a, hl, hr⟩
  have hloops : ∀ l a, update q.loops q.newLoop (some ⟨r, none, none⟩) l = some a ↔
      (l = q.newLoop ∧ a = ⟨r, none, none⟩) ∨ q.loops l = some a := by
    intro l a
    rw [update_apply]
    split_ifs with hl
    · rw [some.injEq]
      refine ⟨fun ha => .inl ⟨hl, ha.symm⟩, ?_⟩
      rintro (⟨-, rfl⟩ | ha)
      · rfl
      · exact absurd (h.loop_lt l a ha) (by omega)
    · simp [hl]
  have hex : ∀ r', (∃ l a, update q.loops q.newLoop (some ⟨r, none, none⟩) l = some a ∧
      a.room = r') ↔ r' = r ∨ ∃ l a, q.loops l = some a ∧ a.room = r' := by
    intro r'
    constructor
    · rintro ⟨l, a, ha, rfl⟩
      rcases (hloops l a).mp ha with ⟨-, rfl⟩ | ha
      · exact .inl rfl
      · exact .inr ⟨l, a, ha, rfl⟩
    · rintro (rfl | ⟨l, a, ha, rfl⟩)
      · exact ⟨q.newLoop, _, (hloops _ _).mpr (.inl ⟨rfl, rfl⟩), rfl⟩
      · exact ⟨l, a, (hloops l a).mpr (.inr ha), rfl⟩
  have hdict : ∀ r' d, (q.eventPersistQueues.set r q.newDeque).get? r' = some d →
      (r' = r ∧ d = q.newDeque) ∨ (r' ≠ r ∧ q.eventPersistQueues.get? r' = some d) := by
    intro r' d hd
    rw [get?_set] at hd
    split_ifs at hd with hr
    · exact .inl ⟨hr, (some.inj hd).symm⟩
    · exact .inr ⟨hr, hd⟩
  refine ⟨fun r' => ?_, fun r' => ?_, ?_, ?_, ?_, ?_, ?_⟩
  · rw [hex, ← h.served]
    simp only [get?_set]
    by_cases hr : r' = r <;> simp [hr]
  · rw [hex, ← h.persisting, mem_append, mem_singleton, or_comm]
  · intro l l' a a' ha ha' hr
    rcases (hloops l a).mp ha with ⟨rfl, rfl⟩ | ha <;> rcases (hloops l' a').mp ha' with ⟨rfl, rfl⟩ | ha'
    · rfl
    · exact absurd hr.symm (hnoloop l' a' ha')
    · exact absurd hr (hnoloop l a ha)
    · exact h.one l l' a a' ha ha' hr
  · intro l a d ha hd
    rcases (hloops l a).mp ha with ⟨rfl, rfl⟩ | ha
    · cases hd
    · rw [get?_set_ne _ _ (hnoloop l a ha)]
      exact h.own l a d ha hd
  · intro r₁ r₂ d h₁ h₂
    rcases hdict r₁ d h₁ with ⟨hr₁, hd₁⟩ | ⟨-, h₁'⟩ <;>
      rcases hdict r₂ d h₂ with ⟨hr₂, hd₂⟩ | ⟨-, h₂'⟩
    · rw [hr₁, hr₂]
    · exact absurd (h.deque_lt r₂ d h₂') (by omega)
    · exact absurd (h.deque_lt r₁ d h₁') (by omega)
    · exact h.apart r₁ r₂ d h₁' h₂'
  · intro r' d hd
    rcases hdict r' d hd with ⟨-, rfl⟩ | ⟨-, hd⟩
    · exact Nat.lt_succ_self _
    · exact (h.deque_lt r' d hd).trans (Nat.lt_succ_self _)
  · intro l a ha
    rcases (hloops l a).mp ha with ⟨rfl, -⟩ | ha
    · exact Nat.lt_succ_self _
    · exact (h.loop_lt l a ha).trans (Nat.lt_succ_self _)

/-- A loop ends and takes its room's entry along. -/
theorem ended (hl : q.loops l = some a) : Wired { q with
      eventPersistQueues := q.eventPersistQueues.filter (· ≠ a.room)
      currentlyPersistingRooms := q.currentlyPersistingRooms.filter (· ≠ a.room)
      loops := update q.loops l none } := by
  have hloops : ∀ l' b, update q.loops l none l' = some b ↔
      q.loops l' = some b ∧ b.room ≠ a.room := by
    intro l' b
    rw [update_apply]
    split_ifs with hl'
    · subst hl'
      refine ⟨nofun, fun ⟨hb, hr⟩ => ?_⟩
      rw [hl, some.injEq] at hb
      exact absurd (congrArg Loop.room hb.symm) hr
    · refine ⟨fun hb => ⟨hb, fun hr => hl' (h.one l' l b a hb hl hr)⟩, fun hb => hb.1⟩
  have hex : ∀ r, (∃ l' b, update q.loops l none l' = some b ∧ b.room = r) ↔
      r ≠ a.room ∧ ∃ l' b, q.loops l' = some b ∧ b.room = r := by
    intro r
    constructor
    · rintro ⟨l', b, hb, rfl⟩
      obtain ⟨hb, hr⟩ := (hloops l' b).mp hb
      exact ⟨hr, l', b, hb, rfl⟩
    · rintro ⟨hr, l', b, hb, rfl⟩
      exact ⟨l', b, (hloops l' b).mpr ⟨hb, hr⟩, rfl⟩
  have hdict : ∀ r d, (q.eventPersistQueues.filter (· ≠ a.room)).get? r = some d ↔
      r ≠ a.room ∧ q.eventPersistQueues.get? r = some d := by
    intro r d
    rw [get?_filter]
    by_cases hr : r = a.room <;> simp [hr]
  refine ⟨fun r => ?_, fun r => ?_, ?_, ?_, ?_, ?_, ?_⟩
  · rw [hex, ← h.served]
    simp only [hdict, exists_and_left]
  · rw [hex, ← h.persisting, mem_filter, decide_eq_true_eq, and_comm]
  · intro l₁ l₂ b₁ b₂ h₁ h₂ hr
    exact h.one l₁ l₂ b₁ b₂ ((hloops l₁ b₁).mp h₁).1 ((hloops l₂ b₂).mp h₂).1 hr
  · intro l' b d hb hd
    obtain ⟨hb, hr⟩ := (hloops l' b).mp hb
    exact (hdict b.room d).mpr ⟨hr, h.own l' b d hb hd⟩
  · exact fun r₁ r₂ d h₁ h₂ => h.apart r₁ r₂ d ((hdict r₁ d).mp h₁).2 ((hdict r₂ d).mp h₂).2
  · exact fun r d hd => h.deque_lt r d ((hdict r d).mp hd).2
  · exact fun l' b hb => h.loop_lt l' b ((hloops l' b).mp hb).1

/-! ### The item in progress -/

variable {q' : Queue R α ρ}

/-- Writing a loop's record sets what is in progress in its room. -/
theorem current_update (h' : Wired q')
    (hloops : q'.loops = update q.loops l (some a))
    (hold : ∀ b, q.loops l = some b → b.room = a.room) :
    q'.current = update q.current a.room a.item := by
  funext r
  by_cases hr : r = a.room
  · rw [hr, update_self]
    exact h'.current_eq (by rw [hloops, update_self])
  · rw [update_of_ne hr]
    refine Option.ext fun i => ?_
    rw [h'.current_eq_some, h.current_eq_some]
    refine exists₂_congr fun l' b => and_congr_left fun hb => ?_
    rw [hloops, update_apply]
    split_ifs with hl'
    · subst hl'
      refine ⟨fun hab => ?_, fun hqb => ?_⟩
      · exact absurd (hb.1.symm.trans (congrArg Loop.room (some.inj hab).symm)) hr
      · exact absurd (hb.1.symm.trans (hold b hqb)) hr
    · exact Iff.rfl

/-- A loop that waits for no callback ends: nothing changes in what is in progress. -/
theorem current_remove (h' : Wired q')
    (hloops : q'.loops = update q.loops l none) (hl : q.loops l = some a) (hitem : a.item = none) :
    q'.current = q.current := by
  refine funext fun r => Option.ext fun i => ?_
  rw [h'.current_eq_some, h.current_eq_some]
  refine exists₂_congr fun l' b => and_congr_left fun hb => ?_
  rw [hloops, update_apply]
  split_ifs with hl'
  · refine ⟨nofun, fun hqb => ?_⟩
    rw [hl', hl, some.injEq] at hqb
    rw [← hqb, hitem] at hb
    cases hb.2
  · exact Iff.rfl

/-- Writing a room's deque changes the items waiting for this room only. -/
theorem waiting_update {r : R} {d : ℕ} (hget : q.eventPersistQueues.get? r = some d)
    (hdict : q'.eventPersistQueues = q.eventPersistQueues) {line : List ℕ}
    (hdeques : q'.deques = update q.deques d line) :
    q'.waiting = update q.waiting r line := by
  funext r'
  by_cases hr : r' = r
  · rw [hr, update_self, Queue.waiting_of_get? (hdict ▸ hget), hdeques, update_self]
  · rw [update_of_ne hr, Queue.waiting, Queue.waiting, hdict]
    cases hget' : q.eventPersistQueues.get? r' with
    | none => rfl
    | some d' =>
      simp only
      rw [hdeques, update_of_ne]
      rintro rfl
      exact hr (h.apart r' r d' hget' hget)

end Wired

/-! ### Refinement -/

/-- The wiring is kept, and the rooms make a move or stay as they are. -/
def Refines (q q' : Queue R α ρ) : Prop := Wired q' ∧ (Rooms.Step q.rooms q'.rooms ∨ q'.rooms = q.rooms)

variable {q q' : Queue R α ρ} {a : Action R α ρ}

theorem addToQueue_refines (h : Wired q) {r : R} {task : Task α}
    (hadd : q' = q.addToQueue r task) : Refines q q' := by
  rcases h.addToQueue_cases r task with ⟨d, i, merged, hget, hlast, hmerge, heq⟩ | ⟨d, hget, heq⟩ |
    ⟨hget, heq⟩
  · have hq := hadd.trans heq
    refine ⟨?_, .inl ?_⟩
    · subst hq
      exact { h with }
    · have hline : (q.rooms.waiting r).getLast? = some i := by
        rw [← hlast, ← Queue.waiting_of_get? hget]
        rfl
      have hrooms : q'.rooms = q.rooms.merge r task i merged := by
        subst hq
        rfl
      rw [hrooms]
      exact .merge hline hmerge
  · have hq := hadd.trans heq
    refine ⟨?_, .inl ?_⟩
    · subst hq
      exact { h with }
    · have hwaiting : q'.waiting = update q.waiting r (q.waiting r ++ [q.newItem]) := by
        rw [Queue.waiting_of_get? hget]
        exact h.waiting_update hget (by rw [hq]) (by rw [hq])
      have hrooms : q'.rooms = q.rooms.append r task := by
        refine Rooms.ext hwaiting ?_ ?_ ?_ ?_ ?_ ?_
        all_goals subst hq; rfl
      rw [hrooms]
      exact .append r task
  · have hq := hadd.trans heq
    have hwired : Wired q' := by
      have hfirst := h.firstCall hget
      subst hq
      exact { hfirst with }
    have hnone : q.loops q.newLoop = none := eq_none_iff_forall_ne_some.mpr fun a ha =>
      absurd (h.loop_lt _ a ha) (lt_irrefl _)
    have hcurrent : q'.current = q.current := by
      have hidle : q.current r = none := Queue.current_of_none (h.not_served hget)
      rw [h.current_update hwired (by rw [hq]) fun b hb => by
        rw [hnone] at hb
        cases hb]
      exact update_eq_self_iff.mpr hidle.symm
    have hwaiting : q'.waiting = update q.waiting r (q.waiting r ++ [q.newItem]) := by
      have hdict : q'.eventPersistQueues = q.eventPersistQueues.set r q.newDeque := by rw [hq]
      have hdeques : q'.deques = update q.deques q.newDeque [q.newItem] := by rw [hq]
      funext r'
      by_cases hr : r' = r
      · rw [hr, update_self, Queue.waiting_of_none hget,
          Queue.waiting_of_get? (by rw [hdict, get?_set_self]), hdeques,
          update_self]
        rfl
      · rw [update_of_ne hr, Queue.waiting, Queue.waiting, hdict, get?_set_ne _ _ hr]
        cases hget' : q.eventPersistQueues.get? r' with
        | none => rfl
        | some d =>
          simp only
          rw [hdeques, update_of_ne (h.deque_lt r' d hget').ne]
    refine ⟨hwired, .inl ?_⟩
    have hrooms : q'.rooms = q.rooms.append r task := by
      refine Rooms.ext hwaiting hcurrent ?_ ?_ ?_ ?_ ?_
      all_goals subst hq; rfl
    rw [hrooms]
    exact .append r task

theorem advance_refines (h : Wired q) {l : ℕ} {r : R} {queue : Option ℕ}
    (hl : q.loops l = some ⟨r, queue, none⟩) (hadv : q' = q.advance l r queue) : Refines q q' := by
  obtain ⟨d, hget, ⟨hempty, heq⟩ | ⟨i, rest, hline, heq⟩⟩ := h.advance_cases hl
  · have hq := hadv.trans heq
    have hwired : Wired q' := by
      subst hq
      exact h.ended hl
    refine ⟨hwired, .inr ?_⟩
    have hwaiting : q'.waiting = q.waiting := by
      funext r'
      by_cases hr : r' = r
      · rw [hr, Queue.waiting_of_get? hget, hempty, Queue.waiting_of_none]
        rw [hq, get?_filter]
        simp
      · rw [Queue.waiting, Queue.waiting, hq, get?_filter]
        simp [hr]
    have hcurrent : q'.current = q.current := h.current_remove hwired (by rw [hq]) hl rfl
    refine Rooms.ext hwaiting hcurrent ?_ ?_ ?_ ?_ ?_
    all_goals subst hq; rfl
  · have hq := hadv.trans heq
    have hwired : Wired q' := by
      have hre := h.reloop ⟨r, some d, some i⟩ hl rfl fun d' hd' => by
        rw [← some.inj hd']
        exact hget
      subst hq
      exact { hre with }
    have hwaiting : q'.waiting = update q.waiting r rest :=
      h.waiting_update hget (by rw [hq]) (by rw [hq])
    have hcurrent : q'.current = update q.current r (some i) :=
      h.current_update (a := ⟨r, some d, some i⟩) hwired (by rw [hq]) fun b hb => mem_unique hl hb ▸ rfl
    have hrooms : q'.rooms = q.rooms.start r i rest := by
      refine Rooms.ext hwaiting hcurrent ?_ ?_ ?_ ?_ ?_
      all_goals subst hq; rfl
    refine ⟨hwired, .inl ?_⟩
    rw [hrooms]
    exact .start (h.current_eq hl) ((Queue.waiting_of_get? hget).trans hline)

theorem resolve_refines (h : Wired q) {l : ℕ} {r : R} {queue : Option ℕ} {i : ℕ}
    (hl : q.loops l = some ⟨r, queue, some i⟩) {outcome : ρ} (hq : q' = q.resolve l r queue i outcome) :
    Refines q q' := by
  rw [Queue.resolve] at hq
  have hwired : Wired q' := by
    have hre := h.reloop ⟨r, queue, none⟩ hl rfl fun d hd => h.own l _ d hl hd
    subst hq
    exact { hre with }
  have hcurrent : q'.current = update q.current r none :=
    h.current_update (a := ⟨r, queue, none⟩) hwired (by rw [hq]) fun b hb => mem_unique hl hb ▸ rfl
  have hrooms : q'.rooms = q.rooms.complete r i outcome := by
    refine Rooms.ext ?_ hcurrent ?_ ?_ ?_ ?_ ?_
    all_goals subst hq; rfl
  refine ⟨hwired, .inl ?_⟩
  rw [hrooms]
  exact .complete outcome (h.current_eq hl)

/-- Every step is a move of the rooms, or leaves them as they are. -/
theorem step_refines (h : Wired q) (hs : step q a = some q') : Refines q q' := by
  cases a with
  | add r task => exact addToQueue_refines h (some.inj hs).symm
  | advance l =>
    rw [step] at hs
    split at hs
    · rename_i r queue hl
      exact advance_refines h hl (some.inj hs).symm
    · cases hs
  | complete l outcome =>
    rw [step] at hs
    split at hs
    · rename_i r queue i hl
      exact resolve_refines h hl (some.inj hs).symm
    · cases hs

/-! ### Runs -/

/-- The queue is wired and its books are right. -/
structure Sound (q : Queue R α ρ) : Prop where
  wired : Wired q
  ledger : Ledger q.rooms

theorem sound_empty : Sound (Queue.empty : Queue R α ρ) where
  wired := by
    refine ⟨fun r => ?_, fun r => ?_, ?_, ?_, ?_, ?_, ?_⟩ <;> simp [Queue.empty]
  ledger := by
    have hrooms : (Queue.empty : Queue R α ρ).rooms = Rooms.empty := by
      refine Rooms.ext rfl (funext fun r => ?_) rfl rfl rfl rfl rfl
      refine Queue.current_of_none ?_
      rintro ⟨_, _, h, _⟩
      cases h
    rw [hrooms]
    exact ledger_empty

theorem Sound.step (h : Sound q) (hs : PersistQueue.step q a = some q') : Sound q' := by
  obtain ⟨hwired, hmove | hsame⟩ := step_refines h.wired hs
  · exact ⟨hwired, h.ledger.step hmove⟩
  · exact ⟨hwired, hsame ▸ h.ledger⟩

/-! ### Draining -/

/-- What is left to do: calls of the callback to make and to wait for, loops to end. -/
def Queue.work (q : Queue R α ρ) : ℕ :=
  2 * (q.newItem - q.handed.length) + (q.handed.length - q.completed.length) +
    ((Finset.range q.newLoop).filter fun l => (q.loops l).isSome).card

theorem Ledger.handed_length {b : Rooms R α ρ} (h : Ledger b) : b.handed.length ≤ b.newItem := by
  have hsub : b.handed.map (·.item) ⊆ List.range b.newItem :=
    forall_mem_map.mpr fun _ hx => mem_range.mpr (h.handed_lt hx)
  have hlen := (subperm_of_subset h.handed_nodup hsub).length_le
  rwa [length_map, length_range] at hlen

theorem Ledger.completed_length {b : Rooms R α ρ} (h : Ledger b) : b.completed.length ≤ b.handed.length := by
  have hsub : b.completed.map Prod.fst ⊆ b.handed.map (·.item) := forall_mem_map.mpr h.completed
  have hlen := (subperm_of_subset h.completed_nodup hsub).length_le
  rwa [length_map, length_map] at hlen

omit [DecidableEq R] in
/-- Writing the record of a loop that runs starts no loop. -/
theorem loops_update {l : ℕ} {a : Loop R} (hl : q.loops l = some a) (a' : Loop R) (l' : ℕ) :
    (update q.loops l (some a') l').isSome = (q.loops l').isSome := by
  rw [update_apply]
  split_ifs with h
  · rw [h, hl]
    rfl
  · rfl

/-- Every step that adds nothing leaves less to do. -/
theorem Sound.work_lt (h : Sound q)
    (hs : PersistQueue.step q a = some q') (hadd : ∀ r task, a ≠ .add r task) : q'.work < q.work := by
  have h' := h.step hs
  have hlen := h'.ledger.handed_length
  have hlen' := h'.ledger.completed_length
  cases a with
  | add r task => exact absurd rfl (hadd r task)
  | advance l =>
    rw [PersistQueue.step] at hs
    split at hs
    · rename_i r queue hl
      obtain ⟨d, -, ⟨-, heq⟩ | ⟨i, rest, -, heq⟩⟩ := h.wired.advance_cases hl
      · -- the loop ends
        have hq := (some.inj hs).symm.trans heq
        subst hq
        have hfewer : ((Finset.range q.newLoop).filter fun l' =>
            (update q.loops l none l').isSome).card <
            ((Finset.range q.newLoop).filter fun l' => (q.loops l').isSome).card := by
          refine Finset.card_lt_card ⟨fun l' hl' => ?_, fun hsub => ?_⟩
          · rw [Finset.mem_filter, update_apply] at hl'
            split at hl'
            · exact absurd hl'.2 (by simp)
            · exact Finset.mem_filter.mpr hl'
          · have hmem := hsub (Finset.mem_filter.mpr
              ⟨Finset.mem_range.mpr (h.wired.loop_lt l _ hl), by rw [hl]; rfl⟩)
            rw [Finset.mem_filter, update_self] at hmem
            exact absurd hmem.2 (by simp)
        exact Nat.add_lt_add_left hfewer _
      · have hq := (some.inj hs).symm.trans heq
        subst hq
        simp only [Queue.rooms, length_append, length_singleton] at hlen hlen'
        simp only [Queue.work, loops_update hl, length_append, length_singleton]
        omega
    · cases hs
  | complete l outcome =>
    rw [PersistQueue.step] at hs
    split at hs
    · rename_i r queue i hl
      obtain rfl := (some.inj hs).symm
      simp only [Queue.rooms, Queue.resolve, length_append, length_singleton] at hlen hlen'
      simp only [Queue.work, Queue.resolve, loops_update hl, length_append, length_singleton]
      omega
    · cases hs

/-- When no loop is left nothing waits, and every call has its result. -/
theorem Sound.drained (h : Sound q) (hloops : ∀ l, q.loops l = none) :
    (∀ r, q.waiting r = []) ∧ ∀ c ∈ q.added, ∃ outcome, (q.items c.item).deferred = some outcome := by
  have hnoloop : ∀ r, ¬ ∃ l a, q.loops l = some a ∧ a.room = r := by
    rintro r ⟨l, a, ha, -⟩
    rw [hloops l] at ha
    cases ha
  have hwaiting : ∀ r, q.waiting r = [] := by
    intro r
    cases hget : q.eventPersistQueues.get? r with
    | none => exact Queue.waiting_of_none hget
    | some d => exact absurd ((h.wired.served r).mp ⟨d, hget⟩) (hnoloop r)
  refine ⟨hwaiting, fun c hc => ?_⟩
  rcases h.ledger.settled c.item (h.ledger.known c hc) with ⟨r, hr⟩ | ⟨r, hr⟩ | hres
  · have hr' : c.item ∈ q.waiting r := hr
    rw [hwaiting r] at hr'
    cases hr'
  · have hr' : q.current r = some c.item := hr
    rw [Queue.current_of_none (hnoloop r)] at hr'
    cases hr'
  · exact hres

/-- In every state the queue can get into, whatever is added when and however callbacks complete: a room has
    one callback running at most; what was handed to the callback for a room, followed by what waits, is
    what was added for the room, in order and with each event's backfilled flag; an item is handed out once,
    with exactly what the calls waiting for it added; these calls get the outcome of that callback, and no
    other. Once no loop is left, nothing waits and every call has its outcome; until then some loop can go on
    or waits for its callback, and without further calls this comes to an end. -/
theorem persist_queue_exactly_once {q : Queue R α ρ}
    (h : Run (step (ρ := ρ)) (fun _ _ => True) Queue.empty q) :
    (∀ l l' a a', q.loops l = some a → q.loops l' = some a' → a.room = a'.room →
      a.item.isSome → a'.item.isSome → l = l') ∧
    (∀ r, (q.handed.filter (·.room = r)).flatMap (·.task.events) ++
      (q.waiting r).flatMap (fun i => (q.items i).task.events) =
        (q.added.filter (·.room = r)).flatMap (·.task.events)) ∧
    ((q.handed.map (·.item)).Nodup ∧ ∀ x ∈ q.handed,
      x.task.events = (q.added.filter (·.item = x.item)).flatMap (·.task.events) ∧
      (∃ backfilled, ∀ e ∈ x.task.events, e.2 = backfilled) ∧
      ∀ c ∈ q.added, c.item = x.item → c.room = x.room) ∧
    ((q.completed.map Prod.fst).Nodup ∧ (∀ p ∈ q.completed, p.1 ∈ q.handed.map (·.item)) ∧
      ∀ c ∈ q.added, ∀ outcome, (q.items c.item).deferred = some outcome ↔ (c.item, outcome) ∈ q.completed) ∧
    ((∀ l, q.loops l = none) →
      (∀ r, q.waiting r = []) ∧ ∀ c ∈ q.added, ∃ outcome, (q.items c.item).deferred = some outcome) ∧
    (∀ l a, q.loops l = some a → (step q (.advance l)).isSome ∨ ∀ outcome, (step q (.complete l outcome)).isSome) ∧
    ∀ a q', step q a = some q' → (∀ r task, a ≠ .add r task) → q'.work < q.work := by
  have hsound : Sound q := h.invariant sound_empty fun hI _ hs => hI.step hs
  obtain ⟨hwired, hledger⟩ := hsound
  refine ⟨fun l l' a a' ha ha' hr _ _ => hwired.one l l' a a' ha ha' hr, hledger.order,
    ⟨hledger.handed_nodup, fun x hx => ?_⟩,
    ⟨hledger.completed_nodup, hledger.completed, fun c _ outcome => hledger.resolved c.item outcome⟩,
    Sound.drained ⟨hwired, hledger⟩, fun l a ha => ?_, fun a q' hs hadd => Sound.work_lt ⟨hwired, hledger⟩ hs hadd⟩
  · obtain ⟨⟨c₀, hc₀, hi₀, hr₀⟩, htask⟩ := hledger.handed x hx
    refine ⟨?_, x.task.events_backfilled, fun c hc hi => (hledger.sameRoom c hc c₀ hc₀ (hi.trans hi₀.symm)).trans hr₀⟩
    rw [htask]
    exact (hledger.carried x.item (hledger.handed_lt hx)).2
  · obtain ⟨r, queue, item⟩ := a
    cases item with
    | none =>
      refine .inl ?_
      simp only [step, ha, isSome_some]
    | some i =>
      refine .inr fun outcome => ?_
      simp only [step, ha, isSome_some]

/-- Two rooms: a call is merged into a waiting item and one with the other flag is not, a callback raises,
    and a caller adds to the room again as soon as it has its result. -/
def twoRooms : List (Action (Fin 2) ℕ (Option ℕ)) :=
  [.add 0 (.persistEvents [1] false), .advance 0, .add 0 (.persistEvents [2] false),
    .add 0 (.persistEvents [3, 4] false), .add 0 (.persistEvents [5] true), .add 1 .updateCurrentState,
    .advance 1, .complete 0 (some 7), .add 0 (.persistEvents [6] true), .advance 0, .complete 1 (some 8),
    .complete 0 none, .advance 1, .advance 0, .complete 0 (some 9), .advance 0]

theorem persist_queue_exactly_once_two_rooms :
    ∃ q : Queue (Fin 2) ℕ (Option ℕ), Run step (fun _ _ => True) Queue.empty q ∧
      q.handed.map (fun x => (x.room, x.task)) = [(0, .persistEvents [1] false), (1, .updateCurrentState),
        (0, .persistEvents [2, 3, 4] false), (0, .persistEvents [5, 6] true)] ∧
      q.completed = [(0, some 7), (3, some 8), (1, none), (2, some 9)] ∧
      (q.handed.filter (·.room = 0)).flatMap (·.task.events) ++
        (q.waiting 0).flatMap (fun i => (q.items i).task.events) =
          (q.added.filter (·.room = 0)).flatMap (·.task.events) :=
  Run.exists_get twoRooms (by decide +kernel) fun hrun =>
    ⟨by decide +kernel, by decide +kernel, (persist_queue_exactly_once hrun).2.1 0⟩

end Sithnapse.PersistQueue
