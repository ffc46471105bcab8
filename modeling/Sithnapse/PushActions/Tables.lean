import Mathlib.Data.List.Sort
import Sithnapse.Kit.Runs

/-! Push actions, their summary, and read receipts.

    A user's push actions in a room and thread are rows of `event_push_actions`. Rotation adds the rows up to
    a stream ordering to counts in `event_push_summary`; folding a receipt deletes the rows it makes
    redundant and counts the summary again. The unread counts are read from a summary row and the rows after
    the rotation, if the row can be trusted, and else from the rows alone.

    Next to the tables, `inserted` has every push action there ever was. -/

namespace Sithnapse.PushActions
open List

/-- A user's thread in a room; the main timeline is a thread as well. -/
structure Place (U R T : Type) where
  user : U
  room : R
  thread : T
  deriving DecidableEq

/-- A row of `event_push_actions`. -/
structure PushAction (U R T : Type) where
  place : Place U R T
  streamOrdering : ℕ
  notif : Bool
  unread : Bool
  highlight : Bool

/-- The two kinds of actions that are summarised. -/
inductive Kind where
  | notif
  | unread
  deriving DecidableEq

instance : Fintype Kind := ⟨{.notif, .unread}, fun k => by cases k <;> decide⟩

def PushAction.flag {U R T : Type} (ea : PushAction U R T) : Kind → Bool
  | .notif => ea.notif
  | .unread => ea.unread

/-- A row of `event_push_summary`. -/
structure Summary where
  notifCount : ℕ
  unreadCount : ℕ
  streamOrdering : ℕ
  lastReceiptStreamOrdering : Option ℕ

def Summary.count (row : Summary) : Kind → ℕ
  | .notif => row.notifCount
  | .unread => row.unreadCount

/-- `ReceiptTypes.READ` and `ReceiptTypes.READ_PRIVATE`. -/
inductive ReceiptType where
  | read
  | readPrivate
  deriving DecidableEq

/-- A row of `receipts_linearized`; without a thread the receipt is unthreaded. -/
structure Receipt (U R T : Type) where
  room : R
  receiptType : ReceiptType
  user : U
  thread : Option T
  streamId : ℕ
  eventStreamOrdering : ℕ

/-- The receipt is about a place: it is for its thread, or unthreaded. -/
def Receipt.Affects {U R T : Type} (rc : Receipt U R T) (p : Place U R T) : Prop :=
  rc.user = p.user ∧ rc.room = p.room ∧ ∀ t ∈ rc.thread, p.thread = t

structure Tables (U R T : Type) where
  eventPushActions : List (PushAction U R T)
  eventPushSummary : Place U R T → Option Summary
  /-- `event_push_summary_stream_ordering`. -/
  rotatedUpto : ℕ
  /-- `event_push_summary_last_receipt_stream_id`. -/
  lastReceiptStreamId : ℕ
  receiptsLinearized : List (Receipt U R T)
  /-- The current tokens of the events and the receipts stream. -/
  streamToken : ℕ
  receiptsToken : ℕ
  inserted : List (PushAction U R T)

/-- Where users joined rooms, and where the events stream is at first. There may be push actions from before a
    join: an invite has one. -/
structure Setup (U R : Type) where
  join : U → R → ℕ
  firstToken : ℕ
  rotateCount : ℕ

variable {U R T : Type} [DecidableEq U] [DecidableEq R] [DecidableEq T]

instance (rc : Receipt U R T) (p : Place U R T) : Decidable (rc.Affects p) :=
  inferInstanceAs (Decidable (_ ∧ _ ∧ ∀ _ ∈ _, _))

/-! ### Reading the counts -/

/-- The push actions of a place that a test selects, after a stream ordering. -/
def countAfter (l : List (PushAction U R T)) (p : Place U R T) (test : PushAction U R T → Bool) (lo : ℕ) : ℕ :=
  l.countP fun ea => ea.place = p ∧ lo < ea.streamOrdering ∧ test ea

/-- Those up to another stream ordering. -/
def countBetween (l : List (PushAction U R T)) (p : Place U R T) (test : PushAction U R T → Bool) (lo hi : ℕ) :
    ℕ := l.countP fun ea => ea.place = p ∧ lo < ea.streamOrdering ∧ ea.streamOrdering ≤ hi ∧ test ea

/-- `RoomNotifCounts` of one thread. -/
structure NotifCounts where
  notifyCount : ℕ
  unreadCount : ℕ
  highlightCount : ℕ
  deriving DecidableEq

namespace Tables

variable (g : Setup U R)

variable (s : Tables U R T)

/-- The user's latest unthreaded receipt in the room, or else where they joined: the argument of
    `_get_unread_counts_by_pos_txn`. -/
def unthreadedReceipt (u : U) (r : R) : ℕ :=
  ((s.receiptsLinearized.filter fun rc => rc.user = u ∧ rc.room = r ∧ rc.thread.isNone).map
    (·.eventStreamOrdering)).max?.getD (g.join u r)

variable (p : Place U R T)

/-- `threaded_receipt_stream_ordering`. -/
def threadedReceipt : Option ℕ :=
  ((s.receiptsLinearized.filter fun rc => rc.user = p.user ∧ rc.room = p.room ∧ rc.thread = some p.thread ∧
    s.unthreadedReceipt g p.user p.room < rc.eventStreamOrdering).map (·.eventStreamOrdering)).max?

/-- `COALESCE(threaded_receipt_stream_ordering, ?)`. -/
def readUpto : ℕ :=
  (s.threadedReceipt g p).getD (s.unthreadedReceipt g p.user p.room)

/-- A receipt about the place is not folded in yet. -/
def Pending : Prop :=
  ∃ rc ∈ s.receiptsLinearized, rc.Affects p ∧ s.lastReceiptStreamId < rc.streamId

instance (s : Tables U R T) (p : Place U R T) : Decidable (s.Pending p) :=
  inferInstanceAs (Decidable (∃ _ ∈ _, _ ∧ _))

/-- The conditions on a summary row. -/
def Usable (row : Summary) : Prop :=
  ((row.lastReceiptStreamOrdering = none ∧ s.threadedReceipt g p = none ∧
      s.unthreadedReceipt g p.user p.room < row.streamOrdering) ∨
    row.lastReceiptStreamOrdering = some (s.readUpto g p)) ∧
  ¬ s.Pending p ∧ (row.notifCount ≠ 0 ∨ row.unreadCount ≠ 0)
  deriving Decidable

/-- The summary row of a place, if it is one of the `summarised_threads`. -/
def summarised : Option Summary :=
  match s.eventPushSummary p with
  | some row => if s.Usable g p row then some row else none
  | none => none

/-- The count of one kind that `_get_unread_counts_by_pos_txn` reports. -/
def reported (k : Kind) : ℕ :=
  match s.summarised g p with
  | some row => row.count k + countAfter s.eventPushActions p (·.flag k) s.rotatedUpto
  | none => countAfter s.eventPushActions p (·.flag k) (s.readUpto g p)

/-- `_get_unread_counts_by_pos_txn`, for one thread. -/
def getUnreadCounts : NotifCounts :=
  ⟨s.reported g p .notif, s.reported g p .unread, countAfter s.eventPushActions p (·.highlight) (s.readUpto g p)⟩

/-! ### Transactions -/

/-- An event is persisted with its push actions. -/
def insertActions (streamOrdering : ℕ) (actions : List (PushAction U R T)) : Tables U R T :=
  { s with
    eventPushActions := s.eventPushActions ++ actions.map ({ · with streamOrdering := streamOrdering })
    inserted := s.inserted ++ actions.map ({ · with streamOrdering := streamOrdering })
    streamToken := streamOrdering }

/-- The rows of `receipts_linearized` a receipt may replace. -/
def SameReceipt (rc rc' : Receipt U R T) : Prop :=
  rc'.room = rc.room ∧ rc'.receiptType = rc.receiptType ∧ rc'.user = rc.user ∧ rc'.thread = rc.thread

instance (rc rc' : Receipt U R T) : Decidable (SameReceipt rc rc') := by
  unfold SameReceipt
  infer_instance

/-- `_insert_linearized_receipt_txn` for an event the server has, with the next stream id. -/
def insertReceipt (rc : Receipt U R T) : Tables U R T :=
  let rc := { rc with streamId := s.receiptsToken + 1 }
  let s := { s with receiptsToken := s.receiptsToken + 1 }
  if ∃ rc' ∈ s.receiptsLinearized, SameReceipt rc rc' ∧ rc.eventStreamOrdering ≤ rc'.eventStreamOrdering then s
  else { s with receiptsLinearized := s.receiptsLinearized.filter (¬ SameReceipt rc ·) ++ [rc] }

/-- One of the two queries of `_rotate_notifs_before_txn`, for one group: the count and the last stream
    ordering. -/
def rotatedCount (rotateTo : ℕ) (p : Place U R T) (k : Kind) : Option (ℕ × ℕ) :=
  let upd := s.eventPushActions.filter fun ea =>
    ea.place = p ∧ s.rotatedUpto < ea.streamOrdering ∧ ea.streamOrdering ≤ rotateTo ∧
      (∀ row ∈ s.eventPushSummary p, ∀ l ∈ row.lastReceiptStreamOrdering, l < ea.streamOrdering) ∧ ea.flag k
  (upd.map (·.streamOrdering)).max?.map fun last =>
    (((s.eventPushSummary p).elim 0 (·.count k)) + upd.length, last)

/-- The entry of `summaries`: the result of the unread query, completed by that of the notifications query. -/
def mergeCounts : Option (ℕ × ℕ) → Option (ℕ × ℕ) → Option (ℕ × ℕ × ℕ)
  | some (unread, last), some (notif, _) => some (notif, unread, last)
  | some (unread, last), none => some (0, unread, last)
  | none, some (notif, last) => some (notif, 0, last)
  | none, none => none

/-- `_rotate_notifs_before_txn`. -/
def rotateBefore (rotateTo : ℕ) : Tables U R T :=
  { s with
    eventPushSummary := fun p =>
      match mergeCounts (s.rotatedCount rotateTo p .unread) (s.rotatedCount rotateTo p .notif) with
      | some (notif, unread, last) =>
        some ⟨notif, unread, last, (s.eventPushSummary p).bind (·.lastReceiptStreamOrdering)⟩
      | none => s.eventPushSummary p
    rotatedUpto := rotateTo }

/-- `rotate_to_stream_ordering`. -/
def rotateTo : ℕ :=
  match (((s.eventPushActions.filter (s.rotatedUpto < ·.streamOrdering)).map
      (·.streamOrdering)).insertionSort (· ≤ ·))[g.rotateCount]? with
  | some offset => min offset s.streamToken
  | none => s.streamToken

/-- `_rotate_notifs_txn`. -/
def rotate : Tables U R T := s.rotateBefore (s.rotateTo g)

/-- The push actions a receipt makes redundant. -/
def Redundant (rc : Receipt U R T) (ea : PushAction U R T) : Prop :=
  rc.Affects ea.place ∧ ea.streamOrdering ≤ rc.eventStreamOrdering ∧ ea.highlight = false

instance (rc : Receipt U R T) (ea : PushAction U R T) : Decidable (Redundant rc ea) := by
  unfold Redundant
  infer_instance

/-- `_get_notif_unread_count_for_user_room` between a receipt and the rotation, for one group. -/
def countsSince (l : List (PushAction U R T)) (rc : Receipt U R T) (rotatedUpto : ℕ) (p : Place U R T) :
    Option (ℕ × ℕ) :=
  if rc.Affects p ∧ ¬ rotatedUpto ≤ rc.eventStreamOrdering ∧
      ∃ ea ∈ l, ea.place = p ∧ rc.eventStreamOrdering < ea.streamOrdering ∧ ea.streamOrdering ≤ rotatedUpto then
    some (countBetween l p (·.notif) rc.eventStreamOrdering rotatedUpto,
      countBetween l p (·.unread) rc.eventStreamOrdering rotatedUpto)
  else none

/-- One receipt of `_handle_new_receipts_for_notifs_txn`. -/
def foldReceipt (rc : Receipt U R T) : Tables U R T :=
  let actions := s.eventPushActions.filter (¬ Redundant rc ·)
  let cleared := fun p : Place U R T =>
    -- an unthreaded receipt clears the rows of all threads, and makes rows for those with actions left
    if rc.thread = none ∧ rc.Affects p ∧ ((s.eventPushSummary p).isSome ∨ ∃ ea ∈ actions, ea.place = p) then
      some ⟨0, 0, s.rotatedUpto, some rc.eventStreamOrdering⟩
    else s.eventPushSummary p
  let counts := fun p : Place U R T =>
    -- a threaded receipt always has a row for its thread
    (countsSince actions rc s.rotatedUpto p).or (if rc.thread ≠ none ∧ rc.Affects p then some (0, 0) else none)
  { s with
    eventPushActions := actions
    eventPushSummary := fun p =>
      match counts p with
      | some (notif, unread) => some ⟨notif, unread, s.rotatedUpto, some rc.eventStreamOrdering⟩
      | none => cleared p }

/-- `limit`. -/
def receiptsLimit : ℕ := 100

/-- The receipts taken up at a time. -/
def newReceipts : List (Receipt U R T) :=
  ((s.receiptsLinearized.filter fun rc => s.lastReceiptStreamId < rc.streamId ∧ rc.streamId ≤ s.receiptsToken)
    |>.insertionSort (fun rc rc' => rc.streamId ≤ rc'.streamId)).take receiptsLimit

/-- `_handle_new_receipts_for_notifs_txn`. -/
def handleNewReceipts : Tables U R T :=
  let rows := s.newReceipts
  { rows.foldl foldReceipt s with
    lastReceiptStreamId :=
      if receiptsLimit ≤ rows.length then (rows.getLast?.map (·.streamId)).getD s.receiptsToken
      else s.receiptsToken }

def empty : Tables U R T :=
  ⟨[], fun _ => none, 0, 0, [], g.firstToken, 0, []⟩

end Tables

/-- The transactions. -/
inductive Action (U R T : Type) where
  | insert (streamOrdering : ℕ) (actions : List (PushAction U R T))
  | receipt (receipt : Receipt U R T)
  | handleReceipts
  | rotate

/-- Events get increasing stream orderings, and receipts are for events there are. -/
def step (g : Setup U R) (s : Tables U R T) : Action U R T → Option (Tables U R T)
  | .insert streamOrdering actions =>
    if s.streamToken < streamOrdering then some (s.insertActions streamOrdering actions) else none
  | .receipt rc => if rc.eventStreamOrdering ≤ s.streamToken then some (s.insertReceipt rc) else none
  | .handleReceipts => some s.handleNewReceipts
  | .rotate => some (s.rotate g)

/-! ### Counting -/

section Counting

variable {l : List (PushAction U R T)} {p : Place U R T} {test : PushAction U R T → Bool} {lo hi : ℕ}

/-- What comes after one stream ordering is what comes up to a later one and after it. -/
theorem countAfter_split (h : lo ≤ hi) :
    countAfter l p test lo = countBetween l p test lo hi + countAfter l p test hi := by
  rw [countAfter, countP_eq_countP_filter_add l _ (·.streamOrdering ≤ hi), countP_filter, countP_filter]
  congr 1
  · refine countP_congr fun ea _ => ?_
    simp only [Bool.and_eq_true, decide_eq_true_eq]
    tauto
  · refine countP_congr fun ea _ => ?_
    simp only [Bool.and_eq_true, decide_eq_true_eq, Bool.not_eq_true', decide_eq_false_iff_not, not_le]
    constructor
    · rintro ⟨⟨hp, -, ht⟩, hhi⟩
      exact ⟨hp, hhi, ht⟩
    · rintro ⟨hp, hhi, ht⟩
      exact ⟨⟨hp, h.trans_lt hhi, ht⟩, hhi⟩

theorem countBetween_eq_zero : countBetween l p test lo hi = 0 ↔
      ∀ ea ∈ l, ea.place = p → lo < ea.streamOrdering → ea.streamOrdering ≤ hi → test ea = false := by
  simp only [countBetween, countP_eq_zero, decide_eq_true_eq, not_and, Bool.not_eq_true]

theorem countBetween_ne_zero : countBetween l p test lo hi ≠ 0 ↔
      ∃ ea ∈ l, ea.place = p ∧ lo < ea.streamOrdering ∧ ea.streamOrdering ≤ hi ∧ test ea = true := by
  simp only [countBetween, Ne, countP_eq_zero, decide_eq_true_eq, not_forall, not_not, exists_prop]

theorem countAfter_congr {l' : List (PushAction U R T)}
    (h : (l.filter fun ea => ea.place = p ∧ lo < ea.streamOrdering) =
      l'.filter fun ea => ea.place = p ∧ lo < ea.streamOrdering) :
    countAfter l p test lo = countAfter l' p test lo := by
  have hcount : ∀ l : List (PushAction U R T), countAfter l p test lo =
      (l.filter fun ea => ea.place = p ∧ lo < ea.streamOrdering).countP test := by
    intro l
    rw [countP_filter, countAfter]
    refine countP_congr fun ea _ => ?_
    simp only [decide_eq_true_eq, Bool.and_eq_true]
    tauto
  rw [hcount, hcount, h]

end Counting

end Sithnapse.PushActions
