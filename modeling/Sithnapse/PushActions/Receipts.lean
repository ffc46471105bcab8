import Sithnapse.PushActions.Rotation

/-! Folding receipts into the summary.

    While a receipt about a place is pending the reader counts the push actions that are left after the latest
    receipt, or after the join if that is later and no receipt is unthreaded, and those are all that were ever
    inserted after it. Folding deletes none of them, and a row that it leaves to the reader holds just those of
    them that were rotated. -/

namespace Sithnapse.PushActions

open Kit List

variable {U R T : Type} [DecidableEq U] [DecidableEq R] [DecidableEq T]

/-- The latest receipt about a place, threaded or not. -/
def Tables.latestReceipt (s : Tables U R T) (p : Place U R T) : Option ℕ :=
  ((s.receiptsLinearized.filter (·.Affects p)).map (·.eventStreamOrdering)).max?

/-- The push actions of a place that were ever inserted after a stream ordering. -/
def Tables.insertedAfter (s : Tables U R T) (p : Place U R T) (lo : ℕ) : NotifCounts :=
  ⟨countAfter s.inserted p (·.flag .notif) lo, countAfter s.inserted p (·.flag .unread) lo,
    countAfter s.inserted p (·.highlight) lo⟩

section Reader

variable {g : Setup U R} {s s' : Tables U R T} {p : Place U R T}

/-- What the reader takes from the receipts. -/
theorem receipts_congr (h : s'.receiptsLinearized = s.receiptsLinearized) :
    s'.unthreadedReceipt g p.user p.room = s.unthreadedReceipt g p.user p.room ∧
    s'.threadedReceipt g p = s.threadedReceipt g p ∧ s'.readUpto g p = s.readUpto g p := by
  obtain ⟨_, _, _, _, _, _, _, _⟩ := s
  obtain ⟨_, _, _, _, _, _, _, _⟩ := s'
  cases h
  exact ⟨rfl, rfl, rfl⟩

theorem usable_congr (h : s'.receiptsLinearized = s.receiptsLinearized) (hp : s'.Pending p ↔ s.Pending p)
    (row : Summary) : s'.Usable g p row ↔ s.Usable g p row := by
  obtain ⟨hunthreaded, hthreaded, hread⟩ := receipts_congr h
  rw [Tables.Usable, Tables.Usable, hunthreaded, hthreaded, hread, hp]

theorem summarised_of_pending (hp : s.Pending p) : s.summarised g p = none :=
  summarised_of_not_usable fun _ _ hu => hu.2.1 hp

theorem reported_of_pending (hp : s.Pending p) (k : Kind) :
    s.reported g p k = countAfter s.eventPushActions p (·.flag k) (s.readUpto g p) := by
  rw [Tables.reported, summarised_of_pending hp]

omit [DecidableEq T] in
/-- The unthreaded receipts the reader goes by, or the join if there are none. -/
theorem unthreadedReceipt_cases (g : Setup U R) (s : Tables U R T) (p : Place U R T) :
    (∃ rc ∈ s.receiptsLinearized, rc.Affects p ∧ rc.thread = none ∧
      s.unthreadedReceipt g p.user p.room = rc.eventStreamOrdering) ∨
    (∀ rc ∈ s.receiptsLinearized, rc.Affects p → rc.thread ≠ none) ∧
      s.unthreadedReceipt g p.user p.room = g.join p.user p.room := by
  rw [Tables.unthreadedReceipt]
  cases hmax : ((s.receiptsLinearized.filter fun rc => rc.user = p.user ∧ rc.room = p.room ∧
      rc.thread.isNone).map (·.eventStreamOrdering)).max? with
  | none =>
    rw [max?_eq_none_iff, map_eq_nil_iff, filter_eq_nil_iff] at hmax
    refine .inr ⟨fun rc hrc ha hthread => hmax rc hrc ?_, rfl⟩
    exact decide_eq_true ⟨ha.1, ha.2.1, Option.isNone_iff_eq_none.mpr hthread⟩
  | some x =>
    obtain ⟨rc, hrc, rfl⟩ := mem_map.mp (max?_mem hmax)
    obtain ⟨hmem, hw⟩ := mem_filter.mp hrc
    obtain ⟨huser, hroom, hthread⟩ := of_decide_eq_true hw
    have hnone := Option.isNone_iff_eq_none.mp hthread
    exact .inl ⟨rc, hmem, ⟨huser, hroom, by simp [hnone]⟩, hnone, rfl⟩

/-- The threaded receipt the reader goes by, if there is one after what it takes from the unthreaded ones. -/
theorem readUpto_cases (g : Setup U R) (s : Tables U R T) (p : Place U R T) :
    s.readUpto g p = s.unthreadedReceipt g p.user p.room ∨
    ∃ rc ∈ s.receiptsLinearized, rc.Affects p ∧ s.unthreadedReceipt g p.user p.room < rc.eventStreamOrdering ∧
      s.readUpto g p = rc.eventStreamOrdering := by
  rw [Tables.readUpto]
  cases hthreaded : s.threadedReceipt g p with
  | none => exact .inl rfl
  | some x =>
    obtain ⟨rc, hrc, rfl⟩ := mem_map.mp (max?_mem hthreaded)
    obtain ⟨hmem, hw⟩ := mem_filter.mp hrc
    obtain ⟨huser, hroom, hthread, hlt⟩ := of_decide_eq_true hw
    exact .inr ⟨rc, hmem, ⟨huser, hroom, fun t ht => Option.mem_unique hthread ht⟩, hlt, rfl⟩

/-- The reader goes by the latest receipt, or by the join if that is later and no receipt is unthreaded. -/
theorem readUpto_eq {m : ℕ} (hm : s.latestReceipt p = some m) :
    s.readUpto g p = if ∃ rc ∈ s.receiptsLinearized, rc.Affects p ∧ rc.thread = none then m
      else max m (g.join p.user p.room) := by
  rw [Tables.latestReceipt, max?_eq_some_iff] at hm
  obtain ⟨hmem, hmax⟩ := hm
  obtain ⟨rc, hrc, rfl⟩ := mem_map.mp hmem
  obtain ⟨hrc, ha⟩ := mem_filter.mp hrc
  have hle := receipt_le_readUpto g hrc (of_decide_eq_true ha)
  have hreceipt : ∀ x ∈ s.receiptsLinearized, x.Affects p → x.eventStreamOrdering ≤ rc.eventStreamOrdering :=
    fun x hx hxa => hmax _ (mem_map_of_mem (mem_filter.mpr ⟨hx, decide_eq_true hxa⟩))
  rcases unthreadedReceipt_cases g s p with ⟨x, hx, hxa, hthread, hunthreaded⟩ | ⟨hthread, hjoin⟩
  · rw [if_pos ⟨x, hx, hxa, hthread⟩]
    refine le_antisymm ?_ hle
    rcases readUpto_cases g s p with heq | ⟨y, hy, hya, -, heq⟩
    · rw [heq, hunthreaded]
      exact hreceipt x hx hxa
    · rw [heq]
      exact hreceipt y hy hya
  · rw [if_neg fun ⟨x, hx, hxa, hnone⟩ => hthread x hx hxa hnone]
    rcases readUpto_cases g s p with heq | ⟨y, hy, hya, hlt, heq⟩
    · rw [heq, hjoin] at hle ⊢
      exact (max_eq_right hle).symm
    · have hym := hreceipt y hy hya
      rw [heq] at hle ⊢
      rw [hjoin] at hlt
      omega

/-- What is left after what the reader goes by is all that was inserted after it. -/
theorem countAfter_readUpto (h : Sound s) (test : PushAction U R T → Bool) :
    countAfter s.eventPushActions p test (s.readUpto g p) = countAfter s.inserted p test (s.readUpto g p) :=
  countAfter_congr (h.books.kept p _ fun _ hrc ha => receipt_le_readUpto g hrc ha)

end Reader

/-! ### Folding -/

section Fold

variable {g : Setup U R} {p : Place U R T}

/-- Folding receipts leaves what is after all of them. -/
theorem countAfter_foldl : ∀ (l : List (Receipt U R T)) (s : Tables U R T) {test : PushAction U R T → Bool} {lo : ℕ},
    (∀ rc ∈ l, rc.Affects p → rc.eventStreamOrdering ≤ lo) →
      countAfter (l.foldl Tables.foldReceipt s).eventPushActions p test lo =
        countAfter s.eventPushActions p test lo
  | [], _, _, _, _ => rfl
  | rc :: l, s, test, lo, h => by
    rw [foldl_cons, countAfter_foldl l _ fun x hx => h x (.tail _ hx)]
    refine countAfter_congr ?_
    show ((s.eventPushActions.filter _).filter _) = _
    rw [filter_filter]
    refine filter_congr fun ea _ => ?_
    by_cases hea : ea.place = p ∧ lo < ea.streamOrdering
    · have hnot : ¬ Tables.Redundant rc ea := fun hred =>
        absurd (hred.2.1.trans (h rc (.head _) (hea.1 ▸ hred.1))) (not_le.mpr hea.2)
      simp [hea, hnot]
    · simp [hea]

/-- The row of a place that some folded receipt is about: counted for one of the receipts, or missing for lack
    of actions. -/
def Counted (s : Tables U R T) (p : Place U R T) : Prop :=
  (∃ l, s.eventPushSummary p = some
    ⟨countBetween s.eventPushActions p (·.notif) l s.rotatedUpto,
      countBetween s.eventPushActions p (·.unread) l s.rotatedUpto, s.rotatedUpto, some l⟩) ∨
  s.eventPushSummary p = none ∧ ∀ ea ∈ s.eventPushActions, ea.place ≠ p

theorem counted_foldReceipt {s : Tables U R T} {rc : Receipt U R T} (ha : rc.Affects p) :
    Counted (s.foldReceipt rc) p := by
  rcases Books.foldReceipt_summary ha with hrow | ⟨hrow, -, -, hno⟩
  · exact .inl ⟨rc.eventStreamOrdering, hrow⟩
  · exact .inr ⟨hrow, hno⟩

/-- A receipt about another place does not change the counts. -/
theorem counted_other {s : Tables U R T} {rc : Receipt U R T} (h : Counted s p) (ha : ¬ rc.Affects p) :
    Counted (s.foldReceipt rc) p := by
  have hcount : ∀ (test : PushAction U R T → Bool) lo hi,
      countBetween (s.foldReceipt rc).eventPushActions p test lo hi =
        countBetween s.eventPushActions p test lo hi := by
    intro test lo hi
    show (s.eventPushActions.filter _).countP _ = _
    rw [countP_filter]
    refine countP_congr fun ea _ => ?_
    by_cases hp : ea.place = p
    · have hnot : ¬ Tables.Redundant rc ea := fun hred => ha (hp ▸ hred.1)
      simp [hnot]
    · simp [hp]
  rcases h with ⟨l, hrow⟩ | ⟨hrow, hno⟩
  · refine .inl ⟨l, ?_⟩
    rw [Books.foldReceipt_other ha, hrow, hcount, hcount, (Books.foldReceipt_fields s rc).1]
  · exact .inr ⟨(Books.foldReceipt_other ha).trans hrow, fun ea hea => hno ea (Books.mem_foldReceipt.mp hea).1⟩

theorem counted_keep : ∀ (l : List (Receipt U R T)) (s : Tables U R T), Counted s p →
    Counted (l.foldl Tables.foldReceipt s) p
  | [], _, h => h
  | rc :: l, s, h => by
    rw [foldl_cons]
    by_cases ha : rc.Affects p
    · exact counted_keep l _ (counted_foldReceipt ha)
    · exact counted_keep l _ (counted_other h ha)

theorem counted_foldl : ∀ (l : List (Receipt U R T)) (s : Tables U R T), (∃ rc ∈ l, rc.Affects p) →
    Counted (l.foldl Tables.foldReceipt s) p
  | [], _, h => absurd h (by simp)
  | rc :: l, s, h => by
    rw [foldl_cons]
    by_cases ha : rc.Affects p
    · exact counted_keep l _ (counted_foldReceipt ha)
    · obtain ⟨x, hx, hxa⟩ := h
      rcases mem_cons.mp hx with rfl | hx
      · exact absurd hxa ha
      · exact counted_foldl l _ ⟨x, hx, hxa⟩

/-- Places no receipt is about are left alone. -/
theorem foldl_other : ∀ (l : List (Receipt U R T)) (s : Tables U R T), (∀ rc ∈ l, ¬ rc.Affects p) →
    (l.foldl Tables.foldReceipt s).eventPushSummary p = s.eventPushSummary p ∧
    ∀ (test : PushAction U R T → Bool) (lo : ℕ),
      countAfter (l.foldl Tables.foldReceipt s).eventPushActions p test lo = countAfter s.eventPushActions p test lo
  | [], _, _ => ⟨rfl, fun _ _ => rfl⟩
  | rc :: l, s, h => by
    obtain ⟨hsummary, -⟩ := foldl_other l (s.foldReceipt rc) fun x hx => h x (.tail _ hx)
    refine ⟨hsummary.trans (Books.foldReceipt_other (h rc (.head _))), fun test lo => ?_⟩
    exact countAfter_foldl (rc :: l) s fun x hx hxa => absurd hxa (h x hx)

theorem lastReceiptStreamId_le {s : Tables U R T} (h : Sound s) :
    s.lastReceiptStreamId ≤ s.handleNewReceipts.lastReceiptStreamId := by
  simp only [Tables.handleNewReceipts]
  split
  · cases hlast : s.newReceipts.getLast? with
    | none => exact h.last_le
    | some last => exact (Sound.mem_newReceipts (mem_of_getLast? hlast)).2.1.le
  · exact h.last_le

/-- After a fold: a place that still has a pending receipt, or had none, or whose row is counted. -/
theorem reported_handleNewReceipts {s : Tables U R T} (h : Sound s) (k : Kind) :
    s.handleNewReceipts.reported g p k = s.reported g p k := by
  obtain ⟨-, hreceipts, -, hrotated, -⟩ := h.books.foldReceipts s.newReceipts
    fun rc hrc => (Sound.mem_newReceipts hrc).1
  have hread : s.handleNewReceipts.readUpto g p = s.readUpto g p := (receipts_congr hreceipts).2.2
  have hupto : s.handleNewReceipts.rotatedUpto = s.rotatedUpto := hrotated
  by_cases hnew : ∃ rc ∈ s.newReceipts, rc.Affects p
  · -- the place has pending receipts, some of which are folded now
    obtain ⟨rc, hrc, ha⟩ := hnew
    obtain ⟨hmem, hid, -⟩ := Sound.mem_newReceipts hrc
    rw [reported_of_pending ⟨rc, hmem, ha, hid⟩]
    have hcount : ∀ test, countAfter s.handleNewReceipts.eventPushActions p test (s.readUpto g p) =
        countAfter s.eventPushActions p test (s.readUpto g p) := fun test =>
      countAfter_foldl s.newReceipts s fun x hx hxa => receipt_le_readUpto g (Sound.mem_newReceipts hx).1 hxa
    rw [← hcount, Tables.reported]
    by_cases hused : ∃ row, s.handleNewReceipts.eventPushSummary p = some row ∧ s.handleNewReceipts.Usable g p row
    · -- a row that is used was counted for the latest receipt
      obtain ⟨row, hrow⟩ := hused
      rw [summarised_of_usable hrow.1 hrow.2]
      have hcounted : Counted (s.newReceipts.foldl Tables.foldReceipt s) p := counted_foldl _ s ⟨rc, hrc, ha⟩
      rcases hcounted with ⟨l, hl⟩ | ⟨hnone, -⟩
      · have heq := Option.mem_unique hrow.1 hl
        have hlast : row.lastReceiptStreamOrdering = some l := by rw [heq]
        obtain rfl : l = s.readUpto g p := by
          rcases hrow.2.1 with ⟨hnot, -⟩ | hsome
          · rw [hlast] at hnot
            cases hnot
          · rw [hlast, hread] at hsome
            exact Option.some.inj hsome
        have hlt : s.readUpto g p < s.handleNewReceipts.rotatedUpto :=
          h.handleNewReceipts.books.counted p row hrow.1 hrow.2.2.2 _ hlast
        rw [countAfter_split hlt.le]
        simp only
        congr 1
        cases k with
        | notif => rw [heq]; rfl
        | unread => rw [heq]; rfl
      · have hnone' : s.handleNewReceipts.eventPushSummary p = none := hnone
        rw [hnone'] at hrow
        cases hrow.1
    · rw [summarised_of_not_usable fun row hrow hu => hused ⟨row, hrow, hu⟩, hread]
  · -- nothing about the place is folded, and nothing was left pending that was not before
    have hother := foldl_other s.newReceipts s fun rc hrc ha => hnew ⟨rc, hrc, ha⟩
    have hpending : s.handleNewReceipts.Pending p ↔ s.Pending p := by
      constructor
      · rintro ⟨rc, hrc, ha, hlt⟩
        exact ⟨rc, hreceipts ▸ hrc, ha, (lastReceiptStreamId_le h).trans_lt hlt⟩
      · rintro ⟨rc, hrc, ha, hlt⟩
        refine ⟨rc, hreceipts.symm ▸ hrc, ha, ?_⟩
        by_contra hle
        rcases h.newReceipts_complete hrc (not_lt.mp hle) with hle' | hmem
        · exact absurd hlt (not_lt.mpr hle')
        · exact hnew ⟨rc, hmem, ha⟩
    have hsummary : s.handleNewReceipts.eventPushSummary p = s.eventPushSummary p := hother.1
    have hcount : ∀ (test : PushAction U R T → Bool) lo,
        countAfter s.handleNewReceipts.eventPushActions p test lo = countAfter s.eventPushActions p test lo :=
      hother.2
    have husable : ∀ row, s.handleNewReceipts.Usable g p row ↔ s.Usable g p row := usable_congr hreceipts hpending
    have hsummarised : s.handleNewReceipts.summarised g p = s.summarised g p := by
      rw [Tables.summarised, Tables.summarised, hsummary]
      simp only [husable]
    rw [Tables.reported, Tables.reported, hsummarised, hupto, hread]
    simp only [hcount]

end Fold

/-- In every state the transactions lead to: folding receipts leaves the counts reported for all users, rooms and
    threads as they are; and for a thread with a receipt that is not folded in yet, the reported counts are
    the push actions of each kind ever inserted after the latest receipt about the thread, or after the join if
    that is later and no receipt is unthreaded. -/
theorem fold_transparent (g : Setup U R) {s : Tables U R T}
    (h : Run (step g) (fun _ _ => True) (Tables.empty g) s) (p : Place U R T) :
    s.handleNewReceipts.getUnreadCounts g p = s.getUnreadCounts g p ∧
    (s.Pending p → ∃ m, s.latestReceipt p = some m ∧ s.getUnreadCounts g p =
      s.insertedAfter p (if ∃ rc ∈ s.receiptsLinearized, rc.Affects p ∧ rc.thread = none then m
        else max m (g.join p.user p.room))) := by
  have hsound := sound_run h
  constructor
  · obtain ⟨-, hreceipts, -⟩ := hsound.books.foldReceipts s.newReceipts fun rc hrc => (Sound.mem_newReceipts hrc).1
    have hread : s.handleNewReceipts.readUpto g p = s.readUpto g p := (receipts_congr hreceipts).2.2
    have hhighlight : countAfter s.handleNewReceipts.eventPushActions p (·.highlight) (s.readUpto g p) =
        countAfter s.eventPushActions p (·.highlight) (s.readUpto g p) :=
      countAfter_foldl s.newReceipts s fun rc hrc ha => receipt_le_readUpto g (Sound.mem_newReceipts hrc).1 ha
    rw [Tables.getUnreadCounts, Tables.getUnreadCounts, reported_handleNewReceipts hsound,
      reported_handleNewReceipts hsound, hread, hhighlight]
  · intro hp
    obtain ⟨rc, hrc, ha, -⟩ := id hp
    have hne : s.latestReceipt p ≠ none := by
      rw [Tables.latestReceipt, Ne, max?_eq_none_iff, map_eq_nil_iff]
      exact ne_nil_of_mem (mem_filter.mpr ⟨hrc, decide_eq_true ha⟩)
    obtain ⟨m, hm⟩ := Option.ne_none_iff_exists'.mp hne
    refine ⟨m, hm, ?_⟩
    rw [← readUpto_eq hm, Tables.getUnreadCounts, Tables.insertedAfter, reported_of_pending hp,
      reported_of_pending hp, countAfter_readUpto hsound, countAfter_readUpto hsound, countAfter_readUpto hsound]

/-- Receipts of both types, the second one for an earlier event, over a summary that is in use. -/
def backwards : List (Action Unit Unit Bool) :=
  [.insert 1 [action false true true], .insert 2 [action true true true], .insert 3 [action false true true],
    .rotate, .receipt ⟨(), .read, (), none, 0, 2⟩, .handleReceipts,
    .insert 4 [{ action false true true with highlight := true }], .rotate,
    .receipt ⟨(), .readPrivate, (), some false, 0, 1⟩, .insert 5 [action false true false]]

theorem fold_transparent_backwards :
    ∃ s : Tables Unit Unit Bool, Run (step oneRoom) (fun _ _ => True) (Tables.empty oneRoom) s ∧
      s.Pending ⟨(), (), false⟩ ∧ s.getUnreadCounts oneRoom ⟨(), (), false⟩ = ⟨3, 2, 1⟩ ∧
      s.handleNewReceipts.getUnreadCounts oneRoom ⟨(), (), false⟩ = s.getUnreadCounts oneRoom ⟨(), (), false⟩ ∧
      ∃ m, s.latestReceipt ⟨(), (), false⟩ = some m ∧ s.getUnreadCounts oneRoom ⟨(), (), false⟩ =
        s.insertedAfter ⟨(), (), false⟩ (if ∃ rc ∈ s.receiptsLinearized, rc.Affects ⟨(), (), false⟩ ∧ rc.thread = none
          then m else max m 0) :=
  Run.exists_get backwards (by decide +kernel) fun hrun => ⟨by decide +kernel, by decide +kernel,
    (fold_transparent oneRoom hrun _).1, (fold_transparent oneRoom hrun _).2 (by decide +kernel)⟩

/-- The user is in the room since event 6; the invite, event 5, has a push action. -/
def invitedRoom : Setup Unit Unit := ⟨fun _ _ => 6, 0, 10000⟩

/-- A threaded receipt for an event before the invite: the push action of the invite was inserted after it, and
    is not reported, as the reader goes by the join. -/
theorem receipt_before_join :
    ∃ s : Tables Unit Unit Bool, Run (step invitedRoom) (fun _ _ => True) (Tables.empty invitedRoom) s ∧
      s.Pending ⟨(), (), false⟩ ∧ s.latestReceipt ⟨(), (), false⟩ = some 3 ∧
      s.insertedAfter ⟨(), (), false⟩ 3 = ⟨1, 1, 0⟩ ∧
      s.getUnreadCounts invitedRoom ⟨(), (), false⟩ = ⟨0, 0, 0⟩ :=
  Run.exists_exec [.insert 3 [], .insert 5 [action false true true], .insert 6 [],
    .receipt ⟨(), .read, (), some false, 0, 3⟩] (by decide +kernel)

end Sithnapse.PushActions
