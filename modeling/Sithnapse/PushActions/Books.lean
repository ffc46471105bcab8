import Sithnapse.Kit.Loop
import Sithnapse.PushActions.Tables

/-! What the tables keep to.

    `Books` relates the push actions that are left, the summary rows and the receipts, whatever the order of
    the transactions. It says of no row that its counts are right: rotation does not always keep them so. It
    says which rows can be trusted at all, and which actions are still there to be counted. -/

namespace Sithnapse.PushActions

open Kit List

variable {U R T : Type} [DecidableEq U] [DecidableEq R] [DecidableEq T]

/-- The actions a rotation takes up for a place. -/
def Tables.InWindow (s : Tables U R T) (rotateTo : ℕ) (p : Place U R T) (ea : PushAction U R T) : Prop :=
  ea.place = p ∧ s.rotatedUpto < ea.streamOrdering ∧ ea.streamOrdering ≤ rotateTo ∧
    ∀ row ∈ s.eventPushSummary p, ∀ l ∈ row.lastReceiptStreamOrdering, l < ea.streamOrdering

/-- A row is dated by the last unread action taken up, or by the last that notifies if none is unread. -/
def Tables.Dated (s : Tables U R T) (rotateTo : ℕ) (p : Place U R T) (row : Summary) : Prop :=
  ∀ m, m < row.streamOrdering ↔ ∃ k, (k = .notif → s.rotatedCount rotateTo p .unread = none) ∧
    ∃ ea ∈ s.eventPushActions, s.InWindow rotateTo p ea ∧ ea.flag k = true ∧ m < ea.streamOrdering

structure Books (s : Tables U R T) : Prop where
  rotated_le : s.rotatedUpto ≤ s.streamToken
  receipt_id : ∀ rc ∈ s.receiptsLinearized, rc.streamId ≤ s.receiptsToken
  receipt_ids : (s.receiptsLinearized.map (·.streamId)).Nodup
  summary_le : ∀ p row, s.eventPushSummary p = some row → row.streamOrdering ≤ s.rotatedUpto
  /-- What is counted is after the receipt the row was counted for. -/
  counted : ∀ p row, s.eventPushSummary p = some row → row.notifCount ≠ 0 ∨ row.unreadCount ≠ 0 →
    ∀ l ∈ row.lastReceiptStreamOrdering, l < s.rotatedUpto
  /-- A row of zeros is due to a receipt, and there is nothing to count for it. -/
  zero : ∀ p row, s.eventPushSummary p = some row → row.notifCount = 0 → row.unreadCount = 0 →
    ∃ l, row.lastReceiptStreamOrdering = some l ∧ ∀ ea ∈ s.eventPushActions, ea.place = p →
      l < ea.streamOrdering → ea.streamOrdering ≤ s.rotatedUpto → ∀ k, ea.flag k = false
  /-- No action after all receipts for its place is deleted. -/
  kept : ∀ p m, (∀ rc ∈ s.receiptsLinearized, rc.Affects p → rc.eventStreamOrdering ≤ m) →
    (s.eventPushActions.filter fun ea => ea.place = p ∧ m < ea.streamOrdering) =
      s.inserted.filter fun ea => ea.place = p ∧ m < ea.streamOrdering

theorem books_empty (g : Setup U R) : Books (Tables.empty g : Tables U R T) := by
  refine ⟨?_, ?_, ?_, ?_, ?_, ?_, ?_⟩ <;> simp [Tables.empty]

namespace Books

variable {g : Setup U R} {s : Tables U R T} {ea : PushAction U R T} {rc : Receipt U R T} {p : Place U R T}

/-! ### Push actions -/

theorem insertActions (h : Books s) {streamOrdering : ℕ} (hso : s.streamToken < streamOrdering)
    (actions : List (PushAction U R T)) : Books (s.insertActions streamOrdering actions) := by
  have hnew : ∀ {l : List (PushAction U R T)} {ea : PushAction U R T},
      ea ∈ l ++ actions.map ({ · with streamOrdering := streamOrdering }) →
      ea ∈ l ∨ ea.streamOrdering = streamOrdering := by
    intro l ea hea
    rcases mem_append.mp hea with hea | hea
    · exact .inl hea
    · obtain ⟨ea', -, rfl⟩ := mem_map.mp hea
      exact .inr rfl
  have hrotated := h.rotated_le
  refine ⟨hrotated.trans hso.le, h.receipt_id, h.receipt_ids, h.summary_le, h.counted,
    fun p row hp hn hu => ?_, fun p m hm => ?_⟩
  · obtain ⟨l, hl, hnone⟩ := h.zero p row hp hn hu
    refine ⟨l, hl, fun ea hea hpl hlt hle => ?_⟩
    rcases hnew hea with hea | hea
    · exact hnone ea hea hpl hlt hle
    · exact absurd (hea ▸ hle) (hrotated.trans_lt hso).not_ge
  · show ((s.eventPushActions ++ _).filter _) = ((s.inserted ++ _).filter _)
    rw [filter_append, filter_append, h.kept p m hm]

/-! ### Receipts are stored -/

theorem mem_insertReceipt {x : Receipt U R T} (hx : x ∈ (s.insertReceipt rc).receiptsLinearized) :
    x ∈ s.receiptsLinearized ∨ x = { rc with streamId := s.receiptsToken + 1 } := by
  simp only [Tables.insertReceipt] at hx
  split at hx
  · exact .inl hx
  · exact (mem_concat.mp hx).imp_left fun hx => (mem_filter.mp hx).1

theorem insertReceipt_fields (s : Tables U R T) (rc : Receipt U R T) :
    (s.insertReceipt rc).eventPushActions = s.eventPushActions ∧
    (s.insertReceipt rc).eventPushSummary = s.eventPushSummary ∧
    (s.insertReceipt rc).rotatedUpto = s.rotatedUpto ∧ (s.insertReceipt rc).streamToken = s.streamToken ∧
    (s.insertReceipt rc).lastReceiptStreamId = s.lastReceiptStreamId ∧
    (s.insertReceipt rc).receiptsToken = s.receiptsToken + 1 ∧ (s.insertReceipt rc).inserted = s.inserted := by
  simp only [Tables.insertReceipt]
  split <;> exact ⟨rfl, rfl, rfl, rfl, rfl, rfl, rfl⟩

/-- A receipt that is replaced is for an earlier event of the same place. -/
theorem receipt_replaced (rc : Receipt U R T) {x : Receipt U R T} (hx : x ∈ s.receiptsLinearized) :
    ∃ y ∈ (s.insertReceipt rc).receiptsLinearized, x.eventStreamOrdering ≤ y.eventStreamOrdering ∧
      ∀ p, x.Affects p → y.Affects p := by
  simp only [Tables.insertReceipt]
  split_ifs with hnew
  · exact ⟨x, hx, le_rfl, fun _ h => h⟩
  · by_cases hsame : Tables.SameReceipt { rc with streamId := s.receiptsToken + 1 } x
    · refine ⟨_, mem_concat_self, ?_, fun p hp => ?_⟩
      · by_contra hlt
        exact hnew ⟨x, hx, hsame, (not_le.mp hlt).le⟩
      · obtain ⟨hroom, -, huser, hthread⟩ := hsame
        exact ⟨huser ▸ hp.1, hroom ▸ hp.2.1, hthread ▸ hp.2.2⟩
    · exact ⟨x, mem_append_left _ (mem_filter.mpr ⟨hx, decide_eq_true hsame⟩), le_rfl, fun _ h => h⟩

theorem insertReceipt (h : Books s) : Books (s.insertReceipt rc) := by
  obtain ⟨hactions, hsummary, hrotated, htoken, -, hids, hinserted⟩ := insertReceipt_fields s rc
  refine ⟨?_, fun x hx => ?_, ?_, ?_, ?_, ?_, fun p m hm => ?_⟩
  · rw [hrotated, htoken]
    exact h.rotated_le
  · rw [hids]
    rcases mem_insertReceipt hx with hx | hx
    · exact (h.receipt_id x hx).trans (Nat.le_succ _)
    · rw [hx]
  · simp only [Tables.insertReceipt]
    split
    · exact h.receipt_ids
    · rw [map_append, nodup_append]
      refine ⟨(filter_sublist.map _).nodup h.receipt_ids, nodup_singleton _, ?_⟩
      rintro i hi j hj rfl
      obtain ⟨x, hx, rfl⟩ := mem_map.mp hi
      obtain ⟨y, hy, hxy⟩ := mem_map.mp hj
      rw [mem_singleton.mp hy] at hxy
      have hle := h.receipt_id x (mem_filter.mp hx).1
      rw [← hxy] at hle
      exact absurd hle (Nat.lt_irrefl _)
  · rw [hsummary, hrotated]
    exact h.summary_le
  · rw [hsummary, hrotated]
    exact h.counted
  · rw [hsummary, hactions, hrotated]
    exact h.zero
  · rw [hactions, hinserted]
    refine h.kept p m fun x hx ha => ?_
    obtain ⟨y, hy, hle, haff⟩ := receipt_replaced rc hx
    exact hle.trans (hm y hy (haff p ha))

/-! ### Rotation -/

theorem rotatedCount_none {rotateTo : ℕ} {k : Kind} (h : s.rotatedCount rotateTo p k = none)
    (hea : ea ∈ s.eventPushActions) (hw : s.InWindow rotateTo p ea) : ea.flag k = false := by
  rw [Tables.rotatedCount, Option.map_eq_none_iff, max?_eq_none_iff, map_eq_nil_iff, filter_eq_nil_iff] at h
  by_contra hflag
  rw [Bool.not_eq_false] at hflag
  exact h ea hea (decide_eq_true ⟨hw.1, hw.2.1, hw.2.2.1, hw.2.2.2, hflag⟩)

theorem rotatedCount_some {rotateTo : ℕ} {k : Kind} {count last : ℕ}
    (h : s.rotatedCount rotateTo p k = some (count, last)) :
    count ≠ 0 ∧ ∃ ea ∈ s.eventPushActions, s.InWindow rotateTo p ea ∧ ea.streamOrdering = last ∧
      ∀ m, m < last ↔ ∃ ea ∈ s.eventPushActions, s.InWindow rotateTo p ea ∧ ea.flag k = true ∧
        m < ea.streamOrdering := by
  rw [Tables.rotatedCount, Option.map_eq_some_iff] at h
  obtain ⟨last', hmax, heq⟩ := h
  cases heq
  obtain ⟨hlast, hle⟩ := max?_eq_some_iff.mp hmax
  obtain ⟨ea, hea, rfl⟩ := mem_map.mp hlast
  have hpos := length_pos_of_mem hea
  obtain ⟨hmem, hw⟩ := mem_filter.mp hea
  obtain ⟨hp, hlo, hhi, hlr, hflag⟩ := of_decide_eq_true hw
  refine ⟨(Nat.add_pos_right _ hpos).ne', ea, hmem, ⟨hp, hlo, hhi, hlr⟩, rfl, fun m => ⟨fun hm => ?_, ?_⟩⟩
  · exact ⟨ea, hmem, ⟨hp, hlo, hhi, hlr⟩, hflag, hm⟩
  · rintro ⟨ea', hea', ⟨hp', hlo', hhi', hlr'⟩, hflag', hm⟩
    refine hm.trans_le (hle _ (mem_map_of_mem (mem_filter.mpr ⟨hea', ?_⟩)))
    exact decide_eq_true ⟨hp', hlo', hhi', hlr', hflag'⟩

/-- What a rotation does to the row of a place: nothing if there is nothing of either kind to add, and else
    each count is that of the query for it, or zero if the query has no result. -/
theorem rotateBefore_cases (s : Tables U R T) (rotateTo : ℕ) (p : Place U R T) :
    ((∀ k, s.rotatedCount rotateTo p k = none) ∧
      (s.rotateBefore rotateTo).eventPushSummary p = s.eventPushSummary p) ∨
    ∃ row ea, (s.rotateBefore rotateTo).eventPushSummary p = some row ∧
      row.lastReceiptStreamOrdering = (s.eventPushSummary p).bind (·.lastReceiptStreamOrdering) ∧
      (∀ k, row.count k = ((s.rotatedCount rotateTo p k).map Prod.fst).getD 0) ∧
      (row.notifCount ≠ 0 ∨ row.unreadCount ≠ 0) ∧
      ea ∈ s.eventPushActions ∧ s.InWindow rotateTo p ea ∧ ea.streamOrdering = row.streamOrdering ∧
      s.Dated rotateTo p row := by
  simp only [Tables.rotateBefore, Tables.Dated]
  cases hunread : s.rotatedCount rotateTo p .unread with
  | none =>
    cases hnotif : s.rotatedCount rotateTo p .notif with
    | none =>
      refine .inl ⟨fun k => ?_, rfl⟩
      cases k with
      | notif => exact hnotif
      | unread => exact hunread
    | some x =>
      obtain ⟨hne, ea, hea, hw, hlast, hdate⟩ := rotatedCount_some hnotif
      refine .inr ⟨_, ea, rfl, rfl, fun k => ?_, .inl hne, hea, hw, hlast, fun m => (hdate m).trans ?_⟩
      · cases k with
        | notif => rw [hnotif]; rfl
        | unread => rw [hunread]; rfl
      · refine ⟨fun h => ⟨.notif, fun _ => rfl, h⟩, ?_⟩
        rintro ⟨k, -, ea', hea', hw', hflag, hm⟩
        cases k with
        | notif => exact ⟨ea', hea', hw', hflag, hm⟩
        | unread => rw [rotatedCount_none hunread hea' hw'] at hflag; cases hflag
  | some x =>
    obtain ⟨hne, ea, hea, hw, hlast, hdate⟩ := rotatedCount_some hunread
    cases hnotif : s.rotatedCount rotateTo p .notif with
    | none | some =>
      refine .inr ⟨_, ea, rfl, rfl, fun k => ?_, .inr hne, hea, hw, hlast, fun m => (hdate m).trans ?_⟩
      · cases k with
        | notif => rw [hnotif]; rfl
        | unread => rw [hunread]; rfl
      · refine ⟨fun h => ⟨.unread, nofun, h⟩, ?_⟩
        rintro ⟨k, hk, h⟩
        cases k with
        | notif => cases hk rfl
        | unread => exact h

/-- Rotation goes forward, up to the stream's token. -/
theorem rotateTo_bounds (h : Books s) :
    s.rotatedUpto ≤ s.rotateTo g ∧ s.rotateTo g ≤ s.streamToken := by
  rw [Tables.rotateTo]
  split
  · rename_i offset hoffset
    have hmem := mem_of_getElem? hoffset
    rw [mem_insertionSort] at hmem
    obtain ⟨ea, hea, rfl⟩ := mem_map.mp hmem
    have hlt := of_decide_eq_true (mem_filter.mp hea).2
    exact ⟨le_min hlt.le h.rotated_le, min_le_right _ _⟩
  · exact ⟨h.rotated_le, le_rfl⟩

theorem rotateBefore (h : Books s) {rotateTo : ℕ} (hlo : s.rotatedUpto ≤ rotateTo)
    (hhi : rotateTo ≤ s.streamToken) : Books (s.rotateBefore rotateTo) := by
  refine ⟨hhi, h.receipt_id, h.receipt_ids, fun p row hp => ?_, fun p row hp hne l hl => ?_,
    fun p row hp hn hu => ?_, h.kept⟩
  · rcases rotateBefore_cases s rotateTo p with ⟨-, hsame⟩ | ⟨row', ea, hrow, -, -, -, -, hw, hlast, -⟩
    · exact (h.summary_le p row (hsame ▸ hp)).trans hlo
    · obtain rfl := Option.mem_unique hrow hp
      exact hlast ▸ hw.2.2.1
  · rcases rotateBefore_cases s rotateTo p with ⟨-, hsame⟩ | ⟨row', ea, hrow, hlr, -, -, -, hw, -⟩
    · exact (h.counted p row (hsame ▸ hp) hne l hl).trans_le hlo
    · obtain rfl := Option.mem_unique hrow hp
      rw [hlr] at hl
      obtain ⟨row₀, hrow₀, hl⟩ := Option.mem_bind_iff.mp hl
      exact (hw.2.2.2 row₀ hrow₀ l hl).trans_le hw.2.2.1
  · rcases rotateBefore_cases s rotateTo p with ⟨hnone, hsame⟩ | ⟨row', ea, hrow, -, -, hne, -⟩
    · rw [hsame] at hp
      obtain ⟨l, hl, hzero⟩ := h.zero p row hp hn hu
      refine ⟨l, hl, fun ea hea hpl hlt hle k => ?_⟩
      by_cases hold : ea.streamOrdering ≤ s.rotatedUpto
      · exact hzero ea hea hpl hlt hold k
      · refine rotatedCount_none (hnone k) hea ⟨hpl, not_le.mp hold, hle, fun row' hrow' l' hl' => ?_⟩
        obtain rfl := Option.mem_unique hp hrow'
        obtain rfl := Option.mem_unique hl hl'
        exact hlt
    · obtain rfl := Option.mem_unique hrow hp
      rcases hne with hne | hne
      · exact absurd hn hne
      · exact absurd hu hne

/-! ### Receipts are folded -/

theorem foldReceipt_fields (s : Tables U R T) (rc : Receipt U R T) :
    (s.foldReceipt rc).rotatedUpto = s.rotatedUpto ∧ (s.foldReceipt rc).streamToken = s.streamToken ∧
    (s.foldReceipt rc).receiptsLinearized = s.receiptsLinearized ∧
    (s.foldReceipt rc).receiptsToken = s.receiptsToken ∧ (s.foldReceipt rc).inserted = s.inserted ∧
    (s.foldReceipt rc).lastReceiptStreamId = s.lastReceiptStreamId := ⟨rfl, rfl, rfl, rfl, rfl, rfl⟩

theorem mem_foldReceipt :
    ea ∈ (s.foldReceipt rc).eventPushActions ↔ ea ∈ s.eventPushActions ∧ ¬ Tables.Redundant rc ea := by
  simp [Tables.foldReceipt]

/-- The row of a place after a receipt for it is folded in: the actions left between the receipt and the
    rotation, counted; there may be none only if there are no actions and the receipt is unthreaded. -/
theorem foldReceipt_summary (ha : rc.Affects p) : (s.foldReceipt rc).eventPushSummary p = some
      ⟨countBetween (s.foldReceipt rc).eventPushActions p (·.notif) rc.eventStreamOrdering s.rotatedUpto,
        countBetween (s.foldReceipt rc).eventPushActions p (·.unread) rc.eventStreamOrdering s.rotatedUpto,
        s.rotatedUpto, some rc.eventStreamOrdering⟩ ∨
    (s.foldReceipt rc).eventPushSummary p = none ∧ s.eventPushSummary p = none ∧ rc.thread = none ∧
      ∀ ea ∈ (s.foldReceipt rc).eventPushActions, ea.place ≠ p := by
  obtain ⟨actions, hactions⟩ : ∃ l, l = s.eventPushActions.filter (¬ Tables.Redundant rc ·) := ⟨_, rfl⟩
  have hleft : (s.foldReceipt rc).eventPushActions = actions := hactions.symm
  rw [hleft]
  simp only [Tables.foldReceipt, ← hactions]
  cases hcounts : Tables.countsSince actions rc s.rotatedUpto p with
  | some x =>
    rw [Tables.countsSince] at hcounts
    split at hcounts
    · cases hcounts
      exact .inl rfl
    · cases hcounts
  | none =>
    -- nothing to count: both counts are zero
    have hzero : ∀ test, countBetween actions p test rc.eventStreamOrdering s.rotatedUpto = 0 := by
      intro test
      rw [countBetween_eq_zero]
      intro ea hea hp hlt hle
      rw [Tables.countsSince, if_pos ⟨ha, not_le.mpr (hlt.trans_le hle), ea, hea, hp, hlt, hle⟩] at hcounts
      cases hcounts
    rw [hzero, hzero, Option.none_or]
    by_cases hthread : rc.thread = none
    · rw [if_neg (fun h => h.1 hthread)]
      by_cases hrow : (s.eventPushSummary p).isSome ∨ ∃ ea ∈ actions, ea.place = p
      · simp only [if_pos (⟨hthread, ha, hrow⟩ : _ ∧ _ ∧ _)]
        exact .inl trivial
      · simp only [hthread, ha, hrow, and_false, if_false]
        obtain ⟨hnone, hnot⟩ := not_or.mp hrow
        rw [Option.not_isSome_iff_eq_none] at hnone
        exact .inr ⟨hnone, hnone, trivial, fun ea hea hp => hnot ⟨ea, hea, hp⟩⟩
    · rw [if_pos ⟨hthread, ha⟩]
      exact .inl rfl

/-- Other places are left alone. -/
theorem foldReceipt_other (ha : ¬ rc.Affects p) :
    (s.foldReceipt rc).eventPushSummary p = s.eventPushSummary p := by
  simp only [Tables.foldReceipt, Tables.countsSince, ha, false_and, and_false, if_false, Option.none_or]

/-- A row after a receipt was folded in is the one for the receipt, or the one before. -/
theorem foldReceipt_some {row : Summary} (hp : (s.foldReceipt rc).eventPushSummary p = some row) :
    row = ⟨countBetween (s.foldReceipt rc).eventPushActions p (·.notif) rc.eventStreamOrdering s.rotatedUpto,
        countBetween (s.foldReceipt rc).eventPushActions p (·.unread) rc.eventStreamOrdering s.rotatedUpto,
        s.rotatedUpto, some rc.eventStreamOrdering⟩ ∨ ¬ rc.Affects p ∧ s.eventPushSummary p = some row := by
  by_cases ha : rc.Affects p
  · rcases foldReceipt_summary ha with hrow | ⟨hrow, -⟩
    · exact .inl (Option.mem_unique hp hrow)
    · rw [hp] at hrow
      cases hrow
  · exact .inr ⟨ha, foldReceipt_other ha ▸ hp⟩

theorem foldReceipt (h : Books s) (hrc : rc ∈ s.receiptsLinearized) : Books (s.foldReceipt rc) := by
  have hsub : ∀ ea ∈ (s.foldReceipt rc).eventPushActions, ea ∈ s.eventPushActions := fun ea hea =>
    (mem_foldReceipt.mp hea).1
  refine ⟨h.rotated_le, h.receipt_id, h.receipt_ids, fun p row hp => ?_, fun p row hp hne l hl => ?_,
    fun p row hp hn hu => ?_, fun p m hm => ?_⟩
  · rcases foldReceipt_some hp with rfl | ⟨-, hp⟩
    · exact le_rfl
    · exact h.summary_le p row hp
  · rcases foldReceipt_some hp with rfl | ⟨-, hp⟩
    · cases hl
      by_contra hle
      -- the receipt is after the rotation, so there is nothing between them
      have hzero : ∀ test, countBetween (s.foldReceipt rc).eventPushActions p test rc.eventStreamOrdering
          s.rotatedUpto = 0 := fun test => countBetween_eq_zero.mpr fun ea _ _ hlt hle' =>
        absurd (hlt.trans_le hle') hle
      rcases hne with hne | hne
      · exact hne (hzero _)
      · exact hne (hzero _)
    · exact h.counted p row hp hne l hl
  · rcases foldReceipt_some hp with rfl | ⟨-, hp⟩
    · refine ⟨rc.eventStreamOrdering, rfl, fun ea hea hpl hlt hle k => ?_⟩
      cases k with
      | notif => exact countBetween_eq_zero.mp hn ea hea hpl hlt hle
      | unread => exact countBetween_eq_zero.mp hu ea hea hpl hlt hle
    · obtain ⟨l, hl, hzero⟩ := h.zero p row hp hn hu
      exact ⟨l, hl, fun ea hea => hzero ea (hsub ea hea)⟩
  · rw [(foldReceipt_fields s rc).2.2.2.2.1, ← h.kept p m hm]
    show ((s.eventPushActions.filter _).filter _) = _
    rw [filter_filter]
    refine filter_congr fun ea _ => ?_
    by_cases hea : ea.place = p ∧ m < ea.streamOrdering
    · have hnot : ¬ Tables.Redundant rc ea := fun hred =>
        absurd (hred.2.1.trans (hm rc hrc (hea.1 ▸ hred.1))) (not_le.mpr hea.2)
      simp [hea, hnot]
    · simp [hea]

theorem foldReceipts : ∀ (l : List (Receipt U R T)) {s : Tables U R T}, Books s →
    (∀ rc ∈ l, rc ∈ s.receiptsLinearized) → Books (l.foldl Tables.foldReceipt s) ∧
      (l.foldl Tables.foldReceipt s).receiptsLinearized = s.receiptsLinearized ∧
      (l.foldl Tables.foldReceipt s).receiptsToken = s.receiptsToken ∧
      (l.foldl Tables.foldReceipt s).rotatedUpto = s.rotatedUpto ∧
      (l.foldl Tables.foldReceipt s).inserted = s.inserted
  | [], _, h, _ => ⟨h, rfl, rfl, rfl, rfl⟩
  | rc :: l, _, h, hl => foldReceipts l (h.foldReceipt (hl rc (.head _))) fun x hx => hl x (.tail _ hx)

end Books

/-! ### Runs -/

instance : Std.Total fun rc rc' : Receipt U R T => rc.streamId ≤ rc'.streamId :=
  ⟨fun rc rc' => Nat.le_total rc.streamId rc'.streamId⟩

instance : IsTrans (Receipt U R T) fun rc rc' => rc.streamId ≤ rc'.streamId :=
  ⟨fun _ _ _ h h' => Nat.le_trans h h'⟩

structure Sound (s : Tables U R T) : Prop where
  books : Books s
  last_le : s.lastReceiptStreamId ≤ s.receiptsToken

namespace Sound

variable {g : Setup U R} {s : Tables U R T}

omit [DecidableEq U] [DecidableEq R] [DecidableEq T] in
theorem mem_newReceipts {rc : Receipt U R T} (hrc : rc ∈ s.newReceipts) :
    rc ∈ s.receiptsLinearized ∧ s.lastReceiptStreamId < rc.streamId ∧ rc.streamId ≤ s.receiptsToken := by
  have hmem := (mem_insertionSort _).mp (mem_of_mem_take hrc)
  exact ⟨(mem_filter.mp hmem).1, of_decide_eq_true (mem_filter.mp hmem).2⟩

/-- The new watermark is not past a receipt that was left for the next time. -/
theorem newReceipts_complete (h : Sound s) {rc : Receipt U R T} (hrc : rc ∈ s.receiptsLinearized)
    (hle : rc.streamId ≤ s.handleNewReceipts.lastReceiptStreamId) :
    rc.streamId ≤ s.lastReceiptStreamId ∨ rc ∈ s.newReceipts := by
  by_cases hnew : rc.streamId ≤ s.lastReceiptStreamId
  · exact .inl hnew
  refine .inr ?_
  obtain ⟨sorted, hsorted⟩ : ∃ l, l = (s.receiptsLinearized.filter fun rc =>
    s.lastReceiptStreamId < rc.streamId ∧ rc.streamId ≤ s.receiptsToken).insertionSort
      (fun rc rc' => rc.streamId ≤ rc'.streamId) := ⟨_, rfl⟩
  have hrows : s.newReceipts = sorted.take Tables.receiptsLimit := by rw [hsorted]; rfl
  have hmem : rc ∈ sorted := by
    rw [hsorted, mem_insertionSort]
    exact mem_filter.mpr ⟨hrc, decide_eq_true ⟨not_le.mp hnew, h.books.receipt_id rc hrc⟩⟩
  by_cases hlimit : Tables.receiptsLimit ≤ s.newReceipts.length
  · rw [← take_append_drop Tables.receiptsLimit sorted, ← hrows] at hmem
    rcases mem_append.mp hmem with hmem | hdrop
    · exact hmem
    have hne : s.newReceipts ≠ [] := by
      intro hnil
      rw [hnil, length_nil] at hlimit
      exact absurd hlimit (Nat.not_succ_le_zero _)
    obtain ⟨last, hlast⟩ : ∃ last, last = s.newReceipts.getLast hne := ⟨_, rfl⟩
    have hlastMem : last ∈ s.newReceipts := hlast ▸ getLast_mem hne
    have hbound : s.handleNewReceipts.lastReceiptStreamId = last.streamId := by
      simp only [Tables.handleNewReceipts, if_pos hlimit, getLast?_eq_some_getLast hne, ← hlast,
        Option.map_some, Option.getD_some]
    have hpair := pairwise_insertionSort (fun rc rc' : Receipt U R T => rc.streamId ≤ rc'.streamId)
      (s.receiptsLinearized.filter fun rc => s.lastReceiptStreamId < rc.streamId ∧ rc.streamId ≤ s.receiptsToken)
    rw [← hsorted, ← take_append_drop Tables.receiptsLimit sorted, ← hrows, pairwise_append] at hpair
    have heq : last.streamId = rc.streamId := le_antisymm (hpair.2.2 last hlastMem rc hdrop) (hbound ▸ hle)
    have hsame := inj_on_of_nodup_map h.books.receipt_ids (mem_newReceipts hlastMem).1 hrc heq
    exact hsame ▸ hlastMem
  · have hshort : sorted.length ≤ Tables.receiptsLimit := by
      rw [hrows, length_take] at hlimit
      omega
    rwa [hrows, take_of_length_le hshort]

theorem handleNewReceipts (h : Sound s) : Sound s.handleNewReceipts := by
  obtain ⟨hbooks, -, htoken, -, -⟩ := h.books.foldReceipts s.newReceipts fun rc hrc => (mem_newReceipts hrc).1
  have htoken : s.handleNewReceipts.receiptsToken = s.receiptsToken := htoken
  refine ⟨{ hbooks with }, ?_⟩
  rw [htoken]
  simp only [Tables.handleNewReceipts]
  split
  · cases hlast : s.newReceipts.getLast? with
    | none => exact le_rfl
    | some last => exact (mem_newReceipts (mem_of_getLast? hlast)).2.2
  · exact le_rfl

theorem step {s' : Tables U R T} {a : Action U R T} (h : Sound s) (hs : PushActions.step g s a = some s') :
    Sound s' := by
  cases a with
  | insert streamOrdering actions =>
    rw [PushActions.step] at hs
    split at hs
    · rename_i hso
      cases hs
      exact ⟨h.books.insertActions hso actions, h.last_le⟩
    · cases hs
  | receipt rc =>
    rw [PushActions.step] at hs
    split at hs
    · cases hs
      obtain ⟨-, -, -, -, hlast, htoken, -⟩ := Books.insertReceipt_fields s rc
      refine ⟨h.books.insertReceipt, ?_⟩
      rw [hlast, htoken]
      exact h.last_le.trans (Nat.le_succ _)
    · cases hs
  | handleReceipts =>
    cases hs
    exact h.handleNewReceipts
  | rotate =>
    cases hs
    obtain ⟨hlo, hhi⟩ := h.books.rotateTo_bounds
    exact ⟨h.books.rotateBefore hlo hhi, h.last_le⟩

end Sound

theorem sound_run {g : Setup U R} {s : Tables U R T} (h : Run (step g) (fun _ _ => True) (Tables.empty g) s) :
    Sound s :=
  h.invariant ⟨books_empty g, le_rfl⟩ fun hI _ hs => hI.step hs

end Sithnapse.PushActions
