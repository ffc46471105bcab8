import Sithnapse.PushActions.Books

/-! Rotating notifications.

    Rotation leaves receipts and push actions alone, so it can only change which summary rows the reader uses
    and what they hold. A row that was usable is counted on with two separate queries, and the one that finds
    nothing resets its count: the reported counts stay the same exactly if that count was zero (`Balanced`). A
    row that becomes usable since a receipt was folded into it holds what the reader counted before. One that
    no receipt was folded into becomes usable when it is dated after what the reader goes by (`TakenUp`), which
    may be the join: then the row also has actions from before it (`CountsOn`). -/

namespace Sithnapse.PushActions

open Kit List Option

variable {U R T : Type} [DecidableEq U] [DecidableEq R] [DecidableEq T]

/-! ### Receipts and the reader -/

section Reader

variable {g : Setup U R} {s : Tables U R T} {p : Place U R T}

theorem unthreaded_le_readUpto (g : Setup U R) (s : Tables U R T) (p : Place U R T) :
    s.unthreadedReceipt g p.user p.room ≤ s.readUpto g p := by
  rw [Tables.readUpto]
  cases hthreaded : s.threadedReceipt g p with
  | none => exact le_rfl
  | some m =>
    obtain ⟨rc, hrc, rfl⟩ := mem_map.mp (max?_mem hthreaded)
    exact (of_decide_eq_true (mem_filter.mp hrc).2).2.2.2.le

/-- What counts as read is up to the latest receipt about the place. -/
theorem receipt_le_readUpto (g : Setup U R) {rc : Receipt U R T} (hrc : rc ∈ s.receiptsLinearized)
    (ha : rc.Affects p) : rc.eventStreamOrdering ≤ s.readUpto g p := by
  obtain ⟨huser, hroom, hthread⟩ := ha
  by_cases hle : rc.eventStreamOrdering ≤ s.unthreadedReceipt g p.user p.room
  · exact hle.trans (unthreaded_le_readUpto g s p)
  cases ht : rc.thread with
  | none =>
    refine absurd (le_max?_getD_of_mem (mem_map_of_mem (mem_filter.mpr ⟨hrc, ?_⟩))) hle
    exact decide_eq_true ⟨huser, hroom, by rw [ht]; rfl⟩
  | some t =>
    rw [ht] at hthread
    have hpt : rc.thread = some p.thread := by rw [ht, hthread t rfl]
    rw [Tables.readUpto]
    refine le_max?_getD_of_mem (mem_map_of_mem (mem_filter.mpr ⟨hrc, ?_⟩))
    exact decide_eq_true ⟨huser, hroom, hpt, not_le.mp hle⟩

/-- Only a row that receipts were folded into has no counts. -/
theorem Sound.nonzero (h : Sound s) {row : Summary} (hrow : s.eventPushSummary p = some row)
    (hl : row.lastReceiptStreamOrdering = none) : row.notifCount ≠ 0 ∨ row.unreadCount ≠ 0 := by
  by_contra hzero
  obtain ⟨hn, hu⟩ := not_or.mp hzero
  obtain ⟨l, hlast, -⟩ := h.books.zero p row hrow (not_not.mp hn) (not_not.mp hu)
  rw [hl] at hlast
  cases hlast

theorem summarised_of_usable {row : Summary} (hrow : s.eventPushSummary p = some row) (hu : s.Usable g p row) :
    s.summarised g p = some row := by
  rw [Tables.summarised, hrow]
  exact if_pos hu

theorem summarised_of_not_usable (h : ∀ row, s.eventPushSummary p = some row → ¬ s.Usable g p row) :
    s.summarised g p = none := by
  rw [Tables.summarised]
  cases hrow : s.eventPushSummary p with
  | none => rfl
  | some row => exact if_neg (h row hrow)

/-- Two bounds select the same actions of a kind. -/
theorem countAfter_eq {l : List (PushAction U R T)} {test : PushAction U R T → Bool} {lo lo' : ℕ}
    (h : ∀ ea ∈ l, ea.place = p → test ea = true → (lo < ea.streamOrdering ↔ lo' < ea.streamOrdering)) :
    countAfter l p test lo = countAfter l p test lo' := by
  refine countP_congr fun ea hea => ?_
  simp only [decide_eq_true_eq]
  constructor
  · rintro ⟨hp, hlo, ht⟩
    exact ⟨hp, (h ea hea hp ht).mp hlo, ht⟩
  · rintro ⟨hp, hlo, ht⟩
    exact ⟨hp, (h ea hea hp ht).mpr hlo, ht⟩

end Reader

/-! ### One place -/

/-- If a rotation takes up actions of one kind and none of another, the count of the other is zero. -/
def Tables.Balanced (s : Tables U R T) (rotateTo : ℕ) (p : Place U R T) (row : Summary) : Prop :=
  ∀ k k', countBetween s.eventPushActions p (·.flag k) s.rotatedUpto rotateTo ≠ 0 →
    countBetween s.eventPushActions p (·.flag k') s.rotatedUpto rotateTo = 0 → row.count k' = 0
  deriving Decidable

/-- No receipt was folded into the row of the place, if there is one, and it is not after what the reader goes by;
    but the action that a rotation dates it by is. -/
def Tables.TakenUp (g : Setup U R) (s : Tables U R T) (rotateTo : ℕ) (p : Place U R T) : Prop :=
  ¬ s.Pending p ∧ s.threadedReceipt g p = none ∧
  (∀ row ∈ s.eventPushSummary p, row.lastReceiptStreamOrdering = none ∧
    row.streamOrdering ≤ s.unthreadedReceipt g p.user p.room) ∧
  ∃ k, countBetween s.eventPushActions p (·.flag k) (max s.rotatedUpto (s.unthreadedReceipt g p.user p.room))
      rotateTo ≠ 0 ∧
    (k = .notif → countBetween s.eventPushActions p (·.flag .unread) s.rotatedUpto rotateTo = 0)
  deriving Decidable

/-- Of each kind that is taken up, the row and the actions since the last rotation up to what the reader goes by
    (the latest unthreaded receipt, or the join) make as many as there were from there to the last rotation; of
    another kind there were none. -/
def Tables.CountsOn (g : Setup U R) (s : Tables U R T) (rotateTo : ℕ) (p : Place U R T) : Prop :=
  ∀ k, if countBetween s.eventPushActions p (·.flag k) s.rotatedUpto rotateTo = 0 then
      countBetween s.eventPushActions p (·.flag k) (s.unthreadedReceipt g p.user p.room) s.rotatedUpto = 0
    else (s.eventPushSummary p).elim 0 (·.count k) +
        countBetween s.eventPushActions p (·.flag k) s.rotatedUpto (s.unthreadedReceipt g p.user p.room) =
      countBetween s.eventPushActions p (·.flag k) (s.unthreadedReceipt g p.user p.room) s.rotatedUpto
  deriving Decidable

section Rotate

variable {g : Setup U R} {s : Tables U R T} {p : Place U R T} {rotateTo : ℕ}

/-- The query for a kind adds what lies between a bound and the end of the rotation. -/
theorem rotatedCount_eq {lo : ℕ} {k : Kind}
    (hlo : ∀ so, (s.rotatedUpto < so ∧ ∀ row ∈ s.eventPushSummary p, ∀ l ∈ row.lastReceiptStreamOrdering, l < so) ↔
      lo < so) :
    ((s.rotatedCount rotateTo p k).map Prod.fst).getD 0 =
      if countBetween s.eventPushActions p (·.flag k) lo rotateTo = 0 then 0
      else (s.eventPushSummary p).elim 0 (·.count k) +
        countBetween s.eventPushActions p (·.flag k) lo rotateTo := by
  obtain ⟨upd, hupd⟩ : ∃ l, l = s.eventPushActions.filter fun ea =>
    ea.place = p ∧ s.rotatedUpto < ea.streamOrdering ∧ ea.streamOrdering ≤ rotateTo ∧
      (∀ row ∈ s.eventPushSummary p, ∀ l ∈ row.lastReceiptStreamOrdering, l < ea.streamOrdering) ∧ ea.flag k :=
    ⟨_, rfl⟩
  have hcount : countBetween s.eventPushActions p (·.flag k) lo rotateTo = upd.length := by
    rw [hupd, ← countP_eq_length_filter, countBetween]
    refine countP_congr fun ea _ => ?_
    simp only [decide_eq_true_eq]
    rw [← hlo]
    tauto
  rw [hcount, Tables.rotatedCount, ← hupd]
  cases upd with
  | nil => rfl
  | cons ea upd =>
    have hne : ((ea :: upd).map (·.streamOrdering)).max? ≠ none := by
      rw [Ne, max?_eq_none_iff]
      exact cons_ne_nil _ _
    obtain ⟨last, hlast⟩ := ne_none_iff_exists'.mp hne
    simp only [hlast, map_some, getD_some]
    rw [if_neg (by simp)]

/-- A usable row whose counts are added to stays usable. -/
theorem usable_rotate (h : Sound s) {row row' : Summary} (hrow : s.eventPushSummary p = some row)
    (hu : s.Usable g p row) (hdate : s.rotatedUpto < row'.streamOrdering)
    (hl : row'.lastReceiptStreamOrdering = row.lastReceiptStreamOrdering)
    (hne : row'.notifCount ≠ 0 ∨ row'.unreadCount ≠ 0) : (s.rotateBefore rotateTo).Usable g p row' := by
  obtain ⟨hreceipt, hpending, -⟩ := hu
  refine ⟨?_, hpending, hne⟩
  rcases hreceipt with ⟨hnone, hthreaded, hlt⟩ | hsome
  · exact Or.inl ⟨hl.trans hnone, hthreaded, hlt.trans ((h.books.summary_le p row hrow).trans_lt hdate)⟩
  · exact Or.inr (hl.trans hsome)

/-- The bound from which a rotation counts on, for a usable row. -/
theorem usable_bound (h : Sound s) {row : Summary} (hrow : s.eventPushSummary p = some row)
    (hu : s.Usable g p row) (so : ℕ) :
    (s.rotatedUpto < so ∧ ∀ row ∈ s.eventPushSummary p, ∀ l ∈ row.lastReceiptStreamOrdering, l < so) ↔
      s.rotatedUpto < so := by
  refine and_iff_left_of_imp fun hlt row' hrow' l hl => ?_
  obtain rfl := mem_unique hrow hrow'
  exact (h.books.counted p row hrow hu.2.2 l hl).trans hlt

/-- A usable row: the counts stay if what a query resets was zero. -/
theorem reported_rotate_usable (h : Sound s) (hlo : s.rotatedUpto ≤ rotateTo) {row : Summary}
    (hrow : s.eventPushSummary p = some row) (hu : s.Usable g p row) :
    (∀ k, (s.rotateBefore rotateTo).reported g p k = s.reported g p k) ↔ s.Balanced rotateTo p row := by
  have hbefore : ∀ k, s.reported g p k = row.count k +
      (countBetween s.eventPushActions p (·.flag k) s.rotatedUpto rotateTo +
        countAfter s.eventPushActions p (·.flag k) rotateTo) := by
    intro k
    rw [Tables.reported, summarised_of_usable hrow hu, ← countAfter_split hlo]
  rcases Books.rotateBefore_cases s rotateTo p with ⟨hnone, hsame⟩ | ⟨row', ea, hrow', hl, hcounts, hne, hea, hw, hdate, -⟩
  · -- nothing to add
    have hzero : ∀ k, countBetween s.eventPushActions p (·.flag k) s.rotatedUpto rotateTo = 0 := by
      intro k
      rw [countBetween_eq_zero]
      intro ea hea hpl hlt hle
      exact Books.rotatedCount_none (hnone k) hea ⟨hpl, hlt, hle, ((usable_bound h hrow hu _).mpr hlt).2⟩
    refine iff_of_true (fun k => ?_) fun k k' hk _ => absurd (hzero k) hk
    rw [hbefore, hzero, Nat.zero_add, Tables.reported, summarised_of_usable (hsame.trans hrow) hu]
    rfl
  · have hafter : ∀ k, (s.rotateBefore rotateTo).reported g p k =
        (if countBetween s.eventPushActions p (·.flag k) s.rotatedUpto rotateTo = 0 then 0
          else row.count k + countBetween s.eventPushActions p (·.flag k) s.rotatedUpto rotateTo) +
        countAfter s.eventPushActions p (·.flag k) rotateTo := by
      intro k
      rw [hrow, bind_some] at hl
      rw [Tables.reported, summarised_of_usable hrow' (usable_rotate h hrow hu (hdate ▸ hw.2.1) hl hne)]
      show row'.count k + _ = _
      rw [hcounts, rotatedCount_eq (usable_bound h hrow hu), hrow]
      rfl
    -- some kind has actions in the window, since a count is not zero
    have hsome : ∃ k, countBetween s.eventPushActions p (·.flag k) s.rotatedUpto rotateTo ≠ 0 := by
      by_contra hall
      have hzero : ∀ k, row'.count k = 0 := by
        intro k
        rw [hcounts, rotatedCount_eq (usable_bound h hrow hu)]
        exact if_pos (not_not.mp fun hk => hall ⟨k, hk⟩)
      rcases hne with hne | hne
      · exact hne (hzero .notif)
      · exact hne (hzero .unread)
    constructor
    · intro heq k k' _ hk'
      have hk := heq k'
      rw [hafter, hbefore, if_pos hk', hk'] at hk
      omega
    · intro hbal k
      obtain ⟨k₀, hk₀⟩ := hsome
      rw [hafter, hbefore]
      split_ifs with hk
      · rw [hbal k₀ k hk₀ hk, hk]
        omega
      · omega

/-! A row that no receipt was folded into, or none. -/

section NoReceipt

variable (hlast : ∀ row ∈ s.eventPushSummary p, row.lastReceiptStreamOrdering = none)
include hlast

omit [DecidableEq U] [DecidableEq R] [DecidableEq T] in
theorem window_of_no_receipt (so : ℕ) :
    (s.rotatedUpto < so ∧ ∀ row ∈ s.eventPushSummary p, ∀ l ∈ row.lastReceiptStreamOrdering, l < so) ↔
      s.rotatedUpto < so := by
  refine and_iff_left fun row hrow l hl => ?_
  rw [hlast row hrow] at hl
  cases hl

theorem rotatedCount_eq_none {k : Kind} : s.rotatedCount rotateTo p k = none ↔
    countBetween s.eventPushActions p (·.flag k) s.rotatedUpto rotateTo = 0 := by
  rw [Tables.rotatedCount, Option.map_eq_none_iff, max?_eq_none_iff, map_eq_nil_iff, filter_eq_nil_iff,
    countBetween_eq_zero]
  refine forall₂_congr fun ea _ => ?_
  have hwindow := window_of_no_receipt hlast ea.streamOrdering
  rw [decide_eq_true_eq, ← Bool.not_eq_true]
  tauto

/-- What the row is dated by: it is after `m` if the deciding kind has an action after `m` to take up. -/
theorem rotate_dated {row' : Summary} (hdate : s.Dated rotateTo p row') (m : ℕ) :
    m < row'.streamOrdering ↔
      ∃ k, countBetween s.eventPushActions p (·.flag k) (max s.rotatedUpto m) rotateTo ≠ 0 ∧
        (k = .notif → countBetween s.eventPushActions p (·.flag .unread) s.rotatedUpto rotateTo = 0) := by
  rw [hdate m]
  refine exists_congr fun k => ?_
  rw [and_comm, rotatedCount_eq_none hlast, countBetween_ne_zero]
  refine and_congr_left fun _ => exists_congr fun ea => and_congr_right fun _ => ?_
  have hwindow := window_of_no_receipt hlast ea.streamOrdering
  rw [Tables.InWindow, max_lt_iff]
  tauto

end NoReceipt

theorem Tables.TakenUp.not_usable (ht : s.TakenUp g rotateTo p) {row : Summary}
    (hsome : s.eventPushSummary p = some row) : ¬ s.Usable g p row := by
  obtain ⟨-, -, hrow, -⟩ := ht
  rintro ⟨⟨-, -, hlt⟩ | hlast, -⟩
  · exact absurd hlt (not_lt.mpr (hrow row hsome).2)
  · rw [(hrow row hsome).1] at hlast
    cases hlast

/-- Counting from one of two bounds or from the other. -/
theorem countAfter_exchange (l : List (PushAction U R T)) (p : Place U R T) (test : PushAction U R T → Bool)
    (lo hi : ℕ) :
    (countBetween l p test hi lo = 0 ∨ countBetween l p test lo hi = 0) ∧
    countAfter l p test lo + countBetween l p test hi lo = countBetween l p test lo hi + countAfter l p test hi := by
  have hzero : ∀ {a b : ℕ}, a ≤ b → countBetween l p test b a = 0 := fun hle =>
    countBetween_eq_zero.mpr fun ea _ _ hlt hle' => absurd (hlt.trans_le hle') (not_lt.mpr hle)
  rcases le_total lo hi with hle | hle
  · exact ⟨Or.inl (hzero hle), by rw [hzero hle, countAfter_split hle, Nat.add_zero]⟩
  · exact ⟨Or.inr (hzero hle), by rw [hzero hle, countAfter_split hle, Nat.zero_add, Nat.add_comm]⟩

/-- A row that is taken up: what the reader counted is now in the row. -/
theorem reported_rotate_takenUp (hlo : s.rotatedUpto ≤ rotateTo) (ht : s.TakenUp g rotateTo p) :
    (∀ k, (s.rotateBefore rotateTo).reported g p k = s.reported g p k) ↔ s.CountsOn g rotateTo p := by
  have hunused : ∀ row, s.eventPushSummary p = some row → ¬ s.Usable g p row := fun _ => ht.not_usable
  obtain ⟨hpending, hthreaded, hrow, htaken⟩ := ht
  have hlast : ∀ row ∈ s.eventPushSummary p, row.lastReceiptStreamOrdering = none := fun row h => (hrow row h).1
  have hread : s.readUpto g p = s.unthreadedReceipt g p.user p.room := by
    rw [Tables.readUpto, hthreaded]
    rfl
  rcases Books.rotateBefore_cases s rotateTo p with ⟨hzero, -⟩ |
    ⟨row', ea, hrow', hl, hcounts, hne, -, hw, hso, hdate⟩
  · obtain ⟨k, hk, -⟩ := htaken
    obtain ⟨ea, hea, hpl, hlt, hle, hflag⟩ := countBetween_ne_zero.mp hk
    have hno := countBetween_eq_zero.mp ((rotatedCount_eq_none hlast).mp (hzero k)) ea hea hpl
      (max_lt_iff.mp hlt).1 hle
    rw [hno] at hflag
    cases hflag
  have hnew : row'.lastReceiptStreamOrdering = none := by
    rw [hl]
    cases hsome : s.eventPushSummary p with
    | none => rfl
    | some row => exact hlast row hsome
  have hafter := (rotate_dated hlast hdate _).mpr htaken
  have husable : (s.rotateBefore rotateTo).Usable g p row' :=
    ⟨Or.inl ⟨hnew, hthreaded, hafter⟩, hpending, hne⟩
  refine forall_congr' fun k => ?_
  rw [Tables.reported, summarised_of_usable hrow' husable, Tables.reported, summarised_of_not_usable hunused, hread]
  show row'.count k + countAfter s.eventPushActions p (·.flag k) rotateTo =
    countAfter s.eventPushActions p (·.flag k) (s.unthreadedReceipt g p.user p.room) ↔ _
  rw [hcounts, rotatedCount_eq (window_of_no_receipt hlast)]
  have hsplit : countAfter s.eventPushActions p (·.flag k) s.rotatedUpto = _ := countAfter_split hlo
  have hto : countAfter s.eventPushActions p (·.flag k) (s.unthreadedReceipt g p.user p.room) = _ :=
    countAfter_split (hafter.le.trans (hso ▸ hw.2.2.1))
  have hexchange := countAfter_exchange s.eventPushActions p (·.flag k) (s.unthreadedReceipt g p.user p.room)
    s.rotatedUpto
  split_ifs <;> omega

/-- A row that no receipt was folded into, and that becomes usable, is taken up. -/
theorem takenUp_of_usable (h : Sound s) (hu : ∀ row, s.eventPushSummary p = some row → ¬ s.Usable g p row)
    {row' : Summary} (hlast : ∀ row ∈ s.eventPushSummary p, row.lastReceiptStreamOrdering = none)
    (hdate : s.Dated rotateTo p row') (hpending : ¬ s.Pending p) (hthreaded : s.threadedReceipt g p = none)
    (hafter : s.unthreadedReceipt g p.user p.room < row'.streamOrdering) : s.TakenUp g rotateTo p := by
  refine ⟨hpending, hthreaded, fun row hrow => ⟨hlast row hrow, ?_⟩, (rotate_dated hlast hdate _).mp hafter⟩
  by_contra hlt
  exact hu row hrow ⟨Or.inl ⟨hlast row hrow, hthreaded, not_le.mp hlt⟩, hpending, h.nonzero hrow (hlast row hrow)⟩

/-- Under a row of zeros no rotated action is left to count after the receipt folded into it. -/
theorem countAfter_of_zero (h : Sound s) {row : Summary} (hrow : s.eventPushSummary p = some row)
    (hzero : ∀ k, row.count k = 0) {m : ℕ} (hreceipt : row.lastReceiptStreamOrdering = some m) (k : Kind) :
    countAfter s.eventPushActions p (·.flag k) m =
      countAfter s.eventPushActions p (·.flag k) (max s.rotatedUpto m) := by
  obtain ⟨l, hl, hnone⟩ := h.books.zero p row hrow (hzero .notif) (hzero .unread)
  obtain rfl := mem_unique hreceipt hl
  refine countAfter_eq fun ea hea hpl hflag => ?_
  rw [max_lt_iff]
  refine ⟨fun hlt => ⟨?_, hlt⟩, fun hlt => hlt.2⟩
  by_contra hle
  rw [hnone ea hea hpl hlt (not_lt.mp hle) k] at hflag
  cases hflag

/-- Another row that is not usable, or none: what rotation makes of it reports the same. -/
theorem reported_rotate_unusable (h : Sound s) (hlo : s.rotatedUpto ≤ rotateTo)
    (hu : ∀ row, s.eventPushSummary p = some row → ¬ s.Usable g p row) (ht : ¬ s.TakenUp g rotateTo p) (k : Kind) :
    (s.rotateBefore rotateTo).reported g p k = s.reported g p k := by
  have hbefore : s.reported g p k = countAfter s.eventPushActions p (·.flag k) (s.readUpto g p) := by
    rw [Tables.reported, summarised_of_not_usable hu]
  by_cases hsame : ∀ row, (s.rotateBefore rotateTo).eventPushSummary p = some row →
      ¬ (s.rotateBefore rotateTo).Usable g p row
  · rw [hbefore, Tables.reported, summarised_of_not_usable hsame]
    rfl
  -- a row has become usable: it was one of zeros, that the latest receipt was folded into
  rw [not_forall] at hsame
  obtain ⟨row', hrow'⟩ := hsame
  rw [Classical.not_imp, not_not] at hrow'
  obtain ⟨hrow', husable⟩ := hrow'
  rcases Books.rotateBefore_cases s rotateTo p with ⟨-, hunchanged⟩ |
    ⟨row₁, ea, hrow₁, hl, hcounts, -, hea, hw, -, hdate⟩
  · exact absurd husable (hu row' (hunchanged.symm.trans hrow'))
  obtain rfl := mem_unique hrow₁ hrow'
  obtain ⟨row, hrow, hreceipt⟩ : ∃ row, s.eventPushSummary p = some row ∧
      row.lastReceiptStreamOrdering = some (s.readUpto g p) := by
    rcases husable.1 with ⟨hnone, hthreaded, hlt⟩ | hsome
    · refine absurd (takenUp_of_usable h hu (fun row hrow => ?_) hdate husable.2.1 hthreaded hlt) ht
      rw [hl, hrow, bind_some] at hnone
      exact hnone
    · exact bind_eq_some_iff.mp (hl.symm.trans hsome)
  have hzero : ∀ k, row.count k = 0 := by
    by_contra hne
    obtain ⟨k, hk⟩ := not_forall.mp hne
    refine hu row hrow ⟨Or.inr hreceipt, husable.2.1, ?_⟩
    cases k with
    | notif => exact Or.inl hk
    | unread => exact Or.inr hk
  have hbound : ∀ so, (s.rotatedUpto < so ∧ ∀ row ∈ s.eventPushSummary p,
      ∀ l ∈ row.lastReceiptStreamOrdering, l < so) ↔ max s.rotatedUpto (s.readUpto g p) < so := by
    intro so
    rw [hrow, max_lt_iff]
    simp [hreceipt]
  have hend : max s.rotatedUpto (s.readUpto g p) ≤ rotateTo :=
    max_le hlo ((hw.2.2.2 row hrow _ hreceipt).le.trans hw.2.2.1)
  rw [hbefore, Tables.reported, summarised_of_usable hrow' husable]
  show row₁.count k + countAfter s.eventPushActions p (·.flag k) rotateTo = _
  rw [hcounts, rotatedCount_eq hbound, hrow, countAfter_of_zero h hrow hzero hreceipt, countAfter_split hend]
  simp only [elim_some, hzero, Nat.zero_add]
  split <;> omega

end Rotate

/-- In every state the transactions lead to, rotating leaves the counts reported for all users, rooms and threads
    as they are exactly if every summary row the reader uses is balanced (a kind of actions that the rotation
    finds none of, while it finds some of the other kind, has the count zero) and every row that is taken up
    is counted on rightly. -/
theorem rotation_transparent_iff (g : Setup U R) {s : Tables U R T}
    (h : Run (step g) (fun _ _ => True) (Tables.empty g) s) :
    (∀ p, (s.rotate g).getUnreadCounts g p = s.getUnreadCounts g p) ↔
      ∀ p, (∀ row, s.summarised g p = some row → s.Balanced (s.rotateTo g) p row) ∧
        (s.TakenUp g (s.rotateTo g) p → s.CountsOn g (s.rotateTo g) p) := by
  have hsound := sound_run h
  obtain ⟨hlo, -⟩ := hsound.books.rotateTo_bounds (g := g)
  have hcounts : ∀ p, (s.rotate g).getUnreadCounts g p = s.getUnreadCounts g p ↔
      ∀ k, (s.rotateBefore (s.rotateTo g)).reported g p k = s.reported g p k := by
    intro p
    simp only [Tables.getUnreadCounts, NotifCounts.mk.injEq]
    constructor
    · rintro ⟨hn, hu, -⟩ k
      cases k with
      | notif => exact hn
      | unread => exact hu
    · intro hk
      exact ⟨hk .notif, hk .unread, rfl⟩
  refine forall_congr' fun p => (hcounts p).trans ?_
  by_cases hu : ∃ row, s.eventPushSummary p = some row ∧ s.Usable g p row
  · obtain ⟨row, hrow, hu⟩ := hu
    rw [reported_rotate_usable hsound hlo hrow hu, summarised_of_usable hrow hu]
    constructor
    · intro hbal
      refine ⟨fun row' hrow' => ?_, fun ht => absurd hu (ht.not_usable hrow)⟩
      cases hrow'
      exact hbal
    · intro hbal
      exact hbal.1 row rfl
  · have hnone : ∀ row, s.eventPushSummary p = some row → ¬ s.Usable g p row := fun row hrow hu' =>
      hu ⟨row, hrow, hu'⟩
    have hbal : ∀ row, s.summarised g p = some row → s.Balanced (s.rotateTo g) p row := fun row hrow => by
      rw [summarised_of_not_usable hnone] at hrow
      cases hrow
    by_cases ht : s.TakenUp g (s.rotateTo g) p
    · rw [reported_rotate_takenUp hlo ht]
      exact ⟨fun hon => ⟨hbal, fun _ => hon⟩, fun hboth => hboth.2 ht⟩
    · exact iff_of_true (reported_rotate_unusable hsound hlo hnone ht) ⟨hbal, fun ht' => absurd ht' ht⟩

/-! One user in one room, with a main timeline and a thread. -/

def oneRoom : Setup Unit Unit := ⟨fun _ _ => 0, 0, 10000⟩

/-- A push action in a thread. -/
def action (thread : Bool) (notif unread : Bool) : PushAction Unit Unit Bool :=
  ⟨⟨(), (), thread⟩, 0, notif, unread, false⟩

/-- A message that notifies and is unread is rotated; then there are others of both kinds. -/
def bothKinds : List (Action Unit Unit Bool) :=
  [.insert 1 [action false true true], .rotate, .insert 2 [action false false true],
    .insert 3 [action false true false], .insert 4 [action true true true],
    .receipt ⟨(), .read, (), some true, 0, 4⟩, .handleReceipts]

theorem rotation_transparent_both_kinds :
    ∃ s : Tables Unit Unit Bool, Run (step oneRoom) (fun _ _ => True) (Tables.empty oneRoom) s ∧
      s.getUnreadCounts oneRoom ⟨(), (), false⟩ = ⟨2, 2, 0⟩ ∧
      ∀ p, (s.rotate oneRoom).getUnreadCounts oneRoom p = s.getUnreadCounts oneRoom p := by
  refine Run.exists_get bothKinds (by decide +kernel) fun hrun => ⟨by decide +kernel,
    (rotation_transparent_iff oneRoom hrun).mpr ?_⟩
  rintro ⟨⟨⟩, ⟨⟩, thread⟩
  revert thread
  decide +kernel

/-- A notification is rotated, then a message comes in that is unread but does not notify: rotating it resets
    the notification count. -/
theorem rotation_resets_count :
    ∃ s : Tables Unit Unit Bool, Run (step oneRoom) (fun _ _ => True) (Tables.empty oneRoom) s ∧
      s.getUnreadCounts oneRoom ⟨(), (), false⟩ = ⟨1, 1, 0⟩ ∧
      (s.rotate oneRoom).getUnreadCounts oneRoom ⟨(), (), false⟩ = ⟨0, 1, 0⟩ :=
  Run.exists_exec [.insert 1 [action false true false], .rotate, .insert 2 [action false false true]]
    (by decide +kernel)

end Sithnapse.PushActions
