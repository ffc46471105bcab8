import Mathlib.Tactic

/-! The rate limiter.

    An entry is a number of actions and the time they are counted from. It stands for a leaky bucket,
    whose level is what was permitted less what leaked since, never below zero. Whatever is reset,
    dropped or pruned, the decisions are those of the bucket. The time given with a denial is when one
    action would be permitted, however many were asked for. Histories are lists, the last act first. -/

namespace Sithnapse.Ratelimiting

variable {Q : Type} [Field Q] [LinearOrder Q] [IsStrictOrderedRing Q]

/-- What `actions` holds for a key. -/
structure Entry (Q : Type) where
  actionCount : ℕ
  timeStart : Q
  rateHz : Q

/-- `_record_action_inner`. -/
def recordActionInner (actionCount : ℕ) (timeStart rateHz now : Q) : Option (Entry Q) :=
  if timeStart + actionCount / rateHz ≤ now then none else some ⟨actionCount, timeStart, rateHz⟩

section CanDoAction

variable (r : Q) (b : ℕ) (n : ℕ) (now : Q) (e : Option (Entry Q))

/-- The count and the start time after the reset, if there is one. -/
def current : ℕ × Q :=
  let found := e.getD ⟨0, now, r⟩
  if found.actionCount - (now - found.timeStart) * r < 0 then (0, now)
  else (found.actionCount, found.timeStart)

def performedCount : Q := (current r now e).1 - (now - (current r now e).2) * r

/-- `can_do_action`: the decision, the time given with it, and the entry it leaves. -/
def canDoAction (update : Bool) : Bool × Q × Option (Entry Q) :=
  let (count, start) := current r now e
  let allowed := !decide (performedCount r now e > b - n)
  let count := if allowed then count + n else count
  (allowed, if 0 < r then max (start + (count - b + 1) / r) now else -1,
    if allowed && update then recordActionInner count start r now else e)

end CanDoAction

/-- `_prune_message_counts`, for a key that the timer returns or not. -/
def pruneMessageCounts (returned : Bool) (now : Q) : Option (Entry Q) → Option (Entry Q)
  | none => none
  | some v =>
    if returned && decide (v.actionCount - (now - v.timeStart) * v.rateHz ≤ 0) then none else some v

/-- What happens to a key. -/
inductive Act (Q : Type) where
  | call (now : Q) (n : ℕ)
  | prune (now : Q) (returned : Bool)

def Act.time : Act Q → Q
  | .call now _ | .prune now _ => now

def Act.isCall : Act Q → Bool
  | .call _ _ => true
  | .prune _ _ => false

section Histories

variable (r : Q) (b : ℕ)

/-- The entry after a history. -/
def run : List (Act Q) → Option (Entry Q)
  | [] => none
  | .call now n :: earlier => (canDoAction r b n now (run earlier) true).2.2
  | .prune now returned :: earlier => pruneMessageCounts returned now (run earlier)

/-- The number of actions permitted from `s` to `t`. -/
def permittedIn (s t : Q) : List (Act Q) → ℕ
  | [] => 0
  | .call now n :: earlier =>
    permittedIn s t earlier +
      if (canDoAction r b n now (run r b earlier) true).1 ∧ s ≤ now ∧ now ≤ t then n else 0
  | .prune _ _ :: earlier => permittedIn s t earlier

/-- The level of a leaky bucket: a request is poured into it if it fits. -/
def bucket : List (Act Q) → Q → Q
  | [], _ => 0
  | .call now n :: earlier, t =>
    if bucket earlier now + n ≤ b then max 0 (bucket earlier now + n - (t - now) * r) else bucket earlier t
  | .prune _ _ :: earlier, t => bucket earlier t

end Histories

/-! ### The level of an entry -/

/-- The level an entry stands for. -/
def level (r : Q) : Option (Entry Q) → Q → Q
  | none, _ => 0
  | some v, t => max 0 (v.actionCount - (t - v.timeStart) * r)

variable {r now s t : Q} {b n : ℕ} {e : Option (Entry Q)}

theorem performedCount_eq_level : performedCount r now e = level r e now := by
  cases e with
  | none => simp [performedCount, current, level]
  | some v =>
    rw [performedCount, current, level]
    dsimp only [Option.getD_some]
    split_ifs with hneg
    · simp [max_eq_left hneg.le]
    · rw [max_eq_right (not_lt.mp hneg)]

theorem canDoAction_allowed : (canDoAction r b n now e true).1 = true ↔ level r e now + n ≤ b := by
  simp [canDoAction, performedCount_eq_level, le_sub_iff_add_le]

/-- A permitted request adds to the level. -/
theorem level_permitted (hr : 0 < r) (ht : now ≤ t) (hfits : level r e now + n ≤ b) :
    level r (canDoAction r b n now e true).2.2 t = max 0 (level r e now + n - (t - now) * r) := by
  have hyes := canDoAction_allowed.mpr hfits
  have hentry : (canDoAction r b n now e true).2.2 =
      recordActionInner ((current r now e).1 + n) (current r now e).2 r now := by
    simp only [canDoAction] at hyes ⊢
    simp [hyes]
  rw [← performedCount_eq_level (e := e), performedCount, hentry, recordActionInner]
  split_ifs with hpast
  · -- nothing is left, and so at any later time
    have hleak := (div_le_iff₀ hr).mp (le_sub_iff_add_le'.mpr hpast)
    have hlater := mul_le_mul_of_nonneg_right ht hr.le
    push_cast at hleak
    rw [level, max_eq_left (by linarith)]
  · rw [level]
    push_cast
    ring_nf

theorem canDoAction_denied (hfull : ¬ level r e now + n ≤ b) : (canDoAction r b n now e true).2.2 = e := by
  have hno := Bool.eq_false_iff.mpr (mt canDoAction_allowed.mp hfull)
  simp only [canDoAction] at hno ⊢
  simp [hno]

/-- A pruned entry has leaked. -/
theorem level_pruneMessageCounts (hr : 0 < r) {returned : Bool} (hrate : ∀ v ∈ e, v.rateHz = r)
    (ht : now ≤ t) : level r (pruneMessageCounts returned now e) t = level r e t := by
  cases e with
  | none => rfl
  | some v =>
    rw [pruneMessageCounts]
    split_ifs with hpruned
    · have hleak : v.actionCount - (now - v.timeStart) * r ≤ 0 := by
        simpa [hrate v rfl] using (Bool.and_eq_true_iff.mp hpruned).2
      have hlater := mul_le_mul_of_nonneg_right ht hr.le
      rw [level, level, max_eq_left (by linarith)]
    · rfl

/-! ### Histories -/

omit [IsStrictOrderedRing Q] in
theorem mem_of_mem_pruneMessageCounts {v : Entry Q} {returned : Bool}
    (h : v ∈ pruneMessageCounts returned now e) : v ∈ e := by
  cases e with
  | none => exact h
  | some w =>
    rw [pruneMessageCounts] at h
    split_ifs at h
    · cases h
    · exact h

omit [IsStrictOrderedRing Q] in
theorem run_rateHz : ∀ {acts : List (Act Q)}, ∀ v ∈ run r b acts, v.rateHz = r
  | [] => nofun
  | .call now n :: earlier => by
    have ih : ∀ v ∈ run r b earlier, v.rateHz = r := run_rateHz
    grind [run, canDoAction, recordActionInner]
  | .prune now returned :: earlier => fun v hv => run_rateHz v (mem_of_mem_pruneMessageCounts hv)

/-- Acts in the order of their times, the last one first. -/
def InOrder (acts : List (Act Q)) : Prop := acts.Pairwise fun a earlier => earlier.time ≤ a.time

omit [Field Q] [IsStrictOrderedRing Q] in
theorem InOrder.call {earlier : List (Act Q)} (h : InOrder (.call now n :: earlier)) :
    (∀ a ∈ earlier, a.time ≤ now) ∧ InOrder earlier := List.pairwise_cons.mp h

/-- The entry stands for the bucket. -/
theorem level_run (hr : 0 < r) : ∀ {acts : List (Act Q)} {t : Q}, InOrder acts → (∀ a ∈ acts, a.time ≤ t) →
    level r (run r b acts) t = bucket r b acts t
  | [], _, _, _ => rfl
  | .call now n :: earlier, t, hord, ht => by
    obtain ⟨hbefore, hord⟩ := hord.call
    rw [run, bucket, ← level_run hr hord hbefore]
    split_ifs with hfits
    · exact level_permitted hr (ht _ (.head _)) hfits
    · rw [canDoAction_denied hfits]
      exact level_run hr hord fun a ha => ht a (.tail _ ha)
  | .prune now returned :: earlier, t, hord, ht => by
    have hnow : now ≤ t := ht _ (.head _)
    rw [run, bucket, level_pruneMessageCounts hr run_rateHz hnow]
    exact level_run hr (List.pairwise_cons.mp hord).2 fun a ha => ht a (.tail _ ha)

theorem allowed_run_iff (hr : 0 < r) {acts : List (Act Q)} (hord : InOrder acts)
    (hnow : ∀ a ∈ acts, a.time ≤ now) :
    (canDoAction r b n now (run r b acts) true).1 = true ↔ bucket r b acts now + n ≤ b := by
  rw [canDoAction_allowed, level_run hr hord hnow]

omit [IsStrictOrderedRing Q] in
theorem bucket_filter_isCall : ∀ (acts : List (Act Q)) (t : Q),
    bucket r b (acts.filter Act.isCall) t = bucket r b acts t
  | [], _ => rfl
  | .call now n :: earlier, t => by
    rw [List.filter_cons_of_pos rfl, bucket, bucket, bucket_filter_isCall, bucket_filter_isCall]
  | .prune _ _ :: earlier, t => bucket_filter_isCall earlier t

/-! ### Windows -/

/-- What was permitted since `s` is still in the bucket at a time `u`, or has leaked since. -/
theorem permittedIn_le (hr : 0 < r) (hst : s ≤ t) : ∀ {acts : List (Act Q)} {u : Q}, InOrder acts →
    (∀ a ∈ acts, a.time ≤ u) → (permittedIn r b s t acts : Q) ≤ b + r * (t - s) ∧
      (s ≤ u → (permittedIn r b s t acts : Q) ≤ bucket r b acts u + r * (u - s)) ∧
      (u < s → permittedIn r b s t acts = 0)
  | [], u, _, _ => by
    have hlen := mul_nonneg hr.le (sub_nonneg.mpr hst)
    simp only [permittedIn, bucket, Nat.cast_zero, zero_add, implies_true, and_true]
    exact ⟨by positivity, fun hs => mul_nonneg hr.le (sub_nonneg.mpr hs)⟩
  | .prune _ _ :: earlier, u, hord, hu => by
    rw [permittedIn, bucket]
    exact permittedIn_le hr hst (List.pairwise_cons.mp hord).2 fun a ha => hu a (.tail _ ha)
  | .call now n :: earlier, u, hord, hu => by
    obtain ⟨hbefore, hord⟩ := hord.call
    have hallowed := allowed_run_iff (b := b) (n := n) hr hord hbefore
    have hnow : now ≤ u := hu _ (.head _)
    rw [permittedIn, bucket]
    by_cases hfits : bucket r b earlier now + n ≤ b
    · obtain ⟨hall, hsince, hnone⟩ := permittedIn_le hr hst hord hbefore
      have hlevel := le_max_right 0 (bucket r b earlier now + n - (u - now) * r)
      have hn := Nat.cast_nonneg (α := Q) n
      rw [if_pos hfits]
      by_cases hin : s ≤ now ∧ now ≤ t
      · have hlater := mul_le_mul_of_nonneg_left hin.2 hr.le
        have hnow' := hsince hin.1
        rw [if_pos ⟨hallowed.mpr hfits, hin⟩]
        push_cast
        exact ⟨by linarith, fun _ => by linarith, fun hlt => absurd (hin.1.trans hnow) hlt.not_ge⟩
      · rw [if_neg fun h => hin h.2, add_zero]
        refine ⟨hall, fun hs => ?_, fun hlt => hnone (hnow.trans_lt hlt)⟩
        rcases le_or_gt s now with hsn | hsn
        · linarith [hsince hsn]
        · rw [hnone hsn, Nat.cast_zero]
          have := mul_nonneg hr.le (sub_nonneg.mpr hs)
          positivity
    · rw [if_neg hfits, if_neg fun h => hfits (hallowed.mp h.1), add_zero]
      exact permittedIn_le hr hst hord fun a ha => hu a (.tail _ ha)

/-- A denied request is permitted at any time from the given one on, if and only if it is for one action. -/
theorem retry_after_honest_iff (hr : 0 < r) (hn : 1 ≤ n) (hnb : n ≤ b) (acts : List (Act Q)) {now : Q}
    (hdenied : (canDoAction r b n now (run r b acts) true).1 = false) :
    (∀ t, (canDoAction r b n now (run r b acts) true).2.1 ≤ t →
      (canDoAction r b n t (run r b (.call now n :: acts)) true).1 = true) ↔ n = 1 := by
  have hfull : ¬ level r (run r b acts) now + n ≤ b := by
    rw [← canDoAction_allowed, hdenied]
    exact Bool.false_ne_true
  have hnb' : (n : Q) ≤ b := by exact_mod_cast hnb
  simp only [canDoAction_allowed, run, canDoAction_denied hfull]
  cases he : run r b acts with
  | none =>
    rw [he, level, zero_add] at hfull
    exact absurd hnb' hfull
  | some v =>
    rw [he] at hfull hdenied
    rw [level] at hfull
    -- the bucket is not empty, so the entry was not reset
    have hpos : 0 < v.actionCount - (now - v.timeStart) * r := by
      by_contra hle
      rw [max_eq_left (not_lt.mp hle), zero_add] at hfull
      exact hfull hnb'
    have hcurrent : current r now (some v) = (v.actionCount, v.timeStart) := if_neg hpos.not_gt
    have htime : (canDoAction r b n now (some v) true).2.1 =
        max (v.timeStart + (v.actionCount - b + 1) / r) now := by
      simp only [canDoAction, hcurrent] at hdenied ⊢
      simp [hdenied, hr]
    rw [max_eq_right hpos.le] at hfull
    rw [htime]
    constructor
    · intro h
      by_contra hne
      have htwo : (2 : Q) ≤ n := by exact_mod_cast (by omega : 2 ≤ n)
      -- at the given time there is room for one action, or for none if it is now
      have hat := h _ le_rfl
      rw [level, ← le_sub_iff_add_le, max_le_iff] at hat
      rcases max_choice (v.timeStart + (v.actionCount - b + 1) / r) now with hmax | hmax <;> rw [hmax] at hat
      · have hleaked : (v.timeStart + (v.actionCount - b + 1) / r - v.timeStart) * r = v.actionCount - b + 1 := by
          field_simp
          ring
        linarith [hat.2]
      · exact hfull (by linarith [hat.2])
    · rintro rfl t ht
      have hleaked := (div_le_iff₀ hr).mp (le_sub_iff_add_le'.mpr ((le_max_left _ _).trans ht))
      rw [level, ← le_sub_iff_add_le, max_le_iff]
      push_cast at hnb' ⊢
      exact ⟨by linarith, by linarith⟩

theorem retry_after_honest_one :
    (canDoAction (1 : ℚ) 1 1 0 (run 1 1 [.call 0 1]) true).1 = false ∧
    ∀ t, 1 ≤ t → (canDoAction (1 : ℚ) 1 1 t (run 1 1 [.call 0 1, .call 0 1]) true).1 = true := by
  have hdenied : (canDoAction (1 : ℚ) 1 1 0 (run 1 1 [.call 0 1]) true).1 = false := by decide +kernel
  have htime : (canDoAction (1 : ℚ) 1 1 0 (run 1 1 [.call 0 1]) true).2.1 = 1 := by decide +kernel
  exact ⟨hdenied, fun t ht =>
    (retry_after_honest_iff one_pos le_rfl le_rfl _ hdenied).mpr rfl t (htime.trans_le ht)⟩

/-- A burst of ten, all used; five actions are denied until time 1, and denied again at time 1. -/
theorem retry_after_too_early :
    (canDoAction (1 : ℚ) 10 5 0 (run 1 10 [.call 0 10]) true).1 = false ∧
    (canDoAction (1 : ℚ) 10 5 0 (run 1 10 [.call 0 10]) true).2.1 = 1 ∧
    (canDoAction (1 : ℚ) 10 5 1 (run 1 10 [.call 0 5, .call 0 10]) true).1 = false := by decide +kernel

end Sithnapse.Ratelimiting
