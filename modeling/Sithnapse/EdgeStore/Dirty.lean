import Sithnapse.EdgeStore.Coalescer

/-! Dirty pools and the flush timer.

    The methods of an open coalescer run side by side, a drain of the queue as one operation with the
    marks it makes. A pool is forgotten if it is marked between the sync of a method and the step that
    takes it out of the dirty set, and the timer is lost if the set is emptied between the two looks
    of `mark_dirty`. Where neither happens, marked pools stay dirty, and a timer is armed while any pool
    is. -/

namespace Sithnapse.Coalescer

open Kit List Finset Function

variable {ι τ : Type}

/-! ### The calls -/

/-- What a drain did: there was nothing, it wrote some batches, or it failed after some. -/
inductive Drained
  | nothing
  | wrote (batches : ℕ)
  | failed (batches : ℕ)

/-- The programs of the calls. -/
abbrev Steps (ι α : Type) := Prog (Op ι Unit) (Reply fun _ => Drained) α

/-- A drain does what the environment says. -/
def execDrain (_ : Unit) (c : Drained) (s : Unit) : Option (Drained × Unit) := some (c, s)

/-- The marks of a drain, one for each batch. -/
def markBatches (i : ι) : ℕ → Prog (Op ι Unit) (Reply fun _ => Drained) Unit
  | 0 => .done ()
  | n + 1 => markDirty i .eventDag >>= fun _ => markBatches i n

/-- `_drain_edge_writes`. -/
def drainEdgeWrites (i : ι) : Prog (Op ι Unit) (Reply fun _ => Drained) (Except Unit Bool) :=
  .op (.queue ()) fun drained =>
    match (drained : Drained) with
    | .nothing => .done (.ok false)
    | .wrote n => markBatches i (n + 1) >>= fun _ => .done (.ok true)
    | .failed n => markBatches i (n + 1) >>= fun _ => .done (.error ())

/-- The calls on an open coalescer. -/
inductive Call
  | markDirty (p : Pool)
  | flush (t : Timer)
  | syncNow (pools : Option (List Pool))
  | syncEventDagNow

/-- The program of a call. -/
def program (publishes : Bool) (i : ι) : Call → Prog (Op ι Unit) (Reply fun _ => Drained) (Except Unit Unit)
  | .markDirty p => markDirty i p >>= fun _ => .done (.ok ())
  | .flush t => flush (drainEdgeWrites i) i publishes t >>= fun _ => .done (.ok ())
  | .syncNow pools => syncNow (drainEdgeWrites i) i pools
  | .syncEventDagNow => syncEventDagNow i

/-- Calls side by side. -/
abbrev System (ι : Type) :=
  Kit.Pool ι (Shared ι Unit) Call (Op ι Unit) (Reply fun _ => Drained) (Except Unit Unit)

/-- One action. -/
def step [DecidableEq ι] (publishes : Bool) : System ι → Act ι (Env Drained) Call → Option (System ι) :=
  Kit.Pool.step (exec execDrain) (program publishes) fun _ s => s

/-! ### The condition on runs -/

/-- What is left of the dirty set is not empty, or no other call is late. -/
def Lenient (s : Shared ι τ) (i : ι) (left : Finset Pool) : Prop :=
  left = ∅ → ∀ j, j ≠ i → (s.own j).late = false

/-- No pool is marked that another call has synced and not taken out yet, and the dirty set is not
    emptied while another call, which found it non-empty, has not added its pool yet. -/
def Permitted : Op ι Unit → Shared ι τ → Prop
  | .mark i p _, s => ∀ j, j ≠ i → p ∉ (s.own j).synced
  | .discard i p, s => Lenient s i (s.dirty.erase p)
  | .retract i p, s => Lenient s i (s.dirty.erase p)
  | .difference i ps, s => Lenient s i (s.dirty \ ps.toFinset)
  | _, _ => True

/-- The condition on a run; calls do not vanish. -/
def Spaced (pool : System ι) : Act ι (Env Drained) Call → Prop
  | .spawn _ _ => True
  | .step i _ =>
    match pool.about i with
    | some o => Permitted o pool.shared
    | none => True
  | .kill _ => False

section Decidable

variable [DecidableEq ι] [Fintype ι]

instance (s : Shared ι τ) (i : ι) (left : Finset Pool) : Decidable (Lenient s i left) :=
  inferInstanceAs (Decidable (_ → ∀ _, _ → _))

instance (o : Op ι Unit) (s : Shared ι τ) : Decidable (Permitted o s) := by
  cases o <;> dsimp only [Permitted] <;> infer_instance

instance (pool : System ι) (a : Act ι (Env Drained) Call) : Decidable (Spaced pool a) := by
  cases a with
  | spawn _ _ => exact instDecidableTrue
  | step i _ =>
    dsimp only [Spaced]
    cases pool.about i <;> infer_instance
  | kill _ => exact instDecidableFalse

end Decidable

/-! ### The invariant -/

/-- A call has taken the pool out and is to sync it. -/
def Owed (own : ι → Own) (p : Pool) : Prop := ∃ j, p ∈ (own j).owed

/-- A call is to look whether a timer has to be armed. -/
def Watched (own : ι → Own) : Prop := ∃ j, (own j).watching = true

/-- A timer has called `_flush`, which has not cleared the reference yet. -/
def Fired (own : ι → Own) : Prop := ∃ j, (own j).fired = true

/-- An unsynced pool is dirty or owed; while a pool is dirty, a timer is armed or a call is about to
    look; what was synced and not taken out yet was not marked since. -/
structure Inv (s : Shared ι τ) : Prop where
  opened : s.closed = false
  kept : ∀ p ∈ s.unsynced, p ∈ s.dirty ∨ Owed s.own p
  fresh : ∀ j, ∀ p ∈ (s.own j).synced, p ∉ s.unsynced
  armed : s.dirty ≠ ∅ → s.timers ≠ [] ∨ Watched s.own
  late : ∀ j, (s.own j).late = true → s.dirty ≠ ∅
  called : ∀ t, s.delayedCall = some t → t ∈ s.timers ∨ Fired s.own
  fired : ∀ j, (s.own j).fired = true → (s.own j).watching = true

theorem Inv.start : Inv (Shared.start () : Shared ι Unit) where
  opened := rfl
  kept := fun p hp => absurd hp (notMem_empty p)
  fresh := fun _ p hp => absurd hp (notMem_empty p)
  armed := fun h => absurd rfl h
  late := fun _ h => absurd h (by simp [Shared.start, Own.idle])
  called := fun _ h => absurd h (by simp [Shared.start])
  fired := fun _ h => absurd h (by simp [Shared.start, Own.idle])

variable {i : ι} {s : Shared ι τ}

theorem Inv.lenient (h : Inv s) : Lenient s i s.dirty :=
  fun hempty j _ => eq_false_of_ne_true fun hlate => h.late j hlate hempty

variable [DecidableEq ι] {w : Own} {f : Own → Own} {p : Pool}

@[simp] theorem Shared.record_own_self : (s.record i f).own i = f (s.own i) := update_self ..

theorem Shared.record_own_ne {j : ι} (h : j ≠ i) : (s.record i f).own j = s.own j :=
  update_of_ne h ..

variable {own : ι → Own}

/-- What holds of all records holds after one has changed. -/
theorem forall_update (P : Own → Prop) (hall : ∀ j, j ≠ i → P (own j)) (hi : P w)
    (j : ι) : P (update own i w j) := by
  rcases eq_or_ne j i with rfl | hj
  · rwa [update_self]
  · rw [update_of_ne hj]
    exact hall j hj

/-- What holds of some record holds of some after one has changed that keeps it. -/
theorem exists_update (P : Own → Prop) (hsome : ∃ j, P (own j)) (hi : P (own i) → P w) :
    ∃ j, P (update own i w j) := by
  obtain ⟨j, hj⟩ := hsome
  rcases eq_or_ne j i with rfl | hji
  · exact ⟨j, by rw [update_self]; exact hi hj⟩
  · exact ⟨j, by rwa [update_of_ne hji]⟩

theorem Owed.update (h : Owed own p) (hi : p ∈ (own i).owed → p ∈ w.owed) :
    Owed (update own i w) p := exists_update (p ∈ ·.owed) h hi

theorem Watched.update (h : Watched own) (hi : (own i).watching = true → w.watching = true) :
    Watched (update own i w) := exists_update (·.watching = true) h hi

theorem Fired.update (h : Fired own) (hi : (own i).fired = true → w.fired = true) :
    Fired (update own i w) := exists_update (·.fired = true) h hi

/-! ### What the operations keep -/

section

variable (h : Inv s)

include h

theorem Inv.fired_update (hi : w.fired = true → w.watching = true) :
    ∀ j, (update s.own i w j).fired = true → (update s.own i w j).watching = true :=
  forall_update (fun w => w.fired = true → w.watching = true) (fun j _ => h.fired j) hi

/-- Pools are taken out of the dirty set and some are synced. What is still unsynced stays dirty or is owed,
    what the call goes on to take out is not unsynced, and the set is not emptied under a late call. -/
theorem Inv.change {left still : Finset Pool} (hleft : left ⊆ s.dirty) (hstill : still ⊆ s.unsynced)
    (hlenient : Lenient s i left)
    (hgone : ∀ p ∈ still, p ∈ s.dirty → p ∉ left → p ∈ (f (s.own i)).owed)
    (howed : ∀ p ∈ still, p ∈ (s.own i).owed → p ∈ (f (s.own i)).owed)
    (hsynced : ∀ p ∈ (f (s.own i)).synced, p ∉ still)
    (hwatch : left ≠ ∅ → (s.own i).watching = true → (f (s.own i)).watching = true)
    (hlate : (f (s.own i)).late = true → left ≠ ∅)
    (hfired : (f (s.own i)).fired = (s.own i).fired)
    (hfw : (s.own i).fired = true → (f (s.own i)).watching = true) :
    Inv ({ s with dirty := left, unsynced := still }.record i f) where
  opened := h.opened
  kept p hp := by
    rcases h.kept p (hstill hp) with hd | hj
    · by_cases hl : p ∈ left
      · exact .inl hl
      · exact .inr ⟨i, by rw [Shared.record_own_self]; exact hgone p hp hd hl⟩
    · exact .inr (hj.update (howed p hp))
  fresh := forall_update (fun w => ∀ p ∈ w.synced, p ∉ still)
    (fun j _ p hp hmem => h.fresh j p hp (hstill hmem)) hsynced
  armed hd := (h.armed fun hempty => hd (subset_empty.mp (hempty ▸ hleft))).imp_right fun hj =>
    hj.update (hwatch hd)
  late := by
    refine forall_update (fun w => w.late = true → left ≠ ∅) (fun j hj hl hempty => ?_) hlate
    exact Bool.false_ne_true ((hlenient hempty j hj).symm.trans hl)
  called t ht := (h.called t ht).imp_right fun hj => hj.update hfired.trans
  fired := h.fired_update fun hi => hfw (hfired.symm.trans hi)

/-- A change of the record alone that forgets neither what is owed nor a timer called, and stops watching
    only where nothing is dirty. -/
theorem Inv.record (howed : (s.own i).owed ⊆ (f (s.own i)).owed)
    (hsynced : (f (s.own i)).synced ⊆ (s.own i).synced)
    (hwatch : s.dirty ≠ ∅ → (s.own i).watching = true → (f (s.own i)).watching = true)
    (hlate : (f (s.own i)).late = true → s.dirty ≠ ∅)
    (hfired : (f (s.own i)).fired = (s.own i).fired)
    (hfw : (s.own i).fired = true → (f (s.own i)).watching = true) : Inv (s.record i f) :=
  h.change subset_rfl subset_rfl h.lenient (fun _ _ hd hl => absurd hd hl) (fun _ _ hp => howed hp)
    (fun p hp => h.fresh i p (hsynced hp)) hwatch hlate hfired hfw

theorem Inv.isClean : Inv (s.record i fun w => { w with late := decide (s.dirty ≠ ∅) }) :=
  h.record subset_rfl subset_rfl (fun _ hw => hw) of_decide_eq_true rfl (h.fired i)

/-- A call may give up taking out what it has synced. -/
theorem Inv.unsync {synced : Finset Pool} (hsub : synced ⊆ (s.own i).synced) :
    Inv (s.record i fun w => { w with synced := synced }) :=
  h.record subset_rfl hsub (fun _ hi => hi) (h.late i) rfl (h.fired i)

/-- A look at the dirty set ends the watch if it is empty. -/
theorem Inv.isDirty (hfired : (s.own i).fired = false) :
    Inv (s.record i fun w => { w with watching := w.watching && decide (s.dirty ≠ ∅) }) :=
  h.record subset_rfl subset_rfl (fun hd hw => by simp [hw, hd]) (h.late i) rfl fun hi => by
    rw [hfired] at hi
    cases hi

/-- A mark: no call has synced the pool and not taken it out yet, and if the set was found non-empty, it
    still is. -/
theorem Inv.mark {wasClean : Bool} (hp : ∀ j, p ∉ (s.own j).synced)
    (hlate : (s.own i).late = !wasClean) :
    Inv ({ s with dirty := insert p s.dirty, unsynced := insert p s.unsynced }.record i fun w =>
      { w with late := false, watching := w.watching || wasClean }) where
  opened := h.opened
  kept q hq := by
    rcases mem_insert.mp hq with rfl | hq
    · exact .inl (mem_insert_self q s.dirty)
    · exact (h.kept q hq).imp (fun hd => mem_insert_of_mem hd) fun hj => hj.update fun hi => hi
  fresh := by
    have hother : ∀ j q, q ∈ (s.own j).synced → q ∉ insert p s.unsynced := fun j q hq hmem =>
      (mem_insert.mp hmem).elim (fun heq => hp j (heq ▸ hq)) (h.fresh j q hq)
    exact forall_update (fun w => ∀ q ∈ w.synced, q ∉ insert p s.unsynced) (fun j _ => hother j) (hother i)
  armed _ := by
    cases wasClean with
    | true => exact .inr ⟨i, by simp⟩
    | false => exact (h.armed (h.late i hlate)).imp_right fun hj => hj.update fun hi => by simpa using hi
  late _ _ := insert_ne_empty p s.dirty
  called t ht := (h.called t ht).imp_right fun hj => hj.update fun hi => hi
  fired := h.fired_update fun hi => by
      have hw : (s.own i).watching = true := h.fired i hi
      simp [hw]

/-- A pool becomes dirty, and the call looks for a timer later. -/
theorem Inv.add : Inv ({ s with dirty := insert p s.dirty }.record i fun w =>
      { w with watching := true, owed := w.owed.erase p }) where
  opened := h.opened
  kept q hq := by
    by_cases hqp : q = p
    · exact .inl (hqp ▸ Finset.mem_insert_self p s.dirty)
    · exact (h.kept q hq).imp (fun hd => mem_insert_of_mem hd) fun hj =>
        hj.update fun hi => mem_erase.mpr ⟨hqp, hi⟩
  fresh := forall_update (fun w => ∀ p ∈ w.synced, p ∉ s.unsynced) (fun j _ => h.fresh j) (h.fresh i)
  armed _ := .inr ⟨i, by simp⟩
  late _ _ := insert_ne_empty p s.dirty
  called t ht := (h.called t ht).imp_right fun hj => hj.update fun hi => hi
  fired := h.fired_update fun _ => rfl

/-- The timers and the reference change; the call goes on watching, or sees to it that a timer is armed
    where one is needed. -/
theorem Inv.timers {delayedCall : Option Timer} {timers : List Timer} {nextTimer : ℕ}
    (howed : (f (s.own i)).owed = (s.own i).owed) (hsynced : (f (s.own i)).synced = (s.own i).synced)
    (hlate : (f (s.own i)).late = (s.own i).late)
    (harmed : (f (s.own i)).watching = true ∨ timers ≠ [] ∨ ∃ j, j ≠ i ∧ (s.own j).fired = true)
    (hcalled : ∀ t, delayedCall = some t → t ∈ timers ∨ (f (s.own i)).fired = true ∨
      ∃ j, j ≠ i ∧ (s.own j).fired = true)
    (hfw : (f (s.own i)).fired = true → (f (s.own i)).watching = true) :
    Inv ({ s with delayedCall := delayedCall, timers := timers, nextTimer := nextTimer }.record i f) where
  opened := h.opened
  kept p hp := (h.kept p hp).imp_right fun hj => hj.update fun hi => howed ▸ hi
  fresh := forall_update (fun w => ∀ p ∈ w.synced, p ∉ s.unsynced) (fun j _ => h.fresh j)
    (hsynced ▸ h.fresh i)
  armed _ := by
    rcases harmed with hw | ht | ⟨j, hj, hfired⟩
    · exact .inr ⟨i, by rwa [Shared.record_own_self]⟩
    · exact .inl ht
    · exact .inr ⟨j, by rw [Shared.record_own_ne hj]; exact h.fired j hfired⟩
  late := forall_update (fun w => w.late = true → s.dirty ≠ ∅) (fun j _ => h.late j)
    fun hi => h.late i (hlate.symm.trans hi)
  called t ht := by
    rcases hcalled t ht with hmem | hi | ⟨j, hj, hfired⟩
    · exact .inl hmem
    · exact .inr ⟨i, by rwa [Shared.record_own_self]⟩
    · exact .inr ⟨j, by rwa [Shared.record_own_ne hj]⟩
  fired := h.fired_update hfw

/-- Arming ends the watch of a call that is not itself called by the timer referred to: there is a timer
    now, or the call of one that has not cleared the reference yet. -/
theorem Inv.arm {delay : Delay} (hfired : (s.own i).fired = false) :
    Inv ((s.arm delay).record i fun w => { w with watching := false }) := by
  have hfw : (s.own i).fired = true → false = true := fun hi => hfired.symm.trans hi
  rw [Shared.arm]
  split
  · rename_i t ht
    have hcalled : ∀ t, s.delayedCall = some t → t ∈ s.timers ∨ ∃ j, j ≠ i ∧ (s.own j).fired = true := by
      intro t ht
      refine (h.called t ht).imp_right ?_
      rintro ⟨j, hj⟩
      exact ⟨j, fun hji => by simp [hji, hfired] at hj, hj⟩
    refine h.timers rfl rfl rfl (.inr ?_) (fun t ht => (hcalled t ht).imp_right .inr) hfw
    exact (hcalled t ht).imp_left ne_nil_of_mem
  · refine h.timers rfl rfl rfl (.inr (.inl (cons_ne_nil _ _))) (fun t ht => ?_) hfw
    cases ht
    exact .inl (.head _)

end

/-! ### The operations in a program -/

/-- What an operation does to the record of its call. -/
@[simp]
def Op.after : (o : Op ι Unit) → Reply (fun _ => Drained) o → Own → Own
  | .isClean _, r, w => { w with late := !r }
  | .mark _ _ wasClean, _, w => { w with late := false, watching := w.watching || wasClean }
  | .arm _ _, _, w => { w with watching := false }
  | .fire _ _, _, w => { w with watching := true, fired := true }
  | .forget _, _, w => { w with fired := false }
  | .cancel _, r, w => if r then { w with watching := true } else w
  | .add _ p, _, w => { w with watching := true, owed := w.owed.erase p }
  | .isDirty _, r, w => { w with watching := w.watching && r }
  | .snapshot _, ps, w => { w with watching := w.watching && !ps.isEmpty }
  | .discard _ p, _, w => { w with synced := w.synced.erase p }
  | .retract _ p, _, w => { w with owed := insert p w.owed }
  | .difference _ _, _, w => { w with synced := ∅ }
  | .sync _ ps clears, r, w =>
    if r then { w with synced := clears.toFinset, owed := w.owed \ ps.toFinset } else { w with synced := ∅ }
  | .requestDurable _ clears, r, w => { w with synced := if r then clears.toFinset else ∅ }
  | .backgroundError _, r, w => { w with synced := if r.isNone then ∅ else w.synced }
  | .restartCommit _, r, w => { w with synced := if r then w.synced else ∅ }
  | _, _, w => w

/-- Whose operation it is, and what the record of that call has to say before it. -/
def Op.Fits (i : ι) : Op ι Unit → Own → Prop
  | .mark j _ wasClean, w => j = i ∧ w.synced = ∅ ∧ w.late = !wasClean
  | .arm j _, w | .isDirty j, w | .snapshot j, w => j = i ∧ w.fired = false
  | .forget j, w => j = i ∧ w.watching = true
  | .discard j p, w => j = i ∧ w.late = false ∧ p ∈ w.synced
  | .retract j _, w => j = i ∧ w.late = false
  | .difference j ps, w => j = i ∧ w.late = false ∧ w.synced = ps.toFinset
  | .sync j ps clears, _ => j = i ∧ clears ⊆ ps
  | .isClean j, _ | .fire j _, _ | .cancel j, _ | .add j _, _ => j = i
  | .requestDurable j _, _ | .backgroundError j, _ | .restartCommit j, _ => j = i
  | .queue _, _ => True
  | .isClosed, _ | .close, _ | .clear, _ => False

/-- A call may rely on its own record, and leaves those of others alone. -/
def rules : Rules ι (Shared ι Unit) Call (Op ι Unit) (Except Unit Unit) where
  inv := Inv
  may := Permitted
  rely i _ s s' := s'.own i = s.own i
  guar i _ s s' := ∀ j, j ≠ i → s'.own j = s.own j
  post _ _ _ _ := True

/-- The program keeps the invariant from a state on, and ends with `Q`. -/
abbrev Keeps {α : Type} (i : ι) (Q : α → Shared ι Unit → Prop) (p : Steps ι α) (s : Shared ι Unit) : Prop :=
  Safe (exec execDrain) rules i Q p s

section Operations

variable {α : Type} {Q : α → Shared ι Unit → Prop} {s : Shared ι Unit}

/-- An operation that keeps the invariant and changes the record of its call as told. -/
theorem keeps_op {o : Op ι Unit} {next : Reply (fun _ => Drained) o → Steps ι α} (hs : s.own i = w)
    (h : ∀ s c r s', Inv s → s.own i = w → Permitted o s → exec execDrain o c s = some (r, s') →
      Inv s' ∧ s'.own = update s.own i (o.after r w))
    (hnext : ∀ r s', s'.own i = o.after r w → Keeps i Q (next r) s') : Keeps i Q (.op o next) s := by
  intro s₁ hinv hrely hmay c r s' hr
  obtain ⟨hinv', hown⟩ := h s₁ c r s' hinv (hrely.trans hs) hmay hr
  refine ⟨hinv', fun j hj => by rw [hown, update_of_ne hj], hnext r s' ?_⟩
  rw [hown, update_self]

/-- An open coalescer is found open. -/
theorem keeps_isClosed {next : Bool → Steps ι α} (hs : s.own i = w)
    (hnext : ∀ s', s'.own i = w → Keeps i Q (next false) s') : Keeps i Q (.op .isClosed next) s := by
  intro s₁ hinv hrely _ c r s' hr
  cases hr
  refine ⟨hinv, fun _ _ => rfl, ?_⟩
  rw [show s₁.closed = false from Inv.opened hinv]
  exact hnext s₁ (hrely.trans hs)

/-- The other operations, each where its call's record fits. -/
theorem keeps {o : Op ι Unit} {next : Reply (fun _ => Drained) o → Steps ι α} (hs : s.own i = w)
    (hfits : o.Fits i w) (hnext : ∀ r s', s'.own i = o.after r w → Keeps i Q (next r) s') :
    Keeps i Q (.op o next) s := by
  refine keeps_op hs (fun s c r s' hinv hw hmay hr => ?_) hnext
  subst hw
  cases o with
  | isClosed | close | clear => exact hfits.elim
  | queue d =>
    cases hr
    exact ⟨hinv, by simp⟩
  | isClean j =>
    obtain rfl : j = i := hfits
    cases hr
    exact ⟨hinv.isClean, by simp [Shared.record]⟩
  | mark j p wasClean =>
    obtain ⟨rfl, hsynced, hlate⟩ := hfits
    cases hr
    refine ⟨hinv.mark (fun k => ?_) hlate, by simp [Shared.record]⟩
    by_cases hk : k = j
    · rw [hk, hsynced]
      exact notMem_empty p
    · exact hmay k hk
  | arm j delay =>
    obtain ⟨rfl, hfired⟩ := hfits
    cases hr
    refine ⟨hinv.arm hfired, ?_⟩
    have hown : (s.arm delay).own = s.own := by
      rw [Shared.arm]
      split <;> rfl
    simp [Shared.record, hown]
  | fire j t =>
    obtain rfl : j = i := hfits
    rw [exec] at hr
    split at hr
    · cases hr
      exact ⟨hinv.timers rfl rfl rfl (.inl rfl) (fun _ _ => .inr (.inl rfl)) fun _ => rfl,
        by simp [Shared.record]⟩
    · cases hr
  | forget j =>
    obtain ⟨rfl, hwatching⟩ := hfits
    cases hr
    exact ⟨hinv.timers rfl rfl rfl (.inl hwatching) (by simp) (by simp), by simp [Shared.record]⟩
  | cancel j =>
    obtain rfl : j = i := hfits
    rw [exec] at hr
    -- no timer is referred to; it is cancelled; it was called already and nothing changes
    split at hr
    · cases hr
      exact ⟨hinv.record subset_rfl subset_rfl (fun _ _ => rfl) (hinv.late j) rfl fun _ => rfl,
        by simp [Shared.record]⟩
    · split at hr
      · cases hr
        exact ⟨hinv.timers rfl rfl rfl (.inl rfl) (by simp) fun _ => rfl, by simp [Shared.record]⟩
      · cases hr
        exact ⟨hinv, by simp⟩
  | add j p =>
    obtain rfl : j = i := hfits
    cases hr
    exact ⟨hinv.add, by simp [Shared.record]⟩
  | isDirty j =>
    obtain ⟨rfl, hfired⟩ := hfits
    cases hr
    exact ⟨hinv.isDirty hfired, by simp [Shared.record]⟩
  | snapshot j =>
    obtain ⟨rfl, hfired⟩ := hfits
    rw [exec] at hr
    split at hr
    · rename_i horder
      cases hr
      refine ⟨hinv.isDirty hfired, ?_⟩
      rw [← horder.2]
      cases c.order <;> simp [Shared.record]
    · cases hr
  | discard j p =>
    obtain ⟨rfl, hlate, hp⟩ := hfits
    cases hr
    refine ⟨hinv.change (erase_subset p s.dirty) subset_rfl hmay (fun q hun hq hgone => ?_) (fun _ _ hi => hi)
      (fun q hq => hinv.fresh j q (mem_of_mem_erase hq)) (fun _ hi => hi) (by simp [hlate]) rfl (hinv.fired j),
      by simp [Shared.record]⟩
    have hqp := eq_of_mem_of_notMem_erase hq hgone
    exact absurd (hqp ▸ hun) (hinv.fresh j p hp)
  | retract j p =>
    obtain ⟨rfl, hlate⟩ := hfits
    cases hr
    refine ⟨hinv.change (erase_subset p s.dirty) subset_rfl hmay (fun q _ hq hgone => ?_)
      (fun _ _ hi => mem_insert_of_mem hi) (hinv.fresh j) (fun _ hi => hi) (by simp [hlate]) rfl (hinv.fired j),
      by simp [Shared.record]⟩
    have hqp := eq_of_mem_of_notMem_erase hq hgone
    exact hqp ▸ mem_insert_self q _
  | difference j ps =>
    obtain ⟨rfl, hlate, hps⟩ := hfits
    cases hr
    refine ⟨hinv.change sdiff_subset subset_rfl hmay (fun q hun hq hgone => ?_) (fun _ _ hi => hi)
      (fun q hq => absurd hq (notMem_empty q)) (fun _ hi => hi) (by simp [hlate]) rfl (hinv.fired j),
      by simp [Shared.record]⟩
    have hmem : q ∈ ps.toFinset := by
      by_contra hne
      exact hgone (mem_sdiff.mpr ⟨hq, hne⟩)
    exact absurd hun (hinv.fresh j q (hps ▸ hmem))
  | sync j ps clears =>
    obtain ⟨rfl, hclears⟩ := hfits
    cases hr
    cases c.returns with
    | true =>
      simp only [↓reduceIte]
      refine ⟨hinv.change subset_rfl sdiff_subset hinv.lenient (fun _ _ hd hl => absurd hd hl)
        (fun q hq hi => ?_) (fun q hq hmem => ?_) (fun _ hi => hi) (hinv.late j) rfl (hinv.fired j),
        by simp [Shared.record]⟩
      · exact mem_sdiff.mpr ⟨hi, (mem_sdiff.mp hq).2⟩
      · exact (mem_sdiff.mp hmem).2 (mem_toFinset.mpr (hclears (mem_toFinset.mp hq)))
    | false =>
      exact ⟨hinv.unsync (empty_subset _), by simp [Shared.record]⟩
  | requestDurable j clears =>
    obtain rfl : j = i := hfits
    cases hr
    cases c.returns with
    | true =>
      simp only [↓reduceIte]
      exact ⟨hinv.change subset_rfl (empty_subset _) hinv.lenient (fun q hq => absurd hq (notMem_empty q))
        (fun q hq => absurd hq (notMem_empty q)) (fun q _ => notMem_empty q) (fun _ hi => hi) (hinv.late j) rfl
        (hinv.fired j), by simp [Shared.record]⟩
    | false =>
      exact ⟨hinv.unsync (empty_subset _), by simp [Shared.record]⟩
  | backgroundError j =>
    obtain rfl : j = i := hfits
    cases hr
    refine ⟨hinv.unsync ?_, by simp [Shared.record]⟩
    split
    · exact empty_subset _
    · exact subset_rfl
  | restartCommit j =>
    obtain rfl : j = i := hfits
    cases hr
    refine ⟨hinv.unsync ?_, by simp [Shared.record]⟩
    split
    · exact subset_rfl
    · exact empty_subset _

end Operations

/-! ### The methods keep the invariant -/

/-- The record of a call between two of its steps: it may watch, and owe pools. -/
def Own.quiet (owed : Finset Pool) (watching : Bool) : Own := ⟨∅, owed, false, watching, false⟩

section Methods

variable {s : Shared ι Unit} {owed : Finset Pool} {b : Bool}

/-- A mark leaves the record as it was, or without the watch. -/
theorem markDirty_keeps (hs : s.own i = .quiet owed b) :
    Keeps i (fun _ s' => ∃ b', s'.own i = .quiet owed b' ∧ (b' = true → b = true)) (markDirty i p) s := by
  refine keeps_isClosed hs fun s hs => keeps hs rfl fun wasClean s hs => keeps hs ⟨rfl, rfl, rfl⟩ fun _ s hs => ?_
  cases wasClean with
  | true => exact keeps hs ⟨rfl, rfl⟩ fun _ s hs => ⟨false, hs, nofun⟩
  | false => exact ⟨b, by rw [hs]; simp [Own.quiet], id⟩

theorem markBatches_keeps (n : ℕ) (hs : s.own i = .quiet owed b) :
    Keeps i (fun _ s' => ∃ b', s'.own i = .quiet owed b' ∧ (b' = true → b = true)) (markBatches i n) s := by
  induction n generalizing s b with
  | zero => exact ⟨b, hs, id⟩
  | succ n ih =>
    refine (markDirty_keeps hs).bind fun _ s ⟨b', hs, hb⟩ => ?_
    exact (ih hs).mono fun _ s ⟨b'', hs, hb'⟩ => ⟨b'', hs, hb ∘ hb'⟩

/-- So does a drain. -/
theorem drainEdgeWrites_keeps (hs : s.own i = .quiet owed b) :
    Keeps i (fun _ s' => ∃ b', s'.own i = .quiet owed b') (drainEdgeWrites i) s := by
  refine keeps hs trivial fun drained s hs => ?_
  match drained with
  | .nothing => exact ⟨b, hs⟩
  | .wrote n => exact (markBatches_keeps (n + 1) hs).bind fun _ s ⟨b', hs, _⟩ => ⟨b', hs⟩
  | .failed n => exact (markBatches_keeps (n + 1) hs).bind fun _ s ⟨b', hs, _⟩ => ⟨b', hs⟩

/-- The last look ends the watch. -/
theorem rearm_keeps (delay : Delay) (hs : s.own i = .quiet owed b) :
    Keeps i (fun _ s' => s'.own i = .quiet owed false) (rearm i delay) s := by
  refine keeps hs ⟨rfl, rfl⟩ fun dirty s hs => ?_
  cases dirty with
  | true => exact keeps hs ⟨rfl, rfl⟩ fun _ s hs => hs
  | false =>
    show s.own i = _
    rw [hs]
    simp [Own.quiet]

/-- If all went well, the pools are synced. -/
theorem secure_keeps (publishes : Bool) (toFlush : List Pool) (hs : s.own i = .quiet ∅ b) :
    Keeps i (fun ok s' => s'.own i = { Own.quiet ∅ b with synced := if ok then toFlush.toFinset else ∅ })
      (secure i publishes toFlush) s := by
  have hsync : ∀ {w : Own}, w = { Own.quiet ∅ b with synced := w.synced } → ∀ r : Bool,
      (Op.sync i toFlush toFlush).after r w =
        { Own.quiet ∅ b with synced := if r then toFlush.toFinset else ∅ } := by
    intro w hw r
    rw [hw]
    cases r <;> simp [Own.quiet]
  rw [secure]
  split
  · refine keeps hs rfl fun requested s hs => ?_
    cases requested with
    | false => exact hs
    | true =>
      refine keeps hs rfl fun error s hs => ?_
      match error with
      | none => exact hs
      | some false => exact hs
      | some true =>
        refine keeps hs ⟨rfl, List.Subset.refl _⟩ fun synced s hs => ?_
        rw [hsync rfl] at hs
        cases synced with
        | false => exact hs
        | true => exact keeps hs rfl fun started s hs => hs
  · exact keeps hs ⟨rfl, List.Subset.refl _⟩ fun synced s hs => hs.trans (hsync rfl synced)

theorem flushDirty_keeps (publishes : Bool) (hs : s.own i = .quiet ∅ b) :
    Keeps i (fun _ s' => s'.own i = .idle) (flushDirty i publishes) s := by
  refine keeps hs ⟨rfl, rfl⟩ fun toFlush s hs => ?_
  cases toFlush with
  | nil =>
    show s.own i = _
    rw [hs]
    simp [Own.quiet, Own.idle]
  | cons q toFlush =>
    refine (secure_keeps publishes (q :: toFlush) hs).bind fun ok s hs => ?_
    cases ok with
    | true => exact keeps hs ⟨rfl, rfl, rfl⟩ fun _ s hs => rearm_keeps .retry hs
    | false => exact rearm_keeps .retry hs

theorem flush_keeps (publishes : Bool) (t : Timer) (hs : s.own i = .idle) :
    Keeps i (fun _ s' => s'.own i = .idle) (flush (drainEdgeWrites i) i publishes t) s := by
  refine keeps hs rfl fun _ s hs => keeps hs ⟨rfl, rfl⟩ fun _ s hs => keeps_isClosed hs fun s hs => ?_
  refine (drainEdgeWrites_keeps (show s.own i = .quiet ∅ true from hs)).bind fun drained s ⟨b, hs⟩ => ?_
  match drained with
  | .error _ => exact keeps hs rfl fun _ s hs => keeps hs ⟨rfl, rfl⟩ fun _ s hs => hs
  | .ok true => exact keeps hs rfl fun _ s hs => flushDirty_keeps publishes hs
  | .ok false => exact flushDirty_keeps publishes hs

/-- Every pool of the list is synced and taken out, or is dirty again; nothing of it is owed. -/
theorem syncEach_keeps (ps : List Pool) (failed : Bool) (hs : s.own i = .quiet owed b)
    (howed : owed ⊆ ps.toFinset) :
    Keeps i (fun _ s' => ∃ b', s'.own i = .quiet ∅ b') (syncEach i ps failed) s := by
  induction ps generalizing s owed b failed with
  | nil => exact ⟨b, by rw [hs, subset_empty.mp howed]⟩
  | cons q ps ih =>
    refine keeps hs ⟨rfl, List.Subset.refl _⟩ fun synced s hs => ?_
    cases synced with
    | true =>
      refine keeps hs ⟨rfl, rfl, by simp⟩ fun _ s hs => ?_
      have hs : s.own i = .quiet (owed \ {q}) b := by
        rw [hs]
        simp [Own.quiet]
      refine ih failed hs fun p hp => ?_
      have hp := mem_sdiff.mp hp
      have hmem := mem_toFinset.mp (howed hp.1)
      exact mem_toFinset.mpr ((mem_cons.mp hmem).resolve_left fun heq => hp.2 (by simp [heq]))
    | false =>
      refine keeps hs rfl fun _ s hs => ih true (show s.own i = .quiet (owed.erase q) true from hs) fun p hp => ?_
      have hp := mem_erase.mp hp
      have hmem := mem_toFinset.mp (howed hp.2)
      exact mem_toFinset.mpr ((mem_cons.mp hmem).resolve_left hp.1)

theorem finish_keeps (failed : Bool) (hs : s.own i = .quiet ∅ b) :
    Keeps i (fun _ s' => s'.own i = .idle) (finish i failed) s :=
  (rearm_keeps _ hs).bind fun _ _ hs => hs

theorem syncThese_keeps (toFlush : List Pool) (hs : s.own i = .quiet ∅ b) :
    Keeps i (fun _ s' => s'.own i = .idle) (syncThese (drainEdgeWrites i) i toFlush) s := by
  rw [syncThese]
  split_ifs with hmem
  · refine keeps hs rfl fun _ s hs => (drainEdgeWrites_keeps (show s.own i = .quiet ∅ true from hs)).bind
      fun drained s ⟨b, hs⟩ => ?_
    match drained with
    | .error _ => exact keeps hs rfl fun _ s hs => finish_keeps true hs
    | .ok true =>
      exact (syncEach_keeps toFlush false hs (empty_subset _)).bind
        fun failed s ⟨b, hs⟩ => finish_keeps failed hs
    | .ok false =>
      refine keeps hs ⟨rfl, rfl⟩ fun _ s hs => (syncEach_keeps toFlush false
        (show s.own i = .quiet {.eventDag} b from hs) ?_).bind fun failed s ⟨b, hs⟩ => finish_keeps failed hs
      simpa using hmem
  · exact (syncEach_keeps toFlush false hs (empty_subset _)).bind
      fun failed s ⟨b, hs⟩ => finish_keeps failed hs

theorem syncNow_keeps (pools : Option (List Pool)) (hs : s.own i = .idle) :
    Keeps i (fun _ s' => s'.own i = .idle) (syncNow (drainEdgeWrites i) i pools) s := by
  refine keeps_isClosed hs fun s hs => keeps hs rfl fun cancelled s hs => ?_
  cases cancelled with
  | false => exact hs
  | true =>
    cases pools with
    | some ps => exact syncThese_keeps ps.dedup hs
    | none => exact keeps hs ⟨rfl, rfl⟩ fun ps s hs => syncThese_keeps ps hs

theorem syncEventDagNow_keeps (hs : s.own i = .idle) :
    Keeps i (fun _ s' => s'.own i = .idle) (syncEventDagNow i) s := by
  refine keeps_isClosed hs fun s hs => keeps hs ⟨rfl, nil_subset _⟩ fun synced s hs => ?_
  cases synced with
  | true =>
    exact (rearm_keeps .retry (show s.own i = .quiet ∅ false from hs)).bind fun _ _ hs => hs
  | false =>
    exact keeps hs rfl fun _ s hs => (rearm_keeps .retry (show s.own i = .quiet ∅ true from hs)).bind
      fun _ _ hs => hs

theorem program_keeps (publishes : Bool) (call : Call) (hs : s.own i = .idle) :
    Keeps i (fun _ s' => s'.own i = .idle) (program publishes i call) s := by
  cases call with
  | markDirty p =>
    refine (markDirty_keeps (show s.own i = .quiet ∅ false from hs)).bind fun _ s ⟨b, hs, hb⟩ => ?_
    cases b with
    | false => exact hs
    | true => cases hb rfl
  | flush t => exact (flush_keeps publishes t hs).bind fun _ _ hs => hs
  | syncNow pools => exact syncNow_keeps pools hs
  | syncEventDagNow => exact syncEventDagNow_keeps hs

end Methods

/-! ### Whole runs -/

theorem program_local (publishes : Bool) :
    Local (exec execDrain) (program (ι := ι) publishes) Spaced Inv
      (SafeRest (exec execDrain) rules fun i s => s.own i = .idle) :=
  Local.of_safe (R := rules) (fun h => h) rfl (fun h h' => h'.trans h) (fun hj h => h _ hj)
    (fun hj h hi => (h _ hj).trans hi)
    (fun hok habout => by
      simp only [Spaced, habout] at hok
      exact hok)
    fun _ hs => program_keeps publishes _ hs

/-- In every run that meets the condition, whenever no call is in progress, each pool marked since its
    last successful sync is dirty, and a timer is armed while any pool is dirty. -/
theorem dirty_pools_kept (publishes : Bool) {pool : System ι}
    (hrun : Run (step publishes) Spaced (Kit.Pool.start (Shared.start ())) pool)
    (hquiet : ∀ i, pool.procs i = none) :
    (∀ p ∈ pool.shared.unsynced, p ∈ pool.shared.dirty) ∧
      (pool.shared.dirty ≠ ∅ → pool.shared.timers ≠ []) := by
  obtain ⟨hinv, hown⟩ := (program_local publishes).run Inv.start (fun _ => rfl) hrun
  have hidle : ∀ i, pool.shared.own i = .idle := by
    intro i
    have hi := hown i
    rwa [Kit.Pool.rest, hquiet i] at hi
  refine ⟨fun p hp => (hinv.kept p hp).resolve_right ?_, fun hd => (hinv.armed hd).resolve_right ?_⟩
  · rintro ⟨j, hj⟩
    rw [hidle j] at hj
    exact notMem_empty p hj
  · rintro ⟨j, hj⟩
    rw [hidle j] at hj
    cases hj

/-- What the environment chooses: the engine returns or not, and nothing is queued. -/
def Env.plain (returns : Bool) : Env Drained := ⟨returns, some false, [], .nothing⟩

/-- The state pool is marked. Another thread syncs event edges after a drain that wrote rows; its sync
    fails, and meanwhile the auth chain pool is marked. -/
def failedSyncTrace : List (Act (Fin 2) (Env Drained) Call) :=
  .spawn 0 (.markDirty .state) :: List.replicate 4 (.step 0 (.plain true)) ++
  .spawn 1 (.syncNow (some [.eventDag])) :: List.replicate 3 (.step 1 (.plain true)) ++
  .step 1 ⟨true, some false, [], .wrote 0⟩ :: List.replicate 3 (.step 1 (.plain true)) ++
  .spawn 0 (.markDirty .authChain) :: List.replicate 3 (.step 0 (.plain true)) ++
  .step 1 (.plain false) :: List.replicate 3 (.step 1 (.plain true))

theorem dirty_pools_kept_failed_sync : ∃ pool : System (Fin 2),
    Run (step false) Spaced (Kit.Pool.start (Shared.start ())) pool ∧ (∀ i, pool.procs i = none) ∧
    pool.shared.unsynced = {.state, .eventDag, .authChain} ∧
    (∀ p ∈ pool.shared.unsynced, p ∈ pool.shared.dirty) ∧ pool.shared.timers ≠ [] := by
  simp only [← Option.isNone_iff_eq_none]
  refine Run.exists_get failedSyncTrace (by decide +kernel) fun hrun => ⟨by decide +kernel, by decide +kernel, ?_⟩
  refine (dirty_pools_kept false hrun fun i => Option.isNone_iff_eq_none.mp ?_).imp_right fun h => h ?_
  · revert i
    decide +kernel
  · decide +kernel

/-- The state pool is marked, and another thread syncs it; it is marked again after the sync and before
    it is taken out. -/
def forgottenTrace : List (Act (Fin 2) (Env Drained) Call) :=
  .spawn 0 (.markDirty .state) :: List.replicate 4 (.step 0 (.plain true)) ++
  .spawn 1 (.syncNow (some [.state])) :: List.replicate 3 (.step 1 (.plain true)) ++
  .spawn 0 (.markDirty .state) :: List.replicate 3 (.step 0 (.plain true)) ++
  List.replicate 2 (.step 1 (.plain true))

/-- The second mark is forgotten: the pool is not dirty, and no timer is armed. -/
theorem dirty_pool_forgotten : ∃ pool : System (Fin 2),
    Run (step false) (fun _ _ => True) (Kit.Pool.start (Shared.start ())) pool ∧
    (∀ i, pool.procs i = none) ∧ .state ∈ pool.shared.unsynced ∧ .state ∉ pool.shared.dirty ∧
    pool.shared.timers = [] := by
  simp only [← Option.isNone_iff_eq_none]
  exact Run.exists_exec forgottenTrace (by decide +kernel)

end Sithnapse.Coalescer
