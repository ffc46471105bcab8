import Sithnapse.Kit.Pool

/-! Locks, and calls that take them in order.

    Operations of a pool of calls may acquire and release locks that are not reentrant: an acquire is
    blocked while anyone owns the lock, the call itself included. A call waits for the owner of the
    lock it is about to acquire, and a deadlock is a call that waits, over any number of calls, for
    itself. Where every call acquires locks of increasing rank only, no state of a run has one. -/

namespace Kit

open Relation

variable {ι σ χ Call Op L : Type} {Reply : Op → Type} {α β : Type}

/-- What an operation does to the locks. -/
inductive Use (ι L : Type)
  | acquire (i : ι) (l : L)
  | release (i : ι) (l : L)
  | none

/-- The locks of a pool: how operations use them, and who owns them. -/
structure Locks (ι σ Op L : Type) where
  use : Op → Use ι L
  owner : σ → L → Option ι

/-- The locks a call owns. -/
def Locks.held (K : Locks ι σ Op L) (s : σ) (i : ι) : Set L := {l | K.owner s l = some i}

theorem Locks.mem_held {K : Locks ι σ Op L} {s : σ} {i : ι} {l : L} :
    l ∈ K.held s i ↔ K.owner s l = some i := Iff.rfl

/-- A call is about to acquire a lock that another, or it itself, owns. -/
def Locks.Waits (K : Locks ι σ Op L) (pool : Pool ι σ Call Op Reply α) (i j : ι) : Prop :=
  ∃ o l, pool.about i = some o ∧ K.use o = .acquire i l ∧ K.owner pool.shared l = some j

/-- A call that waits for itself, directly or over others. -/
def Locks.Deadlock (K : Locks ι σ Op L) (pool : Pool ι σ Call Op Reply α) : Prop :=
  ∃ i, TransGen (K.Waits pool) i i

/-- Operations use the locks as they say. -/
structure Locks.Laws [DecidableEq L] (K : Locks ι σ Op L)
    (exec : (o : Op) → χ → σ → Option (Reply o × σ)) : Prop where
  acquire : ∀ {o c s r s' i l}, K.use o = .acquire i l → exec o c s = some (r, s') →
    K.owner s l = none ∧ K.owner s' = Function.update (K.owner s) l (some i)
  release : ∀ {o c s r s' i l}, K.use o = .release i l → exec o c s = some (r, s') →
    K.owner s' = Function.update (K.owner s) l none
  none : ∀ {o c s r s'}, K.use o = .none → exec o c s = some (r, s') → K.owner s' = K.owner s

/-! ### Ordered programs -/

/-- A call's program acquires, with some locks held, locks of higher rank only, and releases locks it
    holds, whatever replies of a kind its operations get; at its end, `Q` holds of what is held. -/
def Ordered (K : Locks ι σ Op L) (rank : L → ℕ) (M : (o : Op) → Reply o → Prop) (i : ι)
    (Q : β → Set L → Prop) : Prog Op Reply β → Set L → Prop
  | .done b, held => Q b held
  | .op o next, held =>
    match K.use o with
    | .acquire j l =>
      j = i ∧ (∀ l' ∈ held, rank l' < rank l) ∧ ∀ r, M o r → Ordered K rank M i Q (next r) (insert l held)
    | .release j l => j = i ∧ l ∈ held ∧ ∀ r, M o r → Ordered K rank M i Q (next r) (held \ {l})
    | .none => ∀ r, M o r → Ordered K rank M i Q (next r) held

section Ordered

variable {K : Locks ι σ Op L} {rank : L → ℕ} {M : (o : Op) → Reply o → Prop} {i : ι} {held : Set L}
  {Q : β → Set L → Prop} {o : Op} {next : Reply o → Prog Op Reply β} {l : L}

theorem Ordered.of_acquire (huse : K.use o = .acquire i l) (hrank : ∀ l' ∈ held, rank l' < rank l)
    (h : ∀ r, M o r → Ordered K rank M i Q (next r) (insert l held)) :
    Ordered K rank M i Q (.op o next) held := by
  simp only [Ordered, huse]
  exact ⟨trivial, hrank, h⟩

theorem Ordered.of_release (huse : K.use o = .release i l) (hheld : l ∈ held)
    (h : ∀ r, M o r → Ordered K rank M i Q (next r) (held \ {l})) :
    Ordered K rank M i Q (.op o next) held := by
  simp only [Ordered, huse]
  exact ⟨trivial, hheld, h⟩

theorem Ordered.of_none (huse : K.use o = .none)
    (h : ∀ r, M o r → Ordered K rank M i Q (next r) held) :
    Ordered K rank M i Q (.op o next) held := by
  simp only [Ordered, huse]
  exact h

theorem Ordered.bind {γ : Type} {Q' : γ → Set L → Prop} {p : Prog Op Reply β} {f : β → Prog Op Reply γ}
    (h : Ordered K rank M i Q p held) (hf : ∀ b held, Q b held → Ordered K rank M i Q' (f b) held) :
    Ordered K rank M i Q' (p >>= f) held := by
  induction p generalizing held with
  | done b => exact hf b held h
  | op o next ih =>
    rw [Prog.op_bind]
    simp only [Ordered] at h ⊢
    split at h
    · exact ⟨h.1, h.2.1, fun r hr => ih r (h.2.2 r hr)⟩
    · exact ⟨h.1, h.2.1, fun r hr => ih r (h.2.2 r hr)⟩
    · exact fun r hr => ih r (h r hr)

theorem Ordered.mono {Q' : β → Set L → Prop} {p : Prog Op Reply β} (h : Ordered K rank M i Q p held)
    (hQ : ∀ b held, Q b held → Q' b held) : Ordered K rank M i Q' p held :=
  p.bind_done ▸ h.bind hQ

/-- What is left after an operation is ordered with the locks then held, and those of others stay. -/
theorem Ordered.step [DecidableEq L] {exec : (o : Op) → χ → σ → Option (Reply o × σ)}
    (hlaws : K.Laws exec) {c : χ} {s s' : σ} {r : Reply o}
    (h : Ordered K rank M i Q (.op o next) (K.held s i)) (hr : exec o c s = some (r, s')) (hM : M o r) :
    Ordered K rank M i Q (next r) (K.held s' i) ∧ ∀ j, j ≠ i → K.held s' j = K.held s j := by
  simp only [Ordered] at h
  split at h
  · rename_i j l huse
    obtain ⟨rfl, -, hnext⟩ := h
    obtain ⟨hfree, howner⟩ := hlaws.acquire huse hr
    have hself : K.held s' j = insert l (K.held s j) := by
      ext l'
      by_cases hl : l' = l <;> simp [Locks.mem_held, howner, hl]
    refine ⟨hself ▸ hnext r hM, fun k hk => ?_⟩
    ext l'
    by_cases hl : l' = l
    · simp [Locks.mem_held, howner, hl, hfree, hk.symm]
    · simp [Locks.mem_held, howner, hl]
  · rename_i j l huse
    obtain ⟨rfl, hl, hnext⟩ := h
    have howner := hlaws.release huse hr
    have hself : K.held s' j = K.held s j \ {l} := by
      ext l'
      by_cases hl : l' = l <;> simp [Locks.mem_held, howner, hl]
    refine ⟨hself ▸ hnext r hM, fun k hk => ?_⟩
    ext l'
    by_cases hl' : l' = l
    · simp [Locks.mem_held, howner, hl', Locks.mem_held.mp hl, hk.symm]
    · simp [Locks.mem_held, howner, hl']
  · rename_i huse
    have hheld : ∀ k, K.held s' k = K.held s k := fun k => by
      rw [Locks.held, Locks.held, hlaws.none huse hr]
    rw [hheld]
    exact ⟨h r hM, fun k _ => hheld k⟩

end Ordered

/-! ### Pools of ordered programs -/

variable [DecidableEq ι] [DecidableEq L] {K : Locks ι σ Op L} {rank : L → ℕ}
  {M : (o : Op) → Reply o → Prop} {exec : (o : Op) → χ → σ → Option (Reply o × σ)}
  {program : ι → Call → Prog Op Reply α} {release : ι → σ → σ}
  {ok : Pool ι σ Call Op Reply α → Act ι χ Call → Prop} {pool : Pool ι σ Call Op Reply α} {s₀ : σ}

/-- A thread holds no lock between two calls, and what it has left to do is ordered. -/
def InOrder (K : Locks ι σ Op L) (rank : L → ℕ) (M : (o : Op) → Reply o → Prop) (i : ι) :
    Option (Prog Op Reply α) → σ → Prop
  | none, s => K.held s i = ∅
  | some p, s => Ordered K rank M i (fun _ held => held = ∅) p (K.held s i)

/-- Ordered programs stay ordered in every run whose operations get replies of the kind. -/
theorem inOrder_run (hlaws : K.Laws exec) (halive : ∀ {pool i}, ¬ ok pool (.kill i))
    (hprogram : ∀ i call, Ordered K rank M i (fun _ held => held = ∅) (program i call) ∅)
    (hreply : ∀ {pool i c o r s'}, ok pool (.step i c) → pool.about i = some o →
      exec o c pool.shared = some (r, s') → M o r)
    (hstart : ∀ l, K.owner s₀ l = none)
    (h : Run (Pool.step exec program release) ok (Pool.start s₀) pool) (i : ι) :
    InOrder K rank M i (pool.rest i) pool.shared := by
  have hloc : Local exec program ok (fun _ => True) (InOrder K rank M) :=
    { alive := halive
      spawn := by
        intro i call s _ hidle
        rw [InOrder] at hidle
        rw [InOrder, hidle]
        exact hprogram i call
      done := fun hdone => hdone
      step := by
        intro pool i c o next r s' hok habout _ hop hr
        obtain ⟨hnext, hothers⟩ := Ordered.step hlaws hop hr (hreply hok habout hr)
        refine ⟨trivial, hnext, fun j x hj hx => ?_⟩
        cases x with
        | none => exact (hothers j hj).trans hx
        | some p =>
          rw [InOrder, hothers j hj]
          exact hx }
  refine (hloc.run trivial (fun i => ?_) h).2 i
  ext l
  simp [Locks.mem_held, hstart l]

section

omit [DecidableEq ι] [DecidableEq L]

variable (h : ∀ i, InOrder K rank M i (pool.rest i) pool.shared)

include h

/-- A call about to acquire a lock holds only locks of lower rank. -/
theorem InOrder.rank_lt {i : ι} {o : Op} {l l' : L}
    (habout : pool.about i = some o) (huse : K.use o = .acquire i l)
    (hl' : K.owner pool.shared l' = some i) : rank l' < rank l := by
  have hi := h i
  rw [Pool.about] at habout
  split at habout
  · rename_i call began o' next hproc
    cases habout
    rw [Pool.rest, hproc] at hi
    simp only [Option.map_some, InOrder, Ordered, huse] at hi
    exact hi.2.1 l' hl'
  · cases habout

/-- Over a chain of waiting calls, the locks waited for rise in rank. -/
theorem InOrder.rank_lt_of_waits {i j : ι} (hwaits : TransGen (K.Waits pool) i j) {o o' : Op} {l l' : L}
    (hi : pool.about i = some o) (huse : K.use o = .acquire i l) (hj : pool.about j = some o')
    (huse' : K.use o' = .acquire j l') : rank l < rank l' := by
  induction hwaits generalizing o' l' with
  | single hwait =>
    obtain ⟨o₁, l₁, hi₁, huse₁, howner⟩ := hwait
    obtain rfl : o = o₁ := Option.mem_unique hi hi₁
    obtain rfl : l = l₁ := by simpa using huse.symm.trans huse₁
    exact InOrder.rank_lt h hj huse' howner
  | tail _ hwait ih =>
    obtain ⟨o₁, l₁, hj₁, huse₁, howner⟩ := hwait
    exact (ih hj₁ huse₁).trans (InOrder.rank_lt h hj huse' howner)

/-- Where all threads are in order, none waits for itself. -/
theorem InOrder.no_deadlock : ¬ K.Deadlock pool := by
  rintro ⟨i, hwaits⟩
  obtain ⟨j, ⟨o, l, habout, huse, -⟩, -⟩ := TransGen.head'_iff.mp hwaits
  exact lt_irrefl _ (InOrder.rank_lt_of_waits h hwaits habout huse habout huse)

end

end Kit
