import Sithnapse.Kit.Runs
import Sithnapse.Kit.Prog

/-! Calls side by side on a shared state.

    A pool holds the shared state and the calls under way, each a program whose operations are taken
    one at a time in any order of the calls. A call may also end at any point, by an exception or with
    the process.

    Calls are verified one by one. `Safe` says that a program keeps the invariant and its guarantee
    whatever the others do within its rely in between; the rely may depend on the operation the program
    is about to perform, which is where conditions on the order of operations enter. `Pool.Sound.run`
    puts the calls together. -/

namespace Kit
open Function Option

variable {ι σ χ Call Op : Type} {Reply : Op → Type} {α β : Type}

/-- A call under way: what was called, the shared state at that time, and what is left to do. -/
structure Proc (σ Call Op : Type) (Reply : Op → Type) (α : Type) where
  call : Call
  began : σ
  rest : Prog Op Reply α

/-- A shared state, the calls under way, and the results of those that returned. -/
structure Pool (ι σ Call Op : Type) (Reply : Op → Type) (α : Type) where
  shared : σ
  procs : ι → Option (Proc σ Call Op Reply α)
  results : List (Call × σ × α)

/-- What happens next. -/
inductive Act (ι χ Call : Type)
  /-- A call is made. -/
  | spawn (i : ι) (call : Call)
  /-- A call performs its next operation. -/
  | step (i : ι) (c : χ)
  /-- A call ends early. -/
  | kill (i : ι)

/-- No call under way. -/
def Pool.start (s : σ) : Pool ι σ Call Op Reply α := ⟨s, fun _ => none, []⟩

/-- The operation a call is about to perform. -/
def Pool.about (pool : Pool ι σ Call Op Reply α) (i : ι) : Option Op :=
  match pool.procs i with
  | some ⟨_, _, .op o _⟩ => some o
  | _ => none

variable {pool : Pool ι σ Call Op Reply α} {p : Prog Op Reply β} {Q : β → σ → Prop} {s : σ}

theorem Pool.about_eq {i : ι} {call : Call} {began : σ} {o : Op}
    {next : Reply o → Prog Op Reply α} (h : pool.procs i = some ⟨call, began, .op o next⟩) :
    pool.about i = some o := by
  rw [Pool.about, h]

section Step

variable [DecidableEq ι]

/-- A call with its program so far; a program that is done returns. -/
def Pool.put (pool : Pool ι σ Call Op Reply α) (i : ι) (p : Proc σ Call Op Reply α) :
    Pool ι σ Call Op Reply α :=
  match p.rest with
  | .done a =>
    { pool with procs := update pool.procs i none
                results := pool.results ++ [(p.call, p.began, a)] }
  | .op _ _ => { pool with procs := update pool.procs i (some p) }

/-- One action. -/
def Pool.step (exec : (o : Op) → χ → σ → Option (Reply o × σ)) (program : ι → Call → Prog Op Reply α)
    (release : ι → σ → σ) (pool : Pool ι σ Call Op Reply α) :
    Act ι χ Call → Option (Pool ι σ Call Op Reply α)
  | .spawn i call =>
    match pool.procs i with
    | some _ => none
    | none => some (pool.put i ⟨call, pool.shared, program i call⟩)
  | .step i c =>
    match pool.procs i with
    | some ⟨call, began, .op o next⟩ =>
      (exec o c pool.shared).map fun r => { pool with shared := r.2 }.put i ⟨call, began, next r.1⟩
    | _ => none
  | .kill i =>
    match pool.procs i with
    | none => none
    | some _ =>
      some { pool with shared := release i pool.shared, procs := update pool.procs i none }

end Step

/-! ### Safe programs -/

/-- What calls may rely on and must keep. -/
structure Rules (ι σ Call Op α : Type) where
  /-- Holds between any two operations. -/
  inv : σ → Prop
  /-- Holds when an operation is performed, by the condition on the run. -/
  may : Op → σ → Prop
  /-- What others may do while a call is about to perform an operation. -/
  rely : ι → Op → σ → σ → Prop
  /-- What a call's operation does. -/
  guar : ι → Op → σ → σ → Prop
  /-- What holds, from its return on, of a call made in a state and its result. -/
  post : Call → σ → α → σ → Prop

variable {exec : (o : Op) → χ → σ → Option (Reply o × σ)} {R : Rules ι σ Call Op α} {i : ι}

/-- The program keeps the rules from a state on, and ends with `Q`. -/
def Safe (exec : (o : Op) → χ → σ → Option (Reply o × σ)) (R : Rules ι σ Call Op α) (i : ι)
    (Q : β → σ → Prop) : Prog Op Reply β → σ → Prop
  | .done a, s => Q a s
  | .op o next, s => ∀ s', R.inv s' → R.rely i o s s' → R.may o s' →
      ∀ c r s'', exec o c s' = some (r, s'') → R.inv s'' ∧ R.guar i o s' s'' ∧ Safe exec R i Q (next r) s''

theorem Safe.bind {γ : Type} {Q' : γ → σ → Prop} {f : β → Prog Op Reply γ} (h : Safe exec R i Q p s)
    (hf : ∀ a s, Q a s → Safe exec R i Q' (f a) s) : Safe exec R i Q' (p >>= f) s := by
  induction p generalizing s with
  | done a => exact hf a s h
  | op o next ih =>
    intro s' hinv hrely hmay c r s'' hs
    obtain ⟨hinv', hguar, hnext⟩ := h s' hinv hrely hmay c r s'' hs
    exact ⟨hinv', hguar, ih r hnext⟩

theorem Safe.mono {Q' : β → σ → Prop} (h : Safe exec R i Q p s)
    (hQ : ∀ a s, Q a s → Q' a s) : Safe exec R i Q' p s :=
  p.bind_done ▸ h.bind hQ

/-- A program that may raise goes on only without an exception. -/
theorem Safe.tryBind {ε γ : Type} {Q : Except ε γ → σ → Prop} {p : Prog.Try Op Reply ε β}
    {f : β → Prog.Try Op Reply ε γ}
    (h : Safe exec R i (fun r s =>
      match r with
      | .ok a => Safe exec R i Q (f a) s
      | .error e => Q (.error e) s) p s) :
    Safe exec R i Q (p >>= f : Prog.Try Op Reply ε γ) s := by
  refine Safe.bind (p := p) h fun r s hr => ?_
  cases r with
  | ok a => exact hr
  | error e => exact hr

/-- What every step does, the program's and those of others, holds from its start to its end. -/
theorem Safe.frame {L : σ → σ → Prop} (hrefl : ∀ s, L s s)
    (htrans : ∀ {s s' s''}, L s s' → L s' s'' → L s s'')
    (hrely : ∀ {o s s'}, R.rely i o s s' → L s s') (hguar : ∀ {o s s'}, R.guar i o s s' → L s s') (h : Safe exec R i Q p s) :
    Safe exec R i (fun a s' => Q a s' ∧ L s s') p s := by
  suffices hfrom : ∀ s₀, L s₀ s → Safe exec R i (fun a s' => Q a s' ∧ L s₀ s') p s from hfrom s (hrefl s)
  induction p generalizing s with
  | done a => exact fun s₀ hs => ⟨h, hs⟩
  | op o next ih =>
    intro s₀ hs s' hinv hr hmay c r s'' hexec
    obtain ⟨hinv', hg, hnext⟩ := h s' hinv hr hmay c r s'' hexec
    exact ⟨hinv', hg, ih r hnext s₀ (htrans (htrans hs (hrely hr)) (hguar hg))⟩

/-- The invariant holds at the end too. -/
theorem Safe.inv (h : Safe exec R i Q p s)
    (hs : R.inv s) : Safe exec R i (fun a s' => Q a s' ∧ R.inv s') p s := by
  induction p generalizing s with
  | done a => exact ⟨h, hs⟩
  | op o next ih =>
    intro s' hinv hr hmay c r s'' hexec
    obtain ⟨hinv', hg, hnext⟩ := h s' hinv hr hmay c r s'' hexec
    exact ⟨hinv', hg, ih r hnext hinv'⟩

/-! ### Pools of safe programs -/

/-- Every call under way is safe, and what returned is right. -/
structure Pool.Sound (exec : (o : Op) → χ → σ → Option (Reply o × σ)) (R : Rules ι σ Call Op α)
    (pool : Pool ι σ Call Op Reply α) : Prop where
  inv : R.inv pool.shared
  safe : ∀ {i p}, pool.procs i = some p → Safe exec R i (R.post p.call p.began) p.rest pool.shared
  /-- Calls under way have something left to do. -/
  busy : ∀ {i p}, pool.procs i = some p → ∀ a, p.rest ≠ .done a
  post : ∀ {call s a}, (call, s, a) ∈ pool.results → R.post call s a pool.shared

theorem Pool.Sound.start (h : R.inv s) : (Pool.start s : Pool ι σ Call Op Reply α).Sound exec R :=
  ⟨h, fun hp => absurd hp (by simp [Pool.start]), fun hp => absurd hp (by simp [Pool.start]),
    fun hp => absurd hp (by simp [Pool.start])⟩

variable [DecidableEq ι] {program : ι → Call → Prog Op Reply α} {release : ι → σ → σ}

/-- The rules fit together in runs that meet `ok`. -/
structure Rules.Fit (R : Rules ι σ Call Op α) (exec : (o : Op) → χ → σ → Option (Reply o × σ))
    (program : ι → Call → Prog Op Reply α) (release : ι → σ → σ)
    (ok : Pool ι σ Call Op Reply α → Act ι χ Call → Prop) : Prop where
  refl : ∀ {i o s}, R.rely i o s s
  trans : ∀ {i o s s' s''}, R.rely i o s s' → R.rely i o s' s'' → R.rely i o s s''
  start : ∀ {pool i call}, ok pool (.spawn i call) → R.inv pool.shared →
    Safe exec R i (R.post call pool.shared) (program i call) pool.shared
  may : ∀ {pool i c call began o next}, ok pool (.step i c) →
    pool.procs i = some ⟨call, began, .op o next⟩ → R.may o pool.shared
  other : ∀ {pool i c call began o next s' j call' began' o' next'}, ok pool (.step i c) →
    pool.procs i = some ⟨call, began, .op o next⟩ → j ≠ i →
    pool.procs j = some ⟨call', began', .op o' next'⟩ → R.inv pool.shared → R.inv s' →
    R.guar i o pool.shared s' → R.rely j o' pool.shared s'
  keeps : ∀ {i o s s' call s₀ a}, R.guar i o s s' → R.post call s₀ a s → R.post call s₀ a s'
  kill_inv : ∀ {i s}, R.inv s → R.inv (release i s)
  kill_other : ∀ {i j o s}, j ≠ i → R.inv s → R.rely j o s (release i s)
  kill_keeps : ∀ {i s call s₀ a}, R.post call s₀ a s → R.post call s₀ a (release i s)

omit [DecidableEq ι] in
/-- A safe program stays safe over what the others do. -/
theorem Safe.other {s' : σ} (h : Safe exec R i Q p s)
    (htrans : ∀ {o s s' s''}, R.rely i o s s' → R.rely i o s' s'' → R.rely i o s s'')
    (hp : ∀ o next, p = .op o next → R.rely i o s s') (hdone : ∀ a, p ≠ .done a) :
    Safe exec R i Q p s' := by
  cases p with
  | done a => exact absurd rfl (hdone a)
  | op o next =>
    intro s₁ hinv hrely
    exact h s₁ hinv (htrans (hp o next rfl) hrely)

/-- A call goes on, or returns. -/
theorem Pool.put_cases (pool : Pool ι σ Call Op Reply α) (i : ι) (p : Proc σ Call Op Reply α) :
    (∃ a, p.rest = .done a ∧ (pool.put i p).procs = update pool.procs i none ∧
      (pool.put i p).results = pool.results ++ [(p.call, p.began, a)]) ∨
    (∀ a, p.rest ≠ .done a) ∧ (pool.put i p).procs = update pool.procs i (some p) ∧
      (pool.put i p).results = pool.results := by
  rw [Pool.put]
  split
  · rename_i a ha
    exact .inl ⟨a, ha, rfl, rfl⟩
  · rename_i o next ho
    exact .inr ⟨fun a ha => absurd (ho.symm.trans ha) (by simp), rfl, rfl⟩

@[simp] theorem Pool.put_shared (pool : Pool ι σ Call Op Reply α) (i : ι) (p : Proc σ Call Op Reply α) :
    (pool.put i p).shared = pool.shared := by
  rw [Pool.put]
  split <;> rfl

/-- A call has moved the shared state, and the others still are safe. -/
theorem Pool.Sound.put (pool : Pool ι σ Call Op Reply α) {s' : σ} {p : Proc σ Call Op Reply α}
    (hinv : R.inv s') (hsafe : Safe exec R i (R.post p.call p.began) p.rest s')
    (hothers : ∀ {j q}, j ≠ i → pool.procs j = some q →
      Safe exec R j (R.post q.call q.began) q.rest s' ∧ ∀ a, q.rest ≠ .done a)
    (hpost : ∀ {call s a}, (call, s, a) ∈ pool.results → R.post call s a s') :
    ({ pool with shared := s' }.put i p).Sound exec R := by
  set pool₁ := { pool with shared := s' } with hpool₁
  have hshared : (pool₁.put i p).shared = s' := pool₁.put_shared i p
  rcases pool₁.put_cases i p with ⟨b, hb, hprocs, hresults⟩ | ⟨hop, hprocs, hresults⟩
  · have hold : ∀ {j q}, (pool₁.put i p).procs j = some q → j ≠ i ∧ pool.procs j = some q := by
      intro j q hq
      rw [hprocs] at hq
      have hj : j ≠ i := by
        rintro rfl
        simp at hq
      exact ⟨hj, by rwa [update_of_ne hj] at hq⟩
    refine ⟨hshared ▸ hinv, fun hq => ?_, fun hq => ?_, fun {call s a} hmem => ?_⟩
    · rw [hshared]
      exact (hothers (hold hq).1 (hold hq).2).1
    · exact (hothers (hold hq).1 (hold hq).2).2
    · rw [hshared]
      rw [hresults, List.mem_append, List.mem_singleton] at hmem
      rcases hmem with hmem | hmem
      · exact hpost hmem
      · rw [hb] at hsafe
        obtain ⟨rfl, rfl, rfl⟩ : call = p.call ∧ s = p.began ∧ a = b := by simpa using hmem
        exact hsafe
  · have hcur : ∀ {j q}, (pool₁.put i p).procs j = some q →
        (j = i ∧ q = p) ∨ (j ≠ i ∧ pool.procs j = some q) := by
      intro j q hq
      rw [hprocs] at hq
      rcases eq_or_ne j i with rfl | hj
      · rw [update_self, some.injEq] at hq
        exact .inl ⟨rfl, hq.symm⟩
      · exact .inr ⟨hj, by rwa [update_of_ne hj] at hq⟩
    refine ⟨hshared ▸ hinv, fun {j q} hq => ?_, fun {j q} hq => ?_, fun hmem => ?_⟩
    · rw [hshared]
      rcases hcur hq with ⟨rfl, rfl⟩ | ⟨hj, hq⟩
      · exact hsafe
      · exact (hothers hj hq).1
    · rcases hcur hq with ⟨rfl, rfl⟩ | ⟨hj, hq⟩
      · exact hop
      · exact (hothers hj hq).2
    · rw [hshared]
      exact hpost (hresults ▸ hmem)

variable {ok : Pool ι σ Call Op Reply α → Act ι χ Call → Prop}

/-- What an action does to a pool. -/
theorem Pool.step_cases {pool' : Pool ι σ Call Op Reply α} {a : Act ι χ Call}
    (h : pool.step exec program release a = some pool') :
    (∃ i call, a = .spawn i call ∧ pool.procs i = none ∧
      pool' = pool.put i ⟨call, pool.shared, program i call⟩) ∨
    (∃ i c call began o next r s', a = .step i c ∧ pool.procs i = some ⟨call, began, .op o next⟩ ∧
      exec o c pool.shared = some (r, s') ∧
      pool' = { pool with shared := s' }.put i ⟨call, began, next r⟩) ∨
    ∃ i p, a = .kill i ∧ pool.procs i = some p ∧
      pool' = { pool with shared := release i pool.shared
                          procs := update pool.procs i none } := by
  cases a with
  | spawn i call =>
    simp only [Pool.step] at h
    split at h
    · cases h
    · rename_i hi
      exact .inl ⟨i, call, rfl, hi, (some.inj h).symm⟩
  | step i c =>
    simp only [Pool.step] at h
    split at h
    · rename_i call began o next hi
      obtain ⟨⟨r, s'⟩, hr, rfl⟩ := map_eq_some_iff.mp h
      exact .inr (.inl ⟨i, c, call, began, o, next, r, s', rfl, hi, hr, rfl⟩)
    · cases h
  | kill i =>
    simp only [Pool.step] at h
    split at h
    · cases h
    · rename_i p hi
      exact .inr (.inr ⟨i, p, rfl, hi, (some.inj h).symm⟩)

/-- An action that the run's condition permits keeps all calls safe. -/
theorem Pool.Sound.step {pool' : Pool ι σ Call Op Reply α} {a : Act ι χ Call}
    (hfit : R.Fit exec program release ok) (h : pool.Sound exec R) (hok : ok pool a)
    (hstep : pool.step exec program release a = some pool') : pool'.Sound exec R := by
  rcases Pool.step_cases hstep with ⟨i, call, rfl, hi, rfl⟩ |
    ⟨i, c, call, began, o, next, r, s', rfl, hi, hr, rfl⟩ | ⟨i, p, rfl, hi, rfl⟩
  · exact Pool.Sound.put pool h.inv (hfit.start hok h.inv)
      (fun _ hq => ⟨h.safe hq, h.busy hq⟩) h.post
  · obtain ⟨hinv, hguar, hnext⟩ := h.safe hi pool.shared h.inv hfit.refl (hfit.may hok hi) c r s' hr
    refine Pool.Sound.put pool hinv hnext (fun {j q} hj hq => ⟨?_, h.busy hq⟩)
      fun hmem => hfit.keeps hguar (h.post hmem)
    refine (h.safe hq).other hfit.trans (fun o' next' ho => ?_) (h.busy hq)
    exact hfit.other hok hi hj (by rw [hq, ← ho]) h.inv hinv hguar
  · have hold : ∀ {j q}, update pool.procs i none j = some q → j ≠ i ∧ pool.procs j = some q := by
      intro j q hq
      have hj : j ≠ i := by
        rintro rfl
        simp at hq
      exact ⟨hj, by rwa [update_of_ne hj] at hq⟩
    refine ⟨hfit.kill_inv h.inv, fun hq => ?_, fun hq => h.busy (hold hq).2,
      fun hmem => hfit.kill_keeps (h.post hmem)⟩
    obtain ⟨hj, hq⟩ := hold hq
    exact (h.safe hq).other hfit.trans (fun o' next' _ => hfit.kill_other hj h.inv) (h.busy hq)

/-- In every run that meets the condition, the invariant holds, and returned calls are right. -/
theorem Pool.Sound.run {s₀ : σ} (hfit : R.Fit exec program release ok)
    (hs : R.inv s₀) (h : Run (Pool.step exec program release) ok (Pool.start s₀) pool) :
    pool.Sound exec R :=
  h.invariant (.start hs) fun hI hok hstep => hI.step hfit hok hstep

/-- What holds of every program at its start and of what is left after each operation holds of all
    calls under way. -/
theorem Pool.rest_run {P : Prog Op Reply α → Prop} (hprogram : ∀ i call, P (program i call))
    (hnext : ∀ o next r, P (.op o next) → P (next r)) {s₀ : σ}
    (h : Run (Pool.step exec program release) ok (Pool.start s₀) pool) :
    ∀ i p, pool.procs i = some p → P p.rest := by
  have hput : ∀ (pool : Pool ι σ Call Op Reply α) (i : ι) (p : Proc σ Call Op Reply α),
      (∀ j q, pool.procs j = some q → P q.rest) → P p.rest →
      ∀ j q, (pool.put i p).procs j = some q → P q.rest := by
    intro pool i p hpool hp j q hq
    rcases eq_or_ne j i with rfl | hj
    · rcases pool.put_cases j p with ⟨a, -, hprocs, -⟩ | ⟨-, hprocs, -⟩
      · rw [hprocs, update_self] at hq
        cases hq
      · rw [hprocs, update_self] at hq
        exact some.inj hq ▸ hp
    · rcases pool.put_cases i p with ⟨a, -, hprocs, -⟩ | ⟨-, hprocs, -⟩ <;>
        exact hpool j q (by rwa [hprocs, update_of_ne hj] at hq)
  refine h.invariant (I := fun pool => ∀ i p, pool.procs i = some p → P p.rest)
    (fun i p hp => absurd hp (by simp [Pool.start])) fun {pool pool' a} hI _ hstep => ?_
  intro j q hq
  rcases Pool.step_cases hstep with ⟨i, call, rfl, hi, rfl⟩ |
    ⟨i, c, call, began, o, next, r, s', rfl, hi, hr, rfl⟩ | ⟨i, p, rfl, hi, rfl⟩
  · exact hput pool i _ hI (hprogram i call) j q hq
  · exact hput { pool with shared := s' } i _ hI (hnext o next r (hI i _ hi)) j q hq
  · rcases eq_or_ne j i with rfl | hj
    · simp at hq
    · exact hI j q (by simpa [update_of_ne hj] using hq)

/-! ### Each call with its own part of the state -/

/-- What is left to do in a thread; nothing between two calls. -/
def Pool.rest (pool : Pool ι σ Call Op Reply α) (i : ι) : Option (Prog Op Reply α) :=
  (pool.procs i).map Proc.rest

/-- An invariant of the shared state, and what holds of each thread and what it has left to do there:
    kept when a call is made, by each of its operations, when it returns, and by the operations of
    others. Calls do not end early. -/
structure Local (exec : (o : Op) → χ → σ → Option (Reply o × σ)) (program : ι → Call → Prog Op Reply α)
    (ok : Pool ι σ Call Op Reply α → Act ι χ Call → Prop) (I : σ → Prop)
    (P : ι → Option (Prog Op Reply α) → σ → Prop) : Prop where
  alive : ∀ {pool i}, ¬ ok pool (.kill i)
  spawn : ∀ {i call s}, I s → P i none s → P i (some (program i call)) s
  done : ∀ {i a s}, P i (some (.done a)) s → P i none s
  step : ∀ {pool i c o next r s'}, ok pool (.step i c) → pool.about i = some o → I pool.shared →
    P i (some (.op o next)) pool.shared → exec o c pool.shared = some (r, s') →
    I s' ∧ P i (some (next r)) s' ∧ ∀ j x, j ≠ i → P j x pool.shared → P j x s'

/-- A call goes on, or returns, with what holds of it. -/
theorem Local.put {I : σ → Prop} {P : ι → Option (Prog Op Reply α) → σ → Prop}
    (hloc : Local exec program ok I P) (pool : Pool ι σ Call Op Reply α) {p : Proc σ Call Op Reply α}
    (hp : P i (some p.rest) pool.shared) (hothers : ∀ j, j ≠ i → P j (pool.rest j) pool.shared) (j : ι) :
    P j ((pool.put i p).rest j) pool.shared := by
  rcases eq_or_ne j i with rfl | hj
  · rcases pool.put_cases j p with ⟨a, ha, hprocs, -⟩ | ⟨-, hprocs, -⟩
    · rw [Pool.rest, hprocs, update_self]
      exact hloc.done (ha ▸ hp)
    · rw [Pool.rest, hprocs, update_self]
      exact hp
  · have hrest : (pool.put i p).rest j = pool.rest j := by
      rcases pool.put_cases i p with ⟨a, -, hprocs, -⟩ | ⟨-, hprocs, -⟩ <;>
        rw [Pool.rest, hprocs, update_of_ne hj, Pool.rest]
    rw [hrest]
    exact hothers j hj

/-- In every run that meets the condition, the invariant holds, and of each thread what should. -/
theorem Local.run {I : σ → Prop} {P : ι → Option (Prog Op Reply α) → σ → Prop}
    (hloc : Local exec program ok I P) {s₀ : σ} (hI : I s₀)
    (hP : ∀ i, P i none s₀) (h : Run (Pool.step exec program release) ok (Pool.start s₀) pool) :
    I pool.shared ∧ ∀ i, P i (pool.rest i) pool.shared := by
  refine h.invariant (I := fun pool => I pool.shared ∧ ∀ i, P i (pool.rest i) pool.shared) ⟨hI, hP⟩ ?_
  rintro pool pool' a ⟨hI, hP⟩ hok hstep
  rcases Pool.step_cases hstep with ⟨i, call, rfl, hi, rfl⟩ |
    ⟨i, c, call, began, o, next, r, s', rfl, hi, hr, rfl⟩ | ⟨i, p, rfl, -, -⟩
  · have hnone : P i none pool.shared := by
      have hrest := hP i
      rwa [Pool.rest, hi] at hrest
    rw [Pool.put_shared]
    exact ⟨hI, hloc.put pool (p := ⟨call, pool.shared, program i call⟩) (hloc.spawn hI hnone) fun j _ => hP j⟩
  · have hop : P i (some (.op o next)) pool.shared := by
      have hrest := hP i
      rwa [Pool.rest, hi] at hrest
    obtain ⟨hI', hnext, hothers⟩ := hloc.step hok (Pool.about_eq hi) hI hop hr
    rw [Pool.put_shared]
    exact ⟨hI', hloc.put { pool with shared := s' } (p := ⟨call, began, next r⟩) hnext
      fun j hj => hothers j _ hj (hP j)⟩
  · exact absurd hok hloc.alive

/-- A thread is idle between two calls, and what it has left to do in one is safe and ends so. -/
def SafeRest (exec : (o : Op) → χ → σ → Option (Reply o × σ)) (R : Rules ι σ Call Op α)
    (idle : ι → σ → Prop) (i : ι) : Option (Prog Op Reply α) → σ → Prop
  | none, s => idle i s
  | some p, s => Safe exec R i (fun _ => idle i) p s

omit [DecidableEq ι] in
/-- Safe programs side by side, where others leave alone what a call relies on. -/
theorem Local.of_safe {idle : ι → σ → Prop} (halive : ∀ {pool i}, ¬ ok pool (.kill i))
    (hrefl : ∀ {i o s}, R.rely i o s s)
    (htrans : ∀ {i o s s' s''}, R.rely i o s s' → R.rely i o s' s'' → R.rely i o s s'')
    (hother : ∀ {i j o o' s s'}, j ≠ i → R.guar i o s s' → R.rely j o' s s')
    (hidle : ∀ {i j o s s'}, j ≠ i → R.guar i o s s' → idle j s → idle j s')
    (hmay : ∀ {pool i c o}, ok pool (.step i c) → pool.about i = some o → R.may o pool.shared)
    (hprogram : ∀ {i call s}, R.inv s → idle i s → Safe exec R i (fun _ => idle i) (program i call) s) :
    Local exec program ok R.inv (SafeRest exec R idle) where
  alive := halive
  spawn := hprogram
  done := fun h => h
  step := by
    intro pool i c o next r s' hok habout hinv hop hr
    obtain ⟨hinv', hguar, hnext⟩ := hop pool.shared hinv hrefl (hmay hok habout) c r s' hr
    refine ⟨hinv', hnext, fun j x hj hx => ?_⟩
    match x with
    | none => exact hidle hj hguar hx
    | some (.done a) => exact hidle hj hguar hx
    | some (.op o' next') =>
      exact Safe.other hx htrans (fun _ _ _ => hother hj hguar) fun a => by simp

end Kit
