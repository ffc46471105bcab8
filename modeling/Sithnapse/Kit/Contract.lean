import Sithnapse.Kit.Pool

/-! Programs whose operations have contracts.

    A contract says of each operation when it may be performed and what its reply then satisfies,
    without a word about the state. `Prog.Meets` is the resulting notion of correctness: the program
    keeps to the contract and its value satisfies a condition, whatever replies the contract allows.
    Where an invariant of the state makes the operations fulfil the contract, everything that
    programs return is right, however they are interleaved (`Pool.results_meet`), and a program on
    its own returns (`Prog.Meets.returns`). -/

namespace Kit
open List

variable {ι σ χ Call Op : Type} {Reply : Op → Type} {α β : Type}

/-- What each operation asks for and what its reply satisfies. -/
structure Contract (Op : Type) (Reply : Op → Type) where
  pre : Op → Prop
  post : (o : Op) → Reply o → Prop

variable {C : Contract Op Reply}

namespace Prog

/-- The program keeps to the contract, and ends with `Q`. -/
def Meets (C : Contract Op Reply) (Q : α → Prop) : Prog Op Reply α → Prop
  | done a => Q a
  | op o next => C.pre o ∧ ∀ r, C.post o r → (next r).Meets C Q

theorem Meets.mono {P Q : α → Prop} {p : Prog Op Reply α} (h : p.Meets C P) (hPQ : ∀ a, P a → Q a) :
    p.Meets C Q := by
  induction p with
  | done a => exact hPQ a h
  | op o next ih => exact ⟨h.1, fun r hr => ih r (h.2 r hr)⟩

theorem Meets.bind {P : α → Prop} {Q : β → Prop} {p : Prog Op Reply α} {f : α → Prog Op Reply β}
    (hp : p.Meets C P) (hf : ∀ a, P a → (f a).Meets C Q) : (p >>= f).Meets C Q := by
  induction p with
  | done a => exact hf a hp
  | op o next ih => exact ⟨hp.1, fun r hr => ih r (hp.2 r hr)⟩

/-- A loop whose invariant knows the part of the list already visited. -/
theorem Meets.foldlM {f : β → α → Prog Op Reply β} {I : List α → β → Prop} {l : List α}
    (hstep : ∀ pre x b, x ∈ l → I pre b → (f b x).Meets C (I (pre ++ [x]))) :
    ∀ {b : β}, I [] b → (l.foldlM f b).Meets C (I l) := by
  have hrest : ∀ (post pre : List α) (b : β), (∀ x ∈ post, x ∈ l) → I pre b →
      (post.foldlM f b).Meets C (I (pre ++ post)) := by
    intro post
    induction post with
    | nil =>
      intro pre b _ hb
      rw [append_nil]
      exact hb
    | cons x post ih =>
      intro pre b hmem hb
      rw [foldlM_cons]
      refine (hstep pre x b (hmem x (.head _)) hb).bind fun b' hb' => ?_
      have hpost := ih (pre ++ [x]) b' (fun y hy => hmem y (.tail _ hy)) hb'
      rwa [append_assoc, singleton_append] at hpost
  intro b hb
  exact hrest l [] b (fun _ hx => hx) hb

/-- A program alone, the environment choosing anew before every operation. -/
def runFrom (exec : (o : Op) → χ → σ → Option (Reply o × σ)) (choice : ℕ → χ) :
    Prog Op Reply α → ℕ → σ → Option (α × σ)
  | done a, _, s => some (a, s)
  | op o next, n, s => (exec o (choice n) s).bind fun r => (next r.1).runFrom exec choice (n + 1) r.2

/-- A program that keeps to the contract returns, where no operation is blocked. -/
theorem Meets.returns {exec : (o : Op) → χ → σ → Option (Reply o × σ)} {I : σ → Prop}
    (hexec : ∀ {o c s}, I s → C.pre o → ∃ r s', exec o c s = some (r, s') ∧ I s' ∧ C.post o r)
    {Q : α → Prop} {p : Prog Op Reply α} (hp : p.Meets C Q) (choice : ℕ → χ) (n : ℕ) {s : σ} (hs : I s) :
    ∃ a s', p.runFrom exec choice n s = some (a, s') ∧ Q a ∧ I s' := by
  induction p generalizing n s with
  | done a => exact ⟨a, s, rfl, hp, hs⟩
  | op o next ih =>
    obtain ⟨r, s', hr, hs', hpost⟩ := hexec (c := choice n) hs hp.1
    obtain ⟨a, s'', hrun, hQ, hI⟩ := ih r (hp.2 r hpost) (n + 1) hs'
    refine ⟨a, s'', ?_, hQ, hI⟩
    rw [runFrom, hr]
    exact hrun

end Prog

/-! ### Pools -/

/-- The rules under which programs that keep to a contract are safe: they share an invariant and
    nothing else. -/
def Contract.rules (I : σ → Prop) (Q : Call → α → Prop) : Rules ι σ Call Op α where
  inv := I
  may _ _ := True
  rely _ _ _ _ := True
  guar _ _ _ _ := True
  post call _ a _ := Q call a

variable {exec : (o : Op) → χ → σ → Option (Reply o × σ)} {I : σ → Prop} {Q : Call → α → Prop}

theorem Prog.Meets.safe
    (hexec : ∀ {o c s r s'}, I s → C.pre o → exec o c s = some (r, s') → I s' ∧ C.post o r)
    {P : α → Prop} {p : Prog Op Reply α} (hp : p.Meets C P) (i : ι) (s : σ) :
    Safe exec (Contract.rules (ι := ι) I Q) i (fun a _ => P a) p s := by
  induction p generalizing s with
  | done a => exact hp
  | op o next ih =>
    intro s' hinv _ _ c r s'' hr
    obtain ⟨hI, hpost⟩ := hexec hinv hp.1 hr
    exact ⟨hI, trivial, ih r (hp.2 r hpost) s''⟩

/-- Everything returned is right, however the calls are interleaved and whichever end early. -/
theorem Pool.results_meet [DecidableEq ι] {program : ι → Call → Prog Op Reply α} {release : ι → σ → σ}
    {ok : Pool ι σ Call Op Reply α → Act ι χ Call → Prop}
    (hexec : ∀ {o c s r s'}, I s → C.pre o → exec o c s = some (r, s') → I s' ∧ C.post o r)
    (hrelease : ∀ {i s}, I s → I (release i s))
    (hprogram : ∀ i call, (program i call).Meets C (Q call)) {s₀ : σ} (h₀ : I s₀)
    {pool : Pool ι σ Call Op Reply α}
    (h : Run (Pool.step exec program release) ok (Pool.start s₀) pool) :
    I pool.shared ∧ ∀ {call s a}, (call, s, a) ∈ pool.results → Q call a := by
  have hfit : (Contract.rules (ι := ι) I Q).Fit exec program release ok :=
    { refl := trivial
      trans := fun _ _ => trivial
      start := fun {_ i call} _ _ => (hprogram i call).safe hexec i _
      may := fun _ _ => trivial
      other := fun _ _ _ _ _ _ _ => trivial
      keeps := fun _ h => h
      kill_inv := hrelease
      kill_other := fun _ _ => trivial
      kill_keeps := fun h => h }
  have hsound := Pool.Sound.run hfit h₀ h
  exact ⟨hsound.inv, hsound.post⟩

end Kit
