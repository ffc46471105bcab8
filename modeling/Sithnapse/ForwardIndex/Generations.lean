import Sithnapse.ForwardIndex.Outbox

/-! Generations under concurrent rebuilds, garbage collections and drains.

    A rebuild works on the generation after the one that was active when it started. As long as that
    one is still active when the rebuild resets, fills or swaps in its own, the generation the
    metadata points at is written by drains only, and the active generation never goes back: drains
    and garbage collections decide under the lock that every swap takes. Two overlapping rebuilds pick
    the same target, and the later one destroys what the earlier one published. -/

namespace Sithnapse.ForwardIndex

open Kit Option List

variable {E : Type} [LinearOrder E] {r r' : Room E} {s s' : Sys E} {a : Action E}

/-- A rebuild about to write its target or swap it in finds the generation active that it read in its
    first critical section. -/
def Proc.current (r : Room E) : Proc E → Bool
  | .rebuildReset c | .rebuildBuild c _ _ | .rebuildDelta c _ | .rebuildFinalDelta c _ _
  | .rebuildSwap c _ => c.activeGeneration = r.activeGeneration
  | _ => true

/-- Every step of a rebuild that writes finds its generation still active. -/
def generationCurrent (s : Sys E) : Action E → Bool
  | .advance i => match s.procs[i]? with
    | some p => p.current s.room
    | none => true
  | _ => true

/-- What drains and garbage collections know of the active generation under the lock. -/
def GenerationKnown (r : Room E) : Proc E → Prop
  | .drainRows _ generation _ | .drainApply generation _ => generation = r.activeGeneration
  | .gcDrop generation _ => generation < r.activeGeneration
  | _ => True

theorem generation_advance {now : ℕ} {p p' : Proc E} (hp : GenerationKnown r p)
    (hadv : p.advance r now = some (r', p')) : GenerationKnown r' p' := by
  cases p with
  | drainStart limit =>
    cases hadv
    split <;> trivial
  | drainLocked limit =>
    cases hadv
    rfl
  | drainRows limit generation published =>
    rw [Proc.advance] at hadv
    split at hadv
    · cases hadv
      trivial
    · cases hadv
      exact hp
  | rebuildAcquire | rebuildFirstBeat | rebuildBeat =>
    obtain ⟨r₁, -, he⟩ := map_eq_some_iff.mp hadv
    cases he
    trivial
  | rebuildParents | rebuildReplay =>
    rw [Proc.advance] at hadv
    split at hadv <;> (obtain ⟨rfl, rfl⟩ := some_pair_inj hadv; trivial)
  | gcNext candidates =>
    cases candidates <;> (obtain ⟨rfl, rfl⟩ := some_pair_inj hadv; trivial)
  | gcLocked generation rest =>
    rw [Proc.advance] at hadv
    split at hadv
    · cases hadv
      trivial
    · rename_i active published hmeta
      cases hadv
      split_ifs with hlt
      · trivial
      · have hactive : r.activeGeneration = active := by
          rw [Room.activeGeneration, Room.activeMeta, hmeta]
          rfl
        exact (not_le.mp hlt).trans_eq hactive.symm
  | idle => exact absurd hadv (by simp [Proc.advance])
  | _ =>
    cases hadv
    trivial

/-- The active generation changes only under the lock. -/
theorem Effect.activeGeneration {now : ℕ} {p : Proc E} (he : Effect r now p r')
    (hlock : p.locked = false) : r'.activeGeneration = r.activeGeneration := by
  cases he with
  | publish | swap => exact absurd hlock (by simp [Proc.locked])
  | _ => rfl

theorem generation_invariant : ProcInvariant (fun (s : Sys E) a => generationCurrent s a = true)
    (fun _ => True) (fun _ => GenerationKnown) where
  commit := fun _ => trivial
  commit_proc := fun {r t i p} _ hp => by
    cases p with
    | drainRows | drainApply => exact Eq.trans hp (activeGeneration_commit r t).symm
    | gcDrop => exact LT.lt.trans_eq hp (activeGeneration_commit r t).symm
    | _ => trivial
  idle := trivial
  enter := fun {s i c} _ => by
    cases c with
    | drain | rebuild =>
      rw [Call.enter]
      split <;> trivial
    | gc => trivial
  raised := fun {i r p} _ => by
    cases p <;> trivial
  advance := fun _ _ _ hp hadv => ⟨trivial, generation_advance hp hadv⟩
  frame := fun {s i j p p' q r'} _ _ _ hlock _ hp hq hadv => by
    have he := effect_of_advance hadv
    cases hpl : p.locked with
    | true =>
      have hql := hlock hpl
      cases q with
      | drainRows | drainApply | gcDrop => exact absurd hql (by simp [Proc.locked])
      | _ => trivial
    | false =>
      have hactive := he.activeGeneration hpl
      cases q with
      | drainRows | drainApply => exact Eq.trans hq hactive.symm
      | gcDrop => exact LT.lt.trans_eq hq hactive.symm
      | _ => trivial

/-- The step publishes a drain's delta. -/
def Publishes (s : Sys E) (a : Action E) : Prop :=
  ∃ i generation rows, a = .advance i ∧ s.procs[i]? = some (.drainApply generation rows)

/-- A step that leaves the generation the metadata points at alone, unless it publishes a delta to
    it, and does not go back. -/
structure Unclobbered (s : Sys E) (a : Action E) (s' : Sys E) : Prop where
  overwrites : ∀ (i : ℕ) (p : Proc E), a = .advance i → s.procs[i]? = some p →
    p.overwrites ≠ some s.room.activeGeneration
  collection : ¬ Publishes s a →
    s'.room.collection s.room.activeGeneration = s.room.collection s.room.activeGeneration
  generation : s.room.activeGeneration ≤ s'.room.activeGeneration

omit [LinearOrder E] in
theorem GenerationKnown.overwrites_ne {p : Proc E} (hp : GenerationKnown r p)
    (hc : p.current r = true) : p.overwrites ≠ some r.activeGeneration := by
  have htarget : ∀ c : Rebuild, c.activeGeneration = r.activeGeneration →
      some c.target ≠ some r.activeGeneration := by
    intro c hc he
    have := some.inj he
    rw [Rebuild.target] at this
    omega
  cases p with
  | rebuildReset c | rebuildBuild c | rebuildDelta c | rebuildFinalDelta c =>
    exact htarget c (by simpa [Proc.current] using hc)
  | gcDrop generation rest => exact fun he => (Nat.ne_of_lt hp) (some.inj he)
  | _ => simp [Proc.overwrites]

theorem unclobbered_of_moved (h : Meets (fun _ => True) (fun _ => GenerationKnown) s)
    (hok : generationCurrent s a = true) (hm : Moved s a s') : Unclobbered s a s' := by
  have hover : ∀ (i : ℕ) (p : Proc E), a = .advance i → s.procs[i]? = some p →
      p.overwrites ≠ some s.room.activeGeneration := by
    rintro i p rfl hp
    rw [generationCurrent, hp] at hok
    exact (h.procs i p hp).overwrites_ne hok
  cases hm with
  | edgeTxn t =>
    exact ⟨hover, fun _ => collection_commit _ t _, (activeGeneration_commit s.room t).ge⟩
  | @advance i p p' room hp hadv _ =>
    have hknown := h.procs i p hp
    have hne := hover i p rfl hp
    refine ⟨hover, fun hpub => ?_, ?_⟩
    · cases effect_of_advance hadv with
      | publish generation rows => exact absurd ⟨i, generation, rows, rfl, hp⟩ hpub
      | @overwrite _ generation fwd ho =>
        refine (Dict.getD_set _ _ _ _ _).trans (if_neg fun he => hne ?_)
        rw [ho, he]
      | _ => rfl
    · cases effect_of_advance hadv with
      | publish generation rows => exact (show generation = s.room.activeGeneration from hknown).ge
      | swap c v =>
        rw [generationCurrent, hp] at hok
        have hc : c.activeGeneration = s.room.activeGeneration := by simpa [Proc.current] using hok
        exact hc ▸ Nat.le_succ _
      | _ => exact le_rfl
  | _ => exact ⟨hover, fun _ => rfl, le_rfl⟩

/-- Any number of rebuilds, garbage collections and drains on any room: in a run in which every
    writing step of a rebuild finds active the generation that the rebuild read, no step touches the
    active generation's collection but the drains' own deltas, and the generation never decreases. -/
theorem generations_unclobbered {now processes : ℕ}
    (h : Run step (fun s a => generationCurrent s a = true) ⟨r, now, replicate processes .idle⟩ s)
    (hok : generationCurrent s a = true) (hst : step s a = some s') : Unclobbered s a s' := by
  exact unclobbered_of_moved (generation_invariant.run (generation_invariant.start trivial ..) h) hok
    (moved_of_step hst)

/-- A complete rebuild by process 0, a drain, and the start of a second rebuild by process 1, about to
    reset generation 2. -/
def successiveTrace : List (Action ℕ) :=
  [.edgeTxn (.persist [(2, 1)]), .call 0 (.rebuild ⟨7, 10⟩)] ++ replicate 17 (.advance 0) ++
    [.call 1 (.rebuild ⟨8, 10⟩)] ++ replicate 5 (.advance 1)

theorem generations_unclobbered_successive : ∃ s s' : Sys ℕ,
    exec step (fun s a => generationCurrent s a = true) ⟨emptyRoom [], 0, [.idle, .idle]⟩
      successiveTrace = some s ∧
    s.room.activeGeneration = 1 ∧ s.procs[1]? = some (.rebuildReset ⟨⟨8, 10⟩, 1, 1⟩) ∧
    step s (.advance 1) = some s' ∧ Unclobbered s (.advance 1) s' := by
  refine ⟨_, _, rfl, rfl, rfl, rfl, ?_⟩
  exact generations_unclobbered (Run.of_exec successiveTrace
    (⟨emptyRoom [], 0, replicate 2 .idle⟩ : Sys ℕ) rfl) rfl rfl

/-- Two rebuilds that both read generation 0; the first one runs to its swap. -/
def overlapTrace : List (Action ℕ) :=
  [.edgeTxn (.persist [(2, 1)]), .call 0 (.rebuild ⟨7, 10⟩), .call 1 (.rebuild ⟨8, 10⟩)] ++
    replicate 5 (.advance 0) ++ replicate 5 (.advance 1) ++ replicate 12 (.advance 0)

/-- The first rebuild waits for its final critical section while the other process rebuilds twice. -/
def staleTrace : List (Action ℕ) :=
  [.edgeTxn (.persist [(2, 1)]), .call 0 (.rebuild ⟨7, 10⟩)] ++ replicate 11 (.advance 0) ++
    [.call 1 (.rebuild ⟨8, 10⟩)] ++ replicate 17 (.advance 1) ++
    [.call 1 (.rebuild ⟨9, 10⟩)] ++ replicate 17 (.advance 1) ++ replicate 3 (.advance 0)

/-- Overlapping rebuilds: the second resets the generation the first has published, so that a gated
    read at the current version misses a stored edge; and a rebuild that swaps late takes the active
    generation from 2 back to 1. -/
theorem overlapping_rebuilds_clobber :
    (∃ s s' : Sys ℕ, exec step (fun _ _ => True) ⟨emptyRoom [], 0, [.idle, .idle]⟩ overlapTrace = some s ∧
      s.room.activeGeneration = 1 ∧ step s (.advance 1) = some s' ∧
      s.procs[1]?.bind Proc.overwrites = some 1 ∧
      getForwardGated s.room 1 [1] = .hit [(1, some [2])] ∧
      getForwardGated s'.room 1 [1] = .hit [(1, none)] ∧ s'.room.edges = [(2, 1)]) ∧
    ∃ s s' : Sys ℕ, exec step (fun _ _ => True) ⟨emptyRoom [], 0, [.idle, .idle]⟩ staleTrace = some s ∧
      s.room.activeGeneration = 2 ∧ step s (.advance 0) = some s' ∧ s'.room.activeGeneration = 1 :=
  ⟨⟨_, _, rfl, rfl, rfl, rfl, rfl, rfl, rfl⟩, ⟨_, _, rfl, rfl, rfl, rfl⟩⟩

end Sithnapse.ForwardIndex
