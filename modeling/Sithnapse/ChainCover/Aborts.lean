import Sithnapse.ChainCover.Runs

/-! Persist transactions that abort.

    The calculation commits on its own, and the persist transaction that follows may be rolled
    back. With the embedded engine the links it wrote stay behind. They are harmless as long as the
    positions they start from are only ever given to the events they were written for; once another
    event takes such a position, it inherits the links (`aborted_links_leak`). -/

namespace Sithnapse.ChainCover
open Kit Kit.Chain List Option

variable {E T R : Type} [LinearOrder E] {auth : E → List E} {db : Db E T R} {b : Batch E T R}

/-- The database after an aborted persist transaction: the calculation's deferred events and the
    embedded links stay, everything else is as before. -/
def rolledBack (db₁ db₂ : Db E T R) : Db E T R := { db₁ with links := db₂.links }

/-- The positions of indexed events and the stored links give exactly their auth chains. -/
def AuthChainsExact (auth : E → List E) (db : Db E T R) : Prop :=
  ∀ e p, (e, p) ∈ db.chains → ∀ x, Below auth e x ↔ ∃ q, (x, q) ∈ db.chains ∧
    ((p.1 = q.1 ∧ q.2 < p.2) ∨ ∃ t, q.2 ≤ t ∧ Reach db.links.linkSet p (q.1, t))

/-- A transaction that neither gives a position of an aborted one to another event nor takes up a
    deferred event that was never stored. -/
structure Undisturbed (db : Db E T R) (aborted : List (E × Pos)) (b : Batch E T R)
    (ret : Dict E NewEventChainLinks) : Prop where
  slots : ∀ e e' p, (e, p) ∈ newChainRows ret → (e', p) ∈ aborted → e' = e
  waiting : b.Waiting db

/-- Invariant of undisturbed runs: the index is covered by the positions of committed and aborted
    transactions together. -/
structure AbortInv (auth : E → List E) (db : Db E T R) (aborted : List (E × Pos))
    (slot : Pos → Option E) : Prop where
  tables : Tables auth db
  cover : Cover auth db.selectChain slot db.links.linkSet
  owners : ∀ {p e}, slot p = some e → (e, p) ∈ db.chains ∨ (e, p) ∈ aborted

section Step

variable {aborted : List (E × Pos)} {slot : Pos → Option E} {table : List (E × R × T)}
  {ret : Dict E NewEventChainLinks} (h : AbortInv auth db aborted slot)
  (hret : Calculated auth db b table ret) (hok : Undisturbed db aborted b ret)

include h hret hok

theorem AbortInv.growth :
    Cover.Growth auth db.selectChain (placed db ret) slot (grownSlots slot ret) db.links.linkSet
      (grownLinks db ret) := by
  refine hret.growth h.cover fun {e p} hm => ?_
  cases hs : slot p with
  | none => exact .inl rfl
  | some e' =>
    rcases h.owners hs with hc | ha
    · obtain ⟨x, hx, rfl⟩ := mem_newChainRows.mp hm
      exact absurd (hret.above hx _ hc rfl) (lt_irrefl _)
    · rw [hok.slots e e' p hm ha]
      exact .inr rfl

/-- A position with an owner had one before or was just handed out. -/
theorem AbortInv.grown_owner {p : Pos} {e : E} (he : grownSlots slot ret p = some e) :
    ((e, p) ∈ db.chains ∨ (e, p) ∈ aborted) ∨ (e, p) ∈ newChainRows ret := by
  rcases (h.growth hret hok).slot_new he with hs | ⟨hn, hp⟩
  · exact .inl (h.owners hs)
  · rw [placed, hn, none_or] at hp
    exact .inr (mem_newChainRows.mpr (lookup_newChainRows.mp hp))

theorem AbortInv.commit (hac : Acyclic auth) (hauth : ∀ e, (auth e).Nodup) (hb : b.Valid auth db) :
    AbortInv auth (storeEvents (persisted db table ret) b) aborted (grownSlots slot ret) := by
  refine ⟨tables_store (tables_persisted h.tables hret hb) hauth hb.toFaithful, ?_, ?_⟩
  · have hgrow := h.cover.grow hac (h.growth hret hok)
    rwa [← linkSet_persisted db table ret, ← funext (selectChain_persisted db table ret)] at hgrow
  · intro p e he
    rcases h.grown_owner hret hok he with (hs | hs) | hs
    · exact .inl (mem_append_left _ hs)
    · exact .inr hs
    · exact .inl (mem_append_right _ hs)

theorem AbortInv.abort (hac : Acyclic auth) (hb : b.Valid auth db) :
    AbortInv auth (rolledBack { db with toCalculate := table } (persisted db table ret))
      (aborted ++ newChainRows ret) (grownSlots slot ret) := by
  refine ⟨⟨h.tables.auths, h.tables.auth_rows, ?_, h.tables.keyed, h.tables.placed,
    hret.leaves h.tables⟩, ?_, ?_⟩
  · intro r hr
    rcases hret.rows r hr with hr | hr
    · exact h.tables.pending r hr
    · exact hb.unindexed _ hr.1
  · have hkeep := h.cover.abandon hac (h.growth hret hok)
    rwa [← linkSet_persisted db table ret] at hkeep
  · intro p e he
    rcases h.grown_owner hret hok he with (hs | hs) | hs
    · exact .inl hs
    · exact .inr (mem_append_left _ hs)
    · exact .inr (mem_append_right _ hs)

end Step

/-! ### Runs -/

variable [DecidableEq T] [DecidableEq R]

/-- Runs of persist transactions that may abort, with the positions the aborted ones had been given.
    `ok` restricts the transactions: the database and the aborted positions before it, the batch,
    and the new links it is to persist. -/
inductive AbortRun (auth : E → List E)
    (ok : Db E T R → List (E × Pos) → Batch E T R → Dict E NewEventChainLinks → Prop) :
    Db E T R → List (E × Pos) → Prop
  | init {db : Db E T R} : Tables auth db → db.chains = [] → db.links.links = [] →
      AbortRun auth ok db []
  | commit {db db₁ db₂ : Db E T R} {aborted : List (E × Pos)} {gen : ℕ → List ℕ}
      {b : Batch E T R} {ret : Dict E NewEventChainLinks} : AbortRun auth ok db aborted →
      b.Valid auth db → FreshIds db.chains gen → calculateChainCoverIndex db gen b = some (db₁, ret) →
      ok db aborted b ret → persistChainCoverIndex db₁ ret = some db₂ →
      AbortRun auth ok (storeEvents db₂ b) aborted
  | abort {db db₁ db₂ : Db E T R} {aborted : List (E × Pos)} {gen : ℕ → List ℕ}
      {b : Batch E T R} {ret : Dict E NewEventChainLinks} : AbortRun auth ok db aborted →
      b.Valid auth db → FreshIds db.chains gen → calculateChainCoverIndex db gen b = some (db₁, ret) →
      ok db aborted b ret → persistChainCoverIndex db₁ ret = some db₂ →
      AbortRun auth ok (rolledBack db₁ db₂) (aborted ++ newChainRows ret)

theorem AbortRun.inv (hac : Acyclic auth) (hauth : ∀ e, (auth e).Nodup)
    {aborted : List (E × Pos)} (h : AbortRun auth Undisturbed db aborted) :
    ∃ slot, AbortInv auth db aborted slot := by
  induction h with
  | init ht hch hl =>
    exact ⟨fun _ => none, ht, Cover.empty (fun e => by rw [Db.selectChain, hch]; rfl) (fun _ => rfl)
      (fun l hm => by rw [LinkStore.linkSet, hl] at hm; exact absurd hm not_mem_nil),
      nofun⟩
  | commit _ hb hgen hcalc hok hpersist ih | abort _ hb hgen hcalc hok hpersist ih =>
    obtain ⟨slot, hinv⟩ := ih
    obtain ⟨table, ret, hcalc', hret⟩ := calculate_spec hac hauth hinv.tables hb hok.waiting hgen
    obtain ⟨rfl, rfl⟩ := Prod.mk.inj (mem_unique hcalc hcalc')
    obtain rfl := mem_unique hpersist (persist_eq hinv.tables hret)
    first
    | exact ⟨_, hinv.commit hret hok hac hauth hb⟩
    | exact ⟨_, hinv.abort hret hok hac hb⟩

/-- In every run of undisturbed transactions, committed or aborted, the index stays exact. -/
theorem undisturbed_exact (hac : Acyclic auth) (hauth : ∀ e, (auth e).Nodup)
    {aborted : List (E × Pos)} (h : AbortRun auth Undisturbed db aborted) :
    AuthChainsExact auth db := by
  obtain ⟨slot, hinv⟩ := h.inv hac hauth
  have hpos : ∀ {x p}, db.selectChain x = some p ↔ (x, p) ∈ db.chains :=
    Dict.lookupIn_eq_some hinv.tables.keyed
  intro e p he x
  simp only [hinv.cover.below_iff_indexed (hpos.mpr he) hac, hpos]

/-! ### A link that leaks

Create, join, power levels and another member event are committed. A power levels event that lists
the other member among its auth events is persisted next, but the transaction aborts. A different
power levels event then takes its position. -/

def leakAuth : ℕ → List ℕ
  | 1 => [0]
  | 2 => [0, 1]
  | 3 => [0]
  | 4 => [0, 1, 2, 3]
  | 5 => [0, 1, 2]
  | _ => []

def leakTypes : ℕ → ℕ
  | 4 => 2
  | 5 => 2
  | e => e

def leakBatch (db : Db ℕ ℕ ℕ) (es : List ℕ) : Batch ℕ ℕ ℕ :=
  Batch.ofEvents db leakAuth leakTypes (fun _ => 0) es

def leakEmpty : Db ℕ ℕ ℕ := ⟨[], [], [], .embedded Dict.empty, []⟩

/-- The first batch's result. -/
def leakNew : Dict ℕ NewEventChainLinks :=
  ⟨[(0, ⟨1, 1, []⟩), (1, ⟨2, 1, [(1, 1)]⟩), (2, ⟨3, 1, [(2, 1)]⟩), (3, ⟨4, 1, [(1, 1)]⟩)], by decide⟩

/-- After the first batch. -/
def leakStart : Db ℕ ℕ ℕ :=
  storeEvents (persisted leakEmpty [] leakNew) (leakBatch leakEmpty [0, 1, 2, 3])

/-- The aborted transaction was to place event 4 at `(3, 2)` with a link to event 3. -/
def leakLost : Dict ℕ NewEventChainLinks := ⟨[(4, ⟨3, 2, [(4, 1)]⟩)], by decide⟩

def leakAborted : Db ℕ ℕ ℕ := rolledBack leakStart (persisted leakStart [] leakLost)

/-- Event 5 needs no links of its own. -/
def leakTaken : Dict ℕ NewEventChainLinks := ⟨[(5, ⟨3, 2, []⟩)], by decide⟩

def leakEnd : Db ℕ ℕ ℕ := storeEvents (persisted leakAborted [] leakTaken) (leakBatch leakAborted [5])

theorem leakEmpty_run {auth : ℕ → List ℕ}
    {ok : Db ℕ ℕ ℕ → List (ℕ × Pos) → Batch ℕ ℕ ℕ → Dict ℕ NewEventChainLinks → Prop} :
    AbortRun auth ok leakEmpty [] := .init (tables_empty _ rfl) rfl rfl

theorem leakAborted_run {ok : Db ℕ ℕ ℕ → List (ℕ × Pos) → Batch ℕ ℕ ℕ → Dict ℕ NewEventChainLinks → Prop}
    (hok : ok leakEmpty [] (leakBatch leakEmpty [0, 1, 2, 3]) leakNew)
    (hok' : ok leakStart [] (leakBatch leakStart [4]) leakLost) :
    AbortRun leakAuth ok leakAborted [(4, (3, 2))] := by
  have hstart : AbortRun leakAuth ok leakStart [] :=
    .commit leakEmpty_run (Batch.ofEvents_valid ..)
      (freshIds_range (k := 1) (by decide)) rfl hok rfl
  exact .abort hstart (Batch.ofEvents_valid ..)
    (freshIds_range (k := 10) (by decide)) rfl hok' rfl

/-- A retry of the aborted transaction takes the position back. -/
def leakRetried : Db ℕ ℕ ℕ := storeEvents (persisted leakAborted [] leakLost) (leakBatch leakAborted [4])

theorem undisturbed_exact_retry :
    AbortRun leakAuth Undisturbed leakRetried [(4, (3, 2))] ∧ AuthChainsExact leakAuth leakRetried := by
  have hac : Acyclic leakAuth := by
    refine acyclic_of_rank id fun e a ha => ?_
    unfold leakAuth at ha
    split at ha <;> simp at ha <;> simp only [id_eq] <;> omega
  have hnd : ∀ e, (leakAuth e).Nodup := by
    intro e
    unfold leakAuth
    split <;> decide
  have hrun : AbortRun leakAuth Undisturbed leakRetried [(4, (3, 2))] :=
    .commit (b := leakBatch leakAborted [4])
      (leakAborted_run ⟨nofun, nofun⟩ ⟨nofun, nofun⟩) (Batch.ofEvents_valid ..) (freshIds_range (k := 10) (by decide)) rfl
      ⟨by
        intro e e' p he he'
        obtain ⟨rfl, rfl⟩ := Prod.mk.inj (mem_singleton.mp he)
        exact (Prod.mk.inj (mem_singleton.mp he')).1, nofun⟩ rfl
  exact ⟨hrun, undisturbed_exact hac hnd hrun⟩

/-- Event 3 is not in the auth chain of event 5. -/
theorem leak_below {x : ℕ} (h : Below leakAuth 5 x) : x ≤ 2 := by
  induction h with
  | single he => exact (by decide : ∀ z ∈ leakAuth 5, z ≤ 2) _ he
  | tail _ he ih => exact (by decide : ∀ y ≤ 2, ∀ z ∈ leakAuth y, z ≤ 2) _ ih _ he

/-! An event deferred by a calculation whose persist transaction aborts stays in the table of deferred
events without being stored. The next batch of its room takes it up with no auth events at all. -/

def lostAuth : ℕ → List ℕ
  | 1 => [0]
  | 2 => [0, 1]
  | _ => []

def lostBatch (db : Db ℕ ℕ ℕ) (es : List ℕ) : Batch ℕ ℕ ℕ :=
  Batch.ofEvents db lostAuth id (fun _ => 0) es

/-- Event 2 was deferred for lack of event 1, then the transaction aborted. -/
def lostAborted : Db ℕ ℕ ℕ := ⟨[], [], [], .embedded Dict.empty, [(2, 0, 2)]⟩

def lostNew : Dict ℕ NewEventChainLinks :=
  ⟨[(0, ⟨2, 1, []⟩), (1, ⟨3, 1, [(2, 1)]⟩), (2, ⟨4, 1, []⟩)], by decide⟩

def lostEnd : Db ℕ ℕ ℕ :=
  storeEvents (persisted lostAborted [(2, 0, 2)] lostNew) (lostBatch lostAborted [0, 1])

theorem lostAborted_run : AbortRun lostAuth (fun _ _ _ _ => True) lostAborted [(0, (1, 1))] :=
  .abort (b := lostBatch leakEmpty [0, 2]) leakEmpty_run (Batch.ofEvents_valid ..)
    (freshIds_range (k := 1) (by decide)) rfl trivial rfl

/-- After the aborted transaction, event 5 inherits the lost event's link and reaches event 3; and a
    deferred event that was never stored is indexed without its auth chain. -/
theorem aborted_links_leak : (∃ aborted, AbortRun leakAuth (fun _ _ _ _ => True) leakEnd aborted ∧
      ¬ AuthChainsExact leakAuth leakEnd) ∧
    ∃ aborted, AbortRun lostAuth (fun _ _ _ _ => True) lostEnd aborted ∧
      ¬ AuthChainsExact lostAuth lostEnd := by
  constructor
  · refine ⟨_, .commit (leakAborted_run trivial trivial)
      (Batch.ofEvents_valid ..) (freshIds_range (k := 10) (by decide)) rfl trivial rfl, ?_⟩
    intro h
    have hreach : Reach leakEnd.links.linkSet (3, 2) (4, 1) :=
      .single ⟨2, le_refl 2, (by decide : (⟨3, 2, 4, 1⟩ : Link) ∈ leakEnd.links.links)⟩
    have hbelow : Below leakAuth 5 3 :=
      (h 5 (3, 2) (by decide) 3).mpr ⟨(4, 1), by decide, .inr ⟨1, le_refl 1, hreach⟩⟩
    exact absurd (leak_below hbelow) (by decide)
  · refine ⟨_, .commit lostAborted_run
      (Batch.ofEvents_valid ..) (freshIds_range (k := 2) (by decide)) rfl trivial rfl, ?_⟩
    intro h
    obtain ⟨q, hq, hcase⟩ := (h 2 (4, 1) (by decide) 1).mp (.single (by decide : 1 ∈ lostAuth 2))
    rcases hcase with hcase | ⟨t, _, hreach⟩
    · exact (by decide : ∀ r ∈ lostEnd.chains, r.1 = 1 → ¬ 4 = r.2.1) _ hq rfl hcase.1
    · obtain ⟨l, hl, hsrc⟩ := hreach.exists_link
      exact (by decide : ∀ l ∈ lostEnd.links.links, l.srcChain ≠ 4) l hl hsrc

end Sithnapse.ChainCover
