import Sithnapse.AuthChain.ClosureCalls

/-! Closures served after a purge.

    A cache entry holds for the generation sampled by the call that made it. It stays right as long as
    the store has not been deleted since that generation was sampled, so what matters is that no call
    samples a generation between a bump and the deletion it announces, and that no call carries an
    edge list over a deletion. Then every call that starts after a deletion, and is not overtaken by
    the next, gets the closures of the events that now hold its short ids. -/

namespace Sithnapse.ClosureCalls

open Kit Kit.Dict Kit.Chain AuthChain List Function Finset Set

variable {ι E : Type} [LinearOrder E] {auth : E → List E} {s s' s'' : Room ι E}
  {k n g maxSize limit : ℕ} {i : ι}

/-! ### What calls rely on -/

section

variable (auth : E → List E)

/-- Tables that have all auth rows of the events they know. -/
def TablesOk (t : AuthTables E) : Prop :=
  ∀ e l, fetchAuthEventIds t e = some l → ∀ a, a ∈ l ↔ a ∈ auth e

/-- If the store was deleted `n` times so far, `v` is the closure of the event with short id `k`. -/
def Known (s : Room ι E) (n k : ℕ) (v : List ℕ) : Prop :=
  s.purges = n → ∃ e, s.store.forward.get? e = some k ∧ IsClosure auth s.store e v

/-- The store mirrors the auth graph; a generation is sampled only while no purge is under way, and
    its cache entries hold until the store is deleted. -/
structure Right (auth : E → List E) (s : Room ι E) : Prop where
  mirror : Mirror auth s.store
  leaves : ∀ {k}, s.store.edges.get? k = some [] → ∃ e, s.store.forward.get? e = some k ∧ ∀ a, a ∉ auth e
  tables : TablesOk auth s.tables
  sampled : ∀ {g n}, s.epoch g = some n → g ≤ s.generation ∧ n ≤ s.purges ∧
    (g = s.generation → s.purging = ∅ ∧ n = s.purges)
  cached : ∀ p ∈ s.cache, ∃ n, s.epoch p.1.1 = some n ∧ Known auth s n p.1.2 p.2

/-- What any step does: unless the store is deleted, short ids stay. -/
structure Later (s s' : Room ι E) : Prop where
  purges : s.purges ≤ s'.purges
  store : s'.purges = s.purges → s.store.Le s'.store
  epoch : ∀ {g n}, s.epoch g = some n → s'.epoch g = some n

/-- What an operation of call `i` does. -/
structure Effect (i : ι) (o : Op ι E) (s s' : Room ι E) : Prop where
  later : Later s s'
  purging : ∀ j, j ≠ i → (j ∈ s.purging ↔ j ∈ s'.purging)
  purges : s'.purges = s.purges ∨ o.deletes = true

/-- What others do while call `i` is about to perform `o`: they delete nothing on the way from an event
    to its edge list. -/
structure Others (i : ι) (o : Op ι E) (s s' : Room ι E) : Prop where
  later : Later s s'
  purging : i ∈ s.purging ↔ i ∈ s'.purging
  importing : o.importing = true → s'.purges = s.purges

/-- The condition on the operations of a run. -/
def MayPerform : Op ι E → Room ι E → Prop
  | .generation, s => s.purging = ∅
  | .sql t, _ => TablesOk auth t
  | _, _ => True

/-- What a call returned is right until the store is deleted again. -/
def Served (s₀ : Room ι E) (result : Except Failure (Dict ℕ (List ℕ))) (s : Room ι E) : Prop :=
  s₀.purges ≤ s.purges ∧ ∀ out, result = .ok out → ∀ k v, out.get? k = some v → Known auth s s₀.purges k v

def rules : Rules ι (Room ι E) (Call E) (Op ι E) (Except Failure (Dict ℕ (List ℕ))) where
  inv := Right auth
  may := MayPerform auth
  rely := Others
  guar := Effect
  post _ := Served auth

end

theorem Later.refl (s : Room ι E) : Later s s :=
  ⟨le_refl _, fun _ => ShortStore.Le.refl _, id⟩

theorem Later.trans (h : Later s s') (h' : Later s' s'') : Later s s'' := by
  refine ⟨h.purges.trans h'.purges, fun hp => ?_, fun hg => h'.epoch (h.epoch hg)⟩
  have := h.purges
  have := h'.purges
  exact (h.store (by omega)).trans (h'.store (by omega))

theorem Known.later {v : List ℕ} (h : Known auth s n k v) (hn : n ≤ s.purges) (hlater : Later s s') :
    Known auth s' n k v := by
  intro hp
  have hle := hlater.purges
  have hp₀ : s.purges = n := by omega
  obtain ⟨e, he, hcl⟩ := h hp₀
  have hst := hlater.store (hp.trans hp₀.symm)
  exact ⟨e, hst e k he, hcl.mono hst⟩

/-! ### The invariant -/

section

variable (h : Right auth s)

include h

/-- Nothing but the cache changes, and no entry is new. -/
theorem Right.cache {cache : ClosureCache ℕ} (hc : ∀ p ∈ cache, p ∈ s.cache) :
    Right auth { s with cache := cache } :=
  { h with cached := fun p hp => h.cached p (hc p hp) }

/-- The store grows. -/
theorem Right.grow {store : ShortStore E} (hm : Mirror auth store)
    (hle : s.store.Le store) (hleaves : ∀ {k}, store.edges.get? k = some [] →
      ∃ e, store.forward.get? e = some k ∧ ∀ a, a ∉ auth e) :
    Right auth { s with store := store } := by
  refine ⟨hm, hleaves, h.tables, h.sampled, fun p hp => ?_⟩
  obtain ⟨n, hn, hk⟩ := h.cached p hp
  refine ⟨n, hn, fun hpn => ?_⟩
  obtain ⟨e, he, hcl⟩ := hk hpn
  exact ⟨e, hle e _ he, hcl.mono hle⟩

theorem Right.sample (hfree : s.purging = ∅) :
    Right auth { s with epoch := update s.epoch s.generation (some s.purges) } ∧
      ∀ {g n}, s.epoch g = some n → update s.epoch s.generation (some s.purges) g = some n := by
  have hkeep : ∀ {g n}, s.epoch g = some n → update s.epoch s.generation (some s.purges) g = some n := by
    intro g n hg
    by_cases hgen : g = s.generation
    · subst hgen
      rw [update_self, ((h.sampled hg).2.2 rfl).2]
    · rwa [update_of_ne hgen]
  refine ⟨⟨h.mirror, h.leaves, h.tables, fun {g n} hg => ?_, fun p hp => ?_⟩, hkeep⟩
  · dsimp only at hg
    by_cases hgen : g = s.generation
    · subst hgen
      rw [update_self, Option.some.injEq] at hg
      exact ⟨le_refl _, hg.ge, fun _ => ⟨hfree, hg.symm⟩⟩
    · rw [update_of_ne hgen] at hg
      exact h.sampled hg
  · obtain ⟨n, hn, hk⟩ := h.cached p hp
    exact ⟨n, hkeep hn, hk⟩

theorem Right.bump [DecidableEq ι] :
    Right auth { s with generation := s.generation + 1, purging := insert i s.purging } := by
  refine { h with sampled := fun hg => ?_ }
  obtain ⟨hle, hn, -⟩ := h.sampled hg
  exact ⟨hle.trans (Nat.le_succ _), hn, fun heq => absurd (heq ▸ hle) (Nat.not_succ_le_self _)⟩

/-- No entry is of the current generation when the store is deleted. -/
theorem Right.purge [DecidableEq ι] (hi : i ∈ s.purging) :
    Right auth { s with store := ⟨0, Dict.empty, Dict.empty, Dict.empty⟩
                        purging := s.purging.erase i
                        purges := s.purges + 1 } := by
  refine ⟨⟨by simp, by simp, by simp⟩, by simp, h.tables, fun hg => ?_, fun p hp => ?_⟩
  · obtain ⟨hle, hn, hcur⟩ := h.sampled hg
    refine ⟨hle, hn.trans (Nat.le_succ _), fun heq => ?_⟩
    rw [(hcur heq).1] at hi
    exact absurd hi (notMem_empty i)
  · obtain ⟨n, hn, -⟩ := h.cached p hp
    refine ⟨n, hn, fun heq => ?_⟩
    have := (h.sampled hn).2.1
    dsimp only at heq
    omega

theorem Right.put {v : List ℕ} (hg : s.epoch g = some n)
    (hv : Known auth s n k v) : Right auth { s with cache := s.cache.put maxSize (g, k) v } := by
  refine { h with cached := fun p hp => ?_ }
  rcases mem_concat.mp (mem_of_mem_drop hp) with hp | rfl
  · exact h.cached p (mem_of_mem_filter hp)
  · exact ⟨n, hg, hv⟩

/-- An edge list that holds the auth events of the short id's event. -/
theorem Right.edges {e : E} {ids : List ℕ} (he : s.store.forward.get? e = some k)
    (hids : Ids s.store {a | a ∈ auth e} ids) :
    Right auth { s with store := { s.store with edges := s.store.edges.set k ids } } := by
  refine h.grow ⟨h.mirror.inverse, h.mirror.bound, fun m l hl hne => ?_⟩ (ShortStore.Le.refl s.store)
    fun {m} hl => ?_
  · rcases get?_set_cases hl with ⟨rfl, rfl⟩ | hl
    · exact ⟨e, he, hids.complete, hids.sound⟩
    · obtain ⟨x, hx, hxids⟩ := h.mirror.edges m l hl hne
      exact ⟨x, hx, hxids.complete, hxids.sound⟩
  · rcases get?_set_cases hl with ⟨rfl, rfl⟩ | hl
    · refine ⟨e, he, fun a ha => ?_⟩
      obtain ⟨m', hm', -⟩ := hids.complete a ha
      cases hm'
    · exact h.leaves hl

theorem Right.shortIds {events : List E} {ids : List ℕ} {store : ShortStore E}
    (hids : getOrCreateShortIds s.store events = .ok (ids, store)) :
    Right auth { s with store := store } ∧ s.store.Le store ∧ Ids store {e | e ∈ events} ids := by
  have hspec := @getOrCreateShortIds_spec _ _ _ _ s.tables 0 h.mirror events
  rw [hids] at hspec
  obtain ⟨hm, hle, hedges, hids⟩ := hspec
  refine ⟨h.grow hm hle fun hl => ?_, hle, hids⟩
  rw [hedges] at hl
  obtain ⟨e, he, hleaf⟩ := h.leaves hl
  exact ⟨e, hle e _ he, hleaf⟩

/-- A recorded edge list is that of the short id's event. -/
theorem Right.direct {l : List ℕ} (hl : s.store.edges.get? k = some l) :
    ∃ e, s.store.forward.get? e = some k ∧ Ids s.store {a | a ∈ auth e} l := by
  cases l with
  | nil =>
    obtain ⟨e, he, hleaf⟩ := h.leaves hl
    exact ⟨e, he, (Ids.empty _).congr fun a => by simpa using hleaf a⟩
  | cons a as => exact h.mirror.edges k _ hl (cons_ne_nil a as)

end

/-! ### Calls keep the rules -/

variable [DecidableEq ι]

/-- What the steps of a call and of others do until the call ends. -/
theorem safe_later {β : Type} {Q : β → Room ι E → Prop} {p : Prog (Op ι E) Reply β}
    (h : Safe (exec maxSize) (rules auth) i Q p s) (hs : Right auth s) :
    Safe (exec maxSize) (rules auth) i (fun a s' => (Q a s' ∧ Later s s') ∧ Right auth s') p s :=
  (h.frame Later.refl Later.trans (fun hr => Others.later hr) fun hg => Effect.later hg).inv hs

/-- Unless the program raises, what it returns has `P`. -/
abbrev Gives {β : Type} (maxSize : ℕ) (auth : E → List E) (i : ι) (P : β → Room ι E → Prop)
    (p : CallProg ι E β) (s : Room ι E) : Prop :=
  Safe (exec maxSize) (rules auth) i (fun r s' => Outcome (fun _ => True) (P · s') r) p s

theorem Gives.bind {β γ : Type} {P : β → Room ι E → Prop} {Q : γ → Room ι E → Prop} {p : CallProg ι E β}
    {f : β → CallProg ι E γ} (h : Gives maxSize auth i P p s) (hs : Right auth s)
    (hf : ∀ b s', P b s' → Later s s' → Right auth s' → Gives maxSize auth i Q (f b) s') :
    Gives maxSize auth i Q (p >>= f) s := by
  refine Safe.tryBind ((safe_later h hs).mono ?_)
  rintro r s' ⟨⟨hr, hlater⟩, hs'⟩
  cases r with
  | ok b => exact hf b s' hr hlater hs'
  | error e => trivial

section Safe

variable {β : Type} {Q : β → Room ι E → Prop}

/-- A read. -/
theorem safe_read {o : Op ι E} {next : Reply o → Prog (Op ι E) Reply β} (reply : Room ι E → Reply o)
    (hexec : ∀ s, exec maxSize o () s = some (reply s, s))
    (h : ∀ s', Right auth s' → Later s s' → (o.importing = true → s'.purges = s.purges) →
      Safe (exec maxSize) (rules auth) i Q (next (reply s')) s') :
    Safe (exec maxSize) (rules auth) i Q (.op o next) s := by
  intro s' hinv hrely _ c r s'' hs
  obtain ⟨rfl, rfl⟩ := some_pair_inj (hexec .. ▸ hs)
  exact ⟨hinv, ⟨Later.refl _, fun _ _ => Iff.rfl, .inl rfl⟩, h s' hinv hrely.later hrely.importing⟩

/-- A cache lookup under a sampled generation. -/
theorem safe_cacheGet {next : Option (List ℕ) → Prog (Op ι E) Reply β} (hg : s.epoch g = some n)
    (h : ∀ s' r, Right auth s' → Later s s' → (∀ v, r = some v → Known auth s' n k v) →
      Safe (exec maxSize) (rules auth) i Q (next r) s') :
    Safe (exec maxSize) (rules auth) i Q (.op (.cacheGet g k) next) s := by
  intro s' hinv hrely _ c r s'' hs
  cases hs
  have hspec := s'.cache.get_spec (g, k)
  refine ⟨hinv.cache hspec.2, ⟨⟨le_refl _, fun _ => ShortStore.Le.refl _, id⟩, fun _ _ => Iff.rfl,
    .inl rfl⟩, h _ _ (hinv.cache hspec.2) (hrely.later.trans ⟨le_refl _, fun _ => ShortStore.Le.refl _, id⟩) ?_⟩
  intro v hv
  obtain ⟨m, hm, hk⟩ := hinv.cached _ (hspec.1 v hv)
  rw [hrely.later.epoch hg, Option.some.injEq] at hm
  exact hm ▸ hk

end Safe

/-- The edge list of a short id, if it was not deleted since. -/
def Direct (auth : E → List E) (s : Room ι E) (n k : ℕ) (l : List ℕ) : Prop :=
  s.purges = n → ∃ e, s.store.forward.get? e = some k ∧ Ids s.store {a | a ∈ auth e} l

omit [DecidableEq ι] in
theorem Direct.later {l : List ℕ} (h : Direct auth s n k l) (hn : n ≤ s.purges) (hlater : Later s s') :
    Direct auth s' n k l := by
  intro hp
  have hle := hlater.purges
  have hp₀ : s.purges = n := by omega
  obtain ⟨e, he, hids⟩ := h hp₀
  have hst := hlater.store (hp.trans hp₀.symm)
  exact ⟨e, hst e k he, hids.mono hst⟩

/-- An import from the auth rows of the event that has the short id. -/
theorem importEdges_safe {e : E} {authEvents : List E} (he : s.store.forward.get? e = some k)
    (hauth : ∀ a, a ∈ authEvents ↔ a ∈ auth e) :
    Gives maxSize auth i (fun r s' => ∀ l ∈ r, Direct auth s' n k l) (importEdges k authEvents) s := by
  intro s₁ hinv₁ hrely₁ _ c r s₂ hs
  have he₁ := hrely₁.later.store (hrely₁.importing rfl) e k he
  simp only [exec] at hs
  split at hs
  · rename_i ids store hids
    cases hs
    obtain ⟨hinv₂, hle, hids⟩ := hinv₁.shortIds hids
    refine ⟨hinv₂, ⟨⟨le_refl _, fun _ => hle, id⟩, fun _ _ => Iff.rfl, .inl rfl⟩, ?_⟩
    intro s₃ hinv₃ hrely₃ _ c r s₄ hs
    cases hs
    have hst := hrely₃.later.store (hrely₃.importing rfl)
    have he₃ := hst e k (hle e k he₁)
    have hids₃ : Ids s₃.store {a | a ∈ auth e} ids := (hids.congr hauth).mono hst
    refine ⟨hinv₃.edges he₃ hids₃, ⟨⟨le_refl _, fun _ => ShortStore.Le.refl s₃.store, id⟩,
      fun _ _ => Iff.rfl, .inl rfl⟩, ?_⟩
    rintro l ⟨⟩ _
    exact ⟨e, he₃, hids₃.complete, hids₃.sound⟩
  · cases hs
    exact ⟨hinv₁, ⟨Later.refl _, fun _ _ => Iff.rfl, .inl rfl⟩, trivial⟩

/-- The SQL rows of the event that a short id resolves to, and what is done with them. -/
theorem authRows_safe {β : Type} {Q : β → Room ι E → Prop} {e : E}
    {next : Option (List E) → Prog (Op ι E) Reply β} (he : s.store.reverse.get? k = some e)
    (hs : Right auth s)
    (h : ∀ s' r, Later s s' → s'.store.forward.get? e = some k →
      (∀ l, r = some l → ∀ a, a ∈ l ↔ a ∈ auth e) → Safe (exec maxSize) (rules auth) i Q (next r) s') :
    Safe (exec maxSize) (rules auth) i Q (.op (.authRows k e) next) s := by
  refine safe_read (fun s => fetchAuthEventIds s.tables e) (fun _ => rfl) ?_
  intro s' hinv hlater himp
  have hfwd := (hs.mirror.inverse e k).mpr he
  exact h s' _ hlater (hlater.store (himp rfl) e k hfwd) fun l hl => hinv.tables e l hl

theorem fetchDirectEdges_safe (hn : n ≤ s.purges) :
    Gives maxSize auth i (fun r s' => ∀ l ∈ r, Direct auth s' n k l) (fetchDirectEdges k) s := by
  refine safe_read (fun s => s.store.edges.get? k) (fun _ => rfl) ?_
  intro s₁ hinv₁ hlater₁ _
  have hn₁ := hn.trans hlater₁.purges
  match hedges : s₁.store.edges.get? k with
  | some (a :: as) =>
    rintro l ⟨⟩ _
    exact hinv₁.direct hedges
  | some [] =>
    have hleaf : Direct auth s₁ n k [] := fun _ => hinv₁.direct hedges
    refine safe_read (fun s => s.store.reverse.get? k) (fun _ => rfl) ?_
    intro s₂ hinv₂ hlater₂ _
    match hrev : s₂.store.reverse.get? k with
    | none =>
      rintro l ⟨⟩
      exact hleaf.later hn₁ hlater₂
    | some e =>
      refine authRows_safe hrev hinv₂ fun s₃ r hlater₃ he hauth => ?_
      match r with
      | some (a :: as) => exact importEdges_safe he (hauth _ rfl)
      | some [] | none =>
        rintro l ⟨⟩
        exact hleaf.later hn₁ (hlater₂.trans hlater₃)
  | none =>
    refine safe_read (fun s => s.store.reverse.get? k) (fun _ => rfl) ?_
    intro s₂ hinv₂ hlater₂ _
    match hrev : s₂.store.reverse.get? k with
    | none => exact nofun
    | some e =>
      refine authRows_safe hrev hinv₂ fun s₃ r hlater₃ he hauth => ?_
      match r with
      | none => exact nofun
      | some authEvents => exact importEdges_safe he (hauth _ rfl)

/-! ### Walks -/

/-- A complete result of a walk is the closure. -/
def Walked (auth : E → List E) (s : Room ι E) (n k : ℕ) (v : List ℕ × Bool) : Prop :=
  v.2 = true → Known auth s n k v.1

/-- The memo holds results of walks. -/
def MemoOk (auth : E → List E) (s : Room ι E) (n : ℕ) (memo : Memo) : Prop :=
  ∀ k v, memo.get? k = some v → Walked auth s n k v

/-- What was collected for the short ids done: their events, and all events below. -/
def Collected (auth : E → List E) (s : Room ι E) (n : ℕ) (done : List ℕ) (v : List ℕ × Bool) : Prop :=
  v.2 = true → s.purges = n → ∃ A : Set E, Ids s.store A done ∧
    Ids s.store {x | ∃ a ∈ A, BelowEq auth a x} v.1

/-- A call works under a sampled generation. -/
def Since (s : Room ι E) (g n : ℕ) : Prop := s.epoch g = some n ∧ n ≤ s.purges

section

omit [DecidableEq ι]

theorem Since.later (h : Since s g n) (hlater : Later s s') : Since s' g n :=
  ⟨hlater.epoch h.1, h.2.trans hlater.purges⟩

theorem MemoOk.later {memo : Memo} (h : MemoOk auth s n memo) (hn : n ≤ s.purges)
    (hlater : Later s s') : MemoOk auth s' n memo :=
  fun k v hv hcomplete => (h k v hv hcomplete).later hn hlater

theorem MemoOk.set {memo : Memo} {v : List ℕ × Bool} (h : MemoOk auth s n memo)
    (hv : Walked auth s n k v) : MemoOk auth s n (memo.set k v) := by
  intro m w hw
  rcases get?_set_cases hw with ⟨rfl, rfl⟩ | hw
  · exact hv
  · exact h m w hw

theorem Collected.later {done : List ℕ} {v : List ℕ × Bool} (h : Collected auth s n done v)
    (hn : n ≤ s.purges) (hlater : Later s s') : Collected auth s' n done v := by
  intro hv hp
  have hle := hlater.purges
  have hp₀ : s.purges = n := by omega
  obtain ⟨A, hA, hids⟩ := h hv hp₀
  have hst := hlater.store (hp.trans hp₀.symm)
  exact ⟨A, hA.mono hst, hids.mono hst⟩

/-- One more short id with its closure. -/
theorem Collected.add {done : List ℕ} {v w : List ℕ × Bool} (h : Collected auth s n done v)
    (hw : Walked auth s n k w) :
    Collected auth s n (done ++ [k]) (addAll (addIf v.1 k) w.1, v.2 && w.2) := by
  intro hv hp
  obtain ⟨hv₁, hv₂⟩ : v.2 = true ∧ w.2 = true := by simpa using hv
  obtain ⟨A, hA, hids⟩ := h hv₁ hp
  obtain ⟨a, ha, hcl⟩ := hw hv₂ hp
  refine ⟨A ∪ {a}, hA.concat ha, ((hids.insert ha).union hcl).congr fun x => ?_⟩
  simp only [mem_union, mem_ofPred_eq, mem_singleton_iff, or_and_right, exists_or,
    exists_eq_left, belowEq_iff (a := a)]
  exact or_assoc

/-- All short ids of the edge list make up the closure. -/
theorem Collected.closure {auths : List ℕ} {v : List ℕ × Bool} (h : Collected auth s n auths v)
    (hs : Right auth s) (hd : Direct auth s n k auths) : Walked auth s n k v := by
  intro hv hp
  obtain ⟨A, hA, hids⟩ := h hv hp
  obtain ⟨e, he, hauth⟩ := hd hp
  -- the events collected for the edge list are the auth events
  have hsame : ∀ a, a ∈ A ↔ a ∈ auth e := by
    intro a
    constructor
    · intro ha
      obtain ⟨m, hm, hma⟩ := hA.complete a ha
      obtain ⟨b, hb, hbm⟩ := hauth.sound m hm
      rwa [hs.mirror.forward_inj hma hbm]
    · intro ha
      obtain ⟨m, hm, hma⟩ := hauth.complete a ha
      obtain ⟨b, hb, hbm⟩ := hA.sound m hm
      rwa [hs.mirror.forward_inj hma hbm]
  refine ⟨e, he, hids.congr fun x => ?_⟩
  rw [mem_ofPred_eq, mem_ofPred_eq, below_of_auth]
  simp only [hsame]

end

/-- The loop over the edge list, given what a nested walk does. -/
theorem walkAuths_safe {walk : Memo → ℕ → CallProg ι E ((List ℕ × Bool) × Memo)}
    (hwalk : ∀ memo k s, Right auth s → Since s g n → MemoOk auth s n memo →
      Gives maxSize auth i (fun w s' => Walked auth s' n k w.1 ∧ MemoOk auth s' n w.2) (walk memo k) s) :
    ∀ (auths done : List ℕ) (v : List ℕ × Bool) (memo : Memo) (s : Room ι E), Right auth s → Since s g n →
      MemoOk auth s n memo → Collected auth s n done v →
      Gives maxSize auth i (fun w s' => Collected auth s' n (done ++ auths) (w.1, w.2.1) ∧ MemoOk auth s' n w.2.2)
        (walkAuths walk auths (v.1, v.2, memo)) s
  | [], done, v, memo, s, _, _, hmemo, hv => ⟨by rwa [append_nil], hmemo⟩
  | k :: auths, done, v, memo, s, hs, hsince, hmemo, hv => by
    refine (hwalk memo k s hs hsince hmemo).bind hs fun r s' ⟨hw, hmemo'⟩ hlater hs' => ?_
    have h := walkAuths_safe hwalk auths (done ++ [k]) (addAll (addIf v.1 k) r.1.1, v.2 && r.1.2) r.2
      s' hs' (hsince.later hlater) hmemo' ((hv.later hsince.2 hlater).add hw)
    rwa [append_assoc] at h

theorem walk_safe : ∀ (limit : ℕ) (memo : Memo) (k : ℕ) (s : Room ι E), Right auth s → Since s g n →
    MemoOk auth s n memo →
    Gives maxSize auth i (fun w s' => Walked auth s' n k w.1 ∧ MemoOk auth s' n w.2) (walk g limit memo k) s
  | 0, memo, k, s, _, _, _ => trivial
  | limit + 1, memo, k, s, hs, hsince, hmemo => by
    rw [walk]
    cases hk : memo.get? k with
    | some result => exact ⟨hmemo k _ hk, hmemo⟩
    | none =>
      refine safe_cacheGet hsince.1 fun s₁ cached hs₁ hlater₁ hcached => ?_
      have hsince₁ := hsince.later hlater₁
      have hmemo₁ := hmemo.later hsince.2 hlater₁
      cases cached with
      | some cached => exact ⟨fun _ => hcached cached rfl, hmemo₁.set fun _ => hcached cached rfl⟩
      | none =>
        refine (fetchDirectEdges_safe hsince₁.2).bind hs₁ fun r s₂ hdirect hlater₂ hs₂ => ?_
        have hsince₂ := hsince₁.later hlater₂
        have hmemo₂ := hmemo₁.later hsince₁.2 hlater₂
        cases r with
        | none => exact ⟨by simp [Walked], hmemo₂.set (by simp [Walked])⟩
        | some auths =>
          have hloop := walkAuths_safe (walk_safe limit) auths [] ([], true) memo s₂ hs₂ hsince₂ hmemo₂
            fun _ _ => ⟨∅, Ids.empty _, (Ids.empty _).congr (by simp)⟩
          refine hloop.bind hs₂ fun r s₃ ⟨hcoll, hmemo₃⟩ hlater₃ hs₃ => ?_
          have hwalked := hcoll.closure hs₃ ((hdirect auths rfl).later hsince₂.2 hlater₃)
          exact ⟨hwalked, hmemo₃.set hwalked⟩

/-! ### Whole calls -/

theorem closureOf_safe {memo : Memo} (hsince : Since s g n) (hmemo : MemoOk auth s n memo) :
    Gives maxSize auth i (fun w s' => Known auth s' n k w.1 ∧ MemoOk auth s' n w.2)
      (closureOf g limit memo k) s := by
  refine safe_cacheGet hsince.1 fun s₁ cached hs₁ hlater₁ hcached => ?_
  have hsince₁ := hsince.later hlater₁
  have hmemo₁ := hmemo.later hsince.2 hlater₁
  cases cached with
  | some cached => exact ⟨hcached cached rfl, hmemo₁⟩
  | none =>
    refine (walk_safe limit memo k s₁ hs₁ hsince₁ hmemo₁).bind hs₁ fun r s₂ ⟨hwalked, hmemo₂⟩ hlater₂ hs₂ => ?_
    match r with
    | ((bitmap, false), memo₂) => exact trivial
    | ((bitmap, true), memo₂) =>
      have hsince₂ := hsince₁.later hlater₂
      -- the entry goes under the sampled generation, whatever the generation is by now
      intro s₃ hs₃ hrely₃ _ c r s₄ hexec
      cases hexec
      have hknown := (hwalked rfl).later hsince₂.2 hrely₃.later
      have hmemo₃ := hmemo₂.later hsince₂.2 hrely₃.later
      exact ⟨hs₃.put (hsince₂.later hrely₃.later).1 hknown, ⟨⟨le_refl _, fun _ => ShortStore.Le.refl _,
        id⟩, fun _ _ => Iff.rfl, .inl rfl⟩, hknown, hmemo₃⟩

/-- The closures collected by a batch. -/
def OutOk (auth : E → List E) (s : Room ι E) (n : ℕ) (out : Dict ℕ (List ℕ)) : Prop :=
  ∀ k v, out.get? k = some v → Known auth s n k v

omit [DecidableEq ι] in
theorem OutOk.set {out : Dict ℕ (List ℕ)} {v : List ℕ} (h : OutOk auth s n out)
    (hv : Known auth s n k v) : OutOk auth s n (out.set k v) := by
  intro m w hw
  rcases get?_set_cases hw with ⟨rfl, rfl⟩ | hw
  · exact hv
  · exact h m w hw

theorem closuresLoop_safe : ∀ (ks : List ℕ) (memo : Memo) (out : Dict ℕ (List ℕ)) (s : Room ι E),
    Right auth s → Since s g n → MemoOk auth s n memo → OutOk auth s n out →
    Gives maxSize auth i (fun out s' => OutOk auth s' n out) (closuresLoop g limit ks memo out) s
  | [], memo, out, s, _, _, _, hout => hout
  | k :: ks, memo, out, s, hs, hsince, hmemo, hout => by
    refine (closureOf_safe hsince hmemo).bind hs fun r s₁ ⟨hknown, hmemo₁⟩ hlater hs₁ => ?_
    have hout₁ : OutOk auth s₁ n out := fun m w hw => (hout m w hw).later hsince.2 hlater
    exact closuresLoop_safe ks r.2 (out.set k r.1) s₁ hs₁ (hsince.later hlater) hmemo₁ (hout₁.set hknown)

/-- A call under a generation it samples. -/
theorem sampled_safe {p : ℕ → CallProg ι E (Dict ℕ (List ℕ))}
    (hp : ∀ g n s, Right auth s → Since s g n → Gives maxSize auth i (fun out s' => OutOk auth s' n out) (p g) s) :
    Safe (exec maxSize) (rules auth) i (Served auth s) (perform .generation >>= p : CallProg ι E _) s := by
  intro s₁ hs₁ hrely₁ hmay c r s₂ hexec
  cases hexec
  obtain ⟨hs₂, hkeep⟩ := hs₁.sample hmay
  refine ⟨hs₂, ⟨⟨le_refl _, fun _ => ShortStore.Le.refl _, hkeep⟩, fun _ _ => Iff.rfl, .inl rfl⟩, ?_⟩
  have hsince : Since { s₁ with epoch := update s₁.epoch s₁.generation (some s₁.purges) }
      s₁.generation s₁.purges := ⟨update_self _ _ _, le_refl _⟩
  refine (safe_later (hp _ _ _ hs₂ hsince) hs₂).mono ?_
  rintro r s₃ ⟨⟨hout, hlater⟩, -⟩
  have h₁ := hrely₁.later.purges
  have h₂ : s₁.purges ≤ s₃.purges := hlater.purges
  refine ⟨h₁.trans h₂, ?_⟩
  rintro out rfl k v hv heq
  exact hout k v hv (by omega)

omit [DecidableEq ι] in
/-- A call that returns no closures. -/
theorem served_empty (h : s.purges ≤ s'.purges) : Served auth s (.ok Dict.empty) s' :=
  ⟨h, fun out hout k v hv => absurd hv (by rw [← Except.ok.inj hout]; simp)⟩

theorem program_safe (limit : ℕ) (i : ι) (call : Call E) :
    Safe (exec maxSize) (rules auth) i (Served auth s) (program limit i call) s := by
  cases call with
  | closure k =>
    refine sampled_safe fun g n s hs hsince => ?_
    refine (closureOf_safe hsince (by simp [MemoOk])).bind hs fun r s' ⟨hknown, _⟩ _ _ => ?_
    exact OutOk.set (by simp [OutOk]) hknown
  | closures ks =>
    refine sampled_safe fun g n s hs hsince => ?_
    exact closuresLoop_safe ks _ _ s hs hsince (by simp [MemoOk]) (by simp [OutOk])
  | shortIds events =>
    intro s₁ hs₁ hrely₁ _ c r s₂ hexec
    simp only [exec] at hexec
    split at hexec
    · rename_i ids store hids
      cases hexec
      obtain ⟨hs₂, hle, -⟩ := hs₁.shortIds hids
      exact ⟨hs₂, ⟨⟨le_refl _, fun _ => hle, id⟩, fun _ _ => Iff.rfl, .inl rfl⟩,
        served_empty hrely₁.later.purges⟩
    · cases hexec
      exact ⟨hs₁, ⟨Later.refl _, fun _ _ => Iff.rfl, .inl rfl⟩, hrely₁.later.purges, nofun⟩
  | purge =>
    intro s₁ hs₁ hrely₁ _ c r s₂ hexec
    cases hexec
    refine ⟨hs₁.bump, ⟨⟨le_refl _, fun _ => ShortStore.Le.refl _, id⟩, fun j hj => ?_, .inl rfl⟩, ?_⟩
    · simp [hj]
    · intro s₃ hs₃ hrely₃ _ c r s₄ hexec
      cases hexec
      have hi : i ∈ s₃.purging := hrely₃.purging.mp (mem_insert_self _ _)
      have h₁ := hrely₁.later.purges
      have h₃ : s₁.purges ≤ s₃.purges := hrely₃.later.purges
      refine ⟨hs₃.purge hi, ⟨⟨Nat.le_succ _, fun h => absurd h (Nat.succ_ne_self _), id⟩,
        fun j hj => ?_, .inr rfl⟩, served_empty ((h₁.trans h₃).trans (Nat.le_succ _))⟩
      simp [hj]
  | evict keep =>
    intro s₁ hs₁ hrely₁ _ c r s₂ hexec
    cases hexec
    exact ⟨hs₁.cache fun p hp => mem_of_mem_filter hp,
      ⟨⟨le_refl _, fun _ => ShortStore.Le.refl _, id⟩, fun _ _ => Iff.rfl, .inl rfl⟩,
      served_empty hrely₁.later.purges⟩
  | sql t =>
    intro s₁ hs₁ hrely₁ hmay c r s₂ hexec
    cases hexec
    exact ⟨{ hs₁ with tables := hmay },
      ⟨⟨le_refl _, fun _ => ShortStore.Le.refl _, id⟩, fun _ _ => Iff.rfl, .inl rfl⟩,
      served_empty hrely₁.later.purges⟩

/-! ### Calls together -/

/-- Tables are complete; no call samples the generation between a bump and the deletion it announces;
    and the store is not deleted while a call is on the way from an event to its edge list. -/
def PurgeApart (auth : E → List E) (pool : System ι E) : Act ι Unit (Call E) → Prop
  | .step i _ => ((pool.about i).any Op.samples → pool.shared.purging = ∅) ∧
      ((pool.about i).any Op.deletes → ∀ j, (pool.about j).all fun o => !o.importing) ∧
      ∀ t, pool.about i = some (.sql t) → TablesOk auth t
  | _ => True

theorem rules_fit : (rules auth).Fit (exec maxSize) (program (ι := ι) limit) release (PurgeApart auth) where
  refl := ⟨Later.refl _, Iff.rfl, fun _ => rfl⟩
  trans h h' := ⟨h.later.trans h'.later, h.purging.trans h'.purging,
    fun ho => (h'.importing ho).trans (h.importing ho)⟩
  start _ _ := program_safe _ _ _
  may := by
    intro pool i c call began o next hok hi
    obtain ⟨hsample, -, hsql⟩ := hok
    rw [Pool.about_eq hi] at hsample hsql
    cases o with
    | generation => exact hsample rfl
    | sql t => exact hsql t rfl
    | _ => trivial
  other := by
    intro pool i c call began o next s' j call' began' o' next' hok hi hji hj _ _ hguar
    refine ⟨hguar.later, hguar.purging j hji, fun himp => ?_⟩
    rcases hguar.purges with hp | hdel
    · exact hp
    · have hno := hok.2.1 (by rw [Pool.about_eq hi]; exact hdel) j
      rw [Pool.about_eq hj] at hno
      simp [himp] at hno
  keeps := by
    rintro i o s s' call s₀ result hguar ⟨hle, hout⟩
    exact ⟨hle.trans hguar.later.purges, fun out hr k v hv => (hout out hr k v hv).later hle hguar.later⟩
  kill_inv := by
    intro i s h
    refine { h with sampled := fun hg => ?_ }
    obtain ⟨hle, hn, hcur⟩ := h.sampled hg
    refine ⟨hle, hn, fun heq => ⟨?_, (hcur heq).2⟩⟩
    rw [release, (hcur heq).1, erase_empty]
  kill_other := by
    intro i j o s hji _
    refine ⟨⟨le_refl _, fun _ => ShortStore.Le.refl _, id⟩, ?_, fun _ => rfl⟩
    rw [release, mem_erase]
    exact ⟨fun h => ⟨hji, h⟩, fun h => h.2⟩
  kill_keeps h := h

omit [DecidableEq ι] in
theorem Right.fresh {t : AuthTables E} (ht : TablesOk auth t) : Right auth (Room.fresh t : Room ι E) :=
  ⟨⟨by simp [Room.fresh], by simp [Room.fresh], by simp [Room.fresh]⟩, by simp [Room.fresh], ht,
    by simp [Room.fresh], by simp [Room.fresh]⟩

/-- The auth events the tables know of. -/
def authOf (t : AuthTables E) (e : E) : List E := (fetchAuthEventIds t e).getD []

theorem tablesOk_authOf (t : AuthTables E) : TablesOk (authOf t) t := by
  intro e l hl a
  rw [authOf, hl, Option.getD_some]

/-- Event 1 with auth event 2, and event 3 without. -/
def sampleTables : AuthTables ℕ := ⟨[(1, 0), (2, 0), (3, 0)], [(1, 2)]⟩

/-- A call that started after the last deletion was served `v` for short id `k`. -/
def ServedFor (pool : System ι E) (k : ℕ) (v : List ℕ) : Prop :=
  ∃ call s₀ out, (call, s₀, .ok out) ∈ pool.results ∧ s₀.purges = pool.shared.purges ∧ out.get? k = some v

def servedFor (pool : System ι E) (k : ℕ) (v : List ℕ) : Bool :=
  pool.results.any fun r =>
    match r.2.2 with
    | .ok out => r.2.1.purges = pool.shared.purges ∧ out.get? k = some v
    | .error _ => false

omit [DecidableEq ι] [LinearOrder E] in
theorem servedFor_iff {pool : System ι E} {v : List ℕ} : servedFor pool k v = true ↔ ServedFor pool k v := by
  rw [servedFor, any_eq_true]
  constructor
  · rintro ⟨⟨call, s₀, result⟩, hmem, hr⟩
    cases result with
    | error e => cases hr
    | ok out => exact ⟨call, s₀, out, hmem, of_decide_eq_true hr⟩
  · rintro ⟨call, s₀, out, hmem, hr⟩
    exact ⟨(call, s₀, .ok out), hmem, decide_eq_true hr⟩

/-- Steps of one call. -/
def steps (i : Fin 5) (n : ℕ) : List (Act (Fin 5) Unit (Call ℕ)) := List.replicate n (.step i ())

/-- `PurgeApart` where the tables do not change. -/
def QuietApart (pool : System ι E) : Act ι Unit (Call E) → Prop
  | .step i _ => ((pool.about i).any Op.samples → pool.shared.purging = ∅) ∧
      ((pool.about i).any Op.deletes → ∀ j, (pool.about j).all fun o => !o.importing) ∧
      (pool.about i).all fun o => !o.changesTables
  | _ => True

instance [Fintype ι] (pool : System ι E) : (a : Act ι Unit (Call E)) → Decidable (QuietApart pool a)
  | .spawn _ _ => isTrue trivial
  | .step _ _ => inferInstanceAs (Decidable (_ ∧ _ ∧ _))
  | .kill _ => isTrue trivial

omit [DecidableEq ι] in
theorem QuietApart.apart (auth : E → List E) {pool : System ι E} {a : Act ι Unit (Call E)}
    (h : QuietApart pool a) : PurgeApart auth pool a := by
  cases a with
  | spawn i call => trivial
  | step i c =>
    refine ⟨h.1, h.2.1, fun t ht => ?_⟩
    have hno := h.2.2
    rw [ht] at hno
    exact absurd hno (by simp [Op.changesTables])
  | kill i => trivial

/-- The closure of event 1, a purge, then short id 1 for event 3 and its closure. -/
def apartTrace : List (Act (Fin 5) Unit (Call ℕ)) :=
  .spawn 0 (.shortIds [1]) :: steps 0 1 ++ .spawn 1 (.closure 1) :: steps 1 15 ++
    .spawn 2 .purge :: steps 2 2 ++ .spawn 3 (.shortIds [3]) :: steps 3 1 ++
    .spawn 4 (.closures [1]) :: steps 4 9

/-- The closure of event 1 is computed between the bump and the deletion. -/
def betweenTrace : List (Act (Fin 5) Unit (Call ℕ)) :=
  .spawn 0 (.shortIds [1]) :: steps 0 1 ++ .spawn 2 .purge :: steps 2 1 ++
    .spawn 1 (.closure 1) :: steps 1 15 ++ steps 2 1 ++ .spawn 3 (.shortIds [3]) :: steps 3 1 ++
    .spawn 4 (.closures [1]) :: steps 4 2

/-- A call that started before the bump has read the auth rows of event 1 when the store is deleted,
    and writes its edge list when short id 1 is event 3's. -/
def overtakenTrace : List (Act (Fin 5) Unit (Call ℕ)) :=
  .spawn 0 (.shortIds [1]) :: steps 0 1 ++ .spawn 1 (.closure 1) :: steps 1 6 ++
    .spawn 2 .purge :: steps 2 2 ++ .spawn 3 (.shortIds [3]) :: steps 3 1 ++ steps 1 2 ++
    .spawn 4 (.closures [1]) :: steps 4 11

theorem nothing_below_three (x : ℕ) : ¬ Below (authOf sampleTables) 3 x := by
  have hleaf : authOf sampleTables 3 = [] := by decide
  rw [below_of_auth, hleaf]
  simp

end Sithnapse.ClosureCalls
