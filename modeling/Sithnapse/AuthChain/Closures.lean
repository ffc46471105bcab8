import Sithnapse.Kit.Outcome
import Sithnapse.AuthChain.AuthEvents
import Sithnapse.AuthChain.CoverQuery

/-! `ClosureCache` and `_get_auth_chain_ids_using_embedded_closures_txn`: auth chains as sets of
    short ids, from an embedded store that mirrors part of the SQL tables.

    A walk takes an event's direct auth edges from the store, or imports them from SQL if they are
    not there (or recorded as empty), and unites the closures of the auth events. Closures are kept in
    a memo during a call and in an LRU cache between calls. -/

namespace Sithnapse.AuthChain
open Kit Kit.Dict Kit.Chain ChainCover Iterutils List
open Kit.Dict (lookupIn empty)
open Prod (fst snd)

variable {E κ : Type} [LinearOrder E] [DecidableEq κ]

/-! ### The embedded store -/

/-- The auth chain records of a room: the last short id given out, the short ids of events, the
    events of short ids, and direct auth edges. -/
structure ShortStore (E : Type) where
  counter : ℕ
  forward : Dict E ℕ
  reverse : Dict ℕ E
  edges : Dict ℕ (List ℕ)

/-- `AUTH_CHAIN_SHORT_ID_MAX`. -/
def shortIdMax : ℕ := 2 ^ 32 - 1

/-- `get_or_create_short_ids`, one event. -/
def getOrCreateShortId (st : List ℕ × ShortStore E) (e : E) : Except Failure (List ℕ × ShortStore E) :=
  let (out, store) := st
  match store.forward.get? e with
  | some s =>
    -- the reverse mapping is repaired even though the forward mapping exists
    let reverse := if (store.reverse.get? s).isNone then store.reverse.set s e else store.reverse
    .ok (out ++ [s], { store with reverse := reverse })
  | none =>
    let next := store.counter + 1
    if next > shortIdMax then .error .shortIdsExhausted
    else .ok (out ++ [next], { store with counter := next, forward := store.forward.set e next,
                                          reverse := store.reverse.set next e })

/-- `get_or_create_short_ids`. -/
def getOrCreateShortIds (store : ShortStore E) (events : List E) : Except Failure (List ℕ × ShortStore E) :=
  events.foldlM getOrCreateShortId ([], store)

variable (t : AuthTables E)

/-- `_fetch_auth_event_ids_from_sql`: `none` for an event SQL does not know. -/
def fetchAuthEventIds (e : E) : Option (List E) :=
  let rows := (t.eventAuth.filter (·.1 = e)).map snd
  if rows ≠ [] then some rows else if e ∈ t.events.map fst then some [] else none

/-- Give short ids to the auth events and store the edges. -/
def importEdges (store : ShortStore E) (s : ℕ) (authEvents : List E) :
    Except Failure (List ℕ × ShortStore E) := do
  let (ids, store) ← getOrCreateShortIds store authEvents
  pure (ids, { store with edges := store.edges.set s ids })

/-- `_fetch_direct_edges`. -/
def fetchDirectEdges (store : ShortStore E) (s : ℕ) : Except Failure (Option (List ℕ) × ShortStore E) :=
  match store.edges.get? s with
  | some (k :: ks) => .ok (some (k :: ks), store)
  | some [] =>
    -- an empty record may have been written before the event's auth rows were committed
    match (store.reverse.get? s).bind (fetchAuthEventIds t) with
    | some (a :: as) => do
      let (ids, store) ← importEdges store s (a :: as)
      pure (some ids, store)
    | _ => .ok (some [], store)
  | none =>
    match (store.reverse.get? s).bind (fetchAuthEventIds t) with
    | none => .ok (none, store)
    | some authEvents => do
      let (ids, store) ← importEdges store s authEvents
      pure (some ids, store)

/-! ### The closure cache -/

/-- The LRU cache, oldest entry first. A key is the room (namespace, room id and generation) and a
    short id. -/
abbrev ClosureCache (κ : Type) := List ((κ × ℕ) × List ℕ)

/-- `_get`: the entry becomes the youngest. -/
def ClosureCache.get (cache : ClosureCache κ) (key : κ × ℕ) : Option (List ℕ) × ClosureCache κ :=
  match lookupIn key cache with
  | none => (none, cache)
  | some v => (some v, cache.filter (·.1 ≠ key) ++ [(key, v)])

/-- `_put`: the oldest entries beyond `maxSize` are dropped. -/
def ClosureCache.put (maxSize : ℕ) (cache : ClosureCache κ) (key : κ × ℕ) (v : List ℕ) : ClosureCache κ :=
  let cache := cache.filter (·.1 ≠ key) ++ [(key, v)]
  cache.drop (cache.length - maxSize)

/-- What a walk reads and writes. -/
structure WalkState (E κ : Type) where
  store : ShortStore E
  cache : ClosureCache κ
  memo : Dict ℕ (List ℕ × Bool)

/-- `_walk`, with at most `limit` nested calls. -/
def closureWalk (t : AuthTables E) (room : κ) : ℕ → WalkState E κ → ℕ →
    Except Failure ((List ℕ × Bool) × WalkState E κ)
  | 0, _, _ => .error .recursionLimit
  | limit + 1, st, s =>
    match st.memo.get? s with
    | some result => .ok (result, st)
    | none =>
      match st.cache.get (room, s) with
      | (some cached, cache) =>
        .ok ((cached, true), { st with cache := cache, memo := st.memo.set s (cached, true) })
      | (none, _) => do
        let (edges, store) ← fetchDirectEdges t st.store s
        match edges with
        | none =>
          pure (([], false), { st with store := store, memo := st.memo.set s ([], false) })
        | some auths => do
          let (bitmap, complete, st) ← auths.foldlM (fun acc a => do
              let ((childBitmap, childComplete), st) ← closureWalk t room limit acc.2.2 a
              pure (addAll (addIf acc.1 a) childBitmap, acc.2.1 && childComplete, st))
            (([] : List ℕ), true, { st with store := store })
          pure ((bitmap, complete), { st with memo := st.memo.set s (bitmap, complete) })

/-- One root of `get_closures_batch`. -/
def closureRoot (room : κ) (maxSize limit : ℕ)
    (acc : Dict ℕ (List ℕ) × WalkState E κ) (s : ℕ) :
    Except Failure (Dict ℕ (List ℕ) × WalkState E κ) :=
  match acc.2.cache.get (room, s) with
  | (some cached, cache) => .ok (acc.1.set s cached, { acc.2 with cache := cache })
  | (none, _) => do
    let ((bitmap, complete), st) ← closureWalk t room limit acc.2 s
    if !complete then .error .incompleteAuthGraph
    else pure (acc.1.set s bitmap, { st with cache := st.cache.put maxSize (room, s) bitmap })

/-- `_get_auth_chain_ids_using_embedded_closures_txn`: the auth chain, and the store and cache
    afterwards. -/
def getAuthChainIdsUsingEmbeddedClosures (room : κ) (maxSize limit : ℕ)
    (store : ShortStore E) (cache : ClosureCache κ) (eventIds : List E) (includeGiven : Bool) :
    Except Failure (List E × ShortStore E × ClosureCache κ) :=
  match addAll [] eventIds with
  | [] => .ok ([], store, cache)
  | initial => do
    let (shortIds, store) ← getOrCreateShortIds store initial
    let (closures, st) ← shortIds.foldlM (closureRoot t room maxSize limit)
      (empty, ⟨store, cache, empty⟩)
    let ids := shortIds.foldl (fun ids s => addAll ids (closures.getD s [])) []
    let ids := if includeGiven then addAll ids shortIds else ids
    pure (addAll [] (ids.filterMap st.store.reverse.get?), st.store, st.cache)

/-! ### Mirrors -/

/-- `l` are the short ids of the events in `A`. -/
structure Ids (st : ShortStore E) (A : Set E) (l : List ℕ) : Prop where
  complete : ∀ a ∈ A, ∃ k ∈ l, st.forward.get? a = some k
  sound : ∀ k ∈ l, ∃ a ∈ A, st.forward.get? a = some k

/-- A consistent mirror of a part of the auth graph: short ids and events map to each other, and a
    record with edges holds all of them. Events may lack a short id, and short ids a record; a record
    may still be empty. -/
structure Mirror (auth : E → List E) (st : ShortStore E) : Prop where
  inverse : ∀ e s, st.forward.get? e = some s ↔ st.reverse.get? s = some e
  bound : ∀ e s, st.forward.get? e = some s → s ≤ st.counter
  edges : ∀ s l, st.edges.get? s = some l → l ≠ [] →
    ∃ e, st.forward.get? e = some s ∧ Ids st {a | a ∈ auth e} l

/-- Short ids, once given out, stay. -/
def ShortStore.Le (st st' : ShortStore E) : Prop :=
  ∀ e s, st.forward.get? e = some s → st'.forward.get? e = some s

variable {auth : E → List E} {st st' st'' : ShortStore E} {A B : Set E} {l l' : List ℕ}

theorem ShortStore.Le.refl (st : ShortStore E) : st.Le st := fun _ _ h => h

theorem ShortStore.Le.trans (h : st.Le st') (h' : st'.Le st'') : st.Le st'' :=
  fun e s hs => h' e s (h e s hs)

theorem Ids.mono (h : Ids st A l) (hle : st.Le st') : Ids st' A l :=
  ⟨fun a ha => (h.complete a ha).imp fun k hk => ⟨hk.1, hle a k hk.2⟩,
    fun k hk => (h.sound k hk).imp fun a ha => ⟨ha.1, hle a k ha.2⟩⟩

theorem Ids.empty (st : ShortStore E) : Ids st ∅ [] := ⟨by simp, by simp⟩

theorem Ids.join (h : Ids st A l) (h' : Ids st B l') {m : List ℕ} (hm : ∀ k, k ∈ m ↔ k ∈ l ∨ k ∈ l') :
    Ids st (A ∪ B) m := by
  refine ⟨fun a ha => ?_, fun k hk => ?_⟩
  · rcases ha with ha | ha
    · exact (h.complete a ha).imp fun k hk => ⟨(hm k).mpr (.inl hk.1), hk.2⟩
    · exact (h'.complete a ha).imp fun k hk => ⟨(hm k).mpr (.inr hk.1), hk.2⟩
  · rcases (hm k).mp hk with hk | hk
    · exact (h.sound k hk).imp fun a ha => ⟨.inl ha.1, ha.2⟩
    · exact (h'.sound k hk).imp fun a ha => ⟨.inr ha.1, ha.2⟩

theorem Ids.union (h : Ids st A l) (h' : Ids st B l') : Ids st (A ∪ B) (addAll l l') :=
  h.join h' fun _ => mem_addAll

variable {e : E} {s : ℕ} {w : WalkState E κ}

section

variable (he : st.forward.get? e = some s)

include he

theorem Ids.singleton : Ids st {e} [s] :=
  ⟨fun _ ha => ⟨s, mem_singleton_self s, ha ▸ he⟩, fun _ hk => ⟨e, rfl, mem_singleton.mp hk ▸ he⟩⟩

theorem Ids.insert (h : Ids st A l) : Ids st (A ∪ {e}) (addIf l s) :=
  h.union (.singleton he)

theorem Ids.concat (h : Ids st A l) : Ids st (A ∪ {e}) (l ++ [s]) :=
  h.join (.singleton he) fun _ => mem_append

end

theorem Ids.congr (h : Ids st A l) (hAB : ∀ x, x ∈ A ↔ x ∈ B) : Ids st B l := Set.ext hAB ▸ h

/-- A short id belongs to one event. -/
theorem Mirror.forward_inj (h : Mirror auth st) {e' : E} (he : st.forward.get? e = some s)
    (he' : st.forward.get? e' = some s) : e = e' :=
  Option.some.inj (((h.inverse e s).mp he).symm.trans ((h.inverse e' s).mp he'))

/-- The errors that may occur: the short ids run out, or the auth chain is deeper than the limit. -/
def Allowed (limit : ℕ) (f : Failure) : Prop :=
  f = .shortIdsExhausted ∨ (f = .recursionLimit ∧ limit ≤ t.eventAuth.length)

variable {t : AuthTables E} {limit : ℕ}

/-- A new short id for an event without one. -/
theorem Mirror.alloc (h : Mirror auth st) (he : st.forward.get? e = none)
    (hst : st' = ⟨st.counter + 1, st.forward.set e (st.counter + 1), st.reverse.set (st.counter + 1) e,
      st.edges⟩) : Mirror auth st' ∧ st.Le st' := by
  have hle : st.Le st' := by
    intro x s hx
    have hxe : x ≠ e := by
      rintro rfl
      rw [he] at hx
      cases hx
    rw [hst, get?_set_ne _ _ hxe]
    exact hx
  subst hst
  refine ⟨⟨fun x s => ?_, fun x s hx => ?_, fun s l hl hne => ?_⟩, hle⟩
  · rw [get?_set, get?_set]
    rcases eq_or_ne x e with rfl | hx
    · rw [if_pos rfl]
      by_cases hs : s = st.counter + 1
      · simp [hs]
      · -- no other short id leads to this event
        rw [if_neg hs, ← h.inverse, he]
        simp [Ne.symm hs]
    · rw [if_neg hx]
      rcases eq_or_ne s (st.counter + 1) with rfl | hs
      · rw [if_pos rfl]
        refine ⟨fun hc => ?_, fun hc => absurd (Option.some.inj hc).symm hx⟩
        have := h.bound x _ hc
        omega
      · rw [if_neg hs]
        exact h.inverse x s
  · rcases get?_set_cases hx with ⟨-, hs⟩ | hx
    · exact hs.ge
    · exact (h.bound x s hx).trans (Nat.le_succ _)
  · obtain ⟨x, hx, hids⟩ := h.edges s l hl hne
    exact ⟨x, hle x s hx, hids.mono hle⟩

theorem getOrCreateShortIds_spec (h : Mirror auth st) (events : List E) :
    Outcome (Allowed t limit) (fun r => Mirror auth r.2 ∧ st.Le r.2 ∧ r.2.edges = st.edges ∧
      Ids r.2 {e | e ∈ events} r.1) (getOrCreateShortIds st events) := by
  refine Outcome.foldlM getOrCreateShortId (fun pre (r : List ℕ × ShortStore E) => Mirror auth r.2 ∧
    st.Le r.2 ∧ r.2.edges = st.edges ∧ Ids r.2 {e | e ∈ pre} r.1) events
    ⟨h, ShortStore.Le.refl st, rfl, (Ids.empty st).congr (by simp)⟩ ?_
  rintro pre e post ⟨out, store⟩ - ⟨hmir, hle, hedges, hids⟩
  have hadd : ∀ {store' : ShortStore E} {s : ℕ}, store.Le store' → store'.forward.get? e = some s →
      Ids store' {x | x ∈ pre ++ [e]} (out ++ [s]) :=
    fun hle' hs => ((hids.mono hle').concat hs).congr fun x => by simp [or_comm]
  cases hs : store.forward.get? e with
  | some s =>
    have hrev : (store.reverse.get? s).isNone = false := by
      rw [(hmir.inverse e s).mp hs]
      rfl
    simp only [getOrCreateShortId, hs, hrev, Bool.false_eq_true, if_false, outcome_ok]
    exact ⟨hmir, hle, hedges, hadd (ShortStore.Le.refl store) hs⟩
  | none =>
    simp only [getOrCreateShortId, hs]
    split
    · exact .inl rfl
    · obtain ⟨hmir', hle'⟩ := hmir.alloc hs rfl
      exact ⟨hmir', hle.trans hle', hedges, hadd hle' (get?_set_self _ _ _)⟩

theorem importEdges_spec (h : Mirror auth st) (hs : st.forward.get? e = some s)
    {authEvents : List E} (hauth : ∀ a, a ∈ authEvents ↔ a ∈ auth e) :
    Outcome (Allowed t limit) (fun r => Mirror auth r.2 ∧ st.Le r.2 ∧ Ids r.2 {a | a ∈ auth e} r.1)
      (importEdges st s authEvents) := by
  refine (getOrCreateShortIds_spec h authEvents).bind ?_
  rintro ⟨ids, store⟩ ⟨hmir, hle, hedges, hids⟩
  have hids' : Ids store {a | a ∈ auth e} ids := hids.congr hauth
  refine ⟨⟨hmir.inverse, hmir.bound, fun k l hl hne => ?_⟩, hle, ⟨hids'.complete, hids'.sound⟩⟩
  rcases get?_set_cases hl with ⟨rfl, rfl⟩ | hl
  · exact ⟨e, hle e _ hs, hids'.complete, hids'.sound⟩
  · obtain ⟨x, hx, hxids⟩ := hmir.edges k l hl hne
    exact ⟨x, hx, hxids.complete, hxids.sound⟩

variable {depth : E → ℤ} {D : Set E}

omit [LinearOrder E] in
theorem Stored.mem_rows [DecidableEq E] (hD : Stored auth depth t D) (he : e ∈ D) {a : E} :
    a ∈ (t.eventAuth.filter (·.1 = e)).map snd ↔ a ∈ auth e := by
  rw [← hD.auths e he, mem_map]
  constructor
  · rintro ⟨⟨x, b⟩, hr, rfl⟩
    rw [mem_filter, decide_eq_true_eq] at hr
    obtain ⟨hr, rfl⟩ := hr
    exact hr
  · intro h
    exact ⟨(e, a), mem_filter.mpr ⟨h, decide_eq_true rfl⟩, rfl⟩

theorem fetchAuthEventIds_spec (hD : Stored auth depth t D) (he : e ∈ D) :
    ∃ l, fetchAuthEventIds t e = some l ∧ ∀ a, a ∈ l ↔ a ∈ auth e := by
  have hrows := fun a => hD.mem_rows he (a := a)
  rw [fetchAuthEventIds]
  by_cases hnil : (t.eventAuth.filter (·.1 = e)).map snd = []
  · refine ⟨[], ?_, fun a => by rw [← hrows, hnil]⟩
    rw [if_neg (not_not.mpr hnil), if_pos (mem_map.mpr ⟨_, hD.depths e he, rfl⟩)]
  · exact ⟨_, by rw [if_pos hnil], hrows⟩

/-- Direct edges are those of the auth graph, wherever they come from. -/
theorem fetchDirectEdges_spec (hD : Stored auth depth t D) (h : Mirror auth st) (he : e ∈ D) (hs : st.forward.get? e = some s) :
    Outcome (Allowed t limit) (fun r => ∃ l, r.1 = some l ∧ Mirror auth r.2 ∧ st.Le r.2 ∧
      Ids r.2 {a | a ∈ auth e} l) (fetchDirectEdges t st s) := by
  obtain ⟨sql, hsql, hmem⟩ := fetchAuthEventIds_spec hD he
  have hrev : (st.reverse.get? s).bind (fetchAuthEventIds t) = some sql := by
    rw [(h.inverse e s).mp hs]
    exact hsql
  have himport : Outcome (Allowed t limit) (fun r => ∃ l, r.1 = some l ∧ Mirror auth r.2 ∧
      st.Le r.2 ∧ Ids r.2 {a | a ∈ auth e} l)
      (do let (ids, store) ← importEdges st s sql
          pure (some ids, store)) :=
    (importEdges_spec h hs hmem).bind fun r hr => ⟨r.1, rfl, hr⟩
  rw [fetchDirectEdges]
  match hedges : st.edges.get? s with
  | none => simpa only [hrev] using himport
  | some (k :: ks) =>
    obtain ⟨x, hx, hids⟩ := h.edges s _ hedges (cons_ne_nil k ks)
    obtain rfl := h.forward_inj hx hs
    exact ⟨k :: ks, rfl, h, ShortStore.Le.refl st, hids⟩
  | some [] =>
    cases sql with
    | nil =>
      simp only [hrev]
      exact ⟨[], rfl, h, ShortStore.Le.refl st, (Ids.empty st).congr fun a => by simpa using hmem a⟩
    | cons a as => simpa only [hrev] using himport

/-! ### Walks -/

/-- The closure of `e`: the short ids of the events below it. -/
def IsClosure (auth : E → List E) (st : ShortStore E) (e : E) (l : List ℕ) : Prop :=
  Ids st {x | Below auth e x} l

/-- The cached closures of a room are right. -/
def CachedOk (auth : E → List E) (D : Set E) (room : κ) (st : ShortStore E) (cache : ClosureCache κ) : Prop :=
  ∀ p ∈ cache, p.1.1 = room → ∃ e ∈ D, st.forward.get? e = some p.1.2 ∧ IsClosure auth st e p.2

/-- The store is a mirror, and what has been computed is right. -/
structure Sound (auth : E → List E) (D : Set E) (room : κ) (st : WalkState E κ) : Prop where
  mirror : Mirror auth st.store
  cache : CachedOk auth D room st.store st.cache
  memo : ∀ s r, st.memo.get? s = some r → r.2 = true ∧
    ∃ e ∈ D, st.store.forward.get? e = some s ∧ IsClosure auth st.store e r.1

variable {room : κ} {cache : ClosureCache κ}

omit [DecidableEq κ] in
theorem CachedOk.mono (h : CachedOk auth D room st cache) (hle : st.Le st') :
    CachedOk auth D room st' cache := by
  intro p hp hroom
  obtain ⟨e, he, hs, hcl⟩ := h p hp hroom
  exact ⟨e, he, hle e _ hs, hcl.mono hle⟩

/-- Reading the cache reorders it. -/
theorem ClosureCache.get_spec (cache : ClosureCache κ) (key : κ × ℕ) :
    (∀ v, (cache.get key).1 = some v → (key, v) ∈ cache) ∧ ∀ p ∈ (cache.get key).2, p ∈ cache := by
  have hmem : ∀ v, lookupIn key cache = some v → (key, v) ∈ cache := by
    intro v
    induction cache with
    | nil => simp [lookupIn]
    | cons p l ih =>
      intro hv
      rw [lookupIn] at hv
      split_ifs at hv with hk
      · rw [← Option.some.inj hv, ← hk]
        exact (.head _)
      · exact mem_cons_of_mem _ (ih hv)
  rw [ClosureCache.get]
  cases hl : lookupIn key cache with
  | none => exact ⟨by simp, fun p hp => hp⟩
  | some v =>
    refine ⟨fun w hw => hmem w (by rw [hl, ← Option.some.inj hw]), fun p hp => ?_⟩
    rcases mem_concat.mp hp with hp | rfl
    · exact mem_of_mem_filter hp
    · exact hmem v hl

section

variable (h : CachedOk auth D room st cache)

include h

theorem CachedOk.get (key : κ × ℕ) :
    CachedOk auth D room st (cache.get key).2 :=
  fun p hp => h p ((cache.get_spec key).2 p hp)

theorem CachedOk.hit (hm : Mirror auth st)
    {v : List ℕ} (hs : st.forward.get? e = some s) (hv : (cache.get (room, s)).1 = some v) :
    IsClosure auth st e v := by
  obtain ⟨x, _, hx, hcl⟩ := h _ ((cache.get_spec _).1 v hv) rfl
  rwa [hm.forward_inj hx hs] at hcl

theorem CachedOk.put (maxSize : ℕ) {v : List ℕ}
    (he : e ∈ D) (hs : st.forward.get? e = some s) (hv : IsClosure auth st e v) :
    CachedOk auth D room st (cache.put maxSize (room, s) v) := by
  intro p hp hroom
  rcases mem_concat.mp (mem_of_mem_drop hp) with hp | rfl
  · exact h p (mem_of_mem_filter hp) hroom
  · exact ⟨e, he, hs, hv⟩

end

omit [DecidableEq κ] in
theorem Sound.setMemo (h : Sound auth D room w) {v : List ℕ}
    (he : e ∈ D) (hs : w.store.forward.get? e = some s) (hv : IsClosure auth w.store e v) :
    Sound auth D room { w with memo := w.memo.set s (v, true) } := by
  refine ⟨h.mirror, h.cache, fun k r hr => ?_⟩
  rcases get?_set_cases hr with ⟨rfl, rfl⟩ | hr
  · exact ⟨rfl, e, he, hs, hv⟩
  · exact h.memo k r hr

omit [DecidableEq κ] in
theorem Sound.withStore (h : Sound auth D room w) (hm : Mirror auth st)
    (hle : w.store.Le st) : Sound auth D room { w with store := st } := by
  refine ⟨hm, h.cache.mono hle, fun s r hr => ?_⟩
  obtain ⟨htrue, e, he, hs, hcl⟩ := h.memo s r hr
  exact ⟨htrue, e, he, hle e s hs, hcl.mono hle⟩

omit [LinearOrder E] in
/-- The closures of the auth events, with the auth events, make up the closure. -/
theorem below_of_auth {x : E} : Below auth e x ↔ ∃ a ∈ auth e, BelowEq auth a x :=
  Relation.TransGen.head'_iff

/-- The number of events with auth events at or below an event bounds how deep a walk goes. -/
noncomputable def height (auth : E → List E) (t : AuthTables E) (e : E) : ℕ :=
  {y | y ∈ t.eventAuth.map fst ∧ BelowEq auth e y}.ncard

omit [LinearOrder E] in
theorem height_finite (auth : E → List E) (t : AuthTables E) (e : E) :
    {y | y ∈ t.eventAuth.map fst ∧ BelowEq auth e y}.Finite :=
  (t.eventAuth.map fst).finite_toSet.subset fun _ hy => hy.1

theorem height_le (auth : E → List E) (t : AuthTables E) (e : E) : height auth t e ≤ t.eventAuth.length := by
  have hsub : {y | y ∈ t.eventAuth.map fst ∧ BelowEq auth e y} ⊆
      ((t.eventAuth.map fst).toFinset : Set E) := fun y hy => mem_toFinset.mpr hy.1
  calc height auth t e ≤ ((t.eventAuth.map fst).toFinset : Set E).ncard :=
        Set.ncard_le_ncard hsub (Finset.finite_toSet _)
    _ = (t.eventAuth.map fst).toFinset.card := Set.ncard_coe_finset _
    _ ≤ (t.eventAuth.map fst).length := toFinset_card_le _
    _ = t.eventAuth.length := length_map _

omit [LinearOrder E] in
theorem height_lt [DecidableEq E] (hac : Acyclic auth) (hD : Stored auth depth t D) {a : E}
    (he : e ∈ D) (ha : a ∈ auth e) : height auth t a < height auth t e := by
  refine Set.ncard_lt_ncard ⟨fun y hy => ⟨hy.1, .head ha hy.2⟩, fun hsub => ?_⟩ (height_finite auth t e)
  have hrow : e ∈ t.eventAuth.map fst := mem_map.mpr ⟨_, (hD.auths e he a).mpr ha, rfl⟩
  exact hac e (.head' ha (hsub ⟨hrow, .refl⟩).2)

omit [DecidableEq κ] in
/-- The loop over the auth events, given what a nested walk does. -/
theorem closureLoop_spec (hw : Sound auth D room w) {auths : List ℕ}
    (hids : Ids w.store {a | a ∈ auth e} auths)
    {walk : WalkState E κ → ℕ → Except Failure ((List ℕ × Bool) × WalkState E κ)}
    (hwalk : ∀ w k a, Sound auth D room w → a ∈ auth e → w.store.forward.get? a = some k →
      Outcome (Allowed t limit) (fun r => Sound auth D room r.2 ∧ w.store.Le r.2.store ∧
        r.1.2 = true ∧ IsClosure auth r.2.store a r.1.1) (walk w k)) :
    Outcome (Allowed t limit) (fun r => Sound auth D room r.2.2 ∧ w.store.Le r.2.2.store ∧
        r.2.1 = true ∧ IsClosure auth r.2.2.store e r.1)
      (auths.foldlM (fun (acc : List ℕ × Bool × WalkState E κ) a => do
          let ((childBitmap, childComplete), st) ← walk acc.2.2 a
          pure (addAll (addIf acc.1 a) childBitmap, acc.2.1 && childComplete, st))
        ([], true, w)) := by
  -- after the short ids in `pre`, the events at or below theirs have been collected
  refine (Outcome.foldlM _ (fun pre (r : List ℕ × Bool × WalkState E κ) =>
    Sound auth D room r.2.2 ∧ w.store.Le r.2.2.store ∧ r.2.1 = true ∧
      Ids r.2.2.store {x | ∃ k ∈ pre, ∃ a, w.store.forward.get? a = some k ∧ BelowEq auth a x} r.1)
    auths ⟨hw, ShortStore.Le.refl _, rfl, (Ids.empty _).congr (by simp)⟩ ?_).mono ?_
  · rintro pre k post ⟨bitmap, complete, w'⟩ hsplit ⟨hw', hle, hcomplete, hcoll⟩
    obtain ⟨a, ha, hk⟩ := hids.sound k (hsplit ▸ by simp)
    refine (hwalk w' k a hw' ha (hle a k hk)).bind ?_
    rintro ⟨⟨child, ok⟩, w''⟩ ⟨hw'', hle', hok, hcl⟩
    refine ⟨hw'', hle.trans hle', by simp_all, ?_⟩
    refine (((hcoll.mono hle').insert (hle' a k (hle a k hk))).union hcl).congr fun x => ?_
    simp only [Set.mem_union, Set.mem_ofPred_eq, Set.mem_singleton_iff, mem_append,
      mem_singleton, or_and_right, exists_or, exists_eq_left]
    rw [or_assoc]
    refine or_congr_right ⟨fun h => ⟨a, hk, belowEq_iff.mpr h⟩, ?_⟩
    rintro ⟨b, hb, hbx⟩
    rw [hw.mirror.forward_inj hb hk] at hbx
    exact belowEq_iff.mp hbx
  · rintro ⟨bitmap, complete, w'⟩ ⟨hw', hle, hcomplete, hcoll⟩
    refine ⟨hw', hle, hcomplete, hcoll.congr fun x => ?_⟩
    rw [Set.mem_ofPred_eq, Set.mem_ofPred_eq, below_of_auth]
    constructor
    · rintro ⟨k, hk, a, ha, hax⟩
      obtain ⟨b, hb, hbk⟩ := hids.sound k hk
      exact ⟨a, hw.mirror.forward_inj hbk ha ▸ hb, hax⟩
    · rintro ⟨a, ha, hax⟩
      obtain ⟨k, hk, hak⟩ := hids.complete a ha
      exact ⟨k, hk, a, hak, hax⟩

/-- A walk computes the closure of its event. -/
theorem closureWalk_spec (hac : Acyclic auth) (hD : Stored auth depth t D) :
    ∀ (n : ℕ) (w : WalkState E κ) (s : ℕ) (e : E), Sound auth D room w → e ∈ D →
      w.store.forward.get? e = some s → (limit ≤ t.eventAuth.length ∨ height auth t e < n) →
      Outcome (Allowed t limit) (fun r => Sound auth D room r.2 ∧ w.store.Le r.2.store ∧
        r.1.2 = true ∧ IsClosure auth r.2.store e r.1.1) (closureWalk t room n w s)
  | 0, w, s, e, _, _, _, hn => .inr ⟨rfl, hn.resolve_right (Nat.not_lt_zero _)⟩
  | n + 1, w, s, e, hw, he, hs, hn => by
    rw [closureWalk]
    cases hmemo : w.memo.get? s with
    | some r =>
      obtain ⟨htrue, x, _, hx, hcl⟩ := hw.memo s r hmemo
      rw [hw.mirror.forward_inj hx hs] at hcl
      exact ⟨hw, ShortStore.Le.refl _, htrue, hcl⟩
    | none =>
      have hhit := hw.cache.hit hw.mirror (v := ((w.cache.get (room, s)).1).getD []) hs
      have hget := hw.cache.get (room, s)
      rcases hc : w.cache.get (room, s) with ⟨_ | cached, cache⟩
      · refine (fetchDirectEdges_spec hD hw.mirror he hs).bind ?_
        rintro ⟨edges, store⟩ ⟨auths, rfl, hmir, hle, hids⟩
        refine (closureLoop_spec (hw.withStore hmir hle) hids
          fun w k a hw ha hk => ?_).bind ?_
        · refine closureWalk_spec hac hD n w k a hw (hD.down e he a ha) hk ?_
          exact hn.imp_right fun h => (height_lt hac hD he ha).trans_le (Nat.lt_succ_iff.mp h)
        · rintro ⟨bitmap, complete, w'⟩ ⟨hw', hle', rfl, hcl⟩
          exact ⟨hw'.setMemo he (hle' e s (hle e s hs)) hcl, hle.trans hle', rfl, hcl⟩
      · rw [hc] at hhit hget
        have hcl : IsClosure auth w.store e cached := hhit rfl
        have hw' : Sound auth D room { w with cache := cache } := ⟨hw.mirror, hget, hw.memo⟩
        exact ⟨hw'.setMemo he hs hcl, ShortStore.Le.refl _, rfl, hcl⟩

/-- One root of a batch of closures. -/
theorem closureRoot_spec (hac : Acyclic auth) (hD : Stored auth depth t D) (maxSize : ℕ)
    {out : Dict ℕ (List ℕ)} (hw : Sound auth D room w) (he : e ∈ D)
    (hs : w.store.forward.get? e = some s) :
    Outcome (Allowed t limit) (fun r => Sound auth D room r.2 ∧ w.store.Le r.2.store ∧
        ∃ l, r.1 = out.set s l ∧ IsClosure auth r.2.store e l)
      (closureRoot t room maxSize limit (out, w) s) := by
  have hhit := hw.cache.hit hw.mirror (v := ((w.cache.get (room, s)).1).getD []) hs
  have hget := hw.cache.get (room, s)
  rw [closureRoot]
  rcases hc : w.cache.get (room, s) with ⟨_ | cached, cache⟩
  · refine (closureWalk_spec hac hD limit w s e hw he hs ?_).bind ?_
    · exact (le_or_gt limit t.eventAuth.length).imp_right (height_le auth t e).trans_lt
    · rintro ⟨⟨bitmap, complete⟩, w'⟩ ⟨hw', hle, rfl, hcl⟩
      exact ⟨⟨hw'.mirror, hw'.cache.put maxSize he (hle e s hs) hcl, hw'.memo⟩, hle, bitmap, rfl, hcl⟩
  · rw [hc] at hhit hget
    exact ⟨⟨hw.mirror, hget, hw.memo⟩, ShortStore.Le.refl _, cached, rfl, hhit rfl⟩

/-- The query returns the auth chain unless the short ids run out or the auth chain is deeper than
    the recursion limit; store and cache stay consistent. -/
theorem embeddedQuery_spec (hac : Acyclic auth) (hD : Stored auth depth t D) (maxSize limit : ℕ)
    (hst : Mirror auth st) (hcache : CachedOk auth D room st cache) {eventIds : List E}
    (hgiven : ∀ g ∈ eventIds, g ∈ D) (includeGiven : Bool) :
    Outcome (Allowed t limit) (fun r => (∀ x, x ∈ r.1 ↔ InAuthChain auth eventIds includeGiven x) ∧
        Mirror auth r.2.1 ∧ CachedOk auth D room r.2.1 r.2.2)
      (getAuthChainIdsUsingEmbeddedClosures t room maxSize limit st cache eventIds includeGiven) := by
  have hmg : ∀ x, x ∈ addAll [] eventIds ↔ x ∈ eventIds := fun x => by simp
  rw [getAuthChainIdsUsingEmbeddedClosures]
  split
  · rename_i hnil
    have hnone : ∀ x, x ∉ eventIds := fun x hx => by simpa [hnil] using (hmg x).mpr hx
    exact ⟨fun x => by simp [InAuthChain, hnone], hst, hcache⟩
  · refine (getOrCreateShortIds_spec hst _).bind ?_
    rintro ⟨shortIds, store⟩ ⟨hmir, hle, _, hids⟩
    have hids : Ids store {e | e ∈ eventIds} shortIds := hids.congr hmg
    refine (Outcome.foldlM (closureRoot t room maxSize limit)
      (fun pre (r : Dict ℕ (List ℕ) × WalkState E κ) => Sound auth D room r.2 ∧ store.Le r.2.store ∧
        ∀ s ∈ pre, ∀ e ∈ eventIds, store.forward.get? e = some s →
          IsClosure auth r.2.store e (r.1.getD s [])) shortIds
      ⟨⟨hmir, hcache.mono hle, by simp⟩, ShortStore.Le.refl _, by simp⟩ ?_).bind ?_
    · rintro pre s post ⟨out, w⟩ hsplit ⟨hw, hle', hout⟩
      obtain ⟨e, he, hs⟩ := hids.sound s (hsplit ▸ by simp)
      refine (closureRoot_spec hac hD maxSize hw (hgiven e he) (hle' e s hs)).mono ?_
      rintro ⟨out', w'⟩ ⟨hw', hle'', l, rfl, hcl⟩
      refine ⟨hw', hle'.trans hle'', fun k hk x hx hxk => ?_⟩
      rw [getD_set]
      split
      · rename_i hks
        rw [hmir.forward_inj hxk (hks ▸ hs)]
        exact hcl
      · rename_i hks
        exact (hout k ((mem_concat.mp hk).resolve_right hks) x hx hxk).mono hle''
    · rintro ⟨closures, w⟩ ⟨hw, hle', hout⟩
      refine ⟨fun x => ?_, hw.mirror, hw.cache⟩
      have hunion : Ids w.store {x | ∃ g ∈ eventIds, Below auth g x}
          (shortIds.foldl (fun ids s => addAll ids (closures.getD s [])) []) := by
        refine Ids.congr (foldl_visited _ (fun pre ids => Ids w.store {x | ∃ s ∈ pre, ∃ e ∈ eventIds,
          store.forward.get? e = some s ∧ Below auth e x} ids) shortIds
          ((Ids.empty _).congr (by simp)) ?_) fun x => ?_
        · intro pre s post ids hsplit ih
          obtain ⟨e, he, hs⟩ := hids.sound s (hsplit ▸ by simp)
          refine (ih.union (hout s (hsplit ▸ by simp) e he hs)).congr fun x => ?_
          simp only [Set.mem_union, Set.mem_ofPred_eq, mem_append, mem_singleton,
            or_and_right, exists_or, exists_eq_left]
          refine or_congr_right ⟨fun h => ⟨e, he, hs, h⟩, ?_⟩
          rintro ⟨y, _, hy, hyx⟩
          rwa [hmir.forward_inj hy hs] at hyx
        · constructor
          · rintro ⟨s, _, e, he, _, hx⟩
            exact ⟨e, he, hx⟩
          · rintro ⟨e, he, hx⟩
            obtain ⟨s, hs, hes⟩ := hids.complete e he
            exact ⟨s, hs, e, he, hes, hx⟩
      have hall : Ids w.store {x | InAuthChain auth eventIds includeGiven x}
          (if includeGiven = true then
            addAll (shortIds.foldl (fun ids s => addAll ids (closures.getD s [])) []) shortIds
          else shortIds.foldl (fun ids s => addAll ids (closures.getD s [])) []) := by
        cases includeGiven with
        | true =>
          refine (hunion.union (hids.mono hle')).congr fun x => ?_
          simp [InAuthChain, or_comm]
        | false => exact hunion.congr fun x => by simp [InAuthChain]
      rw [mem_addAll, mem_filterMap]
      constructor
      · rintro (hx | ⟨k, hk, hkx⟩)
        · cases hx
        · obtain ⟨y, hy, hyk⟩ := hall.sound k hk
          rwa [hw.mirror.forward_inj ((hw.mirror.inverse x k).mpr hkx) hyk]
      · intro hx
        obtain ⟨k, hk, hxk⟩ := hall.complete x hx
        exact .inr ⟨k, hk, (hw.mirror.inverse x k).mp hxk⟩

/-! ### The three queries -/

/-- The three queries return the auth chain of the given events. The walk over the tables always
    does. The cover index query raises only if the room's create event is not in the auth chain, and
    the embedded query only if the short ids run out or the recursion limit is too low. -/
theorem auth_chain_queries_agree {T R : Type} {db : Db E T R} {events : List (E × ℤ)}
    {authCache : AuthCache E} {evict : AuthCache E → AuthCache E} {order : List ℕ → List ℕ}
    (hac : Acyclic auth) (hD : Stored auth depth ⟨events, db.eventAuth⟩ D)
    (hidx : CorrectIndex auth db) (hall : ∀ e ∈ D, ∃ p, db.selectChain e = some p)
    (hev : Evicts evict) (hauthCache : CacheOk ⟨events, db.eventAuth⟩ authCache)
    (horder : ∀ l, (order l).Perm l) (hst : Mirror auth st) (hcache : CachedOk auth D room st cache)
    (createEvent : Option E) (maxSize limit : ℕ) {eventIds : List E} (hgiven : ∀ g ∈ eventIds, g ∈ D)
    (includeGiven : Bool) :
    (∃ r, getAuthChainIds ⟨events, db.eventAuth⟩ evict authCache eventIds includeGiven = some r ∧
      ∀ x, x ∈ r ↔ InAuthChain auth eventIds includeGiven x) ∧
    ((∃ r, getAuthChainIdsUsingCoverIndex db order createEvent eventIds includeGiven = .ok r ∧
        ∀ x, x ∈ r ↔ InAuthChain auth eventIds includeGiven x) ∨
      (getAuthChainIdsUsingCoverIndex db order createEvent eventIds includeGiven =
          .error .incompleteAuthGraph ∧
        ∃ c, createEvent = some c ∧ ¬ InAuthChain auth eventIds true c)) ∧
    Outcome (Allowed ⟨events, db.eventAuth⟩ limit)
      (fun r => ∀ x, x ∈ r.1 ↔ InAuthChain auth eventIds includeGiven x)
      (getAuthChainIdsUsingEmbeddedClosures ⟨events, db.eventAuth⟩ room maxSize limit st cache eventIds
        includeGiven) := by
  refine ⟨?_, ?_, ?_⟩
  · obtain ⟨r, hr, hmem⟩ := getAuthChainIds_spec hev hauthCache eventIds includeGiven
    refine ⟨r, hr, fun x => (hmem x).trans (or_congr_right ?_)⟩
    exact exists_congr fun g => and_congr_right fun hg => hD.below_iff (hgiven g hg)
  · rcases coverQuery_spec hac hidx horder createEvent includeGiven
      (fun g hg e hge a ha => (hD.auths e (hD.closed (hgiven g hg) hge) a).mp ha) with
      hok | ⟨_, g, hg, hnone⟩ | hcreate
    · exact .inl hok
    · obtain ⟨p, hp⟩ := hall g (hgiven g hg)
      rw [hnone] at hp
      cases hp
    · exact .inr hcreate
  · exact (embeddedQuery_spec hac hD maxSize limit hst hcache hgiven includeGiven).mono fun r hr => hr.1

/-- Nothing embedded yet. -/
def emptyStore : ShortStore ℕ := ⟨0, empty, empty, empty⟩

theorem emptyStore_mirror : Mirror roomAuth emptyStore :=
  ⟨fun e s => by simp [emptyStore], fun e s h => by simp [emptyStore] at h,
    fun s l h => by simp [emptyStore] at h⟩

def roomEvents : List (ℕ × ℤ) := [(0, 1), (1, 2), (2, 3), (3, 4)]

theorem roomDb_stored :
    Stored roomAuth (fun e => (e : ℤ) + 1) ⟨roomEvents, roomDb.eventAuth⟩ {e | e ∈ [0, 1, 2, 3]} where
  keyed := by decide
  depths := by
    have h : ∀ e ∈ ([0, 1, 2, 3] : List ℕ), (e, (e : ℤ) + 1) ∈ roomEvents := by decide
    exact h
  auths := by
    intro e he a
    have he : e ∈ [0, 1, 2, 3] := he
    fin_cases he <;> simp [roomDb, roomAuth]
  down := by
    have h : ∀ e ∈ [0, 1, 2, 3], ∀ a ∈ roomAuth e, a ∈ [0, 1, 2, 3] := by decide
    exact h

/-- The auth chain of the power levels and the member event, without these: the power levels are
    below the member event and belong to it. -/
theorem auth_chain_queries_room :
    (∃ r, getAuthChainIds ⟨roomEvents, roomDb.eventAuth⟩ id empty [2, 3] false = some r ∧
      ∀ x, x ∈ r ↔ InAuthChain roomAuth [2, 3] false x) ∧
    ((∃ r, getAuthChainIdsUsingCoverIndex roomDb id (some 0) [2, 3] false = .ok r ∧
        ∀ x, x ∈ r ↔ InAuthChain roomAuth [2, 3] false x) ∨
      (getAuthChainIdsUsingCoverIndex roomDb id (some 0) [2, 3] false = .error .incompleteAuthGraph ∧
        ∃ c, some 0 = some c ∧ ¬ InAuthChain roomAuth [2, 3] true c)) ∧
    Outcome (Allowed ⟨roomEvents, roomDb.eventAuth⟩ 10)
      (fun r => ∀ x, x ∈ r.1 ↔ InAuthChain roomAuth [2, 3] false x)
      (getAuthChainIdsUsingEmbeddedClosures ⟨roomEvents, roomDb.eventAuth⟩ () 100 10 emptyStore []
        [2, 3] false) := by
  have hall : ∀ e ∈ [0, 1, 2, 3], ∃ p, roomDb.selectChain e = some p := by
    intro e he
    fin_cases he <;> exact ⟨_, rfl⟩
  have hgiven : ∀ g ∈ [2, 3], g ∈ [0, 1, 2, 3] := by decide
  exact auth_chain_queries_agree roomAuth_acyclic roomDb_stored roomDb_correct hall
    (fun _ _ _ h => h) cacheOk_empty (fun l => List.Perm.refl l) emptyStore_mirror
    (fun p hp => absurd hp not_mem_nil) (some 0) 100 10 hgiven false

end Sithnapse.AuthChain
