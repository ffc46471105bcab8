import Sithnapse.Kit.Search
import Sithnapse.Util.Iterutils

/-! The auth events of stored events, read through `_event_auth_cache`, and the breadth-first
    `_get_auth_chain_ids_txn` over them.

    Whatever the cache holds of the table and however it evicts, the walk returns the events below
    the given ones, and the given ones themselves when asked for (`getAuthChainIds_spec`). -/

namespace Sithnapse.AuthChain
open Kit Kit.Dict Kit.Chain Iterutils List

variable {E : Type} [DecidableEq E]

/-- The tables the walks read: `events` as (event_id, depth) and `event_auth` as
    (event_id, auth_id). -/
structure AuthTables (E : Type) where
  events : List (E × ℤ)
  eventAuth : List (E × E)

/-- `_event_auth_cache`: an event's auth events with their depths. -/
abbrev AuthCache (E : Type) := Dict E (List (E × ℤ))

variable (t : AuthTables E)

/-- `SELECT a.event_id, auth_id, depth FROM event_auth AS a INNER JOIN events AS e ON
    (e.event_id = a.auth_id) WHERE a.event_id IN …`. -/
def AuthTables.selectAuth (events : List E) : List (E × E × ℤ) :=
  (t.eventAuth.filter (·.1 ∈ events)).flatMap fun r =>
    (t.events.filter (·.1 = r.2)).map fun d => (r.1, r.2, d.2)

/-- The auth events of a chunk, cached ones first, and the cache with the fetched ones added. -/
def authRows (cache : AuthCache E) (chunk : List E) : List (E × E × ℤ) × AuthCache E :=
  let toFetch := chunk.filter fun e => (cache.get? e).isNone
  let cached := chunk.flatMap fun e => ((cache.get? e).getD []).map fun r => (e, r)
  let fetched := t.selectAuth toFetch
  (cached ++ fetched, cache.update (Dict.group fetched).entries)

/-- The auth events as the tables have them. -/
def AuthTables.next (e : E) : List E := (t.selectAuth [e]).map (·.2.1)

/-- Cached entries are what the tables say. -/
def CacheOk (cache : AuthCache E) : Prop :=
  ∀ e rows, cache.get? e = some rows → ∀ r, r ∈ rows ↔ (e, r) ∈ t.selectAuth [e]

/-- Eviction only forgets. -/
def Evicts (evict : AuthCache E → AuthCache E) : Prop :=
  ∀ c e rows, (evict c).get? e = some rows → c.get? e = some rows

variable {t : AuthTables E} {cache : AuthCache E} {evict : AuthCache E → AuthCache E}

theorem CacheOk.evicted (h : CacheOk t cache) (hev : Evicts evict) : CacheOk t (evict cache) :=
  fun e rows he => h e rows (hev cache e rows he)

theorem cacheOk_empty : CacheOk t Dict.empty := fun e rows he => by simp at he

theorem mem_selectAuth {events : List E} {e : E} {r : E × ℤ} :
    (e, r) ∈ t.selectAuth events ↔ e ∈ events ∧ (e, r) ∈ t.selectAuth [e] := by
  simp only [AuthTables.selectAuth, mem_flatMap, mem_filter, mem_map, mem_singleton, decide_eq_true_eq]
  constructor
  · rintro ⟨⟨x, a⟩, ⟨hrow, hx⟩, d, hd, heq⟩
    cases heq
    exact ⟨hx, (x, a), ⟨hrow, rfl⟩, d, hd, rfl⟩
  · rintro ⟨he, row, ⟨hrow, rfl⟩, hd⟩
    exact ⟨row, ⟨hrow, he⟩, hd⟩

theorem mem_next_iff {e a : E} : a ∈ t.next e ↔ ∃ d, (e, a, d) ∈ t.selectAuth [e] := by
  rw [AuthTables.next, mem_map]
  constructor
  · rintro ⟨⟨x, a, d⟩, hr, rfl⟩
    obtain rfl := mem_singleton.mp (mem_selectAuth.mp hr).1
    exact ⟨d, hr⟩
  · rintro ⟨d, hr⟩
    exact ⟨_, hr, rfl⟩

/-- The rows of a chunk do not depend on what is cached, and the cache stays right. -/
theorem authRows_spec (h : CacheOk t cache) (chunk : List E) :
    (∀ e r, (e, r) ∈ (authRows t cache chunk).1 ↔ e ∈ chunk ∧ (e, r) ∈ t.selectAuth [e]) ∧
      CacheOk t (authRows t cache chunk).2 := by
  refine ⟨fun e r => ?_, fun e rows he r => ?_⟩
  · have hcached : (e, r) ∈ (chunk.flatMap fun e => ((cache.get? e).getD []).map fun r => (e, r)) ↔
        e ∈ chunk ∧ r ∈ (cache.get? e).getD [] := by
      simp only [mem_flatMap, mem_map, Prod.mk.injEq]
      constructor
      · rintro ⟨x, hx, r', hr', rfl, rfl⟩
        exact ⟨hx, hr'⟩
      · rintro ⟨hx, hr⟩
        exact ⟨e, hx, r, hr, rfl, rfl⟩
    rw [authRows, mem_append, hcached, mem_selectAuth, mem_filter]
    cases hc : cache.get? e with
    | none => simp
    | some rows => simp [h e rows hc]
  · rw [authRows, get?_update_entries] at he
    cases hg : (Dict.group (t.selectAuth (chunk.filter fun e => (cache.get? e).isNone))).get? e with
    | none =>
      rw [hg] at he
      exact h e rows he r
    | some rows' =>
      rw [hg] at he
      cases he
      have hchunk := ((group_spec _).2 e).mp (mem_keys_iff.mpr ⟨_, hg⟩)
      obtain ⟨⟨x, r'⟩, hx, rfl⟩ := mem_map.mp hchunk
      rw [← getD_of_get? hg, mem_group, mem_selectAuth, and_iff_right (mem_selectAuth.mp hx).1]

/-- The tables hold the auth graph and the depths of the events in `D`. -/
structure Stored (auth : E → List E) (depth : E → ℤ) (t : AuthTables E) (D : Set E) : Prop where
  keyed : (t.events.map Prod.fst).Nodup
  depths : ∀ e ∈ D, (e, depth e) ∈ t.events
  auths : ∀ e ∈ D, ∀ a, (e, a) ∈ t.eventAuth ↔ a ∈ auth e
  down : ∀ e ∈ D, ∀ a ∈ auth e, a ∈ D

namespace Stored

variable {auth : E → List E} {depth : E → ℤ} {D : Set E} {e a x : E} {d : ℤ}
  (h : Stored auth depth t D) (he : e ∈ D)

include h he

theorem depth_iff : (e, d) ∈ t.events ↔ d = depth e := by
  constructor
  · intro hd
    have hget := (lookupIn_eq_some h.keyed).mpr hd
    rw [(lookupIn_eq_some h.keyed).mpr (h.depths e he)] at hget
    exact (Option.some.inj hget).symm
  · rintro rfl
    exact h.depths e he

theorem row_iff : (e, a, d) ∈ t.selectAuth [e] ↔ a ∈ auth e ∧ d = depth a := by
  simp only [AuthTables.selectAuth, mem_flatMap, mem_filter, mem_map, mem_singleton, decide_eq_true_eq]
  constructor
  · rintro ⟨⟨x, b⟩, ⟨hrow, hx⟩, ⟨y, d'⟩, ⟨hd, hy⟩, heq⟩
    obtain ⟨rfl, rfl, rfl⟩ := heq
    obtain rfl : y = b := hy
    have ha := (h.auths x he _).mp hrow
    exact ⟨ha, (h.depth_iff (h.down x he _ ha)).mp hd⟩
  · rintro ⟨ha, rfl⟩
    exact ⟨(e, a), ⟨(h.auths e he a).mpr ha, rfl⟩, (a, depth a), ⟨h.depths a (h.down e he a ha), rfl⟩, rfl⟩

theorem next_iff : a ∈ t.next e ↔ a ∈ auth e := by
  simp [mem_next_iff, h.row_iff he]

omit [DecidableEq E] in
theorem closed (hx : BelowEq auth e x) : x ∈ D := by
  induction hx with
  | refl => exact he
  | tail _ hs ih => exact h.down _ ih _ hs

theorem below_iff : Below t.next e x ↔ Below auth e x := by
  constructor
  · intro hx
    induction hx with
    | single hs => exact .single ((h.next_iff he).mp hs)
    | tail _ hs ih => exact ih.tail ((h.next_iff (h.closed he ih.belowEq)).mp hs)
  · intro hx
    induction hx with
    | single hs => exact .single ((h.next_iff he).mpr hs)
    | tail hy hs ih => exact ih.tail ((h.next_iff (h.closed he (Below.belowEq hy))).mpr hs)

end Stored

/-! ### `_get_auth_chain_ids_txn` -/

/-- The walk's variables. -/
structure Front (E : Type) where
  results : List E
  front : List E
  cache : AuthCache E

/-- One chunk of the front: its auth events go to the new front. -/
def frontChunk (t : AuthTables E) (evict : AuthCache E → AuthCache E) (st : List E × AuthCache E)
    (chunk : List E) : List E × AuthCache E :=
  let (rows, cache) := authRows t st.2 chunk
  (addAll st.1 (rows.map (·.2.1)), evict cache)

/-- One round of the loop. -/
def frontRound (t : AuthTables E) (evict : AuthCache E → AuthCache E) (st : Front E) : Front E ⊕ List E :=
  match st.front with
  | [] => .inr st.results
  | _ :: _ =>
    let (newFront, cache) := (batchIter st.front 100).foldl (frontChunk t evict) ([], st.cache)
    let front := newFront.filter (· ∉ st.results)
    .inl ⟨addAll st.results front, front, cache⟩

/-- `_get_auth_chain_ids_txn`. -/
def getAuthChainIds (t : AuthTables E) (evict : AuthCache E → AuthCache E) (cache : AuthCache E)
    (eventIds : List E) (includeGiven : Bool) : Option (List E) :=
  let given := addAll [] eventIds
  loop (frontRound t evict) (t.eventAuth.length + t.eventAuth.length + 3)
    ⟨if includeGiven then given else [], given, cache⟩

theorem frontChunks_spec (hev : Evicts evict) (hc : CacheOk t cache) (front : List E) :
    let r := (batchIter front 100).foldl (frontChunk t evict) ([], cache)
    (∀ a, a ∈ r.1 ↔ ∃ e ∈ front, a ∈ t.next e) ∧ r.1.Nodup ∧ CacheOk t r.2 := by
  have hmem : ∀ a, (∃ e ∈ front, a ∈ t.next e) ↔ ∃ c ∈ batchIter front 100, ∃ e ∈ c, a ∈ t.next e := by
    intro a
    simp only [← mem_batchIter (l := front) (show 0 < 100 by decide)]
    exact ⟨fun ⟨e, ⟨c, hc, he⟩, ha⟩ => ⟨c, hc, e, he, ha⟩, fun ⟨c, hc, e, he, ha⟩ => ⟨e, ⟨c, hc, he⟩, ha⟩⟩
  simp only [hmem]
  refine foldl_visited _ (fun pre (r : List E × AuthCache E) =>
    (∀ a, a ∈ r.1 ↔ ∃ c ∈ pre, ∃ e ∈ c, a ∈ t.next e) ∧ r.1.Nodup ∧ CacheOk t r.2) _ ?_ ?_
  · exact ⟨by simp, nodup_nil, hc⟩
  · rintro pre chunk _ ⟨new, cache⟩ - ⟨hnew, hnd, hok⟩
    obtain ⟨hrows, hok'⟩ := authRows_spec hok chunk
    refine ⟨fun a => ?_, nodup_addAll _ hnd, hok'.evicted hev⟩
    simp only [frontChunk, mem_addAll, hnew, mem_append, or_and_right, exists_or,
      mem_singleton, exists_eq_left, mem_map, mem_next_iff]
    refine or_congr Iff.rfl ?_
    constructor
    · rintro ⟨⟨e, a, d⟩, hr, rfl⟩
      obtain ⟨he, hr⟩ := (hrows _ _).mp hr
      exact ⟨e, he, d, hr⟩
    · rintro ⟨e, he, d, hr⟩
      exact ⟨(e, a, d), (hrows _ _).mpr ⟨he, hr⟩, rfl⟩

/-- One round moves the front to the unseen auth events of the front. -/
theorem frontRound_spec (hev : Evicts evict) {st st' : Front E} (hc : CacheOk t st.cache)
    (h : frontRound t evict st = .inl st') : CacheOk t st'.cache ∧ st'.front.Nodup ∧
      (∀ a, a ∈ st'.front ↔ a ∉ st.results ∧ ∃ e ∈ st.front, a ∈ t.next e) ∧
      ∀ a, a ∈ st'.results ↔ a ∈ st.results ∨ ∃ e ∈ st.front, a ∈ t.next e := by
  obtain ⟨results, front, cache⟩ := st
  cases front with
  | nil => simp [frontRound] at h
  | cons x front =>
    obtain ⟨hmem, hnd, hok⟩ := frontChunks_spec hev hc (x :: front)
    simp only [frontRound, Sum.inl.injEq] at h
    subst h
    refine ⟨hok, hnd.filter _, fun a => ?_, fun a => ?_⟩
    · rw [mem_filter, decide_eq_true_eq, hmem, and_comm]
    · rw [mem_addAll, mem_filter, decide_eq_true_eq, hmem]
      by_cases ha : a ∈ results <;> simp [ha]

theorem mem_eventAuth_of_next {x y : E} (h : y ∈ t.next x) : y ∈ t.eventAuth.map Prod.snd := by
  obtain ⟨d, hr⟩ := mem_next_iff.mp h
  simp only [AuthTables.selectAuth, mem_flatMap, mem_filter, mem_map] at hr
  obtain ⟨r, ⟨hr, _⟩, _, _, heq⟩ := hr
  exact mem_map.mpr ⟨r, hr, (Prod.mk.inj (Prod.mk.inj heq).2).1⟩

/-- The walk returns the events below the given ones, and these too when asked for. -/
theorem getAuthChainIds_spec (hev : Evicts evict) (hc : CacheOk t cache) (eventIds : List E)
    (includeGiven : Bool) :
    ∃ r, getAuthChainIds t evict cache eventIds includeGiven = some r ∧
      ∀ x, x ∈ r ↔ (includeGiven = true ∧ x ∈ eventIds) ∨ ∃ g ∈ eventIds, Below t.next g x := by
  set given := addAll [] eventIds with hgiven
  have hmg : ∀ x, x ∈ given ↔ x ∈ eventIds := fun x => by simp [hgiven]
  rw [getAuthChainIds, ← hgiven]
  set results := if includeGiven = true then given else [] with hres
  have hmr : ∀ x, x ∈ results ↔ includeGiven = true ∧ x ∈ eventIds := by
    intro x
    rw [hres]
    split <;> simp_all
  rw [loop]
  cases hst : frontRound t evict ⟨results, given, cache⟩ with
  | inr r =>
    -- nothing was given
    refine ⟨r, rfl, fun x => ?_⟩
    cases hg : given with
    | nil =>
      rw [frontRound, hg] at hst
      have hnone : ∀ y, y ∉ eventIds := fun y hy => by simpa [hg] using (hmg y).mpr hy
      rw [← Sum.inr.inj hst, hmr]
      simp [hnone]
    | cons y l => simp [frontRound, hg] at hst
  | inl st =>
    obtain ⟨hok, hnd, hfront, hresults⟩ := frontRound_spec hev hc hst
    -- from the second round on every waiting event is in the results
    have hsearch : Search t.next (· ∈ st.results) st.results st.front := by
      refine ⟨fun _ hx => hx, fun x hx => (hresults x).mpr (.inr ((hfront x).mp hx).2),
        fun x hx hn y hy => ?_, fun x hx => ⟨x, hx, .refl⟩⟩
      -- a result that does not wait was given, and its auth events were added
      have hgiven : x ∈ results := by
        by_contra hc
        rcases (hresults x).mp hx with hx' | hx'
        · exact hc hx'
        · exact hn ((hfront x).mpr ⟨hc, hx'⟩)
      exact (hresults y).mpr (.inr ⟨x, (hmg x).mpr ((hmr x).mp hgiven).2, hy⟩)
    have hlen : st.front.length ≤ t.eventAuth.length := by
      have hsub : st.front ⊆ t.eventAuth.map Prod.snd := by
        intro x hx
        obtain ⟨_, e, _, hx⟩ := (hfront x).mp hx
        exact mem_eventAuth_of_next hx
      simpa using (subperm_of_subset hnd hsub).length_le
    obtain ⟨r, hr, hpost⟩ := search_loop
      Front.results Front.front
      (Q := fun r => ∀ x, x ∈ r ↔ ∃ s, s ∈ st.results ∧ BelowEq t.next s x)
      (n := t.eventAuth.length + t.eventAuth.length + 2) (s := st)
      (fun x y => mem_eventAuth_of_next)
      (by
        intro s s' hJ hs _ h
        obtain ⟨hok, hnd, hfront, hresults⟩ := frontRound_spec hev hJ h
        refine ⟨hok, hnd, s.front, ?_, fun _ hx => hx, hresults, fun y => ?_⟩
        · intro hnil
          simp [frontRound, hnil] at h
        · rw [hfront]
          simp)
      (by
        intro s r _ hs h x
        cases hf : s.front with
        | nil =>
          rw [frontRound, hf] at h
          rw [hf] at hs
          rw [← Sum.inr.inj h]
          exact hs.finish
        | cons y l => simp [frontRound, hf] at h)
      hok hsearch hnd (by rw [length_map]; omega)
    refine ⟨r, hr, fun x => (hpost x).trans ?_⟩
    simp only [hresults, hmr, hmg]
    constructor
    · rintro ⟨s, ⟨hi, hs⟩ | ⟨g, hg, hs⟩, hx⟩
      · rcases belowEq_iff.mp hx with rfl | hx
        · exact .inl ⟨hi, hs⟩
        · exact .inr ⟨s, hs, hx⟩
      · exact .inr ⟨g, hg, .head' hs hx⟩
    · rintro (⟨hi, hx⟩ | ⟨g, hg, hx⟩)
      · exact ⟨x, .inl ⟨hi, hx⟩, .refl⟩
      · obtain ⟨s, hs, hx⟩ := Relation.TransGen.head'_iff.mp hx
        exact ⟨s, .inr ⟨g, hg, hs⟩, hx⟩

end Sithnapse.AuthChain
