import Mathlib.Data.List.Sort
import Sithnapse.AuthChain.LegacyWalk

/-! When the legacy walk may stop early.

    Which events are read in which round depends on the auth graph and the depths alone, not on the
    missing sets: `queueAt` is that schedule. The walk stops at the first round in which all waiting
    events have been shown to be reached by every state set. What has not been read then is reached
    by every set; but an event read earlier may be reached by a set only through a waiting event, and
    is then still counted as missing. The result is the difference exactly when this does not happen
    (`ExitSafe`). -/

namespace Sithnapse.AuthChain
open Kit Kit.Dict Kit.Chain Iterutils List
open Prod (fst snd)

variable {E : Type} [LinearOrder E]

/-! ### The schedule -/

/-- The events that wait to be read, in the order of the queue, and all events seen so far. -/
structure Queue (E : Type) where
  waiting : List (ℤ × E)
  seen : List E

namespace Queue

/-- The events whose auth events have been read. -/
def read (q : Queue E) : List E := q.seen.filter (· ∉ q.waiting.map snd)

/-- The last 100 events of the queue. -/
def chunk (q : Queue E) : List E := (q.waiting.drop (q.waiting.length - 100)).map snd

def start (depth : E → ℤ) (stateSets : List (List E)) : Queue E :=
  let initial := addAll [] stateSets.flatten
  ⟨sortSearch (initial.map fun e => (depth e, e)), initial⟩

/-- Read the auth events of a chunk and queue the new ones. -/
def next (auth : E → List E) (depth : E → ℤ) (q : Queue E) : Queue E :=
  let new := addAll [] ((q.chunk.flatMap auth).filter (· ∉ q.seen))
  ⟨sortSearch (q.waiting.take (q.waiting.length - 100) ++ new.map fun e => (depth e, e)), q.seen ++ new⟩

end Queue

/-- The queue in round `k`. -/
def queueAt (auth : E → List E) (depth : E → ℤ) (stateSets : List (List E)) : ℕ → Queue E
  | 0 => Queue.start depth stateSets
  | k + 1 => (queueAt auth depth stateSets k).next auth depth

variable (auth : E → List E)

/-- The edges out of the events read so far. -/
def Queue.edges (q : Queue E) (x : E) : List E := if x ∈ q.read then auth x else []

variable (stateSets : List (List E))

/-- All state sets reach `e` through events read so far. -/
def Shown (q : Queue E) (e : E) : Prop :=
  ∀ S ∈ stateSets, Under (q.edges auth) S e

/-- All waiting events are shown to be reached. -/
def Settled (q : Queue E) : Prop :=
  ∀ p ∈ q.waiting, Shown auth stateSets q p.2

/-- Every event seen that all state sets reach is shown to be reached. -/
def Safe (q : Queue E) : Prop :=
  ∀ e ∈ q.seen, (∀ S ∈ stateSets, Under auth S e) → Shown auth stateSets q e

/-- Whenever the queue is settled, so is everything seen. -/
def ExitSafe (depth : E → ℤ) (stateSets : List (List E)) : Prop :=
  ∀ k, Settled auth stateSets (queueAt auth depth stateSets k) →
    Safe auth stateSets (queueAt auth depth stateSets k)

/-! ### Sorting -/

section Sorting

theorem searchLe_iff {p q : ℤ × E} : searchLe p q ↔ toLex p ≤ toLex q := Prod.Lex.toLex_le_toLex.symm

instance : Std.Total (searchLe (E := E)) :=
  ⟨fun p q => by simpa only [searchLe_iff] using le_total (toLex p) (toLex q)⟩

instance : IsTrans (ℤ × E) searchLe := ⟨fun p q r => by simpa only [searchLe_iff] using le_trans⟩

instance : Std.Antisymm (searchLe (E := E)) :=
  ⟨fun _ _ h h' => toLex.injective (le_antisymm (searchLe_iff.mp h) (searchLe_iff.mp h'))⟩

theorem mem_sortSearch {l : List (ℤ × E)} {p : ℤ × E} : p ∈ sortSearch l ↔ p ∈ l :=
  (perm_insertionSort _ l).mem_iff

theorem sortSearch_perm (l : List (ℤ × E)) : (sortSearch l).Perm l := perm_insertionSort _ l

/-- The sorted queue depends on its members only. -/
theorem sortSearch_congr {l l' : List (ℤ × E)} (h : l.Perm l') : sortSearch l = sortSearch l' :=
  List.Perm.eq_of_pairwise' (pairwise_insertionSort _ l) (pairwise_insertionSort _ l')
    ((sortSearch_perm l).trans (h.trans (sortSearch_perm l').symm))

end Sorting

/-! ### The schedule is a search -/

section Schedule

variable {auth : E → List E} {depth : E → ℤ} {stateSets : List (List E)} {q : Queue E}

/-- The queue and the events seen form a search of the auth graph, and every event seen is in a state
    set or an auth event of one that was read. -/
structure Scheduled (auth : E → List E) (depth : E → ℤ) (stateSets : List (List E)) (q : Queue E) :
    Prop where
  search : Search auth (fun x => ∃ S ∈ stateSets, x ∈ S) q.seen (q.waiting.map snd)
  depths : ∀ p ∈ q.waiting, p.1 = depth p.2
  nodup : (q.waiting.map snd).Nodup
  origin : ∀ e ∈ q.seen, (∃ S ∈ stateSets, e ∈ S) ∨ ∃ x ∈ q.read, e ∈ auth x

variable {x : E} {cache : AuthCache E}

theorem mem_read : x ∈ q.read ↔ x ∈ q.seen ∧ x ∉ q.waiting.map snd := by
  rw [Queue.read, mem_filter, decide_eq_true_eq]

theorem mem_edges {y : E} : y ∈ q.edges auth x ↔ x ∈ q.read ∧ y ∈ auth x := by
  rw [Queue.edges]
  split <;> simp_all

/-- Sorting a queue of events with their depths only permutes the events. -/
theorem sortSearch_events (l : List (ℤ × E)) (new : List E) :
    ((sortSearch (l ++ new.map fun e => (depth e, e))).map snd).Perm (l.map snd ++ new) := by
  have h := (sortSearch_perm (l ++ new.map fun e => (depth e, e))).map snd
  rwa [map_append, map_map, map_id''] at h
  exact fun _ => rfl

theorem Scheduled.mem_seen (h : Scheduled auth depth stateSets q) :
    x ∈ q.seen ↔ (∃ S ∈ stateSets, x ∈ S) ∨ ∃ y ∈ q.read, x ∈ auth y := by
  refine ⟨h.origin x, ?_⟩
  rintro (hx | ⟨y, hy, hx⟩)
  · exact h.search.seeds_sub x hx
  · obtain ⟨hys, hyw⟩ := mem_read.mp hy
    exact h.search.closed y hys hyw x hx

/-- At the start everything seen waits. -/
theorem start_perm (depth : E → ℤ) (stateSets : List (List E)) :
    ((Queue.start depth stateSets).waiting.map snd).Perm (Queue.start depth stateSets).seen :=
  sortSearch_events [] _

theorem scheduled_start : Scheduled auth depth stateSets (Queue.start depth stateSets) := by
  have hperm := start_perm depth stateSets
  refine ⟨Search.start (fun x => mem_initialEvents) fun x => hperm.mem_iff, ?_, ?_, ?_⟩
  · intro p hp
    obtain ⟨e, _, rfl⟩ := mem_map.mp (mem_sortSearch.mp hp)
    rfl
  · exact hperm.nodup_iff.mpr (nodup_addAll _ nodup_nil)
  · exact fun e he => .inl (mem_initialEvents.mp he)

/-- One round expands the chunk. -/
theorem next_spec (h : Scheduled auth depth stateSets q) :
    (∀ y, y ∈ (q.next auth depth).seen ↔ y ∈ q.seen ∨ ∃ x ∈ q.chunk, y ∈ auth x) ∧
    (∀ y, y ∈ (q.next auth depth).waiting.map snd ↔
      (y ∈ q.waiting.map snd ∧ y ∉ q.chunk) ∨ (y ∉ q.seen ∧ ∃ x ∈ q.chunk, y ∈ auth x)) ∧
    ((q.next auth depth).waiting.map snd).Nodup := by
  set new := addAll [] ((q.chunk.flatMap auth).filter (· ∉ q.seen)) with hdef
  have hnew : ∀ y, y ∈ new ↔ y ∉ q.seen ∧ ∃ x ∈ q.chunk, y ∈ auth x := by
    intro y
    rw [hdef, mem_addAll, mem_filter, mem_flatMap, decide_eq_true_eq, and_comm]
    simp
  have hperm : ((q.next auth depth).waiting.map snd).Perm
      ((q.waiting.take (q.waiting.length - 100)).map snd ++ new) := sortSearch_events _ _
  have hsplit : q.waiting.map snd =
      (q.waiting.take (q.waiting.length - 100)).map snd ++ q.chunk := by
    rw [Queue.chunk, ← map_append, take_append_drop]
  have hnd := h.nodup
  rw [hsplit, nodup_append] at hnd
  obtain ⟨hkeep, _, hdisj⟩ := hnd
  refine ⟨fun y => ?_, fun y => ?_, ?_⟩
  · have hseen : (q.next auth depth).seen = q.seen ++ new := rfl
    rw [hseen, mem_append, hnew]
    by_cases hy : y ∈ q.seen <;> simp [hy]
  · rw [hperm.mem_iff, mem_append, hnew, hsplit, mem_append]
    refine or_congr_left ⟨fun hy => ⟨.inl hy, fun hc => hdisj y hy y hc rfl⟩, fun hy => ?_⟩
    exact hy.1.resolve_right hy.2
  · rw [hperm.nodup_iff, nodup_append]
    refine ⟨hkeep, nodup_addAll _ nodup_nil, ?_⟩
    rintro x hx y hy rfl
    exact ((hnew x).mp hy).1 (h.search.todo_sub x (by rw [hsplit]; exact mem_append_left _ hx))

omit [LinearOrder E] in
theorem chunk_sub (hx : x ∈ q.chunk) : x ∈ q.waiting.map snd :=
  ((drop_sublist _ _).map snd).mem hx

/-- The events read after a round are those read before and the chunk. -/
theorem mem_read_next (h : Scheduled auth depth stateSets q) :
    x ∈ (q.next auth depth).read ↔ x ∈ q.read ∨ x ∈ q.chunk := by
  obtain ⟨hseen, hwait, _⟩ := next_spec h
  rw [mem_read, mem_read, hseen, hwait]
  constructor
  · rintro ⟨hx, hnot⟩
    rw [not_or, not_and_or, not_not, not_and_or, not_not] at hnot
    have hxs : x ∈ q.seen := hx.elim id fun hn => hnot.2.elim id fun hc => absurd hn hc
    exact hnot.1.imp (fun hw => ⟨hxs, hw⟩) id
  · rintro (⟨hx, hw⟩ | hx)
    · exact ⟨.inl hx, by rintro (⟨hc, _⟩ | ⟨hc, _⟩); exacts [hw hc, hc hx]⟩
    · have hxs := h.search.todo_sub x (chunk_sub hx)
      exact ⟨.inl hxs, by rintro (⟨_, hc⟩ | ⟨hc, _⟩); exacts [hc hx, hc hxs]⟩

theorem Scheduled.next (h : Scheduled auth depth stateSets q) :
    Scheduled auth depth stateSets (q.next auth depth) := by
  obtain ⟨hseen, hwait, hnd⟩ := next_spec h
  refine ⟨h.search.expand (fun x hx => chunk_sub hx) hseen hwait, ?_, hnd, ?_⟩
  · intro p hp
    rcases mem_append.mp (mem_sortSearch.mp hp) with hp | hp
    · exact h.depths p (mem_of_mem_take hp)
    · obtain ⟨e, _, rfl⟩ := mem_map.mp hp
      rfl
  · intro e he
    rcases (hseen e).mp he with he | ⟨x, hx, he⟩
    · exact (h.origin e he).imp id fun ⟨x, hx, hex⟩ => ⟨x, (mem_read_next h).mpr (.inl hx), hex⟩
    · exact .inr ⟨x, (mem_read_next h).mpr (.inr hx), he⟩

variable (auth depth stateSets) in
theorem scheduled (k : ℕ) : Scheduled auth depth stateSets (queueAt auth depth stateSets k) := by
  induction k with
  | zero => exact scheduled_start
  | succ k ih => exact ih.next

/-! ### What a settled queue means -/

theorem Shown.under {e : E} (h : Shown auth stateSets q e) : ∀ S ∈ stateSets, Under auth S e := by
  intro S hS
  obtain ⟨x, hx, hxe⟩ := h S hS
  exact ⟨x, hx, Relation.ReflTransGen.mono (fun _ _ hs => (mem_edges.mp hs).2) _ _ hxe⟩

theorem Shown.tail {e : E} (h : Shown auth stateSets q x) (hx : x ∈ q.read) (he : e ∈ auth x) :
    Shown auth stateSets q e := by
  intro S hS
  obtain ⟨y, hy, hyx⟩ := h S hS
  exact ⟨y, hy, hyx.tail (mem_edges.mpr ⟨hx, he⟩)⟩

theorem Shown.mono {e : E} {q' : Queue E} (h : Shown auth stateSets q e)
    (hread : ∀ x ∈ q.read, x ∈ q'.read) : Shown auth stateSets q' e := by
  intro S hS
  obtain ⟨x, hx, hxe⟩ := h S hS
  refine ⟨x, hx, Relation.ReflTransGen.mono (fun a b hs => ?_) _ _ hxe⟩
  obtain ⟨ha, hb⟩ := mem_edges.mp hs
  exact mem_edges.mpr ⟨hread a ha, hb⟩

/-- At a settled queue, what is counted as missing is the difference exactly when the exit is safe. -/
theorem settled_exact_iff (h : Scheduled auth depth stateSets q) (hset : Settled auth stateSets q) :
    (∀ e, (e ∈ q.seen ∧ ¬ Shown auth stateSets q e) ↔ InDifference auth stateSets e) ↔
      Safe auth stateSets q := by
  constructor
  · intro hexact e he hall
    by_contra hn
    exact ((hexact e).mp ⟨he, hn⟩).2 hall
  · intro hsafe e
    constructor
    · rintro ⟨he, hn⟩
      obtain ⟨x, ⟨S, hS, hx⟩, hxe⟩ := h.search.sound e he
      exact ⟨⟨S, hS, x, hx, hxe⟩, fun hall => hn (hsafe e he hall)⟩
    · rintro ⟨⟨S, hS, x, hx, hxe⟩, hnot⟩
      -- a path from a state set leaves the seen events only through a waiting one
      have hpath : e ∈ q.seen ∨ ∀ S ∈ stateSets, Under auth S e := by
        induction hxe with
        | refl => exact .inl (h.search.seeds_sub x ⟨S, hS, hx⟩)
        | @tail y z hxy hyz ih =>
          by_cases hall : ∀ S ∈ stateSets, Under auth S y
          · refine .inr fun S hS => ?_
            obtain ⟨w, hw, hwy⟩ := hall S hS
            exact ⟨w, hw, hwy.tail hyz⟩
          · have hy : y ∈ q.seen := (ih hall).resolve_right hall
            refine .inl (h.search.closed y hy (fun hw => hall ?_) z hyz)
            obtain ⟨p, hp, rfl⟩ := mem_map.mp hw
            exact (hset p hp).under
      exact ⟨hpath.resolve_right hnot, fun hs => hnot hs.under⟩

/-- After a safe exit every later round would be safe too. -/
theorem safe_mono {j k : ℕ} (hjk : j ≤ k)
    (hset : Settled auth stateSets (queueAt auth depth stateSets j))
    (hsafe : Safe auth stateSets (queueAt auth depth stateSets j)) :
    Safe auth stateSets (queueAt auth depth stateSets k) := by
  set queue := queueAt auth depth stateSets
  have key : (∀ x ∈ (queue j).read, x ∈ (queue k).read) ∧
      ∀ e ∈ (queue k).seen, (e ∈ (queue j).seen ∧
        (e ∉ (queue j).read → Shown auth stateSets (queue k) e)) ∨
        Shown auth stateSets (queue k) e := by
    induction k, hjk using Nat.le_induction with
    | base =>
      refine ⟨fun _ hx => hx, fun e he => .inl ⟨he, fun hn => ?_⟩⟩
      have hw : e ∈ (queue j).waiting.map snd := by
        by_contra hc
        exact hn (mem_read.mpr ⟨he, hc⟩)
      obtain ⟨p, hp, rfl⟩ := mem_map.mp hw
      exact hset p hp
    | succ k hjk ih =>
      obtain ⟨hread, hshown⟩ := ih
      have hk := scheduled auth depth stateSets k
      have hgrow : ∀ x ∈ (queue k).read,
          x ∈ (queue (k + 1)).read := fun x hx =>
        (mem_read_next hk).mpr (.inl hx)
      refine ⟨fun x hx => hgrow x (hread x hx), fun e he => ?_⟩
      rcases ((next_spec hk).1 e).mp he with he | ⟨x, hx, he⟩
      · exact (hshown e he).imp (fun h => ⟨h.1, fun hn => (h.2 hn).mono hgrow⟩) (·.mono hgrow)
      · -- an auth event of the chunk: the chunk was shown, for it was not read by round `j`
        have hxs := hk.search.todo_sub x (chunk_sub hx)
        have hxk : x ∉ (queue k).read := fun hc =>
          (mem_read.mp hc).2 (chunk_sub hx)
        have hsx : Shown auth stateSets (queue k) x :=
          (hshown x hxs).elim (fun h => h.2 fun hc => hxk (hread x hc)) id
        exact .inr ((hsx.mono hgrow).tail ((mem_read_next hk).mpr (.inr hx)) he)
  intro e he hall
  rcases key.2 e he with ⟨hes, _⟩ | hs
  · exact (hsafe e hes hall).mono key.1
  · exact hs

/-! ### The walk follows the schedule -/

/-- The walk's variables at a round of the schedule. -/
structure Tracks (auth : E → List E) (t : AuthTables E) (stateSets : List (List E)) (q : Queue E)
    (st : MissingWalk E) : Prop where
  search : st.search = q.waiting
  edges : ∀ x y, y ∈ known st.auths x ↔ y ∈ q.edges auth x
  marked : Marked stateSets st.auths st.missing
  cache : CacheOk t st.cache

variable {t : AuthTables E} {st : MissingWalk E} {D : Set E} {evict : AuthCache E → AuthCache E}

/-- No set is missing from the events that are shown to be reached. -/
theorem Tracks.missing_nil (h : Tracks auth t stateSets q st) {sets : List ℕ}
    (hx : st.missing.get? x = some sets) : sets = [] ↔ Shown auth stateSets q x := by
  have hmem : ∀ i, i ∈ sets ↔ i < stateSets.length ∧ ¬ Under (q.edges auth) (stateSets.getD i []) x := by
    intro i
    rw [h.marked.entry x sets hx, under_congr h.edges]
  constructor
  · rintro rfl S hS
    obtain ⟨i, hi, rfl⟩ := mem_iff_getElem.mp hS
    by_contra hn
    refine not_mem_nil ((hmem i).mpr ⟨hi, ?_⟩)
    rwa [getD_eq_getElem?_getD, getElem?_eq_getElem hi]
  · intro hs
    refine eq_nil_iff_forall_not_mem.mpr fun i hi => ?_
    obtain ⟨hlt, hn⟩ := (hmem i).mp hi
    rw [getD_eq_getElem?_getD, getElem?_eq_getElem hlt] at hn
    exact hn (hs _ (getElem_mem hlt))

section Rounds

variable (hq : Scheduled auth depth stateSets q)

include hq

theorem Tracks.keys (h : Tracks auth t stateSets q st) : x ∈ st.missing.keys ↔ x ∈ q.seen := by
  rw [h.marked.keys, hq.mem_seen]
  simp only [h.edges, mem_edges]

/-- The exit test asks whether the queue is settled. -/
theorem Tracks.allReached (h : Tracks auth t stateSets q st) :
    ∃ b, allReached st = some b ∧ (b = true ↔ Settled auth stateSets q) := by
  have key : ∀ l : List (ℤ × E), (∀ p ∈ l, p.2 ∈ q.seen) → ∃ b,
      (l.allM fun p => (st.missing.get? p.2).map List.isEmpty) = some b ∧
        (b = true ↔ ∀ p ∈ l, Shown auth stateSets q p.2) := by
    intro l
    induction l with
    | nil => exact fun _ => ⟨true, rfl, by simp⟩
    | cons p l ih =>
      intro hl
      obtain ⟨b, hb, hiff⟩ := ih fun p hp => hl p (.tail _ hp)
      obtain ⟨sets, hsets⟩ := mem_keys_iff.mp ((h.keys hq).mpr (hl p (.head _)))
      have hnil := h.missing_nil hsets
      cases hs : sets with
      | nil =>
        refine ⟨b, ?_, ?_⟩
        · simp [List.allM, hsets, hs, hb]
        · rw [forall_mem_cons, hiff, and_iff_right (hnil.mp hs)]
      | cons i is =>
        refine ⟨false, ?_, ?_⟩
        · simp [List.allM, hsets, hs]
        · rw [forall_mem_cons, ← hnil, hs]
          simp
  rw [AuthChain.allReached, h.search]
  exact key q.waiting fun p hp => hq.search.todo_sub _ (mem_map_of_mem hp)

/-- In the middle of reading a chunk, when the rows in `pre` have been handled. -/
structure Reading (auth : E → List E) (stateSets : List (List E)) (q : Queue E)
    (pre : List (E × E × ℤ)) (cache : AuthCache E) (st : MissingWalk E) : Prop where
  edges : ∀ x y, y ∈ known st.auths x ↔ y ∈ q.edges auth x ∨ ∃ d, (x, y, d) ∈ pre
  marked : Marked stateSets st.auths st.missing
  search : ∃ new, st.search = q.waiting.take (q.waiting.length - 100) ++ new ∧
    (new.map snd).Nodup ∧ ∀ p, p ∈ new ↔ p.2 ∉ q.seen ∧ ∃ x, (x, p.2, p.1) ∈ pre
  cache : st.cache = cache

theorem Reading.keys {pre : List (E × E × ℤ)} (h : Reading auth stateSets q pre cache st) :
    x ∈ st.missing.keys ↔ x ∈ q.seen ∨ ∃ y d, (y, x, d) ∈ pre := by
  rw [h.marked.keys, hq.mem_seen]
  simp only [h.edges, mem_edges, exists_or, or_assoc]

theorem Reading.row {pre : List (E × E × ℤ)} {e a : E} {d : ℤ}
    (h : Reading auth stateSets q pre cache st) (hac : Acyclic auth) (he : e ∈ q.seen)
    (hpre : ∀ r ∈ pre, r.2.1 ∈ auth r.1 ∧ r.2.2 = depth r.2.1) (ha : a ∈ auth e)
    (hd : d = depth a) : ∃ st', walkRow stateSets.length st (e, a, d) = some st' ∧
      Reading auth stateSets q (pre ++ [(e, a, d)]) cache st' := by
  have hsub : ∀ x, ∀ y ∈ known (st.auths.set e (addIf (st.auths.getD e []) a)) x, y ∈ auth x := by
    intro x y hy
    rcases (known_set st.auths x y).mp hy with hy | ⟨rfl, rfl⟩
    · rcases (h.edges x y).mp hy with hy | ⟨d', hy⟩
      · exact (mem_edges.mp hy).2
      · exact (hpre _ hy).1
    · exact ha
  obtain ⟨st', hst', hmarked, hedges, hsearch, hcache⟩ :=
    walkRow_spec h.marked ((h.keys hq).mpr (.inl he)) d (hac.mono hsub)
  obtain ⟨new, hnew, hnd, hmem⟩ := h.search
  refine ⟨st', hst', fun x y => ?_, hmarked, ?_, hcache.trans h.cache⟩
  · rw [hedges, h.edges, or_assoc]
    simp only [mem_append, mem_singleton, Prod.mk.injEq, exists_or]
    refine or_congr_right (or_congr_right ⟨?_, ?_⟩)
    · rintro ⟨rfl, rfl⟩
      exact ⟨d, rfl, rfl, rfl⟩
    · rintro ⟨_, rfl, rfl, _⟩
      exact ⟨rfl, rfl⟩
  · refine ⟨new ++ if a ∈ st.missing.keys then [] else [(d, a)], ?_, ?_, fun p => ?_⟩
    · rw [hsearch, hnew, append_assoc]
    · split_ifs with hak
      · simpa using hnd
      · rw [map_append, nodup_append]
        refine ⟨hnd, nodup_singleton _, ?_⟩
        rintro x hx y hy rfl
        obtain ⟨p, hp, rfl⟩ := mem_map.mp hx
        obtain ⟨_, y, hy'⟩ := (hmem p).mp hp
        have hpa : p.2 = a := by simpa using hy
        exact hak ((h.keys hq).mpr (.inr ⟨y, p.1, hpa ▸ hy'⟩))
    · simp only [mem_append, hmem, mem_singleton, Prod.mk.injEq, exists_or, and_or_left]
      split_ifs with hak
      · rw [or_iff_left not_mem_nil]
        refine ⟨.inl, fun hp => hp.elim id ?_⟩
        rintro ⟨hps, x, rfl, rfl, hpd⟩
        obtain ⟨y, d', hy⟩ := ((h.keys hq).mp hak).resolve_left hps
        refine ⟨hps, y, ?_⟩
        rw [hpd, hd, ← (hpre _ hy).2]
        exact hy
      · have has : a ∉ q.seen := fun hc => hak ((h.keys hq).mpr (.inl hc))
        rw [mem_singleton]
        refine or_congr_right ⟨?_, ?_⟩
        · rintro rfl
          exact ⟨has, e, rfl, rfl, rfl⟩
        · rintro ⟨_, x, _, hpa, hpd⟩
          exact Prod.ext hpd hpa

theorem Scheduled.stored (hD : Stored auth depth t D) (hsets : ∀ S ∈ stateSets, ∀ e ∈ S, e ∈ D) :
    ∀ e ∈ q.seen, e ∈ D := by
  intro e he
  obtain ⟨x, ⟨S, hS, hx⟩, hxe⟩ := hq.search.sound e he
  exact hD.closed (hsets S hS x hx) hxe

/-- The chunk has been read. -/
theorem Reading.finish {found : List (E × E × ℤ)} (h : Reading auth stateSets q found cache st)
    (hfound : ∀ e a d, (e, a, d) ∈ found ↔ e ∈ q.chunk ∧ a ∈ auth e ∧ d = depth a)
    (hcache : CacheOk t cache) :
    Tracks auth t stateSets (q.next auth depth) { st with search := sortSearch st.search } := by
  obtain ⟨new, hnew, hnd, hmem⟩ := h.search
  refine ⟨?_, fun x y => ?_, h.marked, by rw [h.cache]; exact hcache⟩
  · -- the new events are the same as in the schedule, so the sorted queues are equal
    rw [hnew, Queue.next]
    refine sortSearch_congr (List.Perm.append_left _ ?_)
    refine (perm_ext_iff_of_nodup hnd.of_map ?_).mpr fun p => ?_
    · exact (nodup_addAll _ nodup_nil).map fun x y hxy => (Prod.mk.inj hxy).2
    · simp only [hmem, hfound, mem_map, mem_addAll, mem_filter, mem_flatMap,
        not_mem_nil, false_or, decide_eq_true_eq]
      constructor
      · rintro ⟨hs, x, hx, ha, hd⟩
        exact ⟨p.2, ⟨⟨x, hx, ha⟩, hs⟩, Prod.ext hd.symm rfl⟩
      · rintro ⟨e, ⟨⟨x, hx, ha⟩, hs⟩, rfl⟩
        exact ⟨hs, x, hx, ha, rfl⟩
  · rw [h.edges, mem_edges, mem_edges, mem_read_next hq, or_and_right]
    refine or_congr_right ?_
    simp only [hfound]
    refine ⟨?_, fun h => ⟨_, h.1, h.2, rfl⟩⟩
    rintro ⟨_, hx, hy, _⟩
    exact ⟨hx, hy⟩

/-- A round at an unsettled queue reads the chunk. -/
theorem walkRound_next (hac : Acyclic auth) (hD : Stored auth depth t D) (hev : Evicts evict)
    (hin : ∀ e ∈ q.seen, e ∈ D) (h : Tracks auth t stateSets q st) (hns : ¬ Settled auth stateSets q) :
    ∃ st', walkRound t evict stateSets.length st = .inl st' ∧
      Tracks auth t stateSets (q.next auth depth) st' := by
  obtain ⟨b, hb, hiff⟩ := h.allReached hq
  obtain rfl : b = false := Bool.eq_false_iff.mpr fun hb => hns (hiff.mp hb)
  obtain ⟨hrows, hok⟩ := authRows_spec h.cache q.chunk
  set found := (authRows t st.cache q.chunk).1 with hfdef
  set cache := (authRows t st.cache q.chunk).2 with hcdef
  have hfound : ∀ e a d, (e, a, d) ∈ found ↔ e ∈ q.chunk ∧ a ∈ auth e ∧ d = depth a := by
    intro e a d
    rw [hrows]
    exact and_congr_right fun he => hD.row_iff (hin e (hq.search.todo_sub e (chunk_sub he)))
  obtain ⟨st', hst', hread⟩ := foldlM_visited (walkRow stateSets.length)
    (fun pre st => Reading auth stateSets q pre (evict cache) st) found
    (s := ⟨q.waiting.take (q.waiting.length - 100), st.missing, st.auths, evict cache⟩)
    ⟨fun x y => by simp [h.edges], h.marked, ⟨[], by simp, nodup_nil, by simp⟩, rfl⟩
    (by
      rintro pre ⟨e, a, d⟩ post s hsplit hs
      have hmem : ∀ r ∈ pre ++ (e, a, d) :: post, r ∈ found := fun r hr => hsplit ▸ hr
      obtain ⟨he, ha, hd⟩ := (hfound e a d).mp (hmem _ (by simp))
      refine hs.row hq hac (hq.search.todo_sub e (chunk_sub he)) (fun r hr => ?_) ha hd
      exact ((hfound _ _ _).mp (hmem r (mem_append_left _ hr))).2)
  refine ⟨_, ?_, hread.finish hq hfound (hok.evicted hev)⟩
  simp only [walkRound, hb, h.search]
  rw [← Queue.chunk, ← hfdef, ← hcdef, hst']

/-- At a settled queue the walk stops with the events that are not shown to be reached. -/
theorem walkRound_exit (t : AuthTables E) (evict : AuthCache E → AuthCache E)
    (h : Tracks auth t stateSets q st) (hs : Settled auth stateSets q) :
    ∃ r, walkRound t evict stateSets.length st = .inr (some r) ∧ ∀ e, e ∈ r ↔ e ∈ q.seen ∧ ¬ Shown auth stateSets q e := by
  obtain ⟨b, hb, hiff⟩ := h.allReached hq
  obtain rfl : b = true := hiff.mpr hs
  refine ⟨(st.missing.entries.filter fun p => p.2 ≠ []).map fst, by simp only [walkRound, hb],
    fun e => ?_⟩
  rw [mem_map, ← h.keys hq]
  constructor
  · rintro ⟨⟨e, sets⟩, hp, rfl⟩
    rw [mem_filter, decide_eq_true_eq, ← get?_eq_some_iff] at hp
    exact ⟨mem_keys_iff.mpr ⟨sets, hp.1⟩, fun hc => hp.2 ((h.missing_nil hp.1).mpr hc)⟩
  · rintro ⟨he, hn⟩
    obtain ⟨sets, hsets⟩ := mem_keys_iff.mp he
    refine ⟨(e, sets), ?_, rfl⟩
    rw [mem_filter, decide_eq_true_eq, ← get?_eq_some_iff]
    exact ⟨hsets, fun hc => hn ((h.missing_nil hsets).mp hc)⟩

end Rounds

/-- The first queue holds every event of the state sets with its depth. -/
theorem search_start (hD : Stored auth depth t D) (hsets : ∀ S ∈ stateSets, ∀ e ∈ S, e ∈ D) :
    sortSearch ((batchIter (addAll [] stateSets.flatten) 1000).flatMap t.selectDepth) =
      (Queue.start depth stateSets).waiting := by
  set initial := addAll [] stateSets.flatten with hinit
  have hnd : initial.Nodup := nodup_addAll _ nodup_nil
  have hmem : ∀ {l : List E} {p : ℤ × E}, p ∈ t.selectDepth l ↔ p.2 ∈ l ∧ (p.2, p.1) ∈ t.events := by
    intro l p
    rw [AuthTables.selectDepth, mem_map]
    constructor
    · rintro ⟨r, hr, rfl⟩
      rw [mem_filter, decide_eq_true_eq] at hr
      exact ⟨hr.2, hr.1⟩
    · rintro ⟨hl, hp⟩
      exact ⟨p.swap, mem_filter.mpr ⟨hp, decide_eq_true hl⟩, Prod.swap_swap p⟩
  have hparts : (batchIter initial 1000).flatten.Nodup := by
    rwa [flatten_batchIter initial (by decide)]
  refine sortSearch_congr ((perm_ext_iff_of_nodup ?_ ?_).mpr fun p => ?_)
  · rw [nodup_flatMap]
    refine ⟨fun l _ => (hD.keyed.of_map.filter _).map Prod.swap_injective, ?_⟩
    refine (nodup_flatten.mp hparts).2.imp fun hdisj p hp hp' => ?_
    exact hdisj (hmem.mp hp).1 (hmem.mp hp').1
  · exact hnd.map fun x y hxy => (Prod.mk.inj hxy).2
  · rw [mem_flatMap, mem_map]
    constructor
    · rintro ⟨l, hl, hp⟩
      obtain ⟨hpl, hpe⟩ := hmem.mp hp
      have hpi : p.2 ∈ initial := (mem_batchIter (by decide)).mp ⟨l, hl, hpl⟩
      obtain ⟨S, hS, hpS⟩ := mem_initialEvents.mp hpi
      exact ⟨p.2, hpi, Prod.ext ((hD.depth_iff (hsets S hS _ hpS)).mp hpe).symm rfl⟩
    · rintro ⟨e, he, rfl⟩
      obtain ⟨l, hl, hel⟩ := (mem_batchIter (by decide : 0 < 1000)).mpr he
      obtain ⟨S, hS, heS⟩ := mem_initialEvents.mp he
      exact ⟨l, hl, hmem.mpr ⟨hel, hD.depths e (hsets S hS e heS)⟩⟩

theorem known_empty (x : E) : known (Dict.empty : Dict E (List E)) x = [] := rfl

/-- Before anything is read, a set misses the events it does not contain. -/
theorem marked_start : Marked stateSets Dict.empty
    (Dict.ofList ((addAll [] stateSets.flatten).map fun e => (e, initialMissing stateSets e))) := by
  have hnd : (((addAll [] stateSets.flatten).map fun e =>
      (e, initialMissing stateSets e)).map fst).Nodup := by
    rw [map_map]
    simpa [Function.comp_def] using nodup_addAll stateSets.flatten nodup_nil
  refine ⟨fun x => ?_, fun y hy => absurd rfl hy, fun x sets hx i => ?_⟩
  · rw [mem_keys_ofList, map_map, ← mem_initialEvents]
    simp [known_empty]
  · obtain ⟨e, _, heq⟩ := mem_map.mp ((get?_ofList hnd).mp hx)
    obtain ⟨rfl, rfl⟩ := Prod.mk.inj heq
    have hunder : ∀ S : List E, Under (known Dict.empty) S e ↔ e ∈ S := by
      intro S
      constructor
      · rintro ⟨y, hy, hye⟩
        rcases hye.cases_tail with rfl | ⟨z, _, hz⟩
        · exact hy
        · cases hz
      · exact fun he => ⟨e, he, .refl⟩
    rw [initialMissing, mem_filter, mem_range, decide_eq_true_eq, hunder]

omit [LinearOrder E] in
theorem chunk_ne_nil (h : q.waiting ≠ []) : q.chunk ≠ [] := by
  have hlen := length_pos_iff.mpr h
  rw [Queue.chunk, ← length_pos_iff, length_map, length_drop]
  omega

/-- The walk returns, and what it returns is the auth chain difference exactly when every exit the
    schedule allows is safe. -/
theorem legacy_difference_iff {cache : AuthCache E} (hac : Acyclic auth) (hD : Stored auth depth t D)
    (hsets : ∀ S ∈ stateSets, ∀ e ∈ S, e ∈ D) (hev : Evicts evict) (hcache : CacheOk t cache)
    (hne : stateSets ≠ []) :
    ∃ r, getAuthChainDifference t evict cache stateSets = .ok r ∧
      ((∀ e, e ∈ r ↔ InDifference auth stateSets e) ↔ ExitSafe auth depth stateSets) := by
  set start : MissingWalk E := ⟨(Queue.start depth stateSets).waiting,
    Dict.ofList ((addAll [] stateSets.flatten).map fun e => (e, initialMissing stateSets e)),
    Dict.empty, cache⟩ with hstart
  have hread : (Queue.start depth stateSets).read = [] := by
    refine eq_nil_iff_forall_not_mem.mpr fun x hx => ?_
    obtain ⟨hxs, hxw⟩ := mem_read.mp hx
    exact hxw ((start_perm depth stateSets).mem_iff.mpr hxs)
  have htracks : Tracks auth t stateSets (Queue.start depth stateSets) start :=
    ⟨rfl, fun x y => by simp [mem_edges, hread, hstart, known_empty], marked_start, hcache⟩
  set queue := queueAt auth depth stateSets
  have hq := scheduled auth depth stateSets
  have hsearch : Search t.next (fun x => ∃ S ∈ stateSets, x ∈ S) start.missing.keys
      (start.search.map snd) :=
    Search.start (fun x => (htracks.keys (hq 0)).trans mem_initialEvents)
      fun x => (start_perm depth stateSets).mem_iff.trans (htracks.keys (hq 0)).symm
  have hin := fun k => (hq k).stored hD hsets
  obtain ⟨r, hr, l, k, rfl, hset, hfirst, hl⟩ := search_loop
    (f := walkRound t evict stateSets.length)
    (fun st => st.missing.keys) (fun st => st.search.map snd)
    (J := fun st => ∃ k, Tracks auth t stateSets (queue k) st ∧
      ∀ j < k, ¬ Settled auth stateSets (queue j))
    (Q := fun r => ∃ l k, r = some l ∧ Settled auth stateSets (queue k) ∧
      (∀ j < k, ¬ Settled auth stateSets (queue j)) ∧
      ∀ e, e ∈ l ↔ e ∈ (queue k).seen ∧
        ¬ Shown auth stateSets (queue k) e)
    (U := t.eventAuth.map snd)
    (n := (addAll [] stateSets.flatten).length + t.eventAuth.length + 1) (s := start)
    (fun x y => mem_eventAuth_of_next)
    (by
      rintro st st' ⟨k, htr, hfirst⟩ _ _ hround
      have hns : ¬ Settled auth stateSets (queue k) := by
        intro hs
        obtain ⟨r, hr, _⟩ := walkRound_exit (hq k) t evict htr hs
        rw [hr] at hround
        cases hround
      obtain ⟨st'', hst'', htr'⟩ := walkRound_next (hq k) hac hD hev (hin k) htr hns
      obtain rfl := Sum.inl.inj (hst''.symm.trans hround)
      obtain ⟨hseen, hwait, hnd⟩ := next_spec (hq k)
      have hauth : ∀ x ∈ (queue k).chunk, ∀ y, y ∈ t.next x ↔ y ∈ auth x :=
        fun x hx y => hD.next_iff (hin k x ((hq k).search.todo_sub x (chunk_sub hx)))
      have hex : ∀ y, (∃ x ∈ (queue k).chunk, y ∈ t.next x) ↔
          ∃ x ∈ (queue k).chunk, y ∈ auth x := fun y =>
        exists_congr fun x => and_congr_right fun hx => hauth x hx y
      refine ⟨⟨k + 1, htr', fun j hj => ?_⟩, by rw [htr'.search]; exact hnd,
        (queue k).chunk, ?_, fun x hx => by rw [htr.search]; exact chunk_sub hx,
        fun y => ?_, fun y => ?_⟩
      · rcases Nat.lt_succ_iff_lt_or_eq.mp hj with hj | rfl
        · exact hfirst j hj
        · exact hns
      · refine chunk_ne_nil fun hnil => hns fun p hp => ?_
        rw [hnil] at hp
        cases hp
      · rw [htr'.keys (hq k).next, htr.keys (hq k), hex]
        exact hseen y
      · rw [htr'.search, htr.search, htr.keys (hq k), hex]
        exact hwait y)
    (by
      rintro st r ⟨k, htr, hfirst⟩ _ hround
      by_cases hs : Settled auth stateSets (queue k)
      · obtain ⟨l, hl, hmem⟩ := walkRound_exit (hq k) t evict htr hs
        exact ⟨l, k, (Sum.inr.inj (hl.symm.trans hround)).symm, hs, hfirst, hmem⟩
      · obtain ⟨st', hst', _⟩ := walkRound_next (hq k) hac hD hev (hin k) htr hs
        rw [hst'] at hround
        cases hround)
    ⟨0, htracks, fun j hj => absurd hj (Nat.not_lt_zero j)⟩
    hsearch (hq 0).nodup
    (by
      have hlen : (start.search.map snd).length = (addAll [] stateSets.flatten).length :=
        (start_perm depth stateSets).length_eq
      rw [hlen, length_map]
      omega)
  refine ⟨l, ?_, ?_⟩
  · rw [getAuthChainDifference, if_neg hne]
    simp only [search_start hD hsets, ← hstart, hr]
    rfl
  · simp only [hl]
    rw [settled_exact_iff (hq k) hset]
    refine ⟨fun hsafe j hj => ?_, fun hsafe => hsafe k hset⟩
    rcases lt_or_ge j k with hlt | hle
    · exact absurd hj (hfirst j hlt)
    · exact safe_mono hle hset hsafe

end Schedule

/-! A graph with four events: 3 and 4 have the auth event 1, which has the auth event 0. -/

def forkAuth : ℕ → List ℕ
  | 1 => [0]
  | 3 => [1]
  | 4 => [1]
  | _ => []

def forkDepth (e : ℕ) : ℤ := e

def forkTables : AuthTables ℕ := ⟨[(0, 0), (1, 1), (3, 3), (4, 4)], [(1, 0), (3, 1), (4, 1)]⟩

theorem forkAuth_lt {e a : ℕ} (ha : a ∈ forkAuth e) : a < e := by
  unfold forkAuth at ha
  split at ha <;> simp_all

theorem forkAuth_acyclic : Acyclic forkAuth := acyclic_of_rank id fun _ _ => forkAuth_lt

theorem forkAuth_le {x e : ℕ} (h : BelowEq forkAuth x e) : e ≤ x := by
  induction h with
  | refl => exact le_refl _
  | tail _ hs ih => exact (forkAuth_lt hs).le.trans ih

theorem forkTables_stored : Stored forkAuth forkDepth forkTables {e | e ∈ [0, 1, 3, 4]} where
  keyed := by decide
  depths := by
    have h : ∀ e ∈ [0, 1, 3, 4], (e, forkDepth e) ∈ forkTables.events := by decide
    exact h
  auths := by
    intro e he a
    have he : e ∈ [0, 1, 3, 4] := he
    fin_cases he <;> simp [forkTables, forkAuth]
  down := by
    have h : ∀ e ∈ [0, 1, 3, 4], ∀ a ∈ forkAuth e, a ∈ [0, 1, 3, 4] := by decide
    exact h

theorem evicts_id : Evicts (id : AuthCache ℕ → AuthCache ℕ) := fun _ _ _ h => h

/-- For the state sets {3} and {1} the walk settles after one round, and safely. -/
theorem fork_exitSafe : ExitSafe forkAuth forkDepth [[3], [1]] := by
  have h31 : 1 ∈ (queueAt forkAuth forkDepth [[3], [1]] 1).edges forkAuth 3 := by decide
  have h10 : 0 ∈ (queueAt forkAuth forkDepth [[3], [1]] 1).edges forkAuth 1 := by decide
  have hone : Shown forkAuth [[3], [1]] (queueAt forkAuth forkDepth [[3], [1]] 1) 1 := by
    intro S hS
    fin_cases hS
    · exact ⟨3, mem_singleton_self 3, .single h31⟩
    · exact ⟨1, mem_singleton_self 1, .refl⟩
  have hzero : Shown forkAuth [[3], [1]] (queueAt forkAuth forkDepth [[3], [1]] 1) 0 := by
    intro S hS
    obtain ⟨x, hx, hxo⟩ := hone S hS
    exact ⟨x, hx, hxo.tail h10⟩
  have hthree : ¬ ∀ S ∈ [[3], [1]], Under forkAuth S 3 := by
    intro h
    obtain ⟨x, hx, hx3⟩ := h [1] (by decide)
    have hle := forkAuth_le hx3
    rw [mem_singleton.mp hx] at hle
    exact absurd hle (by decide)
  have hset : Settled forkAuth [[3], [1]] (queueAt forkAuth forkDepth [[3], [1]] 1) := by
    intro p hp
    have hp : p ∈ [((0 : ℤ), 0)] := hp
    rw [mem_singleton.mp hp]
    exact hzero
  intro k hk
  cases k with
  | zero => exact absurd (hk (3, 3) (by decide)).under hthree
  | succ k =>
    refine safe_mono (Nat.succ_le_succ (Nat.zero_le k)) hset fun e he hall => ?_
    have he : e ∈ [3, 1, 0] := he
    fin_cases he
    · exact absurd hall hthree
    · exact hone
    · exact hzero

theorem legacy_difference_fork : ∃ r, getAuthChainDifference forkTables id Dict.empty [[3], [1]] = .ok r ∧
      ∀ e, e ∈ r ↔ InDifference forkAuth [[3], [1]] e := by
  have hsets : ∀ S ∈ [[3], [1]], ∀ e ∈ S, e ∈ [0, 1, 3, 4] := by decide
  obtain ⟨r, hr, hiff⟩ := legacy_difference_iff forkAuth_acyclic forkTables_stored hsets evicts_id
    cacheOk_empty (cons_ne_nil _ _)
  exact ⟨r, hr, hiff.mpr fork_exitSafe⟩

/-- For the state sets {3} and {4, 0} the walk stops after one round, when only 1 waits, which both
    sets reach. Event 0 is below it but was read in the first round, and is returned although both
    sets reach it. The depths are a topological order. -/
theorem legacy_exits_early : (∀ e, ∀ a ∈ forkAuth e, forkDepth a < forkDepth e) ∧
    Stored forkAuth forkDepth forkTables {e | e ∈ [0, 1, 3, 4]} ∧
    getAuthChainDifference forkTables id Dict.empty [[3], [4, 0]] = .ok [3, 4, 0] ∧
    ¬ InDifference forkAuth [[3], [4, 0]] 0 := by
  refine ⟨fun e a ha => Int.ofNat_lt.mpr (forkAuth_lt ha), forkTables_stored, rfl, fun h => h.2 ?_⟩
  intro S hS
  fin_cases hS
  · have h31 : Edge forkAuth 3 1 := mem_singleton_self 1
    have h10 : Edge forkAuth 1 0 := mem_singleton_self 0
    exact ⟨3, mem_singleton_self 3, (Relation.ReflTransGen.single h31).tail h10⟩
  · exact ⟨0, by decide, .refl⟩

end Sithnapse.AuthChain
