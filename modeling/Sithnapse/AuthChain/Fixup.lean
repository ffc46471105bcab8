import Sithnapse.AuthChain.Reached

/-! `_fixup_auth_chain_difference_sets`: replacing un-indexed events.

    A waiting event's partial auth chain stops at indexed events, below which every event is indexed.
    Replacing the waiting events of a state set by their partial chains therefore splits the set's
    auth chain in two: the un-indexed part is listed outright, the indexed part is what the new
    state set reaches (`replaced_spec`). -/

namespace Sithnapse.AuthChain
open Kit Kit.Dict Kit.Chain ChainCover Iterutils List Relation

variable {E T R : Type} [LinearOrder E] [DecidableEq R] {auth : E → List E} {db : Db E T R}
  {room : R}

/-! ### Reading the waiting events -/

theorem mem_toCalculateRows {row : E × Option E × Bool} :
    row ∈ toCalculateRows db room ↔ ∃ r ∈ db.toCalculate, r.2.1 = room ∧
      ((db.selectAuth r.1 = [] ∧ row = (r.1, none, false)) ∨
        ∃ a ∈ db.selectAuth r.1, row = (r.1, some a, (db.selectChain a).isSome)) := by
  rw [toCalculateRows, mem_flatMap]
  simp only [mem_filter, decide_eq_true_eq, and_assoc]
  refine exists_congr fun r => and_congr_right fun _ => and_congr_right fun _ => ?_
  split
  · rename_i hnil
    simp [hnil]
  · rename_i hne
    rw [mem_map]
    constructor
    · rintro ⟨a, ha, rfl⟩
      exact .inr ⟨a, ha, rfl⟩
    · rintro (⟨hnil, _⟩ | ⟨a, ha, rfl⟩)
      · exact absurd hnil hne
      · exact ⟨a, ha, rfl⟩

/-- The waiting events of the room with their auth events, and the indexed events among these. -/
structure WaitingIn (db : Db E T R) (room : R) (indexed₀ : List E) (ids : Dict E (List E))
    (indexed : List E) : Prop where
  keys : ∀ e, e ∈ ids.keys ↔ ∃ r ∈ db.toCalculate, r.1 = e ∧ r.2.1 = room
  auths : ∀ e ∈ ids.keys, ∀ a, a ∈ ids.getD e [] ↔ a ∈ db.selectAuth e
  indexed : ∀ a, a ∈ indexed ↔ a ∈ indexed₀ ∨ ∃ e ∈ ids.keys, a ∈ db.selectAuth e ∧ (db.selectChain a).isSome

theorem readRows_spec (db : Db E T R) (room : R) (indexed₀ : List E) : WaitingIn db room indexed₀
      ((toCalculateRows db room).foldl readRow (Dict.empty, indexed₀)).1
      ((toCalculateRows db room).foldl readRow (Dict.empty, indexed₀)).2 := by
  obtain ⟨hkeys, hauths, hidx⟩ := foldl_visited readRow
    (fun pre (st : Dict E (List E) × List E) =>
      (∀ e, e ∈ st.1.keys ↔ ∃ row ∈ pre, row.1 = e) ∧
      (∀ e a, a ∈ st.1.getD e [] ↔ ∃ b, (e, some a, b) ∈ pre) ∧
      ∀ a, a ∈ st.2 ↔ a ∈ indexed₀ ∨ ∃ e, (e, some a, true) ∈ pre)
    (toCalculateRows db room) (s := (Dict.empty, indexed₀))
    ⟨by simp [Dict.empty, Dict.keys], by simp, by simp⟩ (by
      rintro pre ⟨e, a?, b⟩ post ⟨ids, idx⟩ - ⟨hkeys, hauths, hidx⟩
      have hkeys' : ∀ x, x ∈ (readRow (ids, idx) (e, a?, b)).1.keys ↔
          ∃ row ∈ pre ++ [(e, a?, b)], row.1 = x := by
        intro x
        cases a? <;> simp only [readRow, mem_keys_set, hkeys, mem_append, mem_singleton,
          or_and_right, exists_or, exists_eq_left, eq_comm, or_comm]
      cases a? with
      | none =>
        refine ⟨hkeys', fun x a => ?_, fun a => ?_⟩
        · simp only [readRow, getD_set, mem_append, mem_singleton, Prod.mk.injEq,
            reduceCtorEq, false_and, and_false, or_false]
          split_ifs with hx
          · rw [hx, hauths]
          · exact hauths x a
        · simp [readRow, hidx]
      | some a₀ =>
        refine ⟨hkeys', fun x a => ?_, fun a => ?_⟩
        · simp only [readRow, getD_set, mem_append, mem_singleton, Prod.mk.injEq, Option.some.injEq]
          split_ifs with hx
          · rw [mem_addIf, hauths, hx]
            simp [exists_or]
          · simp [hauths, hx]
        · simp only [readRow, mem_append, mem_singleton, Prod.mk.injEq, Option.some.injEq, exists_or]
          cases b <;> simp [hidx, or_assoc])
  have hk : ∀ e, e ∈ ((toCalculateRows db room).foldl readRow (Dict.empty, indexed₀)).1.keys ↔
      ∃ r ∈ db.toCalculate, r.1 = e ∧ r.2.1 = room := by
    intro e
    rw [hkeys e]
    constructor
    · rintro ⟨row, hrow, rfl⟩
      obtain ⟨r, hr, hroom, ⟨_, rfl⟩ | ⟨a, _, rfl⟩⟩ := mem_toCalculateRows.mp hrow
      · exact ⟨r, hr, rfl, hroom⟩
      · exact ⟨r, hr, rfl, hroom⟩
    · rintro ⟨r, hr, rfl, hroom⟩
      cases hsel : db.selectAuth r.1 with
      | nil => exact ⟨_, mem_toCalculateRows.mpr ⟨r, hr, hroom, .inl ⟨hsel, rfl⟩⟩, rfl⟩
      | cons a l =>
        exact ⟨_, mem_toCalculateRows.mpr ⟨r, hr, hroom, .inr ⟨a, by rw [hsel]; simp, rfl⟩⟩, rfl⟩
  have hrow : ∀ {e a b}, (e, some a, b) ∈ toCalculateRows db room ↔
      (∃ r ∈ db.toCalculate, r.1 = e ∧ r.2.1 = room) ∧ a ∈ db.selectAuth e ∧
        b = (db.selectChain a).isSome := by
    intro e a b
    rw [mem_toCalculateRows]
    constructor
    · rintro ⟨r, hr, hroom, ⟨_, heq⟩ | ⟨a', ha', heq⟩⟩
      · cases heq
      · cases heq
        exact ⟨⟨r, hr, rfl, hroom⟩, ha', rfl⟩
    · rintro ⟨⟨r, hr, rfl, hroom⟩, ha, rfl⟩
      exact ⟨r, hr, hroom, .inr ⟨a, ha, rfl⟩⟩
  refine ⟨hk, fun e he a => ?_, fun a => ?_⟩
  · rw [hauths e a]
    simp only [hrow, (hk e).mp he, true_and, exists_and_left, exists_eq, and_true]
  · rw [hidx a]
    simp only [hrow, hk, eq_comm]

/-! ### Partial auth chains -/

theorem mem_partialAuthChain (ids : Dict E (List E)) (auths : List E) {x : E} :
    x ∈ partialAuthChain ids auths ↔ Under (fun a => ids.getD a []) auths x := by
  have hU : ∀ a y, y ∈ ids.getD a [] → y ∈ ids.values.flatten := by
    intro a y hy
    have hk : a ∈ ids.keys := mem_keys_of_mem_getD hy
    exact mem_flatten.mpr ⟨_, mem_values_iff.mpr ⟨a, get?_of_mem_keys [] hk⟩, hy⟩
  -- what the search has seen is what was added or still waits
  obtain ⟨r, hr, hpost⟩ := search_loop (f := processAuth ids) (fun st => st.2 ++ st.1) Prod.fst
    (J := fun st => ∀ a ∈ st.1, a ∉ st.2)
    (Q := fun r => ∀ x, x ∈ r ↔ ∃ s, s ∈ auths ∧ BelowEq (fun a => ids.getD a []) s x)
    (n := ids.values.flatten.length + auths.length + 1) (s := (addAll [] auths, [])) hU
    (by
      rintro ⟨todo, added⟩ st' hdis hs hnd h
      cases todo with
      | nil => simp [processAuth] at h
      | cons a rest =>
        obtain ⟨ha, hnd'⟩ := nodup_cons.mp hnd
        have hst : st' = (addAll rest ((ids.getD a []).filter (· ∉ addIf added a)), addIf added a) := by
          simp only [processAuth] at h
          split at h
          · rename_i hnone
            rw [Dict.getD, hnone]
            exact (Sum.inl.inj h).symm
          · rename_i sub hsub
            rw [getD_of_get? hsub]
            exact (Sum.inl.inj h).symm
        subst hst
        refine ⟨?_, nodup_addAll _ hnd', [a], by simp, by simp, ?_, ?_⟩
        · intro y hy
          rcases mem_addAll.mp hy with hy | hy
          · rw [mem_addIf, not_or]
            exact ⟨hdis y (.tail _ hy), fun hc => ha (hc ▸ hy)⟩
          · simpa using (mem_filter.mp hy).2
        · intro y
          simp only [mem_addAll, mem_filter, mem_addIf, decide_eq_true_eq, mem_cons,
            mem_append, not_mem_nil, or_false, exists_eq_left]
          tauto
        · intro y
          rcases eq_or_ne y a with rfl | hya
          · simp [ha]
          · by_cases hyr : y ∈ rest <;> simp [hya, hyr, and_comm])
    (by
      rintro ⟨todo, added⟩ r - hs h x
      cases todo with
      | nil =>
        simp only [processAuth, Sum.inr.injEq] at h
        subst h
        simpa using hs.finish
      | cons a rest =>
        simp only [processAuth] at h
        split at h <;> cases h)
    (by simp) (Search.start (by simp) (by simp)) (nodup_addAll _ nodup_nil)
    (by
      have := (subperm_of_subset (nodup_addAll auths nodup_nil) fun y hy => by simpa using hy).length_le
      simp only
      omega)
  rw [partialAuthChain, hr]
  exact hpost x

/-! ### Replacing -/

/-- The tables describe the auth graph: positions are correct, and a waiting event is not indexed
    and has its auth events stored. Auth events are in the room of their event. -/
structure Described (auth : E → List E) (roomOf : E → R) (db : Db E T R) : Prop
    extends CorrectIndex auth db where
  pending : ∀ r ∈ db.toCalculate, db.selectChain r.1 = none
  rooms : ∀ r ∈ db.toCalculate, r.2.1 = roomOf r.1
  auths : ∀ r ∈ db.toCalculate, ∀ a, a ∈ db.selectAuth r.1 ↔ a ∈ auth r.1
  sameRoom : ∀ e, ∀ a ∈ auth e, roomOf a = roomOf e

variable {roomOf : E → R} {indexed₀ indexed : List E} {ids : Dict E (List E)}

omit [DecidableEq R] in
theorem Described.roomOf_below (hD : Described auth roomOf db) {e a : E} (h : BelowEq auth e a) :
    roomOf a = roomOf e := by
  induction h with
  | refl => rfl
  | tail _ he ih => exact (hD.sameRoom _ _ he).trans ih

omit [DecidableEq R] in
theorem Described.mem_ids (hD : Described auth roomOf db) (hw : WaitingIn db room indexed₀ ids indexed)
    {e a : E} : a ∈ ids.getD e [] ↔ e ∈ ids.keys ∧ a ∈ auth e := by
  by_cases he : e ∈ ids.keys
  · obtain ⟨r, hr, rfl, _⟩ := (hw.keys e).mp he
    rw [hw.auths _ he, hD.auths r hr]
    simp [he]
  · rw [getD_of_not_mem _ he]
    simp [he]

/-- The partial auth chain of a waiting event: down to the first indexed events. -/
structure PartialChain (auth : E → List E) (db : Db E T R) (indexed : List E) (e : E)
    (chain : List E) : Prop where
  sound : ∀ a ∈ chain, Below auth e a
  complete : ∀ z, Below auth e z → z ∈ chain ∨
    ∃ a ∈ chain, (∃ p, db.selectChain a = some p) ∧ BelowEq auth a z
  indexed : ∀ a ∈ chain, (a ∈ indexed ↔ ∃ p, db.selectChain a = some p)

omit [DecidableEq R] in
theorem partialChain_spec (hD : Described auth roomOf db)
    (hw : WaitingIn db room indexed₀ ids indexed)
    (h₀ : ∀ a ∈ indexed₀, db.Indexed a) {e : E} (he : e ∈ ids.keys)
    (hlist : ∀ y, BelowEq auth e y → db.Indexed y ∨ y ∈ db.toCalculate.map Prod.fst) :
    PartialChain auth db indexed e (partialAuthChain ids (ids.getD e [])) := by
  have hnext : ∀ {a b}, BelowEq (fun a => ids.getD a []) a b → BelowEq auth a b := by
    intro a b h
    induction h with
    | refl => exact .refl
    | tail _ hb ih => exact ih.tail ((hD.mem_ids hw).mp hb).2
  have hroom : roomOf e = room := by
    obtain ⟨r, hr, rfl, hroom⟩ := (hw.keys e).mp he
    rw [← hD.rooms r hr, hroom]
  refine ⟨?_, ?_, ?_⟩
  · intro a ha
    obtain ⟨s, hs, hsa⟩ := (mem_partialAuthChain ids _).mp ha
    exact TransGen.head' ((hD.mem_ids hw).mp hs).2 (hnext hsa)
  · intro z hz
    induction hz with
    | single hz =>
      exact .inl ((mem_partialAuthChain ids _).mpr ⟨_, (hD.mem_ids hw).mpr ⟨he, hz⟩, .refl⟩)
    | @tail y z hey hyz ih =>
      rcases ih with hy | ⟨a, ha, hap, hay⟩
      · rcases hlist y (Below.belowEq hey) with hp | hy'
        · exact .inr ⟨y, hy, hp, .single hyz⟩
        · -- an un-indexed event of the chain waits in the same room, so its auth events are read too
          obtain ⟨r, hr, rfl⟩ := mem_map.mp hy'
          have hk : r.1 ∈ ids.keys := (hw.keys _).mpr ⟨r, hr, rfl, by
            rw [hD.rooms r hr, hD.roomOf_below (Below.belowEq hey), hroom]⟩
          obtain ⟨s, hs, hsy⟩ := (mem_partialAuthChain ids _).mp hy
          exact .inl ((mem_partialAuthChain ids _).mpr ⟨s, hs, hsy.tail ((hD.mem_ids hw).mpr ⟨hk, hyz⟩)⟩)
      · exact .inr ⟨a, ha, hap, hay.tail hyz⟩
  · intro a ha
    obtain ⟨s, hs, hsa⟩ := (mem_partialAuthChain ids _).mp ha
    have hkey : ∃ k ∈ ids.keys, a ∈ db.selectAuth k := by
      rcases ReflTransGen.cases_tail hsa with rfl | ⟨k, _, hk⟩
      · exact ⟨e, he, (hw.auths e he _).mp hs⟩
      · have hkk := ((hD.mem_ids hw).mp hk).1
        exact ⟨k, hkk, (hw.auths k hkk _).mp hk⟩
    obtain ⟨k, hk, hak⟩ := hkey
    rw [hw.indexed, ← Option.isSome_iff_exists]
    exact ⟨fun h => h.elim (fun h => Option.isSome_iff_exists.mpr (h₀ a h)) fun ⟨_, _, _, h⟩ => h,
      fun h => .inr ⟨k, hk, hak, h⟩⟩

theorem replaceEvent_mem (indexed chain : List E) {st : List E × List E} {e : E} (he : e ∈ st.1) :
    (∀ y, y ∈ (replaceEvent indexed st (e, chain)).1 ↔
      (y ∈ st.1 ∧ y ≠ e ∧ y ∉ chain) ∨ (y ∈ chain ∧ y ∈ indexed)) ∧
    ∀ u, u ∈ (replaceEvent indexed st (e, chain)).2 ↔ (u ∈ st.2 ∨ u = e) ∨ (u ∈ chain ∧ u ∉ indexed) := by
  rw [replaceEvent, if_neg (not_not.mpr he)]
  refine foldl_visited _ (fun pre (st' : List E × List E) =>
    (∀ y, y ∈ st'.1 ↔ (y ∈ st.1 ∧ y ≠ e ∧ y ∉ chain) ∨ (y ∈ pre ∧ y ∈ indexed)) ∧
    ∀ u, u ∈ st'.2 ↔ (u ∈ st.2 ∨ u = e) ∨ (u ∈ pre ∧ u ∉ indexed)) chain ⟨?_, ?_⟩ ?_
  · intro y
    simp [and_comm]
  · simp
  · rintro pre a post st' - ⟨h1, h2⟩
    -- whether the last event counts is decided by it alone
    have hconcat : ∀ (P : E → Prop) y, y ∈ pre ++ [a] ∧ P y ↔ y ∈ pre ∧ P y ∨ y = a ∧ P a := by
      intro P y
      rw [mem_append, mem_singleton, or_and_right]
      exact or_congr_right ⟨fun h => ⟨h.1, h.1 ▸ h.2⟩, fun h => ⟨h.1, h.1 ▸ h.2⟩⟩
    split_ifs with ha
    · exact ⟨fun y => by rw [mem_addIf, h1 y, hconcat (· ∈ indexed), or_assoc, and_iff_left ha],
        fun u => by rw [h2 u, hconcat (· ∉ indexed), or_iff_left (b := u = a ∧ a ∉ indexed) fun h => h.2 ha]⟩
    · exact ⟨fun y => by rw [h1 y, hconcat (· ∈ indexed), or_iff_left (b := y = a ∧ a ∈ indexed) fun h => ha h.2],
        fun u => by rw [mem_addIf, h2 u, hconcat (· ∉ indexed), or_assoc, and_iff_left ha]⟩

/-- A state set with its waiting events replaced, and the un-indexed events below it. -/
structure Replaced (auth : E → List E) (db : Db E T R) (S S' U : List E) : Prop where
  indexed : ∀ y ∈ S', ∃ p, db.selectChain y = some p
  under : ∀ e p, db.selectChain e = some p → (Under auth S' e ↔ Under auth S e)
  unindexed : ∀ e, e ∈ U ↔ db.selectChain e = none ∧ Under auth S e

omit [DecidableEq R] in
theorem replaced_spec (hidx : CorrectIndex auth db) {S : List E} {chains : List (E × List E)}
    (hchains : ∀ p ∈ chains, Under auth S p.1 →
      db.selectChain p.1 = none ∧ PartialChain auth db indexed p.1 p.2)
    (hS : ∀ x ∈ S, db.Indexed x ∨ x ∈ chains.map Prod.fst) :
    Replaced auth db S (chains.foldl (replaceEvent indexed) (S, [])).1
      (chains.foldl (replaceEvent indexed) (S, [])).2 := by
  -- nothing of the auth chain is lost or added while events are replaced one by one
  obtain ⟨hcomplete, hsound, hunidx, hold, hgone⟩ := foldl_visited (replaceEvent indexed)
    (fun pre (st : List E × List E) =>
      (∀ e, Under auth S e → Under auth st.1 e ∨ e ∈ st.2) ∧
      (∀ y ∈ st.1, Under auth S y) ∧
      (∀ u ∈ st.2, db.selectChain u = none ∧ Under auth S u) ∧
      (∀ y ∈ st.1, y ∈ S ∨ db.Indexed y) ∧
      ∀ e ∈ pre.map Prod.fst, e ∉ st.1 ∨ db.Indexed e)
    chains (s := (S, []))
    ⟨fun _ h => .inl h, fun y hy => ⟨y, hy, .refl⟩, by simp, fun _ h => .inl h, by simp⟩ (by
      rintro pre ⟨e, chain⟩ post st hsplit ⟨hcomplete, hsound, hunidx, hold, hgone⟩
      by_cases he : e ∈ st.1
      · obtain ⟨hn, hpc⟩ := hchains (e, chain) (hsplit ▸ by simp) (hsound e he)
        obtain ⟨hst, hun⟩ := replaceEvent_mem indexed chain he
        have hbelow : ∀ {a}, a ∈ chain → Under auth S a := by
          intro a ha
          obtain ⟨x, hx, hxe⟩ := hsound e he
          exact ⟨x, hx, hxe.trans (hpc.sound a ha).belowEq⟩
        -- what is strictly below the replaced event ends up on one of the two sides
        have hsplitUp : ∀ {z}, Below auth e z →
            Under auth (replaceEvent indexed st (e, chain)).1 z ∨
              z ∈ (replaceEvent indexed st (e, chain)).2 := by
          intro z hz
          rcases hpc.complete z hz with hzc | ⟨a, ha, hap, haz⟩
          · by_cases hzi : z ∈ indexed
            · exact .inl ⟨z, (hst z).mpr (.inr ⟨hzc, hzi⟩), .refl⟩
            · exact .inr ((hun z).mpr (.inr ⟨hzc, hzi⟩))
          · exact .inl ⟨a, (hst a).mpr (.inr ⟨ha, (hpc.indexed a ha).mpr hap⟩), haz⟩
        refine ⟨?_, ?_, ?_, ?_, ?_⟩
        · intro z hz
          rcases hcomplete z hz with ⟨y, hy, hyz⟩ | hz
          · rcases eq_or_ne y e with rfl | hye
            · rcases belowEq_iff.mp hyz with rfl | hyz
              · exact .inr ((hun _).mpr (.inl (.inr rfl)))
              · exact hsplitUp hyz
            · by_cases hyc : y ∈ chain
              · exact hsplitUp (TransGen.trans_left (hpc.sound y hyc) hyz)
              · exact .inl ⟨y, (hst y).mpr (.inl ⟨hy, hye, hyc⟩), hyz⟩
          · exact .inr ((hun z).mpr (.inl (.inl hz)))
        · intro y hy
          rcases (hst y).mp hy with ⟨hy, _⟩ | ⟨hy, _⟩
          · exact hsound y hy
          · exact hbelow hy
        · intro u hu
          rcases (hun u).mp hu with (hu | rfl) | ⟨hu, hni⟩
          · exact hunidx u hu
          · exact ⟨hn, hsound u he⟩
          · refine ⟨?_, hbelow hu⟩
            rw [hpc.indexed u hu] at hni
            exact Option.eq_none_iff_forall_ne_some.mpr fun p hp => hni ⟨p, hp⟩
        · intro y hy
          rcases (hst y).mp hy with ⟨hy, _⟩ | ⟨hy, hyi⟩
          · exact hold y hy
          · exact .inr ((hpc.indexed y hy).mp hyi)
        · intro x hx
          by_cases hxp : db.Indexed x
          · exact .inr hxp
          · refine .inl fun hc => ?_
            rcases (hst x).mp hc with ⟨hx', hxe, _⟩ | ⟨hxc, hxi⟩
            · rw [map_append, mem_append] at hx
              rcases hx with hx | hx
              · exact (hgone x hx).elim (fun h => h hx') hxp
              · exact hxe (by simpa using hx)
            · exact hxp ((hpc.indexed x hxc).mp hxi)
      · have hskip : replaceEvent indexed st (e, chain) = st := by rw [replaceEvent, if_pos he]
        rw [hskip]
        refine ⟨hcomplete, hsound, hunidx, hold, ?_⟩
        intro x hx
        rw [map_append, mem_append] at hx
        rcases hx with hx | hx
        · exact hgone x hx
        · obtain rfl : x = e := by simpa using hx
          exact .inl he)
  have hindexed : ∀ y ∈ (chains.foldl (replaceEvent indexed) (S, [])).1, db.Indexed y := by
    intro y hy
    rcases hold y hy with hyS | hp
    · exact (hS y hyS).elim id fun hk => (hgone y hk).resolve_left fun hn => hn hy
    · exact hp
  refine ⟨hindexed, ?_, ?_⟩
  · intro e p he
    constructor
    · rintro ⟨y, hy, hye⟩
      obtain ⟨x, hx, hxy⟩ := hsound y hy
      exact ⟨x, hx, hxy.trans hye⟩
    · intro hu
      refine (hcomplete e hu).resolve_right fun hc => ?_
      rw [(hunidx e hc).1] at he
      cases he
  · intro e
    constructor
    · exact hunidx e
    · rintro ⟨hn, hu⟩
      refine (hcomplete e hu).resolve_left ?_
      rintro ⟨y, hy, hye⟩
      obtain ⟨p, hp⟩ := hindexed y hy
      obtain ⟨q, hq⟩ := hidx.indexed_of_belowEq hp hye
      rw [hn] at hq
      cases hq

end Sithnapse.AuthChain
