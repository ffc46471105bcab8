import Sithnapse.ChainCover.Collect
import Sithnapse.ChainCover.NewLinks

/-! What one calculation hands out, and that the index it grows stays correct. -/

namespace Sithnapse.ChainCover
open Kit Kit.Dict Kit.Chain Iterutils List

variable {E T R : Type} [LinearOrder E]

/-- The positions after a calculation: those in the database and the new ones. -/
def placed (db : Db E T R) (ret : Dict E NewEventChainLinks) (e : E) : Option Pos :=
  (db.selectChain e).or (Dict.lookupIn e (newChainRows ret))

/-- The links after a calculation. -/
def grownLinks (db : Db E T R) (ret : Dict E NewEventChainLinks) : Set Link :=
  db.links.linkSet ∪ {l | l ∈ newChainLinks ret}

/-- What a calculation on `db` returns: positions, links, and the table of deferred events. -/
structure Calculated (auth : E → List E) (db : Db E T R) (b : Batch E T R)
    (table : List (E × R × T)) (ret : Dict E NewEventChainLinks) : Prop where
  unindexed : ∀ e ∈ ret.keys, db.selectChain e = none
  rows : ∀ r ∈ table, r ∈ db.toCalculate ∨ (r.1 ∈ b.eventToRoomId.keys ∧ r.1 ∉ ret.keys)
  one_le : ∀ {e x}, ret.get? e = some x → 1 ≤ x.sequenceNumber
  above : ∀ {e x}, ret.get? e = some x → ∀ r ∈ db.chains, r.2.1 = x.chainId → r.2.2 < x.sequenceNumber
  distinct : ((newChainRows ret).map Prod.snd).Nodup
  down : ∀ {e x s}, ret.get? e = some x → x.sequenceNumber = s + 1 → 1 ≤ s →
    ∃ a ∈ auth e, placed db ret a = some (x.chainId, s)
  links : ∀ {e x q}, ret.get? e = some x → q ∈ x.links →
    x.chainId ≠ q.1 ∧ ∃ a ∈ auth e, placed db ret a = some q
  edges : ∀ {e x}, ret.get? e = some x → ∀ a ∈ auth e, ∃ q, placed db ret a = some q ∧
    ((x.chainId = q.1 ∧ q.2 ≤ x.sequenceNumber) ∨ q ∈ x.links ∨ ∃ b ∈ auth e, b ≠ a ∧
      ∃ r, placed db ret b = some r ∧ Covers (grownLinks db ret) r q)

section Rows

omit [LinearOrder E] in
theorem keys_newChainRows (ret : Dict E NewEventChainLinks) : (newChainRows ret).map Prod.fst = ret.keys := by
  rw [newChainRows, map_map]
  rfl

variable {ret : Dict E NewEventChainLinks}

theorem mem_newChainRows {e : E} {p : Pos} :
    (e, p) ∈ newChainRows ret ↔ ∃ x, ret.get? e = some x ∧ p = (x.chainId, x.sequenceNumber) := by
  simp only [newChainRows, mem_map, get?_eq_some_iff]
  constructor
  · rintro ⟨⟨e', x⟩, hx, h⟩
    cases h
    exact ⟨x, hx, rfl⟩
  · rintro ⟨x, hx, rfl⟩
    exact ⟨(e, x), hx, rfl⟩

theorem lookup_newChainRows {e : E} {p : Pos} : Dict.lookupIn e (newChainRows ret) = some p ↔
      ∃ x, ret.get? e = some x ∧ p = (x.chainId, x.sequenceNumber) := by
  rw [lookupIn_eq_some (by rw [keys_newChainRows]; exact ret.nodup), mem_newChainRows]

theorem placed_new {db : Db E T R} {e : E} {x : NewEventChainLinks}
    (hn : db.selectChain e = none) (hx : ret.get? e = some x) :
    placed db ret e = some (x.chainId, x.sequenceNumber) := by
  rw [placed, hn, Option.none_or]
  exact lookup_newChainRows.mpr ⟨x, hx, rfl⟩

theorem placed_old {db : Db E T R} (ret : Dict E NewEventChainLinks) {e : E} {p : Pos}
    (h : db.selectChain e = some p) : placed db ret e = some p := by
  rw [placed, h]
  rfl

end Rows

/-! ### The calculation -/

section Calculation

variable {auth : E → List E} {db : Db E T R} {b : Batch E T R} {c : Calc E T} {events : List E}
  {table : List (E × R × T)} {new : Dict E Pos} {st : LinkMap × Dict E NewEventChainLinks}

/-- The result of the link loop, read against the database. -/
theorem calculated_of_linked (hac : Acyclic auth) (ht : Tables auth db) (hc : Loaded auth db b c)
    (hd : Deferred auth db b c events table)
    (hnew : NewPositions db.chains (fun e => c.eventToAuthChain.getD e []) c.chainMap
      (sortedTopologically events c.eventToAuthChain) new)
    (hlink : Linked auth (c.chainMap.update new.entries) db.links.linkSet
      (sortedTopologically events c.eventToAuthChain)
      (sortedTopologically events c.eventToAuthChain) st) :
    Calculated auth db b table st.2 := by
  set order := sortedTopologically events c.eventToAuthChain with horder
  have hacd := hc.acyclic_deps hac events
  have hmem : ∀ e, e ∈ order ↔ e ∈ events := fun e => mem_topo hacd
  have hget : ∀ a, (c.chainMap.update new.entries).get? a = (new.get? a).or (c.chainMap.get? a) :=
    get?_update_entries _ _
  have hunind : ∀ e ∈ order, db.selectChain e = none := fun e he =>
    hc.unindexed e (hd.sub e ((hmem e).mp he))
  -- an entry of the result is a new position, and the other way round
  have hpos : ∀ {e x}, st.2.get? e = some x → new.get? e = some (x.chainId, x.sequenceNumber) := by
    intro e x hx
    have hek : e ∈ new.keys := by
      rw [hnew.keys, ← hlink.keys]
      exact mem_keys_iff.mpr ⟨x, hx⟩
    obtain ⟨p, hp⟩ := mem_keys_iff.mp hek
    have h := hlink.pos hx
    rw [hget, hp, Option.some_or] at h
    exact hp.trans h
  have hplaced_new : ∀ {a p}, new.get? a = some p → placed db st.2 a = some p := by
    intro a p hp
    have hak : a ∈ order := hnew.keys ▸ mem_keys_iff.mpr ⟨p, hp⟩
    obtain ⟨x, hx⟩ := mem_keys_iff.mp (hlink.keys ▸ hak : a ∈ st.2.keys)
    rw [placed_new (hunind a hak) hx, ← hpos hx, hp]
  have hplaced : ∀ {a p}, (c.chainMap.update new.entries).get? a = some p → placed db st.2 a = some p := by
    intro a p hp
    rcases Option.or_eq_some_iff.mp (hget a ▸ hp) with hp | ⟨-, hp⟩
    · exact hplaced_new hp
    · exact placed_old _ (hc.placed hp)
  constructor
  · intro e he
    exact hunind e (hlink.keys ▸ he)
  · intro r hr
    refine (hd.rows r hr).imp_right fun h => ⟨h.1, fun hk => h.2 ?_⟩
    rw [hlink.keys] at hk
    exact (hmem _).mp hk
  · intro e x hx
    exact hnew.one_le (hpos hx)
  · intro e x hx
    exact hnew.above (hpos hx)
  · refine List.Nodup.map_on ?_ ?_
    · rintro ⟨e, p⟩ he ⟨e', p'⟩ he' hp
      obtain ⟨x, hx, rfl⟩ := mem_newChainRows.mp he
      obtain ⟨y, hy, hyp⟩ := mem_newChainRows.mp he'
      obtain rfl : e = e' := hnew.injective (hpos hx) (by rw [hpos hy, ← hyp]; exact congrArg some hp.symm)
      exact Prod.ext rfl hp
    · exact List.Nodup.of_map Prod.fst (by rw [keys_newChainRows]; exact st.2.nodup)
  · intro e x s hx hs h1
    have he := hpos hx
    rw [hs] at he
    obtain ⟨a, ha, hcase⟩ := hnew.down he h1
    have hee : e ∈ events := (hmem e).mp (hlink.keys ▸ mem_keys_iff.mpr ⟨x, hx⟩)
    refine ⟨a, (hc.mem_auths (hd.sub e hee) a).mp ha, ?_⟩
    rcases hcase with h | h
    · exact hplaced_new h
    · exact placed_old _ (hc.placed h)
  · intro e x q hx hq
    obtain ⟨hne, a, ha, h⟩ := hlink.sound hx hq
    exact ⟨hne, a, ha, hplaced h⟩
  · intro e x hx a ha
    have heo : e ∈ order := hlink.keys ▸ mem_keys_iff.mpr ⟨x, hx⟩
    have hee := (hmem e).mp heo
    obtain ⟨q, hq, hcase⟩ := hlink.edges heo hx a ha
    refine ⟨q, hplaced hq, ?_⟩
    rcases hcase with hc' | hl | ⟨b, hb, hne, r, hr, hcov⟩
    · refine .inl ⟨hc', ?_⟩
      rcases Option.or_eq_some_iff.mp (hget a ▸ hq) with hn | ⟨-, hq⟩
      · obtain ⟨l, r, hsplit⟩ := append_of_mem heo
        have hak : a ∈ events := (hmem a).mp (hnew.keys ▸ mem_keys_iff.mpr ⟨q, hn⟩)
        have hal : a ∈ l := topo_before hacd hsplit ((hc.mem_auths (hd.sub e hee) a).mpr ha) hak
        exact (hnew.before hsplit hal hn (hpos hx) hc'.symm).le
      · exact (hnew.above (hpos hx) _ ((lookupIn_eq_some ht.keyed).mp (hc.placed hq)) hc'.symm).le
    · exact .inr (.inl hl)
    · exact .inr (.inr ⟨b, hb, hne, r, hplaced hr, hcov⟩)

/-- With nothing to index, the result is empty. -/
theorem calculated_nil (hd : Deferred auth db b c [] table) :
    Calculated auth db b table (Dict.empty : Dict E NewEventChainLinks) :=
  ⟨nofun, fun r hr => (hd.rows r hr).imp_right fun h => ⟨h.1, h.2⟩,
    by simp, by simp, nodup_nil, by simp, by simp, by simp⟩

/-- The calculation succeeds on every valid batch. -/
theorem calculate_spec [DecidableEq T] [DecidableEq R] {gen : ℕ → List ℕ} (hac : Acyclic auth)
    (hauth : ∀ e, (auth e).Nodup) (ht : Tables auth db) (hb : b.Valid auth db)
    (hw : b.Waiting db) (hgen : FreshIds db.chains gen) :
    ∃ table ret, calculateChainCoverIndex db gen b = some ({ db with toCalculate := table }, ret) ∧
      Calculated auth db b table ret := by
  obtain ⟨c, hfetch, hc⟩ := fetchMissing_spec hac ht (addPending_loaded ht hauth hb hw)
  obtain ⟨events, table, hdefer, hd⟩ := deferEvents_spec hac hc
  rcases eq_or_ne events ([]) with rfl | hev
  · exact ⟨table, Dict.empty, by simp [calculateChainCoverIndex, hfetch, hdefer], calculated_nil hd⟩
  have hacd := hc.acyclic_deps hac events
  have hmem : ∀ e, e ∈ sortedTopologically events c.eventToAuthChain ↔ e ∈ events :=
    fun e => mem_topo hacd
  have hauths : ∀ e ∈ events, ∀ a, a ∈ c.eventToAuthChain.getD e [] ↔ a ∈ auth e :=
    fun e he => hc.mem_auths (hd.sub e he)
  obtain ⟨new, hnew, hpos⟩ := allocateChainIds_spec (sortedTopologically events c.eventToAuthChain)
    c.eventToTypes c.eventToAuthChain hgen
    (fun h => (lookupIn_eq_some ht.keyed).mp (hc.placed h)) (topo_nodup hacd) (by
      intro l e r hsplit a ha
      have hee : e ∈ events := (hmem e).mp (hsplit ▸ by simp)
      rcases hd.known e hee a ((hauths e hee a).mp ha) with hp | hae
      · exact .inr hp
      · exact .inl (topo_before hacd hsplit ha hae))
  obtain ⟨m, hload, hm⟩ := loadLinks_spec db.links ht.leaves
    (nodup_addAll ((c.chainMap.update new.entries).values.map Prod.fst) nodup_nil)
  have hinitnd : ((new.entries.map fun p => (p.1, NewEventChainLinks.mk p.2.1 p.2.2 [])).map
      Prod.fst).Nodup := by
    rw [map_map]
    exact new.nodup
  have hinit : ∀ {e x}, (Dict.ofList (new.entries.map fun p =>
      (p.1, NewEventChainLinks.mk p.2.1 p.2.2 []))).get? e = some x →
      new.get? e = some (x.chainId, x.sequenceNumber) ∧ x.links = [] := by
    intro e x hx
    rw [get?_ofList hinitnd, mem_map] at hx
    obtain ⟨⟨e', p⟩, hp, heq⟩ := hx
    cases heq
    exact ⟨get?_eq_some_iff.mpr hp, rfl⟩
  obtain ⟨st, hst, hlink⟩ := foldlM_visited
    (linkEvent (c.chainMap.update new.entries) c.eventToAuthChain)
    (fun pre st => Linked auth (c.chainMap.update new.entries) db.links.linkSet
      (sortedTopologically events c.eventToAuthChain) pre st)
    (sortedTopologically events c.eventToAuthChain)
    (s := (m, Dict.ofList (new.entries.map fun p => (p.1, NewEventChainLinks.mk p.2.1 p.2.2 []))))
    ⟨by
        rw [Dict.keys, entries_ofList hinitnd, map_map]
        exact hpos.keys,
      fun hx => by rw [get?_update_entries, (hinit hx).1]; rfl,
      fun hx _ => (hinit hx).2,
      fun hx hq => by rw [(hinit hx).2] at hq; exact absurd hq not_mem_nil,
      hm.trans Set.subset_union_left, nofun⟩
    (by
      rintro pre e post st hsplit hlink
      have heo : e ∈ sortedTopologically events c.eventToAuthChain := hsplit ▸ by simp
      have hee := (hmem e).mp heo
      refine hlink.step heo ?_ (hauths e hee) ?_ ?_
      · exact not_mem_of_nodup (hsplit ▸ topo_nodup hacd)
      · cases hg : c.eventToAuthChain.get? e with
        | none => rw [Dict.getD, hg]; exact nodup_nil
        | some l => rw [getD_of_get? hg]; exact (hc.auths hg).2
      · intro a ha
        rw [get?_update_entries]
        rcases hd.known e hee a ha with ⟨p, hp⟩ | hae
        · cases hn : new.get? a with
          | none => exact ⟨p, by rw [hp]; rfl⟩
          | some q => exact ⟨q, rfl⟩
        · have hak : a ∈ new.keys := hpos.keys ▸ (hmem a).mpr hae
          obtain ⟨q, hq⟩ := mem_keys_iff.mp hak
          exact ⟨q, by rw [hq]; rfl⟩)
  refine ⟨table, st.2, ?_, calculated_of_linked hac ht hc hd hpos hlink⟩
  simp [calculateChainCoverIndex, hfetch, hdefer, hev, hnew, hload, hst]

end Calculation

/-! ### Growing the index -/

/-- Who owns which position after a calculation, given who owned them before. -/
def grownSlots (slot : Pos → Option E) (ret : Dict E NewEventChainLinks) (p : Pos) : Option E :=
  (slot p).or (Dict.lookupIn p ((newChainRows ret).map Prod.swap))

section Growth

variable {auth : E → List E} {db : Db E T R} {b : Batch E T R} {table : List (E × R × T)}
  {ret : Dict E NewEventChainLinks} {slot : Pos → Option E}

theorem Calculated.lookup_owner (h : Calculated auth db b table ret) {e : E} {p : Pos} :
    Dict.lookupIn p ((newChainRows ret).map Prod.swap) = some e ↔ (e, p) ∈ newChainRows ret := by
  rw [lookupIn_eq_some (by rw [map_map]; exact h.distinct), mem_map]
  constructor
  · rintro ⟨⟨e', p'⟩, hm, heq⟩
    cases heq
    exact hm
  · intro hm
    exact ⟨(e, p), hm, rfl⟩

/-- What a calculation hands out extends any cover of the index, as long as no position it uses
    belongs to another event. -/
theorem Calculated.growth (h : Calculated auth db b table ret)
    (hcov : Cover auth db.selectChain slot db.links.linkSet)
    (hslot : ∀ {e p}, (e, p) ∈ newChainRows ret → slot p = none ∨ slot p = some e) :
    Cover.Growth auth db.selectChain (placed db ret) slot (grownSlots slot ret) db.links.linkSet
      (grownLinks db ret) := by
  have hnew : ∀ {e p}, db.selectChain e = none → placed db ret e = some p →
      ∃ x, ret.get? e = some x ∧ p = (x.chainId, x.sequenceNumber) := by
    intro e p hn hp
    rw [placed, hn, Option.none_or] at hp
    exact lookup_newChainRows.mp hp
  constructor
  · exact fun he => placed_old ret he
  · intro p e he
    rw [grownSlots, he]
    rfl
  · exact Set.subset_union_left
  · intro e p he
    cases hn : db.selectChain e with
    | some q =>
      obtain rfl : p = q := Option.mem_unique he (placed_old ret hn)
      rw [grownSlots, hcov.slot_pos hn]
      rfl
    | none =>
      have hm : (e, p) ∈ newChainRows ret := mem_newChainRows.mpr (hnew hn he)
      rcases hslot hm with hs | hs
      · rw [grownSlots, hs, Option.none_or]
        exact h.lookup_owner.mpr hm
      · rw [grownSlots, hs]
        rfl
  · intro p e he
    cases hs : slot p with
    | some e' =>
      rw [grownSlots, hs, Option.some_or] at he
      exact .inl he
    | none =>
      rw [grownSlots, hs, Option.none_or, h.lookup_owner] at he
      obtain ⟨x, hx, rfl⟩ := mem_newChainRows.mp he
      have hn := h.unindexed e (mem_keys_iff.mpr ⟨x, hx⟩)
      exact .inr ⟨hn, placed_new hn hx⟩
  · intro e c s hn hp
    obtain ⟨x, hx, heq⟩ := hnew hn hp
    rw [(Prod.mk.inj heq).2]
    exact h.one_le hx
  · intro e c s hn hp h1
    obtain ⟨x, hx, heq⟩ := hnew hn hp
    obtain ⟨rfl, hs⟩ := Prod.mk.inj heq
    exact h.down hx hs.symm h1
  · intro c s d t hl
    rcases hl with hl | hl
    · exact .inl hl
    · obtain ⟨e, x, hx, q, hq, heq⟩ := mem_newChainLinks.mp hl
      cases heq
      obtain ⟨_, a, ha, hpa⟩ := h.links hx hq
      exact .inr ⟨e, a, placed_new (h.unindexed e (mem_keys_iff.mpr ⟨x, hx⟩)) hx, hpa, ha⟩
  · intro e p hn hp a ha
    obtain ⟨x, hx, rfl⟩ := hnew hn hp
    obtain ⟨q, hq, hcase⟩ := h.edges hx a ha
    refine ⟨q, hq, hcase.imp_right fun hcase => hcase.imp_left fun hql => .inr ?_⟩
    exact mem_newChainLinks.mpr ⟨e, x, hx, q, hql, rfl⟩

end Growth

end Sithnapse.ChainCover
