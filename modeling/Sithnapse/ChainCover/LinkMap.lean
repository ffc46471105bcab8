import Sithnapse.Kit.Dict
import Sithnapse.Kit.Chain

/-! `_LinkMap` of `synapse/storage/databases/main/events.py`: the links known while a batch of
    events is being indexed, and the search that tells which auth events are reachable from others.

    The search may answer "no" for a reachable position (two links from one sequence number to one
    chain overwrite each other, and redundant new links are not recorded), but a "yes" is always
    backed by links (`existsPathFrom_sound`), and it always ends (`existsPathFrom_total`). -/

namespace Sithnapse.ChainCover
open Kit Kit.Dict Kit.Chain List Set

/-- Source chain → target chain → source sequence number → target sequence number, and the links
    added as new. -/
structure LinkMap where
  maps : Dict ℕ (Dict ℕ (Dict ℕ ℕ))
  additions : List Link

namespace LinkMap

def empty : LinkMap := ⟨Dict.empty, []⟩

variable (m : LinkMap)

/-- `self.maps.get(src, {}).get(target, {})`. -/
def current (src target : ℕ) : Dict ℕ ℕ :=
  (m.maps.getD src Dict.empty).getD target Dict.empty

/-- A new link that starts no lower and ends no higher than a known one adds nothing. -/
def redundant (links : Dict ℕ ℕ) (srcSeq targetSeq : ℕ) : Bool :=
  links.entries.any fun p => p.1 ≤ srcSeq && targetSeq ≤ p.2

/-- `add_link`; `none` is the failed assertion that a link leaves its chain. -/
def addLink (src target : Pos) (new : Bool) : Option (LinkMap × Bool) :=
  if src.1 = target.1 then none
  else if new && redundant (m.current src.1 target.1) src.2 target.2 then some (m, false)
  else
    let links := (m.current src.1 target.1).set src.2 target.2
    some (⟨m.maps.set src.1 ((m.maps.getD src.1 Dict.empty).set target.1 links),
      if new then addIf m.additions ⟨src.1, src.2, target.1, target.2⟩ else m.additions⟩, true)

/-- The links out of a chain: `(target_chain, src_seq, target_seq)`. -/
def outLinks (chain : ℕ) : List (ℕ × ℕ × ℕ) :=
  (m.maps.getD chain Dict.empty).entries.flatMap fun p => p.2.entries.map fun q => (p.1, q.1, q.2)

variable (visited : Dict ℕ ℕ)

/-- The links worth following from `(chain, seq)`: they start at or below it and end above what was
    visited. -/
def usable (seq : ℕ) (l : ℕ × ℕ × ℕ) : Bool :=
  visited.getD l.1 0 < l.2.2 && l.2.1 ≤ seq

/-- One turn of the search loop; the head of `search` is the end of the Python list. -/
def searchStep (target : Pos) (st : List Pos × Dict ℕ ℕ) : (List Pos × Dict ℕ ℕ) ⊕ Bool :=
  match st.1 with
  | [] => .inr false
  | (chain, seq) :: rest =>
    let visited := st.2.set chain (max seq (st.2.getD chain 0))
    let out := (m.outLinks chain).filter (usable visited seq)
    if out.any fun l => l.1 = target.1 && target.2 ≤ l.2.2 then .inr true
    else
      let pushes := (out.filter (·.1 ≠ target.1)).map fun l => (l.1, l.2.2)
      .inl (pushes.reverse ++ rest, visited)

/-- Where the links of the map end. -/
def targets : List Pos :=
  m.maps.keys.flatMap fun c => (m.outLinks c).map fun l => (l.1, l.2.2)

/-- `exists_path_from`; the budget is never spent. -/
def existsPathFrom (src target : Pos) : Option Bool :=
  if src.1 = target.1 then some (target.2 ≤ src.2)
  else
    let n := m.targets.length
    loop (m.searchStep target) ((2 * n + 2) * n + n + 2) ([src], Dict.empty)

/-- The links of the map. -/
def linkSet : Set Link :=
  {l | (m.current l.srcChain l.dstChain).get? l.srcSeq = some l.dstSeq}

/-! ### Adding -/

theorem linkSet_empty : (empty).linkSet = ∅ := by
  ext l
  simp [linkSet, current, empty]

/-- Adding a link adds nothing but that link. -/
theorem linkSet_addLink {m m' : LinkMap} {src target : Pos} {new b : Bool}
    (h : m.addLink src target new = some (m', b)) :
    m'.linkSet ⊆ insert ⟨src.1, src.2, target.1, target.2⟩ m.linkSet := by
  rw [addLink] at h
  split at h
  · cases h
  · split at h
    · obtain ⟨rfl, _⟩ := Prod.mk.inj (Option.some.inj h)
      exact subset_insert _ _
    · obtain ⟨rfl, _⟩ := Prod.mk.inj (Option.some.inj h)
      rintro ⟨c, s, d, t⟩ hl
      simp only [linkSet, current, mem_ofPred_eq, getD_set] at hl
      rcases eq_or_ne c src.1 with rfl | hc
      · rw [if_pos rfl, getD_set] at hl
        rcases eq_or_ne d target.1 with rfl | hd
        · rw [if_pos rfl, get?_set] at hl
          rcases eq_or_ne s src.2 with rfl | hs
          · rw [if_pos rfl, Option.some.injEq] at hl
            exact mem_insert_iff.mpr (.inl (by rw [hl]))
          · rw [if_neg hs] at hl
            exact mem_insert_of_mem _ hl
        · rw [if_neg hd] at hl
          exact mem_insert_of_mem _ hl
      · rw [if_neg hc] at hl
        exact mem_insert_of_mem _ hl

theorem addLink_isSome (src target : Pos) (new : Bool) (hne : src.1 ≠ target.1) :
    ∃ m' b, m.addLink src target new = some (m', b) := by
  rw [addLink, if_neg hne]
  split
  · exact ⟨_, _, rfl⟩
  · exact ⟨_, _, rfl⟩

/-! ### Searching -/

theorem mem_outLinks {m : LinkMap} {c tc ss ts : ℕ} :
    (tc, ss, ts) ∈ m.outLinks c ↔ (⟨c, ss, tc, ts⟩ : Link) ∈ m.linkSet := by
  simp only [outLinks, mem_flatMap, mem_map, Prod.mk.injEq, linkSet, current, mem_ofPred_eq]
  constructor
  · rintro ⟨⟨d, links⟩, hd, ⟨s, t⟩, hs, rfl, rfl, rfl⟩
    rw [getD_of_get? (get?_eq_some_iff.mpr hd)]
    exact get?_eq_some_iff.mpr hs
  · intro h
    have hk : tc ∈ (m.maps.getD c Dict.empty).keys :=
      mem_keys_of_getD_ne (w := Dict.empty) fun hc => by simp [hc] at h
    exact ⟨_, get?_eq_some_iff.mp (get?_of_mem_keys Dict.empty hk), (ss, ts),
      get?_eq_some_iff.mp h, rfl, rfl, rfl⟩

/-- A "yes" is backed by links. -/
theorem existsPathFrom_sound {m : LinkMap} {src target : Pos}
    (h : m.existsPathFrom src target = some true) : Covers m.linkSet src target := by
  rw [existsPathFrom] at h
  split_ifs at h with hc
  · rw [Option.some.injEq, decide_eq_true_eq] at h
    exact .inl ⟨hc, h⟩
  · have hfollow : ∀ {p : Pos} {visited : Dict ℕ ℕ} {l : ℕ × ℕ × ℕ},
        p = src ∨ Reach m.linkSet src p → l ∈ (m.outLinks p.1).filter (usable visited p.2) →
        Reach m.linkSet src (l.1, l.2.2) := by
      rintro ⟨c, s⟩ visited ⟨tc, ss, ts⟩ hp hl
      obtain ⟨hm, hu⟩ := mem_filter.mp hl
      rw [usable, Bool.and_eq_true, decide_eq_true_eq, decide_eq_true_eq] at hu
      have hf : Follow m.linkSet (c, s) (tc, ts) := ⟨ss, hu.2, mem_outLinks.mp hm⟩
      rcases hp with rfl | hr
      · exact .single hf
      · exact hr.tail hf
    have hpost := loop_post
      (I := fun st => ∀ p ∈ st.1, p = src ∨ Reach m.linkSet src p)
      (Q := fun b => b = true → Covers m.linkSet src target)
      (by
        rintro ⟨stack, visited⟩ st' hs hst
        cases stack with
        | nil => simp [searchStep] at hst
        | cons p rest =>
          simp only [searchStep] at hst
          split at hst
          · cases hst
          · cases hst
            intro q hq
            rcases mem_append.mp hq with hq | hq
            · obtain ⟨l, hl, rfl⟩ := mem_map.mp (mem_reverse.mp hq)
              exact .inr (hfollow (hs p (.head _)) (mem_filter.mp hl).1)
            · exact hs q (.tail _ hq))
      (by
        rintro ⟨stack, visited⟩ r hs hst hr
        subst hr
        cases stack with
        | nil => simp [searchStep] at hst
        | cons p rest =>
          simp only [searchStep] at hst
          split at hst
          · rename_i hany
            obtain ⟨l, hl, hlt⟩ := any_eq_true.mp hany
            rw [Bool.and_eq_true, decide_eq_true_eq, decide_eq_true_eq] at hlt
            have hreach := hfollow (hs p (.head _)) hl
            rw [hlt.1] at hreach
            exact .inr ⟨l.2.2, hlt.2, hreach⟩
          · cases hst)
      _ _ true (by simp) h
    exact hpost rfl

theorem mem_targets {m : LinkMap} {c : ℕ} {l : ℕ × ℕ × ℕ} (h : l ∈ m.outLinks c) :
    (l.1, l.2.2) ∈ m.targets := by
  have hk : c ∈ m.maps.keys := mem_keys_of_getD_ne fun hc => by
    rw [outLinks, hc] at h
    simp [Dict.empty] at h
  exact mem_flatMap.mpr ⟨c, hk, mem_map_of_mem h⟩

theorem length_outLinks_le (c : ℕ) : (m.outLinks c).length ≤ m.targets.length := by
  by_cases hc : c ∈ m.maps.keys
  · rw [targets, length_flatMap]
    refine le_trans ?_ (single_le_sum (fun _ _ => Nat.zero_le _) _ (mem_map_of_mem hc))
    rw [length_map]
  · rw [outLinks, getD_of_not_mem _ hc]
    exact Nat.zero_le _

/-! The search ends because links run out. A turn that pops a live entry, one above what was
    visited, closes at least the link that led to it. Other turns close nothing, but what they push
    is live, so the next turn does. -/

/-- Links that still end above what was visited. -/
def opens : ℕ :=
  m.targets.countP fun p => visited.getD p.1 0 < p.2

/-- The next entry to be popped is the end of an open link. -/
def live : List Pos → Bool
  | [] => false
  | p :: _ => p ∈ m.targets && visited.getD p.1 0 < p.2

def potential (st : List Pos × Dict ℕ ℕ) : ℕ :=
  (2 * m.targets.length + 2) * m.opens st.2 + (if m.live st.2 st.1 then 0 else m.targets.length) + st.1.length

section Visited

variable {m : LinkMap} {v v' : Dict ℕ ℕ} (hle : ∀ c, v.getD c 0 ≤ v'.getD c 0)
include hle

theorem opens_le : m.opens v' ≤ m.opens v := by
  refine countP_mono_left fun p _ hp => ?_
  rw [decide_eq_true_eq] at hp ⊢
  exact lt_of_le_of_lt (hle p.1) hp

theorem opens_lt {p : Pos} (hp : p ∈ m.targets) (ho : v.getD p.1 0 < p.2)
    (hc : p.2 ≤ v'.getD p.1 0) : m.opens v' < m.opens v := by
  obtain ⟨a, b, hab⟩ := append_of_mem hp
  have hmono : ∀ l : List Pos, l.countP (fun p => v'.getD p.1 0 < p.2) ≤
      l.countP (fun p => v.getD p.1 0 < p.2) := fun l =>
    countP_mono_left fun q _ hq => by
      rw [decide_eq_true_eq] at hq ⊢
      exact lt_of_le_of_lt (hle q.1) hq
  have ha := hmono a
  have hb := hmono b
  rw [opens, opens, hab, countP_append, countP_append,
    countP_cons_of_neg (by simpa using hc), countP_cons_of_pos (by simpa using ho)]
  omega

end Visited

theorem potential_step {m : LinkMap} {target : Pos} {st st' : List Pos × Dict ℕ ℕ}
    (h : m.searchStep target st = .inl st') : m.potential st' < m.potential st := by
  obtain ⟨stack, visited⟩ := st
  cases stack with
  | nil => simp [searchStep] at h
  | cons p rest =>
    obtain ⟨c, s⟩ := p
    simp only [searchStep] at h
    split at h
    · cases h
    · cases h
      set v' := visited.set c (max s (visited.getD c 0)) with hv'
      set pushes := (((m.outLinks c).filter (usable v' s)).filter (·.1 ≠ target.1)).map
        fun l => (l.1, l.2.2) with hpushes
      have hle : ∀ d, visited.getD d 0 ≤ v'.getD d 0 := by
        intro d
        rw [hv', getD_set]
        split_ifs with hd
        · rw [hd]
          exact le_max_right _ _
        · exact le_refl _
      have hlen : pushes.length ≤ m.targets.length := by
        rw [hpushes, length_map]
        exact ((length_filter_le _ _).trans (length_filter_le _ _)).trans (m.length_outLinks_le c)
      have hopen := opens_le (m := m) hle
      have hmul : ∀ a b : ℕ, a ≤ b →
          (2 * m.targets.length + 2) * a ≤ (2 * m.targets.length + 2) * b := fun a b hab =>
        Nat.mul_le_mul_left _ hab
      simp only [potential, length_append, length_reverse, length_cons]
      cases hlive : m.live visited ((c, s) :: rest) with
      | true =>
        rw [live, Bool.and_eq_true, decide_eq_true_eq, decide_eq_true_eq] at hlive
        have hlt := opens_lt hle hlive.1 hlive.2 (by
          rw [hv', getD_set, if_pos rfl]
          exact le_max_left _ _)
        have := hmul (m.opens v' + 1) (m.opens visited) hlt
        rw [Nat.mul_add] at this
        split <;> simp <;> omega
      | false =>
        have := hmul _ _ hopen
        cases hp : pushes.reverse with
        | nil =>
          have hnil : pushes.length = 0 := by rw [← length_reverse, hp]; rfl
          split <;> simp <;> omega
        | cons q qs =>
          have hq : q ∈ pushes := mem_reverse.mp (hp ▸ (.head _))
          obtain ⟨l, hl, rfl⟩ := mem_map.mp hq
          obtain ⟨hl, hu⟩ := mem_filter.mp (mem_filter.mp hl).1
          rw [usable, Bool.and_eq_true, decide_eq_true_eq] at hu
          have hlive' : m.live v' ((l.1, l.2.2) :: qs ++ rest) = true := by
            simp only [cons_append, live, Bool.and_eq_true, decide_eq_true_eq]
            exact ⟨mem_targets hl, hu.1⟩
          rw [hlive']
          simp
          omega

/-- The search always answers. -/
theorem existsPathFrom_total (m : LinkMap) (src target : Pos) :
    ∃ b, m.existsPathFrom src target = some b := by
  rw [existsPathFrom]
  split
  · exact ⟨_, rfl⟩
  · refine loop_total m.potential (fun _ _ _ _ => trivial)
      (fun _ _ _ h => potential_step h) _ _ trivial ?_
    have hopen : m.opens Dict.empty ≤ m.targets.length := countP_le_length
    have := Nat.mul_le_mul_left (2 * m.targets.length + 2) hopen
    simp only [potential, length_singleton]
    split <;> omega

end LinkMap

end Sithnapse.ChainCover
