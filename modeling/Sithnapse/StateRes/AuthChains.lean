import Sithnapse.Kit.Worklist

/-! The auth chains of events that are not persisted yet.

    `_get_auth_chain_difference` walks the auth events of the events it was given, as far as those go.
    The walk is depth first and remembers only finished chains, so an event may be on its stack several
    times; in an acyclic graph it ends, and each event comes after those it refers to. -/

namespace Sithnapse.StateRes

open Kit Kit.Dict Kit.Chain List

variable {E : Type} [DecidableEq E]

/-- `direct_auth_events`: events and their auth event ids. -/
abbrev AuthIds (E : Type) := Dict E (List E)

variable (events : AuthIds E)

/-- `direct_auth_events.get(event_id, [])`. -/
def AuthIds.next (e : E) : List E := events.getD e []

variable (chains : Dict E (List E))

/-- One round of the walk of `_build_auth_chain`: the stack, its top first, and `postorder`. -/
def postorderRound (s : List (E × Bool) × List E) : (List (E × Bool) × List E) ⊕ List E :=
  match s.1 with
  | [] => .inr s.2
  | (e, true) :: stack => .inl (stack, s.2 ++ [e])
  | (e, false) :: stack =>
    if e ∈ chains.keys then .inl (stack, s.2)
    else
      let unbuilt := (events.next e).filter fun a => a ∈ events.keys ∧ a ∉ chains.keys
      .inl (unbuilt.reverse.map (·, false) ++ (e, true) :: stack, s.2)

/-- How many references there are, and two more. -/
def AuthIds.width : ℕ := (events.values.map List.length).sum + 2

/-- `postorder`. -/
def postorder (root : E) : List E :=
  (loop (postorderRound events chains) (weight events.width events.keys.length + 1)
    ([(root, false)], [])).getD []

/-- One event of `postorder`: its chain from those of its auth events. -/
def addChain (e : E) : Dict E (List E) :=
  chains.set e ((events.next e).foldl (fun chain a => addAll (addIf chain a) (chains.getD a [])) [e])

/-- `_build_auth_chain`. -/
def buildAuthChain (root : E) : Dict E (List E) :=
  if root ∈ chains.keys then chains else (postorder events chains root).foldl (addChain events) chains

/-- `events_to_auth_chain`. -/
def eventsToAuthChain : Dict E (List E) :=
  events.keys.foldl (buildAuthChain events) Dict.empty

/-- `event_to_next_event`. -/
def eventToNextEvent : Dict E (List E) :=
  events.entries.foldl
    (fun next event => event.2.foldl (fun next a => next.set a (addIf (next.getD a []) event.1)) next)
    Dict.empty

/-! ### Chains -/

variable {events : AuthIds E} {chains : Dict E (List E)}

theorem AuthIds.mem_keys_of_next {e a : E} (h : a ∈ events.next e) : e ∈ events.keys :=
  mem_keys_of_mem_getD h

theorem AuthIds.exists_entry {e a : E} (h : a ∈ events.next e) : ∃ ids, (e, ids) ∈ events.entries ∧ a ∈ ids := by
  obtain ⟨ids, hids⟩ := mem_keys_iff.mp (AuthIds.mem_keys_of_next h)
  rw [AuthIds.next, getD_of_get? hids] at h
  exact ⟨ids, get?_eq_some_iff.mp hids, h⟩

/-- Every chain that is there is the auth chain of its event, the event included. -/
structure Built (events : AuthIds E) (chains : Dict E (List E)) : Prop where
  known : ∀ e ∈ chains.keys, e ∈ events.keys
  chain : ∀ e c, chains.get? e = some c → ∀ x, x ∈ c ↔ BelowEq events.next e x

theorem built_empty : Built events Dict.empty := ⟨nofun, nofun⟩

/-- What the chains of some auth events and those events themselves hold. -/
theorem mem_foldl_chain {x : E} : ∀ {l chain : List E},
    x ∈ l.foldl (fun chain a => addAll (addIf chain a) (chains.getD a [])) chain ↔
      x ∈ chain ∨ ∃ a ∈ l, x = a ∨ x ∈ chains.getD a []
  | [], chain => by simp
  | a :: l, chain => by
    rw [foldl_cons, mem_foldl_chain, mem_addAll, mem_addIf]
    simp only [mem_cons, exists_eq_or_imp, or_assoc]

/-- A chain whose parts are there is built right. -/
theorem Built.add (h : Built events chains) {e : E} (he : e ∈ events.keys)
    (hparts : ∀ a ∈ events.next e, a ∈ events.keys → a ∈ chains.keys) :
    Built events (addChain events chains e) := by
  refine ⟨fun x hx => ?_, fun x c hc y => ?_⟩
  · rcases mem_keys_set.mp hx with rfl | hx
    · exact he
    · exact h.known x hx
  · rw [addChain, get?_set] at hc
    split_ifs at hc with hxe
    · cases hc
      subst hxe
      -- an auth event without a chain is not one of the events, so nothing is below it
      have hpart : ∀ a ∈ events.next x, (y = a ∨ y ∈ chains.getD a []) ↔ BelowEq events.next a y := by
        intro a ha
        cases hget : chains.get? a with
        | some c =>
          rw [getD_of_get? hget, h.chain a c hget y]
          exact ⟨fun hy => hy.elim (fun e => e ▸ .refl) id, .inr⟩
        | none =>
          have hnone : events.next a = [] := by
            refine getD_of_not_mem _ fun hk => ?_
            obtain ⟨c, hc⟩ := mem_keys_iff.mp (hparts a ha hk)
            rw [hc] at hget
            cases hget
          rw [Dict.getD, hget, Option.getD_none, belowEq_iff]
          refine or_congr_right ⟨fun hy => absurd hy not_mem_nil, fun hy => ?_⟩
          obtain ⟨b, hb, -⟩ := Relation.TransGen.head'_iff.mp hy
          rw [Edge, hnone] at hb
          cases hb
      rw [mem_foldl_chain, mem_singleton, BelowEq, Relation.ReflTransGen.cases_head_iff, eq_comm]
      exact or_congr_right (exists_congr fun a => and_congr_right (hpart a))
    · exact h.chain x c hc y

/-! ### The walk -/

/-- Whatever an opened event of a stack refers to is settled or above it on the stack. -/
def Frames (events : AuthIds E) : (E → Prop) → List (E × Bool) → Prop
  | _, [] => True
  | settled, (e, opened) :: stack =>
    (opened = true → ∀ a ∈ events.next e, a ∈ events.keys → settled a) ∧
      Frames events (fun x => settled x ∨ x = e) stack

theorem Frames.mono : ∀ {stack : List (E × Bool)} {P Q : E → Prop}, (∀ x, P x → Q x) →
    Frames events P stack → Frames events Q stack
  | [], _, _, _, _ => trivial
  | (_, _) :: _, _, _, hPQ, h =>
    ⟨fun ho a ha hk => hPQ a (h.1 ho a ha hk), Frames.mono (fun x => Or.imp_left (hPQ x)) h.2⟩

/-- Unopened events on top of a stack. -/
theorem Frames.push : ∀ {l : List E} {stack : List (E × Bool)} {P : E → Prop},
    Frames events (fun x => P x ∨ x ∈ l) stack → Frames events P (l.map (·, false) ++ stack)
  | [], _, _, h => h.mono fun x hx => hx.resolve_right not_mem_nil
  | e :: l, stack, P, h => by
    refine ⟨nofun, Frames.push (h.mono fun x hx => ?_)⟩
    rw [mem_cons] at hx
    tauto

/-- The walk so far: the chains of the finished events can be built in turn. -/
structure Walking (events : AuthIds E) (chains : Dict E (List E)) (root : E)
    (s : List (E × Bool) × List E) : Prop where
  built : Built events (s.2.foldl (addChain events) chains)
  settled : ∀ x, x ∈ (s.2.foldl (addChain events) chains).keys ↔ x ∈ chains.keys ∨ x ∈ s.2
  known : ∀ p ∈ s.1, p.1 ∈ events.keys
  frames : Frames events (fun x => x ∈ chains.keys ∨ x ∈ s.2) s.1
  root : (root ∈ chains.keys ∨ root ∈ s.2) ∨ root ∈ s.1.map Prod.fst

theorem Walking.round {root : E} {s s' : List (E × Bool) × List E} (h : Walking events chains root s)
    (hs : postorderRound events chains s = .inl s') : Walking events chains root s' := by
  obtain ⟨stack, post⟩ := s
  have hknown := h.known
  have hframes := h.frames
  have hroot := h.root
  match stack with
  | [] => cases hs
  | (e, true) :: stack =>
    obtain rfl := Sum.inl.inj hs
    have hfold : (post ++ [e]).foldl (addChain events) chains =
        addChain events (post.foldl (addChain events) chains) e := by
      rw [foldl_append]
      rfl
    have hdone : ∀ x, (x ∈ chains.keys ∨ x ∈ post) ∨ x = e → x ∈ chains.keys ∨ x ∈ post ++ [e] := by
      intro x hx
      rw [mem_append, mem_singleton]
      tauto
    refine ⟨?_, fun x => ?_, fun p hp => hknown p (.tail _ hp), hframes.2.mono hdone, ?_⟩
    · rw [hfold]
      exact h.built.add (hknown _ (.head _)) fun a ha hk =>
        (h.settled a).mpr (hframes.1 rfl a ha hk)
    · rw [hfold, addChain, mem_keys_set, h.settled, mem_append, mem_singleton]
      tauto
    · rcases hroot with hroot | hroot
      · exact .inl (hdone _ (.inl hroot))
      · rcases mem_cons.mp hroot with rfl | hroot
        · exact .inl (hdone _ (.inr rfl))
        · exact .inr hroot
  | (e, false) :: stack =>
    rw [postorderRound] at hs
    dsimp only at hs
    split_ifs at hs with he
    · obtain rfl := Sum.inl.inj hs
      have hdone : ∀ x, (x ∈ chains.keys ∨ x ∈ post) ∨ x = e → x ∈ chains.keys ∨ x ∈ post :=
        fun x hx => hx.elim id fun hxe => .inl (hxe ▸ he)
      refine ⟨h.built, h.settled, fun p hp => hknown p (.tail _ hp), hframes.2.mono hdone, ?_⟩
      rcases hroot with hroot | hroot
      · exact .inl hroot
      · rcases mem_cons.mp hroot with rfl | hroot
        · exact .inl (.inl he)
        · exact .inr hroot
    · obtain rfl := Sum.inl.inj hs
      refine ⟨h.built, h.settled, fun p hp => ?_, ?_, ?_⟩
      · rcases mem_append.mp hp with hp | hp
        · obtain ⟨a, ha, rfl⟩ := mem_map.mp hp
          rw [mem_reverse, mem_filter, decide_eq_true_eq] at ha
          exact ha.2.1
        · rcases mem_cons.mp hp with rfl | hp
          · exact hknown (e, false) (.head _)
          · exact hknown p (.tail _ hp)
      · refine Frames.push ⟨fun _ a ha hk => ?_, hframes.2.mono fun x hx => ?_⟩
        · by_cases hc : a ∈ chains.keys
          · exact .inl (.inl hc)
          · refine .inr (mem_reverse.mpr (mem_filter.mpr ⟨ha, ?_⟩))
            rw [decide_eq_true_eq]
            exact ⟨hk, hc⟩
        · exact hx.imp_left .inl
      · refine hroot.imp_right fun hroot => ?_
        rw [map_append, mem_append, map_cons]
        exact .inr hroot

/-- What a stack costs: an opened event one round, another what can follow from it. -/
def stackWeight (b : ℕ) (rank : E → ℕ) (stack : List (E × Bool)) : ℕ :=
  (stack.map fun p => if p.2 then 1 else weight b (rank p.1)).sum

theorem AuthIds.length_next_le (e : E) : (events.next e).length + 2 ≤ events.width := by
  rw [AuthIds.width, AuthIds.next]
  cases hget : events.get? e with
  | none =>
    rw [Dict.getD, hget]
    exact Nat.le_add_left _ _
  | some ids =>
    have hmem : ids.length ∈ events.values.map List.length := by
      refine mem_map.mpr ⟨ids, ?_, rfl⟩
      exact mem_map.mpr ⟨(e, ids), get?_eq_some_iff.mp hget, rfl⟩
    rw [getD_of_get? hget]
    exact Nat.add_le_add_right (le_sum_of_mem hmem) 2

/-- A round of the walk makes its stack cheaper. -/
theorem stackWeight_round {rank : E → ℕ}
    (hrank : ∀ x, ∀ y ∈ events.next x, y ∈ events.keys → rank y < rank x)
    {s s' : List (E × Bool) × List E} (hs : postorderRound events chains s = .inl s') :
    stackWeight events.width rank s'.1 < stackWeight events.width rank s.1 := by
  have hpos : 0 < events.width := Nat.succ_pos _
  obtain ⟨stack, post⟩ := s
  match stack with
  | [] => cases hs
  | (e, true) :: stack =>
    obtain rfl := Sum.inl.inj hs
    simp [stackWeight]
  | (e, false) :: stack =>
    rw [postorderRound] at hs
    dsimp only at hs
    split at hs
    · obtain rfl := Sum.inl.inj hs
      have := weight_pos hpos (rank e)
      simpa [stackWeight] using this
    · obtain rfl := Sum.inl.inj hs
      set unbuilt := (events.next e).filter fun a => a ∈ events.keys ∧ a ∉ chains.keys with hunbuilt
      have hlen : unbuilt.reverse.length + 2 ≤ events.width := by
        rw [length_reverse]
        exact (Nat.add_le_add_right (length_filter_le _ _) 2).trans (AuthIds.length_next_le e)
      have hlower : ∀ a ∈ unbuilt.reverse, rank a < rank e := by
        intro a ha
        rw [mem_reverse, hunbuilt, mem_filter, decide_eq_true_eq] at ha
        exact hrank e a ha.1 ha.2.1
      have hlt := sum_weight_lt hlen hlower
      have hmap : ((unbuilt.reverse.map fun a => (a, false)).map fun p : E × Bool =>
          if p.2 then 1 else weight events.width (rank p.1)) =
          unbuilt.reverse.map fun a => weight events.width (rank a) := by
        rw [map_map]
        rfl
      simp only [stackWeight, map_append, map_cons, sum_append, sum_cons, hmap]
      simp only [if_true, Bool.false_eq_true, if_false]
      omega

section Acyclic

variable (hac : Acyclic events.next)

include hac

/-- The walk ends, with an order in which the chains can be built, the root's among them. -/
theorem postorder_spec (h : Built events chains) {root : E} (hroot : root ∈ events.keys) :
    Built events ((postorder events chains root).foldl (addChain events) chains) ∧
      (∀ x ∈ chains.keys, x ∈ ((postorder events chains root).foldl (addChain events) chains).keys) ∧
      root ∈ ((postorder events chains root).foldl (addChain events) chains).keys := by
  let inner : E → List E := fun e => (events.next e).filter (· ∈ events.keys)
  have hinner : Acyclic inner := hac.mono fun x y hy => (mem_filter.mp hy).1
  obtain ⟨rank, hrank, hbound⟩ := hinner.exists_rank fun x y hy => by
    simpa using (mem_filter.mp hy).2
  have hrank' : ∀ x, ∀ y ∈ events.next x, y ∈ events.keys → rank y < rank x := fun x y hy hk =>
    hrank x y (mem_filter.mpr ⟨hy, by simpa using hk⟩)
  have hstart : Walking events chains root ([(root, false)], []) :=
    ⟨h, fun x => by simp, fun p hp => by rw [mem_singleton.mp hp]; exact hroot,
      ⟨nofun, trivial⟩, .inr (by simp)⟩
  have hfuel : stackWeight events.width rank [(root, false)] <
      weight events.width events.keys.length + 1 := by
    have := weight_mono (b := events.width) (Nat.succ_pos _) (hbound root)
    simp only [stackWeight, map_cons, map_nil, sum_singleton, Bool.false_eq_true, if_false]
    omega
  obtain ⟨post, hpost, hend⟩ : ∃ post, loop (postorderRound events chains) _ _ = some post ∧
      Walking events chains root ([], post) := by
    refine loop_correct (fun s => stackWeight events.width rank s.1) (fun s s' h hs => h.round hs)
      (fun s s' _ hs => stackWeight_round hrank' hs) (fun s post h hs => ?_) _ _ hstart hfuel
    obtain ⟨stack, post'⟩ := s
    match stack with
    | [] =>
      obtain rfl := Sum.inr.inj hs
      exact h
    | (e, true) :: stack => cases hs
    | (e, false) :: stack =>
      rw [postorderRound] at hs
      dsimp only at hs
      split at hs <;> cases hs
  rw [postorder, hpost, Option.getD_some]
  exact ⟨hend.built, fun x hx => (hend.settled x).mpr (.inl hx),
    (hend.settled root).mpr (hend.root.resolve_right not_mem_nil)⟩

theorem buildAuthChain_spec (h : Built events chains) {root : E} (hroot : root ∈ events.keys) :
    Built events (buildAuthChain events chains root) ∧
      (∀ x ∈ chains.keys, x ∈ (buildAuthChain events chains root).keys) ∧
      root ∈ (buildAuthChain events chains root).keys := by
  rw [buildAuthChain]
  split_ifs with hr
  · exact ⟨h, fun _ hx => hx, hr⟩
  · exact postorder_spec hac h hroot

/-- Every event gets its chain: what it reaches through the events. -/
theorem eventsToAuthChain_spec :
    Built events (eventsToAuthChain events) ∧ ∀ e, e ∈ (eventsToAuthChain events).keys ↔ e ∈ events.keys := by
  obtain ⟨hbuilt, hall⟩ := foldl_visited (buildAuthChain events)
    (fun pre chains => Built events chains ∧ ∀ e ∈ pre, e ∈ chains.keys) events.keys
    ⟨built_empty, nofun⟩ (by
      rintro pre e post chains hsplit ⟨hbuilt, hpre⟩
      have hmem : e ∈ events.keys := hsplit ▸ by simp
      obtain ⟨hbuilt', hgrow, he⟩ := buildAuthChain_spec hac hbuilt hmem
      exact ⟨hbuilt', forall_mem_concat.mpr ⟨fun x hx => hgrow x (hpre x hx), he⟩⟩)
  exact ⟨hbuilt, fun e => ⟨hbuilt.known e, hall e⟩⟩

theorem get?_eventsToAuthChain_none {e : E} (he : e ∉ events.keys) :
    (eventsToAuthChain events).get? e = none := by
  have hspec := eventsToAuthChain_spec hac
  exact Option.eq_none_iff_forall_ne_some.mpr fun c hc => he ((hspec.2 e).mp (mem_keys_iff.mpr ⟨c, hc⟩))

theorem get?_eventsToAuthChain_some {e : E} (he : e ∈ events.keys) :
    ∃ c, (eventsToAuthChain events).get? e = some c ∧ ∀ x, x ∈ c ↔ BelowEq events.next e x := by
  have hspec := eventsToAuthChain_spec hac
  obtain ⟨c, hc⟩ := mem_keys_iff.mp ((hspec.2 e).mpr he)
  exact ⟨c, hc, hspec.1.chain e c hc⟩

end Acyclic

/-! ### Links the other way -/

/-- `event_to_next_event` has an event under each of its auth events, once. -/
theorem eventToNextEvent_spec (events : AuthIds E) : ∀ a,
    ((eventToNextEvent events).getD a []).Nodup ∧
      ∀ e, e ∈ (eventToNextEvent events).getD a [] ↔ a ∈ events.next e := by
  intro a
  obtain ⟨hnd, hmem⟩ := foldl_visited
    (fun (next : Dict E (List E)) (event : E × List E) =>
      event.2.foldl (fun next a => next.set a (addIf (next.getD a []) event.1)) next)
    (fun pre next => (next.getD a []).Nodup ∧
      ∀ x, x ∈ next.getD a [] ↔ ∃ ids, (x, ids) ∈ pre ∧ a ∈ ids) events.entries (s := Dict.empty)
    ⟨nodup_nil, fun x => by simp⟩ (by
      rintro pre event _ next - ⟨hnd, hmem⟩
      rw [getD_foldl_addIf]
      by_cases ha : a ∈ event.2
      · rw [if_pos ha]
        refine ⟨nodup_addIf _ hnd, fun x => ?_⟩
        rw [mem_addIf, hmem]
        constructor
        · rintro (⟨ids, hids, ha⟩ | rfl)
          · exact ⟨ids, mem_append_left _ hids, ha⟩
          · exact ⟨event.2, mem_concat_self, ha⟩
        · rintro ⟨ids, hids, ha⟩
          rcases mem_concat.mp hids with hids | hids
          · exact .inl ⟨ids, hids, ha⟩
          · exact .inr (congrArg Prod.fst hids)
      · rw [if_neg ha]
        refine ⟨hnd, fun x => (hmem x).trans ⟨?_, ?_⟩⟩
        · rintro ⟨ids, hids, hx⟩
          exact ⟨ids, mem_append_left _ hids, hx⟩
        · rintro ⟨ids, hids, hx⟩
          rcases mem_concat.mp hids with hids | hids
          · exact ⟨ids, hids, hx⟩
          · exact absurd (congrArg Prod.snd hids ▸ hx) ha)
  refine ⟨hnd, fun e => (hmem e).trans ?_⟩
  constructor
  · rintro ⟨ids, hids, ha⟩
    rwa [AuthIds.next, getD_of_get? (get?_eq_some_iff.mpr hids)]
  · exact AuthIds.exists_entry

end Sithnapse.StateRes
