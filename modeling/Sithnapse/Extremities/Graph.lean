import Sithnapse.Extremities.Calculate

/-! Forward extremities and the event graph.

    What the forward extremities of a room should be depends on the graph of its persisted events alone:
    the accepted events that no other accepted event reaches through rejected or soft-failed ones. The
    update sees less than that: which events an accepted event hides behind others is looked up only when
    that accepted event is persisted, and only through edges that are stored by then, which rejected events
    never have. The extremities are right after every batch exactly if no batch hides an event in a way the
    update cannot see (`HidesInSight`). -/

namespace Sithnapse.Extremities

open Kit Kit.Chain List

variable {E : Type} [DecidableEq E]

namespace Event

/-- Neither rejected nor soft-failed. -/
def accepted (e : Event E) : Bool := !e.rejected && !e.softFailed

/-- Soft-failed and not rejected: its edges are stored, and the search passes it. -/
def passable (e : Event E) : Bool := !e.rejected && e.softFailed

end Event

/-- `f` is reached from `x` along prev events, all events between the two being among `between`. -/
inductive Through (between : List (Event E)) : Event E → E → Prop
  | prev {x : Event E} {f : E} : f ∈ x.prevEventIds → Through between x f
  | step {x b : Event E} {f : E} : b ∈ between → b.eventId ∈ x.prevEventIds → Through between b f →
      Through between x f

/-- Another accepted event reaches `f` through rejected or soft-failed events. -/
def Hidden (persisted : List (Event E)) (f : E) : Prop :=
  ∃ x ∈ persisted, x.accepted = true ∧ x.eventId ≠ f ∧ Through (persisted.filter (!·.accepted)) x f

/-- The forward extremities the graph calls for. -/
def IsExtremity (persisted : List (Event E)) (f : E) : Prop :=
  (∃ e ∈ persisted, e.eventId = f ∧ e.accepted = true) ∧ ¬ Hidden persisted f

/-- Whenever a batch hides an accepted event (one of the batch, or one not hidden before), that event is a
    prev event of an accepted one, or an accepted event of the batch reaches it through events that were
    persisted as soft-failed in earlier batches. -/
def HidesInSight (persisted batch : List (Event E)) : Prop :=
  ∀ e ∈ persisted ++ batch, e.accepted = true → e ∈ batch ∨ ¬ Hidden persisted e.eventId →
    Hidden (persisted ++ batch) e.eventId →
    (∃ x ∈ persisted ++ batch, x.accepted = true ∧ e.eventId ∈ x.prevEventIds) ∨
      ∃ x ∈ batch, x.accepted = true ∧ Through (persisted.filter (·.passable)) x e.eventId

/-! ### Paths -/

variable {between events persisted batch : List (Event E)} {f : E} {t : Tables E}

omit [DecidableEq E] in
theorem Through.mono {between' : List (Event E)} (h : ∀ b ∈ between, b ∈ between') {x : Event E}
    (hx : Through between x f) : Through between' x f := by
  induction hx with
  | prev hf => exact .prev hf
  | step hb hbx _ ih => exact .step (h _ hb) hbx ih

/-- The prev events of the events with an id. -/
def prevsIn (events : List (Event E)) (e : E) : List E :=
  (events.filter (·.eventId = e)).flatMap (·.prevEventIds)

theorem mem_prevsIn {e p : E} : p ∈ prevsIn events e ↔ ∃ x ∈ events, x.eventId = e ∧ p ∈ x.prevEventIds := by
  simp [prevsIn, and_assoc]

/-- A path that starts at an event that may lie between. -/
theorem below_prevsIn_iff {e : E} :
    Below (prevsIn between) e f ↔ ∃ b ∈ between, b.eventId = e ∧ Through between b f := by
  constructor
  · intro h
    induction h using Relation.TransGen.head_induction_on with
    | single hf =>
      obtain ⟨b, hb, rfl, hprev⟩ := mem_prevsIn.mp hf
      exact ⟨b, hb, rfl, .prev hprev⟩
    | head hy _ ih =>
      obtain ⟨b, hb, rfl, hprev⟩ := mem_prevsIn.mp hy
      obtain ⟨b', hb', rfl, hthrough⟩ := ih
      exact ⟨b, hb, rfl, .step hb' hprev hthrough⟩
  · rintro ⟨b, hb, rfl, hthrough⟩
    induction hthrough with
    | prev hf => exact .single (mem_prevsIn.mpr ⟨_, hb, rfl, hf⟩)
    | step hb' hx _ ih => exact .head (mem_prevsIn.mpr ⟨_, hb, rfl, hx⟩) (ih hb')

/-- In an acyclic graph a path leads to another event. -/
theorem Through.ne (hac : Acyclic (prevsIn events))
    (hsub : ∀ b ∈ between, b ∈ events) {x : Event E} (hx : x ∈ events) (h : Through between x f) :
    x.eventId ≠ f := by
  rintro rfl
  exact hac _ (below_prevsIn_iff.mpr ⟨x, hx, rfl, h.mono hsub⟩)

omit [DecidableEq E] in
theorem Hidden.mono (h : Hidden persisted f) : Hidden (persisted ++ batch) f := by
  obtain ⟨x, hx, hacc, hne, hthrough⟩ := h
  refine ⟨x, mem_append_left _ hx, hacc, hne, hthrough.mono fun b hb => ?_⟩
  rw [filter_append]
  exact mem_append_left _ hb

/-! ### The tables -/

/-- The tables hold the persisted events, none of them an outlier. -/
structure Holds (t : Tables E) (persisted : List (Event E)) : Prop where
  stored : ∀ a, t.stored a = true ↔ ∃ e ∈ persisted, e.eventId = a
  edges : ∀ a p, (a, p) ∈ t.eventEdges ↔
    ∃ e ∈ persisted, e.eventId = a ∧ e.rejected = false ∧ p ∈ e.prevEventIds
  rejections : ∀ a, a ∈ t.rejections ↔ ∃ e ∈ persisted, e.eventId = a ∧ e.rejected = true
  metadata : ∀ e ∈ persisted, t.metadata e.eventId = some e.softFailed
  exclusive : t.embeddedEventJsonEnabled = true → t.eventJson = Dict.empty

variable (enabled : Bool)

theorem holds_empty : Holds (Tables.empty enabled : Tables E) [] where
  stored := by simp [Tables.stored, Tables.empty]
  edges := by simp [Tables.empty]
  rejections := by simp [Tables.empty]
  metadata := by simp
  exclusive := fun _ => rfl

theorem metadata_store (t : Tables E) (e : Event E)
    (hex : t.embeddedEventJsonEnabled = true → t.eventJson = Dict.empty) (a : E) :
    (t.store e).metadata a = if a = e.eventId then some e.softFailed else t.metadata a := by
  rw [Tables.metadata, Tables.metadata, Tables.store]
  cases hen : t.embeddedEventJsonEnabled with
  | true =>
    simp only [if_true, hex hen, Dict.get?_empty, Option.none_or, Dict.get?_set]
  | false =>
    simp only [Bool.false_eq_true, if_false, Option.or_none, Dict.get?_set]

theorem Holds.store (h : Holds t persisted) {e : Event E}
    (hout : e.outlier = false) (hfresh : ∀ e' ∈ persisted, e'.eventId ≠ e.eventId) :
    Holds (t.store e) (persisted ++ [e]) where
  stored := by
    intro a
    have hstored := h.stored a
    simp only [Tables.stored, decide_eq_true_eq] at hstored ⊢
    simp only [Tables.store, mem_append, mem_singleton, Prod.mk.injEq, hout, and_true,
      hstored, or_and_right, exists_or, exists_eq_left]
    exact or_congr_right eq_comm
  edges := by
    intro a p
    simp only [Tables.store, mem_append, mem_singleton, or_and_right, exists_or, exists_eq_left]
    rw [← h.edges a p]
    cases hrej : e.rejected with
    | true => simp
    | false => simp [eq_comm, and_comm]
  rejections := by
    intro a
    simp only [Tables.store, mem_append, mem_singleton, or_and_right, exists_or, exists_eq_left]
    rw [← h.rejections a]
    cases hrej : e.rejected with
    | true => simp [eq_comm]
    | false => simp
  metadata := by
    intro e' he'
    rw [metadata_store t e h.exclusive]
    rcases mem_concat.mp he' with he' | rfl
    · rw [if_neg (hfresh e' he')]
      exact h.metadata e' he'
    · rw [if_pos rfl]
  exclusive := by
    intro hen
    have hen' : t.embeddedEventJsonEnabled = true := hen
    simp only [Tables.store, hen', if_true]
    exact h.exclusive hen'

theorem Holds.storeAll : ∀ (batch : List (Event E)) {t : Tables E} {persisted : List (Event E)},
    Holds t persisted → (∀ e ∈ batch, e.outlier = false) →
    ((persisted ++ batch).map (·.eventId)).Nodup → Holds (batch.foldl Tables.store t) (persisted ++ batch)
  | [], _, _, h, _, _ => by rwa [append_nil]
  | e :: batch, _, persisted, h, hout, hnd => by
    have hfresh : ∀ e' ∈ persisted, e'.eventId ≠ e.eventId := by
      rw [map_append, nodup_append] at hnd
      exact fun e' he' => hnd.2.2 _ (mem_map_of_mem he') _ (.head _)
    rw [append_cons] at hnd ⊢
    exact (h.store (hout e (.head _)) hfresh).storeAll batch (fun e' he' => hout e' (.tail _ he')) hnd

omit [DecidableEq E] in
/-- Ids tell events apart. -/
theorem eq_of_id (hnd : (events.map (·.eventId)).Nodup) {a b : Event E}
    (ha : a ∈ events) (hb : b ∈ events) (h : a.eventId = b.eventId) : a = b :=
  inj_on_of_nodup_map hnd ha hb h

/-- The search passes exactly the soft-failed events that were not rejected. -/
theorem Holds.mem_passed (h : Holds t persisted) (hnd : (persisted.map (·.eventId)).Nodup) {a p : E} :
    p ∈ passed t true a ↔ p ∈ prevsIn (persisted.filter (·.passable)) a := by
  rw [Extremities.mem_passed, h.edges, h.stored, h.rejections, mem_prevsIn]
  constructor
  · rintro ⟨⟨e, he, rfl, hrej, hp⟩, -, ⟨-, hsoft⟩ | ⟨e', he', hid, hrej'⟩⟩
    · rw [Tables.softFailed, h.metadata e he, Option.getD_some] at hsoft
      exact ⟨e, mem_filter.mpr ⟨he, by simp [Event.passable, hrej, hsoft]⟩, rfl, hp⟩
    · rw [eq_of_id hnd he' he hid, hrej] at hrej'
      cases hrej'
  · rintro ⟨e, he, rfl, hp⟩
    obtain ⟨he, hpass⟩ := mem_filter.mp he
    rw [Event.passable, Bool.and_eq_true, Bool.not_eq_true'] at hpass
    refine ⟨⟨e, he, rfl, hpass.1, hp⟩, ⟨e, he, rfl⟩, .inl ⟨rfl, ?_⟩⟩
    rw [Tables.softFailed, h.metadata e he, Option.getD_some]
    exact hpass.2

/-- The other query finds the prev events of accepted events. -/
theorem Holds.mem_which_are_prevs (h : Holds t persisted)
    (hnd : (persisted.map (·.eventId)).Nodup) {ids : List E} {p : E} :
    p ∈ getEventsWhichArePrevs t ids ↔ p ∈ ids ∧ ∃ x ∈ persisted, x.accepted = true ∧ p ∈ x.prevEventIds := by
  rw [mem_getEventsWhichArePrevs]
  refine and_congr_right fun _ => ?_
  simp only [h.edges, h.stored, h.rejections]
  constructor
  · rintro ⟨_, ⟨e, he, rfl, hrej, hp⟩, -, -, hsoft⟩
    rw [Tables.softFailed, h.metadata e he, Option.getD_some] at hsoft
    exact ⟨e, he, by simp [Event.accepted, hrej, hsoft], hp⟩
  · rintro ⟨x, hx, hacc, hp⟩
    rw [Event.accepted, Bool.and_eq_true, Bool.not_eq_true', Bool.not_eq_true'] at hacc
    refine ⟨x.eventId, ⟨x, hx, rfl, hacc.1, hp⟩, ⟨x, hx, rfl⟩, ?_, ?_⟩
    · rintro ⟨x', hx', hid, hrej⟩
      rw [eq_of_id hnd hx' hx hid, hacc.1] at hrej
      cases hrej
    · rw [Tables.softFailed, h.metadata x hx, Option.getD_some]
      exact hacc.2

/-! ### One batch -/

/-- What the update removes. -/
def Removed (persisted batch : List (Event E)) (f : E) : Prop :=
  (∃ x ∈ persisted ++ batch, x.accepted = true ∧ f ∈ x.prevEventIds) ∨
    ∃ x ∈ batch, x.accepted = true ∧ Through (persisted.filter (·.passable)) x f

theorem mem_calculateNewExtremities {latest : List E}
    (h : Holds t persisted) (hnd : (persisted.map (·.eventId)).Nodup)
    (hout : ∀ e ∈ batch, e.outlier = false) :
    f ∈ calculateNewExtremities t batch latest ↔
      (f ∈ latest ∨ ∃ e ∈ batch, e.eventId = f ∧ e.accepted = true) ∧ ¬ Removed persisted batch f := by
  have hnew : ∀ e, e ∈ batch.filter (·.isNew) ↔ e ∈ batch ∧ e.accepted = true := by
    intro e
    rw [mem_filter]
    refine and_congr_right fun he => ?_
    rw [Event.isNew, Event.accepted, hout e he]
    rfl
  have hprevs : ∀ p, p ∈ (batch.filter (·.isNew)).flatMap (·.prevEventIds) ↔
      ∃ x ∈ batch, x.accepted = true ∧ p ∈ x.prevEventIds := by
    intro p
    simp only [mem_flatMap, hnew, and_assoc]
  have hbelow : ∀ {s}, Below (passed t true) s f ↔ Below (prevsIn (persisted.filter (·.passable))) s f := by
    intro s
    have hedge : Edge (passed t true) = Edge (prevsIn (persisted.filter (·.passable))) :=
      funext fun a => funext fun p => propext (h.mem_passed hnd)
    rw [Below, Below, hedge]
  have hsearch : f ∈ getPrevsBeforeRejected t ((batch.filter (·.isNew)).flatMap (·.prevEventIds)) true ↔
      ∃ x ∈ batch, x.accepted = true ∧ ∃ b ∈ persisted.filter (·.passable), b.eventId ∈ x.prevEventIds ∧
        Through (persisted.filter (·.passable)) b f := by
    rw [mem_getPrevsBeforeRejected]
    constructor
    · rintro ⟨s, hs, hsf⟩
      obtain ⟨x, hx, hacc, hsx⟩ := (hprevs s).mp hs
      obtain ⟨b, hb, rfl, hthrough⟩ := below_prevsIn_iff.mp (hbelow.mp hsf)
      exact ⟨x, hx, hacc, b, hb, hsx, hthrough⟩
    · rintro ⟨x, hx, hacc, b, hb, hbx, hthrough⟩
      exact ⟨b.eventId, (hprevs _).mpr ⟨x, hx, hacc, hbx⟩,
        hbelow.mpr (below_prevsIn_iff.mpr ⟨b, hb, rfl, hthrough⟩)⟩
  simp only [calculateNewExtremities, mem_filter, decide_eq_true_eq, mem_addAll, mem_map, hprevs,
    h.mem_which_are_prevs hnd, hsearch, hnew]
  constructor
  · rintro ⟨⟨⟨hcand, hdirect⟩, hstored⟩, hthrough⟩
    refine ⟨hcand.imp_right (Exists.imp fun e he => ⟨he.1.1, he.2, he.1.2⟩), ?_⟩
    rintro (⟨x, hx, hacc, hf⟩ | ⟨x, hx, hacc, hpath⟩)
    · rcases mem_append.mp hx with hx | hx
      · exact hstored ⟨⟨hcand, hdirect⟩, x, hx, hacc, hf⟩
      · exact hdirect ⟨x, hx, hacc, hf⟩
    · cases hpath with
      | prev hf => exact hdirect ⟨x, hx, hacc, hf⟩
      | step hb hbx hrest => exact hthrough ⟨x, hx, hacc, _, mem_filter.mp hb, hbx, hrest⟩
  · rintro ⟨hcand, hkept⟩
    refine ⟨⟨⟨hcand.imp_right (Exists.imp fun e he => ⟨⟨he.1, he.2.2⟩, he.2.1⟩), ?_⟩, ?_⟩, ?_⟩
    · rintro ⟨x, hx, hacc, hf⟩
      exact hkept (.inl ⟨x, mem_append_right _ hx, hacc, hf⟩)
    · rintro ⟨-, x, hx, hacc, hf⟩
      exact hkept (.inl ⟨x, mem_append_left _ hx, hacc, hf⟩)
    · rintro ⟨x, hx, hacc, b, hb, hbx, hrest⟩
      exact hkept (.inr ⟨x, hx, hacc, .step (mem_filter.mpr hb) hbx hrest⟩)

/-- The update removes hidden events only. -/
theorem Removed.hidden {all : List (Event E)} (hac : Acyclic (prevsIn all))
    (hall : ∀ e ∈ persisted ++ batch, e ∈ all) (h : Removed persisted batch f) :
    Hidden (persisted ++ batch) f := by
  have hpass : ∀ b ∈ persisted.filter (·.passable), b ∈ (persisted ++ batch).filter (!·.accepted) := by
    intro b hb
    obtain ⟨hb, hpass⟩ := mem_filter.mp hb
    rw [Event.passable, Bool.and_eq_true] at hpass
    exact mem_filter.mpr ⟨mem_append_left _ hb, by simp [Event.accepted, hpass.2]⟩
  have hhide : ∀ x ∈ persisted ++ batch, x.accepted = true →
      Through ((persisted ++ batch).filter (!·.accepted)) x f → Hidden (persisted ++ batch) f :=
    fun x hx hacc hpath => ⟨x, hx, hacc,
      hpath.ne hac (fun b hb => hall b (mem_filter.mp hb).1) (hall x hx), hpath⟩
  rcases h with ⟨x, hx, hacc, hf⟩ | ⟨x, hx, hacc, hpath⟩
  · exact hhide x hx hacc (.prev hf)
  · exact hhide x (mem_append_right _ hx) hacc (hpath.mono hpass)

/-- A batch leaves what is not hidden. -/
theorem IsExtremity.kept {all : List (Event E)} (hac : Acyclic (prevsIn all))
    (hall : ∀ e ∈ persisted ++ batch, e ∈ all) (h : IsExtremity (persisted ++ batch) f) :
    (IsExtremity persisted f ∨ ∃ e ∈ batch, e.eventId = f ∧ e.accepted = true) ∧ ¬ Removed persisted batch f := by
  obtain ⟨⟨e, he, rfl, hacc⟩, hvis⟩ := h
  refine ⟨?_, fun hrem => hvis (hrem.hidden hac hall)⟩
  rcases mem_append.mp he with he | he
  · exact .inl ⟨⟨e, he, rfl, hacc⟩, fun hhid => hvis hhid.mono⟩
  · exact .inr ⟨e, he, rfl, hacc⟩

/-- From the right extremities, a batch leads to the right ones exactly if it hides in sight. -/
theorem persist_exact_iff {all : List (Event E)} (hac : Acyclic (prevsIn all)) {r : Room E} (h : Holds r.tables persisted)
    (hnd : ((persisted ++ batch).map (·.eventId)).Nodup) (hout : ∀ e ∈ batch, e.outlier = false)
    (hall : ∀ e ∈ persisted ++ batch, e ∈ all)
    (hexact : ∀ f, f ∈ r.forwardExtremities ↔ IsExtremity persisted f) :
    (∀ f, f ∈ (r.persist batch).forwardExtremities ↔ IsExtremity (persisted ++ batch) f) ↔
      HidesInSight persisted batch := by
  have hnd₁ := hnd.sublist ((sublist_append_left persisted batch).map _)
  have hmem : ∀ f, f ∈ (r.persist batch).forwardExtremities ↔
      (IsExtremity persisted f ∨ ∃ e ∈ batch, e.eventId = f ∧ e.accepted = true) ∧
        ¬ Removed persisted batch f := by
    intro f
    rw [Room.persist, mem_calculateNewExtremities h hnd₁ hout, hexact]
  simp only [hmem]
  constructor
  · intro hright e he hacc hcand hhidden
    -- an event that is hidden and not removed would be a wrong extremity
    by_contra hkept
    refine ((hright e.eventId).mp ⟨?_, hkept⟩).2 hhidden
    rcases mem_append.mp he with hep | heb
    · by_cases heb : e ∈ batch
      · exact .inr ⟨e, heb, rfl, hacc⟩
      · exact .inl ⟨⟨e, hep, rfl, hacc⟩, hcand.resolve_left heb⟩
    · exact .inr ⟨e, heb, rfl, hacc⟩
  · intro hsight f
    constructor
    · rintro ⟨hcand, hkept⟩
      obtain ⟨e, he, rfl, hacc, hfresh⟩ : ∃ e ∈ persisted ++ batch, e.eventId = f ∧ e.accepted = true ∧
          (e ∈ batch ∨ ¬ Hidden persisted e.eventId) := by
        rcases hcand with ⟨⟨e, he, rfl, hacc⟩, hvis⟩ | ⟨e, he, rfl, hacc⟩
        · exact ⟨e, mem_append_left _ he, rfl, hacc, .inr hvis⟩
        · exact ⟨e, mem_append_right _ he, rfl, hacc, .inl he⟩
      exact ⟨⟨e, he, rfl, hacc⟩, fun hhidden => hkept (hsight e he hacc hfresh hhidden)⟩
    · exact fun hext => hext.kept hac hall

/-! ### All batches -/

theorem Room.after_concat (pre : List (List (Event E))) (b : List (Event E)) :
    Room.after enabled (pre ++ [b]) = (Room.after enabled pre).persist b := by
  rw [Room.after, foldl_append]
  rfl

theorem holds_after (batches : List (List (Event E)))
    (hout : ∀ e ∈ batches.flatten, e.outlier = false) (hnd : (batches.flatten.map (·.eventId)).Nodup) :
    Holds (Room.after enabled batches).tables batches.flatten := by
  induction batches using List.reverseRecOn with
  | nil => exact holds_empty enabled
  | append_singleton pre b ih =>
    rw [flatten_append, flatten_singleton] at hout hnd ⊢
    rw [Room.after_concat]
    have hpre := ih (fun e he => hout e (mem_append_left _ he)) (hnd.sublist ((sublist_append_left ..).map _))
    exact hpre.storeAll b (fun e he => hout e (mem_append_right _ he)) hnd

/-- For every acyclic graph of events, none an outlier, persisted once each in any order and in any
    batches: the forward extremities are right after every batch exactly if every batch hides in sight. -/
theorem forward_extremities_exact_iff (batches : List (List (Event E)))
    (hac : Acyclic (prevsIn batches.flatten)) (hout : ∀ e ∈ batches.flatten, e.outlier = false)
    (hnd : (batches.flatten.map (·.eventId)).Nodup) :
    (∀ pre post, batches = pre ++ post → ∀ f,
      f ∈ (Room.after enabled pre).forwardExtremities ↔ IsExtremity pre.flatten f) ↔
    ∀ pre b post, batches = pre ++ b :: post → HidesInSight pre.flatten b := by
  refine forall_prefix_iff (fun f => by simp [Room.after, IsExtremity]) ?_
  -- one batch after batches that are right so far
  rintro pre b post rfl hexact
  have hflat : (pre ++ b :: post).flatten = (pre.flatten ++ b) ++ post.flatten := by simp
  have hall : ∀ e ∈ pre.flatten ++ b, e ∈ (pre ++ b :: post).flatten := fun e he => by
    rw [hflat]
    exact mem_append_left _ he
  rw [hflat] at hnd
  have hnd := hnd.sublist ((sublist_append_left ..).map _)
  have hholds : Holds (Room.after enabled pre).tables pre.flatten := holds_after enabled pre
    (fun e he => hout e (hall e (mem_append_left _ he))) (hnd.sublist ((sublist_append_left ..).map _))
  rw [Room.after_concat, flatten_append, flatten_singleton]
  exact persist_exact_iff hac hholds hnd (fun e he => hout e (hall e (mem_append_right _ he))) hall hexact

/-- An accepted event, an event with it as prev event, and an accepted event behind that one, persisted one
    by one; the middle one is soft-failed or rejected. -/
def line (softFailed rejected : Bool) : List (List (Event ℕ)) :=
  [[⟨0, [], false, false, false⟩], [⟨1, [0], false, softFailed, rejected⟩], [⟨2, [1], false, false, false⟩]]

theorem line_acyclic (softFailed rejected : Bool) : Acyclic (prevsIn (line softFailed rejected).flatten) := by
  refine acyclic_of_rank id fun e p hp => ?_
  obtain ⟨x, hx, rfl, hprev⟩ := mem_prevsIn.mp hp
  have hlt : ∀ softFailed rejected, ∀ x ∈ (line softFailed rejected).flatten,
      ∀ p ∈ x.prevEventIds, p < x.eventId := by decide
  exact hlt _ _ x hx p hprev

theorem line_hidesInSight : ∀ pre b post, line true false = pre ++ b :: post →
    HidesInSight pre.flatten b := by
  intro pre b post hsplit
  have hsingle : ∀ {persisted batch : List (Event ℕ)},
      (∀ x ∈ persisted ++ batch, x.accepted = true → x.eventId = 0) → HidesInSight persisted batch := by
    rintro persisted batch h e he hacc - ⟨x, hx, hxacc, hne, -⟩
    exact absurd ((h x hx hxacc).trans (h e he hacc).symm) hne
  rcases pre with _ | ⟨b₀, _ | ⟨b₁, _ | ⟨b₂, pre⟩⟩⟩ <;>
    simp only [line, nil_append, cons_append, cons.injEq, nil_eq, append_eq_nil_iff, reduceCtorEq,
      and_false] at hsplit
  · obtain ⟨rfl, -⟩ := hsplit
    exact hsingle (by decide)
  · obtain ⟨rfl, rfl, -⟩ := hsplit
    exact hsingle (by decide)
  · obtain ⟨rfl, rfl, rfl, -⟩ := hsplit
    rintro e he hacc - ⟨x, hx, hxacc, hne, hpath⟩
    fin_cases he
    · -- the last event reaches the first through the soft-failed one
      exact .inr ⟨_, mem_singleton_self _, rfl,
        .step (b := ⟨1, [0], false, true, false⟩) (by decide) (by decide) (.prev (by decide))⟩
    · cases hacc
    · fin_cases hx
      · cases hpath with
        | prev hf => cases hf
        | step _ hb _ => cases hb
      · cases hxacc
      · exact absurd rfl hne

theorem forward_extremities_exact_line : (Room.after true (line true false)).forwardExtremities = [2] ∧
      IsExtremity (line true false).flatten 2 ∧ ¬ IsExtremity (line true false).flatten 0 := by
  have hexact := (forward_extremities_exact_iff true (line true false) (line_acyclic _ _) (by decide)
    (by decide)).mpr line_hidesInSight (line true false) [] (append_nil _).symm
  exact ⟨by decide, (hexact 2).mp (by decide), fun h => absurd ((hexact 0).mpr h) (by decide)⟩

/-- However the events come, an accepted event that no other one hides is among the forward extremities, and
    every accepted event is one or behind one. -/
theorem extremities_not_missing (batches : List (List (Event E)))
    (hac : Acyclic (prevsIn batches.flatten)) (hout : ∀ e ∈ batches.flatten, e.outlier = false)
    (hnd : (batches.flatten.map (·.eventId)).Nodup) :
    (∀ f, IsExtremity batches.flatten f → f ∈ (Room.after enabled batches).forwardExtremities) ∧
    ∀ e ∈ batches.flatten, e.accepted = true →
      ∃ f ∈ (Room.after enabled batches).forwardExtremities, BelowEq (prevsIn batches.flatten) f e.eventId := by
  have hmem : ∀ f, IsExtremity batches.flatten f → f ∈ (Room.after enabled batches).forwardExtremities := by
    obtain ⟨all, hall, hacAll⟩ : ∃ all, (∀ e ∈ batches.flatten, e ∈ all) ∧ Acyclic (prevsIn all) :=
      ⟨_, fun e he => he, hac⟩
    clear hac
    induction batches using List.reverseRecOn with
    | nil => rintro f ⟨⟨e, he, -⟩, -⟩; cases he
    | append_singleton pre b ih =>
      rw [flatten_append, flatten_singleton] at hout hnd hall ⊢
      have hnd₁ := hnd.sublist ((sublist_append_left ..).map _)
      have hout₁ : ∀ e ∈ pre.flatten, e.outlier = false := fun e he => hout e (mem_append_left _ he)
      intro f hf
      rw [Room.after_concat, Room.persist, mem_calculateNewExtremities (holds_after enabled pre hout₁ hnd₁) hnd₁
        fun e he => hout e (mem_append_right _ he)]
      refine (hf.kept hacAll hall).imp_left (Or.imp_left ?_)
      exact ih hout₁ hnd₁ (fun e he => hall e (mem_append_left _ he)) f
  refine ⟨hmem, fun e he hacc => ?_⟩
  -- go up from the event to one that is not hidden
  refine hac.induction_above (batches.flatten.map (·.eventId)) (P := fun x =>
    (∃ e ∈ batches.flatten, e.eventId = x ∧ e.accepted = true) → ∃ f ∈ _, BelowEq (prevsIn batches.flatten) f x)
    (fun x _ ih hx => ?_) e.eventId (mem_map_of_mem he) ⟨e, he, rfl, hacc⟩
  by_cases hhid : Hidden batches.flatten x
  · obtain ⟨y, hy, hyacc, -, hpath⟩ := hhid
    have hyx : Below (prevsIn batches.flatten) y.eventId x :=
      below_prevsIn_iff.mpr ⟨y, hy, rfl, hpath.mono fun b hb => (mem_filter.mp hb).1⟩
    obtain ⟨f, hf, hfy⟩ := ih _ (mem_map_of_mem hy) hyx ⟨y, hy, rfl, hyacc⟩
    exact ⟨f, hf, hfy.trans hyx.to_reflTransGen⟩
  · exact ⟨x, hmem x ⟨hx, hhid⟩, .refl⟩

theorem extremities_not_missing_line : ∃ f ∈ (Room.after true (line false true)).forwardExtremities,
    BelowEq (prevsIn (line false true).flatten) f 2 :=
  (extremities_not_missing true _ (line_acyclic _ _) (by decide) (by decide)).2
    ⟨2, [1], false, false, false⟩ (by decide) rfl

/-- With the middle event rejected the first one stays a forward extremity, though all events arrive after
    their prev events and in batches of their own: the search has no edges of a rejected event to follow. -/
theorem rejected_prev_keeps_extremity :
    Acyclic (prevsIn (line false true).flatten) ∧ (∀ e ∈ (line false true).flatten, e.outlier = false) ∧
      ((line false true).flatten.map (·.eventId)).Nodup ∧
      (Room.after false (line false true)).forwardExtremities = [0, 2] ∧
      ¬ IsExtremity (line false true).flatten 0 := by
  refine ⟨line_acyclic _ _, by decide, by decide, by decide, fun h => h.2 ?_⟩
  exact ⟨⟨2, [1], false, false, false⟩, by decide, rfl, by decide,
    .step (b := ⟨1, [0], false, false, true⟩) (by decide) (by decide) (.prev (by decide))⟩

end Sithnapse.Extremities
