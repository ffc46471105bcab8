import Sithnapse.Kit.Outcome
import Sithnapse.EdgeStore.Records

/-! What the edge store answers after any writes and deletes.

    The answers are compared with a specification that knows no records: the edges of each event since
    its last delete. They agree as long as rows lie in the room of both their events, ids come back from
    their records, and the counts in the records do not overflow. -/

namespace Sithnapse.EdgeStore

open Kit List Option

variable {R : Type} [DecidableEq R]

/-! ### Calls and their specification -/

/-- The calls that change the store. -/
inductive Call (R : Type)
  | put (o : MapOrder R) (rows : List (EdgeRow R))
  | delete (events : List String)

/-- One call. -/
def Call.apply (s : Store R) : Call R → Except Malformed (Store R)
  | .put o rows => eventEdgesPut o s rows
  | .delete events => .ok (eventEdgesDelete s events)

/-- Calls in a row, from the empty store. -/
def runCalls (calls : List (Call R)) : Except Malformed (Store R) :=
  calls.foldlM Call.apply Store.empty

/-- The rows a call puts. -/
def Call.rows : Call R → List (EdgeRow R)
  | .put _ rows => rows
  | .delete _ => []

/-- The edges that rows carry for an event, whatever the room. -/
def eventEdges (rows : List (EdgeRow R)) (e : String) : List (String × Bool) :=
  (rows.filter fun row => row.event = e).map fun row => (row.prev, row.isState)

/-- The edges of the live events after a call. -/
def Call.effect (live : String → Option (List (String × Bool))) :
    Call R → String → Option (List (String × Bool))
  | .put _ rows, e => if ∃ row ∈ rows, row.event = e then some (eventEdges rows e) else live e
  | .delete events, e => if e ∈ events then none else live e

/-- The edges of every event that was put after its last delete. -/
def liveEdges (calls : List (Call R)) : String → Option (List (String × Bool)) :=
  calls.foldl Call.effect fun _ => none

/-- Every call carries all prev edges of the events it puts, in the event's room. -/
structure Complete (room : String → R) (prevEdges : String → List (String × Bool))
    (calls : List (Call R)) : Prop where
  room_event : ∀ call ∈ calls, ∀ row ∈ call.rows, row.room = room row.event
  all : ∀ call ∈ calls, ∀ row ∈ call.rows, ∀ x, x ∈ eventEdges call.rows row.event ↔ x ∈ prevEdges row.event

/-- Rows lie in the room of their prev event too, and records hold what is put into them. -/
structure Fits (room : String → R) (calls : List (Call R)) : Prop where
  room_prev : ∀ call ∈ calls, ∀ row ∈ call.rows, row.room = room row.prev
  ids : ∀ call ∈ calls, ∀ row ∈ call.rows, Reemitted row.event ∧ Reemitted row.prev
  edges : ∀ call ∈ calls, ∀ e, (eventEdges call.rows e).length < 2 ^ 16
  children : ∀ p, (addAll [] (childrenOf (calls.flatMap Call.rows) (room p, p))).length < 2 ^ 32

variable {rows : List (EdgeRow R)} {n : ℕ}

omit [DecidableEq R] in
theorem mem_eventEdges {e : String} {x : String × Bool} :
    x ∈ eventEdges rows e ↔ ∃ row ∈ rows, row.event = e ∧ (row.prev, row.isState) = x := by
  simp [eventEdges, and_assoc]

/-- In the event's room the rows of the key are those of the event. -/
theorem edgesOf_eq {room : String → R} (h : ∀ row ∈ rows, row.room = room row.event) (e : String) :
    edgesOf rows (room e, e) = eventEdges rows e := by
  rw [edgesOf, eventEdges]
  congr 1
  refine filter_congr fun row hrow => ?_
  rw [decide_eq_decide, Prod.mk.injEq]
  exact ⟨fun hk => hk.2, fun he => ⟨he ▸ h row hrow, he⟩⟩

/-! ### The store after some calls -/

/-- The store holds the rows put so far, and the edges of the live events. -/
structure Holds (room : String → R) (rows : List (EdgeRow R))
    (live : String → Option (List (String × Bool))) (s : Store R) : Prop where
  locator : ∀ e, s.locator.get? e = if ∃ row ∈ rows, row.event = e ∨ row.prev = e then some (room e) else none
  edges : ∀ e l, live e = some l → s.backward.get? (room e, e) = some (encodeBackwardEdges e l)
  gone : ∀ e, live e = none → s.backward.get? (room e, e) = some [] ∨
    s.backward.get? (room e, e) = none ∧ ∀ row ∈ rows, row.event ≠ e
  forward : ∀ p, s.forward.get? (room p, p) = forwardRecord rows (room p, p)

/-- Live edges come from rows, and fit their record. -/
structure LiveFrom (prevEdges : String → List (String × Bool)) (rows : List (EdgeRow R))
    (live : String → Option (List (String × Bool))) : Prop where
  named : ∀ e l, live e = some l → ∃ row ∈ rows, row.event = e
  mem : ∀ e l, live e = some l → ∀ x, x ∈ l ↔ x ∈ prevEdges e
  rows : ∀ e l, live e = some l → ∀ x ∈ l, ∃ row ∈ rows, row.event = e ∧ (row.prev, row.isState) = x
  short : ∀ e l, live e = some l → l.length < 2 ^ 16

theorem holds_empty (room : String → R) :
    Holds room [] (fun _ => none) (Store.empty : Store R) where
  locator e := by simp [Store.empty]
  edges e l h := by cases h
  gone e _ := .inr ⟨rfl, by simp⟩
  forward p := by simp [Store.empty, forwardRecord, childrenOf]

/-- The forward list read back. -/
theorem Holds.childList {room : String → R}
    {live : String → Option (List (String × Bool))} {s : Store R} (h : Holds room rows live s)
    (hids : ∀ row ∈ rows, Reemitted row.event) (p : String)
    (hlen : (addAll [] (childrenOf rows (room p, p))).length < 2 ^ 32) :
    childList (s.forward.get? (room p, p)) = .ok (addAll [] (childrenOf rows (room p, p))) := by
  rw [h.forward p]
  exact childList_forwardRecord hids hlen

/-- `write_edges` writes from the lists it reads, when they all decode. -/
theorem writeEdges_ok (o : MapOrder R) {read : R × String → Option (List UInt8)} {lists : R × String → List String}
    (h : ∀ key ∈ (forwardMap rows).keys, childList (read key) = .ok (lists key)) :
    ∃ existing, writeEdges o read rows = .ok (edgeWrites o existing rows) ∧
      ∀ key, childrenOf rows key ≠ [] → existing key = lists key := by
  have hperm := o.reads_perm (forwardMap rows).keys
  have hmap : ((o.reads (forwardMap rows).keys).mapM fun key => (childList (read key)).map (key, ·)) =
      .ok ((o.reads (forwardMap rows).keys).map fun key => (key, lists key)) :=
    mapM_eq_ok fun key hkey => by rw [h key (hperm.mem_iff.mp hkey)]; rfl
  refine ⟨_, by rw [writeEdges, forwardCache, hmap]; rfl, fun key hkey => ?_⟩
  obtain ⟨c, hc⟩ := exists_mem_of_ne_nil _ hkey
  obtain ⟨row, hrow, hk, -⟩ := mem_childrenOf.mp hc
  have hmem : key ∈ (forwardMap rows).keys :=
    mem_map.mpr ⟨(key, childrenOf rows key), mem_forwardMap.mpr ⟨⟨row, hrow, hk⟩, rfl⟩, rfl⟩
  refine Dict.getD_of_get? ?_
  rw [Dict.get?_ofList_map lists, if_pos (hperm.mem_iff.mpr hmem)]

section Steps

variable {room : String → R} {prevEdges : String → List (String × Bool)}
  {live : String → Option (List (String × Bool))} {s : Store R}

/-- A put adds its rows and revives their events. -/
theorem Holds.put (h : Holds room rows live s) (o : MapOrder R) {new : List (EdgeRow R)}
    (hevent : ∀ row ∈ new, row.room = room row.event) (hprev : ∀ row ∈ new, row.room = room row.prev)
    (hids : ∀ row ∈ rows, Reemitted row.event)
    (hlen : ∀ p, (addAll [] (childrenOf rows (room p, p))).length < 2 ^ 32) :
    ∃ s', eventEdgesPut o s new = .ok s' ∧ Holds room (rows ++ new) ((Call.put o new).effect live) s' := by
  have hread : ∀ key ∈ (forwardMap new).keys,
      Sithnapse.EdgeStore.childList (s.forward.get? key) = .ok (addAll [] (childrenOf rows key)) := by
    intro key hkey
    obtain ⟨p, hp, rfl⟩ := mem_map.mp hkey
    obtain ⟨⟨row, hrow, hk⟩, -⟩ := mem_forwardMap.mp hp
    rw [← hk, hprev row hrow]
    exact h.childList hids row.prev (hlen row.prev)
  obtain ⟨existing, hwrite, hexisting⟩ := writeEdges_ok o hread
  refine ⟨s.put (edgeWrites o existing new), by rw [eventEdgesPut, hwrite]; rfl, ?_⟩
  have hkey : ∀ e, (∃ row ∈ new, (row.room, row.event) = (room e, e)) ↔ ∃ row ∈ new, row.event = e := by
    intro e
    refine ⟨fun ⟨row, hrow, hk⟩ => ⟨row, hrow, congrArg Prod.snd hk⟩, ?_⟩
    rintro ⟨row, hrow, rfl⟩
    exact ⟨row, hrow, by rw [hevent row hrow]⟩
  refine ⟨fun e => ?_, fun e l hl => ?_, fun e he => ?_, fun p => ?_⟩
  · rw [locator_put o s existing fun row hrow he => he.elim (fun h => h ▸ hevent row hrow)
      fun h => h ▸ hprev row hrow, h.locator e]
    simp only [mem_append, or_and_right, exists_or]
    by_cases hnamed : ∃ row ∈ new, row.event = e ∨ row.prev = e
    · rw [if_pos hnamed, if_pos (.inr hnamed)]
    · rw [if_neg hnamed]
      exact if_congr (or_iff_left hnamed).symm rfl rfl
  · rw [backward_put]
    rw [Call.effect] at hl
    by_cases hput : ∃ row ∈ new, row.event = e
    · rw [if_pos hput] at hl
      rw [if_pos ((hkey e).mpr hput), edgesOf_eq hevent, some.inj hl]
    · rw [if_neg hput] at hl
      rw [if_neg (mt (hkey e).mp hput)]
      exact h.edges e l hl
  · rw [Call.effect] at he
    by_cases hput : ∃ row ∈ new, row.event = e
    · rw [if_pos hput] at he
      cases he
    · rw [if_neg hput] at he
      rw [backward_put, if_neg (mt (hkey e).mp hput)]
      refine (h.gone e he).imp_right fun hnone => ⟨hnone.1, fun row hrow => ?_⟩
      rcases mem_append.mp hrow with hrow | hrow
      · exact hnone.2 row hrow
      · exact fun heq => hput ⟨row, hrow, heq⟩
  · exact forwardRecord_put o (h.forward p) (hexisting (room p, p))

/-- A delete empties the backward records of its events. -/
theorem Holds.delete (h : Holds room rows live s) (events : List String)
    (hlive : ∀ e l, live e = some l → ∃ row ∈ rows, row.event = e) :
    Holds room rows ((Call.delete (R := R) events).effect live) (eventEdgesDelete s events) := by
  refine ⟨h.locator, fun e l hl => ?_, fun e he => ?_, h.forward⟩
  · rw [Call.effect] at hl
    split at hl
    · cases hl
    · rename_i hmem
      rw [backward_delete, if_neg fun hd => hmem hd.1]
      exact h.edges e l hl
  · rw [backward_delete]
    split_ifs with hkept
    · exact .inl rfl
    · rw [Call.effect] at he
      split at he
      · rename_i hmem
        -- the event has no locator, so no row ever named it
        have hno : ¬ ∃ row ∈ rows, row.event = e ∨ row.prev = e := by
          intro hrow
          exact hkept ⟨hmem, by rw [h.locator e, if_pos hrow]⟩
        cases hl : live e with
        | none => exact h.gone e hl
        | some l =>
          obtain ⟨row, hrow, heq⟩ := hlive e l hl
          exact absurd ⟨row, hrow, .inl heq⟩ hno
      · exact h.gone e he

omit [DecidableEq R] in
theorem LiveFrom.put (h : LiveFrom prevEdges rows live) (o : MapOrder R) {new : List (EdgeRow R)}
    (hall : ∀ row ∈ new, ∀ x, x ∈ eventEdges new row.event ↔ x ∈ prevEdges row.event)
    (hshort : ∀ e, (eventEdges new e).length < 2 ^ 16) :
    LiveFrom prevEdges (rows ++ new) ((Call.put o new).effect live) := by
  -- an event of the call has its rows from it, any other event has what it had
  have hcases : ∀ e l, (Call.put o new).effect live e = some l →
      (∃ row ∈ new, row.event = e) ∧ l = eventEdges new e ∨ live e = some l := by
    intro e l hl
    rw [Call.effect] at hl
    split_ifs at hl with hput
    · exact .inl ⟨hput, (some.inj hl).symm⟩
    · exact .inr hl
  refine ⟨fun e l hl => ?_, fun e l hl => ?_, fun e l hl x hx => ?_, fun e l hl => ?_⟩
  · rcases hcases e l hl with ⟨⟨row, hrow, he⟩, -⟩ | hold
    · exact ⟨row, mem_append_right _ hrow, he⟩
    · exact (h.named e l hold).imp fun row hr => ⟨mem_append_left _ hr.1, hr.2⟩
  · rcases hcases e l hl with ⟨⟨row, hrow, rfl⟩, rfl⟩ | hold
    · exact hall row hrow
    · exact h.mem e l hold
  · rcases hcases e l hl with ⟨-, rfl⟩ | hold
    · obtain ⟨row, hrow, hr⟩ := mem_eventEdges.mp hx
      exact ⟨row, mem_append_right _ hrow, hr⟩
    · exact (h.rows e l hold x hx).imp fun row hr => ⟨mem_append_left _ hr.1, hr.2⟩
  · rcases hcases e l hl with ⟨-, rfl⟩ | hold
    · exact hshort e
    · exact h.short e l hold

omit [DecidableEq R] in
theorem LiveFrom.delete (h : LiveFrom prevEdges rows live) (events : List String) :
    LiveFrom prevEdges rows ((Call.delete (R := R) events).effect live) := by
  have hkept : ∀ e l, (Call.delete (R := R) events).effect live e = some l → live e = some l := by
    intro e l hl
    rw [Call.effect] at hl
    split at hl
    · cases hl
    · exact hl
  exact ⟨fun e l hl => h.named e l (hkept e l hl), fun e l hl => h.mem e l (hkept e l hl),
    fun e l hl => h.rows e l (hkept e l hl), fun e l hl => h.short e l (hkept e l hl)⟩

end Steps

/-! ### Runs -/

section Runs

variable {room : String → R} {prevEdges : String → List (String × Bool)} {calls : List (Call R)}

omit [DecidableEq R] in
theorem Complete.init {call : Call R} (h : Complete room prevEdges (calls ++ [call])) :
    Complete room prevEdges calls :=
  ⟨fun c hc => h.room_event c (mem_append_left _ hc), fun c hc => h.all c (mem_append_left _ hc)⟩

/-- Forward lists only grow, so an earlier one is no longer. -/
theorem Fits.init {call : Call R} (h : Fits room (calls ++ [call])) : Fits room calls where
  room_prev c hc := h.room_prev c (mem_append_left _ hc)
  ids c hc := h.ids c (mem_append_left _ hc)
  edges c hc := h.edges c (mem_append_left _ hc)
  children p := by
    have hp := h.children p
    rw [flatMap_append, childrenOf_append, addAll_append] at hp
    exact (length_le_addAll _ _).trans_lt hp

theorem Fits.reemitted (h : Fits room calls) :
    ∀ row ∈ calls.flatMap Call.rows, Reemitted row.event ∧ Reemitted row.prev := by
  intro row hrow
  obtain ⟨call, hcall, hr⟩ := mem_flatMap.mp hrow
  exact h.ids call hcall row hr

/-- The store holds what was put, after any calls that fit. -/
theorem holds_runCalls (hc : Complete room prevEdges calls) (hf : Fits room calls) :
    ∃ s, runCalls calls = .ok s ∧ Holds room (calls.flatMap Call.rows) (liveEdges calls) s ∧
      LiveFrom prevEdges (calls.flatMap Call.rows) (liveEdges calls) := by
  induction calls using List.reverseRecOn with
  | nil =>
    refine ⟨Store.empty, rfl, holds_empty room, ?_⟩
    constructor <;> intro e l h <;> cases h
  | append_singleton calls call ih =>
    obtain ⟨s, hrun, hholds, hlive⟩ := ih hc.init hf.init
    have hrun' : runCalls (calls ++ [call]) = call.apply s := by
      rw [runCalls, foldlM_append, ← runCalls, hrun]
      exact bind_pure (call.apply s)
    have hedges : liveEdges (calls ++ [call]) = call.effect (liveEdges calls) := by
      rw [liveEdges, foldl_append]
      rfl
    have hmem : call ∈ calls ++ [call] := mem_append_right _ (.head _)
    rw [hrun', hedges, flatMap_append, flatMap_singleton]
    cases call with
    | put o new =>
      obtain ⟨s', hput, hholds'⟩ := hholds.put o (hc.room_event _ hmem) (hf.room_prev _ hmem)
        (fun row hrow => (hf.init.reemitted row hrow).1) hf.init.children
      exact ⟨s', hput, hholds', hlive.put o (hc.all _ hmem) (hf.edges _ hmem)⟩
    | delete events =>
      rw [Call.rows, append_nil]
      exact ⟨_, rfl, hholds.delete events hlive.named, hlive.delete events⟩

end Runs

/-! ### Answers -/

theorem keepLive_eq {status : String → Option Bool} {f : String → Bool} : ∀ {l : List String},
    (∀ c ∈ l, status c = some (f c)) → keepLive status l = some (l.filter f)
  | [], _ => rfl
  | c :: l, h => by
    have htail := keepLive_eq fun x hx => h x (mem_cons_of_mem c hx)
    rw [keepLive, h c (.head _)]
    cases hc : f c
    · simpa [hc] using htail
    · simp [hc, htail]

section Answers

variable {room : String → R} {prevEdges : String → List (String × Bool)}
  {live : String → Option (List (String × Bool))} {s : Store R}
  (h : Holds room rows live s)

include h

/-- The backward read of a live event, as far as its record's count goes. -/
theorem Holds.getBackward_live {e : String} {l : List (String × Bool)}
    (hl : live e = some l) (hnamed : ∃ row ∈ rows, row.event = e) (hself : Reemitted e)
    (hids : ∀ x ∈ l.take (l.length % 2 ^ 16), Reemitted x.1) :
    getBackward s e = .ok (some (l.take (l.length % 2 ^ 16))) := by
  refine getBackward_record ?_ (h.edges e l hl) hself hids
  rw [h.locator e]
  exact if_pos (hnamed.imp fun row hrow => ⟨hrow.1, .inl hrow.2⟩)

theorem Holds.getBackward (hlive : LiveFrom prevEdges rows live)
    (hids : ∀ row ∈ rows, Reemitted row.event ∧ Reemitted row.prev) (e : String) :
    getBackward s e = .ok (live e) := by
  cases hl : live e with
  | none =>
    rw [Sithnapse.EdgeStore.getBackward, h.locator e]
    by_cases hnamed : ∃ row ∈ rows, row.event = e ∨ row.prev = e
    · rw [if_pos hnamed, bind_some]
      rcases h.gone e hl with hgone | ⟨hgone, -⟩
      · rw [hgone]
      · rw [hgone]
    · rw [if_neg hnamed]
      rfl
  | some l =>
    obtain ⟨row, hrow, rfl⟩ := hlive.named e l hl
    have hshort : l.take (l.length % 2 ^ 16) = l := by
      rw [Nat.mod_eq_of_lt (hlive.short _ l hl), take_length]
    have hread := h.getBackward_live hl ⟨row, hrow, rfl⟩ (hids row hrow).1 fun x hx => by
      obtain ⟨row', hrow', -, rfl⟩ := hlive.rows _ l hl x (mem_of_mem_take hx)
      exact (hids row' hrow').2
    rw [hread, hshort]

/-- Every recorded child has a backward record, empty exactly if it is deleted. -/
theorem Holds.live_child (hevent : ∀ row ∈ rows, row.room = room row.event) {p c : String}
    (hc : c ∈ childrenOf rows (room p, p)) : s.live (room p) c = some (live c).isSome := by
  obtain ⟨row, hrow, hkey, rfl⟩ := mem_childrenOf.mp hc
  have hroom : room p = room row.event := by
    rw [← hevent row hrow]
    exact (congrArg Prod.fst hkey).symm
  rw [Store.live, hroom]
  cases hl : live row.event with
  | none =>
    rcases h.gone _ hl with hgone | ⟨-, hnone⟩
    · rw [hgone]
      rfl
    · exact absurd rfl (hnone row hrow)
  | some l =>
    rw [h.edges _ l hl]
    rfl

/-- The forward read hands out the live ones of the recorded children. -/
theorem Holds.getForward (hevent : ∀ row ∈ rows, row.room = room row.event)
    (hids : ∀ row ∈ rows, Reemitted row.event) (p : String) (hlen : (addAll [] (childrenOf rows (room p, p))).length < 2 ^ 32) :
    getForward s p = .ok (handOut (some
      ((addAll [] (childrenOf rows (room p, p))).filter fun c => (live c).isSome))) := by
  rw [Sithnapse.EdgeStore.getForward, h.locator p]
  by_cases hnil : childrenOf rows (room p, p) = []
  · rw [hnil]
    split
    · rfl
    · rename_i r hr
      split at hr
      · cases hr
        rw [h.forward p, forwardRecord, if_pos hnil]
        rfl
      · cases hr
  · obtain ⟨c, hc⟩ := exists_mem_of_ne_nil _ hnil
    obtain ⟨row, hrow, hkey, -⟩ := mem_childrenOf.mp hc
    have hread := h.childList hids p hlen
    have hkeep : keepLive (s.live (room p)) (addAll [] (childrenOf rows (room p, p))) =
        some ((addAll [] (childrenOf rows (room p, p))).filter fun c => (live c).isSome) :=
      keepLive_eq fun x hx => h.live_child hevent ((mem_addAll.mp hx).resolve_left (by simp))
    rw [if_pos ⟨row, hrow, .inr (congrArg Prod.snd hkey)⟩]
    rw [h.forward p, forwardRecord, if_neg hnil, encodeForwardEdges, Sithnapse.EdgeStore.childList] at hread
    simp only [h.forward p, forwardRecord, if_neg hnil, encodeForwardEdges, hread, hkeep]

end Answers

/-- A live event with `p` among its prev events. -/
def LiveChild (calls : List (Call R)) (p c : String) : Prop :=
  ∃ l, liveEdges calls c = some l ∧ p ∈ l.map Prod.fst

/-- A child recorded for `p` has no backward record at all. -/
def Unrecorded (s : Store R) (p : String) : Prop :=
  ∃ r children c, s.locator.get? p = some r ∧ childList (s.forward.get? (r, p)) = .ok children ∧
    c ∈ children ∧ s.backward.get? (r, c) = none

theorem handOut_eq_none {l : List String} : handOut (some l) = none ↔ l = [] := by
  cases l <;> simp [handOut]

theorem handOut_eq_some {l l' : List String} (h : handOut (some l) = some l') : l = l' := by
  cases l with
  | nil => cases h
  | cons c cs => exact some.inj h

/-- After any calls that fit: the backward read gives the edges of every live event and nothing for
    the others; the forward read gives the live children, each once, or nothing if there are none or
    if a recorded child has no backward record. -/
theorem edge_store_contract {room : String → R} {prevEdges : String → List (String × Bool)}
    {calls : List (Call R)} (hc : Complete room prevEdges calls) (hf : Fits room calls) :
    ∃ s, runCalls calls = .ok s ∧
      (∀ events, eventEdgesGetBackward s events = .ok (events.map fun e => (e, liveEdges calls e))) ∧
      (∀ e l, liveEdges calls e = some l → ∀ x, x ∈ l ↔ x ∈ prevEdges e) ∧
      ∃ answer : String → Option (List String),
        (∀ prevs, eventEdgesGetForward s prevs = .ok (prevs.map fun p => (p, answer p))) ∧
        ∀ p, (answer p = none ↔ (¬ ∃ c, LiveChild calls p c) ∨ Unrecorded s p) ∧
          ∀ l, answer p = some l → l.Nodup ∧ ∀ c, c ∈ l ↔ LiveChild calls p c := by
  obtain ⟨s, hrun, hholds, hlive⟩ := holds_runCalls hc hf
  have hids := hf.reemitted
  have hrows : ∀ row ∈ calls.flatMap Call.rows, row.room = room row.event ∧ row.room = room row.prev ∧
      (row.prev, row.isState) ∈ prevEdges row.event := by
    intro row hrow
    obtain ⟨call, hcall, hr⟩ := mem_flatMap.mp hrow
    exact ⟨hc.room_event call hcall row hr, hf.room_prev call hcall row hr,
      (hc.all call hcall row hr _).mp (mem_eventEdges.mpr ⟨row, hr, rfl, rfl⟩)⟩
  -- the recorded children that are live are the live children
  have hchild : ∀ p c, c ∈ (addAll [] (childrenOf (calls.flatMap Call.rows) (room p, p))).filter
      (fun c => (liveEdges calls c).isSome) ↔ LiveChild calls p c := by
    intro p c
    rw [mem_filter, mem_addAll, isSome_iff_exists]
    constructor
    · rintro ⟨hmem, l, hl⟩
      obtain ⟨row, hrow, hkey, rfl⟩ := mem_childrenOf.mp (hmem.resolve_left (by simp))
      refine ⟨l, hl, mem_map.mpr ⟨(row.prev, row.isState), ?_, congrArg Prod.snd hkey⟩⟩
      exact (hlive.mem _ l hl _).mpr (hrows row hrow).2.2
    · rintro ⟨l, hl, hp⟩
      obtain ⟨x, hx, rfl⟩ := mem_map.mp hp
      obtain ⟨row, hrow, he, rfl⟩ := hlive.rows c l hl x hx
      refine ⟨.inr (mem_childrenOf.mpr ⟨row, hrow, ?_, he⟩), l, hl⟩
      rw [(hrows row hrow).2.1]
  have hback : ∀ e, getBackward s e = .ok (liveEdges calls e) := hholds.getBackward hlive hids
  have hforw := fun p => hholds.getForward (fun row hr => (hrows row hr).1)
    (fun row hr => (hids row hr).1) p (hf.children p)
  refine ⟨s, hrun, fun events => mapM_eq_ok fun e _ => by rw [hback e]; rfl, hlive.mem, _,
    fun prevs => mapM_eq_ok fun p _ => by rw [hforw p]; rfl, fun p => ⟨?_, fun l hl => ?_⟩⟩
  · rw [handOut_eq_none, eq_nil_iff_forall_not_mem]
    constructor
    · intro hnone
      exact .inl fun ⟨c, hc⟩ => hnone c ((hchild p c).mpr hc)
    · rintro (hnone | ⟨r, children, c, hloc, hlist, hmem, hrecord⟩)
      · exact fun c hc => hnone ⟨c, (hchild p c).mp hc⟩
      · -- no recorded child lacks its backward record
        rw [hholds.locator p] at hloc
        split at hloc
        · cases hloc
          rw [hholds.childList (fun row hr => (hids row hr).1) p (hf.children p)] at hlist
          cases hlist
          have hstatus := hholds.live_child (fun row hr => (hrows row hr).1)
            ((mem_addAll.mp hmem).resolve_left (by simp))
          rw [Store.live, hrecord] at hstatus
          cases hstatus
        · cases hloc
  · rw [← handOut_eq_some hl]
    exact ⟨(nodup_addAll _ nodup_nil).filter _, hchild p⟩

/-- Fewer than 2 ^ 32 rows never overflow the count of a forward list. -/
theorem length_children_lt {rows : List (EdgeRow R)} (h : rows.length < 2 ^ 32) (key : R × String) :
    (addAll [] (childrenOf rows key)).length < 2 ^ 32 := by
  have hadd := length_addAll_le (childrenOf rows key) []
  have hrows : (childrenOf rows key).length ≤ rows.length := by
    rw [childrenOf, length_map]
    exact length_filter_le _ _
  rw [length_nil] at hadd
  omega

/-- Two rooms in one batch, and a delete of one of two children of `$p`. -/
def mixedCalls : List (Call String) :=
  [.put .asBuilt [⟨"!a", "$e", "$p", false⟩, ⟨"!a", "$f", "$p", true⟩, ⟨"!b", "$g", "$q", false⟩],
    .delete ["$e"]]

/-- The room of each event there. -/
def mixedRoom (e : String) : String := if e = "$g" ∨ e = "$q" then "!b" else "!a"

/-- The prev edges of each event there. -/
def mixedEdges (e : String) : List (String × Bool) :=
  if e = "$e" then [("$p", false)] else if e = "$f" then [("$p", true)]
  else if e = "$g" then [("$q", false)] else []

omit [DecidableEq R] in
/-- Every call carries the edges of its events in their order. -/
theorem complete_of_eq {room : String → R} {prevEdges : String → List (String × Bool)} {calls : List (Call R)}
    (hroom : ∀ call ∈ calls, ∀ row ∈ call.rows, row.room = room row.event)
    (hall : ∀ call ∈ calls, ∀ row ∈ call.rows, eventEdges call.rows row.event = prevEdges row.event) :
    Complete room prevEdges calls :=
  ⟨hroom, fun call hcall row hrow x => by rw [hall call hcall row hrow]⟩

theorem mixedCalls_complete : Complete mixedRoom mixedEdges mixedCalls :=
  complete_of_eq (by decide +kernel) (by decide +kernel)

theorem mixedCalls_fits : Fits mixedRoom mixedCalls where
  room_prev := by decide +kernel
  ids := by decide +kernel
  edges := by
    intro call hcall e
    have hrows : ∀ call ∈ mixedCalls, call.rows.length ≤ 3 := by decide +kernel
    have hfilter := length_filter_le (fun row : EdgeRow String => decide (row.event = e)) call.rows
    have hle := hrows call hcall
    rw [eventEdges, length_map]
    omega
  children _ := length_children_lt (by decide +kernel) _

/-- The contract there: `$f` is the one live child of `$p`. -/
theorem edge_store_contract_mixed :
    liveEdges mixedCalls "$e" = none ∧ liveEdges mixedCalls "$f" = some [("$p", true)] ∧
    ∃ s, runCalls mixedCalls = .ok s ∧
      (∀ events, eventEdgesGetBackward s events = .ok (events.map fun e => (e, liveEdges mixedCalls e))) ∧
      (∀ e l, liveEdges mixedCalls e = some l → ∀ x, x ∈ l ↔ x ∈ mixedEdges e) ∧
      ∃ answer : String → Option (List String),
        (∀ prevs, eventEdgesGetForward s prevs = .ok (prevs.map fun p => (p, answer p))) ∧
        ∀ p, (answer p = none ↔ (¬ ∃ c, LiveChild mixedCalls p c) ∨ Unrecorded s p) ∧
          ∀ l, answer p = some l → l.Nodup ∧ ∀ c, c ∈ l ↔ LiveChild mixedCalls p c :=
  ⟨by decide +kernel, by decide +kernel, edge_store_contract mixedCalls_complete mixedCalls_fits⟩

/-! ### Where it fails -/

/-- An event of room `!b`, then one of room `!a` that names it as a prev event. -/
def crossCalls : List (Call String) :=
  [.put .asBuilt [⟨"!b", "$p", "$q", false⟩], .put .asBuilt [⟨"!a", "$e", "$p", false⟩]]

/-- Calls that carry all edges in their event's room, and a live event whose edges are not read back: it is
    hidden once an event of another room names it. -/
theorem edge_reads_go_wrong :
    Complete (fun e => if e = "$e" then "!a" else "!b")
        (fun e => if e = "$e" then [("$p", false)] else [("$q", false)]) crossCalls ∧
      (∃ s, runCalls crossCalls = .ok s ∧ getBackward s "$p" = .ok none) ∧
      liveEdges crossCalls "$p" = some [("$q", false)] := by
  refine ⟨complete_of_eq (by decide +kernel) (by decide +kernel), ?_, by decide +kernel⟩
  have hread : (runCalls crossCalls).toOption.map (getBackward · "$p") = some (.ok none) := by decide +kernel
  cases hrun : runCalls crossCalls with
  | error m =>
    rw [hrun] at hread
    cases hread
  | ok s =>
    rw [hrun] at hread
    exact ⟨s, rfl, some.inj hread⟩

end Sithnapse.EdgeStore
