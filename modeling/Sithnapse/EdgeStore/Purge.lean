import Sithnapse.Kit.Runs
import Sithnapse.EdgeStore.Records

/-! Purges and edge writes after commit.

    A transaction that persists events commits their SQL rows and leaves a callback that puts their edges;
    a purge commits the deletion of rows and leaves a callback that deletes edges. Callbacks run later,
    in any order between transactions. A purge's callback that overtakes the put of an event it deletes
    leaves the event live for good. -/

namespace Sithnapse.EdgePurge

open Kit EdgeStore List Option

variable {R : Type}

/-! ### Transactions and callbacks -/

/-- What a transaction reads of an event it persists. -/
structure Event (R : Type) where
  id : String
  room : R
  prevs : List String

/-- `edge_rows` of `_handle_mult_prev_events`. -/
def edgeRows (events : List (Event R)) : List (EdgeRow R) :=
  events.flatMap fun ev => ev.prevs.map fun p => ⟨ev.room, ev.id, p, false⟩

/-- The callbacks of committed transactions. -/
inductive Callback (R : Type)
  /-- `put_event_edges_batch`. -/
  | put (rows : List (EdgeRow R))
  /-- `delete_event_edges_batch`. -/
  | delete (events : List String)

/-- The events in SQL, the callbacks still to run in the order of their commits, and the embedded
    store. -/
structure System (R : Type) where
  sql : List String
  pending : List (Callback R)
  store : Store R

/-- Nothing persisted. -/
def System.start : System R := ⟨[], [], .empty⟩

inductive Act (R : Type)
  | persist (events : List (Event R))
  | purge (events : List String)
  /-- The callback at a place of the list runs, with an order of the maps of its put. -/
  | callback (n : ℕ) (o : MapOrder R)

variable [DecidableEq R]

/-- A callback runs. A put that raises has no effect. -/
def Callback.run (s : Store R) (o : MapOrder R) : Callback R → Store R
  | .put rows =>
    match eventEdgesPut o s rows with
    | .ok s' => s'
    | .error _ => s
  | .delete events => eventEdgesDelete s events

/-- One step; only persisted events can be purged. -/
def step (sys : System R) : Act R → Option (System R)
  | .persist events =>
    let rows := edgeRows events
    some { sys with sql := addAll sys.sql (events.map Event.id)
                    pending := if rows.isEmpty then sys.pending else sys.pending ++ [.put rows] }
  | .purge events =>
    if events ⊆ sys.sql then
      some { sys with sql := sys.sql.filter (· ∉ events)
                      pending := if events.isEmpty then sys.pending else sys.pending ++ [.delete events] }
    else none
  | .callback n o =>
    match sys.pending[n]? with
    | none => none
    | some cb => some { sys with pending := sys.pending.eraseIdx n, store := cb.run sys.store o }

/-! ### The condition on runs -/

variable (room : String → R)

/-- Events lie in their room, and so do their prev events. -/
def SameRoom (events : List (Event R)) : Prop :=
  ∀ ev ∈ events, ev.room = room ev.id ∧ ∀ p ∈ ev.prevs, room p = ev.room

/-- The rows a callback puts. -/
def Callback.rows : Callback R → List (EdgeRow R)
  | .put rows => rows
  | .delete _ => []

/-- A purge's callback runs after the puts, committed earlier, of the events it deletes. -/
def AfterPuts (before : List (Callback R)) : Callback R → Prop
  | .put _ => True
  | .delete events => ∀ cb ∈ before, ∀ row ∈ cb.rows, row.event ∉ events

/-- The condition on a run. -/
def Orderly (sys : System R) : Act R → Prop
  | .persist events => SameRoom room events
  | .purge _ => True
  | .callback n _ =>
    match sys.pending[n]? with
    | none => True
    | some cb => AfterPuts (sys.pending.take n) cb

instance (room : String → R) (events : List (Event R)) : Decidable (SameRoom room events) :=
  inferInstanceAs (Decidable (∀ ev ∈ events, _ ∧ ∀ p ∈ ev.prevs, _))

instance (before : List (Callback R)) (cb : Callback R) : Decidable (AfterPuts before cb) :=
  match cb with
  | .put _ => inferInstanceAs (Decidable True)
  | .delete _ => inferInstanceAs (Decidable (∀ _ ∈ _, ∀ _ ∈ _, _))

instance (room : String → R) (sys : System R) (a : Act R) : Decidable (Orderly room sys a) := by
  cases a with
  | persist events => exact inferInstanceAs (Decidable (SameRoom room events))
  | purge _ => exact inferInstanceAs (Decidable True)
  | callback n o =>
    dsimp only [Orderly]
    cases sys.pending[n]? <;> infer_instance

/-! ### Live events -/

/-- The store has backward edges of an event that was not deleted since. -/
def Live (s : Store R) (e : String) : Prop :=
  ∃ r b bytes, s.backward.get? (r, e) = some (b :: bytes)

variable {e : String} {events : List String}

/-- A forward read hands out live events only. -/
theorem live_of_mem_keepLive {s : Store R} {r : R} : ∀ {l l' : List String},
    keepLive (s.live r) l = some l' → e ∈ l' → s.live r e = some true
  | [], l', h, he => by
    cases h
    cases he
  | c :: cs, l', h, he => by
    rw [keepLive] at h
    split at h
    · rename_i hc
      obtain ⟨l₁, hl₁, rfl⟩ := map_eq_some_iff.mp h
      rcases mem_cons.mp he with rfl | he
      · exact hc
      · exact live_of_mem_keepLive hl₁ he
    · exact live_of_mem_keepLive h he
    · cases h

theorem live_of_getForward {s : Store R} {p : String} {l : List String}
    (h : getForward s p = .ok (some l)) (he : e ∈ l) : Live s e := by
  rw [getForward] at h
  split at h
  · cases h
  · rename_i r _
    split at h
    · split at h
      · cases h
      · rename_i children _
        have hout : handOut (keepLive (s.live r) children) = some l := Except.ok.inj h
        cases hkeep : keepLive (s.live r) children with
        | none =>
          rw [hkeep] at hout
          cases hout
        | some kept =>
          rw [hkeep] at hout
          obtain rfl : kept = l := by
            cases kept with
            | nil => cases hout
            | cons c cs => exact some.inj hout
          have hlive := live_of_mem_keepLive hkeep he
          obtain ⟨bytes, hbytes, hne⟩ := map_eq_some_iff.mp hlive
          cases bytes with
          | nil => cases hne
          | cons b bytes => exact ⟨r, b, bytes, hbytes⟩
    · cases h

theorem getBackward_of_not_live {s : Store R} (h : ¬ Live s e) : getBackward s e = .ok none := by
  rw [getBackward]
  split
  · rename_i b bytes hbytes
    obtain ⟨r, -, hr⟩ := bind_eq_some_iff.mp hbytes
    exact absurd ⟨r, b, bytes, hr⟩ h
  · rfl

/-! ### The records of live events are found -/

/-- Locators lead to the event's room, and to every live record. -/
structure Located (room : String → R) (s : Store R) : Prop where
  room : ∀ {e r}, s.locator.get? e = some r → r = room e
  live : ∀ {e r b bytes}, s.backward.get? (r, e) = some (b :: bytes) → s.locator.get? e = some r

/-- The rows lie in the rooms of their events and prev events. -/
def RowsFit (rows : List (EdgeRow R)) : Prop :=
  ∀ row ∈ rows, row.room = room row.event ∧ row.room = room row.prev

omit [DecidableEq R] in
theorem SameRoom.rowsFit {room : String → R} {events : List (Event R)} (h : SameRoom room events) :
    RowsFit room (edgeRows events) := by
  intro row hrow
  obtain ⟨ev, hev, hmem⟩ := mem_flatMap.mp hrow
  obtain ⟨p, hp, rfl⟩ := mem_map.mp hmem
  exact ⟨(h ev hev).1, ((h ev hev).2 p hp).symm⟩

theorem located_empty : Located room (.empty : Store R) where
  room h := by cases h
  live h := by cases h

section Put

variable {room : String → R} {s s' : Store R} {o : MapOrder R} {rows : List (EdgeRow R)}

theorem Located.put (h : Located room s) (hrows : RowsFit room rows)
    (hput : eventEdgesPut o s rows = .ok s') : Located room s' := by
  obtain ⟨existing, rfl⟩ := put_of_ok hput
  have hloc : ∀ e, (s.put (edgeWrites o existing rows)).locator.get? e =
      ((edgeWrites o existing rows).locators.get? e).or (s.locator.get? e) :=
    fun e => Dict.get?_update_entries _ _ e
  have hnew : ∀ {e r}, (edgeWrites o existing rows).locators.get? e = some r → r = room e := by
    intro e r hr
    obtain ⟨row, hrow, rfl, he⟩ := edgeWrites_locators_room o existing hr
    rcases he with rfl | rfl
    · exact (hrows row hrow).1
    · exact (hrows row hrow).2
  refine ⟨fun {e r} hr => ?_, fun {e r b bytes} hrec => ?_⟩
  · rw [hloc] at hr
    rcases or_eq_some_iff.mp hr with hr | ⟨-, hr⟩
    · exact hnew hr
    · exact h.room hr
  · rw [hloc]
    rw [backward_put] at hrec
    split_ifs at hrec with hrow
    · obtain ⟨row, hrow, hkey⟩ := hrow
      cases hkey
      obtain ⟨r, hr⟩ := edgeWrites_locators_some o existing hrow (.inl rfl)
      rw [hr, some_or, hnew hr, (hrows row hrow).1]
    · -- the record was there before; a new locator leads to the same room
      have hold := h.live hrec
      cases hr : (edgeWrites o existing rows).locators.get? e with
      | none => rw [none_or, hold]
      | some r' => rw [some_or, hnew hr, h.room hold]

/-- A put revives its own events only. -/
theorem live_put (hput : eventEdgesPut o s rows = .ok s') (h : Live s' e) :
    (∃ row ∈ rows, row.event = e) ∨ Live s e := by
  obtain ⟨existing, rfl⟩ := put_of_ok hput
  obtain ⟨r, b, bytes, hrec⟩ := h
  rw [backward_put] at hrec
  split_ifs at hrec with hrow
  · exact .inl (hrow.imp fun row h => ⟨h.1, congrArg Prod.snd h.2⟩)
  · exact .inr ⟨r, b, bytes, hrec⟩

end Put

theorem Located.delete {room : String → R} {s : Store R} (h : Located room s) (events : List String) :
    Located room (eventEdgesDelete s events) where
  room hr := h.room hr
  live hrec := by
    rw [backward_delete] at hrec
    split at hrec
    · cases hrec
    · exact h.live hrec

/-- A delete leaves none of its events live. -/
theorem live_delete {room : String → R} {s : Store R} (h : Located room s)
    (hlive : Live (eventEdgesDelete s events) e) : e ∉ events ∧ Live s e := by
  obtain ⟨r, b, bytes, hrec⟩ := hlive
  rw [backward_delete] at hrec
  split_ifs at hrec with hkept
  · cases hrec
  · exact ⟨fun he => hkept ⟨he, h.live hrec⟩, r, b, bytes, hrec⟩

/-! ### What callbacks are still to do -/

/-- A callback puts edges of the event. -/
def Callback.Puts (e : String) (cb : Callback R) : Prop := ∃ row ∈ cb.rows, row.event = e

/-- A callback deletes the event. -/
def Callback.Deletes (e : String) : Callback R → Prop
  | .put _ => False
  | .delete events => e ∈ events

/-- Each put of the event is followed by a delete of it. -/
def Covered (e : String) : List (Callback R) → Prop
  | [] => True
  | cb :: rest => (cb.Puts e → ∃ d ∈ rest, d.Deletes e) ∧ Covered e rest

section Covered

variable {cb : Callback R} {before after : List (Callback R)}

omit [DecidableEq R] in
theorem Covered.right (h : Covered e (before ++ cb :: after)) : cb.Puts e → ∃ d ∈ after, d.Deletes e := by
  induction before with
  | nil => exact h.1
  | cons _ before ih => exact ih h.2

omit [DecidableEq R] in
/-- A callback that does not delete the event may leave, and one that does if no put is before it. -/
theorem Covered.remove (h : Covered e (before ++ cb :: after))
    (hcb : cb.Deletes e → ∀ c ∈ before, ¬ c.Puts e) : Covered e (before ++ after) := by
  induction before with
  | nil => exact h.2
  | cons c before ih =>
    refine ⟨fun hputs => ?_, ih h.2 fun hd c' hc' => hcb hd c' (.tail _ hc')⟩
    obtain ⟨d, hd, hdel⟩ := h.1 hputs
    refine ⟨d, ?_, hdel⟩
    rcases mem_append.mp hd with hd | hd
    · exact mem_append_left _ hd
    · rcases mem_cons.mp hd with rfl | hd
      · exact absurd hputs (hcb hdel c (.head _))
      · exact mem_append_right _ hd

omit [DecidableEq R] in
theorem Covered.concat (h : Covered e before) (hcb : ¬ cb.Puts e) : Covered e (before ++ [cb]) := by
  induction before with
  | nil => exact ⟨fun hputs => absurd hputs hcb, trivial⟩
  | cons c before ih =>
    refine ⟨fun hputs => ?_, ih h.2⟩
    obtain ⟨d, hd, hdel⟩ := h.1 hputs
    exact ⟨d, mem_append_left _ hd, hdel⟩

omit [DecidableEq R] in
/-- A delete at the end covers everything before it. -/
theorem covered_concat_delete (he : e ∈ events) :
    ∀ before : List (Callback R), Covered e (before ++ [.delete events])
  | [] => ⟨fun ⟨_, hrow, _⟩ => absurd hrow not_mem_nil, trivial⟩
  | _ :: before => ⟨fun _ => ⟨.delete events, by simp, he⟩, covered_concat_delete he before⟩

end Covered

/-! ### The invariant -/

/-- An event that is not in SQL and still live is to be deleted, after its puts. -/
structure Inv (room : String → R) (sys : System R) : Prop where
  located : Located room sys.store
  fit : ∀ rows, .put rows ∈ sys.pending → RowsFit room rows
  gone : ∀ e, e ∉ sys.sql → Live sys.store e → ∃ d ∈ sys.pending, d.Deletes e
  covered : ∀ e, e ∉ sys.sql → Covered e sys.pending

variable {room : String → R} {sys sys' : System R}

theorem Inv.start (room : String → R) : Inv room (.start : System R) where
  located := located_empty room
  fit rows h := by cases h
  gone e _ h := by
    obtain ⟨r, b, bytes, hrec⟩ := h
    cases hrec
  covered e _ := trivial

theorem Inv.persist (h : Inv room sys) {events : List (Event R)} (hroom : SameRoom room events)
    (hstep : step sys (.persist events) = some sys') : Inv room sys' := by
  cases hstep
  have hsql : ∀ e, e ∉ addAll sys.sql (events.map Event.id) →
      e ∉ sys.sql ∧ ∀ row ∈ edgeRows events, row.event ≠ e := by
    intro e he
    rw [mem_addAll, not_or] at he
    refine ⟨he.1, ?_⟩
    rintro row hrow rfl
    obtain ⟨ev, hev, hmem⟩ := mem_flatMap.mp hrow
    obtain ⟨p, -, rfl⟩ := mem_map.mp hmem
    exact he.2 (mem_map_of_mem hev)
  refine ⟨h.located, fun rows hrows => ?_, fun e he hlive => ?_, fun e he => ?_⟩
  · split at hrows
    · exact h.fit rows hrows
    · rcases mem_append.mp hrows with hrows | hrows
      · exact h.fit rows hrows
      · obtain rfl : rows = edgeRows events := by simpa using hrows
        exact hroom.rowsFit
  · obtain ⟨d, hd, hdel⟩ := h.gone e (hsql e he).1 hlive
    refine ⟨d, ?_, hdel⟩
    split
    · exact hd
    · exact mem_append_left _ hd
  · split
    · exact h.covered e (hsql e he).1
    · exact (h.covered e (hsql e he).1).concat fun ⟨row, hrow, heq⟩ => (hsql e he).2 row hrow heq

theorem Inv.purge (h : Inv room sys) (hstep : step sys (.purge events) = some sys') : Inv room sys' := by
  rw [step] at hstep
  split at hstep
  · cases hstep
    have hsql : ∀ e, e ∉ sys.sql.filter (· ∉ events) → e ∉ sys.sql ∨ e ∈ events := by
      intro e he
      by_contra hcon
      rw [not_or, not_not] at hcon
      exact he (mem_filter.mpr ⟨hcon.1, by simpa using hcon.2⟩)
    refine ⟨h.located, fun rows hrows => ?_, fun e he hlive => ?_, fun e he => ?_⟩
    · split at hrows
      · exact h.fit rows hrows
      · exact h.fit rows ((mem_append.mp hrows).resolve_right (by simp))
    · split_ifs with hempty
      · rw [List.isEmpty_iff.mp hempty] at hsql he
        exact h.gone e ((hsql e he).resolve_right not_mem_nil) hlive
      · rcases hsql e he with he | he
        · obtain ⟨d, hd, hdel⟩ := h.gone e he hlive
          exact ⟨d, mem_append_left _ hd, hdel⟩
        · exact ⟨.delete events, by simp, he⟩
    · split_ifs with hempty
      · rw [List.isEmpty_iff.mp hempty] at hsql he
        exact h.covered e ((hsql e he).resolve_right not_mem_nil)
      · rcases hsql e he with he | he
        · exact (h.covered e he).concat fun ⟨_, hrow, _⟩ => absurd hrow not_mem_nil
        · exact covered_concat_delete he sys.pending
  · cases hstep

theorem Inv.callback (h : Inv room sys) {n : ℕ} {o : MapOrder R} (hok : Orderly room sys (.callback n o))
    (hstep : step sys (.callback n o) = some sys') : Inv room sys' := by
  rw [step] at hstep
  rw [Orderly] at hok
  split at hstep
  · cases hstep
  · rename_i cb hcb
    cases hstep
    rw [hcb] at hok
    obtain ⟨hn, hget⟩ := List.getElem?_eq_some_iff.mp hcb
    obtain ⟨before, hbefore⟩ : ∃ before, before = sys.pending.take n := ⟨_, rfl⟩
    obtain ⟨after, hafter⟩ : ∃ after, after = sys.pending.drop (n + 1) := ⟨_, rfl⟩
    have hsplit : sys.pending = before ++ cb :: after := by
      rw [hbefore, hafter, ← hget, getElem_cons_drop, take_append_drop]
    have herase : sys.pending.eraseIdx n = before ++ after := by
      rw [eraseIdx_eq_take_drop_succ, ← hbefore, ← hafter]
    have hlater : ∀ c, c ∈ before ++ after → c ∈ sys.pending := by
      intro c hc
      rw [hsplit]
      exact (mem_append.mp hc).elim (mem_append_left _) fun h =>
        mem_append_right _ (.tail _ h)
    have hcovered : ∀ e, e ∉ sys.sql → Covered e (before ++ cb :: after) := hsplit ▸ h.covered
    rw [← hbefore] at hok
    have hnoput : ∀ e, cb.Deletes e → ∀ c ∈ before, ¬ c.Puts e := by
      intro e hdel c hc hputs
      match cb, hdel with
      | .delete events, hdel =>
        obtain ⟨row, hrow, heq⟩ := hputs
        exact hok c hc row hrow (heq ▸ hdel)
    have hmem : cb ∈ sys.pending := by
      rw [hsplit]
      exact mem_append_right _ (.head _)
    -- what is still to be deleted elsewhere in the list
    have hgone : ∀ e, e ∉ sys.sql → Live sys.store e → ¬ cb.Deletes e →
        ∃ d ∈ before ++ after, d.Deletes e := by
      intro e he hlive hnot
      obtain ⟨d, hd, hdel⟩ := h.gone e he hlive
      refine ⟨d, ?_, hdel⟩
      rw [hsplit] at hd
      rcases mem_append.mp hd with hd | hd
      · exact mem_append_left _ hd
      · rcases mem_cons.mp hd with rfl | hd
        · exact absurd hdel hnot
        · exact mem_append_right _ hd
    rw [herase]
    cases cb with
    | put rows =>
      have hfit := h.fit rows hmem
      have hstore : Located room (Callback.run sys.store o (.put rows)) ∧
          ∀ e, Live (Callback.run sys.store o (.put rows)) e →
            (∃ row ∈ rows, row.event = e) ∨ Live sys.store e := by
        rw [Callback.run]
        split
        · rename_i s' hput
          exact ⟨h.located.put hfit hput, fun e => live_put hput⟩
        · exact ⟨h.located, fun e => .inr⟩
      refine ⟨hstore.1, fun rows' hrows' => h.fit rows' (hlater _ hrows'), fun e he hlive => ?_,
        fun e he => (hcovered e he).remove (hnoput e)⟩
      rcases hstore.2 e hlive with hrow | hlive
      · obtain ⟨d, hd, hdel⟩ := (hcovered e he).right hrow
        exact ⟨d, mem_append_right _ hd, hdel⟩
      · exact hgone e he hlive fun hdel => hdel
    | delete events =>
      refine ⟨h.located.delete events, fun rows' hrows' => h.fit rows' (hlater _ hrows'),
        fun e he hlive => ?_, fun e he => (hcovered e he).remove (hnoput e)⟩
      obtain ⟨hnot, hlive⟩ := live_delete h.located hlive
      exact hgone e he hlive hnot

theorem inv_run (h : Run step (Orderly room) .start sys) : Inv room sys := by
  refine h.invariant (Inv.start room) fun {sys sys' a} hinv hok hstep => ?_
  cases a with
  | persist events => exact hinv.persist hok hstep
  | purge events => exact hinv.purge hstep
  | callback n o => exact hinv.callback hok hstep

/-- In every run that meets the condition, once all callbacks have run, an event that was purged and not
    persisted again has no live record, no edges, and is nobody's child. -/
theorem purged_events_stay_deleted (hrun : Run step (Orderly room) .start sys) (hdone : sys.pending = [])
    {e : String} (he : e ∉ sys.sql) :
    ¬ Live sys.store e ∧ getBackward sys.store e = .ok none ∧
      ∀ p l, getForward sys.store p = .ok (some l) → e ∉ l := by
  have hnot : ¬ Live sys.store e := by
    intro hlive
    obtain ⟨d, hd, -⟩ := (inv_run hrun).gone e he hlive
    rw [hdone] at hd
    cases hd
  exact ⟨hnot, getBackward_of_not_live hnot, fun p l hl hmem => hnot (live_of_getForward hl hmem)⟩

/-- Two events of room `!r` are persisted, and one is purged before its put has run; the puts run in the
    order of the commits, then the delete. -/
def orderlyTrace : List (Act String) :=
  [.persist [⟨"$e", "!r", ["$p"]⟩], .persist [⟨"$f", "!r", ["$p", "$e"]⟩], .purge ["$e"],
    .callback 0 .asBuilt, .callback 1 .asBuilt, .callback 0 .asBuilt]

theorem purged_events_stay_deleted_late : ∃ sys : System String,
    Run step (Orderly fun _ => "!r") .start sys ∧ sys.sql = ["$f"] ∧
    getForward sys.store "$p" = .ok (some ["$f"]) ∧ getBackward sys.store "$e" = .ok none :=
  Run.exists_get orderlyTrace (by decide +kernel) fun hrun => ⟨by decide +kernel, by decide +kernel,
    (purged_events_stay_deleted hrun (List.isEmpty_iff.mp (by decide +kernel)) (by decide +kernel)).2.1⟩

/-- An event is persisted and purged; the purge's callback runs first. -/
def overtakenTrace : List (Act String) :=
  [.persist [⟨"$e", "!r", ["$p"]⟩], .purge ["$e"], .callback 1 .asBuilt, .callback 0 .asBuilt]

/-- Then the event has edges again, and is a child of its prev event. -/
theorem purged_event_resurrected : ∃ sys : System String,
    Run step (fun _ _ => True) .start sys ∧ sys.pending = [] ∧ sys.sql = [] ∧
    getBackward sys.store "$e" = .ok (some [("$p", false)]) ∧
    getForward sys.store "$p" = .ok (some ["$e"]) :=
  Run.exists_get overtakenTrace (by decide +kernel) fun _ =>
    ⟨List.isEmpty_iff.mp (by decide +kernel), by decide +kernel⟩

end Sithnapse.EdgePurge
