import Sithnapse.Kit.Alike
import Sithnapse.Kit.Greedy
import Sithnapse.StateRes.Events

/-! The other events in mainline order.

    The mainline leads from the resolved power levels to older ones, each among the auth events of the
    one before. An event is as deep as the first event of the mainline that the power levels among its
    own auth events lead to. Both walks follow auth references and so end; `limit` only bounds them. -/

namespace Sithnapse.StateRes

open Kit Kit.Dict Kit.Chain

section Walks

variable {E : Type}

/-- The first power levels event among some auth events, under its id. -/
def firstPowerLevels (room : String) (look : Known E) : List E → Except (Failure E) (Option (E × Event E))
  | [] => .ok none
  | aid :: rest => do
    match ← findEvent room look aid with
    | none => firstPowerLevels room look rest
    | some event =>
      let key ← event.key
      if key = powerLevelsKey then return some (aid, event) else firstPowerLevels room look rest

/-- One round of the loop that collects the mainline: `pl` and `mainline`. -/
def mainlineRound (room : String) (look : Known E) (s : Option E × List E) :
    (Option E × List E) ⊕ Except (Failure E) (List E) :=
  match s.1 with
  | none => .inr (.ok s.2)
  | some pl =>
    match getEvent room look pl with
    | .error failure => .inr (.error failure)
    | .ok event =>
      match firstPowerLevels room look event.authEventIds with
      | .error failure => .inr (.error failure)
      | .ok next => .inl (next.map Prod.fst, s.2 ++ [pl])

/-- `mainline`, from the resolved power levels on. -/
def mainline (limit : ℕ) (room : String) (look : Known E) (pl : Option E) : Except (Failure E) (List E) :=
  (loop (mainlineRound room look) limit (pl, [])).getD (.ok [])

variable [DecidableEq E]

/-- One round of `_get_mainline_depth_for_event`. -/
def depthRound (room : String) (look : Known E) (mainlineMap : Dict E ℕ) (tmp : Option (Event E)) :
    Option (Event E) ⊕ Except (Failure E) ℕ :=
  match tmp with
  | none => .inr (.ok 0)
  | some event =>
    match mainlineMap.get? event.eventId with
    | some depth => .inr (.ok depth)
    | none =>
      match firstPowerLevels room look event.authEventIds with
      | .error failure => .inr (.error failure)
      | .ok next => .inl (next.map Prod.snd)

/-- `_get_mainline_depth_for_event`: the lookups are in the room of the event. -/
def getMainlineDepthForEvent (limit : ℕ) (look : Known E) (mainlineMap : Dict E ℕ) (event : Event E) :
    Except (Failure E) ℕ :=
  (loop (depthRound event.roomId look mainlineMap) limit (some event)).getD (.ok 0)

omit [DecidableEq E] in
/-- What is found is one of the auth events. -/
theorem mem_of_firstPowerLevels {room : String} {look : Known E} {aid : E} {event : Event E} :
    ∀ {ids : List E}, firstPowerLevels room look ids = .ok (some (aid, event)) →
    aid ∈ ids ∧ look aid = some event
  | [], h => by cases h
  | a :: rest, h => by
    have hrest : firstPowerLevels room look rest = .ok (some (aid, event)) →
        aid ∈ a :: rest ∧ look aid = some event := fun h =>
      (mem_of_firstPowerLevels h).imp_left (List.mem_cons_of_mem _)
    rw [firstPowerLevels] at h
    obtain ⟨found, hfind, h⟩ := bind_eq_ok.mp h
    cases found with
    | none => exact hrest h
    | some event' =>
      obtain ⟨key, -, h⟩ := bind_eq_ok.mp h
      split_ifs at h
      · cases h
        exact ⟨.head _, (look_of_findEvent hfind).1⟩
      · exact hrest h

/-- A round goes on with one of the auth events, if at all. -/
theorem depthRound_inl {room : String} {look : Known E} {mainlineMap : Dict E ℕ} {tmp tmp' : Option (Event E)}
    (h : depthRound room look mainlineMap tmp = .inl tmp') : ∃ event, tmp = some event ∧
      ∀ event' ∈ tmp', ∃ aid ∈ event.authEventIds, look aid = some event' := by
  cases tmp with
  | none => cases h
  | some event =>
    refine ⟨event, rfl, fun event' hevent' => ?_⟩
    dsimp only [depthRound] at h
    split at h
    · cases h
    · split at h
      · cases h
      · rename_i next hnext
        obtain rfl := Sum.inl.inj h
        obtain ⟨⟨aid, found⟩, rfl, rfl⟩ := Option.map_eq_some_iff.mp hevent'
        exact ⟨aid, mem_of_firstPowerLevels hnext⟩

section Ends

variable {look : Known E} (hac : Acyclic (references look)) {U : List E}
  (hU : ∀ x y, y ∈ references look x → y ∈ U) {limit : ℕ} (hlimit : U.length + 2 ≤ limit)

include hac hU hlimit

omit [DecidableEq E] in
/-- The mainline is finite. -/
theorem mainline_ends (room : String) (pl : Option E) :
    ∃ r, loop (mainlineRound room look) limit (pl, []) = some r := by
  obtain ⟨rank, hrank, hbound⟩ := hac.exists_rank hU
  refine loop_total (fun s => (s.1.map fun pl => rank pl + 1).getD 0)
    (fun _ _ _ _ => trivial) ?_ _ _ trivial ?_
  · rintro ⟨pl, line⟩ s' - hs
    rw [mainlineRound] at hs
    cases pl with
    | none => cases hs
    | some pl =>
      dsimp only at hs
      split at hs
      · cases hs
      · rename_i event hevent
        split at hs
        · cases hs
        · rename_i next hnext
          obtain rfl := Sum.inl.inj hs
          cases next with
          | none => simp
          | some next =>
            obtain ⟨hmem, -⟩ := mem_of_firstPowerLevels hnext
            rw [← references_of_find (find_of_getEvent hevent)] at hmem
            simpa using hrank pl next.1 hmem
  · cases pl with
    | none => simp; omega
    | some pl =>
      have := hbound pl
      simp
      omega

/-- Every event has a depth. -/
theorem depth_ends (hids : ∀ e event, look e = some event → event.eventId = e) (room : String)
    (mainlineMap : Dict E ℕ) {event : Event E} (hevent : look event.eventId = some event) :
    ∃ r, loop (depthRound room look mainlineMap) limit (some event) = some r := by
  obtain ⟨rank, hrank, hbound⟩ := hac.exists_rank hU
  refine loop_total (I := fun s => ∀ event ∈ s, look event.eventId = some event)
    (fun s => (s.map fun event => rank event.eventId + 1).getD 0) ?_ ?_ _ _ (by simpa using hevent) ?_
  · intro s s' _ hs event' hevent'
    obtain ⟨event, -, hnext⟩ := depthRound_inl hs
    obtain ⟨aid, -, hlook⟩ := hnext event' hevent'
    rw [hids aid event' hlook, hlook]
  · intro s s' hs₀ hs
    obtain ⟨event, rfl, hnext⟩ := depthRound_inl hs
    cases s' with
    | none => simp
    | some event' =>
      obtain ⟨aid, hmem, hlook⟩ := hnext event' rfl
      rw [← references_of_find (hs₀ event rfl)] at hmem
      simpa [hids aid event' hlook] using hrank _ aid hmem
  · have := hbound event.eventId
    simp
    omega

variable {U' : List E} (hU' : ∀ x y, y ∈ references look x → y ∈ U') {limit' : ℕ}
  (hlimit' : U'.length + 2 ≤ limit')

include hU' hlimit'

omit [DecidableEq E] in
theorem mainline_limit (room : String) (pl : Option E) :
    mainline limit room look pl = mainline limit' room look pl := by
  obtain ⟨r, hr⟩ := mainline_ends hac hU hlimit room pl
  obtain ⟨r', hr'⟩ := mainline_ends hac hU' hlimit' room pl
  rw [mainline, mainline, hr, hr', loop_unique hr hr']

theorem depth_limit (hids : ∀ e event, look e = some event → event.eventId = e) (mainlineMap : Dict E ℕ)
    {event : Event E} (hevent : look event.eventId = some event) :
    getMainlineDepthForEvent limit look mainlineMap event =
      getMainlineDepthForEvent limit' look mainlineMap event := by
  obtain ⟨r, hr⟩ := depth_ends hac hU hlimit hids event.roomId mainlineMap hevent
  obtain ⟨r', hr'⟩ := depth_ends hac hU' hlimit' hids event.roomId mainlineMap hevent
  rw [getMainlineDepthForEvent, getMainlineDepthForEvent, hr, hr', loop_unique hr hr']

end Ends

end Walks

section Order

variable {E : Type} [LinearOrder E]

/-- `get_depth`: what an event is sorted by. -/
def mainlineOrder (limit : ℕ) (known look : Known E) (mainlineMap : Dict E ℕ) (e : E) :
    Except (Failure E) (ℕ ×ₗ ℤ ×ₗ E) :=
  match known e with
  | none => .error (.unknownEvent e)
  | some event => do
    let depth ← getMainlineDepthForEvent limit look mainlineMap event
    return toLex (depth, toLex (event.originServerTs, e))

/-- `_mainline_sort`. -/
def mainlineSort (limit : ℕ) (room : String) (known look : Known E) (events : List E) (pl : Option E) :
    Except (Failure E) (List E) :=
  if events = [] then .ok [] else do
    let line ← mainline limit room look pl
    let mainlineMap := Dict.ofList (line.reverse.zipIdx 1)
    let orders ← events.mapM (mainlineOrder limit known look mainlineMap)
    let orderMap := Dict.ofList (events.zip orders)
    let key := fun e => orderMap.getD e (toLex (0, toLex (0, e)))
    return events.insertionSort fun a b => key a ≤ key b

variable {limit : ℕ} {room : String} {known look : Known E}

theorem mainlineOrder_id {mainlineMap : Dict E ℕ} {e : E} {order : ℕ ×ₗ ℤ ×ₗ E}
    (h : mainlineOrder limit known look mainlineMap e = .ok order) : (ofLex (ofLex order).2).2 = e := by
  rw [mainlineOrder] at h
  split at h
  · cases h
  · rename_i event _
    obtain ⟨depth, -, h⟩ := bind_eq_ok.mp h
    cases h
    rfl

/-- Sorting rearranges. -/
theorem mainlineSort_perm {events sorted : List E} {pl : Option E}
    (h : mainlineSort limit room known look events pl = .ok sorted) : sorted.Perm events := by
  rw [mainlineSort] at h
  split_ifs at h with hnil
  · cases h
    rw [hnil]
  · obtain ⟨line, -, h⟩ := bind_eq_ok.mp h
    obtain ⟨orders, -, h⟩ := bind_eq_ok.mp h
    cases h
    exact List.perm_insertionSort _ _

/-- The mainline order does not depend on how the events come. -/
theorem mainlineSort_alike (hac : Acyclic (references look)) {U U' : List E}
    (hU : ∀ x y, y ∈ references look x → y ∈ U) (hlimit : U.length + 2 ≤ limit)
    (hU' : ∀ x y, y ∈ references look x → y ∈ U') {limit' : ℕ} (hlimit' : U'.length + 2 ≤ limit')
    (hids : ∀ e event, look e = some event → event.eventId = e)
    {known' : Known E} {events events' : List E} (hnd : events.Nodup) (hnd' : events'.Nodup)
    (hsame : SameSet events events') (hlook : ∀ e event, known e = some event → look e = some event)
    (hknown : ∀ e ∈ events, known e = known' e) (pl : Option E) :
    Alike Eq (mainlineSort limit room known look events pl)
      (mainlineSort limit' room known' look events' pl) := by
  rw [mainlineSort, mainlineSort]
  by_cases hnil : events = []
  · rw [if_pos hnil, if_pos (hsame.nil_iff.mp hnil)]
    rfl
  · rw [if_neg hnil, if_neg (mt hsame.nil_iff.mpr hnil)]
    rw [mainline_limit hac hU hlimit hU' hlimit' room pl]
    refine (Alike.same _).bind ?_
    rintro line _ rfl
    obtain ⟨mainlineMap, hmap⟩ : ∃ m, m = Dict.ofList (line.reverse.zipIdx 1) := ⟨_, rfl⟩
    have horder : ∀ e ∈ events', mainlineOrder limit' known' look mainlineMap e =
        mainlineOrder limit known look mainlineMap e := by
      intro e he
      rw [mainlineOrder, mainlineOrder, ← hknown e ((hsame e).mpr he)]
      cases hevent : known e with
      | none => rfl
      | some event =>
        have hevent' := hlook e event hevent
        rw [← hids e event hevent'] at hevent'
        simp only [depth_limit hac hU hlimit hU' hlimit' hids mainlineMap hevent']
    rw [← hmap]
    dsimp only
    rw [mapM_congr horder]
    refine (alike_mapM_sameSet hsame).bind fun orders orders' horders => ?_
    rw [alike_pure]
    have hkey : ∀ e ∈ events, ∃ order, mainlineOrder limit known look mainlineMap e = .ok order ∧
        (Dict.ofList (events.zip orders)).get? e = some order ∧
        (Dict.ofList (events'.zip orders')).get? e = some order := by
      intro e he
      obtain ⟨order, horder, hget⟩ := get?_ofList_zip hnd horders.1 he
      obtain ⟨order', horder', hget'⟩ := get?_ofList_zip hnd' horders.2 ((hsame e).mp he)
      obtain rfl : order = order' := Except.ok.inj (horder.symm.trans horder')
      exact ⟨order, horder, hget, hget'⟩
    refine insertionSort_congr (hsame.perm hnd hnd') (fun e he => ?_) fun a ha b hb hab => ?_
    · obtain ⟨order, -, hget, hget'⟩ := hkey e he
      rw [getD_of_get? hget, getD_of_get? hget']
    · obtain ⟨order, horder, hget, -⟩ := hkey a ha
      obtain ⟨order', horder', hget', -⟩ := hkey b hb
      rw [getD_of_get? hget, getD_of_get? hget'] at hab
      rw [← mainlineOrder_id horder, hab, mainlineOrder_id horder']

end Order

end Sithnapse.StateRes
