import Sithnapse.Kit.Pool
import Sithnapse.AuthChain.Closures

/-! `get_or_create_short_ids` one storage operation at a time, and purges beside it.

    A short id takes three records: the room's counter, the event's short id (forward) and the event
    of the short id (reverse). They are written one by one under `RMW_LOCK`, and a call may stop after
    any of them. `auth_chain_purge_room` deletes them all and does not take the lock. -/

namespace Sithnapse.ShortIds

open Kit Kit.Dict AuthChain Option List

variable {ι E : Type} [LinearOrder E]

/-- A collection without records. -/
def emptyStore : ShortStore E := ⟨0, Dict.empty, Dict.empty, Dict.empty⟩

/-- A room's collection, the call that holds `RMW_LOCK`, and the number of purges so far. -/
structure Room (ι E : Type) where
  store : ShortStore E
  lock : Option ι
  purges : ℕ

/-- Nothing stored, nothing running. -/
def Room.empty : Room ι E := ⟨emptyStore, none, 0⟩

/-- Operations of the storage engine and of the lock. -/
inductive Op (ι E : Type)
  | lock (i : ι)
  | unlock
  | getForward (e : E)
  | getReverse (k : ℕ)
  | getCounter
  | putCounter (n : ℕ)
  | putForward (e : E) (k : ℕ)
  | putReverse (k : ℕ) (e : E)
  | deleteCollection
  deriving DecidableEq

/-- The operation writes an event's short id. -/
def Op.writesForward : Op ι E → Bool
  | .putForward _ _ => true
  | _ => false

/-- What an operation returns. -/
abbrev Reply : Op ι E → Type
  | .getForward _ => Option ℕ
  | .getReverse _ => Option E
  | .getCounter => ℕ
  | _ => Unit

/-- One operation. No counter record reads as 0. -/
def exec : (o : Op ι E) → Unit → Room ι E → Option (Reply o × Room ι E)
  | .lock i, _, s => if s.lock = none then some ((), { s with lock := some i }) else none
  | .unlock, _, s => some ((), { s with lock := none })
  | .getForward e, _, s => some (s.store.forward.get? e, s)
  | .getReverse k, _, s => some (s.store.reverse.get? k, s)
  | .getCounter, _, s => some (s.store.counter, s)
  | .putCounter n, _, s => some ((), { s with store := { s.store with counter := n } })
  | .putForward e k, _, s =>
    some ((), { s with store := { s.store with forward := s.store.forward.set e k } })
  | .putReverse k e, _, s =>
    some ((), { s with store := { s.store with reverse := s.store.reverse.set k e } })
  | .deleteCollection, _, s => some ((), ⟨emptyStore, s.lock, s.purges + 1⟩)

abbrev ShortIdProg (ι E : Type) := Prog (Op ι E) Reply

def perform (o : Op ι E) : ShortIdProg ι E (Reply o) := .perform o

/-- The counter: as cached over the batch, or read. -/
def currentCounter : Option ℕ → ShortIdProg ι E ℕ
  | some v => pure v
  | none => perform .getCounter

/-- The loop over a batch. -/
def shortIdLoop : List E → Option ℕ → List ℕ → ShortIdProg ι E (Except Failure (List ℕ))
  | [], _, out => pure (.ok out)
  | e :: events, counterValue, out => do
    match ← perform (.getForward e) with
    | some k =>
      -- the reverse mapping is verified even though the forward mapping exists
      match ← perform (.getReverse k) with
      | none =>
        perform (.putReverse k e)
        shortIdLoop events counterValue (out ++ [k])
      | some _ => shortIdLoop events counterValue (out ++ [k])
    | none =>
      let current ← currentCounter counterValue
      if current + 1 > shortIdMax then pure (.error .shortIdsExhausted)
      else
        perform (.putCounter (current + 1))
        perform (.putForward e (current + 1))
        perform (.putReverse (current + 1) e)
        shortIdLoop events (some (current + 1)) (out ++ [current + 1])

/-- Calls on a room. -/
inductive Call (E : Type)
  | shortIds (events : List E)
  | purge

/-- `get_or_create_short_ids` and `auth_chain_purge_room`. -/
def program (i : ι) : Call E → ShortIdProg ι E (Except Failure (List ℕ))
  | .shortIds events => do
    perform (.lock i)
    let result ← shortIdLoop events none []
    perform .unlock
    pure result
  | .purge => do
    perform .deleteCollection
    pure (.ok [])

/-- A call that ends early drops its lock guard. -/
def release [DecidableEq ι] (i : ι) (s : Room ι E) : Room ι E := if s.lock = some i then { s with lock := none } else s

abbrev System (ι E : Type) := Pool ι (Room ι E) (Call E) (Op ι E) Reply (Except Failure (List ℕ))

/-- One action of a system. -/
abbrev step [DecidableEq ι] (pool : System ι E) (a : Act ι Unit (Call E)) : Option (System ι E) :=
  Pool.step exec program release pool a

omit [LinearOrder E] in
theorem perform_bind {β : Type} (o : Op ι E) (f : Reply o → ShortIdProg ι E β) :
    perform o >>= f = .op o f := rfl

/-! ### A call undisturbed -/

/-- Short ids belong to one event and are covered by the counter; while nothing was purged, a reverse
    mapping has its forward mapping. -/
structure Consistent (s : Room ι E) : Prop where
  inj : ∀ {e e' k}, s.store.forward.get? e = some k → s.store.forward.get? e' = some k → e = e'
  pos : ∀ {e k}, s.store.forward.get? e = some k → 1 ≤ k
  bound : ∀ {e k}, s.store.forward.get? e = some k → k ≤ s.store.counter
  reverse : s.purges = 0 → ∀ {k e}, s.store.reverse.get? k = some e → s.store.forward.get? e = some k

/-- The short ids of a batch, mapped both ways. -/
def Paired (store : ShortStore E) (events : List E) (ids : List ℕ) : Prop :=
  Forall₂ (fun e k => store.forward.get? e = some k ∧ store.reverse.get? k = some e) events ids

/-- No mapping is lost. -/
structure Grows (store store' : ShortStore E) : Prop where
  forward : ∀ {e k}, store.forward.get? e = some k → store'.forward.get? e = some k
  reverse : ∀ {k e}, store.reverse.get? k = some e → store'.reverse.get? k = some e

/-- What happens to the collection while a call holds the lock and is about to perform `o`: nothing,
    or a purge, which must not come right before a forward mapping is written. -/
def Kept (o : Op ι E) (s s' : Room ι E) : Prop :=
  (s'.store = s.store ∧ s'.purges = s.purges) ∨
    (s'.store = emptyStore ∧ s.purges < s'.purges ∧ ∀ e k, o ≠ .putForward e k)

/-- What an operation of call `i` does. -/
structure Effect (i : ι) (o : Op ι E) (s s' : Room ι E) : Prop where
  lock : ∀ j, j ≠ i → s.lock = some j → s'.lock = some j
  store : (s'.store = s.store ∧ s'.purges = s.purges) ∨ (s.lock = some i ∧ s'.purges = s.purges) ∨
    (o = .deleteCollection ∧ s'.store = emptyStore ∧ s.purges < s'.purges)
  grows : s'.purges = 0 → s.purges = 0 ∧ Grows s.store s'.store

/-- What a call promises of its result: while nothing was purged, the batch is mapped both ways. -/
def Returned : Call E → Except Failure (List ℕ) → Room ι E → Prop
  | .shortIds events, .ok ids, s => s.purges = 0 → Paired s.store events ids
  | _, _, _ => True

def rules : Rules ι (Room ι E) (Call E) (Op ι E) (Except Failure (List ℕ)) where
  inv := Consistent
  may _ _ := True
  rely i o s s' := s.lock = some i → s'.lock = some i ∧ Kept o s s'
  guar := Effect
  post call _ result s := Returned call result s

theorem Consistent.empty : Consistent (Room.empty : Room ι E) := by
  constructor <;> simp [Room.empty, emptyStore]

theorem Grows.refl (store : ShortStore E) : Grows store store := ⟨id, id⟩

theorem Grows.paired {store store' : ShortStore E} (h : Grows store store') {events : List E}
    {ids : List ℕ} (hp : Paired store events ids) : Paired store' events ids :=
  hp.imp fun _ _ hk => ⟨h.forward hk.1, h.reverse hk.2⟩

section Kept

variable {o : Op ι E} {s s' s'' : Room ι E}

omit [LinearOrder E] in
theorem Kept.trans (h : Kept o s s') (h' : Kept o s' s'') : Kept o s s'' := by
  rcases h with ⟨hs, hp⟩ | ⟨hs, hp, ho⟩
  · rcases h' with ⟨hs', hp'⟩ | ⟨hs', hp', ho'⟩
    · exact .inl ⟨hs'.trans hs, hp'.trans hp⟩
    · exact .inr ⟨hs', hp ▸ hp', ho'⟩
  · rcases h' with ⟨hs', hp'⟩ | ⟨hs', hp', -⟩
    · exact .inr ⟨hs'.trans hs, hp' ▸ hp, ho⟩
    · exact .inr ⟨hs', hp.trans hp', ho⟩

/-- The counter is at most `n`, and no mapping is lost unless something was purged. -/
def Later (n : ℕ) (s s' : Room ι E) : Prop :=
  s'.store.counter ≤ n ∧ (s'.purges = 0 → s.purges = 0 ∧ Grows s.store s'.store)

theorem Kept.later (h : Kept o s s') {n : ℕ} (hn : s.store.counter ≤ n) : Later n s s' := by
  rcases h with ⟨hs, hp⟩ | ⟨hs, hp, -⟩
  · rw [Later, hs, hp]
    exact ⟨hn, fun h => ⟨h, Grows.refl _⟩⟩
  · rw [Later, hs]
    exact ⟨Nat.zero_le n, fun h => by omega⟩

theorem Later.trans {m n : ℕ} (h : Later m s s') (h' : Later n s' s'') : Later n s s'' := by
  refine ⟨h'.1, fun hp => ?_⟩
  obtain ⟨hp', hg'⟩ := h'.2 hp
  obtain ⟨hp'', hg⟩ := h.2 hp'
  exact ⟨hp'', fun hk => hg'.forward (hg.forward hk), fun hk => hg'.reverse (hg.reverse hk)⟩

/-- No event gets a short id. -/
theorem Kept.forward_none (h : Kept o s s') {e : E} (he : s.store.forward.get? e = none) :
    s'.store.forward.get? e = none := by
  rcases h with ⟨hs, -⟩ | ⟨hs, -, -⟩
  · rwa [hs]
  · rw [hs]
    rfl

end Kept

/-! ### Calls keep the rules -/

section Safe

variable {i : ι} {β : Type} {Q : β → Room ι E → Prop} {s : Room ι E}

/-- A write under the lock. -/
theorem safe_write {o : Op ι E} {next : Reply o → ShortIdProg ι E β} (reply : Room ι E → Reply o)
    (f : ShortStore E → ShortStore E) (hexec : ∀ s, exec o () s = some (reply s, { s with store := f s.store }))
    (hlock : s.lock = some i)
    (h : ∀ s', Consistent s' → s'.lock = some i → Kept o s s' →
      Consistent { s' with store := f s'.store } ∧ (s'.purges = 0 → Grows s'.store (f s'.store)) ∧
        Safe exec rules i Q (next (reply s')) { s' with store := f s'.store }) :
    Safe exec rules i Q (.op o next) s := by
  intro s' hinv hrely _ c r s'' hs
  obtain ⟨hlock', hkept⟩ := hrely hlock
  obtain ⟨rfl, rfl⟩ := some_pair_inj (hexec .. ▸ hs)
  obtain ⟨hinv', hgrows, hnext⟩ := h s' hinv hlock' hkept
  exact ⟨hinv', ⟨fun _ _ hl => hl, .inr (.inl ⟨hlock', rfl⟩), fun hp => ⟨hp, hgrows hp⟩⟩, hnext⟩

/-- A read under the lock. -/
theorem safe_read {o : Op ι E} {next : Reply o → ShortIdProg ι E β} (reply : Room ι E → Reply o)
    (hexec : ∀ s, exec o () s = some (reply s, s)) (hlock : s.lock = some i)
    (h : ∀ s', Consistent s' → s'.lock = some i → Kept o s s' → Safe exec rules i Q (next (reply s')) s') :
    Safe exec rules i Q (.op o next) s :=
  safe_write reply id hexec hlock fun s' hinv hl hk => ⟨hinv, fun _ => Grows.refl _, h s' hinv hl hk⟩

/-- Writing the reverse mapping of an event that has the short id, if nothing was purged. -/
theorem Consistent.putReverse (h : Consistent s) {e : E} {k : ℕ}
    (hk : s.purges = 0 → s.store.forward.get? e = some k) :
    Consistent { s with store := { s.store with reverse := s.store.reverse.set k e } } ∧
      (s.purges = 0 → Grows s.store { s.store with reverse := s.store.reverse.set k e }) := by
  refine ⟨{ h with reverse := fun hp k' e' hr => ?_ }, fun hp => ⟨id, fun {k' e'} hr => ?_⟩⟩
  · rcases get?_set_cases hr with ⟨rfl, rfl⟩ | hr
    · exact hk hp
    · exact h.reverse hp hr
  · rw [get?_set]
    split_ifs with hkk
    · have hfe := h.reverse hp hr
      rw [hkk] at hfe
      rw [h.inj (hk hp) hfe]
    · exact hr

theorem Consistent.putCounter (h : Consistent s) {n : ℕ} (hn : s.store.counter ≤ n) :
    Consistent { s with store := { s.store with counter := n } } :=
  ⟨h.inj, h.pos, fun hk => (h.bound hk).trans hn, h.reverse⟩

/-- Writing the forward mapping for a short id above all others that the counter covers. -/
theorem Consistent.putForward (h : Consistent s) {e : E} {n : ℕ} (he : s.store.forward.get? e = none)
    (hfresh : ∀ e' k, s.store.forward.get? e' = some k → k < n) (hn : n ≤ s.store.counter)
    (hpos : 1 ≤ n) :
    Consistent { s with store := { s.store with forward := s.store.forward.set e n } } ∧
      (s.purges = 0 → Grows s.store { s.store with forward := s.store.forward.set e n }) := by
  have hold : ∀ {x k}, s.store.forward.get? x = some k → (s.store.forward.set e n).get? x = some k := by
    intro x k hx
    have hxe : x ≠ e := by
      rintro rfl
      rw [he] at hx
      cases hx
    rwa [get?_set_ne _ _ hxe]
  have hcases : ∀ {x k}, (s.store.forward.set e n).get? x = some k →
      (x = e ∧ k = n) ∨ s.store.forward.get? x = some k := by
    intro x k hx
    exact (get?_set_cases hx).imp_left fun hxe => ⟨hxe.1, hxe.2.symm⟩
  refine ⟨⟨fun {x x' k} hx hx' => ?_, fun {x k} hx => ?_, fun {x k} hx => ?_, fun hp k x hr => ?_⟩,
    fun _ => ⟨hold, id⟩⟩
  · rcases hcases hx with ⟨hxe, hkn⟩ | hold₁ <;> rcases hcases hx' with ⟨hxe', hkn'⟩ | hold₂
    · exact hxe.trans hxe'.symm
    · exact absurd hkn (hfresh x' k hold₂).ne
    · exact absurd hkn' (hfresh x k hold₁).ne
    · exact h.inj hold₁ hold₂
  · rcases hcases hx with ⟨rfl, rfl⟩ | hx
    · exact hpos
    · exact h.pos hx
  · rcases hcases hx with ⟨rfl, rfl⟩ | hx
    · exact hn
    · exact h.bound hx
  · exact hold (h.reverse hp hr)

/-- The event has this short id, both ways, if nothing was purged. -/
def Mapped (e : E) (k : ℕ) (s : Room ι E) : Prop :=
  s.purges = 0 → s.store.forward.get? e = some k ∧ s.store.reverse.get? k = some e

/-- An event with a short id: its reverse mapping is there, or is written. -/
theorem safe_repair {e : E} {k n : ℕ} {rest : ShortIdProg ι E β} (hlock : s.lock = some i)
    (hn : s.store.counter ≤ n) (he : s.store.forward.get? e = some k)
    (h : ∀ s', s'.lock = some i → Later n s s' → Mapped e k s' → Safe exec rules i Q rest s') :
    Safe exec rules i Q (.op (.getReverse k) fun reverse =>
      match reverse with
      | none => .op (.putReverse k e) fun _ => rest
      | some _ => rest) s := by
  refine safe_read (fun s => s.store.reverse.get? k) (fun _ => rfl) hlock ?_
  intro s₁ hc₁ hlock₁ hk₁
  have hlater₁ := hk₁.later hn
  have hfwd₁ : s₁.purges = 0 → s₁.store.forward.get? e = some k := fun hp => (hlater₁.2 hp).2.forward he
  cases hr : s₁.store.reverse.get? k with
  | some x =>
    refine h s₁ hlock₁ hlater₁ fun hp => ⟨hfwd₁ hp, ?_⟩
    rwa [hc₁.inj (hc₁.reverse hp hr) (hfwd₁ hp)] at hr
  | none =>
    refine safe_write (fun _ => ()) (fun st => { st with reverse := st.reverse.set k e }) (fun _ => rfl) hlock₁ ?_
    intro s₂ hc₂ hlock₂ hk₂
    have hlater₂ := hk₂.later hlater₁.1
    have hfwd₂ : s₂.purges = 0 → s₂.store.forward.get? e = some k := by
      intro hp
      obtain ⟨hp₁, hgrows⟩ := hlater₂.2 hp
      exact hgrows.forward (hfwd₁ hp₁)
    obtain ⟨hc₃, hgrows⟩ := hc₂.putReverse hfwd₂
    refine ⟨hc₃, hgrows, h _ hlock₂ ?_ fun hp => ⟨hfwd₂ hp, get?_set_self _ _ _⟩⟩
    exact (hlater₁.trans hlater₂).trans ⟨hlater₂.1, fun hp => ⟨hp, hgrows hp⟩⟩

/-- An event without a short id gets the next one. No purge comes between the first two writes, so
    the counter covers the new short id. -/
theorem safe_allocate {e : E} {v : ℕ} {rest : ShortIdProg ι E β} (hlock : s.lock = some i)
    (hv : s.store.counter ≤ v) (he : s.store.forward.get? e = none)
    (h : ∀ s', s'.lock = some i → Later (v + 1) s s' → Mapped e (v + 1) s' → Safe exec rules i Q rest s') :
    Safe exec rules i Q (.op (.putCounter (v + 1)) fun _ => .op (.putForward e (v + 1)) fun _ =>
      .op (.putReverse (v + 1) e) fun _ => rest) s := by
  refine safe_write (fun _ => ()) (fun st => { st with counter := v + 1 }) (fun _ => rfl) hlock ?_
  intro s₁ hc₁ hlock₁ hk₁
  have hlater₁ := hk₁.later hv
  have he₁ := hk₁.forward_none he
  refine ⟨hc₁.putCounter (hlater₁.1.trans (Nat.le_succ v)), fun _ => ⟨id, id⟩, ?_⟩
  refine safe_write (fun _ => ()) (fun st => { st with forward := st.forward.set e (v + 1) }) (fun _ => rfl) hlock₁ ?_
  intro s₂ hc₂ hlock₂ hk₂
  obtain ⟨hs₂, hp₂⟩ : s₂.store = { s₁.store with counter := v + 1 } ∧ s₂.purges = s₁.purges := by
    rcases hk₂ with hk₂ | ⟨-, -, ho⟩
    · exact hk₂
    · exact absurd rfl (ho e (v + 1))
  have hfresh : ∀ e' k, s₂.store.forward.get? e' = some k → k < v + 1 := by
    intro e' k hk
    rw [hs₂] at hk
    exact Nat.lt_succ_of_le ((hc₁.bound hk).trans hlater₁.1)
  obtain ⟨hc₃, hgrows₃⟩ := hc₂.putForward (e := e) (by rw [hs₂]; exact he₁) hfresh (by rw [hs₂])
    (Nat.succ_le_succ (Nat.zero_le v))
  refine ⟨hc₃, hgrows₃, ?_⟩
  have hlater₃ : Later (v + 1) s { s₂ with store :=
      { s₂.store with forward := s₂.store.forward.set e (v + 1) } } := by
    refine ⟨by rw [hs₂], fun hp => ?_⟩
    obtain ⟨hp₀, hgrows⟩ := hlater₁.2 (hp₂ ▸ hp)
    have hg := hgrows₃ hp
    refine ⟨hp₀, fun hk => hg.forward ?_, fun hk => hg.reverse ?_⟩ <;> rw [hs₂]
    · exact hgrows.forward hk
    · exact hgrows.reverse hk
  refine safe_write (fun _ => ()) (fun st => { st with reverse := st.reverse.set (v + 1) e }) (fun _ => rfl) hlock₂ ?_
  intro s₄ hc₄ hlock₄ hk₄
  have hlater₄ := hk₄.later hlater₃.1
  have hfwd₄ : s₄.purges = 0 → s₄.store.forward.get? e = some (v + 1) :=
    fun hp => (hlater₄.2 hp).2.forward (get?_set_self _ _ _)
  obtain ⟨hc₅, hgrows₅⟩ := hc₄.putReverse hfwd₄
  refine ⟨hc₅, hgrows₅, h _ hlock₄ ?_ fun hp => ⟨hfwd₄ hp, get?_set_self _ _ _⟩⟩
  exact (hlater₃.trans hlater₄).trans ⟨hlater₄.1, fun hp => ⟨hp, hgrows₅ hp⟩⟩

/-- The loop keeps the rules. The cached counter covers the stored one, also when a purge has removed
    that; while nothing was purged, the events seen are mapped both ways. -/
theorem shortIdLoop_safe : ∀ (events : List E) (counterValue : Option ℕ) (out : List ℕ) (seen : List E)
    (s : Room ι E), s.lock = some i → (∀ v, counterValue = some v → s.store.counter ≤ v) →
    (s.purges = 0 → Paired s.store seen out) →
    Safe exec rules i (fun r s => s.lock = some i ∧ ∀ ids, r = .ok ids → s.purges = 0 →
      Paired s.store (seen ++ events) ids) (shortIdLoop events counterValue out) s
  | [], _, out, seen, s, hlock, _, hseen => by
    refine ⟨hlock, fun ids hids hp => ?_⟩
    rw [append_nil, ← Except.ok.inj hids]
    exact hseen hp
  | e :: events, counterValue, out, seen, s, hlock, hcounter, hseen => by
    -- the rest of the batch, once `e` has its short id
    have hrest : ∀ (counterValue : Option ℕ) (k n : ℕ) (s' : Room ι E), s'.lock = some i →
        (∀ v, counterValue = some v → n ≤ v) → Later n s s' → Mapped e k s' →
        Safe exec rules i (fun r s => s.lock = some i ∧ ∀ ids, r = .ok ids → s.purges = 0 →
          Paired s.store (seen ++ e :: events) ids) (shortIdLoop events counterValue (out ++ [k])) s' := by
      intro counterValue k n s' hlock' hcounter' hlater hk
      have h := shortIdLoop_safe events counterValue (out ++ [k]) (seen ++ [e]) s' hlock'
        (fun v hv => hlater.1.trans (hcounter' v hv)) fun hp => ?_
      · rwa [append_assoc] at h
      · obtain ⟨hp', hgrows⟩ := hlater.2 hp
        exact rel_append (hgrows.paired (hseen hp')) (.cons (hk hp) .nil)
    rw [shortIdLoop, perform_bind]
    refine safe_read (fun s => s.store.forward.get? e) (fun _ => rfl) hlock ?_
    intro s₁ hc₁ hlock₁ hk₁
    have hlater₁ := hk₁.later (le_refl s.store.counter)
    cases he : s₁.store.forward.get? e with
    | some k =>
      refine safe_repair hlock₁ hlater₁.1 he fun s₂ hlock₂ hlater₂ hmapped => ?_
      exact hrest counterValue k _ s₂ hlock₂ hcounter (hlater₁.trans hlater₂) hmapped
    | none =>
      -- the current counter is cached or read, and covers the stored one
      have hcurrent : Safe exec rules i (fun v s' => s'.lock = some i ∧ Later v s s' ∧
          s'.store.forward.get? e = none) (currentCounter counterValue) s₁ := by
        cases counterValue with
        | some v => exact ⟨hlock₁, ⟨hlater₁.1.trans (hcounter v rfl), hlater₁.2⟩, he⟩
        | none =>
          refine safe_read (fun s => s.store.counter) (fun _ => rfl) hlock₁ ?_
          intro s₂ hc₂ hlock₂ hk₂
          have hlater₂ := hlater₁.trans (hk₂.later (le_refl s₁.store.counter))
          exact ⟨hlock₂, ⟨le_refl _, hlater₂.2⟩, hk₂.forward_none he⟩
      refine hcurrent.bind ?_
      rintro v s₂ ⟨hlock₂, hlater₂, he₂⟩
      split
      · exact ⟨hlock₂, nofun⟩
      · refine safe_allocate hlock₂ hlater₂.1 he₂ fun s₃ hlock₃ hlater₃ hmapped => ?_
        exact hrest (some (v + 1)) (v + 1) (v + 1) s₃ hlock₃ (fun w hw => (some.inj hw).le)
          (hlater₂.trans hlater₃) hmapped

end Safe

/-! ### Calls together -/

/-- A purge deletes the collection only while no call is about to write a forward mapping, that is,
    has written the counter for an event and not yet the event's short id. -/
def PurgeOutside (pool : System ι E) : Act ι Unit (Call E) → Prop
  | .step i _ => pool.about i = some .deleteCollection → ∀ j, (pool.about j).all fun o => !o.writesForward
  | _ => True

/-- Nothing is purged. -/
def NoPurge (pool : System ι E) : Act ι Unit (Call E) → Prop
  | .step i _ => pool.about i ≠ some .deleteCollection
  | _ => True

instance [DecidableEq ι] [Fintype ι] (pool : System ι E) :
    (a : Act ι Unit (Call E)) → Decidable (PurgeOutside pool a)
  | .spawn _ _ => isTrue trivial
  | .step _ _ => inferInstanceAs (Decidable (_ → ∀ _, _))
  | .kill _ => isTrue trivial

instance [DecidableEq ι] (pool : System ι E) : (a : Act ι Unit (Call E)) → Decidable (NoPurge pool a)
  | .spawn _ _ => isTrue trivial
  | .step i _ => inferInstanceAs (Decidable (pool.about i ≠ some .deleteCollection))
  | .kill _ => isTrue trivial

omit [LinearOrder E] in
theorem NoPurge.outside {pool : System ι E} {a : Act ι Unit (Call E)} (h : NoPurge pool a) :
    PurgeOutside pool a := by
  cases a with
  | spawn i call => trivial
  | step i c => exact fun hi => absurd hi h
  | kill i => trivial

theorem program_safe (i : ι) (call : Call E) {s : Room ι E} (s₀ : Room ι E) :
    Safe exec rules i (rules.post call s₀) (program i call) s := by
  cases call with
  | purge =>
    intro s' hinv _ _ c r s'' hs
    cases hs
    refine ⟨?_, ⟨fun _ _ hl => hl, .inr (.inr ⟨rfl, rfl, Nat.lt_succ_self _⟩),
      fun hp => absurd hp (Nat.succ_ne_zero _)⟩, trivial⟩
    constructor <;> simp [emptyStore]
  | shortIds events =>
    intro s' hinv _ _ c r s'' hs
    simp only [exec] at hs
    split at hs
    · rename_i hfree
      cases hs
      refine ⟨{ hinv with },
        ⟨fun j _ hl => absurd (hfree ▸ hl) (by simp), .inl ⟨rfl, rfl⟩, fun hp => ⟨hp, Grows.refl _⟩⟩, ?_⟩
      show Safe exec rules i _ (shortIdLoop events none [] >>= fun result => perform .unlock >>= fun _ =>
        pure result) _
      refine (shortIdLoop_safe events none [] [] _ rfl (by simp) fun _ => .nil).bind ?_
      rintro result s₁ ⟨hlock₁, hpaired⟩
      intro s₂ hinv₂ hrely₂ _ c r s₃ hs
      obtain ⟨hlock₂, hkept⟩ := hrely₂ hlock₁
      cases hs
      refine ⟨{ hinv₂ with }, ⟨fun j hj hl => ?_, .inl ⟨rfl, rfl⟩, fun hp => ⟨hp, Grows.refl _⟩⟩, ?_⟩
      · rw [hlock₂, some.injEq] at hl
        exact absurd hl.symm hj
      · cases result with
        | error e => trivial
        | ok ids =>
          intro hp
          obtain ⟨hp₁, hgrows⟩ := (hkept.later (le_refl _)).2 hp
          exact hgrows.paired (hpaired ids rfl hp₁)
    · cases hs

variable [DecidableEq ι]

theorem rules_fit : (rules (ι := ι) (E := E)).Fit exec program release PurgeOutside where
  refl hlock := ⟨hlock, .inl ⟨rfl, rfl⟩⟩
  trans h h' hlock :=
    ⟨(h' (h hlock).1).1, (h hlock).2.trans (h' (h hlock).1).2⟩
  start _ _ := program_safe _ _ _
  may _ _ := trivial
  other := by
    intro pool i c call began o next s' j call' began' o' next' hok hi hji hj _ _ hguar hlock
    refine ⟨hguar.lock j hji hlock, ?_⟩
    rcases hguar.store with hsame | ⟨hheld, -⟩ | ⟨rfl, hempty, hlt⟩
    · exact .inl hsame
    · rw [hlock, some.injEq] at hheld
      exact absurd hheld hji
    · refine .inr ⟨hempty, hlt, ?_⟩
      rintro e k rfl
      have := hok (Pool.about_eq hi) j
      rw [Pool.about_eq hj] at this
      exact absurd this (by simp [Op.writesForward])
  keeps := by
    intro i o s s' call s₀ result hguar hpost
    cases call with
    | purge => trivial
    | shortIds events =>
      cases result with
      | error e => trivial
      | ok ids =>
        intro hp
        obtain ⟨hp', hgrows⟩ := hguar.grows hp
        exact hgrows.paired (hpost hp')
  kill_inv := by
    intro i s h
    rw [release]
    split
    · exact { h with }
    · exact h
  kill_other := by
    intro i j o s hji h hlock
    rw [release]
    split_ifs with hheld
    · rw [hlock, some.injEq] at hheld
      exact absurd hheld hji
    · exact ⟨hlock, .inl ⟨rfl, rfl⟩⟩
  kill_keeps := by
    intro i s call s₀ result hpost
    have hstore : (release i s).store = s.store ∧ (release i s).purges = s.purges := by
      rw [release]
      split <;> exact ⟨rfl, rfl⟩
    cases call with
    | purge => trivial
    | shortIds events =>
      cases result with
      | error e => trivial
      | ok ids =>
        intro hp
        rw [hstore.1]
        exact hpost (hstore.2 ▸ hp)

theorem sound_run {pool : System ι E} (h : Run step PurgeOutside (Pool.start Room.empty) pool) :
    pool.Sound exec rules :=
  Pool.Sound.run rules_fit Consistent.empty h

theorem purges_of_noPurge {pool : System ι E} (h : Run step NoPurge (Pool.start Room.empty) pool) :
    pool.shared.purges = 0 := by
  refine h.invariant (I := fun pool : System ι E => pool.shared.purges = 0) rfl ?_
  intro pool pool' a hp hok hstep
  rcases Pool.step_cases hstep with ⟨i, call, rfl, -, rfl⟩ |
    ⟨i, c, call, began, o, next, r, s', rfl, hi, hr, rfl⟩ | ⟨i, p, rfl, -, rfl⟩
  · rwa [Pool.put_shared]
  · rw [Pool.put_shared]
    have ho : o ≠ .deleteCollection := fun h => hok (h ▸ Pool.about_eq hi)
    cases o <;> simp only [exec, some.injEq, Prod.mk.injEq, ne_eq, not_true_eq_false,
      reduceCtorEq, not_false_eq_true] at hr ho
    case lock i =>
      split at hr
      · rw [← (some_pair_inj hr).2]
        exact hp
      · cases hr
    all_goals
      rw [← hr.2]
      exact hp
  · show (release i pool.shared).purges = 0
    rw [release]
    split <;> exact hp

/-- In every run without a purge, whatever calls overlap, fail or crash between two writes: short ids
    belong to one event, lie between 1 and the counter, reverse mappings agree with the forward ones,
    calls agree on the short id of an event, and the batch of a call that returned is mapped both
    ways. -/
theorem short_ids_survive_crashes {pool : System ι E}
    (h : Run step NoPurge (Pool.start Room.empty) pool) :
    (∀ e e' k, pool.shared.store.forward.get? e = some k →
      pool.shared.store.forward.get? e' = some k → e = e') ∧
    (∀ e k, pool.shared.store.forward.get? e = some k → 1 ≤ k ∧ k ≤ pool.shared.store.counter) ∧
    (∀ k e, pool.shared.store.reverse.get? k = some e → pool.shared.store.forward.get? e = some k) ∧
    (∀ events ids s events' ids' s', (.shortIds events, s, .ok ids) ∈ pool.results →
      (.shortIds events', s', .ok ids') ∈ pool.results →
      ∀ e k k', (e, k) ∈ events.zip ids → (e, k') ∈ events'.zip ids' → k = k') ∧
    ∀ events ids s, (.shortIds events, s, .ok ids) ∈ pool.results → Paired pool.shared.store events ids := by
  have hp := purges_of_noPurge h
  have hsound := sound_run (h.mono fun pool a hok => NoPurge.outside hok)
  have hinv : Consistent pool.shared := hsound.inv
  have hpaired : ∀ events ids s, (.shortIds events, s, .ok ids) ∈ pool.results →
      Paired pool.shared.store events ids := fun _ _ _ hmem => hsound.post hmem hp
  refine ⟨fun _ _ _ => hinv.inj, fun _ _ hk => ⟨hinv.pos hk, hinv.bound hk⟩,
    fun _ _ => hinv.reverse hp, ?_, hpaired⟩
  intro events ids s events' ids' s' hmem hmem' e k k' hk hk'
  have hf := ((forall₂_iff_zip.mp (hpaired _ _ _ hmem)).2 hk).1
  have hf' := ((forall₂_iff_zip.mp (hpaired _ _ _ hmem')).2 hk').1
  exact mem_unique hf hf'

/-- A call crashes after writing the forward mapping of 10; the next one repairs it. -/
def crashTrace : List (Act (Fin 2) Unit (Call ℕ)) :=
  .spawn 0 (.shortIds [10, 20]) :: replicate 5 (.step 0 ()) ++
    .kill 0 :: .spawn 1 (.shortIds [10, 20, 10]) :: replicate 12 (.step 1 ())

theorem short_ids_survive_crashes_repair : ∃ pool : System (Fin 2) ℕ,
    Run step NoPurge (Pool.start Room.empty) pool ∧
    pool.results.map (fun r => r.2.2.toOption) = [some [1, 2, 1]] ∧
    ∀ k e, pool.shared.store.reverse.get? k = some e → pool.shared.store.forward.get? e = some k :=
  Run.exists_get crashTrace (by decide) fun hrun => ⟨by decide, (short_ids_survive_crashes hrun).2.2.1⟩

/-- In every run in which no purge falls between the write of a counter and the write of the short id
    it was made for, no two events have the same short id and the counter is never below one. -/
theorem purge_outside_allocation {pool : System ι E}
    (h : Run step PurgeOutside (Pool.start Room.empty) pool) :
    (∀ e e' k, pool.shared.store.forward.get? e = some k →
      pool.shared.store.forward.get? e' = some k → e = e') ∧
    ∀ e k, pool.shared.store.forward.get? e = some k → k ≤ pool.shared.store.counter :=
  have hinv : Consistent pool.shared := (sound_run h).inv
  ⟨fun _ _ _ => hinv.inj, fun _ _ => hinv.bound⟩

/-- A purge between two events of a batch, whose counter is cached. -/
def purgeTrace : List (Act (Fin 2) Unit (Call ℕ)) :=
  .spawn 0 (.shortIds [10, 20]) :: replicate 6 (.step 0 ()) ++
    .spawn 1 .purge :: .step 1 () :: replicate 5 (.step 0 ())

theorem purge_outside_allocation_batch : ∃ pool : System (Fin 2) ℕ,
    Run step PurgeOutside (Pool.start Room.empty) pool ∧
    pool.shared.store.forward.entries = [(20, 2)] ∧ pool.shared.purges = 1 ∧
    ∀ e k, pool.shared.store.forward.get? e = some k → k ≤ pool.shared.store.counter :=
  Run.exists_get purgeTrace (by decide) fun hrun => ⟨by decide, by decide, (purge_outside_allocation hrun).2⟩

/-- A purge between the write of the counter and the write of the forward mapping of 10, and then a
    call for 20. -/
def raceTrace : List (Act (Fin 3) Unit (Call ℕ)) :=
  .spawn 0 (.shortIds [10]) :: replicate 4 (.step 0 ()) ++
    .spawn 1 .purge :: .step 1 () :: replicate 3 (.step 0 ()) ++
    .spawn 2 (.shortIds [20]) :: replicate 7 (.step 2 ())

/-- The surviving forward mapping has no counter, so the next call gives its short id out again. -/
theorem purge_reuses_short_id : ∃ pool : System (Fin 3) ℕ,
    Run step (fun _ _ => True) (Pool.start Room.empty) pool ∧
    pool.shared.store.forward.get? 10 = some 1 ∧ pool.shared.store.forward.get? 20 = some 1 :=
  Run.exists_exec raceTrace (by decide)

end Sithnapse.ShortIds
