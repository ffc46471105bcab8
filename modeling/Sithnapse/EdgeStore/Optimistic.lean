import Sithnapse.Kit.Pool
import Sithnapse.EdgeStore.Records

/-! `event_edges_put` under a shared log: read, stage, and commit if nothing read has changed.

    A call reads the forward records it will merge into, room by room, with their versions, and commits
    its writes on the condition that these versions still hold. A commit that finds another version
    writes nothing, and the call starts over, at most `MAX_OCC_ATTEMPTS` times. Calls run side by side
    in a pool. What a call has read stays right as long as the version is the one it read: this carries
    the proof over the steps of the others. -/

namespace Sithnapse.EdgeStore

open Kit List Except
open Prod (fst snd)
open Kit.Dict hiding keys

variable {R : Type}

/-! ### The database -/

/-- The records, the version of each forward record (0 if never written), the clock versions are drawn
    from, and the rows committed so far, which no code reads. -/
structure Db (R : Type) where
  store : Store R
  version : Dict (R × String) ℕ
  clock : ℕ
  log : List (EdgeRow R)

/-- A new database. -/
def Db.empty : Db R := ⟨Store.empty, Dict.empty, 0, []⟩

/-- What a call does to the database, one step each. -/
inductive Op (R : Type)
  /-- `begin_internal_transaction` after a conflict. -/
  | begin
  /-- `get_with_record_versions` in one room's collection. -/
  | read (keys : List (R × String))
  /-- `commit`; the rows are those the writes were made from. -/
  | commit (expected : List ((R × String) × ℕ)) (writes : EdgeWrites R) (rows : List (EdgeRow R))

/-- A transaction was opened, the shared log is gone, or opening failed. -/
inductive BeginReply
  | started
  | gone
  | failed

/-- Records and versions, versions that kept advancing under the reader, or another error. -/
inductive ReadReply
  | found (l : List (Option (List UInt8) × ℕ))
  | contended
  | failed

/-- Published, `StaleRead`, or an error that leaves open whether it was published. -/
inductive CommitReply
  | done
  | stale
  | failed
  deriving DecidableEq

/-- The reply to each operation. -/
abbrev Reply : Op R → Type
  | .begin => BeginReply
  | .read _ => ReadReply
  | .commit _ _ _ => CommitReply

/-- What the engine does with an operation. -/
inductive Engine
  | fine
  | contended
  | gone
  | fails
  /-- A commit is published and reported as failed. -/
  | lost

variable [DecidableEq R]

/-- The version of a forward record. -/
def Db.versionOf (s : Db R) (key : R × String) : ℕ := s.version.getD key 0

/-- The writes of a transaction, with a new version for every forward record among them. -/
def Db.publish (s : Db R) (writes : EdgeWrites R) (rows : List (EdgeRow R)) : Db R where
  store := s.store.put writes
  version := s.version.update (writes.forward.map fun p => (p.1, s.clock + 1))
  clock := s.clock + 1
  log := s.log ++ rows

/-- One operation. Versions are validated before anything is appended. -/
def exec : (o : Op R) → Engine → Db R → Option (Reply o × Db R)
  | .begin, c, s =>
    match c with
    | .gone => some (BeginReply.gone, s)
    | .fails => some (BeginReply.failed, s)
    | _ => some (BeginReply.started, s)
  | .read keys, c, s =>
    match c with
    | .contended => some (ReadReply.contended, s)
    | .fails => some (ReadReply.failed, s)
    | _ => some (ReadReply.found (keys.map fun key => (s.store.forward.get? key, s.versionOf key)), s)
  | .commit expected writes rows, c, s =>
    match c with
    | .fails => some (CommitReply.failed, s)
    | _ =>
      if ∀ x ∈ expected, s.versionOf x.1 = x.2 then
        match c with
        | .lost => some (CommitReply.failed, s.publish writes rows)
        | _ => some (CommitReply.done, s.publish writes rows)
      else some (CommitReply.stale, s)

variable {s s' : Db R} {rows : List (EdgeRow R)}

/-- Opening a transaction changes nothing. -/
theorem exec_begin {c : Engine} {r : BeginReply} (h : exec .begin c s = some (r, s')) : s' = s := by
  cases c <;> exact (congrArg snd (Option.some.inj h)).symm

/-- A read changes nothing. -/
theorem exec_read {keys : List (R × String)} {c : Engine} {r : ReadReply}
    (h : exec (.read keys) c s = some (r, s')) : s' = s ∧ (r = .contended ∨ r = .failed ∨
      r = .found (keys.map fun key => (s.store.forward.get? key, s.versionOf key))) := by
  have hs : s' = s := by cases c <;> exact (congrArg snd (Option.some.inj h)).symm
  refine ⟨hs, ?_⟩
  cases c with
  | contended => exact .inl (congrArg fst (Option.some.inj h)).symm
  | fails => exact .inr (.inl (congrArg fst (Option.some.inj h)).symm)
  | fine | gone | lost => exact .inr (.inr (congrArg fst (Option.some.inj h)).symm)

/-- A commit publishes nothing and is not done, or the versions stood and it is not stale. -/
theorem exec_commit {expected : List ((R × String) × ℕ)} {writes : EdgeWrites R} {c : Engine} {r : CommitReply}
    (h : exec (.commit expected writes rows) c s = some (r, s')) :
    (s' = s ∧ r ≠ .done) ∨
      (∀ x ∈ expected, s.versionOf x.1 = x.2) ∧ s' = s.publish writes rows ∧ r ≠ .stale := by
  by_cases hv : ∀ x ∈ expected, s.versionOf x.1 = x.2
  · cases c with
    | fails =>
      cases h
      exact .inl ⟨rfl, by decide⟩
    | lost =>
      simp only [exec, if_pos hv] at h
      cases h
      exact .inr ⟨hv, rfl, by decide⟩
    | fine | contended | gone =>
      simp only [exec, if_pos hv] at h
      cases h
      exact .inr ⟨hv, rfl, by decide⟩
  · cases c with
    | fails =>
      cases h
      exact .inl ⟨rfl, by decide⟩
    | fine | contended | gone | lost =>
      simp only [exec, if_neg hv] at h
      cases h
      exact .inl ⟨rfl, by decide⟩

/-! ### The calls -/

/-- The errors of a call. -/
inductive OccError
  /-- "mtxdb edge write kept losing the record-version race; retry" -/
  | gaveUp
  /-- "shared WAL disappeared during an optimistic edge write" -/
  | walGone
  | malformed (m : Malformed)
  /-- An error of the engine. -/
  | engine
  deriving DecidableEq

/-- Why an attempt did not publish: `EdgeOccOutcome::Conflict`, or an error. -/
inductive Stop
  | conflict
  | error (e : OccError)

/-- A forward list as it was read, with its version. -/
abbrev ReadEntry (R : Type) := (R × String) × List String × ℕ

omit [DecidableEq R] in
/-- The lists of one read. -/
def decodeFound (keys : List (R × String)) (l : List (Option (List UInt8) × ℕ)) :
    Except Malformed (List (ReadEntry R)) :=
  (keys.zip l).mapM fun p => (childList p.2.1).map fun children => (p.1, children, p.2.2)

/-- `forward_by_collection`: the parents of the rows, room by room. -/
def readGroupsOf (o : MapOrder R) (rows : List (EdgeRow R)) : List (List (R × String)) :=
  (Dict.group ((o.reads (forwardMap rows).keys).map fun key => (key.1, key))).values

/-- Read the forward lists, one collection at a time. -/
def readGroups : List (List (R × String)) → List (ReadEntry R) →
    Prog (Op R) Reply (Except Stop (List (ReadEntry R)))
  | [], entries => .done (.ok entries)
  | keys :: groups, entries => .op (.read keys) fun r =>
    match (r : ReadReply) with
    | .contended => .done (.error .conflict)
    | .failed => .done (.error (.error .engine))
    | .found l =>
      match decodeFound keys l with
      | .error m => .done (.error (.error (.malformed m)))
      | .ok new => readGroups groups (entries ++ new)

/-- `forward_cache`. -/
def cacheOf (entries : List (ReadEntry R)) : Dict (R × String) (List String) :=
  Dict.ofList (entries.map fun x => (x.1, x.2.1))

/-- The body of the loop: `write_edges` on a transaction, and its commit. -/
def attempt (o : MapOrder R) (rows : List (EdgeRow R)) : Prog (Op R) Reply (Except Stop Unit) :=
  readGroups (readGroupsOf o rows) [] >>= fun r =>
    match r with
    | .error stop => .done (.error stop)
    | .ok entries =>
      .op (.commit (entries.map fun x => (x.1, x.2.2))
          (edgeWrites o (fun key => (cacheOf entries).getD key []) rows) rows) fun reply =>
        match (reply : CommitReply) with
        | .done => .done (.ok ())
        | .stale => .done (.error .conflict)
        | .failed => .done (.error (.error .engine))

/-- `MAX_OCC_ATTEMPTS`. -/
def maxOccAttempts : ℕ := 16

/-- `run_edge_occ`, by the attempts left; every attempt builds its hash maps anew. -/
def runEdgeOcc (orders : ℕ → MapOrder R) (rows : List (EdgeRow R)) :
    ℕ → Prog (Op R) Reply (Except OccError Unit)
  | 0 => .done (.error .gaveUp)
  | n + 1 => attempt (orders n) rows >>= fun r =>
    match r with
    | .ok () => .done (.ok ())
    | .error (.error e) => .done (.error e)
    | .error .conflict => .op .begin fun b =>
      match (b : BeginReply) with
      | .started => runEdgeOcc orders rows n
      | .gone => .done (.error .walGone)
      | .failed => .done (.error .engine)

/-- A call of `event_edges_put`. -/
structure PutCall (R : Type) where
  orders : ℕ → MapOrder R
  rows : List (EdgeRow R)

variable {ι : Type}

/-- The program of a call. -/
def putProgram (_ : ι) (call : PutCall R) : Prog (Op R) Reply (Except OccError Unit) :=
  runEdgeOcc call.orders call.rows maxOccAttempts

/-- Calls side by side on one database. -/
abbrev Puts (ι R : Type) := Pool ι (Db R) (PutCall R) (Op R) Reply (Except OccError Unit)

/-- One action; a call that is cut off leaves its transaction unpublished. -/
def putStep [DecidableEq ι] (pool : Puts ι R) (a : Act ι Engine (PutCall R)) : Option (Puts ι R) :=
  pool.step exec putProgram (fun _ s => s) a

/-! ### What a call reads stays right while its version stands -/

/-- Forward records hold the committed rows, and no version is from the future. -/
structure Merged (s : Db R) : Prop where
  record : ∀ key, s.store.forward.get? key = forwardRecord s.log key
  ids : ∀ row ∈ s.log, Reemitted row.event
  short : ∀ key, (addAll [] (childrenOf s.log key)).length < 2 ^ 32
  version : ∀ key, s.versionOf key ≤ s.clock

/-- Versions advance, a record with its old version has its old value, and the log grows. -/
structure Later (s s' : Db R) : Prop where
  version : ∀ key, s.versionOf key ≤ s'.versionOf key
  same : ∀ key, s'.versionOf key = s.versionOf key → s'.store.forward.get? key = s.store.forward.get? key
  log : ∀ row ∈ s.log, row ∈ s'.log

theorem Later.refl (s : Db R) : Later s s := ⟨fun _ => le_rfl, fun _ _ => rfl, fun _ h => h⟩

theorem Later.trans {s'' : Db R} (h : Later s s') (h' : Later s' s'') : Later s s'' where
  version key := (h.version key).trans (h'.version key)
  same key hkey := by
    have h₁ := h.version key
    have h₂ := h'.version key
    rw [h'.same key (by omega), h.same key (by omega)]
  log row hrow := h'.log row (h.log row hrow)

/-- The children may join the log: their ids come back, and their parents' lists do not overflow. -/
def MayMerge (s : Db R) (rows : List (EdgeRow R)) : Prop :=
  (∀ row ∈ rows, Reemitted row.event) ∧
    ∀ row ∈ rows, (addAll [] (childrenOf (s.log ++ rows) (row.room, row.prev))).length < 2 ^ 32
  deriving Decidable

/-- What was read holds as long as the version does. -/
structure StillRead (s : Db R) (x : ReadEntry R) : Prop where
  version : x.2.2 ≤ s.versionOf x.1
  list : s.versionOf x.1 = x.2.2 → childList (s.store.forward.get? x.1) = .ok x.2.1

theorem StillRead.later {x : ReadEntry R} (h : StillRead s x) (hl : Later s s') : StillRead s' x where
  version := h.version.trans (hl.version x.1)
  list hv := by
    have h₁ := h.version
    have h₂ := hl.version x.1
    rw [hl.same x.1 (by omega)]
    exact h.list (by omega)

theorem versionOf_publish (s : Db R) (writes : EdgeWrites R) (rows : List (EdgeRow R))
    (key : R × String) : (s.publish writes rows).versionOf key =
      if key ∈ writes.forward.map fst then s.clock + 1 else s.versionOf key := by
  have hmap : (writes.forward.map fun p => (p.1, s.clock + 1)) =
      (writes.forward.map fst).map fun k => (k, s.clock + 1) := by simp
  rw [Db.versionOf, Db.publish, Dict.getD, hmap, get?_update_map]
  split <;> rfl

/-- Whatever a commit publishes, versions tell it. -/
theorem later_publish (h : Merged s) (writes : EdgeWrites R) (rows : List (EdgeRow R)) :
    Later s (s.publish writes rows) where
  version key := by
    have hv := h.version key
    rw [versionOf_publish]
    split <;> omega
  same key hkey := by
    rw [versionOf_publish] at hkey
    split_ifs at hkey with hw
    · have hv := h.version key
      omega
    · exact get?_update_of_not_mem _ fun bytes hb => hw (mem_map_of_mem hb)
  log row hrow := mem_append_left _ hrow

/-- A commit whose reads all stand merges its rows. -/
theorem Merged.publish (h : Merged s) (o : MapOrder R)
    {existing : R × String → List String} (hmay : MayMerge s rows)
    (hexisting : ∀ key, childrenOf rows key ≠ [] →
      childList (s.store.forward.get? key) = .ok (existing key)) :
    Merged (s.publish (edgeWrites o existing rows) rows) where
  record key := by
    refine forwardRecord_put o (h.record key) fun hne => ?_
    have hread := hexisting key hne
    rw [h.record key, childList_forwardRecord h.ids (h.short key)] at hread
    exact (ok.inj hread).symm
  ids row hrow := by
    rcases mem_append.mp hrow with hrow | hrow
    · exact h.ids row hrow
    · exact hmay.1 row hrow
  short key := by
    show (addAll [] (childrenOf (s.log ++ rows) key)).length < 2 ^ 32
    by_cases hnil : childrenOf rows key = []
    · rw [childrenOf_append, hnil, append_nil]
      exact h.short key
    · obtain ⟨c, hc⟩ := exists_mem_of_ne_nil _ hnil
      obtain ⟨row, hrow, rfl, -⟩ := mem_childrenOf.mp hc
      exact hmay.2 row hrow
  version key := by
    have hv := h.version key
    rw [versionOf_publish]
    show _ ≤ s.clock + 1
    split <;> omega

/-! ### Calls side by side -/

/-- Calls advance the database, merge what they commit, and succeed only once it is in the log. -/
def putRules : Rules ι (Db R) (PutCall R) (Op R) (Except OccError Unit) where
  inv := Merged
  may o s :=
    match o with
    | .commit _ _ rows => MayMerge s rows
    | _ => True
  rely _ _ := Later
  guar _ _ := Later
  post call _ a s := a = .ok () → ∀ row ∈ call.rows, row ∈ s.log

omit [DecidableEq R] in
/-- The entries of a read are its keys, with the lists and versions found. -/
theorem decodeFound_spec (f : R × String → Option (List UInt8) × ℕ) :
    ∀ {keys : List (R × String)} {entries : List (ReadEntry R)},
      decodeFound keys (keys.map f) = .ok entries → entries.map fst = keys ∧
        ∀ x ∈ entries, childList (f x.1).1 = .ok x.2.1 ∧ x.2.2 = (f x.1).2
  | [], entries, h => by
    obtain rfl : [] = entries := ok.inj h
    exact ⟨rfl, nofun⟩
  | key :: keys, entries, h => by
    rw [decodeFound, map_cons, zip_cons_cons, mapM_cons] at h
    obtain ⟨entry, hentry, h⟩ := bind_eq_ok.mp h
    obtain ⟨children, hchildren, rfl⟩ := map_eq_ok.mp hentry
    obtain ⟨tail, htail, h⟩ := bind_eq_ok.mp h
    obtain ⟨hkeys, hall⟩ := decodeFound_spec f htail
    obtain rfl : (key, children, (f key).2) :: tail = entries := ok.inj h
    refine ⟨by rw [map_cons, hkeys], fun x hx => ?_⟩
    rcases mem_cons.mp hx with rfl | hx
    · exact ⟨hchildren, rfl⟩
    · exact hall x hx

section Calls

variable {i : ι}

/-- Reading ends with entries for all the keys, each right while its version stands. -/
theorem readGroups_safe : ∀ (groups : List (List (R × String))) {entries : List (ReadEntry R)} {s : Db R},
    (∀ x ∈ entries, StillRead s x) →
    Safe exec (putRules (ι := ι)) i (fun r s =>
      match r with
      | .ok all => (∀ x ∈ all, StillRead s x) ∧ all.map fst = entries.map fst ++ groups.flatten
      | .error _ => True) (readGroups groups entries) s
  | [], entries, s, h => ⟨h, by simp⟩
  | keys :: groups, entries, s, h => by
    intro s' hinv hrely _ c r s'' hexec
    obtain ⟨rfl, hr⟩ := exec_read hexec
    refine ⟨hinv, Later.refl _, ?_⟩
    rcases hr with rfl | rfl | rfl
    · exact trivial
    · exact trivial
    · dsimp only
      cases hfound : decodeFound keys
          (keys.map fun key => (s''.store.forward.get? key, s''.versionOf key)) with
      | error m => exact trivial
      | ok new =>
        obtain ⟨hkeys, hnew⟩ := decodeFound_spec _ hfound
        have hall : ∀ x ∈ entries ++ new, StillRead s'' x := by
          intro x hx
          rcases mem_append.mp hx with hx | hx
          · exact (h x hx).later hrely
          · exact ⟨(hnew x hx).2.le, fun _ => (hnew x hx).1⟩
        refine (readGroups_safe groups hall).mono fun r s hr => ?_
        cases r with
        | error stop => exact trivial
        | ok all => exact ⟨hr.1, by rw [hr.2, map_append, hkeys, flatten_cons, append_assoc]⟩

theorem mem_readGroupsOf (o : MapOrder R) {key : R × String} :
    key ∈ (readGroupsOf o rows).flatten ↔ childrenOf rows key ≠ [] := by
  have hkeys : key ∈ (forwardMap rows).keys ↔ childrenOf rows key ≠ [] := by
    rw [Dict.keys, mem_map]
    constructor
    · rintro ⟨⟨k, l⟩, hmem, rfl⟩
      obtain ⟨⟨row, hrow, hk⟩, -⟩ := mem_forwardMap.mp hmem
      exact ne_nil_of_mem (mem_childrenOf.mpr ⟨row, hrow, hk, rfl⟩)
    · intro hne
      obtain ⟨c, hc⟩ := exists_mem_of_ne_nil _ hne
      obtain ⟨row, hrow, hk, -⟩ := mem_childrenOf.mp hc
      exact ⟨(key, childrenOf rows key), mem_forwardMap.mpr ⟨⟨row, hrow, hk⟩, rfl⟩, rfl⟩
  rw [← hkeys, ← (o.reads_perm (forwardMap rows).keys).mem_iff, readGroupsOf, mem_flatten]
  constructor
  · rintro ⟨keys, hvalues, hkey⟩
    obtain ⟨⟨r, l⟩, hentry, rfl⟩ := mem_map.mp hvalues
    obtain ⟨-, rfl⟩ := mem_entries_group.mp hentry
    obtain ⟨p, hp, rfl⟩ := mem_map.mp hkey
    obtain ⟨k, hk, rfl⟩ := mem_map.mp (mem_filter.mp hp).1
    exact hk
  · intro hkey
    refine ⟨_, mem_map.mpr ⟨(key.1, _), mem_entries_group.mpr ⟨?_, rfl⟩, rfl⟩, ?_⟩
    · exact mem_map.mpr ⟨(key.1, key), mem_map_of_mem hkey, rfl⟩
    · refine mem_map.mpr ⟨(key.1, key), mem_filter.mpr ⟨?_, decide_eq_true rfl⟩, rfl⟩
      exact mem_map_of_mem hkey

/-- A list of the cache is that of an entry with its key. -/
theorem cacheOf_getD {entries : List (ReadEntry R)} {key : R × String}
    (h : key ∈ entries.map fst) : ∃ x ∈ entries, x.1 = key ∧ (cacheOf entries).getD key [] = x.2.1 := by
  have hkeys : key ∈ (cacheOf entries).keys := by
    rw [cacheOf, mem_keys_ofList, map_map]
    exact h
  obtain ⟨l, hl⟩ := mem_keys_iff.mp hkeys
  rcases get?_update_cases _ _ hl with hmem | hmem
  · obtain ⟨x, hx, heq⟩ := mem_map.mp hmem
    obtain ⟨hkey, hlist⟩ := Prod.mk.inj heq
    exact ⟨x, hx, hkey, (getD_of_get? hl).trans hlist.symm⟩
  · cases hmem

/-- An attempt that ends well has its rows in the log. -/
theorem attempt_safe (o : MapOrder R) (rows : List (EdgeRow R)) (s : Db R) :
    Safe exec (putRules (ι := ι)) i (fun r s => r = .ok () → ∀ row ∈ rows, row ∈ s.log)
      (attempt o rows) s := by
  refine (readGroups_safe (readGroupsOf o rows) fun x hx => absurd hx not_mem_nil).bind
    fun r s hr => ?_
  cases r with
  | error stop => exact fun h => by cases h
  | ok entries =>
    obtain ⟨hread, hkeys⟩ := hr
    intro s' hinv hrely hmay c reply s'' hexec
    rcases exec_commit hexec with ⟨rfl, hreply⟩ | ⟨hversions, rfl, -⟩
    · refine ⟨hinv, Later.refl _, ?_⟩
      cases reply with
      | done => exact absurd rfl hreply
      | stale => exact fun h => by cases h
      | failed => exact fun h => by cases h
    · have hexisting : ∀ key, childrenOf rows key ≠ [] →
          childList (s'.store.forward.get? key) = .ok ((cacheOf entries).getD key []) := by
        intro key hne
        have hmem : key ∈ entries.map fst := by
          rw [hkeys]
          exact mem_append_right _ ((mem_readGroupsOf o).mpr hne)
        obtain ⟨x, hx, rfl, hlist⟩ := cacheOf_getD hmem
        rw [hlist]
        exact ((hread x hx).later hrely).list (hversions (x.1, x.2.2) (mem_map_of_mem hx))
      refine ⟨hinv.publish o hmay hexisting, later_publish hinv _ _, ?_⟩
      have hlog : ∀ row ∈ rows, row ∈ (s'.publish
          (edgeWrites o (fun key => (cacheOf entries).getD key []) rows) rows).log :=
        fun row hrow => mem_append_right _ hrow
      cases reply with
      | done => exact fun _ => hlog
      | stale => exact fun h => by cases h
      | failed => exact fun h => by cases h

theorem runEdgeOcc_safe (orders : ℕ → MapOrder R) (rows : List (EdgeRow R)) : ∀ (n : ℕ) (s : Db R),
    Safe exec (putRules (ι := ι)) i (fun r s => r = .ok () → ∀ row ∈ rows, row ∈ s.log)
      (runEdgeOcc orders rows n) s
  | 0, s => fun h => by cases h
  | n + 1, s => by
    refine (attempt_safe (orders n) rows s).bind fun r s hr => ?_
    match r with
    | .ok () => exact fun _ => hr rfl
    | .error (.error e) => exact fun h => by cases h
    | .error .conflict =>
      intro s' hinv _ _ c b s'' hexec
      obtain rfl := exec_begin hexec
      refine ⟨hinv, Later.refl _, ?_⟩
      cases b with
      | started => exact runEdgeOcc_safe orders rows n s''
      | gone => exact fun h => by cases h
      | failed => exact fun h => by cases h

end Calls

/-- Commits only merge children whose ids come back, into lists that do not overflow. -/
def MayPut (pool : Puts ι R) : Act ι Engine (PutCall R) → Prop
  | .step i _ =>
    match pool.about i with
    | some (.commit _ _ rows) => MayMerge pool.shared rows
    | _ => True
  | _ => True

instance (pool : Puts ι R) : (a : Act ι Engine (PutCall R)) → Decidable (MayPut pool a)
  | .step i _ =>
    match h : pool.about i with
    | some (.commit _ _ rows) => decidable_of_iff (MayMerge pool.shared rows) (by rw [MayPut, h])
    | some .begin => isTrue (by rw [MayPut, h]; trivial)
    | some (.read _) => isTrue (by rw [MayPut, h]; trivial)
    | none => isTrue (by rw [MayPut, h]; trivial)
  | .spawn _ _ => isTrue trivial
  | .kill _ => isTrue trivial

theorem merged_empty : Merged (Db.empty : Db R) where
  record key := by simp [Db.empty, Store.empty, forwardRecord, childrenOf]
  ids row hrow := absurd hrow not_mem_nil
  short key := by simp [Db.empty, childrenOf, addAll]
  version key := by simp [Db.empty, Db.versionOf]

theorem putRules_fit [DecidableEq ι] :
    (putRules (ι := ι) (R := R)).Fit exec putProgram (fun _ s => s) MayPut where
  refl := Later.refl _
  trans := Later.trans
  start _ _ := runEdgeOcc_safe _ _ _ _
  may {pool i c call began o next} hok hi := by
    cases o with
    | begin => exact trivial
    | read keys => exact trivial
    | commit expected writes rows =>
      rw [MayPut, Pool.about_eq hi] at hok
      exact hok
  other _ _ _ _ _ _ hguar := hguar
  keeps hguar hpost ha row hrow := hguar.log row (hpost ha row hrow)
  kill_inv h := h
  kill_other _ _ := Later.refl _
  kill_keeps h := h

/-! ### Calls that give up -/

/-- The replies after which records may have changed. -/
def Published : (o : Op R) → Reply o → Prop
  | .commit _ _ _, r => r ≠ CommitReply.stale
  | _, _ => False

theorem published_of_exec {o : Op R} {c : Engine} {r : Reply o}
    (h : exec o c s = some (r, s')) (hs : s'.store ≠ s.store) : Published o r := by
  cases o with
  | begin => exact absurd (congrArg Db.store (exec_begin h)) hs
  | read keys => exact absurd (congrArg Db.store (exec_read h).1) hs
  | commit expected writes rows =>
    rcases exec_commit h with ⟨hsame, -⟩ | ⟨-, -, hr⟩
    · exact absurd (congrArg Db.store hsame) hs
    · exact hr

omit [DecidableEq R] in
theorem readGroups_last : ∀ (groups : List (List (R × String))) (entries : List (ReadEntry R)),
    (readGroups groups entries).Last Published fun _ => False
  | [], _ => trivial
  | keys :: groups, entries => by
    intro r
    refine ⟨?_, fun h => h.elim⟩
    cases r with
    | contended => exact trivial
    | failed => exact trivial
    | found l =>
      dsimp only
      split
      · exact trivial
      · exact readGroups_last groups _

/-- An attempt that may have published is over, and without a conflict. -/
theorem attempt_last (o : MapOrder R) (rows : List (EdgeRow R)) :
    (attempt o rows).Last Published fun r => r = .ok () ∨ r = .error (.error .engine) := by
  refine (readGroups_last _ _).bind (fun r => ?_) fun r h => h.elim
  cases r with
  | error stop => exact trivial
  | ok entries =>
    intro reply
    cases reply with
    | done => exact ⟨trivial, fun _ => ⟨_, rfl, .inl rfl⟩⟩
    | stale => exact ⟨trivial, fun h => absurd rfl h⟩
    | failed => exact ⟨trivial, fun _ => ⟨_, rfl, .inr rfl⟩⟩

theorem runEdgeOcc_last (orders : ℕ → MapOrder R) (rows : List (EdgeRow R)) : ∀ n,
    (runEdgeOcc orders rows n).Last Published fun r => r ≠ .error .gaveUp
  | 0 => trivial
  | n + 1 => by
    refine (attempt_last (orders n) rows).bind (fun r => ?_) fun r hr => ?_
    · match r with
      | .ok () => exact trivial
      | .error (.error e) => exact trivial
      | .error .conflict =>
        intro b
        refine ⟨?_, fun h => h.elim⟩
        cases b with
        | started => exact runEdgeOcc_last orders rows n
        | gone => exact trivial
        | failed => exact trivial
    · rcases hr with rfl | rfl
      · exact ⟨_, rfl, by simp⟩
      · exact ⟨_, rfl, by simp⟩

/-- Whatever a call still has to do, once it may have published it is over and has not given up. -/
theorem rest_last [DecidableEq ι] {pool : Puts ι R} {ok : Puts ι R → Act ι Engine (PutCall R) → Prop}
    {s₀ : Db R} (hrun : Run putStep ok (Pool.start s₀) pool) :
    ∀ i p, pool.procs i = some p → p.rest.Last Published fun r => r ≠ .error .gaveUp := by
  have hprogram : ∀ (i : ι) (call : PutCall R),
      (putProgram i call).Last Published fun r => r ≠ .error .gaveUp :=
    fun _ call => runEdgeOcc_last call.orders call.rows maxOccAttempts
  have hsteps : Run (Pool.step exec putProgram fun _ s => s) ok (Pool.start s₀) pool := hrun
  exact Pool.rest_run hprogram (fun _ _ r h => (h r).1) hsteps

/-- In every run whose commits may merge their children: each child of a call that succeeded is in its
    parent's forward list exactly once, no list has a child twice, and an action that changes a record
    is the last step of a call, which does not give up. -/
theorem optimistic_puts_merge [DecidableEq ι] {pool : Puts ι R}
    (hrun : Run putStep MayPut (Pool.start Db.empty) pool) :
    (∀ call began, (call, began, .ok ()) ∈ pool.results → ∀ row ∈ call.rows,
      ∃ l, childList (pool.shared.store.forward.get? (row.room, row.prev)) = .ok l ∧ l.count row.event = 1) ∧
    (∀ key, ∃ l, childList (pool.shared.store.forward.get? key) = .ok l ∧ l.Nodup) ∧
    ∀ a pool', putStep pool a = some pool' → pool'.shared.store ≠ pool.shared.store →
      ∃ i c call began result, a = .step i c ∧ pool'.procs i = none ∧
        pool'.results = pool.results ++ [(call, began, result)] ∧ result ≠ .error .gaveUp := by
  have hsound := Pool.Sound.run putRules_fit merged_empty hrun
  have hinv : Merged pool.shared := hsound.inv
  have hlist : ∀ key, childList (pool.shared.store.forward.get? key) =
      .ok (addAll [] (childrenOf pool.shared.log key)) := by
    intro key
    rw [hinv.record key]
    exact childList_forwardRecord hinv.ids (hinv.short key)
  have hnodup : ∀ key, (addAll [] (childrenOf pool.shared.log key)).Nodup :=
    fun key => nodup_addAll _ nodup_nil
  refine ⟨fun call began hres row hrow => ⟨_, hlist _, ?_⟩, fun key => ⟨_, hlist key, hnodup key⟩,
    fun a pool' hstep hchanged => ?_⟩
  · have hlog : row ∈ pool.shared.log := hsound.post hres rfl row hrow
    refine count_eq_one_of_mem (hnodup _) (mem_addAll.mpr (.inr ?_))
    exact mem_childrenOf.mpr ⟨row, hlog, rfl, rfl⟩
  · rcases Pool.step_cases hstep with ⟨i, call, rfl, hi, rfl⟩ |
      ⟨i, c, call, began, o, next, r, s', rfl, hi, hr, rfl⟩ | ⟨i, p, rfl, hi, rfl⟩
    · exact absurd (by rw [Pool.put_shared]) hchanged
    · rw [Pool.put_shared] at hchanged
      have hlast : (Prog.op o next).Last Published fun r => r ≠ .error .gaveUp :=
        rest_last hrun i _ hi
      obtain ⟨result, hresult, hne⟩ := (hlast r).2 (published_of_exec hr hchanged)
      rcases Pool.put_cases { pool with shared := s' } i ⟨call, began, next r⟩ with
        ⟨b, hb, hprocs, hresults⟩ | ⟨hop, -⟩
      · obtain rfl : result = b := by
          have heq := hresult.symm.trans hb
          cases heq
          rfl
        exact ⟨i, c, call, began, result, rfl, by rw [hprocs, Function.update_self], hresults, hne⟩
      · exact absurd hresult (hop result)
    · exact absurd rfl hchanged

/-- Two calls that read the same parent before either commits: the second finds its version stale. -/
def contendedTrace : List (Act (Fin 2) Engine (PutCall String)) :=
  [.spawn 0 ⟨fun _ => .asBuilt, [⟨"!r", "$a", "$p", false⟩]⟩,
    .spawn 1 ⟨fun _ => .asBuilt, [⟨"!r", "$b", "$p", false⟩]⟩,
    .step 0 .fine, .step 1 .fine, .step 0 .fine, .step 1 .fine, .step 1 .fine, .step 1 .fine,
    .step 1 .fine]

theorem optimistic_puts_merge_contended : ∃ pool : Puts (Fin 2) String,
    Run putStep MayPut (Pool.start Db.empty) pool ∧
    childList (pool.shared.store.forward.get? ("!r", "$p")) = .ok ["$a", "$b"] ∧
    pool.results.map (fun r => r.2.2) = [.ok (), .ok ()] ∧
    ∀ key, ∃ l, childList (pool.shared.store.forward.get? key) = .ok l ∧ l.Nodup :=
  Run.exists_get contendedTrace (by decide +kernel) fun hrun =>
    ⟨by decide +kernel, by decide +kernel, (optimistic_puts_merge hrun).2.1⟩

end Sithnapse.EdgeStore
