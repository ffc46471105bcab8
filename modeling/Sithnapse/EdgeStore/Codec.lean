import Sithnapse.Kit.Bytes
import Sithnapse.Kit.Reader

/-! The byte format of the edge records.

    An event id whose text is the unpadded base64 of 32 bytes is stored as those bytes, any other id as
    its text. The leading `$` is not stored with the bytes and is always put back, so an id that has the
    base64 form without it comes back as another id. Counts and lengths are cut to their width. -/

namespace Sithnapse.EdgeStore

open Kit Kit.Reader List

/-! ### Base64 without padding -/

/-- `base64::alphabet::STANDARD` and `URL_SAFE`. -/
inductive Alphabet
  | standard
  | urlSafe
  deriving DecidableEq

/-- The last two letters, which tell the alphabets apart. -/
def Alphabet.last : Alphabet → Char × Char
  | .standard => ('+', '/')
  | .urlSafe => ('-', '_')

variable (a : Alphabet)

/-- The letter of a six-bit value. -/
def letter (n : ℕ) : Char :=
  if n < 26 then Char.ofNat (65 + n)
  else if n < 52 then Char.ofNat (97 + (n - 26))
  else if n < 62 then Char.ofNat (48 + (n - 52))
  else if n = 62 then a.last.1
  else a.last.2

/-- The six-bit value of a letter. -/
def sextet (c : Char) : Option ℕ :=
  if 65 ≤ c.toNat ∧ c.toNat ≤ 90 then some (c.toNat - 65)
  else if 97 ≤ c.toNat ∧ c.toNat ≤ 122 then some (c.toNat - 97 + 26)
  else if 48 ≤ c.toNat ∧ c.toNat ≤ 57 then some (c.toNat - 48 + 52)
  else if c = a.last.1 then some 62
  else if c = a.last.2 then some 63
  else none

/-- `engine.encode`, three bytes to four letters. -/
def base64Encode (a : Alphabet) : List UInt8 → List Char
  | [] => []
  | [x] => [letter a (x.toNat / 4), letter a (x.toNat % 4 * 16)]
  | [x, y] =>
    [letter a (x.toNat / 4), letter a (x.toNat % 4 * 16 + y.toNat / 16), letter a (y.toNat % 16 * 4)]
  | x :: y :: z :: rest =>
    letter a (x.toNat / 4) :: letter a (x.toNat % 4 * 16 + y.toNat / 16) ::
      letter a (y.toNat % 16 * 4 + z.toNat / 64) :: letter a (z.toNat % 64) :: base64Encode a rest

/-- The bytes of six-bit values; a lone value and bits left over are refused. -/
def sextetBytes : List ℕ → Option (List UInt8)
  | [] => some []
  | [_] => none
  | [p, q] => if q % 16 = 0 then some [UInt8.ofNat (p * 4 + q / 16)] else none
  | [p, q, r] =>
    if r % 4 = 0 then some [UInt8.ofNat (p * 4 + q / 16), UInt8.ofNat (q % 16 * 16 + r / 4)] else none
  | p :: q :: r :: s :: rest =>
    (sextetBytes rest).map fun l =>
      UInt8.ofNat (p * 4 + q / 16) :: UInt8.ofNat (q % 16 * 16 + r / 4) :: UInt8.ofNat (r % 4 * 64 + s) :: l

/-- `engine.decode`. -/
def base64Decode (text : List Char) : Option (List UInt8) :=
  (text.mapM (sextet a)).bind sextetBytes

/-! ### Identities -/

/-- What a decoder refuses. -/
inductive Malformed
  /-- "truncated event-edge record (empty)" -/
  | empty
  /-- "truncated event-edge record (identity tag)" -/
  | identityTag
  /-- "truncated event-edge record (hash identity)" -/
  | hashIdentity
  /-- "truncated event-edge record (opaque identity length)" -/
  | opaqueLength
  /-- "truncated event-edge record (opaque identity)" -/
  | opaqueIdentity
  /-- "malformed event-edge record: invalid utf8 in opaque identity" -/
  | invalidUtf8
  /-- "malformed event-edge record: unknown identity tag …" -/
  | unknownTag (tag : UInt8)
  /-- "truncated event-edge record (edge count)" -/
  | edgeCount
  /-- "truncated event-edge record (is_state)" -/
  | isState
  /-- "truncated event-edge record (child count)" -/
  | childCount
  /-- "malformed event-edge record: unknown backward-edge format version …" -/
  | backwardVersion (version : UInt8)
  /-- "malformed event-edge record: unknown forward-edge format version …" -/
  | forwardVersion (version : UInt8)
  deriving DecidableEq

/-- The bytes of a text. -/
def utf8 (s : String) : List UInt8 := s.toUTF8.data.toList

/-- `IDENTITY_TAG_HASH_STANDARD` and `IDENTITY_TAG_HASH_URL_SAFE`. -/
def Alphabet.tag : Alphabet → UInt8
  | .standard => 0
  | .urlSafe => 1

/-- `IDENTITY_TAG_OPAQUE`. -/
def opaqueTag : UInt8 := 2

/-- `identity.strip_prefix('$').unwrap_or(identity)`. -/
def withoutSigil : List Char → List Char
  | '$' :: rest => rest
  | text => text

/-- The 32 bytes a text stands for in one alphabet. -/
def hashIn (text : List Char) : Option (List UInt8) :=
  (base64Decode a text).filter fun hash => hash.length = 32 ∧ base64Encode a hash = text

/-- The alphabet and bytes of an id that has the base64 form. -/
def hashForm (id : String) : Option (Alphabet × List UInt8) :=
  [Alphabet.standard, Alphabet.urlSafe].findSome? fun a =>
    (hashIn a (withoutSigil id.toList)).map (a, ·)

/-- `encode_identity`. -/
def encodeIdentity (id : String) : List UInt8 :=
  match hashForm id with
  | some (a, hash) => a.tag :: hash
  | none => opaqueTag :: (beBytes 2 (utf8 id).length ++ utf8 id)

/-- The id of 32 bytes, with its `$`. -/
def hashIdentity (a : Alphabet) (bytes : List UInt8) : Except Malformed (String × List UInt8) :=
  if bytes.length < 32 then .error .hashIdentity
  else .ok (String.ofList ('$' :: base64Encode a (bytes.take 32)), bytes.drop 32)

/-- The id stored as text. -/
def opaqueIdentity : List UInt8 → Except Malformed (String × List UInt8)
  | hi :: lo :: bytes =>
    let len := beValue [hi, lo]
    if bytes.length < len then .error .opaqueIdentity
    else
      match String.fromUTF8? ⟨(bytes.take len).toArray⟩ with
      | some id => .ok (id, bytes.drop len)
      | none => .error .invalidUtf8
  | _ => .error .opaqueLength

/-- `decode_identity`, with the bytes after the id. -/
def decodeIdentity : List UInt8 → Except Malformed (String × List UInt8)
  | [] => .error .identityTag
  | tag :: bytes =>
    if tag = Alphabet.standard.tag then hashIdentity .standard bytes
    else if tag = Alphabet.urlSafe.tag then hashIdentity .urlSafe bytes
    else if tag = opaqueTag then opaqueIdentity bytes
    else .error (.unknownTag tag)

/-! ### Records -/

/-- `encode_backward_edges`. -/
def encodeBackwardEdges (self : String) (edges : List (String × Bool)) : List UInt8 :=
  1 :: (encodeIdentity self ++ (beBytes 2 edges.length ++
    edges.flatMap fun x => (if x.2 then 1 else 0) :: encodeIdentity x.1))

/-- The edges of a record, by their number. -/
def decodeEdges : ℕ → List UInt8 → Except Malformed (List (String × Bool))
  | 0, _ => .ok []
  | _ + 1, [] => .error .isState
  | n + 1, flag :: bytes =>
    (decodeIdentity bytes).bind fun p => (decodeEdges n p.2).map ((p.1, flag ≠ 0) :: ·)

/-- `decode_backward_edges`. -/
def decodeBackwardEdges : List UInt8 → Except Malformed (String × List (String × Bool))
  | [] => .error .empty
  | version :: bytes =>
    if version ≠ 1 then .error (.backwardVersion version)
    else
      (decodeIdentity bytes).bind fun p =>
        match p.2 with
        | hi :: lo :: rest => (decodeEdges (beValue [hi, lo]) rest).map (p.1, ·)
        | _ => .error .edgeCount

/-- `encode_forward_edges`. -/
def encodeForwardEdges (children : List String) : List UInt8 :=
  1 :: (beBytes 4 children.length ++ children.flatMap encodeIdentity)

/-- The children of a record, by their number. -/
def decodeChildren : ℕ → List UInt8 → Except Malformed (List String)
  | 0, _ => .ok []
  | n + 1, bytes => (decodeIdentity bytes).bind fun p => (decodeChildren n p.2).map (p.1 :: ·)

/-- `decode_forward_edges`. -/
def decodeForwardEdges : List UInt8 → Except Malformed (List String)
  | [] => .error .empty
  | version :: bytes =>
    if version ≠ 1 then .error (.forwardVersion version)
    else if bytes.length < 4 then .error .childCount
    else decodeChildren (beValue (bytes.take 4)) (bytes.drop 4)

/-! ### Round trips -/

/-- The id comes back from a record: it has its `$` where the base64 form applies, and its length fits
    where it is stored as text. -/
def Reemitted (id : String) : Prop :=
  match hashForm id with
  | some _ => id.toList.head? = some '$'
  | none => (utf8 id).length < 2 ^ 16

instance (id : String) : Decidable (Reemitted id) :=
  match h : hashForm id with
  | some _ => decidable_of_iff (id.toList.head? = some '$') (by rw [Reemitted, h])
  | none => decidable_of_iff ((utf8 id).length < 2 ^ 16) (by rw [Reemitted, h])

theorem fromUTF8_utf8 (s : String) : String.fromUTF8? ⟨(utf8 s).toArray⟩ = some s := by
  simp [String.fromUTF8?, utf8, s.isValidUTF8, String.fromUTF8]

theorem hashForm_eq_some {id : String} {a : Alphabet} {hash : List UInt8}
    (h : hashForm id = some (a, hash)) :
    hash.length = 32 ∧ base64Encode a hash = withoutSigil id.toList := by
  obtain ⟨b, -, hb⟩ := exists_of_findSome?_eq_some h
  obtain ⟨bytes, hbytes, heq⟩ := Option.map_eq_some_iff.mp hb
  cases heq
  simpa [hashIn, Option.filter_eq_some_iff] using (Option.filter_eq_some_iff.mp hbytes).2

theorem cons_withoutSigil {text : List Char} (h : text.head? = some '$') :
    '$' :: withoutSigil text = text := by
  cases text with
  | nil => simp at h
  | cons c rest =>
    obtain rfl : c = '$' := by simpa using h
    rfl

theorem decodeIdentity_hash {hash : List UInt8} (h : hash.length = 32)
    (rest : List UInt8) :
    decodeIdentity (a.tag :: (hash ++ rest)) = .ok (String.ofList ('$' :: base64Encode a hash), rest) := by
  have hid : hashIdentity a (hash ++ rest) = .ok (String.ofList ('$' :: base64Encode a hash), rest) := by
    rw [hashIdentity, if_neg (by rw [length_append]; omega), take_left' h, drop_left' h]
  cases a <;> exact hid

theorem beBytes_two (n : ℕ) : ∃ hi lo, beBytes 2 n = [hi, lo] := ⟨_, _, rfl⟩

theorem map_eq_self_iff {α : Type} {f : α → α} {l : List α} : l.map f = l ↔ ∀ a ∈ l, f a = a := by
  simpa using map_inj_left (f := f) (g := id) (l := l)

/-- The id a record gives back: the base64 form always gets its `$`. -/
def reemit (id : String) : String :=
  match hashForm id with
  | some _ => String.ofList ('$' :: withoutSigil id.toList)
  | none => id

/-- The length of an id stored as text fits its two bytes. -/
def InWidth (id : String) : Prop := hashForm id = none → (utf8 id).length < 2 ^ 16

theorem reemitted_iff {id : String} : Reemitted id ↔ InWidth id ∧ reemit id = id := by
  rw [Reemitted, InWidth, reemit]
  cases hashForm id with
  | none => simp
  | some p =>
    constructor
    · intro h
      exact ⟨nofun, by rw [cons_withoutSigil h, String.ofList_toList]⟩
    · rintro ⟨-, h⟩
      rw [← h, String.toList_ofList]
      rfl

/-- An id that fits comes back in the form a record gives it, with the bytes after it. -/
theorem decodeIdentity_encodeIdentity {id : String} (h : InWidth id) (rest : List UInt8) :
    decodeIdentity (encodeIdentity id ++ rest) = .ok (reemit id, rest) := by
  rw [encodeIdentity, reemit]
  cases hp : hashForm id with
  | some p =>
    obtain ⟨a, hash⟩ := p
    obtain ⟨hlen, henc⟩ := hashForm_eq_some hp
    show decodeIdentity (a.tag :: (hash ++ rest)) = _
    rw [decodeIdentity_hash a hlen, henc]
  | none =>
    have hvalue : beValue (beBytes 2 (utf8 id).length) = (utf8 id).length :=
      beValue_beBytes 2 _ (h hp)
    obtain ⟨hi, lo, hbytes⟩ := beBytes_two (utf8 id).length
    rw [hbytes] at hvalue ⊢
    show opaqueIdentity (hi :: lo :: (utf8 id ++ rest)) = _
    rw [opaqueIdentity, hvalue, if_neg (by rw [length_append]; omega), take_left, drop_left, fromUTF8_utf8]

/-! ### Records as readers -/

/-- The bytes of a record's edges. -/
def edgeBytes (edges : List (String × Bool)) : List UInt8 :=
  edges.flatMap fun x => (if x.2 then 1 else 0) :: encodeIdentity x.1

/-- One edge of a record. -/
def edge : Reader Malformed (String × Bool) := do
  let flag ← byte .isState
  return (← decodeIdentity, flag ≠ 0)

/-- The backward record, with the bytes after it. -/
def backward : Reader Malformed (String × List (String × Bool)) := do
  let version ← byte .empty
  if version ≠ 1 then throw (.backwardVersion version)
  let self ← decodeIdentity
  let hi ← byte .edgeCount
  let lo ← byte .edgeCount
  return (self, ← many edge (beValue [hi, lo]))

/-- The forward record, with the bytes after it. -/
def forward : Reader Malformed (List String) := do
  let version ← byte .empty
  if version ≠ 1 then throw (.forwardVersion version)
  many decodeIdentity (beValue (← slice 4 .childCount))

theorem decodeEdges_eq : ∀ n bytes, decodeEdges n bytes = (many edge n bytes).map Prod.fst
  | 0, _ => rfl
  | _ + 1, [] => rfl
  | n + 1, flag :: bytes => by
    rw [many_succ_fst, decodeEdges, edge, bind_apply, byte, Except.bind, bind_apply]
    cases decodeIdentity bytes with
    | error => rfl
    | ok p => exact congrArg (Except.map _) (decodeEdges_eq n p.2)

theorem decodeChildren_eq : ∀ n bytes, decodeChildren n bytes = (many decodeIdentity n bytes).map Prod.fst
  | 0, _ => rfl
  | n + 1, bytes => by
    rw [many_succ_fst, decodeChildren]
    simp only [decodeChildren_eq n]

theorem decodeBackwardEdges_eq : ∀ bytes, decodeBackwardEdges bytes = (backward bytes).map Prod.fst
  | [] => rfl
  | version :: bytes => by
    simp only [decodeBackwardEdges, backward, bind_apply, byte, Except.bind]
    split_ifs
    · rfl
    rw [bind_apply]
    cases decodeIdentity bytes with
    | error => rfl
    | ok p =>
      obtain ⟨event, _ | ⟨hi, _ | ⟨lo, rest⟩⟩⟩ := p
      · rfl
      · rfl
      · show (decodeEdges _ _).map _ = Except.map _ ((many edge _ rest).bind _)
        rw [decodeEdges_eq]
        cases many edge (beValue [hi, lo]) rest <;> rfl

theorem decodeForwardEdges_eq : ∀ bytes, decodeForwardEdges bytes = (forward bytes).map Prod.fst
  | [] => rfl
  | version :: bytes => by
    simp only [decodeForwardEdges, forward, bind_apply, byte, Except.bind]
    split_ifs with hversion hlen
    · rfl
    · rw [bind_apply, slice, if_pos hlen]
      rfl
    · rw [bind_apply, slice, if_neg hlen]
      exact decodeChildren_eq _ _

theorem stable_hashIdentity : Stable (hashIdentity a) := by
  intro bytes _ _ h more
  rw [hashIdentity] at h ⊢
  split_ifs at h with hlen
  cases h
  rw [if_neg (by rw [length_append]; omega), take_append_of_le_length (by omega),
    drop_append_of_le_length (by omega)]

theorem stable_opaqueIdentity : Stable opaqueIdentity := by
  rintro (_ | ⟨hi, _ | ⟨lo, bytes⟩⟩) id rest h more
  · cases h
  · cases h
  · simp only [cons_append, opaqueIdentity] at h ⊢
    split_ifs at h with hlen
    rw [if_neg (by rw [length_append]; omega), take_append_of_le_length (by omega),
      drop_append_of_le_length (by omega)]
    split at h <;> cases h
    rfl

theorem stable_decodeIdentity : Stable decodeIdentity := by
  intro bytes id rest h more
  match bytes with
  | tag :: bytes =>
    rw [cons_append, decodeIdentity]
    rw [decodeIdentity] at h
    split_ifs at h ⊢
    · exact stable_hashIdentity _ h more
    · exact stable_hashIdentity _ h more
    · exact stable_opaqueIdentity h more

theorem stable_edge : Stable edge :=
  (stable_byte _).bind fun _ => stable_decodeIdentity.bind fun _ => stable_pure _

theorem stable_backward : Stable backward := by
  refine (stable_byte _).bind fun version => ?_
  split_ifs
  · exact stable_throw _
  · exact stable_decodeIdentity.bind fun _ => (stable_byte _).bind fun _ => (stable_byte _).bind
      fun _ => (stable_edge.many _).bind fun _ => stable_pure _

theorem stable_forward : Stable forward := by
  refine (stable_byte _).bind fun version => ?_
  split_ifs
  · exact stable_throw _
  · exact (stable_slice _ _).bind fun _ => stable_decodeIdentity.many _

theorem edge_encode {x : String × Bool} (h : InWidth x.1) (rest : List UInt8) :
    edge ((if x.2 then 1 else 0) :: encodeIdentity x.1 ++ rest) = .ok (Prod.map reemit id x, rest) := by
  rw [cons_append, edge, bind_apply, byte, Except.bind, bind_apply, decodeIdentity_encodeIdentity h]
  obtain ⟨prev, _ | _⟩ := x <;> rfl

/-- A backward record gives back its event and as many of its edges as the count of two bytes says. -/
theorem backward_encode {self : String} {edges : List (String × Bool)} (hself : InWidth self)
    (hedges : ∀ x ∈ edges.take (edges.length % 2 ^ 16), InWidth x.1) :
    backward (encodeBackwardEdges self edges) =
      .ok ((reemit self, (edges.take (edges.length % 2 ^ 16)).map (Prod.map reemit id)),
        edgeBytes (edges.drop (edges.length % 2 ^ 16))) := by
  have hvalue : beValue (beBytes 2 edges.length) = (edges.take (edges.length % 2 ^ 16)).length := by
    rw [length_take, min_eq_left (Nat.mod_le _ _)]
    exact beValue_beBytes_mod 2 edges.length
  have hmany := many_flatMap (fun x hx => edge_encode (hedges x hx))
    (edgeBytes (edges.drop (edges.length % 2 ^ 16)))
  rw [edgeBytes, ← flatMap_append, take_append_drop] at hmany
  obtain ⟨hi, lo, hbytes⟩ := beBytes_two edges.length
  rw [← hvalue, hbytes] at hmany
  rw [encodeBackwardEdges, hbytes]
  exact bind_eq_ok.mpr ⟨_, decodeIdentity_encodeIdentity hself _, bind_eq_ok.mpr ⟨_, hmany, rfl⟩⟩

theorem map_reemit_iff {edges : List (String × Bool)} (h : ∀ x ∈ edges, InWidth x.1) :
    edges.map (Prod.map reemit id) = edges ↔ ∀ x ∈ edges, Reemitted x.1 := by
  rw [map_eq_self_iff]
  refine forall₂_congr fun x hx => ?_
  rw [reemitted_iff, and_iff_right (h x hx)]
  simp [Prod.ext_iff]

theorem decodeBackwardEdges_encode {self : String} {edges : List (String × Bool)}
    (hself : Reemitted self) (hedges : ∀ x ∈ edges.take (edges.length % 2 ^ 16), Reemitted x.1) :
    decodeBackwardEdges (encodeBackwardEdges self edges) =
      .ok (self, edges.take (edges.length % 2 ^ 16)) := by
  have hwidth := fun x hx => (reemitted_iff.mp (hedges x hx)).1
  obtain ⟨hs, hself⟩ := reemitted_iff.mp hself
  rw [decodeBackwardEdges_eq, backward_encode hs hwidth, Except.map, hself,
    (map_reemit_iff hwidth).mpr hedges]

/-- A forward record gives back its children while their number fits four bytes. -/
theorem forward_encode {children : List String} (h : ∀ c ∈ children, InWidth c)
    (hlen : children.length < 2 ^ 32) :
    forward (encodeForwardEdges children) = .ok (children.map reemit, []) := by
  have hmany := many_flatMap (fun c hc => decodeIdentity_encodeIdentity (h c hc)) []
  rw [append_nil, ← beValue_beBytes 4 _ hlen] at hmany
  have hcount := slice_append (length_beBytes 4 children.length) Malformed.childCount
    (children.flatMap encodeIdentity)
  rw [encodeForwardEdges, forward, bind_apply]
  show (slice 4 .childCount >>= fun count => many decodeIdentity (beValue count) :
    Reader Malformed (List String)) _ = _
  rw [bind_apply, hcount]
  exact hmany

theorem decodeForwardEdges_encode {children : List String} (h : ∀ c ∈ children, Reemitted c)
    (hlen : children.length < 2 ^ 32) :
    decodeForwardEdges (encodeForwardEdges children) = .ok children := by
  rw [decodeForwardEdges_eq, forward_encode (fun c hc => (reemitted_iff.mp (h c hc)).1) hlen, Except.map,
    map_congr_left fun c hc => (reemitted_iff.mp (h c hc)).2, map_id']

/-- Such an id: the base64 text of 32 zero bytes. -/
def bareId : String := "AAAAAAAAAAAAAAAAAAAAAAAAAAAAAAAAAAAAAAAAAAA"

/-- The counts of a record and the lengths of its ids fit their fields. -/
structure Sized (event : String) (edges : List (String × Bool)) (children : List String) : Prop where
  edgeCount : edges.length < 2 ^ 16
  childCount : children.length < 2 ^ 32
  ids : ∀ id ∈ event :: (edges.map Prod.fst ++ children), (utf8 id).length < 2 ^ 16

variable {event : String} {edges : List (String × Bool)} {children : List String}

theorem Sized.backward (h : Sized event edges children) : backward (encodeBackwardEdges event edges) =
      .ok ((reemit event, edges.map (Prod.map reemit id)), []) := by
  have hall : edges.length % 2 ^ 16 = edges.length := Nat.mod_eq_of_lt h.edgeCount
  have hevent : InWidth event := fun _ => h.ids _ (by simp)
  have hedges : ∀ x ∈ edges.take (edges.length % 2 ^ 16), InWidth x.1 := fun x hx _ =>
    h.ids _ (by simp [mem_map_of_mem (mem_of_mem_take hx)])
  rw [backward_encode hevent hedges, hall, take_length, drop_length]
  rfl

theorem Sized.forward (h : Sized event edges children) :
    forward (encodeForwardEdges children) = .ok (children.map reemit, []) :=
  forward_encode (fun c hc _ => h.ids c (by simp [hc])) h.childCount

/-- Records come back exactly when no id in them has the base64 form without its `$`. -/
theorem record_round_trip_iff (h : Sized event edges children) :
    (decodeBackwardEdges (encodeBackwardEdges event edges) = .ok (event, edges) ↔
      Reemitted event ∧ ∀ x ∈ edges, Reemitted x.1) ∧
    (decodeForwardEdges (encodeForwardEdges children) = .ok children ↔ ∀ c ∈ children, Reemitted c) := by
  have hevent : InWidth event := fun _ => h.ids _ (by simp)
  have hedges : ∀ x ∈ edges, InWidth x.1 := fun x hx _ => h.ids _ (by simp [mem_map_of_mem hx])
  have hchildren : ∀ c ∈ children, InWidth c := fun c hc _ => h.ids c (by simp [hc])
  constructor
  · rw [decodeBackwardEdges_eq, h.backward, Except.map, Except.ok.injEq, Prod.mk.injEq,
      map_reemit_iff hedges, reemitted_iff, and_iff_right hevent]
  · rw [decodeForwardEdges_eq, h.forward, Except.map, Except.ok.injEq, map_eq_self_iff]
    refine forall₂_congr fun c hc => ?_
    rw [reemitted_iff, and_iff_right (hchildren c hc)]

theorem record_round_trip_plain :
    decodeBackwardEdges (encodeBackwardEdges "$e" [("$p", false)]) = .ok ("$e", [("$p", false)]) ∧
      decodeForwardEdges (encodeForwardEdges ["$c"]) = .ok ["$c"] := by
  have h := record_round_trip_iff (⟨by decide, by decide, by decide +kernel⟩ :
    Sized "$e" [("$p", false)] ["$c"])
  exact ⟨h.1.mpr (by decide +kernel), h.2.mpr (by decide +kernel)⟩

/-- An id without its `$` comes back with one. -/
theorem bare_id_changes : Sized "$e" [(bareId, false)] [bareId] ∧
    decodeBackwardEdges (encodeBackwardEdges "$e" [(bareId, false)]) = .ok ("$e", [("$" ++ bareId, false)]) ∧
    decodeForwardEdges (encodeForwardEdges [bareId]) = .ok ["$" ++ bareId] ∧ "$" ++ bareId ≠ bareId :=
  ⟨⟨by decide, by decide, by decide +kernel⟩, by decide +kernel, by decide +kernel, by decide⟩

/-- No strict prefix of a record is accepted, and what is read of any bytes is the same whatever bytes
    come after them. -/
theorem truncated_records_refused (h : Sized event edges children) :
    (∀ bytes cut, cut ≠ [] →
      (bytes ++ cut = encodeBackwardEdges event edges → ∃ e, decodeBackwardEdges bytes = .error e) ∧
      (bytes ++ cut = encodeForwardEdges children → ∃ e, decodeForwardEdges bytes = .error e)) ∧
    ∀ bytes more,
      (∀ r, decodeBackwardEdges bytes = .ok r → decodeBackwardEdges (bytes ++ more) = .ok r) ∧
      ∀ l, decodeForwardEdges bytes = .ok l → decodeForwardEdges (bytes ++ more) = .ok l := by
  simp only [decodeBackwardEdges_eq, decodeForwardEdges_eq]
  refine ⟨fun bytes cut hcut => ⟨?_, ?_⟩, fun bytes more => ⟨?_, ?_⟩⟩
  · exact fun heq => stable_backward.refuses (heq ▸ h.backward) hcut
  · exact fun heq => stable_forward.refuses (heq ▸ h.forward) hcut
  · exact fun r hr => stable_backward.append hr more
  · exact fun l hl => stable_forward.append hl more

theorem truncated_records_refused_plain :
    ∃ e, decodeBackwardEdges (encodeBackwardEdges "$e" [("$p", false)]).dropLast = .error e :=
  ((truncated_records_refused (⟨by decide, by decide, by decide +kernel⟩ :
    Sized "$e" [("$p", false)] [])).1 _ [112] (by decide)).1 (by decide +kernel)

end Sithnapse.EdgeStore
