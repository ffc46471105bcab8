import Sithnapse.Kit.Alike

/-! Decoders that read from the front.

    A reader hands on the bytes after those it has read. If what it reads never depends on them, no
    strict prefix of an encoding it reads to the end is accepted. -/

namespace Kit
open List

/-- A decoder that leaves the bytes after those it has read. -/
abbrev Reader (ε α : Type) := StateT (List UInt8) (Except ε) α

namespace Reader

variable {ε α β : Type}

/-- One byte. -/
def byte (e : ε) : Reader ε UInt8
  | [] => .error e
  | b :: bytes => .ok (b, bytes)

/-- The next `n` bytes. -/
def slice (n : ℕ) (e : ε) : Reader ε (List UInt8) := fun bytes =>
  if bytes.length < n then .error e else .ok (bytes.take n, bytes.drop n)

/-- The next `n` items. -/
def many (item : Reader ε α) : ℕ → Reader ε (List α)
  | 0 => pure []
  | n + 1 => do return (← item) :: (← many item n)

theorem bind_apply (p : Reader ε α) (f : α → Reader ε β) (bytes : List UInt8) :
    (p >>= f) bytes = (p bytes).bind fun r => f r.1 r.2 := rfl

theorem many_succ_fst (item : Reader ε α) (n : ℕ) (bytes : List UInt8) :
    (many item (n + 1) bytes).map Prod.fst =
      (item bytes).bind fun p => ((many item n p.2).map Prod.fst).map (p.1 :: ·) := by
  rw [many, bind_apply]
  cases item bytes with
  | error => rfl
  | ok p =>
    show Except.map _ ((many item n p.2).bind _) = ((many item n p.2).map _).map _
    cases many item n p.2 <;> rfl

theorem slice_append {n : ℕ} {l : List UInt8} (h : l.length = n) (e : ε) (rest : List UInt8) :
    slice n e (l ++ rest) = .ok (l, rest) := by
  rw [slice, if_neg (by rw [length_append]; omega), take_left' h, drop_left' h]

/-- Encoded items are read back, each as what its encoding stands for. -/
theorem many_flatMap {item : Reader ε α} {encode : β → List UInt8} {f : β → α} : ∀ {l : List β},
    (∀ x ∈ l, ∀ rest, item (encode x ++ rest) = .ok (f x, rest)) →
    ∀ rest, many item l.length (l.flatMap encode ++ rest) = .ok (l.map f, rest)
  | [], _, _ => rfl
  | x :: l, h, rest => by
    have htail := many_flatMap (fun y hy => h y (.tail _ hy)) rest
    rw [flatMap_cons, append_assoc]
    exact bind_eq_ok.mpr ⟨_, h x (.head _) _, bind_eq_ok.mpr ⟨_, htail, rfl⟩⟩

/-! ### Prefixes -/

/-- What is read does not depend on the bytes after it. -/
def Stable (p : Reader ε α) : Prop :=
  ∀ ⦃bytes a rest⦄, p bytes = .ok (a, rest) → ∀ more, p (bytes ++ more) = .ok (a, rest ++ more)

theorem Stable.bind {p : Reader ε α} {f : α → Reader ε β} (hp : Stable p) (hf : ∀ a, Stable (f a)) :
    Stable (p >>= f) := by
  intro bytes b rest h more
  obtain ⟨⟨a, mid⟩, ha, hb⟩ := bind_eq_ok.mp h
  exact bind_eq_ok.mpr ⟨_, hp ha more, hf a hb more⟩

theorem stable_pure (a : α) : Stable (pure a : Reader ε α) := by
  intro bytes _ _ h more
  cases h
  rfl

theorem stable_throw (e : ε) : Stable (throw e : Reader ε α) := nofun

theorem stable_byte (e : ε) : Stable (byte e) := by
  rintro (_ | ⟨b, bytes⟩) _ _ h more <;> cases h
  rfl

theorem stable_slice (n : ℕ) (e : ε) : Stable (slice n e) := by
  intro bytes _ _ h more
  rw [slice] at h
  split_ifs at h with hlen
  cases h
  rw [slice, if_neg (by rw [length_append]; omega), take_append_of_le_length (by omega),
    drop_append_of_le_length (by omega)]

theorem Stable.many {item : Reader ε α} (h : Stable item) : ∀ n, Stable (many item n)
  | 0 => stable_pure []
  | n + 1 => h.bind fun _ => (Stable.many h n).bind fun _ => stable_pure _

/-- No strict prefix of bytes that are read to their end is accepted. -/
theorem Stable.refuses {p : Reader ε α} (hp : Stable p) {bytes cut : List UInt8} {a : α}
    (h : p (bytes ++ cut) = .ok (a, [])) (hcut : cut ≠ []) :
    ∃ e, (p bytes).map Prod.fst = .error e := by
  cases hr : p bytes with
  | error e => exact ⟨e, rfl⟩
  | ok r =>
    have hmore := (hp hr cut).symm.trans h
    exact absurd (append_eq_nil_iff.mp (congrArg Prod.snd (Except.ok.inj hmore))).2 hcut

theorem Stable.append {p : Reader ε α} (hp : Stable p) {bytes : List UInt8} {a : α}
    (h : (p bytes).map Prod.fst = .ok a) (more : List UInt8) :
    (p (bytes ++ more)).map Prod.fst = .ok a := by
  obtain ⟨⟨a, rest⟩, hr, rfl⟩ := map_eq_ok.mp h
  exact map_eq_ok.mpr ⟨_, hp hr more, rfl⟩

end Reader

end Kit
