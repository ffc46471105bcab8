import Mathlib.Tactic

/-! Fixed-width big-endian numbers. -/

namespace Kit

/-- The `w` low-order bytes of a number, most significant first. -/
def beBytes : ℕ → ℕ → List UInt8
  | 0, _ => []
  | w + 1, n => beBytes w (n / 256) ++ [UInt8.ofNat (n % 256)]

/-- The number a byte string denotes, most significant byte first. -/
def beValue (l : List UInt8) : ℕ := l.foldl (fun a b => a * 256 + b.toNat) 0

@[simp] theorem length_beBytes : ∀ w n, (beBytes w n).length = w
  | 0, _ => rfl
  | w + 1, n => by rw [beBytes, List.length_append, length_beBytes w, List.length_singleton]

theorem beValue_concat (l : List UInt8) (b : UInt8) : beValue (l ++ [b]) = beValue l * 256 + b.toNat := by
  rw [beValue, List.foldl_append]
  rfl

theorem beValue_beBytes : ∀ w n, n < 256 ^ w → beValue (beBytes w n) = n
  | 0, n, h => by
    have : n = 0 := by simpa using h
    rw [this]
    rfl
  | w + 1, n, h => by
    have hdiv : n / 256 < 256 ^ w := Nat.div_lt_of_lt_mul (by rwa [pow_succ, mul_comm] at h)
    have hbyte : (UInt8.ofNat (n % 256)).toNat = n % 256 :=
      UInt8.toNat_ofNat_of_lt (Nat.mod_lt n (by decide))
    rw [beBytes, beValue_concat, beValue_beBytes w _ hdiv, hbyte]
    omega

/-- The width keeps the low-order part. -/
theorem beBytes_mod : ∀ w n, beBytes w (n % 256 ^ w) = beBytes w n
  | 0, _ => rfl
  | w + 1, n => by
    have hdiv : n % 256 ^ (w + 1) / 256 = n / 256 % 256 ^ w := by
      rw [pow_succ, mul_comm, Nat.mod_mul_right_div_self]
    have hlow : n % 256 ^ (w + 1) % 256 = n % 256 :=
      Nat.mod_mod_of_dvd n (dvd_pow_self 256 (Nat.succ_ne_zero w))
    rw [beBytes, beBytes, hdiv, hlow, beBytes_mod w (n / 256)]

theorem beValue_beBytes_mod (w n : ℕ) : beValue (beBytes w n) = n % 256 ^ w := by
  rw [← beBytes_mod]
  exact beValue_beBytes w _ (Nat.mod_lt n (by positivity))

end Kit
