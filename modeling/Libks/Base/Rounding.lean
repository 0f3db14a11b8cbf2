import Mathlib.Algebra.Ring.Nat
import Mathlib.Data.Nat.Log
import Mathlib.Tactic.Common
import Mathlib.Tactic.Ring

/-!
# Rounding to a number of bits

A binary floating-point number that is not negative is a natural number, when it is counted
in units of the smallest one there is. Not every natural number is one: behind the `p`
leading bits there are only zeros (`Short`). The fraction `a / b` is rounded to the nearest
of them (`roundTo`), and what is one of them already is left as it is (`roundTo_eq`).

In single precision there are 24 bits, and the unit is `2 ^ -149`; `quotSingle` is the
quotient there of two numbers that are themselves rounded first. It is less than a half if
and only if the fraction is, as long as its terms are not too large for their 24 bits
(`quotSingle_lt_half_iff`).
-/

namespace Base

/-- Nothing but zeros behind the `p` leading bits. -/
def Short (p n : ℕ) : Prop := 2 ^ (n.log2 - (p - 1)) ∣ n

instance (p n : ℕ) : Decidable (Short p n) := Nat.decidable_dvd _ _

/-- The number nearest to the fraction `a / b`; the even one of two. -/
def nearest (a b : ℕ) : ℕ :=
  if b < 2 * (a % b) ∨ (2 * (a % b) = b ∧ a / b % 2 = 1) then a / b + 1 else a / b

/-- The nearest multiple of `2 ^ k` to the fraction `a / b`, with `k` as small as that leaves
    `p` bits; the even one of two. -/
def roundTo (p a b : ℕ) : ℕ :=
  let unit := 2 ^ ((a / b).log2 - (p - 1))
  nearest a (b * unit) * unit

variable {a b k n p : ℕ}

theorem log2_lt_of_lt (h : n < 2 ^ k) (hk : 0 < k) : n.log2 < k := by
  by_cases h0 : n = 0
  · rwa [h0]
  · exact (Nat.log2_lt h0).2 h

/-! ## The nearest number -/

theorem nearest_mul (hb : 0 < b) (n : ℕ) : nearest (n * b) b = n := by
  rw [nearest, Nat.mul_mod_left, Nat.mul_div_cancel _ hb, if_neg (by omega)]

theorem nearest_mul_le (a b : ℕ) : 2 * (nearest a b * b) ≤ 2 * a + b := by
  have hmod := Nat.div_add_mod' a b
  rw [nearest]
  split_ifs
  · rw [Nat.add_mul, Nat.one_mul]
    omega
  · omega

theorem div_le_nearest (a b : ℕ) : a / b ≤ nearest a b := by
  rw [nearest]
  split_ifs
  · exact Nat.le_succ _
  · exact Nat.le_refl _

theorem nearest_le_div (a b : ℕ) : nearest a b ≤ a / b + 1 := by
  rw [nearest]
  split_ifs
  · exact Nat.le_refl _
  · exact Nat.le_succ _

/-- A fraction that is no more than a number is rounded to no more than it. -/
theorem nearest_le (hb : 0 < b) (h : a ≤ n * b) : nearest a b ≤ n := by
  have hle := nearest_mul_le a b
  by_contra hlt
  have hmul : (n + 1) * b ≤ nearest a b * b := Nat.mul_le_mul_right b (by omega)
  rw [Nat.add_mul, Nat.one_mul] at hmul
  omega

/-! ## Short numbers -/

/-- Short numbers are not changed. -/
theorem roundTo_eq (hb : 0 < b) (h : Short p n) : roundTo p (n * b) b = n := by
  obtain ⟨c, hc⟩ := h
  rw [roundTo, Nat.mul_div_cancel _ hb]
  have hunit := Nat.two_pow_pos (n.log2 - (p - 1))
  generalize 2 ^ (n.log2 - (p - 1)) = unit at hc hunit
  have hmul : n * b = c * (b * unit) := by rw [hc]; ring
  rw [hmul, nearest_mul (Nat.mul_pos hb hunit), hc, Nat.mul_comm]

/-- The quotient by the unit has no more than `p` bits. -/
theorem quot_lt (hp : 0 < p) : a / (b * 2 ^ ((a / b).log2 - (p - 1))) < 2 ^ p := by
  rw [← Nat.div_div_eq_div_mul, Nat.div_lt_iff_lt_mul (Nat.two_pow_pos _), ← Nat.pow_add]
  refine Nat.lt_of_lt_of_le (Nat.lt_log2_self (n := a / b)) ?_
  exact Nat.pow_le_pow_right (by decide) (by omega)

/-- A number of at most `p` bits times a unit is short, and so is the next power of two. -/
theorem short_mul (hp : 0 < p) (h : n ≤ 2 ^ p) : Short p (n * 2 ^ k) := by
  rcases Nat.eq_zero_or_pos n with rfl | hn
  · simp [Short]
  rcases Nat.lt_or_eq_of_le h with hlt | rfl
  · have hlog : (n * 2 ^ k).log2 < p + k := by
      refine log2_lt_of_lt ?_ (by omega)
      rw [Nat.pow_add]
      exact Nat.mul_lt_mul_of_pos_right hlt (Nat.two_pow_pos k)
    exact Nat.dvd_trans (Nat.pow_dvd_pow 2 (by omega)) (Nat.dvd_mul_left _ _)
  · rw [Short, ← Nat.pow_add, Nat.log2_two_pow]
    exact Nat.pow_dvd_pow 2 (Nat.sub_le _ _)

/-- What is rounded is short. -/
theorem short_roundTo (hp : 0 < p) (a b : ℕ) : Short p (roundTo p a b) :=
  short_mul hp (Nat.le_trans (nearest_le_div _ _) (quot_lt hp))

/-- A short number that is no multiple of a power of two is not far beyond it. -/
theorem Short.lt_of_not_dvd (h : Short p n) (hdvd : ¬2 ^ k ∣ n) : n < 2 ^ k * 2 ^ (p - 1) := by
  by_contra hle
  rw [← Nat.pow_add] at hle
  have hne : n ≠ 0 := fun h0 => hdvd (h0 ▸ Nat.dvd_zero _)
  have hlog : k + (p - 1) ≤ n.log2 := (Nat.le_log2 hne).2 (Nat.not_lt.1 hle)
  exact hdvd (Nat.dvd_trans (Nat.pow_dvd_pow 2 (Nat.le_sub_of_add_le hlog)) h)

/-- What is at least a power of two stays so. -/
theorem le_roundTo (hb : 0 < b) (hk : p - 1 ≤ k) (h : 2 ^ k * b ≤ a) : 2 ^ k ≤ roundTo p a b := by
  have hdiv : 2 ^ k ≤ a / b := (Nat.le_div_iff_mul_le hb).2 h
  have hne : a / b ≠ 0 := Nat.ne_of_gt (Nat.lt_of_lt_of_le (Nat.two_pow_pos k) hdiv)
  have hlog : k ≤ (a / b).log2 := (Nat.le_log2 hne).2 hdiv
  have hself : 2 ^ (a / b).log2 ≤ a / b := Nat.log2_self_le hne
  -- The quotient by the unit keeps the leading bit.
  have hq : 2 ^ (p - 1) ≤ a / (b * 2 ^ ((a / b).log2 - (p - 1))) := by
    rw [← Nat.div_div_eq_div_mul, Nat.le_div_iff_mul_le (Nat.two_pow_pos _), ← Nat.pow_add]
    rwa [Nat.add_sub_of_le (by omega)]
  calc 2 ^ k ≤ 2 ^ (a / b).log2 := Nat.pow_le_pow_right (by decide) hlog
    _ = 2 ^ (p - 1) * 2 ^ ((a / b).log2 - (p - 1)) := by
      rw [← Nat.pow_add, Nat.add_sub_of_le (by omega)]
    _ ≤ _ := Nat.mul_le_mul_right _ (Nat.le_trans hq (div_le_nearest _ _))

/-- Rounding adds at most half a unit. -/
theorem roundTo_mul_le (p a b : ℕ) :
    2 * (roundTo p a b * b) ≤ 2 * a + b * 2 ^ ((a / b).log2 - (p - 1)) := by
  have h := nearest_mul_le a (b * 2 ^ ((a / b).log2 - (p - 1)))
  rw [roundTo]
  generalize nearest a _ = n at h ⊢
  rwa [Nat.mul_assoc, Nat.mul_comm _ b]

/-- A fraction below `2 ^ k` is rounded to a number below it, unless it is too close. -/
theorem roundTo_lt (hp : 0 < p) (hk : p ≤ k)
    (h : 2 ^ (p + 1) * a < 2 ^ k * b * (2 ^ (p + 1) - 1)) : roundTo p a b < 2 ^ k := by
  have hb : 0 < b := Nat.pos_of_ne_zero fun h0 => by simp [h0] at h
  have hpow : 0 < 2 ^ (p + 1) := Nat.two_pow_pos _
  have hlt : a / b < 2 ^ k := by
    rw [Nat.div_lt_iff_lt_mul hb]
    refine Nat.lt_of_mul_lt_mul_left (a := 2 ^ (p + 1)) (Nat.lt_of_lt_of_le h ?_)
    rw [Nat.mul_comm]
    exact Nat.mul_le_mul_right _ (Nat.sub_le _ _)
  have hlog : (a / b).log2 - (p - 1) ≤ k - p := by
    have := log2_lt_of_lt hlt (by omega)
    omega
  have hunit : b * 2 ^ ((a / b).log2 - (p - 1)) ≤ b * 2 ^ (k - p) :=
    Nat.mul_le_mul_left _ (Nat.pow_le_pow_right (by decide) hlog)
  have hround := roundTo_mul_le p a b
  have hsplit : 2 ^ k * b = 2 ^ p * (b * 2 ^ (k - p)) := by
    rw [Nat.mul_left_comm, ← Nat.pow_add, Nat.add_sub_of_le hk, Nat.mul_comm]
  refine Nat.lt_of_mul_lt_mul_right (a := b) ?_
  rw [hsplit] at h ⊢
  generalize b * 2 ^ (k - p) = u at *
  -- Twice the rounded number is at most twice the fraction and half a unit more.
  have hbound : 2 ^ (p + 1) * (2 * (roundTo p a b * b)) < 2 ^ (p + 1) * (2 * (2 ^ p * u)) := by
    calc 2 ^ (p + 1) * (2 * (roundTo p a b * b)) ≤ 2 ^ (p + 1) * (2 * a + u) :=
          Nat.mul_le_mul_left _ (Nat.le_trans hround (Nat.add_le_add_left hunit _))
      _ = 2 * (2 ^ (p + 1) * a) + 2 * (2 ^ p * u) := by ring
      _ < 2 * (2 ^ p * u * (2 ^ (p + 1) - 1)) + 2 * (2 ^ p * u) := by omega
      _ = 2 * (2 ^ p * u * (2 ^ (p + 1) - 1 + 1)) := by ring
      _ = 2 ^ (p + 1) * (2 * (2 ^ p * u)) := by rw [Nat.sub_add_cancel hpow]; ring
  exact Nat.lt_of_mul_lt_mul_left (Nat.lt_of_mul_lt_mul_left hbound)

/-! ## Single precision -/

/-- The quotient of two numbers as a `float`, in units of `2 ^ -149`. -/
def quotSingle (a b : ℕ) : ℕ := roundTo 24 (roundTo 24 a 1 * 2 ^ 149) (roundTo 24 b 1)

theorem roundTo_one (hp : 0 < p) (ha : a ≤ 2 ^ p) : roundTo p a 1 = a := by
  have hshort := short_mul (k := 0) hp ha
  rw [Nat.pow_zero, Nat.mul_one] at hshort
  have h := roundTo_eq Nat.one_pos hshort
  rwa [Nat.mul_one] at h

/-- The quotient of two numbers of 24 bits is less than a half if and only if the fraction
    is. -/
theorem quotSingle_lt_half_iff (ha : a ≤ 2 ^ 24) (hb : b ≤ 2 ^ 24) (hpos : 0 < b) :
    quotSingle a b < 2 ^ 148 ↔ 2 * a < b := by
  rw [quotSingle, roundTo_one (by decide) ha, roundTo_one (by decide) hb]
  constructor
  · intro h
    by_contra hle
    have hge : 2 ^ 148 * b ≤ a * 2 ^ 149 := by omega
    exact absurd h (Nat.not_lt.2 (le_roundTo hpos (by decide) hge))
  · intro h
    refine roundTo_lt (by decide) (by decide) ?_
    omega

end Base
