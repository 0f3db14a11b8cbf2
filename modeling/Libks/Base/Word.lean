import Mathlib.Data.List.Basic
import Mathlib.Tactic.Common
import Mathlib.Tactic.Ring

/-!
# Machine integers

What a C compiler for a 64-bit little-endian machine does to integers: the
conversions that wrap (`toInt32`, `toInt64`), the bytes of a word in memory
(`leBytes`, `ofLe`), and the byte swap (`bswap`) that turns host order into
network order (`leBytes_bswap`, `bswap_ofLe`).
-/

namespace Base

/-- The conversion to `int`: the representative modulo `2 ^ 32` in `[-2 ^ 31, 2 ^ 31)`. -/
def toInt32 (n : ℤ) : ℤ := n.bmod (2 ^ 32)

/-- The product of two `int`s. One that does not fit is undefined in C; the code that a
    compiler makes of it wraps. -/
def mulInt32 (x y : ℤ) : ℤ := toInt32 (x * y)

/-- The number is an `int`. -/
def IsInt32 (n : ℤ) : Prop := -2 ^ 31 ≤ n ∧ n < 2 ^ 31

/-- The conversion to a signed 64-bit integer. -/
def toInt64 (n : ℤ) : ℤ := n.bmod (2 ^ 64)

/-- The conversion to an unsigned 64-bit integer. -/
def toUInt64 (n : ℤ) : ℕ := (n % 2 ^ 64).toNat

/-- The sum of two `size_t`. -/
@[irreducible] def add64 (a b : ℕ) : ℕ := (a + b) % 2 ^ 64

/-- The product of two `size_t`. -/
@[irreducible] def mul64 (a b : ℕ) : ℕ := (a * b) % 2 ^ 64

/-- The difference of two `size_t`. -/
@[irreducible] def sub64 (a b : ℕ) : ℕ := (a + 2 ^ 64 - b) % 2 ^ 64

/-- The sum of two `uint32_t`. -/
@[irreducible] def add32 (a b : ℕ) : ℕ := (a + b) % 2 ^ 32

/-- The difference of two `uint32_t`. -/
@[irreducible] def sub32 (a b : ℕ) : ℕ := (a + 2 ^ 32 - b) % 2 ^ 32

/-- The conversion to a `uint32_t`. -/
@[irreducible] def ofInt32 (n : ℤ) : ℕ := (n % 2 ^ 32).toNat

/-- A number as a `uint32_t`. -/
@[irreducible] def toUInt32 (n : ℕ) : ℕ := n % 2 ^ 32

/-- A `uint32_t` counted up. -/
@[irreducible] def incr32 (n : ℕ) : ℕ := (n + 1) % 2 ^ 32

/-- A `uint32_t` counted down. -/
@[irreducible] def decr32 (n : ℕ) : ℕ := if n = 0 then 0xFFFFFFFF else n - 1

@[simp] theorem toUInt32_zero : toUInt32 0 = 0 := by
  rw [toUInt32, Nat.zero_mod]

/-- A counter that wraps counts up modulo `2 ^ 32`. -/
theorem incr32_toUInt32 (n : ℕ) : incr32 (toUInt32 n) = toUInt32 (n + 1) := by
  rw [incr32, toUInt32, toUInt32, Nat.mod_add_mod]

/-- A counter that wraps counts down modulo `2 ^ 32`. -/
theorem decr32_toUInt32 (n : ℕ) : decr32 (toUInt32 (n + 1)) = toUInt32 n := by
  unfold decr32 toUInt32
  split_ifs <;> omega

theorem toUInt32_le (n : ℕ) : toUInt32 n ≤ n := by
  rw [toUInt32]
  exact Nat.mod_le ..

/-- The difference of two counters, of which both may have wrapped. -/
theorem sub32_toUInt32 {a b : ℕ} (h : b ≤ a) :
    sub32 (toUInt32 a) (toUInt32 b) = toUInt32 (a - b) := by
  rw [sub32, toUInt32, toUInt32, toUInt32]
  omega

theorem add64_lt (a b : ℕ) : add64 a b < 2 ^ 64 := by
  rw [add64]
  exact Nat.mod_lt _ (by decide)

/-- A sum that does not wrap. -/
theorem add64_of_lt {a b : ℕ} (h : a + b < 2 ^ 64) : add64 a b = a + b := by
  rw [add64, Nat.mod_eq_of_lt h]

/-- A difference that does not wrap. -/
theorem sub64_of_le {a b : ℕ} (h : b ≤ a) (ha : a < 2 ^ 64) : sub64 a b = a - b := by
  rw [sub64, show a + 2 ^ 64 - b = a - b + 2 ^ 64 by omega, Nat.add_mod_right,
    Nat.mod_eq_of_lt (by omega)]

theorem add32_of_lt {a b : ℕ} (h : a + b < 2 ^ 32) : add32 a b = a + b := by
  rw [add32, Nat.mod_eq_of_lt h]

theorem sub32_of_le {a b : ℕ} (h : b ≤ a) (ha : a < 2 ^ 32) : sub32 a b = a - b := by
  rw [sub32, show a + 2 ^ 32 - b = a - b + 2 ^ 32 by omega, Nat.add_mod_right,
    Nat.mod_eq_of_lt (by omega)]

theorem incr32_of_lt {n : ℕ} (h : n + 1 < 2 ^ 32) : incr32 n = n + 1 := by
  rw [incr32, Nat.mod_eq_of_lt h]

theorem decr32_of_pos {n : ℕ} (h : 0 < n) : decr32 n = n - 1 := by
  rw [decr32, if_neg (Nat.ne_of_gt h)]

/-- What is an `int` is converted to itself. -/
theorem toInt32_eq {n : ℤ} (h : IsInt32 n) : toInt32 n = n := by
  obtain ⟨hlo, hhi⟩ := h
  rw [toInt32, Int.bmod_def]
  split_ifs <;> omega

theorem toInt32_of_lt {n : ℕ} (h : n < 2 ^ 31) : toInt32 n = n :=
  toInt32_eq ⟨by omega, by omega⟩

/-- A product that does not overflow. -/
theorem mulInt32_eq {x y : ℤ} (h : IsInt32 (x * y)) : mulInt32 x y = x * y := toInt32_eq h

theorem toInt64_of_lt {n : ℕ} (h : n < 2 ^ 63) : toInt64 n = n := by
  rw [toInt64, Int.bmod_def]
  omega

/-- The upper half of the range comes out negative. -/
theorem toInt64_neg_of_le {n : ℕ} (h : 2 ^ 63 ≤ n) (h' : n < 2 ^ 64) : toInt64 n = n - 2 ^ 64 := by
  rw [toInt64, Int.bmod_def]
  omega

/-- A conversion to 64 bits stays below `2 ^ 63`. -/
theorem toInt64_lt (n : ℤ) : toInt64 n < 2 ^ 63 := by
  rw [toInt64, Int.bmod_def]
  omega

/-- A conversion to 64 bits gives no less than `-2 ^ 63`. -/
theorem le_toInt64 (n : ℤ) : -2 ^ 63 ≤ toInt64 n := by
  rw [toInt64, Int.bmod_def]
  omega

/-! ## Words in memory -/

/-- The `k` low bytes of `n`, the least significant first. -/
def leBytes : ℕ → ℕ → List UInt8
  | 0, _ => []
  | k + 1, n => UInt8.ofNat n :: leBytes k (n / 256)

/-- The number whose bytes are given, the least significant first. -/
def ofLe : List UInt8 → ℕ
  | [] => 0
  | b :: bs => b.toNat + 256 * ofLe bs

/-- The word of `k` bytes with the bytes of `n` in the opposite order. -/
def bswap (k n : ℕ) : ℕ := ofLe (leBytes k n).reverse

/-- `ntohs`. -/
def ntohs (val : ℕ) : ℕ := bswap 2 val

/-- `htons`. -/
def htons (val : ℕ) : ℕ := bswap 2 val

@[simp] theorem length_leBytes (k n : ℕ) : (leBytes k n).length = k := by
  induction k generalizing n with
  | zero => rfl
  | succ k ih => rw [leBytes, List.length_cons, ih]

/-- A number is read back from its bytes, as far as these hold it. -/
theorem ofLe_leBytes (k n : ℕ) : ofLe (leBytes k n) = n % 256 ^ k := by
  -- The lowest byte first.
  induction k generalizing n with
  | zero => simp [leBytes, ofLe, Nat.mod_one]
  | succ k ih =>
    rw [leBytes, ofLe, ih, Nat.pow_succ, Nat.mul_comm (256 ^ k), Nat.mod_mul]
    simp

/-- Bytes are read back from the number they stand for. -/
theorem leBytes_ofLe (bs : List UInt8) : leBytes bs.length (ofLe bs) = bs := by
  induction bs with
  | nil => rfl
  | cons b bs ih =>
    have hb : b.toNat < 256 := UInt8.toNat_lt b
    rw [List.length_cons, leBytes, ofLe, Nat.add_mul_div_left _ _ (by omega),
      Nat.div_eq_of_lt hb, Nat.zero_add, ih]
    congr 1
    apply UInt8.toNat_inj.1
    rw [UInt8.toNat_ofNat', Nat.add_mul_mod_self_left, Nat.mod_eq_of_lt hb]

/-- `k` bytes hold numbers below `256 ^ k`. -/
theorem ofLe_lt (bs : List UInt8) : ofLe bs < 256 ^ bs.length := by
  induction bs with
  | nil => simp [ofLe]
  | cons b bs ih =>
    have hb : b.toNat < 256 := UInt8.toNat_lt b
    rw [ofLe, List.length_cons, Nat.pow_succ]
    omega

/-- A swapped word is laid out in memory with its most significant byte first. -/
theorem leBytes_bswap (k n : ℕ) : leBytes k (bswap k n) = (leBytes k n).reverse := by
  have := leBytes_ofLe (leBytes k n).reverse
  rwa [List.length_reverse, length_leBytes] at this

/-- Swapping a word read from memory reads it with its most significant byte first. -/
theorem bswap_ofLe (bs : List UInt8) : bswap bs.length (ofLe bs) = ofLe bs.reverse := by
  rw [bswap, leBytes_ofLe]

/-- A number survives being stored with its most significant byte first. -/
theorem bswap_ofLe_reverse {k n : ℕ} (h : n < 256 ^ k) :
    bswap k (ofLe (leBytes k n).reverse) = n := by
  have := bswap_ofLe (leBytes k n).reverse
  rwa [List.length_reverse, length_leBytes, List.reverse_reverse, ofLe_leBytes,
    Nat.mod_eq_of_lt h] at this

end Base
