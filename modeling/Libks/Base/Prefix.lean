import Libks.Base.Word
import Mathlib.Data.Nat.Bitwise

/-!
# Prefixes of bit strings

Strings of bytes as strings of bits, the first bit of a byte being its highest, and
masks that leave the first bits of them.

* `samePrefix_iff`: the first bits are the same if and only if the mask leaves the same
  of all bytes;
* `ofLe_and`, `ofLe_inj`: what holds of the bytes of a word holds of the word.
-/

namespace Base

variable {k n : ℕ}

/-- A string of zeros. -/
def zeros (k : ℕ) : Fin k → UInt8 := fun _ => 0

/-- Two strings of bytes have the same first `n` bits. -/
def SamePrefix (n : ℕ) (a b : Fin k → UInt8) : Prop :=
  ∀ i : Fin k, ∀ j < 8, 8 * i.val + j < n →
    (a i).toNat.testBit (7 - j) = (b i).toNat.testBit (7 - j)

instance (n : ℕ) (a b : Fin k → UInt8) : Decidable (SamePrefix n a b) :=
  inferInstanceAs (Decidable (∀ i : Fin k, ∀ j < 8, 8 * i.val + j < n →
    (a i).toNat.testBit (7 - j) = (b i).toNat.testBit (7 - j)))

/-- The byte whose first `n` bits are set. -/
def maskByte (n : ℕ) : UInt8 := if 8 ≤ n then 0xFF else ~~~((0xFF : UInt8) >>> UInt8.ofNat n)

theorem testBit_maskByte {r : ℕ} (hr : r < 8) :
    (maskByte n).toNat.testBit r = decide (7 - r < n) := by
  by_cases hn : 8 ≤ n
  · rw [maskByte, if_pos hn, decide_eq_true (by omega)]
    exact (by decide : ∀ r < 8, (0xFF : UInt8).toNat.testBit r = true) r hr
  · exact (by decide : ∀ n < 8, ∀ r < 8, (maskByte n).toNat.testBit r = decide (7 - r < n)) n
      (Nat.lt_of_not_le hn) r hr

theorem testBit_of_le {x : UInt8} {r : ℕ} (hr : 8 ≤ r) : x.toNat.testBit r = false :=
  Nat.testBit_lt_two_pow (x.toNat_lt.trans_le (Nat.pow_le_pow_right (by decide) hr))

/-- A mask leaves the same of two bytes if these have the same first bits. -/
theorem and_maskByte_eq_iff {x y : UInt8} :
    x &&& maskByte n = y &&& maskByte n ↔
      ∀ j < 8, j < n → x.toNat.testBit (7 - j) = y.toNat.testBit (7 - j) := by
  rw [← UInt8.toNat_inj, UInt8.toNat_and, UInt8.toNat_and]
  constructor
  · intro h j hj hn
    have hbit := congrArg (Nat.testBit · (7 - j)) h
    have hmask : (maskByte n).toNat.testBit (7 - j) = true := by
      rw [testBit_maskByte (by omega), decide_eq_true_eq]
      omega
    simpa only [Nat.testBit_and, hmask, Bool.and_true] using hbit
  · intro h
    refine Nat.eq_of_testBit_eq fun r => ?_
    rw [Nat.testBit_and, Nat.testBit_and]
    by_cases hr : r < 8
    · rw [testBit_maskByte hr]
      by_cases hn : 7 - r < n
      · have := h (7 - r) (by omega) hn
        rw [show 7 - (7 - r) = r by omega] at this
        rw [this]
      · rw [decide_eq_false hn, Bool.and_false, Bool.and_false]
    · simp only [testBit_of_le (Nat.le_of_not_lt hr), Bool.false_and]

theorem samePrefix_iff {a b : Fin k → UInt8} : SamePrefix n a b ↔
    ∀ i : Fin k, a i &&& maskByte (n - 8 * i.val) = b i &&& maskByte (n - 8 * i.val) := by
  refine forall_congr' fun i => ?_
  rw [and_maskByte_eq_iff]
  refine forall₂_congr fun j _ => ?_
  rw [Nat.lt_sub_iff_add_lt']

/-! ## Words -/

/-- The word of the bytes that are in both of two words. -/
theorem ofLe_and {xs ys : List UInt8} (h : xs.length = ys.length) :
    ofLe (List.zipWith (· &&& ·) xs ys) = ofLe xs &&& ofLe ys := by
  induction xs generalizing ys with
  | nil => simp [ofLe]
  | cons x xs ih =>
    cases ys with
    | nil => exact absurd h (Nat.succ_ne_zero _)
    | cons y ys =>
      have hx : x.toNat < 2 ^ 8 := x.toNat_lt
      have hy : y.toNat < 2 ^ 8 := y.toNat_lt
      have hxy : (x &&& y).toNat < 2 ^ 8 := (x &&& y).toNat_lt
      have hand := ih (Nat.succ.inj h)
      rw [List.zipWith_cons_cons, ofLe, ofLe, ofLe, hand]
      refine Nat.eq_of_testBit_eq fun r => ?_
      rw [Nat.testBit_and, Nat.add_comm, Nat.add_comm x.toNat, Nat.add_comm y.toNat,
        Nat.testBit_two_pow_mul_add _ hxy, Nat.testBit_two_pow_mul_add _ hx,
        Nat.testBit_two_pow_mul_add _ hy]
      split_ifs
      · rw [UInt8.toNat_and, Nat.testBit_and]
      · rw [Nat.testBit_and]

/-- A word says which bytes it is made of. -/
theorem ofLe_inj {xs ys : List UInt8} (h : xs.length = ys.length) : ofLe xs = ofLe ys ↔ xs = ys := by
  refine ⟨fun he => ?_, congrArg ofLe⟩
  rw [← leBytes_ofLe xs, ← leBytes_ofLe ys, h, he]

end Base
