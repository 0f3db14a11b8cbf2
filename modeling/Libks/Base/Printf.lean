import Libks.Base.CString
import Libks.Base.Percent
import Mathlib.Algebra.Ring.Nat
import Mathlib.Data.Int.Notation

/-!
# What `printf` writes

The conversions of numbers and strings by the functions of the `printf` family: the
digits of a number, and a text padded or cut to a width. What is written is a string:
no byte of it is NUL, and the lengths are known.
-/

namespace Base

/-- `%u`, `%zu`: a number in decimal. -/
def formatNat (n : ℕ) : List UInt8 := (Nat.toDigits 10 n).map fun c => UInt8.ofNat c.toNat

/-- `%d`. -/
def formatInt (n : ℤ) : List UInt8 := if n < 0 then 45 :: formatNat n.natAbs else formatNat n.natAbs

/-- `%k.kX`: the `k` last hexadecimal digits. -/
def formatHex : ℕ → ℕ → List UInt8
  | 0, _ => []
  | k + 1, n => formatHex k (n / 16) ++ [hexDigit (n % 16)]

/-- `%ks`: at least `k` bytes, with spaces in front. -/
def padLeft (k : ℕ) (s : List UInt8) : List UInt8 := List.replicate (k - s.length) 32 ++ s

/-- `%-ks`: at least `k` bytes, with spaces behind. -/
def padRight (k : ℕ) (s : List UInt8) : List UInt8 := s ++ List.replicate (k - s.length) 32

variable {s : List UInt8} {k n : ℕ}

theorem zero_notMem_formatNat (n : ℕ) : 0 ∉ formatNat n := by
  rw [formatNat, List.mem_map]
  rintro ⟨c, hc, hzero⟩
  have hdigit := Nat.isDigit_of_mem_toDigits (by decide) (by decide) hc
  rw [Char.isDigit_iff_toNat] at hdigit
  have hval := congrArg UInt8.toNat hzero
  rw [UInt8.toNat_ofNat'] at hval
  have h0 : UInt8.toNat 0 = 0 := rfl
  have h1 : '0'.toNat = 48 := rfl
  have h2 : '9'.toNat = 57 := rfl
  omega

theorem length_formatNat_le (hk : 0 < k) (h : n < 10 ^ k) : (formatNat n).length ≤ k := by
  rw [formatNat, List.length_map]
  exact (Nat.length_toDigits_le_iff (by decide) hk).2 h

theorem zero_notMem_formatInt (n : ℤ) : 0 ∉ formatInt n := by
  rw [formatInt]
  split_ifs
  · rw [List.mem_cons, not_or]
    exact ⟨by decide, zero_notMem_formatNat _⟩
  · exact zero_notMem_formatNat _

theorem length_formatInt_le {n : ℤ} (hk : 0 < k) (h : n.natAbs < 10 ^ k) :
    (formatInt n).length ≤ k + 1 := by
  have hlen := length_formatNat_le hk h
  rw [formatInt]
  split_ifs
  · rw [List.length_cons]
    omega
  · omega

@[simp] theorem length_formatHex (k n : ℕ) : (formatHex k n).length = k := by
  induction k generalizing n with
  | zero => rfl
  | succ k ih => rw [formatHex, List.length_append, ih, List.length_singleton]

theorem hexDigit_ne_zero : ∀ d < 16, hexDigit d ≠ 0 := by decide

theorem zero_notMem_formatHex (k n : ℕ) : 0 ∉ formatHex k n := by
  induction k generalizing n with
  | zero => simp [formatHex]
  | succ k ih =>
    rw [formatHex, List.mem_append, List.mem_singleton, not_or]
    exact ⟨ih _, (hexDigit_ne_zero _ (Nat.mod_lt _ (by decide))).symm⟩

theorem length_padLeft (k : ℕ) (s : List UInt8) : (padLeft k s).length = max k s.length := by
  rw [padLeft, List.length_append, List.length_replicate]
  omega

theorem length_padRight (k : ℕ) (s : List UInt8) : (padRight k s).length = max k s.length := by
  rw [padRight, List.length_append, List.length_replicate]
  omega

theorem zero_notMem_padLeft (h : 0 ∉ s) : 0 ∉ padLeft k s := by
  rw [padLeft, List.mem_append, not_or]
  exact ⟨fun hmem => absurd (List.eq_of_mem_replicate hmem) (by decide), h⟩

theorem zero_notMem_padRight (h : 0 ∉ s) : 0 ∉ padRight k s := by
  rw [padRight, List.mem_append, not_or]
  exact ⟨h, fun hmem => absurd (List.eq_of_mem_replicate hmem) (by decide)⟩

end Base
