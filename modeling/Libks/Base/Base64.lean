import Libks.Base.CString
import Libks.Base.Word
import Mathlib.Data.List.GetD
import Mathlib.Data.List.Nodup
import Mathlib.Tactic.LinearCombination

/-!
# Base 64

The encoding of RFC 4648. Three bytes are four groups of six bits (`sextets`),
each of which a character of the alphabet stands for (`base64Char`), and the
last characters of the encoding are filled up with `=` (`base64Encode`). Four
groups are three bytes again (`octets`).

* `octets_base64Encode`: the bytes come back from the characters;
* `pushByte`, `pushSextet`: the accumulators of an encoder and of a decoder, 32 bits
  wide. What is shifted in stands in the low bits, whatever has been there
  (`pushByte_mod`, `pushSextet_mod`).
-/

namespace Base

/-! ## Groups of six bits -/

/-- The groups of six bits of a string, the last one filled up with zeros. -/
def sextets : List UInt8 → List ℕ
  | a :: b :: c :: s =>
    a.toNat / 4 :: (a.toNat % 4 * 16 + b.toNat / 16) :: (b.toNat % 16 * 4 + c.toNat / 64) ::
      c.toNat % 64 :: sextets s
  | [a, b] => [a.toNat / 4, a.toNat % 4 * 16 + b.toNat / 16, b.toNat % 16 * 4]
  | [a] => [a.toNat / 4, a.toNat % 4 * 16]
  | [] => []

/-- The bytes that groups of six bits are, without the bits left over. -/
def octets : List ℕ → List UInt8
  | p :: q :: r :: s :: vs =>
    UInt8.ofNat (p * 4 + q / 16) :: UInt8.ofNat (q % 16 * 16 + r / 4) ::
      UInt8.ofNat (r % 4 * 64 + s) :: octets vs
  | [p, q, r] => [UInt8.ofNat (p * 4 + q / 16), UInt8.ofNat (q % 16 * 16 + r / 4)]
  | [p, q] => [UInt8.ofNat (p * 4 + q / 16)]
  | [_] | [] => []

/-- There is a sextet for every six bits, and one for those left. -/
theorem length_sextets (s : List UInt8) : (sextets s).length = (8 * s.length + 5) / 6 := by
  fun_induction sextets s with
  | case1 a b c s ih =>
    simp only [List.length_cons, ih]
    omega
  | case2 | case3 | case4 => simp

/-- There is an octet for every eight bits, and none for those left. -/
theorem length_octets (vs : List ℕ) : (octets vs).length = 6 * vs.length / 8 := by
  fun_induction octets vs with
  | case1 p q r s vs ih =>
    simp only [List.length_cons, ih]
    omega
  | case2 | case3 | case4 | case5 => simp

/-- More groups are more bytes, behind the ones there are. -/
theorem octets_append (vs ws : List ℕ) : octets vs <+: octets (vs ++ ws) := by
  induction vs using octets.induct with
  | case1 p q r s vs ih =>
    rw [octets, List.cons_append, List.cons_append, List.cons_append, List.cons_append, octets]
    exact (List.prefix_append_right_inj [_, _, _]).2 ih
  | case2 p q r =>
    cases ws with
    | nil => exact List.prefix_rfl
    | cons s ws => exact List.prefix_append [_, _] _
  | case3 p q =>
    rcases ws with _ | ⟨r, _ | ⟨s, ws⟩⟩
    · exact List.prefix_rfl
    · exact List.prefix_append [_] _
    · exact List.prefix_append [_] _
  | case4 => exact List.nil_prefix
  | case5 => exact List.nil_prefix

/-- Sextets have six bits. -/
theorem lt_of_mem_sextets {s : List UInt8} {v : ℕ} (h : v ∈ sextets s) : v < 64 := by
  fun_induction sextets s with
  | case1 a b c s ih =>
    have ha := a.toNat_lt
    have hb := b.toNat_lt
    have hc := c.toNat_lt
    simp only [List.mem_cons] at h
    rcases h with rfl | rfl | rfl | rfl | h
    · omega
    · omega
    · omega
    · omega
    · exact ih h
  | case2 a b =>
    have ha := a.toNat_lt
    have hb := b.toNat_lt
    simp only [List.mem_cons, List.not_mem_nil, or_false] at h
    rcases h with rfl | rfl | rfl <;> omega
  | case3 a =>
    have ha := a.toNat_lt
    simp only [List.mem_cons, List.not_mem_nil, or_false] at h
    rcases h with rfl | rfl <;> omega
  | case4 => exact absurd h List.not_mem_nil

theorem ofNat_eq {a : UInt8} {n : ℕ} (h : n = a.toNat) : UInt8.ofNat n = a := by
  rw [h, UInt8.ofNat_toNat]

/-- The bytes come back from the groups of their bits. -/
theorem octets_sextets (s : List UInt8) : octets (sextets s) = s := by
  fun_induction sextets s with
  | case1 a b c s ih =>
    have ha := a.toNat_lt
    have hb := b.toNat_lt
    have hc := c.toNat_lt
    rw [octets, ih, ofNat_eq (a := a) (by omega), ofNat_eq (a := b) (by omega),
      ofNat_eq (a := c) (by omega)]
  | case2 a b =>
    have ha := a.toNat_lt
    have hb := b.toNat_lt
    rw [octets, ofNat_eq (a := a) (by omega), ofNat_eq (a := b) (by omega)]
  | case3 a =>
    have ha := a.toNat_lt
    rw [octets, ofNat_eq (a := a) (by omega)]
  | case4 => rfl

/-! ## Characters -/

/-- The alphabet, in the order of the groups. -/
def base64Alphabet : List UInt8 :=
  ascii "ABCDEFGHIJKLMNOPQRSTUVWXYZabcdefghijklmnopqrstuvwxyz0123456789+/"

/-- The character of a group of six bits. -/
def base64Char (v : ℕ) : UInt8 := base64Alphabet.getD v 0

/-- The group of six bits a character stands for. -/
def base64Val (c : UInt8) : Option ℕ := base64Alphabet.idxOf? c

/-- Whether a byte is a character of the alphabet. -/
def isBase64 (c : UInt8) : Bool := (base64Val c).isSome

/-- How many bytes are missing from the last three. -/
def base64Padding (n : ℕ) : ℕ := (3 - n % 3) % 3

/-- The encoding of a string. -/
def base64Encode (s : List UInt8) : List UInt8 :=
  (sextets s).map base64Char ++ List.replicate (base64Padding s.length) 61

/-- Three bytes are encoded apart from those behind them. -/
theorem base64Encode_cons (a b c : UInt8) (s : List UInt8) :
    base64Encode (a :: b :: c :: s) =
      base64Char (a.toNat / 4) :: base64Char (a.toNat % 4 * 16 + b.toNat / 16) ::
        base64Char (b.toNat % 16 * 4 + c.toNat / 64) :: base64Char (c.toNat % 64) ::
          base64Encode s := by
  have hpad : base64Padding (a :: b :: c :: s).length = base64Padding s.length := by
    simp only [base64Padding, List.length_cons]
    omega
  rw [base64Encode, hpad, sextets]
  rfl

/-- Two bytes at the end take three digits and one pad. -/
theorem base64Encode_two (a b : UInt8) :
    base64Encode [a, b] =
      [base64Char (a.toNat / 4), base64Char (a.toNat % 4 * 16 + b.toNat / 16),
        base64Char (b.toNat % 16 * 4), 61] := rfl

/-- One byte at the end takes two digits and two pads. -/
theorem base64Encode_one (a : UInt8) :
    base64Encode [a] = [base64Char (a.toNat / 4), base64Char (a.toNat % 4 * 16), 61, 61] := rfl

/-- Four characters for every three bytes that have begun. -/
theorem length_base64Encode (s : List UInt8) :
    (base64Encode s).length = 4 * ((s.length + 2) / 3) := by
  rw [base64Encode, List.length_append, List.length_map, length_sextets, List.length_replicate,
    base64Padding]
  omega

/-- No digit stands twice in the alphabet. -/
theorem nodup_base64Alphabet : base64Alphabet.Nodup := by decide +kernel

theorem length_base64Alphabet : base64Alphabet.length = 64 := by decide +kernel

theorem base64Char_eq {v : ℕ} (h : v < base64Alphabet.length) :
    base64Char v = base64Alphabet[v] :=
  List.getD_eq_getElem _ _ h

/-- A digit is read back as its value. -/
theorem base64Val_char {v : ℕ} (h : v < 64) : base64Val (base64Char v) = some v := by
  rw [← length_base64Alphabet] at h
  rw [base64Val, base64Char_eq h, List.idxOf?_eq_some_iff]
  exact ⟨h, rfl, fun j hj heq => hj.ne ((nodup_base64Alphabet.getElem_inj_iff).1 heq)⟩

/-- The characters that are digits are those of the alphabet. -/
theorem isSome_base64Val {c : UInt8} : (base64Val c).isSome ↔ c ∈ base64Alphabet := by
  rw [base64Val, List.isSome_idxOf?]

/-- The characters of the alphabet are ASCII. -/
theorem lt_of_base64Val {c : UInt8} {v : ℕ} (h : base64Val c = some v) : c < 128 := by
  have hall : ∀ d ∈ base64Alphabet, d < 128 := by decide +kernel
  exact hall c (isSome_base64Val.1 (by rw [h]; rfl))

theorem base64Char_ne_zero {v : ℕ} (h : v < 64) : base64Char v ≠ 0 := by
  have hall : ∀ d ∈ base64Alphabet, d ≠ 0 := by decide +kernel
  rw [← length_base64Alphabet] at h
  rw [base64Char_eq h]
  exact hall _ (List.getElem_mem _)

/-- The pad is no digit. -/
theorem base64Val_pad : base64Val 61 = none := by decide +kernel

/-- No byte of an encoding ends a string. -/
theorem zero_notMem_base64Encode (s : List UInt8) : 0 ∉ base64Encode s := by
  rw [base64Encode, List.mem_append, not_or]
  constructor
  · rw [List.mem_map]
    rintro ⟨v, hv, h0⟩
    exact base64Char_ne_zero (lt_of_mem_sextets hv) h0
  · rw [List.mem_replicate]
    exact fun h => absurd h.2 (by decide)

/-- The encoding is ASCII. -/
theorem lt_of_mem_base64Encode {s : List UInt8} {c : UInt8} (h : c ∈ base64Encode s) :
    c < 128 := by
  rw [base64Encode, List.mem_append, List.mem_map, List.mem_replicate] at h
  rcases h with ⟨v, hv, rfl⟩ | ⟨-, rfl⟩
  · exact lt_of_base64Val (base64Val_char (lt_of_mem_sextets hv))
  · decide

/-- The encoding is read back as the groups of the string, its padding as nothing. -/
theorem filterMap_base64Encode (s : List UInt8) :
    (base64Encode s).filterMap base64Val = sextets s := by
  have hmap : ((sextets s).map base64Char).filterMap base64Val = sextets s := by
    rw [List.filterMap_map]
    exact (List.filterMap_congr fun v hv => base64Val_char (lt_of_mem_sextets hv)).trans
      List.filterMap_some
  rw [base64Encode, List.filterMap_append, hmap, List.filterMap_replicate_of_none base64Val_pad,
    List.append_nil]

/-- The digits of a text have values of six bits. -/
theorem lt_of_mem_filterMap_base64Val {s : List UInt8} {v : ℕ}
    (h : v ∈ s.filterMap base64Val) : v < 64 := by
  obtain ⟨c, -, hc⟩ := List.mem_filterMap.1 h
  obtain ⟨hv, -⟩ := List.idxOf?_eq_some_iff.1 hc
  rwa [← length_base64Alphabet]

/-- There are as many values as digits. -/
theorem length_filterMap_base64Val (s : List UInt8) :
    (s.filterMap base64Val).length = s.countP isBase64 := by
  rw [List.length_filterMap_eq_countP]
  rfl

/-- The bytes outside the alphabet stand for nothing. -/
theorem filterMap_filter_isBase64 (s : List UInt8) :
    (s.filter isBase64).filterMap base64Val = s.filterMap base64Val := by
  rw [List.filterMap_filter]
  refine List.filterMap_congr fun c _ => ?_
  cases h : base64Val c with
  | none => rw [ite_self]
  | some v => rw [isBase64, h]; rfl

/-- What is decoded from the encoding of a string is the string. -/
theorem octets_base64Encode (s : List UInt8) :
    octets ((base64Encode s).filterMap base64Val) = s := by
  rw [filterMap_base64Encode, octets_sextets]

/-! ## Accumulators -/

/-- An `unsigned int` that a byte is shifted into. -/
def pushByte (b : ℕ) (c : UInt8) : ℕ := (b * 256 + c.toNat) % 2 ^ 32

/-- An `int` that a group of six bits is shifted into. -/
def pushSextet (b v : ℤ) : ℤ := toInt32 (b * 64 + v)

/-- The bits behind a byte that is shifted in are bits that were there. -/
theorem pushByte_mod {k : ℕ} (hk : k ≤ 24) (b : ℕ) (c : UInt8) :
    pushByte b c % 2 ^ (k + 8) = b % 2 ^ k * 256 + c.toNat := by
  have hc : c.toNat < 256 := c.toNat_lt
  have hdvd : 2 ^ (k + 8) ∣ 2 ^ 32 := Nat.pow_dvd_pow 2 (by omega)
  have hpow : 2 ^ (k + 8) = 256 * 2 ^ k := by rw [Nat.pow_add, Nat.mul_comm]
  rw [pushByte, Nat.mod_mod_of_dvd _ hdvd, hpow, Nat.mod_mul]
  have hdiv : (b * 256 + c.toNat) / 256 = b := by omega
  have hmod : (b * 256 + c.toNat) % 256 = c.toNat := by omega
  rw [hdiv, hmod]
  omega

/-- The low bits survive the cut to an `int`. -/
theorem toInt32_emod {k : ℕ} (hk : k ≤ 32) (n : ℤ) : toInt32 n % 2 ^ k = n % 2 ^ k := by
  have hdvd : (2 : ℤ) ^ k ∣ (2 ^ 32 : ℕ) := pow_dvd_pow 2 hk
  rw [toInt32, ← Int.emod_emod_of_dvd _ hdvd, Int.bmod_emod, Int.emod_emod_of_dvd _ hdvd]

/-- What one, two and three bytes leave in the low bits. -/
theorem pushByte_one (b : ℕ) (c : UInt8) : pushByte b c % 2 ^ 8 = c.toNat := by
  rw [pushByte_mod (k := 0) (by decide), Nat.pow_zero, Nat.mod_one, Nat.zero_mul, Nat.zero_add]

/-- The low bits of the accumulator hold the last bytes that were pushed. -/
theorem pushByte_two (b : ℕ) (c d : UInt8) :
    pushByte (pushByte b c) d % 2 ^ 16 = c.toNat * 256 + d.toNat := by
  rw [pushByte_mod (k := 8) (by decide), pushByte_one]

theorem pushByte_three (b : ℕ) (c d e : UInt8) :
    pushByte (pushByte (pushByte b c) d) e % 2 ^ 24 =
      (c.toNat * 256 + d.toNat) * 256 + e.toNat := by
  rw [pushByte_mod (k := 16) (by decide), pushByte_two]

/-- The bits behind a group that is shifted in are bits that were there. -/
theorem pushSextet_mod {k : ℕ} (hk : k ≤ 26) (b : ℤ) {v : ℕ} (hv : v < 64) :
    pushSextet b v % 2 ^ (k + 6) = b % 2 ^ k * 64 + v := by
  have hpow : (2 : ℤ) ^ (k + 6) = 2 ^ k * 64 := pow_add 2 k 6
  have hpos : (0 : ℤ) < 2 ^ k := pow_pos (by decide) k
  have hlow := Int.emod_nonneg b hpos.ne'
  have hhigh := Int.emod_lt_of_pos b hpos
  rw [pushSextet, toInt32_emod (by omega), hpow]
  calc (b * 64 + v) % (2 ^ k * 64)
      = (b % 2 ^ k * 64 + v + 2 ^ k * 64 * (b / 2 ^ k)) % (2 ^ k * 64) := by
        congr 1
        have hb := Int.emod_add_mul_ediv b (2 ^ k)
        linear_combination -64 * hb
    _ = b % 2 ^ k * 64 + v := by
        rw [Int.add_mul_emod_self_left, Int.emod_eq_of_lt (by omega) (by omega)]

/-- The low bits of the accumulator hold the last sextets that were pushed. -/
theorem pushSextet_one (b : ℤ) {p : ℕ} (hp : p < 64) : pushSextet b p % 2 ^ 6 = p := by
  rw [pushSextet_mod (k := 0) (by decide) b hp, pow_zero, Int.emod_one, zero_mul, zero_add]

theorem pushSextet_two (b : ℤ) {p q : ℕ} (hp : p < 64) (hq : q < 64) :
    pushSextet (pushSextet b p) q % 2 ^ 12 = p * 64 + q := by
  rw [pushSextet_mod (k := 6) (by decide) _ hq, pushSextet_one b hp]

theorem pushSextet_three (b : ℤ) {p q r : ℕ} (hp : p < 64) (hq : q < 64) (hr : r < 64) :
    pushSextet (pushSextet (pushSextet b p) q) r % 2 ^ 18 = (p * 64 + q) * 64 + r := by
  rw [pushSextet_mod (k := 12) (by decide) _ hr, pushSextet_two b hp hq]

theorem pushSextet_four (b : ℤ) {p q r s : ℕ} (hp : p < 64) (hq : q < 64) (hr : r < 64)
    (hs : s < 64) :
    pushSextet (pushSextet (pushSextet (pushSextet b p) q) r) s % 2 ^ 24 =
      ((p * 64 + q) * 64 + r) * 64 + s := by
  rw [pushSextet_mod (k := 18) (by decide) _ hs, pushSextet_three b hp hq hr]

/-- The byte of an `int`, which may be negative. -/
theorem ofInt_tmod {x : ℤ} {n : ℕ} (h : x % 256 = n) :
    UInt8.ofInt (x.tmod 256) = UInt8.ofNat n := by
  have hx := Int.mul_tdiv_add_tmod x 256
  have hmod : x.tmod 256 % 2 ^ 8 = n := by omega
  rw [UInt8.ofInt, hmod, Int.toNat_natCast]

end Base
