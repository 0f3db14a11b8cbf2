import Libks.Base.Printf
import Libks.Base.Word
import Mathlib.Algebra.Order.Field.Rat
import Mathlib.Data.Rat.Cast.Order
import Mathlib.Tactic.FieldSimp
import Mathlib.Tactic.Linarith
import Mathlib.Tactic.Positivity

/-!
# Decimal numerals

A numeral is a sign, digits, and behind a point maybe more (`Numeral`); it has at
least one digit, and it denotes a rational number (`Numeral.value`). Whether a string
is a numeral (`exists_numeral_iff`), and where its value lies, can be told from its
characters (`Numeral.value_nonneg_iff`, `Numeral.value_pos_iff`,
`Numeral.value_eq_neg_one_iff`).

`atoi` is what the C library makes of a string, which need not be a numeral. It does
not read on behind a point, and it keeps a number only modulo `2 ^ 32`
(`atoi_eq_lowWord`). An `int` that has been written in decimal is read again, if no digit
stands behind it (`atoi_formatNat`).
-/

namespace Base

/-! ## Digits -/

/-- A decimal digit. -/
abbrev IsDigit (c : UInt8) : Prop := 48 ≤ c ∧ c ≤ 57

/-- The number that digits denote. -/
def digitsVal (ds : List UInt8) : ℤ := ds.foldl (fun n c => 10 * n + (c.toNat - 48)) 0

/-- The digits are the bytes from 48 to 57. -/
theorem IsDigit.toNat {c : UInt8} (h : IsDigit c) : 48 ≤ c.toNat ∧ c.toNat ≤ 57 :=
  ⟨UInt8.le_iff_toNat_le.1 h.1, UInt8.le_iff_toNat_le.1 h.2⟩

/-- One more digit behind the others. -/
theorem digitsVal_concat (ds : List UInt8) (c : UInt8) :
    digitsVal (ds ++ [c]) = 10 * digitsVal ds + (c.toNat - 48) := by
  rw [digitsVal, List.foldl_concat, digitsVal]

section DigitsVal

variable {ds : List UInt8} (h : ∀ c ∈ ds, IsDigit c)

include h

theorem digitsVal_nonneg : 0 ≤ digitsVal ds := by
  induction ds using List.reverseRecOn with
  | nil => exact le_rfl
  | append_singleton ds c ih =>
    have hds := ih fun d hd => h d (List.mem_append_left _ hd)
    have hc := (h c (by simp)).toNat
    rw [digitsVal_concat]
    omega

/-- So many digits, so many powers of ten. -/
theorem digitsVal_lt : digitsVal ds < 10 ^ ds.length := by
  induction ds using List.reverseRecOn with
  | nil => exact one_pos
  | append_singleton ds c ih =>
    have hds := ih fun d hd => h d (List.mem_append_left _ hd)
    have hc := (h c (by simp)).toNat
    rw [digitsVal_concat, List.length_append, List.length_singleton, pow_succ]
    omega

/-- Only zeros have the value zero. -/
theorem digitsVal_eq_zero_iff : digitsVal ds = 0 ↔ ∀ c ∈ ds, c = 48 := by
  induction ds using List.reverseRecOn with
  | nil => simp [digitsVal]
  | append_singleton ds c ih =>
    have hds' : ∀ d ∈ ds, IsDigit d := fun d hd => h d (List.mem_append_left _ hd)
    have hds := ih hds'
    have hnonneg := digitsVal_nonneg hds'
    have hc := (h c (by simp)).toNat
    have h48 : c = 48 ↔ c.toNat = 48 := by rw [← UInt8.toNat_inj]; rfl
    rw [List.forall_mem_append, List.forall_mem_singleton, ← hds, h48, digitsVal_concat]
    omega

end DigitsVal

/-! ## Numerals -/

/-- What is behind a sign. -/
def behindSign : List UInt8 → List UInt8
  | [] => []
  | c :: s => if c = 43 ∨ c = 45 then s else c :: s

/-- A string with digits and at most one point behind its sign, and at least one digit. -/
def IsNumeral (s : List UInt8) : Prop :=
  (∀ c ∈ behindSign s, c = 46 ∨ IsDigit c) ∧ (behindSign s).count 46 ≤ 1 ∧
    ∃ c ∈ behindSign s, IsDigit c

instance : DecidablePred IsNumeral := fun s =>
  have := List.decidableBAll (fun c => c = 46 ∨ IsDigit c) (behindSign s)
  have := List.decidableBEx IsDigit (behindSign s)
  inferInstanceAs (Decidable (_ ∧ _ ∧ _))

/-- The digits in front of the first point. -/
def wholeDigits (s : List UInt8) : List UInt8 := (behindSign s).takeWhile fun c => IsDigit c

/-- What comes behind them. -/
def behindWhole (s : List UInt8) : List UInt8 := (behindSign s).dropWhile fun c => IsDigit c

/-- A decimal numeral: a sign, digits, and behind a point maybe more. -/
structure Numeral where
  sign : Option UInt8
  whole : List UInt8
  frac : Option (List UInt8)
  isSign : ∀ c ∈ sign, c = 43 ∨ c = 45
  digits_whole : ∀ c ∈ whole, IsDigit c
  digits_frac : ∀ c ∈ frac.getD [], IsDigit c
  nonempty : whole ++ frac.getD [] ≠ []

/-- A digit is no point. -/
theorem IsDigit.ne_point {c : UInt8} (h : IsDigit c) : c ≠ 46 := by
  rintro rfl
  exact absurd h (by decide)

/-- A digit is no sign. -/
theorem IsDigit.not_sign {c : UInt8} (h : IsDigit c) : ¬(c = 43 ∨ c = 45) := by
  rintro (rfl | rfl) <;> exact absurd h (by decide)

namespace Numeral

variable (n : Numeral)

/-- The point, and what is behind it. -/
def tail : List UInt8 := n.frac.elim [] (46 :: ·)

/-- A numeral as a string. -/
def text : List UInt8 := n.sign.toList ++ (n.whole ++ n.tail)

/-- The number without its sign. -/
def magnitude : ℚ :=
  digitsVal n.whole + digitsVal (n.frac.getD []) / 10 ^ (n.frac.getD []).length

/-- The number that a numeral denotes. -/
def value : ℚ := if n.sign = some 45 then -n.magnitude else n.magnitude

/-- Behind the whole digits of a numeral there are its point and the digits of its fraction. -/
theorem mem_tail_iff {c : UInt8} : c ∈ n.tail ↔ (c = 46 ∧ n.frac ≠ none) ∨ c ∈ n.frac.getD [] := by
  rw [tail]
  cases n.frac with
  | none => simp
  | some ds => simp

/-- The digits and the point do not start with a sign. -/
theorem head_body {c : UInt8} (h : (n.whole ++ n.tail).head? = some c) : ¬(c = 43 ∨ c = 45) := by
  have hc := List.mem_of_mem_head? h
  rw [List.mem_append, mem_tail_iff] at hc
  obtain hw | ⟨rfl, -⟩ | hf := hc
  · exact (n.digits_whole c hw).not_sign
  · decide
  · exact (n.digits_frac c hf).not_sign

/-- Behind the sign of a numeral there are its digits. -/
@[simp] theorem behindSign_text : behindSign n.text = n.whole ++ n.tail := by
  rw [text]
  cases hsign : n.sign with
  | some c => exact if_pos (n.isSign c hsign)
  | none =>
    rw [Option.toList_none, List.nil_append]
    cases hbody : n.whole ++ n.tail with
    | nil => rfl
    | cons c s => exact if_neg (n.head_body (by rw [hbody]; rfl))

/-- A numeral with a minus is a string with one. -/
theorem head_text : n.text.head? = some 45 ↔ n.sign = some 45 := by
  rw [text]
  cases n.sign with
  | some c => simp
  | none =>
    rw [Option.toList_none, List.nil_append]
    exact iff_of_false (fun h => n.head_body h (.inr rfl)) (by simp)

/-- The point ends the digits in front of it. -/
theorem head_tail {c : UInt8} (h : n.tail.head? = some c) : ¬IsDigit c := by
  rw [tail] at h
  cases hf : n.frac with
  | none => simp [hf] at h
  | some ds =>
    obtain rfl : 46 = c := by simpa [hf] using h
    decide

/-- The whole digits are read up to the point. -/
@[simp] theorem wholeDigits_text : wholeDigits n.text = n.whole := by
  rw [wholeDigits, behindSign_text, List.takeWhile_append_of_pos fun c hc => by
    simpa using n.digits_whole c hc]
  cases htail : n.tail with
  | nil => simp
  | cons c s => rw [List.takeWhile_cons_of_neg (by simpa using n.head_tail (by rw [htail]; rfl)),
      List.append_nil]

@[simp] theorem behindWhole_text : behindWhole n.text = n.tail := by
  rw [behindWhole, behindSign_text, List.dropWhile_append_of_pos fun c hc => by
    simpa using n.digits_whole c hc]
  cases htail : n.tail with
  | nil => rfl
  | cons c s => exact List.dropWhile_cons_of_neg (by simpa using n.head_tail (by rw [htail]; rfl))

/-- The text of a numeral is one. -/
theorem isNumeral_text : IsNumeral n.text := by
  rw [IsNumeral, behindSign_text]
  refine ⟨fun c hc => ?_, ?_, ?_⟩
  · rw [List.mem_append, mem_tail_iff] at hc
    obtain hw | ⟨rfl, -⟩ | hf := hc
    · exact .inr (n.digits_whole c hw)
    · exact .inl rfl
    · exact .inr (n.digits_frac c hf)
  · have hcount {ds : List UInt8} (h : ∀ c ∈ ds, IsDigit c) : ds.count 46 = 0 :=
      List.count_eq_zero.2 fun h46 => (h 46 h46).ne_point rfl
    have hfrac := hcount n.digits_frac
    rw [List.count_append, hcount n.digits_whole, tail]
    cases hf : n.frac with
    | none => simp
    | some ds =>
      rw [hf] at hfrac
      simpa using hfrac
  · obtain ⟨c, hc⟩ := List.exists_mem_of_ne_nil _ n.nonempty
    rw [List.mem_append] at hc
    obtain hw | hf := hc
    · exact ⟨c, List.mem_append_left _ hw, n.digits_whole c hw⟩
    · exact ⟨c, List.mem_append_right _ ((mem_tail_iff n).2 (.inr hf)), n.digits_frac c hf⟩

end Numeral

/-- A text is its sign, if it has one, and what is behind it. -/
theorem sign_append_behindSign (s : List UInt8) :
    ∃ sign : Option UInt8, (∀ c ∈ sign, c = 43 ∨ c = 45) ∧ sign.toList ++ behindSign s = s := by
  cases s with
  | nil => exact ⟨none, by simp, rfl⟩
  | cons c s =>
    by_cases hc : c = 43 ∨ c = 45
    · exact ⟨some c, by simpa using hc, by rw [behindSign, if_pos hc]; rfl⟩
    · exact ⟨none, by simp, by rw [behindSign, if_neg hc]; rfl⟩

/-- The strings that are numerals, by their characters. -/
theorem exists_numeral_iff {s : List UInt8} : (∃ n : Numeral, n.text = s) ↔ IsNumeral s := by
  constructor
  · rintro ⟨n, rfl⟩
    exact n.isNumeral_text
  rintro ⟨hall, hcount, c, hc, hdigit⟩
  obtain ⟨sign, hsign, hs⟩ := sign_append_behindSign s
  have hdigits {ds : List UInt8} (h : ∀ c ∈ ds, c ∈ behindSign s) (h46 : 46 ∉ ds) :
      ∀ c ∈ ds, IsDigit c := fun c hc => (hall c (h c hc)).resolve_left fun hp => h46 (hp ▸ hc)
  by_cases hpoint : 46 ∈ behindSign s
  · obtain ⟨whole, frac, hsplit, hwhole⟩ := List.eq_append_cons_of_mem hpoint
    have hfrac : 46 ∉ frac := by
      rw [hsplit, List.count_append, List.count_cons_self] at hcount
      exact List.count_eq_zero.1 (by omega)
    refine ⟨⟨sign, whole, some frac, hsign, hdigits (fun c hc => ?_) hwhole,
      hdigits (fun c hc => ?_) hfrac, fun hnil => ?_⟩, ?_⟩
    · rw [hsplit]
      exact List.mem_append_left _ hc
    · rw [hsplit]
      exact List.mem_append_right _ (List.mem_cons_of_mem _ hc)
    · obtain ⟨rfl, rfl⟩ : whole = [] ∧ frac = [] := by simpa using hnil
      rw [hsplit, List.nil_append, List.mem_singleton] at hc
      exact hdigit.ne_point hc
    · rw [hsplit] at hs
      exact hs
  · refine ⟨⟨sign, behindSign s, none, hsign, hdigits (fun _ hc => hc) hpoint, by simp, ?_⟩, ?_⟩
    · simpa using List.ne_nil_of_mem hc
    · simpa [Numeral.text, Numeral.tail] using hs

/-! ## Values -/

/-- Zeros and points, and nothing else. -/
def Zeros (s : List UInt8) : Prop := ∀ c ∈ s, c = 46 ∨ c = 48

instance : DecidablePred Zeros := List.decidableBAll fun c => c = 46 ∨ c = 48

theorem isDigit_of_mem_wholeDigits {s : List UInt8} {c : UInt8} (h : c ∈ wholeDigits s) :
    IsDigit c := by
  simpa using List.mem_takeWhile_imp h

/-- A number is zero in front of the point and behind it. -/
theorem zeros_behindSign_iff {s : List UInt8} :
    Zeros (behindSign s) ↔ digitsVal (wholeDigits s) = 0 ∧ Zeros (behindWhole s) := by
  have hsplit : behindSign s = wholeDigits s ++ behindWhole s :=
    List.takeWhile_append_dropWhile.symm
  rw [hsplit, Zeros, List.forall_mem_append,
    digitsVal_eq_zero_iff fun c => isDigit_of_mem_wholeDigits]
  refine and_congr_left fun _ => forall₂_congr fun c hc => ?_
  exact or_iff_right (isDigit_of_mem_wholeDigits hc).ne_point

namespace Numeral

variable (n : Numeral)

/-- The fraction has zeros only if and only if its value is zero. -/
theorem zeros_tail_iff : Zeros n.tail ↔ digitsVal (n.frac.getD []) = 0 := by
  rw [digitsVal_eq_zero_iff n.digits_frac]
  refine ⟨fun h c hc => ?_, fun h c hc => ?_⟩
  · exact (h c (n.mem_tail_iff.2 (.inr hc))).resolve_left (n.digits_frac c hc).ne_point
  · exact (n.mem_tail_iff.1 hc).imp And.left (h c)

/-- What is behind the point is less than one. -/
theorem frac_nonneg_lt_one : 0 ≤ n.magnitude - digitsVal n.whole ∧
    n.magnitude - digitsVal n.whole < 1 ∧
    (n.magnitude - digitsVal n.whole = 0 ↔ Zeros n.tail) := by
  have hpow : (0 : ℚ) < 10 ^ (n.frac.getD []).length := by positivity
  have hnonneg : (0 : ℚ) ≤ digitsVal (n.frac.getD []) := by
    exact_mod_cast digitsVal_nonneg n.digits_frac
  have hlt : (digitsVal (n.frac.getD []) : ℚ) < 10 ^ (n.frac.getD []).length := by
    exact_mod_cast digitsVal_lt n.digits_frac
  rw [magnitude, add_sub_cancel_left, zeros_tail_iff]
  refine ⟨by positivity, (div_lt_one hpow).2 hlt, ?_⟩
  rw [div_eq_zero_iff, or_iff_left hpow.ne']
  exact Int.cast_eq_zero

theorem magnitude_nonneg : 0 ≤ n.magnitude := by
  have hwhole : (0 : ℚ) ≤ digitsVal n.whole := by exact_mod_cast digitsVal_nonneg n.digits_whole
  linarith [n.frac_nonneg_lt_one.1]

/-- A numeral is zero if and only if it has zeros only. -/
theorem magnitude_eq_zero_iff : n.magnitude = 0 ↔ Zeros (behindSign n.text) := by
  have hwhole : (0 : ℚ) ≤ digitsVal n.whole := by exact_mod_cast digitsVal_nonneg n.digits_whole
  obtain ⟨hnonneg, -, hzero⟩ := n.frac_nonneg_lt_one
  rw [zeros_behindSign_iff, wholeDigits_text, behindWhole_text, ← hzero]
  refine ⟨fun h => ?_, fun ⟨h, hfrac⟩ => ?_⟩
  · have hw : (digitsVal n.whole : ℚ) = 0 := by linarith
    exact ⟨by exact_mod_cast hw, by linarith⟩
  · rw [h] at hfrac
    simpa using hfrac

/-- A numeral is one if its whole part is, and its fraction is zero. -/
theorem magnitude_eq_one_iff :
    n.magnitude = 1 ↔ digitsVal n.whole = 1 ∧ Zeros n.tail := by
  obtain ⟨hnonneg, hlt, hzero⟩ := n.frac_nonneg_lt_one
  rw [← hzero]
  refine ⟨fun h => ?_, fun ⟨h, hfrac⟩ => ?_⟩
  · -- The digits in front of the point denote a number above 0 and at most 1.
    have hpos : (0 : ℚ) < digitsVal n.whole := by linarith
    have hle : (digitsVal n.whole : ℚ) ≤ 1 := by linarith
    have hw : digitsVal n.whole = 1 :=
      le_antisymm (by exact_mod_cast hle) (by exact_mod_cast hpos)
    exact ⟨hw, by rw [h, hw]; norm_num⟩
  · rw [h] at hfrac
    push_cast at hfrac
    linarith

/-- A numeral with a minus is not negative only if it is zero. -/
theorem value_nonneg_iff :
    0 ≤ n.value ↔ n.text.head? ≠ some 45 ∨ Zeros (behindSign n.text) := by
  rw [value, ne_eq, head_text, ← magnitude_eq_zero_iff]
  have hnonneg := n.magnitude_nonneg
  split_ifs with hsign
  · rw [neg_nonneg, or_iff_right (not_not.2 hsign)]
    exact ⟨fun h => le_antisymm h hnonneg, le_of_eq⟩
  · exact iff_of_true hnonneg (.inl hsign)

/-- A numeral without a minus is positive unless it is zero. -/
theorem value_pos_iff :
    0 < n.value ↔ n.text.head? ≠ some 45 ∧ ¬Zeros (behindSign n.text) := by
  rw [value, ne_eq, head_text, ← magnitude_eq_zero_iff]
  have hnonneg := n.magnitude_nonneg
  split_ifs with hsign
  · exact iff_of_false (by linarith) fun h => h.1 hsign
  · rw [and_iff_right hsign]
    exact hnonneg.lt_iff_ne'

/-- A numeral is `-1` by its minus, its whole part and its fraction. -/
theorem value_eq_neg_one_iff : n.value = -1 ↔
    n.text.head? = some 45 ∧ digitsVal (wholeDigits n.text) = 1 ∧ Zeros (behindWhole n.text) := by
  rw [value, head_text, wholeDigits_text, behindWhole_text, ← magnitude_eq_one_iff]
  have hnonneg := n.magnitude_nonneg
  split_ifs with hsign
  · rw [neg_inj, and_iff_right hsign]
  · exact iff_of_false (by linarith) fun h => hsign h.1

/-- What can be told of the value from the characters. -/
theorem exists_value_iff {s : List UInt8} {p : ℚ → Prop} {q : List UInt8 → Prop}
    (h : ∀ n : Numeral, p n.value ↔ q n.text) :
    (∃ n : Numeral, n.text = s ∧ p n.value) ↔ IsNumeral s ∧ q s := by
  rw [← exists_numeral_iff]
  constructor
  · rintro ⟨n, rfl, hp⟩
    exact ⟨⟨n, rfl⟩, (h n).1 hp⟩
  · rintro ⟨⟨n, rfl⟩, hq⟩
    exact ⟨n, rfl, (h n).2 hq⟩

end Numeral

/-! ## `atoi` -/

/-- `atoi`: an optional sign and digits behind white space, as an `int`. -/
def atoi (s : List UInt8) : ℤ :=
  let s := s.dropWhile isSpace
  let digits := match s with
    | 43 :: ds | 45 :: ds => ds
    | ds => ds
  let n := (digits.takeWhile fun c => 48 ≤ c ∧ c ≤ 57).foldl (fun n c => 10 * n + (c.toNat - 48)) 0
  -- `strtol` stops at the bounds of a `long`.
  if s.head? = some 45 then toInt32 (max (-n : ℤ) (-2 ^ 63)) else toInt32 (min (n : ℤ) (2 ^ 63 - 1))

/-- The value of digits behind `sign`. -/
def signed (sign : Option UInt8) (digits : List UInt8) : ℤ :=
  let n : ℤ := digits.foldl (fun n c => 10 * n + (c.toNat - 48)) 0
  if sign = some 45 then toInt32 (max (-n) (-2 ^ 63)) else toInt32 (min n (2 ^ 63 - 1))

/-- What `atoi` makes of a sign and its digits: capped as a `long`, and cut to an `int`. -/
theorem signed_eq (sign : Option UInt8) (digits : List UInt8) :
    signed sign digits = if sign = some 45 then toInt32 (max (-digitsVal digits) (-2 ^ 63))
      else toInt32 (min (digitsVal digits) (2 ^ 63 - 1)) := rfl

/-- `atoi` reads white space, a sign and digits. -/
theorem atoi_eq (s : List UInt8) :
    atoi s = signed (s.dropWhile isSpace).head?
      ((behindSign (s.dropWhile isSpace)).takeWhile fun c => 48 ≤ c ∧ c ≤ 57) := by
  rw [atoi]
  cases s.dropWhile isSpace with
  | nil => rfl
  | cons c s =>
    rw [behindSign]
    by_cases h43 : c = 43
    · subst h43
      rfl
    by_cases h45 : c = 45
    · subst h45
      rfl
    have hhead : (c :: s).head? ≠ some 45 := fun h => h45 (Option.some.inj h)
    rw [if_neg (not_or.2 ⟨h43, h45⟩), signed, if_neg hhead, if_neg hhead]
    split
    · next heq => exact absurd (List.cons.inj heq).1 h43
    · next heq => exact absurd (List.cons.inj heq).1 h45
    · rfl

/-- The digits of `s` in front of a point, as far as a `long` holds them, modulo `2 ^ 32`. -/
def lowWord (s : List UInt8) : ℤ :=
  min (digitsVal (wholeDigits s)) (if s.head? = some 45 then 2 ^ 63 else 2 ^ 63 - 1) % 2 ^ 32

theorem lowWord_nonneg {s : List UInt8} : 0 ≤ lowWord s := Int.emod_nonneg _ (by decide)

theorem lowWord_lt {s : List UInt8} : lowWord s < 2 ^ 32 := Int.emod_lt_of_pos _ (by decide)

/-- The low word of zero. -/
theorem lowWord_of_zeros {s : List UInt8} (h : Zeros (behindSign s)) : lowWord s = 0 := by
  rw [lowWord, (zeros_behindSign_iff.1 h).1]
  split_ifs <;> rfl

/-- A whole part below `2 ^ 32` is its own low word. -/
theorem lowWord_of_lt {s : List UInt8} (hnonneg : 0 ≤ digitsVal (wholeDigits s))
    (hlt : digitsVal (wholeDigits s) < 2 ^ 32) : lowWord s = digitsVal (wholeDigits s) := by
  rw [lowWord]
  split_ifs <;> omega

section Atoi

variable {s : List UInt8} (h : ∀ c ∈ s.head?, isSpace c = false)

include h

/-- What `atoi` makes of digits behind a sign. -/
theorem atoi_eq_lowWord : atoi s =
    if s.head? = some 45 then if lowWord s ≤ 2 ^ 31 then -lowWord s else 2 ^ 32 - lowWord s
    else if lowWord s < 2 ^ 31 then lowWord s else lowWord s - 2 ^ 32 := by
  have hdrop : s.dropWhile isSpace = s := by
    cases s with
    | nil => rfl
    | cons c s => exact List.dropWhile_cons_of_neg (by simp [h c rfl])
  rw [atoi_eq, hdrop, signed_eq, lowWord]
  change (if _ then toInt32 (max (-digitsVal (wholeDigits s)) _) else
    toInt32 (min (digitsVal (wholeDigits s)) _)) = _
  generalize digitsVal (wholeDigits s) = n
  split_ifs <;> rw [toInt32, Int.bmod_def] <;> omega

/-- The sign of what `atoi` returns is seen from the low word. -/
theorem atoi_nonneg_iff : 0 ≤ atoi s ↔
    if s.head? = some 45 then lowWord s = 0 ∨ 2 ^ 31 < lowWord s else lowWord s < 2 ^ 31 := by
  have hnonneg := lowWord_nonneg (s := s)
  have hlt := lowWord_lt (s := s)
  rw [atoi_eq_lowWord h]
  split_ifs <;> omega

/-- When `atoi` returns a positive number. -/
theorem atoi_pos_iff : 0 < atoi s ↔
    if s.head? = some 45 then 2 ^ 31 < lowWord s else 0 < lowWord s ∧ lowWord s < 2 ^ 31 := by
  have hnonneg := lowWord_nonneg (s := s)
  have hlt := lowWord_lt (s := s)
  rw [atoi_eq_lowWord h]
  split_ifs <;> omega

/-- When `atoi` returns `-1`. -/
theorem atoi_eq_neg_one_iff : atoi s = -1 ↔
    if s.head? = some 45 then lowWord s = 1 else lowWord s = 2 ^ 32 - 1 := by
  have hnonneg := lowWord_nonneg (s := s)
  have hlt := lowWord_lt (s := s)
  rw [atoi_eq_lowWord h]
  split_ifs <;> omega

end Atoi

/-! ## Numbers that have been written -/

theorem isDigit_of_mem_formatNat {c : UInt8} (h : c ∈ formatNat n) : IsDigit c := by
  rw [formatNat, List.mem_map] at h
  obtain ⟨d, hd, rfl⟩ := h
  have hdigit := Nat.isDigit_of_mem_toDigits (by decide) (by decide) hd
  rw [Char.isDigit_iff_toNat] at hdigit
  have h0 : '0'.toNat = 48 := rfl
  have h9 : '9'.toNat = 57 := rfl
  rw [IsDigit, UInt8.le_iff_toNat_le, UInt8.le_iff_toNat_le, UInt8.toNat_ofNat']
  have h48 : UInt8.toNat 48 = 48 := rfl
  have h57 : UInt8.toNat 57 = 57 := rfl
  omega

theorem formatNat_ne_nil (n : ℕ) : formatNat n ≠ [] := by
  rw [formatNat, ne_eq, List.map_eq_nil_iff]
  exact Nat.toDigits_ne_nil

/-- Decimal digits have the value that `Nat.ofDigitChars` reads. -/
theorem digitsVal_map (ds : List Char) (h : ∀ d ∈ ds, d.isDigit) :
    digitsVal (ds.map fun c => UInt8.ofNat c.toNat) = Nat.ofDigitChars 10 ds 0 := by
  induction ds using List.reverseRecOn with
  | nil => rfl
  | append_singleton ds d ih =>
    have hd := h d (by simp)
    rw [Char.isDigit_iff_toNat] at hd
    have h0 : '0'.toNat = 48 := rfl
    have h9 : '9'.toNat = 57 := rfl
    rw [List.map_append, List.map_singleton, digitsVal_concat,
      ih fun d hd => h d (List.mem_append_left _ hd), Nat.ofDigitChars_append,
      Nat.ofDigitChars_cons, Nat.ofDigitChars_nil, UInt8.toNat_ofNat']
    omega

@[simp] theorem digitsVal_formatNat (n : ℕ) : digitsVal (formatNat n) = n := by
  rw [formatNat, digitsVal_map _ fun d hd => Nat.isDigit_of_mem_toDigits (by decide) (by decide) hd,
    Nat.ofDigitChars_ten_toDigits]

/-- `atoi` reads a number in decimal up to the first byte that is no digit. -/
theorem atoi_formatNat {n : ℕ} (hn : n < 2 ^ 31) {s : List UInt8} (hs : ∀ c ∈ s.head?, ¬IsDigit c) :
    atoi (formatNat n ++ s) = n := by
  have htake : (formatNat n ++ s).takeWhile (fun c => 48 ≤ c ∧ c ≤ 57) = formatNat n := by
    rw [List.takeWhile_append_of_pos fun d hd => decide_eq_true (isDigit_of_mem_formatNat hd)]
    cases s with
    | nil => exact List.append_nil _
    | cons c s =>
      rw [List.takeWhile_cons_of_neg (by simpa using hs c rfl), List.append_nil]
  obtain ⟨d, ds, hds⟩ := List.exists_cons_of_ne_nil (formatNat_ne_nil n)
  have hd : IsDigit d := isDigit_of_mem_formatNat (hds ▸ List.mem_cons_self)
  have hspace : ¬isSpace d = true := by
    rw [isSpace, decide_eq_true_eq]
    rintro (rfl | h)
    · exact absurd hd.1 (by decide)
    · exact absurd (UInt8.le_trans hd.1 h.2) (by decide)
  -- There are no spaces and no sign in front of the digits.
  have hdrop : (formatNat n ++ s).dropWhile isSpace = formatNat n ++ s := by
    rw [hds, List.cons_append, List.dropWhile_cons_of_neg hspace]
  have hsign : behindSign (formatNat n ++ s) = formatNat n ++ s := by
    rw [hds, List.cons_append, behindSign, if_neg hd.not_sign]
  have hhead : (formatNat n ++ s).head? ≠ some 45 := by
    rw [hds, List.cons_append, List.head?_cons]
    exact fun h => hd.not_sign (.inr (Option.some.inj h))
  rw [atoi_eq, hdrop, hsign, htake, signed_eq, if_neg hhead, digitsVal_formatNat,
    min_eq_left (by omega), toInt32_of_lt hn]

end Base
