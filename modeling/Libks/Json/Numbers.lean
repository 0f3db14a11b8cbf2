import Libks.Base.CString
import Libks.Base.Decimal
import Libks.Fault
import Libks.Json.Check

/-!
# Numbers in JSON strings

`ks_json_check_string_is_positive` and its siblings let a string through `ks_is_number`,
and give it to `atoi`. The filter lets digits and points through, however many there
are (`ksIsNumber_iff`); the conversion stops at the first point, and wraps. So what is
accepted is not what the number is (`checks_tell_iff`): a string without a digit is not
negative, `0.5` is not positive, `-1.5` is minus one, and `4294967297` is one.
-/

namespace Libks

open Base

/-! ## The checks -/

/-- `ks_is_number`. -/
def ksIsNumber (str : List UInt8) : Bool :=
  (behindSign str).all fun c => c = 46 ∨ (47 < c ∧ c < 58)

/-- What the checks of a number in a string have in common. There has to be a string
    behind the pointer of a string item. -/
def ksJsonCheckString (test : ℤ → Bool) (item : Option JsonItem) : Except Fault Bool :=
  if !ksJsonTypeIs item .string then .ok false
  else match item.bind JsonItem.valuestring with
    | none => .error .outOfBounds
    | some str => .ok (ksIsNumber str && test (atoi str))

/-- `ks_json_check_string_is_not_negative`. -/
def ksJsonCheckStringIsNotNegative : Option JsonItem → Except Fault Bool :=
  ksJsonCheckString fun n => 0 ≤ n

/-- `ks_json_check_string_is_positive`. -/
def ksJsonCheckStringIsPositive : Option JsonItem → Except Fault Bool :=
  ksJsonCheckString fun n => 0 < n

/-- `ks_json_check_string_is_positive_or_neg_one`. -/
def ksJsonCheckStringIsPositiveOrNegOne : Option JsonItem → Except Fault Bool :=
  ksJsonCheckString fun n => 0 < n ∨ n = -1

/-! ## What they are to tell -/

/-- An item that is a string. -/
def stringItem (s : List UInt8) : JsonItem := { type := .string, valuestring := some s }

/-- A check accepts `s` if and only if it is a numeral whose value `p` holds of. -/
def Tells (check : Option JsonItem → Except Fault Bool) (p : ℚ → Prop) (s : List UInt8) : Prop :=
  ∃ ok, check (some (stringItem s)) = .ok ok ∧
    (ok = true ↔ ∃ n : Numeral, n.text = s ∧ p n.value)

/-- Digits and points behind a sign. -/
def Digital (s : List UInt8) : Prop := ∀ c ∈ behindSign s, c = 46 ∨ IsDigit c

instance : DecidablePred Digital := fun s =>
  List.decidableBAll (fun c => c = 46 ∨ IsDigit c) (behindSign s)

section Checks

variable {s : List UInt8}

/-- The filter. -/
theorem ksIsNumber_iff : ksIsNumber s = true ↔ Digital s := by
  rw [ksIsNumber, List.all_eq_true]
  refine forall₂_congr fun c _ => ?_
  rw [decide_eq_true_eq, IsDigit, UInt8.lt_iff_toNat_lt, UInt8.lt_iff_toNat_lt,
    UInt8.le_iff_toNat_le, UInt8.le_iff_toNat_le]
  exact or_congr_right (and_congr_right' Nat.lt_succ_iff)

/-- No white space in front of digits, a point or a sign. -/
theorem Digital.head (h : Digital s) : ∀ c ∈ s.head?, isSpace c = false := by
  cases s with
  | nil => simp
  | cons c s =>
    rintro _ ⟨⟩
    by_cases hsign : c = 43 ∨ c = 45
    · obtain rfl | rfl := hsign <;> rfl
    rw [Digital, behindSign, if_neg hsign] at h
    obtain rfl | hdigit := h c List.mem_cons_self
    · rfl
    · have h48 := hdigit.toNat
      rw [isSpace, decide_eq_false_iff_not, UInt8.le_iff_toNat_le, UInt8.le_iff_toNat_le]
      rintro (rfl | ⟨-, h13⟩)
      · exact absurd hdigit (by decide)
      · have h13' : c.toNat ≤ 13 := h13
        omega

/-- A check tells what it is to tell if the conversion says so, for a string that the
    filter lets through. -/
theorem tells_iff_of {test : ℤ → Bool} {p : ℚ → Prop} :
    Tells (ksJsonCheckString test) p s ↔
      (Digital s → (test (atoi s) = true ↔ ∃ n : Numeral, n.text = s ∧ p n.value)) := by
  have hrun : ksJsonCheckString test (some (stringItem s)) =
      .ok (ksIsNumber s && test (atoi s)) := rfl
  rw [Tells, hrun]
  refine ⟨fun ⟨ok, hok, h⟩ hdigital => ?_, fun h => ⟨_, rfl, ?_⟩⟩
  · cases hok
    rwa [ksIsNumber_iff.2 hdigital, Bool.true_and] at h
  · rw [Bool.and_eq_true, ksIsNumber_iff]
    refine ⟨fun ⟨hdigital, htest⟩ => (h hdigital).1 htest, fun hn => ?_⟩
    obtain ⟨n, rfl, -⟩ := id hn
    exact ⟨n.isNumeral_text.1, (h n.isNumeral_text.1).2 hn⟩

end Checks

/-! ## Where they tell it -/

section Told

variable (s : List UInt8)

/-- Without a minus, all that is asked for is that the number is one, and does not wrap
    to a negative one; what is no number has to wrap. With a minus, it has to be zero, or
    to stay negative. -/
def NotNegativeTold : Prop :=
  if s.head? = some 45 then IsNumeral s ∧ Zeros (behindSign s) ∨ 0 < lowWord s ∧ lowWord s ≤ 2 ^ 31
  else IsNumeral s ↔ lowWord s < 2 ^ 31

/-- Without a minus, a number with a digit that is not zero must not lose it behind the
    point or wrap; with a minus, nothing must wrap to a positive number. -/
def PositiveTold : Prop :=
  if s.head? = some 45 then lowWord s ≤ 2 ^ 31
  else IsNumeral s ∧ ¬Zeros (behindSign s) ↔ 0 < lowWord s ∧ lowWord s < 2 ^ 31

/-- As for a positive number, except that the word `2 ^ 32 - 1` is taken for minus one, and
    that with a minus there are `-1`, `-1.0` and so on, but no other string whose number
    in front of the point is, or wraps to, one. -/
def PositiveOrNegOneTold : Prop :=
  if s.head? = some 45 then
    IsNumeral s ∧ digitsVal (wholeDigits s) = 1 ∧ Zeros (behindWhole s) ∨
      lowWord s ≠ 1 ∧ lowWord s ≤ 2 ^ 31
  else IsNumeral s ∧ ¬Zeros (behindSign s) ↔
    0 < lowWord s ∧ lowWord s < 2 ^ 31 ∨ lowWord s = 2 ^ 32 - 1

theorem isNotNegative_tells_iff :
    Tells ksJsonCheckStringIsNotNegative (0 ≤ ·) s ↔ (Digital s → NotNegativeTold s) := by
  have hvalue := Numeral.exists_value_iff (s := s) (p := (0 ≤ ·))
    (q := fun s => s.head? ≠ some 45 ∨ Zeros (behindSign s)) Numeral.value_nonneg_iff
  have hzero : Zeros (behindSign s) → lowWord s = 0 := lowWord_of_zeros
  have hnonneg := lowWord_nonneg (s := s)
  rw [ksJsonCheckStringIsNotNegative, tells_iff_of, hvalue]
  refine forall_congr' fun hdigital => ?_
  rw [decide_eq_true_eq, atoi_nonneg_iff hdigital.head, NotNegativeTold]
  by_cases hminus : s.head? = some 45
  · rw [if_pos hminus, if_pos hminus, or_iff_right (not_not.2 hminus)]
    -- A zero with a minus is the one string here that has to be accepted.
    by_cases hnumeral : IsNumeral s ∧ Zeros (behindSign s)
    · exact iff_of_true (iff_of_true (.inl (hzero hnumeral.2)) hnumeral) (.inl hnumeral)
    · rw [iff_false_right hnumeral, or_iff_right hnumeral]
      omega
  · rw [if_neg hminus, if_neg hminus, and_iff_left (.inl hminus)]
    exact iff_comm

theorem isPositive_tells_iff :
    Tells ksJsonCheckStringIsPositive (0 < ·) s ↔ (Digital s → PositiveTold s) := by
  have hvalue := Numeral.exists_value_iff (s := s) (p := (0 < ·))
    (q := fun s => s.head? ≠ some 45 ∧ ¬Zeros (behindSign s)) Numeral.value_pos_iff
  rw [ksJsonCheckStringIsPositive, tells_iff_of, hvalue]
  refine forall_congr' fun hdigital => ?_
  rw [decide_eq_true_eq, atoi_pos_iff hdigital.head, PositiveTold]
  by_cases hminus : s.head? = some 45
  · have hnone : ¬(IsNumeral s ∧ s.head? ≠ some 45 ∧ ¬Zeros (behindSign s)) :=
      fun h => h.2.1 hminus
    rw [if_pos hminus, if_pos hminus, iff_false_right hnone, not_lt]
  · rw [if_neg hminus, if_neg hminus, and_iff_right hminus]
    exact iff_comm

theorem isPositiveOrNegOne_tells_iff :
    Tells ksJsonCheckStringIsPositiveOrNegOne (fun v => 0 < v ∨ v = -1) s ↔
      (Digital s → PositiveOrNegOneTold s) := by
  have hvalue := Numeral.exists_value_iff (s := s) (p := fun v => 0 < v ∨ v = -1)
    (q := fun s => s.head? ≠ some 45 ∧ ¬Zeros (behindSign s) ∨ s.head? = some 45 ∧
      digitsVal (wholeDigits s) = 1 ∧ Zeros (behindWhole s))
    fun n => or_congr n.value_pos_iff n.value_eq_neg_one_iff
  have hone (h : digitsVal (wholeDigits s) = 1) : lowWord s = 1 := by
    rw [lowWord_of_lt (by omega) (by omega), h]
  rw [ksJsonCheckStringIsPositiveOrNegOne, tells_iff_of, hvalue]
  refine forall_congr' fun hdigital => ?_
  rw [decide_eq_true_eq, atoi_pos_iff hdigital.head, atoi_eq_neg_one_iff hdigital.head,
    PositiveOrNegOneTold]
  by_cases hminus : s.head? = some 45
  · simp only [hminus, ne_eq, not_true_eq_false, false_and, true_and, false_or, if_true]
    by_cases hnumeral : IsNumeral s ∧ digitsVal (wholeDigits s) = 1 ∧ Zeros (behindWhole s)
    · have hread := hone hnumeral.2.1
      exact iff_of_true (iff_of_true (.inr hread) hnumeral) (.inl hnumeral)
    · rw [iff_false_right hnumeral, or_iff_right hnumeral]
      omega
  · simp only [hminus, ne_eq, not_false_eq_true, true_and, false_and, or_false, if_false]
    exact iff_comm

/-- A whole number that fits an `int` is told by every check. -/
theorem checks_tell_of_lt (hnumeral : IsNumeral s) (hwhole : Zeros (behindWhole s))
    (hlt : digitsVal (wholeDigits s) < 2 ^ 31) :
    Tells ksJsonCheckStringIsNotNegative (0 ≤ ·) s ∧
    Tells ksJsonCheckStringIsPositive (0 < ·) s ∧
    Tells ksJsonCheckStringIsPositiveOrNegOne (fun v => 0 < v ∨ v = -1) s := by
  have hnonneg := digitsVal_nonneg fun c => isDigit_of_mem_wholeDigits (s := s)
  have hlow : lowWord s = digitsVal (wholeDigits s) := lowWord_of_lt hnonneg (by omega)
  rw [isNotNegative_tells_iff, isPositive_tells_iff, isPositiveOrNegOne_tells_iff,
    NotNegativeTold, PositiveTold, PositiveOrNegOneTold, zeros_behindSign_iff, hlow]
  refine ⟨fun _ => ?_, fun _ => ?_, fun _ => ?_⟩
  all_goals
    simp only [hnumeral, hwhole, true_and, and_true, true_iff]
    split_ifs <;> omega

/-- Where each of the three checks tells what it is to tell. -/
theorem checks_tell_iff :
    (Tells ksJsonCheckStringIsNotNegative (0 ≤ ·) s ↔ (Digital s → NotNegativeTold s)) ∧
    (Tells ksJsonCheckStringIsPositive (0 < ·) s ↔ (Digital s → PositiveTold s)) ∧
    (Tells ksJsonCheckStringIsPositiveOrNegOne (fun v => 0 < v ∨ v = -1) s ↔
      (Digital s → PositiveOrNegOneTold s)) :=
  ⟨isNotNegative_tells_iff s, isPositive_tells_iff s, isPositiveOrNegOne_tells_iff s⟩

/-- A string without a digit is not negative, `0.5` is not positive, `-1.5` is minus one, and
    `2147483648` is not positive. -/
theorem not_checks_tell :
    ¬Tells ksJsonCheckStringIsNotNegative (0 ≤ ·) [] ∧
    ¬Tells ksJsonCheckStringIsPositive (0 < ·) (ascii "0.5") ∧
    ¬Tells ksJsonCheckStringIsPositiveOrNegOne (fun v => 0 < v ∨ v = -1) (ascii "-1.5") ∧
    ¬Tells ksJsonCheckStringIsPositive (0 < ·) (ascii "2147483648") := by
  rw [isNotNegative_tells_iff, isPositive_tells_iff, isPositive_tells_iff,
    isPositiveOrNegOne_tells_iff, NotNegativeTold, PositiveTold, PositiveTold,
    PositiveOrNegOneTold]
  decide

end Told

end Libks
