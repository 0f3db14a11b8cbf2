import Mathlib.Data.List.TakeWhile
import Mathlib.Tactic.Common

/-!
# Percent-encoding

Bytes written as `%` and two hexadecimal digits. An encoder may write any byte
so, and has to write some so (`Encoded`); a decoder replaces every `%` with two
digits behind it by the byte they denote (`percentDecode`), and gives the bytes
back if `%` itself is always encoded (`Encoded.decodeWith_append`).

`scanHex2` is what the C library makes of `%2x`, which is not the same: it also
takes white space, a sign, a single digit, and a `0x` that no digit follows.
-/

namespace Base

/-! ## Hexadecimal digits -/

/-- The value of a hexadecimal digit. -/
def hexVal (c : UInt8) : Option ℕ :=
  if 48 ≤ c ∧ c ≤ 57 then some (c.toNat - 48)
  else if 65 ≤ c ∧ c ≤ 70 then some (c.toNat - 55)
  else if 97 ≤ c ∧ c ≤ 102 then some (c.toNat - 87)
  else none

/-- The byte that two digits denote. -/
def hexByte (a b : UInt8) : Option UInt8 := do
  let d ← hexVal a
  let e ← hexVal b
  return UInt8.ofNat (16 * d + e)

/-- The digit with the value `d`, in upper case. -/
def hexDigit (d : ℕ) : UInt8 := UInt8.ofNat (if d < 10 then 48 + d else 55 + d)

/-- `isspace` in the C locale. -/
def isSpace (c : UInt8) : Bool := c = 32 ∨ (9 ≤ c ∧ c ≤ 13)

/-- `sscanf (s, "%2x", …)`, as the byte that is left of the number. White space
    does not count as part of the field; what counts are two characters. The
    field may end behind `0x`, which is then the number 0. -/
def scanHex2 (s : List UInt8) : Option UInt8 :=
  match s.dropWhile isSpace with
  | [] => none
  | [a] => (hexVal a).map UInt8.ofNat
  | a :: b :: _ =>
    if a = 43 then (hexVal b).map UInt8.ofNat
    else if a = 45 then (hexVal b).map fun d => -UInt8.ofNat d
    else (hexByte a b).or ((hexVal a).map UInt8.ofNat)

theorem hexVal_hexDigit {d : ℕ} (h : d < 16) : hexVal (hexDigit d) = some d := by
  revert d
  decide

theorem hexVal_lt {c : UInt8} {d : ℕ} (h : hexVal c = some d) : d < 16 := by
  have hall : ∀ n : Fin 256, ∀ d ∈ hexVal (UInt8.ofNat n), d < 16 := by decide +kernel
  exact hall ⟨c.toNat, c.toNat_lt⟩ d (by simpa using h)

theorem hexByte_eq_some_iff {a b v : UInt8} :
    hexByte a b = some v ↔
      ∃ d e, hexVal a = some d ∧ hexVal b = some e ∧ UInt8.ofNat (16 * d + e) = v := by
  simp only [hexByte, Option.bind_eq_bind, Option.bind_eq_some_iff, Option.pure_def,
    Option.some_inj]
  exact exists_congr fun d => by
    rw [← exists_and_left]

/-- Every byte has its two digits. -/
theorem hexByte_hexDigit (c : UInt8) :
    hexByte (hexDigit (c.toNat / 16)) (hexDigit (c.toNat % 16)) = some c := by
  have hc := c.toNat_lt
  rw [hexByte_eq_some_iff]
  refine ⟨_, _, hexVal_hexDigit (by omega), hexVal_hexDigit (by omega), ?_⟩
  rw [Nat.div_add_mod, UInt8.ofNat_toNat]

/-- Only the digits `25` denote `%`. -/
theorem hexByte_eq_percent {a b : UInt8} (h : hexByte a b = some 37) : a = 50 ∧ b = 53 := by
  obtain ⟨d, e, hd, he, hv⟩ := hexByte_eq_some_iff.1 h
  have hd' := hexVal_lt hd
  have he' := hexVal_lt he
  have hde : 16 * d + e = 37 := by
    have := congrArg UInt8.toNat hv
    simpa [Nat.mod_eq_of_lt (show 16 * d + e < 256 by omega)] using this
  have hdigit : ∀ n : Fin 256, ∀ d ∈ hexVal (UInt8.ofNat n),
      (d = 2 → n = 50) ∧ (d = 5 → n = 53) := by
    decide +kernel
  obtain rfl : d = 2 := by omega
  obtain rfl : e = 5 := by omega
  have ha := (hdigit ⟨a.toNat, a.toNat_lt⟩ 2 (by simpa using hd)).1 rfl
  have hb := (hdigit ⟨b.toNat, b.toNat_lt⟩ 5 (by simpa using he)).2 rfl
  exact ⟨UInt8.toNat_inj.1 (Fin.val_eq_of_eq ha), UInt8.toNat_inj.1 (Fin.val_eq_of_eq hb)⟩

/-- A digit is neither white space nor a sign. -/
theorem hexVal_plain {c : UInt8} {d : ℕ} (h : hexVal c = some d) :
    isSpace c = false ∧ c ≠ 37 ∧ c ≠ 43 ∧ c ≠ 45 := by
  refine ⟨?_, ?_⟩
  · have hall : ∀ n : Fin 256, (hexVal (UInt8.ofNat n)).isSome →
        isSpace (UInt8.ofNat n) = false := by
      decide +kernel
    simpa using hall ⟨c.toNat, c.toNat_lt⟩ (by simp [h])
  · refine ⟨?_, ?_, ?_⟩
    all_goals
      rintro rfl
      cases h

/-! ## The scanner -/

/-- Two digits are what the scanner takes first. -/
theorem scanHex2_of_hexByte {a b v : UInt8} (h : hexByte a b = some v) (s : List UInt8) :
    scanHex2 (a :: b :: s) = some v := by
  obtain ⟨d, -, hd, -⟩ := hexByte_eq_some_iff.1 h
  obtain ⟨hs, -, hplus, hminus⟩ := hexVal_plain hd
  rw [scanHex2, List.dropWhile_cons_of_neg (by rw [hs]; exact Bool.false_ne_true)]
  dsimp only
  rw [if_neg hplus, if_neg hminus, h, Option.some_or]

theorem map_hexVal_ne_percent {a : UInt8} : (hexVal a).map UInt8.ofNat ≠ some 37 := by
  intro h
  obtain ⟨d, hd, hv⟩ := Option.map_eq_some_iff.1 h
  have hlt := hexVal_lt hd
  have := congrArg UInt8.toNat hv
  rw [UInt8.toNat_ofNat', Nat.mod_eq_of_lt (by omega)] at this
  subst this
  exact absurd hlt (by decide)

/-- Where the scanner finds the code of `%`, its two digits stand behind the
    white space. -/
theorem scanHex2_eq_percent {s : List UInt8} (h : scanHex2 s = some 37) :
    ∃ ws r, s = ws ++ 50 :: 53 :: r ∧ ∀ c ∈ ws, isSpace c := by
  refine ⟨s.takeWhile isSpace, ?_⟩
  suffices hr : ∃ r, s.dropWhile isSpace = 50 :: 53 :: r by
    obtain ⟨r, hr⟩ := hr
    refine ⟨r, ?_, fun c hc => List.mem_takeWhile_imp hc⟩
    rw [← hr, List.takeWhile_append_dropWhile]
  rw [scanHex2] at h
  split at h
  · cases h
  · exact absurd h map_hexVal_ne_percent
  · rename_i a b r hdrop
    split_ifs at h with hplus hminus
    · exact absurd h map_hexVal_ne_percent
    · obtain ⟨d, hd, hv⟩ := Option.map_eq_some_iff.1 h
      have hne : ∀ d < 16, -UInt8.ofNat d ≠ 37 := by decide
      exact absurd hv (hne d (hexVal_lt hd))
    · rcases Option.or_eq_some_iff.1 h with h | ⟨-, h⟩
      · obtain ⟨rfl, rfl⟩ := hexByte_eq_percent h
        exact ⟨r, hdrop⟩
      · exact absurd h map_hexVal_ne_percent

/-! ## Percent-encoding -/

/-- The text with every `%` that `scan` accepts, and the two bytes behind it,
    replaced by the byte `scan` finds. -/
def decodeWith (scan : List UInt8 → Option UInt8) : List UInt8 → List UInt8
  | [] => []
  | [c] => [c]
  | [c, a] => [c, a]
  | c :: a :: b :: s =>
    match if c = 37 then scan (a :: b :: s) else none with
    | some v => v :: decodeWith scan s
    | none => c :: decodeWith scan (a :: b :: s)

/-- The byte that the first two bytes denote as digits. -/
def twoDigits : List UInt8 → Option UInt8
  | a :: b :: _ => hexByte a b
  | _ => none

/-- The text with every `%` and its two digits replaced by the byte they denote. -/
def percentDecode : List UInt8 → List UInt8 := decodeWith twoDigits

/-- The text is an encoding of the bytes, in which those in `must` are encoded. -/
inductive Encoded (must : UInt8 → Prop) : List UInt8 → List UInt8 → Prop
  | nil : Encoded must [] []
  | raw {c : UInt8} {bs t : List UInt8} (hc : ¬must c) (h : Encoded must bs t) :
      Encoded must (c :: bs) (c :: t)
  | escape {c a b : UInt8} {bs t : List UInt8} (hc : hexByte a b = some c)
      (h : Encoded must bs t) : Encoded must (c :: bs) (37 :: a :: b :: t)

/-- The bytes with every one that is unsafe written as `%` and its two digits. -/
def percentEncode (isUnsafe : UInt8 → Bool) (s : List UInt8) : List UInt8 :=
  s.flatMap fun c =>
    if isUnsafe c then [37, hexDigit (c.toNat / 16), hexDigit (c.toNat % 16)] else [c]

variable {scan : List UInt8 → Option UInt8} {isUnsafe : UInt8 → Bool} {a b c v : UInt8}

theorem decodeWith_cons_of_ne (hc : c ≠ 37) (s : List UInt8) :
    decodeWith scan (c :: s) = c :: decodeWith scan s := by
  match s with
  | [] | [a] => rfl
  | a :: b :: s => rw [decodeWith, if_neg hc]

theorem decodeWith_some {s : List UInt8} (h : scan (a :: b :: s) = some v) :
    decodeWith scan (37 :: a :: b :: s) = v :: decodeWith scan s := by
  rw [decodeWith, if_pos rfl, h]

theorem decodeWith_none {s : List UInt8} (h : scan (a :: b :: s) = none) :
    decodeWith scan (37 :: a :: b :: s) = 37 :: decodeWith scan (a :: b :: s) := by
  rw [decodeWith, if_pos rfl, h]

theorem decodeWith_append_of_notMem {s : List UInt8} (h : 37 ∉ s) (t : List UInt8) :
    decodeWith scan (s ++ t) = s ++ decodeWith scan t := by
  induction s with
  | nil => rfl
  | cons c s ih =>
    rw [List.mem_cons, not_or] at h
    rw [List.cons_append, decodeWith_cons_of_ne (Ne.symm h.1), ih h.2, List.cons_append]

/-- An encoding of `%` among others is undone by every scanner that takes two
    digits where they stand. -/
theorem Encoded.decodeWith_append {must : UInt8 → Prop} {bs t : List UInt8}
    (h : Encoded must bs t) (hmust : must 37)
    (hscan : ∀ a b v s, hexByte a b = some v → scan (a :: b :: s) = some v) (s : List UInt8) :
    decodeWith scan (t ++ s) = bs ++ decodeWith scan s := by
  induction h with
  | nil => rfl
  | @raw c bs t hc _ ih =>
    have hne : c ≠ 37 := by
      rintro rfl
      exact hc hmust
    rw [List.cons_append, decodeWith_cons_of_ne hne, ih, List.cons_append]
  | escape hc _ ih =>
    rw [List.cons_append, List.cons_append, List.cons_append,
      decodeWith_some (hscan _ _ _ _ hc), ih, List.cons_append]

theorem percentEncode_cons (c : UInt8) (s : List UInt8) :
    percentEncode isUnsafe (c :: s) =
      (if isUnsafe c then [37, hexDigit (c.toNat / 16), hexDigit (c.toNat % 16)] else [c]) ++
        percentEncode isUnsafe s :=
  List.flatMap_cons

theorem percentEncode_of_escaped (hc : isUnsafe c = true) (s : List UInt8) :
    percentEncode isUnsafe (c :: s) =
      37 :: hexDigit (c.toNat / 16) :: hexDigit (c.toNat % 16) :: percentEncode isUnsafe s := by
  rw [percentEncode_cons, if_pos hc]
  rfl

theorem percentEncode_of_safe (hc : isUnsafe c = false) (s : List UInt8) :
    percentEncode isUnsafe (c :: s) = c :: percentEncode isUnsafe s := by
  rw [percentEncode_cons, if_neg (by rw [hc]; exact Bool.false_ne_true)]
  rfl

/-- What is written is an encoding. -/
theorem encoded_percentEncode (s : List UInt8) :
    Encoded (fun c => isUnsafe c = true) s (percentEncode isUnsafe s) := by
  induction s with
  | nil => exact .nil
  | cons c s ih =>
    cases hc : isUnsafe c with
    | true =>
      rw [percentEncode_of_escaped hc]
      exact .escape (hexByte_hexDigit c) ih
    | false =>
      rw [percentEncode_of_safe hc]
      exact .raw (by rw [hc]; exact Bool.false_ne_true) ih

/-- A byte that must be encoded does not come in an encoding, unless an escape
    may have it. -/
theorem Encoded.notMem {must : UInt8 → Prop} {bs t : List UInt8} (h : Encoded must bs t)
    (hc : must c) (hpercent : c ≠ 37) (hhex : hexVal c = none) : c ∉ t := by
  induction h with
  | nil => exact List.not_mem_nil
  | @raw d bs t hd _ ih =>
    rw [List.mem_cons, not_or]
    refine ⟨?_, ih⟩
    rintro rfl
    exact hd hc
  | @escape d a b bs t hd _ ih =>
    obtain ⟨x, y, hx, hy, -⟩ := hexByte_eq_some_iff.1 hd
    have hdigit {a : UInt8} {x : ℕ} (hx : hexVal a = some x) : c ≠ a := by
      rintro rfl
      cases hhex.symm.trans hx
    simp only [List.mem_cons, not_or]
    exact ⟨hpercent, hdigit hx, hdigit hy, ih⟩

/-- An encoding of bytes without NULs has none. -/
theorem Encoded.zero_notMem {must : UInt8 → Prop} {bs t : List UInt8} (h : Encoded must bs t)
    (hbs : 0 ∉ bs) : 0 ∉ t := by
  induction h with
  | nil => exact hbs
  | raw _ _ ih =>
    rw [List.mem_cons, not_or] at hbs ⊢
    exact ⟨hbs.1, ih hbs.2⟩
  | @escape c a b bs t hc _ ih =>
    rw [List.mem_cons, not_or] at hbs
    obtain ⟨d, e, hd, he, -⟩ := hexByte_eq_some_iff.1 hc
    have hzero {c : UInt8} {d : ℕ} (h : hexVal c = some d) : 0 ≠ c := by
      rintro rfl
      cases h
    simp only [List.mem_cons, not_or]
    exact ⟨by decide, hzero hd, hzero he, ih hbs.2⟩

end Base
