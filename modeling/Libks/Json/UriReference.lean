import Libks.Base.Rfc3986

/-!
# The format of a URI-reference

`is_valid_uri_reference` lets a string through if it is made of the characters of a URI
and of percent-encoded ones, unless what stands in front of its first colon looks like a
scheme and is none. So a bad character is refused (`validChars_of_outside`); but a colon
may also belong to a query or a fragment, and then a reference is refused that begins
with no letter and has no slash in front of it (`isValidUriReference_iff`).
-/

namespace Libks

open Base Base.Rfc3986

/-- `isalnum`, in the C locale. -/
def isalnum (c : UInt8) : Bool := isAlpha c ∨ isDigit c

/-- The loop over the characters. -/
def validChars : List UInt8 → Bool
  | [] => true
  | c :: cs =>
    if c = 37 then
      match cs with
      | h1 :: h2 :: cs => if isHexdig h1 ∧ isHexdig h2 then validChars cs else false
      -- Incomplete percent encoding.
      | _ => false
    else if isalnum c ∨ c ∈ ascii "-._~" ∨ c ∈ ascii ":/?#[]@" ∨ c ∈ ascii "!$&'()*+,;=" then
      validChars cs
    else false

/-- `is_valid_uri_reference`. -/
def isValidUriReference (value : List UInt8) : Bool :=
  if value = [] then true
  else if validChars value = false then false
  else
    match strchr 58 value with
    | none => true
    | some colonPos =>
      let scheme := value.take colonPos
      if scheme = [] ∨ ∃ c ∈ scheme.head?, ¬isAlpha c then
        let hasSlashBeforeColon := 47 ∈ value.take colonPos
        -- Without a slash, this looks like a scheme.
        if ¬hasSlashBeforeColon then scheme.all fun sc => isalnum sc ∨ sc ∈ ascii "+-." else true
      else true

/-- A byte that is no character of a URI, or a percent sign without two hexadecimal digits. -/
def Outside (value : List UInt8) : Prop :=
  (∃ c ∈ value, ¬isUriChar c ∧ c ≠ 37) ∨
    ∃ a b, value = a ++ 37 :: b ∧ ¬∃ x y r, b = x :: y :: r ∧ isHexdig x ∧ isHexdig y

/-- The string does not begin with a letter, and no slash stands in front of its first
    colon. -/
def HidesColon (value : List UInt8) : Prop :=
  (∀ c ∈ value.head?, ¬isAlpha c) ∧ ∃ a b, value = a ++ 58 :: b ∧ 58 ∉ a ∧ 47 ∉ a

/-! ## The characters -/

/-- The filter lets the characters of a URI through. -/
theorem filter_iff (c : UInt8) :
    (isalnum c ∨ c ∈ ascii "-._~" ∨ c ∈ ascii ":/?#[]@" ∨ c ∈ ascii "!$&'()*+,;=") ↔
      isUriChar c := by
  simp only [isalnum, isUriChar, isUnreserved, isGenDelim, isSubDelim, decide_eq_true_eq, or_assoc]

theorem validChars_cons {c : UInt8} (hc : c ≠ 37) (cs : List UInt8) :
    validChars (c :: cs) = if isUriChar c then validChars cs else false := by
  rw [validChars.eq_def]
  dsimp only
  rw [if_neg hc]
  simp only [filter_iff]

theorem validChars_percent (x y : UInt8) (cs : List UInt8) :
    validChars (37 :: x :: y :: cs) =
      if isHexdig x ∧ isHexdig y then validChars cs else false := by
  rw [validChars.eq_def]
  rfl

/-- Words of these are let through. -/
theorem validChars_of_text {value : List UInt8} (h : value ∈ text) : validChars value = true := by
  obtain ⟨ys, rfl, hys⟩ := Language.mem_kstar.1 h
  clear h
  induction ys with
  | nil => rfl
  | cons y ys ih =>
    obtain ⟨hy, hys⟩ := List.forall_mem_cons.1 hys
    have hrest := ih hys
    rcases hy with ⟨c, hc, rfl⟩ | hy
    · have hne : c ≠ 37 := by
        rintro rfl
        exact absurd hc (by decide)
      rw [List.flatten_cons, List.singleton_append, validChars_cons hne, if_pos hc]
      exact hrest
    · obtain ⟨w, hw, -, ⟨b, hb, rfl⟩, rfl⟩ := Language.mem_mul.1 hy
      obtain ⟨-, rfl, -, ⟨a, ha, rfl⟩, rfl⟩ := Language.mem_mul.1 hw
      exact (validChars_percent a b ys.flatten).trans ((if_pos ⟨ha, hb⟩).trans hrest)

/-- What is outside of a string behind a character of a URI. -/
theorem Outside.tail {c : UInt8} {cs : List UInt8} (h : Outside (c :: cs)) (hc : isUriChar c) :
    Outside cs := by
  rcases h with ⟨d, hd, hno, hne⟩ | ⟨a, b, heq, hno⟩
  · rcases List.mem_cons.1 hd with rfl | hd
    · exact absurd hc hno
    · exact .inl ⟨d, hd, hno, hne⟩
  · cases a with
    | nil =>
      obtain ⟨rfl, -⟩ := List.cons.inj heq
      exact absurd hc (by decide)
    | cons d a => exact .inr ⟨a, b, (List.cons.inj heq).2, hno⟩

/-- What is outside of a string behind a percent sign and two digits. -/
theorem Outside.tail_percent {x y : UInt8} {cs : List UInt8} (h : Outside (37 :: x :: y :: cs))
    (hx : isHexdig x) (hy : isHexdig y) : Outside cs := by
  have hrest : Outside (x :: y :: cs) := by
    rcases h with ⟨d, hd, hno, hne⟩ | ⟨a, b, heq, hno⟩
    · rcases List.mem_cons.1 hd with rfl | hd
      · exact absurd rfl hne
      · exact .inl ⟨d, hd, hno, hne⟩
    · cases a with
      | nil => exact absurd ⟨x, y, cs, (List.cons.inj heq).2.symm, hx, hy⟩ hno
      | cons d a => exact .inr ⟨a, b, (List.cons.inj heq).2, hno⟩
  exact (hrest.tail (isUriChar_of_isHexdig hx)).tail (isUriChar_of_isHexdig hy)

theorem Outside.ne_nil {value : List UInt8} (h : Outside value) : value ≠ [] := by
  rintro rfl
  rcases h with ⟨c, hc, -⟩ | ⟨a, b, heq, -⟩
  · cases hc
  · exact List.append_ne_nil_of_right_ne_nil a (List.cons_ne_nil 37 b) heq.symm

/-- A bad byte or percent sign is found. -/
theorem validChars_of_outside {value : List UInt8} (h : Outside value) :
    validChars value = false := by
  induction hn : value.length using Nat.strongRecOn generalizing value with
  | ind n ih =>
    subst hn
    cases value with
    | nil => exact absurd rfl h.ne_nil
    | cons c cs =>
      by_cases hc : c = 37
      · subst hc
        rcases cs with _ | ⟨x, _ | ⟨y, cs⟩⟩
        · rfl
        · rfl
        · rw [validChars_percent]
          split_ifs with hhex
          · refine ih cs.length ?_ (h.tail_percent hhex.1 hhex.2) rfl
            simp only [List.length_cons]
            omega
          · rfl
      · rw [validChars_cons hc]
        split_ifs with huri
        · exact ih cs.length (by simp) (h.tail huri) rfl
        · rfl

/-! ## The first colon -/

/-- The colon of a string, with what stands in front of it. -/
theorem isValidUriReference_colon {a b : List UInt8} (hvalid : validChars (a ++ 58 :: b) = true)
    (ha : 58 ∉ a) :
    isValidUriReference (a ++ 58 :: b) =
      if (a = [] ∨ ∃ c ∈ a.head?, ¬isAlpha c) ∧ 47 ∉ a then
        a.all fun sc => isalnum sc ∨ sc ∈ ascii "+-."
      else true := by
  have hne : a ++ 58 :: b ≠ [] := List.append_ne_nil_of_right_ne_nil a (List.cons_ne_nil 58 b)
  rw [isValidUriReference, if_neg hne, if_neg (by rw [hvalid]; decide), strchr_append_cons ha]
  dsimp only
  rw [List.take_left]
  by_cases hscheme : a = [] ∨ ∃ c ∈ a.head?, ¬isAlpha c
  · by_cases hslash : 47 ∈ a
    · rw [if_pos hscheme, if_neg (not_not_intro hslash), if_neg fun h => h.2 hslash]
    · rw [if_pos hscheme, if_pos hslash, if_pos ⟨hscheme, hslash⟩]
  · rw [if_neg hscheme, if_neg fun h => hscheme h.1]

/-- What does not begin with a letter, in front of a colon. -/
theorem head_append_colon {a b : List UInt8} :
    (∀ c ∈ (a ++ 58 :: b).head?, ¬isAlpha c) ↔ a = [] ∨ ∃ c ∈ a.head?, ¬isAlpha c := by
  cases a with
  | nil => simpa using (by decide : isAlpha 58 = false)
  | cons c a => simp

/-- A relative reference with a hidden colon is refused: a query or a fragment begins in front
    of the colon. -/
theorem not_isValid_of_hidesColon {value : List UInt8} (h : value ∈ uriReference)
    (hhides : HidesColon value) : isValidUriReference value = false := by
  have hvalid := validChars_of_text (uriReference_le_text h)
  obtain ⟨hhead, a, b, rfl, ha, hslash⟩ := hhides
  have hrel : a ++ 58 :: b ∈ relativeRef := by
    refine h.resolve_left fun huri => ?_
    obtain ⟨c, t, heq, hc⟩ := head_of_uri huri
    rw [heq] at hhead
    exact hhead c rfl hc
  obtain ⟨a', d, b', heq, ha', hd⟩ := exists_delim_of_relativeRef hrel (by simp)
  have hfacts : ∀ d ∈ ascii "/?#", d ≠ 58 ∧
      (d ≠ 47 → decide (isalnum d ∨ d ∈ ascii "+-.") = false) := by decide +kernel
  obtain ⟨hcolon, hscheme⟩ := hfacts d hd
  have hda : d ∈ a := by
    rcases List.append_eq_append_iff.1 heq with ⟨z, rfl, hz⟩ | ⟨z, rfl, hz⟩
    · cases z with
      | nil => exact absurd (List.cons.inj hz).1.symm hcolon
      | cons e z =>
        obtain ⟨rfl, -⟩ := List.cons.inj hz
        exact absurd (by simp) ha'
    · cases z with
      | nil => exact absurd (List.cons.inj hz).1 hcolon
      | cons e z =>
        obtain ⟨rfl, -⟩ := List.cons.inj hz
        simp
  rw [isValidUriReference_colon hvalid ha, if_pos ⟨head_append_colon.1 hhead, hslash⟩]
  exact List.all_eq_false.2 ⟨d, hda, by rw [hscheme fun heq => hslash (heq ▸ hda)]; decide⟩

/-- Any other one is let through. -/
theorem isValid_of_not_hidesColon {value : List UInt8} (h : value ∈ uriReference)
    (hhides : ¬HidesColon value) : isValidUriReference value = true := by
  have hvalid := validChars_of_text (uriReference_le_text h)
  by_cases hcolon : 58 ∈ value
  · obtain ⟨a, b, rfl, ha⟩ := List.eq_append_cons_of_mem hcolon
    rw [isValidUriReference_colon hvalid ha, if_neg]
    exact fun hno => hhides ⟨head_append_colon.2 hno.1, a, b, rfl, ha, hno.2⟩
  · have hno : ¬validChars value = false := by
      rw [hvalid]
      decide
    rw [isValidUriReference, if_neg hno, strchr_eq_none_iff.2 hcolon]
    exact ite_self _

theorem not_isValid_of_outside {value : List UInt8} (h : Outside value) :
    isValidUriReference value = false := by
  rw [isValidUriReference, if_neg h.ne_nil, if_pos (validChars_of_outside h)]

/-- **The checker knows the URI-references but for a hidden colon.** It lets a URI-reference
    through and refuses a bad byte or percent sign if and only if the string is no
    URI-reference that begins with no letter and has no slash in front of its first colon. -/
theorem isValidUriReference_iff (value : List UInt8) :
    (value ∈ uriReference → isValidUriReference value = true) ∧
      (Outside value → isValidUriReference value = false) ↔
    ¬(value ∈ uriReference ∧ HidesColon value) := by
  constructor
  · rintro ⟨hall, -⟩ ⟨h, hhides⟩
    exact Bool.false_ne_true ((not_isValid_of_hidesColon h hhides).symm.trans (hall h))
  · exact fun hno => ⟨fun h => isValid_of_not_hidesColon h fun hhides => hno ⟨h, hhides⟩,
      not_isValid_of_outside⟩

/-- `?a:b` is a URI-reference, and refused. -/
theorem not_isValidUriReference :
    ¬∀ value, (value ∈ uriReference → isValidUriReference value = true) ∧
      (Outside value → isValidUriReference value = false) := by
  intro h
  have hsymbol : ∀ c ∈ ascii "a:b", [c] ∈ pchar + lit "/" + lit "?" := by
    intro c hc
    refine .inl (.inl (.inl ⟨c, ?_, rfl⟩))
    revert c
    decide +kernel
  have hquery : ascii "a:b" ∈ query := by
    refine Language.mem_kstar.2 ⟨(ascii "a:b").map fun c => [c], by decide, fun y hy => ?_⟩
    obtain ⟨c, hc, rfl⟩ := List.mem_map.1 hy
    exact hsymbol c hc
  have href : ascii "?a:b" ∈ uriReference := by
    refine .inr (Language.mem_mul.2 ⟨[], .inr rfl, ascii "?a:b", ?_, rfl⟩)
    refine Language.mem_mul.2 ⟨ascii "?a:b", .inr ?_, [], .inl rfl, by decide⟩
    exact Language.mem_mul.2 ⟨ascii "?", rfl, ascii "a:b", hquery, by decide⟩
  have hfalse : isValidUriReference (ascii "?a:b") = false := by decide
  exact Bool.false_ne_true (hfalse.symm.trans ((h _).1 href))

end Libks
