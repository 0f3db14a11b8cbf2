import Libks.Base.CString
import Mathlib.Algebra.Order.Kleene
import Mathlib.Computability.Language
import Mathlib.Order.CompletePartialOrder

/-!
# URI-references

The grammar of RFC 3986, as languages of bytes, rule by rule. What is known about its
words without taking them apart follows from the rules of a Kleene algebra: all of them
are made of the characters of a URI and of percent-encoded ones (`uriReference_le_text`).

A URI begins with a letter (`head_of_uri`), and in front of a colon of a relative
reference there is always another delimiter (`exists_delim_of_relativeRef`): its first
segment has no colon.
-/

namespace Base.Rfc3986

open Computability

/-! ## Characters -/

/-- `ALPHA`. -/
def isAlpha (c : UInt8) : Bool := (65 ≤ c ∧ c ≤ 90) ∨ (97 ≤ c ∧ c ≤ 122)

/-- `DIGIT`. -/
def isDigit (c : UInt8) : Bool := 48 ≤ c ∧ c ≤ 57

/-- `HEXDIG`, in either case. -/
def isHexdig (c : UInt8) : Bool := isDigit c ∨ (65 ≤ c ∧ c ≤ 70) ∨ (97 ≤ c ∧ c ≤ 102)

/-- `unreserved`. -/
def isUnreserved (c : UInt8) : Bool := isAlpha c ∨ isDigit c ∨ c ∈ ascii "-._~"

/-- `gen-delims`. -/
def isGenDelim (c : UInt8) : Bool := c ∈ ascii ":/?#[]@"

/-- `sub-delims`. -/
def isSubDelim (c : UInt8) : Bool := c ∈ ascii "!$&'()*+,;="

/-- The characters of a URI that stand for themselves. -/
def isUriChar (c : UInt8) : Bool := isUnreserved c ∨ isGenDelim c ∨ isSubDelim c

/-! ## Notation -/

/-- One of these characters. -/
def char (p : UInt8 → Bool) : Language UInt8 := {w | ∃ c, p c ∧ w = [c]}

/-- This text. -/
def lit (s : String) : Language UInt8 := {w | w = ascii s}

/-- `[ L ]`. -/
def opt (L : Language UInt8) : Language UInt8 := 1 + L

/-- `1*L`. -/
def many1 (L : Language UInt8) : Language UInt8 := L * L∗

/-- `*n L`. -/
def upTo (n : ℕ) (L : Language UInt8) : Language UInt8 := opt L ^ n

/-! ## The grammar -/

def pctEncoded : Language UInt8 := lit "%" * char isHexdig * char isHexdig

/-- `unreserved / pct-encoded / sub-delims`, and these characters. -/
def symbol (s : String) : Language UInt8 :=
  char (fun c => isUnreserved c ∨ isSubDelim c ∨ c ∈ ascii s) + pctEncoded

def pchar : Language UInt8 := symbol ":@"

def segment : Language UInt8 := pchar∗

def segmentNz : Language UInt8 := many1 pchar

def segmentNzNc : Language UInt8 := many1 (symbol "@")

def pathAbempty : Language UInt8 := (lit "/" * segment)∗

def pathAbsolute : Language UInt8 := lit "/" * opt (segmentNz * (lit "/" * segment)∗)

def pathNoscheme : Language UInt8 := segmentNzNc * (lit "/" * segment)∗

def pathRootless : Language UInt8 := segmentNz * (lit "/" * segment)∗

def pathEmpty : Language UInt8 := 1

def regName : Language UInt8 := (symbol "")∗

def decOctet : Language UInt8 :=
  char isDigit + char (fun c => 49 ≤ c ∧ c ≤ 57) * char isDigit +
    lit "1" * char isDigit ^ 2 + lit "2" * char (fun c => 48 ≤ c ∧ c ≤ 52) * char isDigit +
    lit "25" * char (fun c => 48 ≤ c ∧ c ≤ 53)

def ipv4address : Language UInt8 :=
  decOctet * lit "." * decOctet * lit "." * decOctet * lit "." * decOctet

def h16 : Language UInt8 := char isHexdig * upTo 3 (char isHexdig)

def ls32 : Language UInt8 := h16 * lit ":" * h16 + ipv4address

/-- `[ *n( h16 ":" ) h16 ] "::"`. -/
def elided (n : ℕ) : Language UInt8 := opt (upTo n (h16 * lit ":") * h16) * lit "::"

def ipv6address : Language UInt8 :=
  (h16 * lit ":") ^ 6 * ls32 +
    lit "::" * (h16 * lit ":") ^ 5 * ls32 +
    elided 0 * (h16 * lit ":") ^ 4 * ls32 +
    elided 1 * (h16 * lit ":") ^ 3 * ls32 +
    elided 2 * (h16 * lit ":") ^ 2 * ls32 +
    elided 3 * (h16 * lit ":") * ls32 +
    elided 4 * ls32 +
    elided 5 * h16 +
    elided 6

def ipvFuture : Language UInt8 :=
  (lit "v" + lit "V") * many1 (char isHexdig) * lit "." *
    many1 (char fun c => isUnreserved c ∨ isSubDelim c ∨ c ∈ ascii ":")

def ipLiteral : Language UInt8 := lit "[" * (ipv6address + ipvFuture) * lit "]"

def host : Language UInt8 := ipLiteral + ipv4address + regName

def port : Language UInt8 := (char isDigit)∗

def userinfo : Language UInt8 := (symbol ":")∗

def authority : Language UInt8 := opt (userinfo * lit "@") * host * opt (lit ":" * port)

def scheme : Language UInt8 :=
  char isAlpha * (char fun c => isAlpha c ∨ isDigit c ∨ c ∈ ascii "+-.")∗

def query : Language UInt8 := (pchar + lit "/" + lit "?")∗

def fragment : Language UInt8 := (pchar + lit "/" + lit "?")∗

def hierPart : Language UInt8 :=
  lit "//" * authority * pathAbempty + pathAbsolute + pathRootless + pathEmpty

def relativePart : Language UInt8 :=
  lit "//" * authority * pathAbempty + pathAbsolute + pathNoscheme + pathEmpty

/-- `[ "?" query ] [ "#" fragment ]`. -/
def queryFragment : Language UInt8 := opt (lit "?" * query) * opt (lit "#" * fragment)

def uri : Language UInt8 := scheme * lit ":" * hierPart * queryFragment

def relativeRef : Language UInt8 := relativePart * queryFragment

def uriReference : Language UInt8 := uri + relativeRef

/-! ## Kleene algebra -/

section KleeneAlgebra

variable {L M N : Language UInt8}

/-- The words over an alphabet are closed under concatenation. -/
theorem mul_le (hL : L ≤ N∗) (hM : M ≤ N∗) : L * M ≤ N∗ :=
  (mul_le_mul' hL hM).trans (kstar_mul_kstar N).le

/-- They are closed under repetition. -/
theorem star_le (hL : L ≤ N∗) : L∗ ≤ N∗ := (kstar_mono hL).trans (kstar_idem N).le

/-- A part that may be left out. -/
theorem opt_le (hL : L ≤ N∗) : opt L ≤ N∗ := add_le one_le_kstar hL

/-- A part that comes once or more. -/
theorem many1_le (hL : L ≤ N∗) : many1 L ≤ N∗ := mul_le hL (star_le hL)

/-- A part that comes so many times. -/
theorem pow_le (hL : L ≤ N∗) (n : ℕ) : L ^ n ≤ N∗ := pow_le_kstar.trans (star_le hL)

/-- They are closed under bounded repetition. -/
theorem upTo_le (hL : L ≤ N∗) (n : ℕ) : upTo n L ≤ N∗ := pow_le (opt_le hL) n

end KleeneAlgebra

/-! ## What the words are made of -/

/-- Characters of a URI, and percent-encoded ones. -/
def text : Language UInt8 := (char isUriChar + pctEncoded)∗

/-- A character of a class is one of a larger class. -/
theorem char_le {p q : UInt8 → Bool} (h : ∀ c, p c → q c) : char p ≤ char q := by
  rintro w ⟨c, hc, rfl⟩
  exact ⟨c, h c hc, rfl⟩

/-- A literal is a word over the class of its characters. -/
theorem lit_le_char {q : UInt8 → Bool} {s : String} (h : (ascii s).all q) :
    lit s ≤ (char q)∗ := by
  rintro w rfl
  refine Language.mem_kstar.2 ⟨(ascii s).map fun c => [c], ?_, fun y hy => ?_⟩
  · rw [← List.flatMap_def, List.flatMap_singleton']
  · obtain ⟨c, hc, rfl⟩ := List.mem_map.1 hy
    exact ⟨c, List.all_eq_true.1 h c hc, rfl⟩

/-- A character of a class all of whose characters may stand in a reference. -/
theorem char_le_text {p : UInt8 → Bool} (h : ∀ c, p c → isUriChar c) : char p ≤ text :=
  (char_le h).trans ((le_add_of_nonneg_right zero_le).trans le_kstar)

/-- `pct-encoded` is a `%` and two hexadecimal digits. -/
theorem pctEncoded_le_text : pctEncoded ≤ text :=
  (le_add_of_nonneg_left zero_le).trans le_kstar

/-- A literal all of whose characters may stand in a reference. -/
theorem lit_le_text {s : String} (h : (ascii s).all isUriChar) : lit s ≤ text :=
  (lit_le_char h).trans (kstar_mono (le_add_of_nonneg_right zero_le))

theorem isUriChar_of_isAlpha {c : UInt8} (h : isAlpha c) : isUriChar c := by
  simp [isUriChar, isUnreserved, h]

theorem isUriChar_of_isDigit {c : UInt8} (h : isDigit c) : isUriChar c := by
  simp [isUriChar, isUnreserved, h]

theorem isUriChar_of_isHexdig {c : UInt8} (h : isHexdig c) : isUriChar c := by
  rw [isHexdig, decide_eq_true_eq] at h
  rcases h with hd | hr
  · exact isUriChar_of_isDigit hd
  · refine isUriChar_of_isAlpha (decide_eq_true ?_)
    rcases hr with ⟨h₁, h₂⟩ | ⟨h₁, h₂⟩
    · exact .inl ⟨h₁, UInt8.le_trans h₂ (by decide)⟩
    · exact .inr ⟨h₁, UInt8.le_trans h₂ (by decide)⟩

/-- The characters of a rule are those of a URI. -/
theorem isUriChar_of_or {c : UInt8} {s : String} (hs : (ascii s).all isUriChar)
    (h : isUnreserved c ∨ isSubDelim c ∨ c ∈ ascii s) : isUriChar c := by
  rcases h with h | h | h
  · simp [isUriChar, h]
  · simp [isUriChar, h]
  · exact List.all_eq_true.1 hs c h

/-- What a segment, a query or a fragment is made of. -/
theorem symbol_le_text {s : String} (hs : (ascii s).all isUriChar) : symbol s ≤ text :=
  add_le (char_le_text fun _ h => isUriChar_of_or hs (of_decide_eq_true h)) pctEncoded_le_text

/-- `pchar`, whose alternatives are all of characters of a reference. -/
theorem pchar_le_text : pchar ≤ text := symbol_le_text (by decide)

/-- `path-abempty`. -/
theorem slashes_le_text : (lit "/" * segment)∗ ≤ text :=
  star_le (mul_le (lit_le_text (by decide)) (star_le pchar_le_text))

/-- The forms of a path are made of `pchar` and slashes. -/
theorem pathAbsolute_le_text : pathAbsolute ≤ text :=
  mul_le (lit_le_text (by decide)) (opt_le (mul_le (many1_le pchar_le_text) slashes_le_text))

theorem pathRootless_le_text : pathRootless ≤ text :=
  mul_le (many1_le pchar_le_text) slashes_le_text

theorem pathNoscheme_le_text : pathNoscheme ≤ text :=
  mul_le (many1_le (symbol_le_text (by decide))) slashes_le_text

theorem digit_le_text : char isDigit ≤ text := char_le_text fun _ => isUriChar_of_isDigit

theorem hexdig_le_text : char isHexdig ≤ text := char_le_text fun _ => isUriChar_of_isHexdig

/-- Digits up to or from some of them on. -/
theorem range_le_text {a b : UInt8} (ha : 48 ≤ a) (hb : b ≤ 57) :
    char (fun c => a ≤ c ∧ c ≤ b) ≤ text := by
  refine char_le_text fun c h => isUriChar_of_isDigit (decide_eq_true ?_)
  obtain ⟨h₁, h₂⟩ := of_decide_eq_true h
  exact ⟨UInt8.le_trans ha h₁, UInt8.le_trans h₂ hb⟩

theorem decOctet_le_text : decOctet ≤ text :=
  add_le (add_le (add_le (add_le digit_le_text
    (mul_le (range_le_text (by decide) (by decide)) digit_le_text))
    (mul_le (lit_le_text (by decide)) (pow_le digit_le_text 2)))
    (mul_le (mul_le (lit_le_text (by decide)) (range_le_text (by decide) (by decide)))
      digit_le_text))
    (mul_le (lit_le_text (by decide)) (range_le_text (by decide) (by decide)))

/-- Two parts with a dot in between. -/
theorem dotted_le_text {L M : Language UInt8} (hL : L ≤ text) (hM : M ≤ text) :
    L * lit "." * M ≤ text := mul_le (mul_le hL (lit_le_text (by decide))) hM

theorem ipv4address_le_text : ipv4address ≤ text :=
  dotted_le_text (dotted_le_text (dotted_le_text decOctet_le_text decOctet_le_text)
    decOctet_le_text) decOctet_le_text

theorem h16_le_text : h16 ≤ text := mul_le hexdig_le_text (upTo_le hexdig_le_text 3)

theorem h16_colon_le_text : h16 * lit ":" ≤ text := mul_le h16_le_text (lit_le_text (by decide))

theorem ls32_le_text : ls32 ≤ text :=
  add_le (mul_le h16_colon_le_text h16_le_text) ipv4address_le_text

/-- The forms of `IPv6address` with `::` in them. -/
theorem elided_le_text (n : ℕ) : elided n ≤ text :=
  mul_le (opt_le (mul_le (upTo_le h16_colon_le_text n) h16_le_text)) (lit_le_text (by decide))

/-- The nine forms of `IPv6address`. -/
theorem ipv6address_le_text : ipv6address ≤ text := by
  have hcolons (n : ℕ) : (h16 * lit ":") ^ n ≤ text := pow_le h16_colon_le_text n
  refine add_le (add_le (add_le (add_le (add_le (add_le (add_le (add_le ?_ ?_) ?_) ?_) ?_) ?_)
    ?_) ?_) (elided_le_text 6)
  · exact mul_le (hcolons 6) ls32_le_text
  · exact mul_le (mul_le (lit_le_text (by decide)) (hcolons 5)) ls32_le_text
  · exact mul_le (mul_le (elided_le_text 0) (hcolons 4)) ls32_le_text
  · exact mul_le (mul_le (elided_le_text 1) (hcolons 3)) ls32_le_text
  · exact mul_le (mul_le (elided_le_text 2) (hcolons 2)) ls32_le_text
  · exact mul_le (mul_le (elided_le_text 3) h16_colon_le_text) ls32_le_text
  · exact mul_le (elided_le_text 4) ls32_le_text
  · exact mul_le (elided_le_text 5) h16_le_text

/-- The hosts are made of digits, letters and a few signs. -/
theorem ipvFuture_le_text : ipvFuture ≤ text :=
  mul_le (mul_le (mul_le (add_le (lit_le_text (by decide)) (lit_le_text (by decide)))
    (many1_le hexdig_le_text)) (lit_le_text (by decide)))
    (many1_le (char_le_text fun _ h => isUriChar_of_or (by decide) (of_decide_eq_true h)))

theorem ipLiteral_le_text : ipLiteral ≤ text :=
  mul_le (mul_le (lit_le_text (by decide)) (add_le ipv6address_le_text ipvFuture_le_text))
    (lit_le_text (by decide))

theorem host_le_text : host ≤ text :=
  add_le (add_le ipLiteral_le_text ipv4address_le_text) (star_le (symbol_le_text (by decide)))

/-- `authority`, with the user information and the port that it may have. -/
theorem authority_le_text : authority ≤ text :=
  mul_le (mul_le
    (opt_le (mul_le (star_le (symbol_le_text (by decide))) (lit_le_text (by decide))))
    host_le_text)
    (opt_le (mul_le (lit_le_text (by decide)) (star_le digit_le_text)))

theorem scheme_le_text : scheme ≤ text := by
  refine mul_le (char_le_text fun _ => isUriChar_of_isAlpha) (star_le (char_le_text ?_))
  intro c h
  rcases of_decide_eq_true h with h | h | h
  · exact isUriChar_of_isAlpha h
  · exact isUriChar_of_isDigit h
  · have hs : (ascii "+-.").all isUriChar := by decide
    exact List.all_eq_true.1 hs c h

/-- `[ "?" query ] [ "#" fragment ]`. -/
theorem queryFragment_le_text : queryFragment ≤ text := by
  have hquery : (pchar + lit "/" + lit "?")∗ ≤ text :=
    star_le (add_le (add_le pchar_le_text (lit_le_text (by decide))) (lit_le_text (by decide)))
  exact mul_le (opt_le (mul_le (lit_le_text (by decide)) hquery))
    (opt_le (mul_le (lit_le_text (by decide)) hquery))

/-- An authority and the path behind it. -/
theorem authorityPath_le_text : lit "//" * authority * pathAbempty ≤ text :=
  mul_le (mul_le (lit_le_text (by decide)) authority_le_text) slashes_le_text

/-- `URI` is made of the characters of a URI. -/
theorem uri_le_text : uri ≤ text :=
  mul_le (mul_le (mul_le scheme_le_text (lit_le_text (by decide)))
    (add_le (add_le (add_le authorityPath_le_text pathAbsolute_le_text) pathRootless_le_text)
      one_le_kstar)) queryFragment_le_text

/-- `relative-ref` is made of the characters of a URI. -/
theorem relativeRef_le_text : relativeRef ≤ text :=
  mul_le (add_le (add_le (add_le authorityPath_le_text pathAbsolute_le_text)
    pathNoscheme_le_text) one_le_kstar) queryFragment_le_text

/-- A URI-reference is made of the characters of a URI, and of percent-encoded ones. -/
theorem uriReference_le_text : uriReference ≤ text := add_le uri_le_text relativeRef_le_text

/-! ## Where a word begins, and what stands in front of a colon -/

theorem forall_of_mem_char {p : UInt8 → Bool} {w : List UInt8} (h : w ∈ (char p)∗) :
    ∀ c ∈ w, p c := by
  obtain ⟨ys, rfl, hys⟩ := Language.mem_kstar.1 h
  intro c hc
  obtain ⟨y, hy, hcy⟩ := List.mem_flatten.1 hc
  obtain ⟨d, hd, rfl⟩ := hys y hy
  rwa [List.mem_singleton.1 hcy]

/-- The first segment of a relative path has no colon. -/
theorem colon_notMem_segmentNzNc {w : List UInt8} (h : w ∈ segmentNzNc) : 58 ∉ w := by
  have hne {p : UInt8 → Bool} (hp : p 58 = false) : ∀ c, p c → decide (c ≠ 58) := by
    intro c hc
    rw [decide_eq_true_eq]
    rintro rfl
    exact absurd hc (by rw [hp]; decide)
  have hhex : char isHexdig ≤ (char fun c => c ≠ 58)∗ := (char_le (hne (by decide))).trans le_kstar
  have hsymbol : symbol "@" ≤ (char fun c => c ≠ 58)∗ :=
    add_le ((char_le (hne (by decide))).trans le_kstar)
      (mul_le (mul_le (lit_le_char (by decide)) hhex) hhex)
  intro hc
  exact of_decide_eq_true (forall_of_mem_char (many1_le hsymbol h) 58 hc) rfl

/-- A `path-abempty` is empty or starts with a `/`. -/
theorem mem_slashes {w : List UInt8} (h : w ∈ (lit "/" * segment)∗) :
    w = [] ∨ ∃ b, w = 47 :: b := by
  obtain ⟨ys, rfl, hys⟩ := Language.mem_kstar.1 h
  cases ys with
  | nil => exact .inl rfl
  | cons y ys =>
    obtain ⟨x, rfl, b, -, rfl⟩ := Language.mem_mul.1 (hys y (List.mem_cons_self ..))
    exact .inr ⟨_, rfl⟩

/-- What follows the path starts with a delimiter, if there is anything. -/
theorem mem_queryFragment {w : List UInt8} (h : w ∈ queryFragment) :
    w = [] ∨ ∃ d b, w = d :: b ∧ d ∈ ascii "/?#" := by
  obtain ⟨q, hq, f, hf, rfl⟩ := Language.mem_mul.1 h
  rcases hq with rfl | hq
  · rcases hf with rfl | hf
    · exact .inl rfl
    · obtain ⟨x, rfl, b, -, rfl⟩ := Language.mem_mul.1 hf
      exact .inr ⟨35, b, rfl, by decide⟩
  · obtain ⟨x, rfl, b, -, rfl⟩ := Language.mem_mul.1 hq
    exact .inr ⟨63, b ++ f, rfl, by decide⟩

/-- A URI begins with a letter. -/
theorem head_of_uri {w : List UInt8} (h : w ∈ uri) : ∃ c t, w = c :: t ∧ isAlpha c := by
  obtain ⟨w₁, h₁, -, -, rfl⟩ := Language.mem_mul.1 h
  obtain ⟨w₂, h₂, -, -, rfl⟩ := Language.mem_mul.1 h₁
  obtain ⟨w₃, h₃, -, -, rfl⟩ := Language.mem_mul.1 h₂
  obtain ⟨w₄, ⟨c, hc, rfl⟩, -, -, rfl⟩ := Language.mem_mul.1 h₃
  exact ⟨c, _, rfl, hc⟩

/-- In front of a colon of a relative reference stands the delimiter of a path, a query or a
    fragment. -/
theorem exists_delim_of_relativeRef {w : List UInt8} (h : w ∈ relativeRef) (hc : 58 ∈ w) :
    ∃ a d b, w = a ++ d :: b ∧ 58 ∉ a ∧ d ∈ ascii "/?#" := by
  obtain ⟨p, hp, t, ht, rfl⟩ := Language.mem_mul.1 h
  -- The first segment, and what is behind it in the path.
  obtain ⟨a, more, rfl, ha, hmore⟩ : ∃ a more, p = a ++ more ∧ 58 ∉ a ∧
      (more = [] ∨ ∃ b, more = 47 :: b) := by
    rcases hp with ((hp | hp) | hp) | hp
    · obtain ⟨x, hx, y, -, rfl⟩ := Language.mem_mul.1 hp
      obtain ⟨x, rfl, z, -, rfl⟩ := Language.mem_mul.1 hx
      exact ⟨[], _, rfl, List.not_mem_nil, .inr ⟨_, rfl⟩⟩
    · obtain ⟨x, rfl, y, -, rfl⟩ := Language.mem_mul.1 hp
      exact ⟨[], _, rfl, List.not_mem_nil, .inr ⟨_, rfl⟩⟩
    · obtain ⟨a, ha, more, hmore, rfl⟩ := Language.mem_mul.1 hp
      exact ⟨a, more, rfl, colon_notMem_segmentNzNc ha, mem_slashes hmore⟩
    · obtain rfl : p = [] := hp
      exact ⟨[], [], rfl, List.not_mem_nil, .inl rfl⟩
  rcases hmore with rfl | ⟨b, rfl⟩
  · rw [List.append_nil] at hc ⊢
    rcases mem_queryFragment ht with rfl | ⟨d, b, rfl, hd⟩
    · rw [List.append_nil] at hc
      exact absurd hc ha
    · exact ⟨a, d, b, rfl, ha, hd⟩
  · exact ⟨a, 47, b ++ t, by simp, ha, by decide⟩

end Base.Rfc3986
