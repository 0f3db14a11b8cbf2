import Mathlib.Data.List.Induction
import Libks.Kws.Request

/-!
# The header fields of a request

`kws_parse_header` compares the name on each header line with the first letters
of those it looks for, so that a longer name, and for `Authorization` one that
shares its first seven letters, counts as well. What a field points to is the
last line that passes the comparison (`FromLines`, kept by every line); it is
the last line with the name itself if and only if that line has the whole name
(`parseHeader_fields`).
-/

namespace Libks

open Base

/-! ## The last match in a list -/

section LastMatch

variable {α : Type} {p q : α → Bool} {l : List α} {a : α} {i : ℕ}

/-- The place of the last element that passes the test. -/
def lastMatch (p : α → Bool) : List α → Option ℕ
  | [] => none
  | a :: l =>
    match lastMatch p l with
    | some i => some (i + 1)
    | none => if p a then some 0 else none

theorem lastMatch_append_singleton :
    lastMatch p (l ++ [a]) = if p a then some l.length else lastMatch p l := by
  induction l with
  | nil => rfl
  | cons b l ih =>
    rw [List.cons_append, lastMatch, ih, lastMatch]
    by_cases ha : p a
    · rw [if_pos ha, if_pos ha]
      rfl
    · rw [if_neg ha, if_neg ha]

theorem lastMatch_lt (h : lastMatch p l = some i) : i < l.length := by
  induction l using List.reverseRecOn with
  | nil => cases h
  | append_singleton l a ih =>
    rw [lastMatch_append_singleton] at h
    rw [List.length_append, List.length_singleton]
    split_ifs at h with ha
    · obtain rfl := Option.some.inj h
      exact Nat.lt_succ_self _
    · exact Nat.lt_succ_of_lt (ih h)

/-- A stricter test has the same last match if and only if the last match of the
    other passes it. -/
theorem lastMatch_eq_iff (hqp : ∀ a, q a → p a) :
    lastMatch p l = lastMatch q l ↔ ∀ i a, lastMatch p l = some i → l[i]? = some a → q a := by
  induction l using List.reverseRecOn with
  | nil => exact iff_of_true rfl fun i a h => by cases h
  | append_singleton l b ih =>
    rw [lastMatch_append_singleton, lastMatch_append_singleton]
    by_cases hp : p b
    · rw [if_pos hp]
      constructor
      · intro h i a hi ha
        obtain rfl := Option.some.inj hi
        obtain rfl : b = a := by simpa using ha
        by_contra hq
        rw [if_neg hq] at h
        exact absurd (lastMatch_lt h.symm) (Nat.lt_irrefl _)
      · intro h
        rw [if_pos (h l.length b rfl (by simp))]
    · rw [if_neg hp, if_neg fun hq => hp (hqp b hq), ih]
      refine forall₂_congr fun i a => imp_congr_right fun hi => ?_
      rw [List.getElem?_append_left (lastMatch_lt hi)]

end LastMatch

/-! ## The fields -/

/-- The fields that point to the value of a header. -/
inductive PointerField
  | userAgent
  | host
  | contentType
  | referer
  | authorization
  deriving DecidableEq, Repr

namespace PointerField

/-- The full name of the header. -/
def name : PointerField → List UInt8
  | userAgent => ascii "User-Agent"
  | host => ascii "Host"
  | contentType => ascii "Content-Type"
  | referer => ascii "Referer"
  | authorization => ascii "Authorization"

/-- The letters that `kws_parse_header` compares. -/
def letters : PointerField → List UInt8
  | authorization => ascii "Authori"
  | f => f.name

end PointerField

/-- The line that the field points into. -/
def KwsRequest.lineOf (r : KwsRequest) : PointerField → Option ℕ
  | .userAgent => r.userAgent.map LineValue.line
  | .host => r.host.map LineValue.line
  | .contentType => r.contentType.map LineValue.line
  | .referer => r.referer.map LineValue.line
  | .authorization => r.authorization.map LineValue.line

/-- Whether the name on the line begins with the letters, ignoring case. -/
def Header.startsWith (letters : List UInt8) (h : Header) : Bool := startsWithNoCase letters h.k

/-- Whether the name on the line is this one, ignoring case. -/
def Header.isNamed (name : List UInt8) (h : Header) : Bool := h.k.map toLower = name.map toLower

/-- The number on the last line that passes the test, or `0`. -/
def lengthOn (p : Header → Bool) (lines : List Header) : ℕ :=
  ((lastMatch p lines).bind (lines[·]?)).elim 0 fun h => toUInt64 (atoi h.v)

/-- The letters of the headers that are looked for, the number among them. -/
def lettersOf : Option PointerField → List UInt8
  | some f => f.letters
  | none => ascii "Content-Length"

theorem getElem?_of_startsWithNoCase {pat name : List UInt8} (h : startsWithNoCase pat name)
    {i : ℕ} (hi : i < pat.length) : (name.map toLower)[i]? = (pat.map toLower)[i]? := by
  rw [← of_decide_eq_true h, List.map_take, List.getElem?_take_of_lt hi]

/-- A place where the letters of two headers differ. -/
theorem exists_getElem?_lettersOf_ne (f g : Option PointerField) (hne : f ≠ g) :
    ∃ i, i < (lettersOf f).length ∧ i < (lettersOf g).length ∧
      ((lettersOf f).map toLower)[i]? ≠ ((lettersOf g).map toLower)[i]? := by
  have hall : ∀ f ∈ [none, some PointerField.userAgent, some .host, some .contentType,
      some .referer, some .authorization], ∀ g ∈ [none, some PointerField.userAgent, some .host,
      some .contentType, some .referer, some .authorization], f ≠ g →
      ∃ i < 13, i < (lettersOf f).length ∧ i < (lettersOf g).length ∧
        ((lettersOf f).map toLower)[i]? ≠ ((lettersOf g).map toLower)[i]? := by
    decide +kernel
  have hmem (f : Option PointerField) : f ∈ [none, some PointerField.userAgent, some .host,
      some .contentType, some .referer, some .authorization] := by
    rcases f with _ | f
    · exact List.mem_cons_self
    · cases f <;> decide
  obtain ⟨i, -, hi⟩ := hall f (hmem f) g (hmem g) hne
  exact ⟨i, hi⟩

/-- A name begins with the letters of one header at most. -/
theorem lettersOf_inj {f g : Option PointerField} {name : List UInt8}
    (hf : startsWithNoCase (lettersOf f) name) (hg : startsWithNoCase (lettersOf g) name) :
    f = g := by
  by_contra hne
  obtain ⟨i, hif, hig, hi⟩ := exists_getElem?_lettersOf_ne f g hne
  exact hi ((getElem?_of_startsWithNoCase hf hif).symm.trans (getElem?_of_startsWithNoCase hg hig))

section Dispatch

variable {r : KwsRequest} {i value : ℕ} {name s : List UInt8}

theorem headers_dispatch : (r.dispatch i name value s).headers = r.headers := by
  rw [KwsRequest.dispatch]
  split_ifs
  · rfl
  · cases strchr 58 s <;> rfl
  all_goals rfl

/-- A line whose name begins with the letters of the field is the one it points to. -/
theorem lineOf_dispatch_of_starts {f : PointerField} (h : startsWithNoCase f.letters name) :
    (r.dispatch i name value s).lineOf f = some i := by
  have hself (g : Option PointerField) (hg : startsWithNoCase (lettersOf g) name) : some f = g :=
    lettersOf_inj h hg
  rw [KwsRequest.dispatch]
  split_ifs with hUA hHost hType hLength hReferer hAuth
  · obtain rfl := Option.some.inj (hself (some .userAgent) hUA)
    rfl
  · obtain rfl := Option.some.inj (hself (some .host) hHost)
    cases strchr 58 s <;> rfl
  · obtain rfl := Option.some.inj (hself (some .contentType) hType)
    rfl
  · cases hself none hLength
  · obtain rfl := Option.some.inj (hself (some .referer) hReferer)
    rfl
  · obtain rfl := Option.some.inj (hself (some .authorization) hAuth)
    rfl
  · -- One of the comparisons is that of the field.
    cases f with
    | userAgent => exact absurd h hUA
    | host => exact absurd h hHost
    | contentType => exact absurd h hType
    | referer => exact absurd h hReferer
    | authorization => exact absurd h hAuth

/-- Every other line leaves the field as it is. -/
theorem lineOf_dispatch_of_not {f : PointerField} (h : ¬startsWithNoCase f.letters name) :
    (r.dispatch i name value s).lineOf f = r.lineOf f := by
  rw [KwsRequest.dispatch]
  split_ifs with hUA hHost hType hLength hReferer hAuth
  · cases f with
    | userAgent => exact absurd hUA h
    | _ => rfl
  · cases f with
    | host => exact absurd hHost h
    | _ => cases strchr 58 s <;> rfl
  · cases f with
    | contentType => exact absurd hType h
    | _ => rfl
  · cases f <;> rfl
  · cases f with
    | referer => exact absurd hReferer h
    | _ => rfl
  · cases f with
    | authorization => exact absurd hAuth h
    | _ => rfl
  · rfl

theorem contentLength_dispatch :
    (r.dispatch i name value s).contentLength =
      if startsWithNoCase (ascii "Content-Length") name then toUInt64 (atoi s)
      else r.contentLength := by
  have hne (g : Option PointerField) (hg : startsWithNoCase (lettersOf g) name)
      (hnone : g ≠ none) : ¬startsWithNoCase (ascii "Content-Length") name :=
    fun hs => hnone (lettersOf_inj hg (g := none) hs)
  rw [KwsRequest.dispatch]
  split_ifs with hUA hLength hHost hLength hType hLength hLength
  · exact absurd hLength (hne (some .userAgent) hUA (by decide))
  · rfl
  · exact absurd hLength (hne (some .host) hHost (by decide))
  · cases strchr 58 s <;> rfl
  · exact absurd hLength (hne (some .contentType) hType (by decide))
  all_goals rfl

end Dispatch

/-! ## The lines of a head -/

/-- Every field points to the last line whose name begins with its letters. -/
structure FromLines (r : KwsRequest) : Prop where
  lineOf : ∀ f, r.lineOf f = lastMatch (Header.startsWith (PointerField.letters f)) r.headers
  contentLength :
    r.contentLength = lengthOn (Header.startsWith (ascii "Content-Length")) r.headers

/-- A header line keeps this. -/
theorem FromLines.dispatch {r : KwsRequest} (h : FromLines r) (m : Mem) (k v : List UInt8)
    (value : ℕ) :
    FromLines (KwsRequest.dispatch { r with buffer := m, headers := r.headers ++ [⟨k, v⟩] }
      r.headers.length k value v) := by
  constructor
  · intro f
    rw [headers_dispatch, lastMatch_append_singleton]
    by_cases hk : Header.startsWith f.letters ⟨k, v⟩
    · rw [if_pos hk, lineOf_dispatch_of_starts hk]
    · rw [if_neg hk, lineOf_dispatch_of_not hk, ← h.lineOf f]
      cases f <;> rfl
  · rw [headers_dispatch, contentLength_dispatch, lengthOn, lastMatch_append_singleton]
    by_cases hk : Header.startsWith (ascii "Content-Length") ⟨k, v⟩
    · rw [if_pos hk, if_pos (show startsWithNoCase (ascii "Content-Length") k from hk),
        Option.bind_some, List.getElem?_concat_length]
      rfl
    · rw [if_neg hk, if_neg (show ¬startsWithNoCase (ascii "Content-Length") k from hk)]
      refine h.contentLength.trans ?_
      rw [lengthOn]
      cases hi : lastMatch (Header.startsWith (ascii "Content-Length")) r.headers with
      | none => rfl
      | some i => rw [Option.bind_some, Option.bind_some, List.getElem?_append_left (lastMatch_lt hi)]

/-- The loop over the lines keeps it. -/
theorem FromLines.headerLoop {r r' : KwsRequest} {ps : List ℕ} (h : FromLines r)
    (hloop : r.headerLoop r.headers.length ps = .ok (some r')) : FromLines r' := by
  induction ps generalizing r with
  | nil =>
    obtain rfl := Option.some.inj (Except.ok.inj hloop)
    exact h
  | cons p ps ih =>
    rw [KwsRequest.headerLoop] at hloop
    obtain ⟨line, -, hloop⟩ := bind_eq_ok.1 hloop
    match line with
    | none => cases hloop
    | some (m, k, value, v) =>
      refine ih (h.dispatch m k v value) ?_
      rw [headers_dispatch, List.length_append, List.length_singleton]
      exact hloop

/-- The request line sets none of the fields. -/
theorem fromLines_of_requestLine {size http : ℕ} {m : Mem} {r : KwsRequest}
    (h : parseRequestLine size m = .ok (some (r, http))) : FromLines r ∧ r.headers = [] := by
  rw [parseRequestLine] at h
  obtain ⟨method, -, h⟩ := bind_eq_ok.1 h
  match method with
  | none => cases h
  | some (m, uri) =>
    dsimp only at h
    split_ifs at h with hslash
    · cases h
    obtain ⟨target, -, h⟩ := bind_eq_ok.1 h
    match target with
    | none => cases h
    | some (m, http) =>
      obtain ⟨query, -, h⟩ := bind_eq_ok.1 h
      obtain ⟨⟨status, m⟩, -, h⟩ := bind_eq_ok.1 h
      dsimp only at h
      split_ifs at h with hstatus
      · cases h
      obtain ⟨version, -, h⟩ := bind_eq_ok.1 h
      split_ifs at h with hversion
      · cases h
      obtain ⟨rfl, -⟩ := Prod.ext_iff.1 (Option.some.inj (Except.ok.inj h))
      exact ⟨⟨fun f => by cases f <;> rfl, rfl⟩, rfl⟩

theorem FromLines.parseLines {r r' : KwsRequest} {http : ℕ} {lines : Bool} (h : FromLines r)
    (hheaders : r.headers = []) (hlines : r.parseLines http = .ok (some (r', lines))) :
    FromLines r' := by
  rw [KwsRequest.parseLines] at hlines
  obtain ⟨line, -, hlines⟩ := bind_eq_ok.1 hlines
  match line with
  | none =>
    obtain ⟨rfl, -⟩ := Prod.ext_iff.1 (Option.some.inj (Except.ok.inj hlines))
    exact h
  | some (m, p) =>
    obtain ⟨⟨m, ps⟩, -, hlines⟩ := bind_eq_ok.1 hlines
    dsimp only at hlines
    split_ifs at hlines with hcount
    · cases hlines
    obtain ⟨r₁, hloop, hr⟩ := bind_eq_ok.1 hlines
    match r₁ with
    | none => cases hr
    | some r₁ =>
      obtain ⟨rfl, -⟩ := Prod.ext_iff.1 (Option.some.inj (Except.ok.inj hr))
      have hstart : FromLines { r with buffer := m } :=
        ⟨fun f => by rw [← h.lineOf f]; cases f <;> rfl, h.contentLength⟩
      refine @FromLines.headerLoop _ _ ps hstart ?_
      rw [show ({ r with buffer := m } : KwsRequest).headers.length = 0 by rw [hheaders]; rfl]
      exact hloop

theorem fromLines_of_parseHead {head : List UInt8} {r : KwsRequest} {lines : Bool}
    (h : parseHead head = .ok (some (r, lines))) : FromLines r := by
  rw [parseHead] at h
  obtain ⟨line, hline, h⟩ := bind_eq_ok.1 h
  rcases line with _ | ⟨r₀, http⟩
  · cases h
  · obtain ⟨h₀, hheaders⟩ := fromLines_of_requestLine hline
    exact h₀.parseLines hheaders h

/-! ## The lines of a request -/

/-- The header lines of the request at the start of the receive buffer, as
    `kws_parse_header` separates them. -/
def Kws.headerLines (k : Kws) : List Header :=
  match do
    let text ← loadStr k.buflen k.buffer 0
    let some (i, _) := endOfHead text | return none
    parseHead (text.take i) with
  | .ok (some (r, _)) => r.headers
  | _ => []

/-- The fields are set from the lines of a head as they should be: from the last
    line with the name of the field, if there is one. -/
structure FromNames (r : KwsRequest) (lines : List Header) : Prop where
  lineOf : ∀ f, r.lineOf f = lastMatch (Header.isNamed (PointerField.name f)) lines
  contentLength : r.contentLength = lengthOn (Header.isNamed (ascii "Content-Length")) lines

/-- On the last line whose name begins with the letters of a field stands its
    full name; a number may also be the one that it should be. -/
structure WholeNames (lines : List Header) : Prop where
  pointers : ∀ f : PointerField, ∀ i h, lastMatch (Header.startsWith f.letters) lines = some i →
    lines[i]? = some h → h.isNamed f.name
  contentLength : ∀ i h, lastMatch (Header.startsWith (ascii "Content-Length")) lines = some i →
    lines[i]? = some h → h.isNamed (ascii "Content-Length") ∨
      toUInt64 (atoi h.v) = lengthOn (Header.isNamed (ascii "Content-Length")) lines

theorem startsWith_of_isNamed {letters name : List UInt8} (hl : letters <+: name) {h : Header}
    (hn : h.isNamed name) : h.startsWith letters := by
  have hk := of_decide_eq_true hn
  refine decide_eq_true ?_
  rw [List.map_take, hk, ← List.map_take, ← List.prefix_iff_eq_take.1 hl]

theorem letters_initial (f : PointerField) : f.letters <+: f.name := by
  cases f with
  | authorization => exact ⟨ascii "zation", rfl⟩
  | _ => exact List.prefix_refl _

/-- The numbers on the last matches of two tests agree if and only if the last
    match of the wider test passes the other, or has the same number. -/
theorem lengthOn_eq_iff {p q : Header → Bool} {lines : List Header} (hqp : ∀ h, q h → p h) :
    lengthOn p lines = lengthOn q lines ↔
      ∀ i h, lastMatch p lines = some i → lines[i]? = some h →
        q h ∨ toUInt64 (atoi h.v) = lengthOn q lines := by
  have hnumber {i : ℕ} {h : Header} (hi : lastMatch p lines = some i) (hh : lines[i]? = some h) :
      lengthOn p lines = toUInt64 (atoi h.v) := by
    rw [lengthOn, hi, Option.bind_some, hh, Option.elim_some]
  constructor
  · intro heq i h hi hh
    exact .inr ((hnumber hi hh).symm.trans heq)
  · intro hall
    cases hp : lastMatch p lines with
    | none =>
      have hsame : lastMatch p lines = lastMatch q lines :=
        (lastMatch_eq_iff hqp).2 fun i a hi => by cases hp.symm.trans hi
      rw [lengthOn, lengthOn, hsame]
    | some i =>
      obtain ⟨l, hh⟩ : ∃ l, lines[i]? = some l := ⟨_, List.getElem?_eq_getElem (lastMatch_lt hp)⟩
      rcases hall i _ hp hh with hq | heq
      · have hsame : lastMatch p lines = lastMatch q lines := by
          refine (lastMatch_eq_iff hqp).2 fun j a hj ha => ?_
          obtain rfl := Option.some.inj (hp.symm.trans hj)
          obtain rfl := Option.some.inj (hh.symm.trans ha)
          exact hq
        rw [lengthOn, lengthOn, hsame]
      · exact (hnumber hp hh).trans heq

/-- What every line sets is what it should be if and only if the names are whole. -/
theorem fromNames_iff {r : KwsRequest} (h : FromLines r) :
    FromNames r r.headers ↔ WholeNames r.headers := by
  have hname (f : PointerField) (l : Header) (hl : l.isNamed f.name) : l.startsWith f.letters :=
    startsWith_of_isNamed (letters_initial f) hl
  have hlength (l : Header) (hl : l.isNamed (ascii "Content-Length")) :
      l.startsWith (ascii "Content-Length") :=
    startsWith_of_isNamed (List.prefix_refl _) hl
  constructor
  · intro hn
    refine ⟨fun f => (lastMatch_eq_iff (hname f)).1 ?_, (lengthOn_eq_iff hlength).1 ?_⟩
    · exact (h.lineOf f).symm.trans (hn.lineOf f)
    · exact h.contentLength.symm.trans hn.contentLength
  · intro hw
    refine ⟨fun f => (h.lineOf f).trans ?_, h.contentLength.trans ?_⟩
    · exact (lastMatch_eq_iff (hname f)).2 (hw.pointers f)
    · exact (lengthOn_eq_iff hlength).2 hw.contentLength

/-- Pairs of a query string come behind the headers there are. -/
theorem initial_qsLoop (hs : List Header) (qs : List (List UInt8)) : hs <+: (qsLoop hs qs).1 := by
  induction qs generalizing hs with
  | nil => exact List.prefix_refl _
  | cons q qs ih =>
    rw [qsLoop]
    split_ifs
    · exact (List.prefix_append _ _).trans (ih _)
    · exact List.prefix_refl _

/-- A query string only adds to the headers. -/
theorem KwsRequest.parseOwnQs_headers {r r' : KwsRequest} (h : r.parseOwnQs = .ok r') :
    ∃ headers, r.headers <+: headers ∧ r' = { r with headers } := by
  rw [parseOwnQs] at h
  split_ifs at h
  · obtain ⟨⟨status, r₁⟩, hqs, h⟩ := bind_eq_ok.1 h
    obtain rfl := Except.ok.inj h
    rw [parseQs] at hqs
    obtain ⟨q, -, hqs⟩ := bind_eq_ok.1 hqs
    dsimp only at hqs
    split_ifs at hqs
    obtain ⟨-, rfl⟩ := Prod.ext_iff.1 (Except.ok.inj hqs)
    exact ⟨_, initial_qsLoop _ _, rfl⟩
  · obtain rfl := Except.ok.inj h
    exact ⟨_, List.prefix_refl _, rfl⟩

/-- The steps of `kws_parse_header`, where it accepts a request. -/
theorem Kws.parseHeader_parts {k k' : Kws} {r : KwsRequest}
    (h : k.parseHeader = .ok (.success, some r, k')) :
    ∃ text i body r₀ lines, loadStr k.buflen k.buffer 0 = .ok text ∧
      endOfHead text = some (i, body) ∧ parseHead (text.take i) = .ok (some (r₀, lines)) ∧
      skipHead { k with buffer := k.buffer.write i [0] } lines (toUInt64 k.datalen) body = .ok k' ∧
      KwsRequest.parseOwnQs { r₀ with
        bytesBuffered := toUInt64 k.datalen
        bytesHeader := body
        bytesRead := body } = .ok r := by
  rw [parseHeader] at h
  dsimp only at h
  split_ifs at h
  · cases h
  · cases h
  obtain ⟨text, htext, h⟩ := bind_eq_ok.1 h
  cases hend : endOfHead text with
  | none =>
    rw [hend] at h
    cases h
  | some e =>
    obtain ⟨i, body⟩ := e
    rw [hend] at h
    obtain ⟨head, hhead, h⟩ := bind_eq_ok.1 h
    match head with
    | none => cases h
    | some (r₀, lines) =>
      obtain ⟨k₁, hskip, h⟩ := bind_eq_ok.1 h
      obtain ⟨r₁, hqs, h⟩ := bind_eq_ok.1 h
      obtain ⟨hr, rfl⟩ := Prod.ext_iff.1 (Prod.ext_iff.1 (Except.ok.inj h)).2
      obtain rfl := Option.some.inj hr
      exact ⟨text, i, body, r₀, lines, htext, hend, hhead, hskip, hqs⟩

/-- The request that `kws_parse_header` accepts, as it is before the query string
    adds its pairs. -/
theorem Kws.parseHeader_success {k k' : Kws} {r : KwsRequest}
    (h : k.parseHeader = .ok (.success, some r, k')) :
    ∃ r₀, FromLines r₀ ∧ k.headerLines = r₀.headers ∧ r₀.headers <+: r.headers ∧
      (∀ f, r.lineOf f = r₀.lineOf f) ∧ r.contentLength = r₀.contentLength := by
  obtain ⟨text, i, body, r₀, lines, htext, hend, hhead, -, hqs⟩ := parseHeader_parts h
  have hlines : k.headerLines = r₀.headers := by
    rw [headerLines, htext, ok_bind, hend]
    dsimp only
    rw [hhead]
  obtain ⟨headers, hpre, rfl⟩ := KwsRequest.parseOwnQs_headers hqs
  exact ⟨r₀, fromLines_of_parseHead hhead, hlines, hpre, fun f => by cases f <;> rfl, rfl⟩

/-- A request that `kws_parse_header` accepts has each of the fields from the last
    line with its name if and only if the last line that passes the comparison
    has the whole name. The lines are the first entries of its headers. -/
theorem Kws.parseHeader_fields {k k' : Kws} {r : KwsRequest}
    (h : k.parseHeader = .ok (.success, some r, k')) :
    k.headerLines <+: r.headers ∧ (FromNames r k.headerLines ↔ WholeNames k.headerLines) := by
  obtain ⟨r₀, h₀, hlines, hheaders, hline, hlength⟩ := parseHeader_success h
  rw [hlines]
  refine ⟨hheaders, Iff.trans ?_ (fromNames_iff h₀)⟩
  constructor
  · intro hn
    exact ⟨fun f => (hline f).symm.trans (hn.lineOf f), hlength.symm.trans hn.contentLength⟩
  · intro hn
    exact ⟨fun f => (hline f).trans (hn.lineOf f), hlength.trans hn.contentLength⟩

/-- A connection with these bytes in its receive buffer. -/
def requestAt0 (text : List UInt8) : Kws := { buffer := stringAt0 text, datalen := text.length }

/-- A request with a `Host` line. -/
theorem Kws.parseHeader_fields_host :
    ∃ r k', (requestAt0 (ascii "GET / HTTP/1.1\r\nHost: x\r\n\r\n")).parseHeader =
        .ok (.success, some r, k') ∧
      ((requestAt0 (ascii "GET / HTTP/1.1\r\nHost: x\r\n\r\n")).headerLines <+: r.headers ∧
        (FromNames r (requestAt0 (ascii "GET / HTTP/1.1\r\nHost: x\r\n\r\n")).headerLines ↔
          WholeNames (requestAt0 (ascii "GET / HTTP/1.1\r\nHost: x\r\n\r\n")).headerLines)) := by
  have haccepted : okAnd (fun a => a.1 = .success ∧ a.2.1.isSome)
      (requestAt0 (ascii "GET / HTTP/1.1\r\nHost: x\r\n\r\n")).parseHeader = true := by
    decide +kernel
  obtain ⟨⟨status, r, k'⟩, hrun, ha⟩ := okAnd_iff.1 haccepted
  obtain ⟨rfl, hr⟩ := of_decide_eq_true ha
  obtain ⟨r, rfl⟩ := Option.isSome_iff_exists.1 hr
  exact ⟨r, k', hrun, parseHeader_fields hrun⟩

/-- A `Hosting` line sets the host, though there is no `Host` line. -/
theorem Kws.parseHeader_hosting :
    ∃ r k', (requestAt0 (ascii "GET / HTTP/1.1\r\nHosting: x\r\n\r\n")).parseHeader =
        .ok (.success, some r, k') ∧
      ¬FromNames r (requestAt0 (ascii "GET / HTTP/1.1\r\nHosting: x\r\n\r\n")).headerLines := by
  have hset : okAnd (fun a => a.1 = .success ∧ ∃ r ∈ a.2.1, r.lineOf .host = some 0)
      (requestAt0 (ascii "GET / HTTP/1.1\r\nHosting: x\r\n\r\n")).parseHeader = true := by
    decide +kernel
  have hnone : lastMatch (Header.isNamed (PointerField.name .host))
      (requestAt0 (ascii "GET / HTTP/1.1\r\nHosting: x\r\n\r\n")).headerLines = none := by
    decide +kernel
  obtain ⟨⟨status, r, k'⟩, hrun, ha⟩ := okAnd_iff.1 hset
  obtain ⟨rfl, r, rfl, hline⟩ := of_decide_eq_true ha
  exact ⟨r, k', hrun, fun hn => by cases hline.symm.trans ((hn.lineOf .host).trans hnone)⟩

end Libks
