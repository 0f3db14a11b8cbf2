import Libks.Base.Http
import Libks.Kws.HeaderTable

/-!
# Requests on the wire

A request head with a request line and header lines, as a client sends it, and what
`kws_parse_header` makes of it where it stands in the receive buffer.

The table of the headers comes out (`Kws.Tables`) if the headers are literal and nothing
in the request line is in the way: the method has not nine letters, the path not too many
segments, and there is room for the pairs of the query string (`RequestHead.Kept`). If
the names of the headers are ordinary, the table comes out only then
(`parseHeader_table`).
-/

namespace Libks

open Base

/-- The room that the pairs of a query string take, up to the last text. -/
def pairsBefore (ts : List (List UInt8)) : ℕ :=
  (ts.dropLast.filter fun t => (qsPair t).isSome).length

/-- A request without its body. -/
structure RequestHead where
  method : List UInt8
  path : List UInt8
  query : Option (List UInt8)
  version : List UInt8
  headers : List Header
  deriving DecidableEq, Repr

namespace RequestHead

def requestLine (r : RequestHead) : List UInt8 :=
  r.method ++ 32 :: (targetOf r.path r.query ++ 32 :: r.version)

/-- The lines of the head. -/
def lines (r : RequestHead) : List (List UInt8) := r.requestLine :: r.headers.map Header.line

/-- The head as it is sent. -/
def bytes (r : RequestHead) : List UInt8 := Http.headOf r.lines

/-- The headers as they are to be found. -/
def table (r : RequestHead) : List Header := r.headers.map Header.entry

/-- A request line with a method of at most nine letters, a target that begins with a slash,
    and one of the versions there are; and headers with a name. -/
structure WellFormed (r : RequestHead) : Prop where
  letters : ∀ c ∈ r.method, (65 ≤ c ∧ c ≤ 90) ∨ (97 ≤ c ∧ c ≤ 122)
  length : 1 ≤ r.method.length ∧ r.method.length ≤ 9
  slash : r.path.head? = some 47
  mark : 63 ∉ r.path
  word : ∀ c ∈ targetOf r.path r.query, c ≠ 0 ∧ c ≠ 10 ∧ c ≠ 13 ∧ c ≠ 32
  version : r.version = ascii "HTTP/1.1" ∨ r.version = ascii "HTTP/1.0"
  headers : ∀ h ∈ r.headers, h.WellFormed

/-- There is room for the pairs of the query string behind the headers, or for none. -/
def QueryFits (r : RequestHead) : Prop :=
  ∀ q ∈ r.query, r.headers.length = kwsMaxHeaders ∨
    r.headers.length + pairsBefore (q.splitOn 38) < kwsMaxHeaders

/-- A request that is accepted with its headers. -/
structure Accepted (r : RequestHead) : Prop where
  method : r.method.length ≠ 9
  closed : closed false r.path
  depth : ¬TooDeep r.path
  literal : Literal r.headers
  query : r.QueryFits

/-- A request with the table that it is to have, or refused for too many headers. -/
def Kept (r : RequestHead) : Prop :=
  r.Accepted ∨ kwsMaxHeaders < r.headers.length ∧
    (r.method.length = 9 ∨ Libks.closed false r.path ∧ TooDeep r.path)

/-- A request in which backslashes, quotes and carets stand only where they are legal. -/
structure Ordinary (r : RequestHead) : Prop where
  path : closed false r.path
  names : ∀ h ∈ r.headers, h.Ordinary
  last : kwsMaxHeaders < r.headers.length → ∀ h ∈ r.headers.getLast?, trimSpaces h.v ≠ []

end RequestHead

/-- The receive buffer has these bytes, and a terminator. -/
structure Kws.Received (k : Kws) (bytes : List UInt8) : Prop where
  held : k.buffer.read 0 bytes.length = bytes
  ended : k.buffer bytes.length = 0
  room : bytes.length < k.buflen
  datalen : toUInt64 k.datalen = bytes.length

/-- `kws_parse_header` finds the headers of the request, in front of the pairs of its query
    string, or refuses it for too many of them. -/
def Kws.Tables (k : Kws) (r : RequestHead) : Prop :=
  match k.parseHeader with
  | .ok (.success, some q, _) => r.table <+: q.headers
  | .ok (.fail, none, _) => kwsMaxHeaders < r.headers.length
  | _ => False

variable {k : Kws} {r : RequestHead} {m : Mem} {size http : ℕ} {u s b : List UInt8}

/-! ## The end of the head -/

theorem headOf_eq {ls : List (List UInt8)} (hls : ls ≠ []) :
    Http.headOf ls = linesText ls ++ [13, 10, 13, 10] := by
  induction ls with
  | nil => exact absurd rfl hls
  | cons l ls ih =>
    rw [Http.headOf_cons]
    by_cases hnil : ls = []
    · rw [hnil, linesText_singleton]
      rfl
    · rw [ih hnil, linesText_cons l hnil]
      simp

/-- The end of a head is where its last line ends, whatever is behind it. -/
theorem endOfHead_headOf {ls : List (List UInt8)} (hls : ls ≠ []) (h : ∀ l ∈ ls, Http.IsLine l)
    (b : List UInt8) : endOfHead (Http.headOf ls ++ b) =
      some ((linesText ls).length, (linesText ls).length + 4) := by
  have hstr : strstr [13, 10, 13, 10] (Http.headOf ls) = some (linesText ls).length := by
    rw [strstr_eq_some_iff (List.cons_ne_nil _ _)]
    refine ⟨?_, fun j hj hpre => ?_⟩
    · rw [headOf_eq hls, List.drop_left]
    · obtain ⟨t, ht⟩ := hpre
      have hsuf : 13 :: 10 :: 13 :: 10 :: t <:+ Http.headOf ls := by
        rw [show 13 :: 10 :: 13 :: 10 :: t = [13, 10, 13, 10] ++ t from rfl, ht]
        exact List.drop_suffix _ _
      have hnil := Http.eq_nil_of_blank_suffix h hsuf
      have hlen := congrArg List.length ht
      rw [hnil, headOf_eq hls, List.length_drop, List.length_append, List.length_append] at hlen
      change 4 = (linesText ls).length + 4 - j at hlen
      omega
  rw [endOfHead, strstr_append_left (List.cons_ne_nil _ _) hstr]

namespace RequestHead.WellFormed

theorem notMem_lines {c : UInt8} (hw : r.WellFormed) (hc : c = 0 ∨ c = 10 ∨ c = 13) :
    ∀ l ∈ r.lines, c ∉ l := by
  intro l hl
  rcases List.mem_cons.1 hl with rfl | hl
  · rw [requestLine, List.mem_append, List.mem_cons, List.mem_append, List.mem_cons]
    rintro (hmem | rfl | hmem | rfl | hmem)
    · rcases hc with rfl | rfl | rfl <;> exact absurd (hw.letters _ hmem) (by decide)
    · exact absurd hc (by decide)
    · have := hw.word c hmem
      tauto
    · exact absurd hc (by decide)
    · rcases hw.version with hv | hv
      all_goals
        rw [hv] at hmem
        rcases hc with rfl | rfl | rfl <;> exact absurd hmem (by decide +kernel)
  · obtain ⟨h, hh, rfl⟩ := List.mem_map.1 hl
    exact (hw.headers h hh).notMem_line hc

theorem isLine (hw : r.WellFormed) : ∀ l ∈ r.lines, Http.IsLine l := by
  refine fun l hl => ⟨?_, hw.notMem_lines (.inr (.inl rfl)) l hl,
    hw.notMem_lines (.inr (.inr rfl)) l hl⟩
  rcases List.mem_cons.1 hl with rfl | hl
  · exact List.append_ne_nil_of_right_ne_nil _ (List.cons_ne_nil _ _)
  · obtain ⟨h, hh, rfl⟩ := List.mem_map.1 hl
    exact List.append_ne_nil_of_right_ne_nil _ (List.cons_ne_nil _ _)

theorem space (hw : r.WellFormed) : 32 ∉ r.method := fun h =>
  absurd (hw.letters 32 h) (by decide)

theorem nul (hw : r.WellFormed) : 0 ∉ linesText r.lines := by
  intro hmem
  rcases mem_linesText hmem with h | ⟨l, hl, h⟩
  · exact absurd h (by decide)
  · exact hw.notMem_lines (.inl rfl) l hl h

end RequestHead.WellFormed

theorem bytes_eq (r : RequestHead) : r.bytes = linesText r.lines ++ [13, 10, 13, 10] :=
  headOf_eq (List.cons_ne_nil _ _)

theorem bytes_split (r : RequestHead) : ∃ t, r.bytes = r.method ++ 32 :: t := by
  rw [RequestHead.bytes, RequestHead.lines, Http.headOf_cons, RequestHead.requestLine,
    List.append_assoc]
  exact ⟨_, rfl⟩

/-- The first ten bytes have their first space at the end just if the method has nine. -/
theorem first_space (hw : r.WellFormed) (hk : k.Received (r.bytes ++ b))
    (hlen : 10 ≤ (r.bytes ++ b).length) :
    (k.buffer.read 0 10).findIdx? (· = 32) = some r.method.length := by
  obtain ⟨t, ht⟩ := bytes_split r
  have hread : k.buffer.read 0 10 = (r.method ++ 32 :: (t ++ b)).take 10 := by
    rw [← Mem.take_read _ _ _ _ hlen, hk.held, ht, List.append_assoc, List.cons_append]
  obtain ⟨n, hn⟩ : ∃ n, 10 = r.method.length + (n + 1) := ⟨9 - r.method.length, by
    have := hw.length.2
    omega⟩
  rw [hread, hn, List.take_length_add_append, List.take_succ_cons]
  exact strchr_append_cons hw.space

theorem sixteen_le (hw : r.WellFormed) : 16 ≤ r.bytes.length := by
  have hversion : r.version.length = 8 := by
    rcases hw.version with hv | hv <;> rw [hv] <;> rfl
  have hpath : r.path ≠ [] := by
    intro hnil
    have hslash := hw.slash
    rw [hnil] at hslash
    cases hslash
  have hpos := List.length_pos_iff.2 hpath
  have hmethod := hw.length.1
  rw [RequestHead.bytes, RequestHead.lines, Http.headOf_cons, RequestHead.requestLine, targetOf]
  simp only [List.length_append, List.length_cons]
  have hend : 2 ≤ (Http.headOf (r.headers.map Header.line)).length := by
    rw [Http.headOf, List.length_append]
    exact Nat.le_add_left _ _
  omega

/-- The string in the receive buffer. -/
theorem loadStr_received (hw : r.WellFormed) (hk : k.Received (r.bytes ++ b)) :
    loadStr k.buflen k.buffer 0 = .ok (r.bytes ++ b.takeWhile (· ≠ 0)) := by
  have hnul : ∀ c ∈ r.bytes, decide (c ≠ 0) = true := by
    intro c hc
    rw [bytes_eq, List.mem_append] at hc
    rw [decide_eq_true_eq]
    rintro rfl
    rcases hc with hc | hc
    · exact hw.nul hc
    · exact absurd hc (by decide)
  have hstr : k.buffer.IsStr 0 ((r.bytes ++ b).takeWhile (· ≠ 0)) :=
    Mem.isStr_takeWhile hk.held (by rw [Nat.zero_add]; exact hk.ended)
  rw [List.takeWhile_append_of_pos hnul] at hstr
  refine loadStr_str hstr ?_
  have hroom := hk.room
  have hle := (List.takeWhile_prefix (l := b) (· ≠ 0)).length_le
  rw [List.length_append] at hroom ⊢
  omega

theorem endOfHead_bytes (hw : r.WellFormed) (b : List UInt8) : endOfHead (r.bytes ++ b) =
    some ((linesText r.lines).length, (linesText r.lines).length + 4) :=
  endOfHead_headOf (List.cons_ne_nil _ _) hw.isLine b

/-- What `kws_parse_header` makes of what it finds in the receive buffer. -/
theorem parseHeader_eq (hw : r.WellFormed) (hk : k.Received (r.bytes ++ b))
    (hmethod : r.method.length ≠ 9) :
    ∃ k₁ k₂, k.parseHeader = parseHead (linesText r.lines) >>= fun head =>
      match head with
      | none => .ok (.fail, none, k₁)
      | some (q, lines) => KwsRequest.parseOwnQs { q with
          bytesBuffered := (r.bytes ++ b).length
          bytesHeader := (linesText r.lines).length + 4
          bytesRead := (linesText r.lines).length + 4 } >>= fun q =>
        .ok (.success, some q, if lines then k₂ else k₁) := by
  have hlen : 16 ≤ (r.bytes ++ b).length := by
    rw [List.length_append]
    exact Nat.le_trans (sixteen_le hw) (Nat.le_add_right _ _)
  let k₁ : Kws := { k with buffer := k.buffer.write (linesText r.lines).length [0] }
  -- Moving the rest stays in the buffer.
  obtain ⟨k₂, hshift⟩ : ∃ k₂, k₁.shiftRest (r.bytes ++ b).length ((linesText r.lines).length + 4) =
      .ok k₂ := by
    have hbody : (linesText r.lines).length + 4 ≤ (r.bytes ++ b).length := by
      rw [List.length_append, bytes_eq, List.length_append]
      exact Nat.le_add_right _ _
    have hroom : (r.bytes ++ b).length < k₁.buflen := hk.room
    rw [Kws.shiftRest]
    simp only [if_pos hbody]
    split_ifs with hnil hover
    · exact ⟨_, rfl⟩
    · omega
    · exact ⟨_, rfl⟩
  refine ⟨k₁, k₂, ?_⟩
  rw [Kws.parseHeader, hk.datalen]
  dsimp only
  rw [if_neg (by omega), first_space hw hk (by omega),
    if_neg fun h => hmethod (Option.some.inj h), loadStr_received hw hk, ok_bind,
    endOfHead_bytes hw]
  dsimp only
  rw [bytes_eq, List.append_assoc, List.take_left, ← bytes_eq]
  refine congrArg _ (funext fun head => ?_)
  cases head with
  | none => rfl
  | some q =>
    obtain ⟨q, lines⟩ := q
    cases lines with
    | false => rfl
    | true =>
      change (k₁.shiftRest _ _ >>= _) = _
      rw [hshift]
      rfl

/-! ## The query string -/

variable {hs : List Header} {ts : List (List UInt8)} {q : KwsRequest} {query : Option (List UInt8)}

theorem suffix_qsLoop (hs : List Header) (ts : List (List UInt8)) : (qsLoop hs ts).2 <:+ ts := by
  induction ts generalizing hs with
  | nil => exact List.suffix_refl _
  | cons t ts ih =>
    rw [qsLoop]
    split_ifs
    · exact (ih _).trans (List.suffix_cons t ts)
    · exact List.suffix_refl _

theorem qsLoop_rest_eq_nil_iff (hts : ts ≠ []) :
    (qsLoop hs ts).2 = [] ↔ hs.length + pairsBefore ts < kwsMaxHeaders := by
  induction ts generalizing hs with
  | nil => exact absurd rfl hts
  | cons t ts ih =>
    rw [qsLoop]
    by_cases hfull : hs.length < kwsMaxHeaders
    · rw [if_pos hfull]
      cases ts with
      | nil => exact iff_of_true rfl hfull
      | cons t' ts =>
        rw [ih (List.cons_ne_nil _ _), List.length_append, pairsBefore, pairsBefore,
          List.dropLast_cons_cons, List.filter_cons]
        cases qsPair t with
        | none => rfl
        | some h =>
          rw [if_pos Option.isSome_some, List.length_cons, Option.toList_some,
            List.length_singleton, Nat.add_assoc, Nat.add_comm 1]
    · rw [if_neg hfull]
      exact iff_of_false (List.cons_ne_nil _ _) (by omega)

theorem qsLoop_rest_eq_self_iff (hts : ts ≠ []) :
    (qsLoop hs ts).2 = ts ↔ kwsMaxHeaders ≤ hs.length := by
  obtain ⟨t, ts, rfl⟩ := List.exists_cons_of_ne_nil hts
  rw [qsLoop]
  split_ifs with hfull
  · refine iff_of_false (fun heq => ?_) (by omega)
    have hlen := (suffix_qsLoop (hs ++ (qsPair t).toList) ts).length_le
    rw [heq, List.length_cons] at hlen
    omega
  · exact iff_of_true rfl (by omega)

theorem length_qsLoop_le (hhs : hs.length ≤ kwsMaxHeaders) :
    (qsLoop hs ts).1.length ≤ kwsMaxHeaders := by
  induction ts generalizing hs with
  | nil => exact hhs
  | cons t ts ih =>
    rw [qsLoop]
    split_ifs with hfull
    · refine ih ?_
      have hlen : (qsPair t).toList.length ≤ 1 := by cases qsPair t <;> simp
      rw [List.length_append]
      omega
    · exact hhs

/-- The string of the query is in the block of the request. -/
def HasQuery (q : KwsRequest) (query : Option (List UInt8)) : Prop :=
  ∃ p, q.qs = query.map (fun _ => p) ∧
    ∀ s, query = some s → q.buffer.IsStr p s ∧ p + s.length < q.size

/-- The pairs of the query string go behind the headers, if the copy of it can be freed. -/
theorem parseOwnQs_query (hq : HasQuery q query) (hlen : q.headers.length ≤ kwsMaxHeaders) :
    ((∀ s ∈ query, q.headers.length = kwsMaxHeaders ∨
        q.headers.length + pairsBefore (s.splitOn 38) < kwsMaxHeaders) →
      ∃ hs, q.headers <+: hs ∧ hs.length ≤ kwsMaxHeaders ∧
        q.parseOwnQs = .ok { q with headers := hs }) ∧
    ((∃ s ∈ query, ¬(q.headers.length = kwsMaxHeaders ∨
        q.headers.length + pairsBefore (s.splitOn 38) < kwsMaxHeaders)) →
      q.parseOwnQs = .error .assertion) := by
  obtain ⟨p, hqs, hstr⟩ := hq
  cases query with
  | none =>
    refine ⟨fun _ => ⟨q.headers, List.prefix_refl _, hlen, ?_⟩, fun ⟨s, hs, _⟩ => by cases hs⟩
    have hnone : ¬q.qs.isSome := by
      rw [hqs]
      exact Bool.false_ne_true
    rw [KwsRequest.parseOwnQs, if_neg hnone]
  | some s =>
    obtain ⟨hs, hp⟩ := hstr s rfl
    have hne : s.splitOn 38 ≠ [] := by
      rw [List.splitOn_eq_splitOnP]
      exact List.splitOnP_ne_nil _ _
    have hparse : q.parseOwnQs =
        if (qsLoop q.headers (s.splitOn 38)).2 ≠ [] ∧
            (qsLoop q.headers (s.splitOn 38)).2 ≠ s.splitOn 38 then .error .assertion
        else .ok { q with headers := (qsLoop q.headers (s.splitOn 38)).1 } := by
      have htext : q.queryText none = .ok s := by
        rw [KwsRequest.queryText, hqs]
        exact loadStr_str hs hp
      have hsome : q.qs.isSome := by
        rw [hqs]
        rfl
      rw [KwsRequest.parseOwnQs, if_pos hsome, KwsRequest.parseQs, htext, ok_bind]
      dsimp only
      simp only [true_and]
      split_ifs
      · rfl
      · rfl
    rw [hparse]
    simp only [ne_eq, qsLoop_rest_eq_nil_iff hne, qsLoop_rest_eq_self_iff hne]
    constructor
    · intro hfits
      have hfits := hfits s rfl
      rw [if_neg (by omega)]
      exact ⟨_, initial_qsLoop _ _, length_qsLoop_le hlen, rfl⟩
    · rintro ⟨s', hs', hfull⟩
      obtain rfl := Option.some.inj hs'
      rw [if_pos (by omega)]

/-! ## The head -/

/-- The text of the header lines. -/
def RequestHead.headerText (r : RequestHead) : List UInt8 := linesText (r.headers.map Header.line)

/-- What is behind the target. -/
def RequestHead.rest (r : RequestHead) : List UInt8 :=
  if r.headers = [] then r.version else (r.version ++ [13]) ++ 10 :: r.headerText

theorem linesText_lines (r : RequestHead) :
    linesText r.lines = r.method ++ 32 :: (targetOf r.path r.query ++ 32 :: r.rest) := by
  rw [RequestHead.lines, RequestHead.rest]
  split_ifs with hnil
  · rw [hnil, List.map_nil, linesText_singleton, RequestHead.requestLine]
  · rw [linesText_cons _ (by simpa using hnil), RequestHead.requestLine, RequestHead.headerText]
    simp

theorem version_rest (hw : r.WellFormed) : ¬(¬(ascii "HTTP/1.1").isPrefixOf r.rest ∧
    ¬(ascii "HTTP/1.0").isPrefixOf r.rest) := by
  have hpre : r.version <+: r.rest := by
    rw [RequestHead.rest]
    split_ifs
    · exact List.prefix_refl _
    · rw [List.append_assoc]
      exact List.prefix_append _ _
  rintro ⟨h₁, h₀⟩
  rw [List.isPrefixOf_iff_prefix] at h₁ h₀
  rcases hw.version with hv | hv
  · exact h₁ (hv ▸ hpre)
  · exact h₀ (hv ▸ hpre)

/-- The text of the header lines begins with the first name. -/
theorem unnamed_headerText (hne : r.headers ≠ [])
    (h : ∀ h ∈ r.headers.head?, ¬[94, 94] <+: h.k) :
    r.headerText ≠ [] ∧ ¬[94, 94] <+: r.headerText := by
  obtain ⟨e, hs, heq⟩ := List.exists_cons_of_ne_nil hne
  have he : ¬[94, 94] <+: e.k := h e (by rw [heq]; rfl)
  obtain ⟨t, ht⟩ : ∃ t, r.headerText = e.k ++ 58 :: t := by
    rw [RequestHead.headerText, heq, List.map_cons]
    by_cases hnil : hs.map Header.line = []
    · rw [hnil, linesText_singleton]
      exact ⟨_, rfl⟩
    · rw [linesText_cons _ hnil, Header.line, List.append_assoc, List.append_assoc, List.cons_append]
      exact ⟨_, rfl⟩
  rw [ht]
  exact ⟨List.append_ne_nil_of_right_ne_nil _ (List.cons_ne_nil _ _), not_named he⟩

/-- What `kws_parse_header` makes of its copy of the head. -/
theorem parseHead_request (hw : r.WellFormed) (hc : closed false r.path) :
    (TooDeep r.path → parseHead (linesText r.lines) = .ok none) ∧
    (¬TooDeep r.path → (∀ h ∈ r.headers.head?, ¬[94, 94] <+: h.k) →
      (¬Scanned 10 kwsMaxHeaders r.headerText →
        parseHead (linesText r.lines) = .error .outOfBounds) ∧
      (Scanned 10 kwsMaxHeaders r.headerText →
        (∀ t ∈ tokens 10 kwsMaxHeaders r.headerText, SplitsFirst t) →
        ∃ o lines, parseHead (linesText r.lines) = .ok (o.map (·, lines)) ∧
          o.map KwsRequest.headers = (tokens 10 kwsMaxHeaders r.headerText).mapM entryOf ∧
          ∀ q, o = some q → HasQuery q r.query)) := by
  have hstr := Mem.isStr_write (fun _ => 0) 0 hw.nul
  have ht : IsTarget r.path r.query :=
    ⟨hw.slash, fun h32 => (hw.word 32 h32).2.2.2 rfl, hw.mark, hc⟩
  rw [Libks.parseHead]
  generalize htext : linesText r.lines = text at hstr ⊢
  rw [linesText_lines] at htext
  have hstr' : (Mem.write (fun _ => 0) 0 (text ++ [0])).IsStr 0
      (r.method ++ 32 :: (targetOf r.path r.query ++ 32 :: r.rest)) := htext ▸ hstr
  have hsize : (r.method ++ 32 :: (targetOf r.path r.query ++ 32 :: r.rest)).length <
      text.length + 1 := by
    rw [htext]
    exact Nat.lt_succ_self _
  obtain ⟨hdeep, hline⟩ := parseRequestLine_str hstr' hsize hw.space ht
  have hlen := congrArg List.length htext
  rw [List.length_append, List.length_cons, List.length_append, List.length_cons] at hlen
  constructor
  · intro hd
    rw [hdeep hd]
    rfl
  intro hd hnamed
  obtain ⟨m, hrest, -, hquery, hline⟩ := hline hd
  rw [if_neg (version_rest hw)] at hline
  -- The request as its first line leaves it.
  let http := r.method.length + 1 + (targetOf r.path r.query).length + 1
  obtain ⟨q₀, hq₀, hm, hsize₀, hqs₀, hheaders₀⟩ : ∃ q₀ : KwsRequest,
      parseRequestLine (text.length + 1) (Mem.write (fun _ => 0) 0 (text ++ [0])) =
        .ok (some (q₀, http)) ∧
      q₀.buffer = m ∧ q₀.size = text.length + 1 ∧
      q₀.qs = r.query.map (fun _ => r.method.length + 1 + r.path.length + 1) ∧ q₀.headers = [] :=
    ⟨_, hline, rfl, rfl, rfl, rfl⟩
  have hhas {q : KwsRequest} (hqs : q.qs = q₀.qs) (hq : q.size = q₀.size)
      (hbuffer : ∀ j < http, q.buffer j = q₀.buffer j) : HasQuery q r.query := by
    refine ⟨_, hqs.trans hqs₀, fun s hs => ?_⟩
    have htarget : (targetOf r.path r.query).length = r.path.length + (s.length + 1) := by
      rw [hs, targetOf, Option.elim_some, List.length_append, List.length_cons]
    refine ⟨(hquery s hs).congr fun j hj hj' => ?_, ?_⟩
    · rw [hbuffer j (by omega), hm]
    · rw [hq, hsize₀]
      omega
  rw [hq₀, ok_bind]
  dsimp only
  rw [← hm] at hrest
  by_cases hnil : r.headers = []
  · -- There is no line behind the first one.
    have hrest' : r.rest = r.version := if_pos hnil
    have hversion : 10 ∉ r.version := by
      rcases hw.version with hv | hv <;> rw [hv] <;> decide +kernel
    have htext' : r.headerText = [] := by
      rw [RequestHead.headerText, hnil]
      rfl
    rw [htext']
    rw [hrest'] at hrest hlen
    refine ⟨fun hscan => absurd (.inl rfl) hscan, fun _ _ => ⟨some q₀, false, ?_, ?_, ?_⟩⟩
    · rw [KwsRequest.parseLines, cutAt_str hrest (by omega), strchr_eq_none_iff.2 hversion]
      rfl
    · exact congrArg some hheaders₀
    · intro q hq
      obtain rfl := Option.some.inj hq
      exact hhas rfl rfl fun _ _ => rfl
  · have hrest' : r.rest = (r.version ++ [13]) ++ 10 :: r.headerText := if_neg hnil
    obtain ⟨hne, hunnamed⟩ := unnamed_headerText hnil hnamed
    have hversion : 10 ∉ r.version ++ [13] := by
      rcases hw.version with hv | hv <;> rw [hv] <;> decide +kernel
    rw [hrest'] at hrest hlen
    obtain ⟨hopen, hlaid⟩ := parseLines_str hrest hversion (by omega) hne hunnamed
    refine ⟨hopen, fun hscan hsplits => ?_⟩
    obtain ⟨o, hparse, hheaders, hkept⟩ := hlaid hscan hsplits
    refine ⟨o, true, hparse, ?_, fun q hq => ?_⟩
    · rw [hheaders, hheaders₀]
      exact Option.map_id'
    · obtain ⟨hqs, hsize', hbuffer⟩ := hkept q hq
      exact hhas hqs hsize' hbuffer

/-! ## The table -/

theorem parseHeader_nine (hw : r.WellFormed) (hk : k.Received (r.bytes ++ b))
    (hmethod : r.method.length = 9) : k.parseHeader = .ok (.fail, none, k) := by
  have hlen : 16 ≤ (r.bytes ++ b).length := by
    rw [List.length_append]
    exact Nat.le_trans (sixteen_le hw) (Nat.le_add_right _ _)
  rw [Kws.parseHeader, hk.datalen]
  dsimp only
  rw [if_neg (by omega), first_space hw hk (by omega), if_pos (congrArg some hmethod)]

/-- A request that is separated into some entries. -/
theorem parseHeader_entries (hw : r.WellFormed) (hk : k.Received (r.bytes ++ b))
    (hmethod : r.method.length ≠ 9) (hc : closed false r.path) (hdepth : ¬TooDeep r.path)
    (hnamed : ∀ h ∈ r.headers.head?, ¬[94, 94] <+: h.k)
    (hscan : Scanned 10 kwsMaxHeaders r.headerText)
    (hsplits : ∀ t ∈ tokens 10 kwsMaxHeaders r.headerText, SplitsFirst t) :
    ((tokens 10 kwsMaxHeaders r.headerText).mapM entryOf = none →
      ∃ k', k.parseHeader = .ok (.fail, none, k')) ∧
    (∀ es, (tokens 10 kwsMaxHeaders r.headerText).mapM entryOf = some es →
      ((∀ s ∈ r.query, es.length = kwsMaxHeaders ∨
          es.length + pairsBefore (s.splitOn 38) < kwsMaxHeaders) →
        ∃ q k', k.parseHeader = .ok (.success, some q, k') ∧ es <+: q.headers ∧
          q.headers.length ≤ kwsMaxHeaders) ∧
      ((∃ s ∈ r.query, ¬(es.length = kwsMaxHeaders ∨
          es.length + pairsBefore (s.splitOn 38) < kwsMaxHeaders)) →
        k.parseHeader = .error .assertion)) := by
  obtain ⟨k₁, k₂, hparse⟩ := parseHeader_eq hw hk hmethod
  obtain ⟨-, hlaid⟩ := (parseHead_request hw hc).2 hdepth hnamed
  obtain ⟨o, lines, hhead, hheaders, hquery⟩ := hlaid hscan hsplits
  rw [hhead, ok_bind] at hparse
  rw [← hheaders]
  cases o with
  | none => exact ⟨fun _ => ⟨k₁, hparse⟩, fun es hes => by cases hes⟩
  | some q =>
    refine ⟨fun hnone => absurd hnone (Option.some_ne_none _), fun es hes => ?_⟩
    obtain rfl := Option.some.inj hes
    have hlen : q.headers.length ≤ kwsMaxHeaders := by
      have hmap := hheaders.symm
      rw [Option.map_some, mapM_eq_some_iff] at hmap
      rw [← hmap.length_eq, tokens, List.length_map]
      exact length_rawTokens_le_room
    -- The counts of bytes do not matter to the query string.
    obtain ⟨q', hheaders', hhas, hparse⟩ : ∃ q' : KwsRequest, q'.headers = q.headers ∧
        HasQuery q' r.query ∧ k.parseHeader = q'.parseOwnQs >>= fun q =>
          .ok (.success, some q, if lines then k₂ else k₁) :=
      ⟨{ q with
          bytesBuffered := (r.bytes ++ b).length
          bytesHeader := (linesText r.lines).length + 4
          bytesRead := (linesText r.lines).length + 4 },
        rfl, hquery q rfl, hparse⟩
    rw [← hheaders'] at hlen ⊢
    obtain ⟨hfits, hfull⟩ := parseOwnQs_query hhas hlen
    constructor
    · intro h
      obtain ⟨hs, hpre, hle, hqs⟩ := hfits h
      refine ⟨{ q' with headers := hs }, if lines then k₂ else k₁, ?_, hpre, hle⟩
      rw [hparse, hqs]
      rfl
    · intro h
      rw [hparse, hfull h]
      rfl

/-- If nothing in a request is in the way of its headers, `kws_parse_header` finds them. -/
theorem tables_of_kept (hw : r.WellFormed) (hk : k.Received (r.bytes ++ b)) (h : r.Kept) :
    k.Tables r := by
  rcases h with h | ⟨hmany, hmethod | ⟨hc, hdeep⟩⟩
  · obtain ⟨hscan, hsplits, hmap⟩ := h.literal.table hw.headers
    have hnamed : ∀ e ∈ r.headers.head?, ¬[94, 94] <+: e.k := fun e he =>
      h.literal.names e (List.mem_of_mem_head? he)
    obtain ⟨-, hentries⟩ := parseHeader_entries hw hk h.method h.closed h.depth hnamed hscan hsplits
    obtain ⟨q, k', hparse, hpre, -⟩ := (hentries _ hmap).1 fun s hs => by
      rw [List.length_map]
      exact h.query s hs
    rw [Kws.Tables, hparse]
    exact hpre
  · rw [Kws.Tables, parseHeader_nine hw hk hmethod]
    exact hmany
  · by_cases hmethod : r.method.length = 9
    · rw [Kws.Tables, parseHeader_nine hw hk hmethod]
      exact hmany
    · obtain ⟨k₁, k₂, hparse⟩ := parseHeader_eq hw hk hmethod
      rw [(parseHead_request hw hc).1 hdeep, ok_bind] at hparse
      rw [Kws.Tables, hparse]
      exact hmany

/-- If the names are ordinary, it finds them only then. -/
theorem kept_of_tables (hw : r.WellFormed) (hk : k.Received (r.bytes ++ b)) (ho : r.Ordinary)
    (h : k.Tables r) : r.Kept := by
  rw [Kws.Tables] at h
  -- The requests that are refused are among the kept ones by the second case.
  by_cases hmethod : r.method.length = 9
  · rw [parseHeader_nine hw hk hmethod] at h
    exact .inr ⟨h, .inl hmethod⟩
  by_cases hdeep : TooDeep r.path
  · obtain ⟨k₁, k₂, hparse⟩ := parseHeader_eq hw hk hmethod
    rw [(parseHead_request hw ho.path).1 hdeep, ok_bind] at hparse
    rw [hparse] at h
    exact .inr ⟨h, .inr ⟨ho.path, hdeep⟩⟩
  have hnamed : ∀ e ∈ r.headers.head?, ¬[94, 94] <+: e.k := fun e he =>
    (ho.names e (List.mem_of_mem_head? he)).unnamed
  have hscan : Scanned 10 kwsMaxHeaders r.headerText := by
    by_contra hscan
    obtain ⟨k₁, k₂, hparse⟩ := parseHeader_eq hw hk hmethod
    rw [((parseHead_request hw ho.path).2 hdeep hnamed).1 hscan] at hparse
    rw [hparse] at h
    exact h
  obtain ⟨hnone, hentries⟩ := parseHeader_entries hw hk hmethod ho.path hdeep hnamed hscan
    (splitsFirst_tokens hw.headers ho.names)
  -- Every line has its entry: the last value is not empty, as the table has it.
  cases hmap : (tokens 10 kwsMaxHeaders r.headerText).mapM entryOf with
  | none =>
    obtain ⟨k', hparse⟩ := hnone hmap
    rw [hparse] at h
    obtain ⟨es, hes⟩ := exists_table hw.headers ho.names (ho.last h)
    cases hes.symm.trans hmap
  | some es =>
    obtain ⟨hfits, hfull⟩ := hentries es hmap
    by_cases hquery : ∀ s ∈ r.query, es.length = kwsMaxHeaders ∨
        es.length + pairsBefore (s.splitOn 38) < kwsMaxHeaders
    · obtain ⟨q, k', hparse, hpre, hle⟩ := hfits hquery
      rw [hparse] at h
      have hn : r.headers.length ≤ kwsMaxHeaders := by
        have hlen := h.length_le
        rw [RequestHead.table, List.length_map] at hlen
        exact Nat.le_trans hlen hle
      -- The entries are those of the headers, so nothing was lost of them.
      have hes : es <+: r.headers.map Header.entry := by
        refine List.prefix_of_prefix_length_le hpre h ?_
        rw [mapM_eq_some_iff] at hmap
        rw [← hmap.length_eq, tokens, List.length_map, List.length_map]
        have hle := length_rawTokens_le (n := kwsMaxHeaders) fun l hl => (mem_lines hw.headers l hl).1
        rwa [List.length_map] at hle
      have hliteral := literal_of_table hw.headers ho.names hn hscan hmap hes
      obtain ⟨-, -, htable⟩ := hliteral.table hw.headers
      obtain rfl := Option.some.inj (hmap.symm.trans htable)
      refine .inl ⟨hmethod, ho.path, hdeep, hliteral, fun s hs => ?_⟩
      have hroom := hquery s hs
      rwa [List.length_map] at hroom
    · simp only [not_forall] at hquery
      obtain ⟨s, hs, hover⟩ := hquery
      rw [hfull ⟨s, hs, hover⟩] at h
      exact h.elim

/-- Of a request in the receive buffer `kws_parse_header` finds the headers, or refuses it for
    too many, if nothing in it is in the way; if its names are ordinary, only then. -/
theorem Kws.parseHeader_table (hw : r.WellFormed) (hk : k.Received (r.bytes ++ b)) :
    (r.Kept → k.Tables r) ∧ (r.Ordinary → k.Tables r → r.Kept) :=
  ⟨tables_of_kept hw hk, kept_of_tables hw hk⟩

/-- A request with two headers, the last one with an apostrophe and spaces around its
    value. -/
def shortRequest : RequestHead where
  method := ascii "GET"
  path := ascii "/a"
  query := some (ascii "b=c")
  version := ascii "HTTP/1.1"
  headers := [⟨ascii "Host", ascii "x"⟩, ⟨ascii "Via", ascii " y's "⟩]

/-- It gets its table. -/
theorem Kws.parseHeader_table_short :
    (requestAt0 (shortRequest.bytes ++ [])).Tables shortRequest := by
  have hw : shortRequest.WellFormed := by
    refine ⟨by decide +kernel, by decide +kernel, by decide +kernel, by decide +kernel,
      by decide +kernel, .inl rfl, ?_⟩
    intro h hh
    rcases List.mem_cons.1 hh with rfl | hh
    · exact ⟨by decide +kernel, by decide +kernel, by decide +kernel⟩
    · obtain rfl := List.mem_singleton.1 hh
      exact ⟨by decide +kernel, by decide +kernel, by decide +kernel⟩
  have hk : (requestAt0 (shortRequest.bytes ++ [])).Received (shortRequest.bytes ++ []) :=
    ⟨by decide +kernel, by decide +kernel, by decide +kernel, by decide +kernel⟩
  have hliteral : Literal shortRequest.headers :=
    ⟨by decide +kernel, by decide +kernel, by decide +kernel, by decide +kernel,
      by decide +kernel, by decide +kernel⟩
  have hquery : shortRequest.QueryFits := by
    intro q hq
    obtain rfl := Option.some.inj hq
    decide +kernel
  have hdepth : ¬TooDeep shortRequest.path := by
    unfold TooDeep
    decide +kernel
  exact (parseHeader_table hw hk).1
    (.inl ⟨by decide +kernel, by decide +kernel, hdepth, hliteral, hquery⟩)

end Libks
