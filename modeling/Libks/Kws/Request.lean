import Libks.Base.Decimal
import Libks.Kws.State
import Libks.Status
import Libks.Text.Separate
import Libks.Text.Url

/-!
# HTTP requests

`kws_parse_header` reads the head of a request off the receive buffer, into a
copy that it cuts into pieces: NULs over spaces, `?` and line ends, and
`ks_separate_string` for the path and the header lines. The pointers of a
`kws_request_t` point into this copy. `kws_parse_qs` appends the pairs of a
query string to the headers, and `kws_keepalive` waits for the next head.
-/

namespace Libks

open Base

/-- `KWS_MAX_HEADERS`. -/
def kwsMaxHeaders : ℕ := 64

/-- An entry of `headers_k` and `headers_v`. -/
structure Header where
  k : List UInt8
  v : List UInt8
  deriving DecidableEq, Repr

/-- A pointer to the value on a header line, with the number of the line. -/
structure LineValue where
  line : ℕ
  value : ℕ
  deriving DecidableEq, Repr

/-- `kws_request_t`. Pointers are offsets in `_buffer`. -/
structure KwsRequest where
  /-- `_buffer`, and its size. -/
  buffer : Mem := fun _ => 0
  size : ℕ := 0
  method : ℕ := 0
  uri : ℕ := 0
  qs : Option ℕ := none
  host : Option LineValue := none
  port : ℕ := 0
  userAgent : Option LineValue := none
  referer : Option LineValue := none
  keepalive : Bool := false
  contentType : Option LineValue := none
  authorization : Option LineValue := none
  contentLength : ℕ := 0
  bytesHeader : ℕ := 0
  bytesRead : ℕ := 0
  bytesBuffered : ℕ := 0
  /-- The first `total_headers` entries. -/
  headers : List Header := []

/-! ## Strings in a block -/

/-- The string at `p`; there has to be a terminator in the block. -/
def loadStr (size : ℕ) (m : Mem) (p : ℕ) : Except Fault (List UInt8) :=
  let s := m.strAt (size - p) p
  if s.length < size - p then .ok s else .error .outOfBounds

theorem loadStr_str {m : Mem} {p size : ℕ} {s : List UInt8} (h : m.IsStr p s)
    (hp : p + s.length < size) : loadStr size m p = .ok s := by
  have hstr : m.strAt (size - p) p = s := Mem.strAt_eq h (by omega)
  rw [loadStr, hstr]
  exact if_pos (by omega)

/-- `if ((p = strchr (s, c))) *p++ = '\0';`. -/
def cutAt (size : ℕ) (m : Mem) (s : ℕ) (c : UInt8) : Except Fault (Option (Mem × ℕ)) := do
  let str ← loadStr size m s
  return (strchr c str).map fun i => (m.write (s + i) [0], s + i + 1)

/-! ## The path -/

/-- The segments that `clean_uri` keeps, from the second on. -/
def keepSegments (size : ℕ) (m : Mem) : List ℕ → List ℕ → Except Fault (List ℕ)
  | kept, [] => .ok kept
  | kept, p :: ps => do
    let s ← loadStr size m p
    if s = [] ∨ s = ascii "." then keepSegments size m kept ps
    else if s = ascii ".." then keepSegments size m kept.dropLast ps
    else keepSegments size m (kept ++ [p]) ps

/-- The loop that prints the segments over the path. -/
def printSegments (size : ℕ) : Mem → ℕ → List ℕ → Except Fault Mem
  | m, _, [] => .ok m
  | m, uri, p :: ps => do
    let s ← loadStr size m p
    if size < uri + s.length + 2 then .error .outOfBounds
    else printSegments size (m.write uri (47 :: s ++ [0])) (uri + (s.length + 1)) ps

/-- `clean_uri`. -/
def cleanUri (size : ℕ) (m : Mem) (uri : ℕ) : Except Fault (Status × Mem) := do
  let (m, argv) ← ksSeparateString size m uri 47 64
  if argv.length = 64 then return (.fail, m)
  else
    let kept ← keepSegments size m [] argv.tail
    let m ← printSegments size m uri kept
    if m uri = 0 then
      if size < uri + 2 then .error .outOfBounds
      else return (.success, m.write uri [47, 0])
    else return (.success, m)

/-! ## The query string -/

/-- What one round of `kws_parse_qs` finds between two `&`. -/
def qsPair (q : List UInt8) : Option Header :=
  let q := q.map fun c => if c = 43 then 32 else c
  -- The string is decoded in place, and a NUL among its bytes ends it.
  let name := (urlDecode q).takeWhile (· ≠ 0)
  (strchr 61 name).map fun i => ⟨name.take i, name.drop (i + 1)⟩

/-- The loop of `kws_parse_qs`: the headers, and what is left of the string. -/
def qsLoop : List Header → List (List UInt8) → List Header × List (List UInt8)
  | hs, [] => (hs, [])
  | hs, q :: qs =>
    if hs.length < kwsMaxHeaders then qsLoop (hs ++ (qsPair q).toList) qs else (hs, q :: qs)

/-- The string `kws_parse_qs` works on: one of the caller, or a copy of the
    request's own. -/
def KwsRequest.queryText (request : KwsRequest) : Option (List UInt8) → Except Fault (List UInt8)
  | some qs => .ok qs
  | none =>
    match request.qs with
    -- `strdup` of a null pointer.
    | none => .error .outOfBounds
    | some p => loadStr request.size request.buffer p

/-- `kws_parse_qs`. -/
def KwsRequest.parseQs (request : KwsRequest) (qs : Option (List UInt8)) :
    Except Fault (Status × KwsRequest) := do
  let q ← request.queryText qs
  let (headers, rest) := qsLoop request.headers (q.splitOn 38)
  -- A copy is freed through the pointer to what is left of it.
  if qs = none ∧ rest ≠ [] ∧ rest ≠ q.splitOn 38 then .error .assertion
  else return (.success, { request with headers })

/-- `if (request->qs) kws_parse_qs (request, NULL);`. -/
def KwsRequest.parseOwnQs (request : KwsRequest) : Except Fault KwsRequest :=
  if request.qs.isSome then do
    let (_, request) ← request.parseQs none
    return request
  else .ok request

/-! ## The header lines -/

/-- A header that `kws_parse_header` looks for, on line `i`: `name` and the value
    `s` at `value`. -/
def KwsRequest.dispatch (r : KwsRequest) (i : ℕ) (name : List UInt8) (value : ℕ)
    (s : List UInt8) : KwsRequest :=
  if startsWithNoCase (ascii "User-Agent") name then { r with userAgent := some ⟨i, value⟩ }
  else if startsWithNoCase (ascii "Host") name then
    match strchr 58 s with
    | none => { r with host := some ⟨i, value⟩ }
    | some j =>
      { r with
        host := some ⟨i, value⟩
        buffer := r.buffer.write (value + j) [0]
        port := if s.drop (j + 1) = [] then r.port else (atoi (s.drop (j + 1)) % 2 ^ 16).toNat }
  else if startsWithNoCase (ascii "Content-Type") name then { r with contentType := some ⟨i, value⟩ }
  else if startsWithNoCase (ascii "Content-Length") name then
    { r with contentLength := toUInt64 (atoi s) }
  else if startsWithNoCase (ascii "Referer") name then { r with referer := some ⟨i, value⟩ }
  -- Seven letters are compared.
  else if startsWithNoCase (ascii "Authori") name then { r with authorization := some ⟨i, value⟩ }
  else r

/-- The header line at `p`, cut in two: the name, where the value stands and what
    it is, without spaces before it and without its CR. A line has to have a `:`. -/
def splitLine (size : ℕ) (m : Mem) (p : ℕ) :
    Except Fault (Option (Mem × List UInt8 × ℕ × List UInt8)) := do
  let (m, argv) ← ksSeparateString size m p 58 2
  match argv with
  | [header, value] =>
    let s ← loadStr size m value
    let value := value + (s.takeWhile (· = 32)).length
    let s := s.dropWhile (· = 32)
    let m := if s.getLast? = some 13 then m.write (value + (s.length - 1)) [0] else m
    let k ← loadStr size m header
    let v ← loadStr size m value
    return some (m, k, value, v)
  | _ => return none

/-- The loop over the header lines, from line `i` on. -/
def KwsRequest.headerLoop : KwsRequest → ℕ → List ℕ → Except Fault (Option KwsRequest)
  | r, _, [] => .ok (some r)
  | r, i, p :: ps => do
    let some (m, k, value, v) ← splitLine r.size r.buffer p | return none
    let r : KwsRequest := { r with buffer := m, headers := r.headers ++ [⟨k, v⟩] }
    headerLoop (r.dispatch i k value v) (i + 1) ps

/-- The request line, in the copy of the head: the request, and what is behind
    its target. -/
def parseRequestLine (size : ℕ) (m : Mem) : Except Fault (Option (KwsRequest × ℕ)) := do
  let some (m, uri) ← cutAt size m 0 32 | return none
  if m uri ≠ 47 then return none
  let some (m, http) ← cutAt size m uri 32 | return none
  let query ← cutAt size m uri 63
  let (status, m) ← cleanUri size ((query.map Prod.fst).getD m) uri
  if status ≠ .success then return none
  let version ← loadStr size m http
  if ¬(ascii "HTTP/1.1").isPrefixOf version ∧ ¬(ascii "HTTP/1.0").isPrefixOf version then
    return none
  return some
    ({ buffer := m, size, uri, qs := query.map Prod.snd
       keepalive := (ascii "HTTP/1.1").isPrefixOf version }, http)

/-- The lines behind the request line: the request, and whether there are any. -/
def KwsRequest.parseLines (r : KwsRequest) (http : ℕ) :
    Except Fault (Option (KwsRequest × Bool)) := do
  let some (m, p) ← cutAt r.size r.buffer http 10 | return some (r, false)
  let (m, headers) ← ksSeparateString r.size m p 10 64
  if headers.length < 1 then return none
  let r ← { r with buffer := m }.headerLoop 0 headers
  return r.map (·, true)

/-- The part of `kws_parse_header` that works on the copy of the head. -/
def parseHead (head : List UInt8) : Except Fault (Option (KwsRequest × Bool)) := do
  let some (r, http) ← parseRequestLine (head.length + 1) (Mem.write (fun _ => 0) 0 (head ++ [0]))
    | return none
  r.parseLines http

/-- The offsets of the terminator of a head, and of what is behind it. -/
def endOfHead (text : List UInt8) : Option (ℕ × ℕ) :=
  match strstr [13, 10, 13, 10] text with
  | some i => some (i, i + 4)
  | none => (strstr [10, 10] text).map fun i => (i, i + 2)

namespace Kws

/-- The end of `kws_parse_header`, where the bytes behind the head are moved to
    the start of the buffer. -/
def shiftRest (k : Kws) (datalen body : ℕ) : Except Fault Kws :=
  let k' := if body ≤ datalen then { k with datalen := (datalen - body : ℕ) } else k
  let datalen := if body ≤ datalen then datalen - body else datalen
  if datalen = 0 then .ok k'
  else if k.buflen < body + (datalen + 1) then .error .outOfBounds
  else .ok { k' with
    buffer := k.buffer.write 0 (k.buffer.read body (datalen + 1))
    unprocessedBufferLen := datalen
    unprocessedPosition := 0 }

/-- A request without header lines goes to `noheader:`, behind the move. -/
def skipHead (k : Kws) (lines : Bool) (datalen body : ℕ) : Except Fault Kws :=
  if lines then k.shiftRest datalen body else .ok k

/-- `kws_parse_header`. -/
def parseHeader (k : Kws) : Except Fault (Status × Option KwsRequest × Kws) :=
  let datalen := toUInt64 k.datalen
  if datalen < 16 then .ok (.fail, none, k)
  -- The count is at `0` where the tenth byte is the first space.
  else if (k.buffer.read 0 10).findIdx? (· = 32) = some 9 then .ok (.fail, none, k)
  else do
    let text ← loadStr k.buflen k.buffer 0
    match endOfHead text with
    | none => return (.fail, none, k)
    | some (i, body) =>
      let k := { k with buffer := k.buffer.write i [0] }
      match ← parseHead (text.take i) with
      | none => return (.fail, none, k)
      | some (r, lines) =>
        let r := { r with bytesBuffered := datalen, bytesHeader := body, bytesRead := body }
        let k ← k.skipHead lines datalen body
        let r ← r.parseOwnQs
        return (.success, some r, k)

/-- The loop of `kws_keepalive`. Every round but the last reads a byte at least. -/
def keepaliveLoop : ℕ → Kws → Except Fault (Status × Kws)
  | 0, _ => .error .outOfFuel
  | fuel + 1, k => do
    let (read, k) ←
      k.stringRead (.buffer k.datalen.toNat) (k.buflen - k.datalen.toNat) wsBlock
    if 0 < read.ret then
      let k := { k with datalen := k.datalen + read.ret }
      let text ← loadStr k.buflen k.buffer 0
      if (endOfHead text).isSome then return (.success, k) else keepaliveLoop fuel k
    else return (.fail, k)

/-- `kws_keepalive`. -/
def keepalive (k : Kws) : Except Fault (Status × Kws) :=
  keepaliveLoop (k.buflen + 1) { k with datalen := 0 }

end Kws

end Libks
