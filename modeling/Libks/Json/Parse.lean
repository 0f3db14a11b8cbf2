import Libks.Base.Outcome
import Libks.Fault
import Libks.Json.Item

/-!
# Parsing JSON texts

The parsing functions of `cJSON.c` read a buffer that ends with the terminator of a string,
and build the items. What is checked is where they read and write: a read behind the buffer ends
in a fault, and so does a byte of a string that is written behind the block that has been
allocated for it. The length of this block is an estimate, of a pass over the string that
only looks for its end; what is written is decided by a second pass, and the two do not always
agree on what is escaped.

Memory for items and strings is always granted.
-/

namespace Libks

open Base

/-- `parse_buffer`; its `length` is that of the content. -/
structure ParseBuffer where
  content : List UInt8
  offset : ℕ := 0
  depth : ℕ := 0
  deriving DecidableEq

/-- How the parsing ends early: `CJSON_FALSE`, with the buffer as it is, or a fault. -/
inductive ParseExit
  | failed (b : ParseBuffer)
  | fault (f : Fault)

/-- `CJSON_NESTING_LIMIT`. -/
def nestingLimit : ℕ := 1000

namespace ParseBuffer

/-- `buffer_at_offset (b)[0]`. -/
def here (b : ParseBuffer) : Except ParseExit UInt8 :=
  match b.content[b.offset]? with
  | some c => .ok c
  | none => .error (.fault .outOfBounds)

/-- The same, behind `can_access_at_index`. -/
def peek (b : ParseBuffer) : Option UInt8 := b.content[b.offset]?

/-- Whether `s` can be read, and is there. -/
def startsWith (b : ParseBuffer) (s : List UInt8) : Bool := s.isPrefixOf (b.content.drop b.offset)

/-- `offset += n`. -/
def skip (b : ParseBuffer) (n : ℕ) : ParseBuffer := { b with offset := b.offset + n }

/-- `buffer_skip_whitespace`. -/
def skipWhitespace (b : ParseBuffer) : ParseBuffer :=
  let b := b.skip ((b.content.drop b.offset).takeWhile (· ≤ 32)).length
  if b.offset = b.content.length then { b with offset := b.offset - 1 } else b

/-- `parse_hex4`. -/
def parseHex4 (input : List UInt8) : ℕ :=
  match input.mapM hexVal with
  | some ds => ds.foldl (fun h d => 16 * h + d) 0
  | none => 0

/-- A byte of a character behind the first one. -/
def continuation (codepoint : ℕ) : UInt8 := UInt8.ofNat ((codepoint ||| 0x80) &&& 0xBF)

/-- The bytes of a code point, at most `0x10FFFF`. -/
def encodeUtf8 (codepoint : ℕ) : List UInt8 :=
  if codepoint < 0x80 then [UInt8.ofNat (codepoint &&& 0x7F)]
  else if codepoint < 0x800 then
    [UInt8.ofNat ((codepoint >>> 6 ||| 0xC0) &&& 0xFF), continuation codepoint]
  else if codepoint < 0x10000 then
    [UInt8.ofNat ((codepoint >>> 12 ||| 0xE0) &&& 0xFF), continuation (codepoint >>> 6),
      continuation codepoint]
  else
    [UInt8.ofNat ((codepoint >>> 18 ||| 0xF0) &&& 0xFF), continuation (codepoint >>> 12),
      continuation (codepoint >>> 6), continuation codepoint]

/-- The `n` bytes of a buffer from the offset `i` on. -/
def bytesAt (s : List UInt8) (i n : ℕ) : Except ParseExit (List UInt8) :=
  if i + n ≤ s.length then .ok ((s.drop i).take n) else .error (.fault .outOfBounds)

/-- `utf16_literal_to_utf8`, for the literal at the start of `s`, with `left` bytes in front of the
    closing quote: what is written, and how long the literal is. -/
def utf16LiteralToUtf8 (s : List UInt8) (left : ℕ) :
    Except ParseExit (Option (List UInt8 × ℕ)) :=
  if left < 6 then .ok none
  else do
    let firstCode := parseHex4 (← bytesAt s 2 4)
    if 0xDC00 ≤ firstCode ∧ firstCode ≤ 0xDFFF then return none
    else if 0xD800 ≤ firstCode ∧ firstCode ≤ 0xDBFF then
      if left - 6 < 6 then return none
      else
        let mark ← bytesAt s 6 2
        if mark ≠ [92, 117] then return none
        else
          let secondCode := parseHex4 (← bytesAt s 8 4)
          if secondCode < 0xDC00 ∨ 0xDFFF < secondCode then return none
          else return some (encodeUtf8 (0x10000 + ((firstCode &&& 0x3FF) <<< 10 ||| secondCode &&& 0x3FF)), 12)
    else return some (encodeUtf8 firstCode, 6)

/-- What a backslash and another byte stand for. -/
def unescape (c : UInt8) : Option UInt8 :=
  if c = 98 then some 8
  else if c = 102 then some 12
  else if c = 110 then some 10
  else if c = 114 then some 13
  else if c = 116 then some 9
  else if c = 34 ∨ c = 92 ∨ c = 47 then some c
  else none

/-- Bytes are written behind `out`, in a block of `size` bytes. -/
def put (size : ℕ) (out bs : List UInt8) : Except ParseExit (List UInt8) :=
  if out.length + bs.length ≤ size then .ok (out ++ bs) else .error (.fault .outOfBounds)

/-- The second pass of `parse_string`, from the offset on, with `left` bytes in front of the
    closing quote. -/
def decode (b : ParseBuffer) (size : ℕ) : ℕ → ℕ → List UInt8 → Except ParseExit (List UInt8)
  | _, 0, out => .ok out
  | 0, _ + 1, _ => .error (.fault .outOfFuel)
  | fuel + 1, left + 1, out => do
    let c ← b.here
    if c ≠ 92 then
      let out ← put size out [c]
      decode (b.skip 1) size fuel left out
    else
      let e ← (b.skip 1).here
      if e = 117 then
        match ← utf16LiteralToUtf8 (b.content.drop b.offset) (left + 1) with
        | some (bs, n) =>
          let out ← put size out bs
          decode (b.skip n) size fuel (left + 1 - n) out
        | none => .error (.failed b)
      else
        match unescape e with
        | some x =>
          let out ← put size out [x]
          decode (b.skip 2) size fuel (left + 1 - 2) out
        | none => .error (.failed b)

end ParseBuffer

end Libks
