import Libks.Base.Memory
import Libks.Base.Outcome
import Libks.Fault
import Libks.Json.Item

/-!
# Printing JSON items

The printing functions of `cJSON.c` write an item into a buffer that grows, or into one of the
caller. Every function asks for room (`PrintBuffer.ensure`) before it writes, and some leave
the offset in front of what they have written, for their caller to find the end
(`PrintBuffer.updateOffset`). What is checked is where the bytes go: a write behind the buffer
ends in a fault, and so does a search for the end of a string that leaves it.

Whether a larger block is granted is up to the system. What is freed, and that it is freed once,
is left out.

* `ensure_spec`, `updateOffset_spec`: what is asked for is there, and what is found;
* `printValue_spec`: the text of an item is written at the offset.
-/

namespace Libks

open Base

/-- How the printing ends early: `CJSON_FALSE`, or a fault. -/
inductive PrintExit
  | failed
  | fault (f : Fault)
  deriving DecidableEq

/-- `printbuffer`: `buffer` is a block of `length` bytes, and `reallocate` says which sizes the
    system grants. -/
structure PrintBuffer where
  buffer : Mem
  length : ℕ
  offset : ℕ := 0
  depth : ℕ := 0
  noalloc : Bool := false
  format : Bool
  reallocate : ℕ → Bool

namespace PrintBuffer

/-- A larger block, with the bytes of the old one. -/
def grow (p : PrintBuffer) (newsize : ℕ) : Except PrintExit PrintBuffer :=
  if p.reallocate newsize then .ok { p with length := newsize } else .error .failed

/-- `ensure`. -/
def ensure (p : PrintBuffer) (needed : ℕ) : Except PrintExit PrintBuffer :=
  if 0 < p.length ∧ p.length ≤ p.offset then .error .failed
  else if intMax < needed then .error .failed
  else
    let needed := needed + (p.offset + 1)
    if needed ≤ p.length then .ok p
    else if p.noalloc then .error .failed
    else if intMax / 2 < needed then
      if needed ≤ intMax then p.grow intMax else .error .failed
    else p.grow (needed * 2)

/-- Bytes are stored. -/
def store (p : PrintBuffer) (off : ℕ) (bs : List UInt8) : Except PrintExit PrintBuffer :=
  if off + bs.length ≤ p.length then .ok { p with buffer := p.buffer.write off bs }
  else .error (.fault .outOfBounds)

/-- `update_offset`. -/
def updateOffset (p : PrintBuffer) : Except PrintExit PrintBuffer :=
  let end_ := p.offset + (p.buffer.strAt (p.length - p.offset) p.offset).length
  if end_ < p.length then .ok { p with offset := end_ } else .error (.fault .outOfBounds)

/-- Bytes behind the offset, which is moved behind them. -/
def append (p : PrintBuffer) (bs : List UInt8) : Except PrintExit PrintBuffer := do
  let p ← p.store p.offset bs
  return { p with offset := p.offset + bs.length }

/-- `print_number`. The text goes to `number_buffer` first, which has 26 bytes. -/
def printNumber (p : PrintBuffer) (d : Double) : Except PrintExit PrintBuffer :=
  if ¬InLong d then .error (.fault .overflow)
  else if 26 < (numberText d).length + 1 then .error (.fault .outOfBounds)
  else do
    let p ← p.ensure ((numberText d).length + 1)
    let p ← p.store p.offset (numberText d ++ [0])
    return { p with offset := p.offset + (numberText d).length }

/-- `escape_characters`. -/
def escapeCharacters : List UInt8 → ℕ
  | [] => 0
  | c :: s => (if (shortEscape c).isSome then 1 else if c < 32 then 5 else 0) + escapeCharacters s

/-- The loop of `print_string_ptr` that writes the bytes of the string at `output_pointer`. -/
def storeEscaped (p : PrintBuffer) (off : ℕ) : List UInt8 → Except PrintExit PrintBuffer
  | [] => .ok p
  | c :: s =>
    if 31 < c ∧ c ≠ 34 ∧ c ≠ 92 then do
      let p ← p.store off [c]
      p.storeEscaped (off + 1) s
    else do
      let p ← p.store off [92]
      match shortEscape c with
      | some e =>
        let p ← p.store (off + 1) [e]
        p.storeEscaped (off + 2) s
      | none =>
        -- `sprintf` puts a NUL behind the digits, and the next byte replaces it.
        let p ← p.store (off + 1) (117 :: (formatHex4 c.toNat ++ [0]))
        p.storeEscaped (off + 6) s

/-- The bytes of a string, which are copied where none has to be escaped. -/
def storeString (p : PrintBuffer) (off : ℕ) (s : List UInt8) : Except PrintExit PrintBuffer :=
  if escapeCharacters s = 0 then p.store off s else p.storeEscaped off s

/-- `print_string_ptr`. -/
def printStringPtr (p : PrintBuffer) : Option CStr → Except PrintExit PrintBuffer
  | none => do
    let p ← p.ensure 3
    p.store p.offset [34, 34, 0]
  | some s => do
    let len := s.1.length + escapeCharacters s.1
    let p ← p.ensure (len + 3)
    let p ← p.store p.offset [34]
    let p ← p.storeString (p.offset + 1) s.1
    let p ← p.store (p.offset + len + 1) [34]
    p.store (p.offset + len + 2) [0]

/-- A text of its own, with its terminator. -/
def printWord (p : PrintBuffer) (s : List UInt8) : Except PrintExit PrintBuffer := do
  let p ← p.ensure (s.length + 1)
  p.store p.offset (s ++ [0])

/-- The opening bracket of an array. -/
def openArray (p : PrintBuffer) : Except PrintExit PrintBuffer := do
  let p ← p.ensure 1
  let p ← p.append [91]
  return { p with depth := p.depth + 1 }

/-- The comma behind an element, unless it is the last one. -/
def comma (p : PrintBuffer) (last : Bool) : Except PrintExit PrintBuffer :=
  if last then .ok p
  else do
    let sep := 44 :: (if p.format then [32] else [])
    let p ← p.ensure (sep.length + 1)
    let p ← p.store p.offset (sep ++ [0])
    return { p with offset := p.offset + sep.length }

/-- The closing bracket of an array. The offset stays in front of it. -/
def closeArray (p : PrintBuffer) : Except PrintExit PrintBuffer := do
  let p ← p.ensure 2
  let p ← p.store p.offset [93, 0]
  return { p with depth := p.depth - 1 }

/-- The opening brace of an object. -/
def openObject (p : PrintBuffer) : Except PrintExit PrintBuffer := do
  let brace := 123 :: KJson.newline p.format
  let p ← p.ensure (brace.length + 1)
  let p ← p.append brace
  return { p with depth := p.depth + 1 }

/-- The tabs in front of a member. -/
def indent (p : PrintBuffer) : Except PrintExit PrintBuffer :=
  if p.format then do
    let p ← p.ensure p.depth
    p.append (List.replicate p.depth 9)
  else .ok p

/-- The colon behind a name. -/
def colon (p : PrintBuffer) : Except PrintExit PrintBuffer := do
  let sep := 58 :: (if p.format then [9] else [])
  let p ← p.ensure sep.length
  p.append sep

/-- What is behind a member. -/
def endMember (p : PrintBuffer) (last : Bool) : Except PrintExit PrintBuffer := do
  let sep := (if last then [] else [44]) ++ KJson.newline p.format
  let p ← p.ensure (sep.length + 1)
  let p ← p.store p.offset (sep ++ [0])
  return { p with offset := p.offset + sep.length }

/-- The closing brace of an object. The offset stays in front of the tabs. -/
def closeObject (p : PrintBuffer) : Except PrintExit PrintBuffer := do
  let p ← p.ensure (if p.format then p.depth + 1 else 2)
  let p ← p.store p.offset (KJson.tabs p.format (p.depth - 1) ++ [125, 0])
  return { p with depth := p.depth - 1 }

mutual

/-- `print_value`, with `print_array` and `print_object`. -/
def printValue (p : PrintBuffer) : KJson → Except PrintExit PrintBuffer
  | .null => p.printWord (ascii "null")
  | .false => p.printWord (ascii "false")
  | .true => p.printWord (ascii "true")
  | .number d _ => p.printNumber d
  | .string s => p.printStringPtr s
  | .raw s => p.printWord s.1
  | .array child => do
    let p ← p.openArray
    let p ← p.printElements child
    p.closeArray
  | .object child => do
    let p ← p.openObject
    let p ← p.printMembers child
    p.closeObject

/-- The loop of `print_array`. -/
def printElements (p : PrintBuffer) : List KJson → Except PrintExit PrintBuffer
  | [] => .ok p
  | item :: next => do
    let p ← p.printValue item
    let p ← p.updateOffset
    let p ← p.comma next.isEmpty
    p.printElements next

/-- The loop of `print_object`. -/
def printMembers (p : PrintBuffer) : List (Option CStr × KJson) → Except PrintExit PrintBuffer
  | [] => .ok p
  | (name, item) :: next => do
    let p ← p.indent
    let p ← p.printStringPtr name
    let p ← p.updateOffset
    let p ← p.colon
    let p ← p.printValue item
    let p ← p.updateOffset
    let p ← p.endMember next.isEmpty
    p.printMembers next

end

/-! ## Room -/

/-- What a block may grow to. -/
def limit (p : PrintBuffer) : ℕ := if p.noalloc then p.length else intMax

/-- The offset is in the block, unless there are no bytes. -/
structure Sound (p : PrintBuffer) : Prop where
  offset_le : p.offset ≤ p.length - 1
  length_le : p.length ≤ intMax

/-- There is no room for `n` bytes and two more, or the system does not grant it. -/
def Lacks (p : PrintBuffer) (n : ℕ) : Prop :=
  p.limit < p.offset + n + 2 ∨ (p.noalloc = false ∧ ∃ k, p.reallocate k = false)

/-- How the printing of `n` bytes may end early. -/
def Fails (p : PrintBuffer) (n : ℕ) (x : PrintExit) : Prop := x = .failed ∧ p.Lacks n

/-- A buffer that is the same but for the size of its block, which has room for `n` bytes and
    one more. -/
structure Grown (p : PrintBuffer) (n : ℕ) (q : PrintBuffer) : Prop where
  eq : q = { p with length := q.length }
  room : p.offset + n + 1 ≤ q.length
  length_le : q.length ≤ intMax
  limit : q.limit = p.limit

variable {p q r : PrintBuffer} {s t u : List UInt8} {d d' n m : ℕ}

theorem Grown.buffer (h : p.Grown n q) : q.buffer = p.buffer := by rw [h.eq]

theorem Grown.offset (h : p.Grown n q) : q.offset = p.offset := by rw [h.eq]

theorem Grown.depth (h : p.Grown n q) : q.depth = p.depth := by rw [h.eq]

theorem Grown.format (h : p.Grown n q) : q.format = p.format := by rw [h.eq]

theorem Grown.noalloc (h : p.Grown n q) : q.noalloc = p.noalloc := by rw [h.eq]

theorem Grown.reallocate (h : p.Grown n q) : q.reallocate = p.reallocate := by rw [h.eq]

theorem Sound.limit_le (h : p.Sound) : p.limit ≤ intMax := by
  rw [PrintBuffer.limit]
  split_ifs
  · exact h.length_le
  · exact Nat.le_refl _

/-- The buffer grows, unless no memory is to be had. -/
theorem grow_spec (hn : n ≤ intMax) (hroom : p.offset + m + 1 ≤ n) (hp : p.noalloc = false) :
    Ends (fun x => x = .failed ∧ p.noalloc = false ∧ ∃ k, p.reallocate k = false) (p.Grown m)
      (p.grow n) := by
  rw [grow]
  split_ifs with h
  · exact ⟨rfl, hroom, hn, by rw [PrintBuffer.limit, PrintBuffer.limit, hp]; rfl⟩
  · exact ⟨rfl, hp, n, by simpa using h⟩

/-- What is asked for is there, if there is room for it in the limit. -/
theorem ensure_spec (h : p.Sound) (hn : n ≤ m + 1) :
    Ends (p.Fails m) (p.Grown n) (p.ensure n) := by
  have hoff := h.offset_le
  have hlimit := h.limit_le
  rw [ensure]
  dsimp only
  split_ifs with hlen hmax hfits hnoalloc hhalf hint
  · omega
  · exact ⟨rfl, .inl (by omega)⟩
  · exact ⟨rfl, by omega, h.length_le, rfl⟩
  · refine ⟨rfl, .inl ?_⟩
    rw [PrintBuffer.limit, if_pos hnoalloc]
    omega
  · refine (grow_spec (Nat.le_refl _) (by omega) (by simpa using hnoalloc)).mono ?_ fun _ => id
    exact fun x hx => ⟨hx.1, .inr hx.2⟩
  · refine ⟨rfl, .inl ?_⟩
    omega
  · refine (grow_spec (by omega) (by omega) (by simpa using hnoalloc)).mono ?_ fun _ => id
    exact fun x hx => ⟨hx.1, .inr hx.2⟩

/-! ## What is written -/

/-- From `p` to `q`, the bytes `s` have been written at the offset, which is behind them now, and
    the depth has become `d`. -/
structure Passed (p : PrintBuffer) (s : List UInt8) (d : ℕ) (q : PrintBuffer) : Prop where
  offset : q.offset = p.offset + s.length
  text : q.buffer.read p.offset s.length = s
  keep : ∀ i < p.offset, q.buffer i = p.buffer i
  sound : q.Sound
  format : q.format = p.format
  depth : q.depth = d
  limit : q.limit = p.limit
  noalloc : q.noalloc = p.noalloc
  reallocate : q.reallocate = p.reallocate

/-- The offset is behind some of the bytes, and a string with the others stands at it, with
    room for one more byte. -/
def Ended (p : PrintBuffer) (t : List UInt8) (d : ℕ) (q : PrintBuffer) : Prop :=
  ∃ s u, t = s ++ u ∧ p.Passed s d q ∧ q.buffer.IsStr q.offset u ∧
    q.offset + u.length + 2 ≤ q.length

/-- The step writes `s`, and moves the offset behind it. -/
def Writes (p : PrintBuffer) (s : List UInt8) (d : ℕ) (e : Except PrintExit PrintBuffer) : Prop :=
  Ends (p.Fails s.length) (p.Passed s d) e

/-- The step writes `t` as a string, and its end is to be found yet. -/
def Leaves (p : PrintBuffer) (t : List UInt8) (d : ℕ) (e : Except PrintExit PrintBuffer) : Prop :=
  Ends (p.Fails t.length) (p.Ended t d) e

theorem Passed.refl (h : p.Sound) : p.Passed [] p.depth p :=
  ⟨rfl, rfl, fun _ _ => rfl, h, rfl, rfl, rfl, rfl, rfl⟩

/-- Texts that are printed one behind the other. -/
theorem Passed.trans (h : p.Passed s d q) (h' : q.Passed t d' r) : p.Passed (s ++ t) d' r where
  offset := by rw [h'.offset, h.offset, List.length_append, Nat.add_assoc]
  text := by
    have hoff := h.offset
    have hs : r.buffer.read p.offset s.length = s := by
      rw [Mem.read_congr fun i _ hi => h'.keep i (by omega), h.text]
    rw [List.length_append, Mem.read_add, hs, ← hoff, h'.text]
  keep i hi := by rw [h'.keep i (by rw [h.offset]; omega), h.keep i hi]
  sound := h'.sound
  format := h'.format.trans h.format
  depth := h'.depth
  limit := h'.limit.trans h.limit
  noalloc := h'.noalloc.trans h.noalloc
  reallocate := h'.reallocate.trans h.reallocate

/-- A text behind which the last one ends. -/
theorem Passed.ended (h : p.Passed s d q) (h' : q.Ended t d' r) : p.Ended (s ++ t) d' r := by
  obtain ⟨s', u, rfl, hs, hstr, hroom⟩ := h'
  exact ⟨s ++ s', u, (List.append_assoc _ _ _).symm, h.trans hs, hstr, hroom⟩

/-- What is lacking behind some bytes has been lacking in front of them. -/
theorem Passed.fails (h : p.Passed s d q) {x : PrintExit} (hx : q.Fails n x) :
    p.Fails (s.length + n) x := by
  refine ⟨hx.1, hx.2.imp (fun hlt => ?_) fun hk => ?_⟩
  · rw [h.limit, h.offset] at hlt
    omega
  · rwa [h.noalloc, h.reallocate] at hk

theorem Fails.mono {x : PrintExit} (h : p.Fails n x) (hn : n ≤ m) : p.Fails m x :=
  ⟨h.1, h.2.imp_left fun hlt => by omega⟩

/-! ## Steps in a row -/

section Rules

variable {e : Except PrintExit PrintBuffer} {f : PrintBuffer → Except PrintExit PrintBuffer}

/-- A printer that goes on behind another one. -/
theorem Writes.bind (h : p.Writes s d e) (hf : ∀ q, p.Passed s d q → q.Writes t d' (f q)) :
    p.Writes (s ++ t) d' (e >>= f) := by
  refine Ends.bind (Ends.mono h (fun x hx => hx.mono ?_) fun _ => id) fun q hq => ?_
  · rw [List.length_append]
    omega
  · refine (hf q hq).mono (fun x hx => ?_) fun r hr => hq.trans hr
    rw [List.length_append]
    exact hq.fails hx

/-- A last printer behind others. -/
theorem Writes.bind_leaves (h : p.Writes s d e)
    (hf : ∀ q, p.Passed s d q → q.Leaves t d' (f q)) : p.Leaves (s ++ t) d' (e >>= f) := by
  refine Ends.bind (Ends.mono h (fun x hx => hx.mono ?_) fun _ => id) fun q hq => ?_
  · rw [List.length_append]
    omega
  · refine (hf q hq).mono (fun x hx => ?_) fun r hr => hq.ended hr
    rw [List.length_append]
    exact hq.fails hx

/-- The end of a string that has been written is found. -/
theorem updateOffset_spec (h : p.Ended t d q) :
    ∃ r, q.updateOffset = .ok r ∧ p.Passed t d r ∧ r.buffer = q.buffer ∧ r.length = q.length := by
  obtain ⟨s, u, rfl, hs, hstr, hroom⟩ := h
  have hu : q.buffer.strAt (q.length - q.offset) q.offset = u := Mem.strAt_eq hstr (by omega)
  refine ⟨{ q with offset := q.offset + u.length }, ?_, ?_, rfl, rfl⟩
  · rw [updateOffset, hu]
    exact if_pos (by omega)
  · refine hs.trans ⟨rfl, hstr.read, fun _ _ => rfl, ⟨?_, hs.sound.length_le⟩, rfl, hs.depth, rfl,
      rfl, rfl⟩
    dsimp only
    omega

/-- What has been printed is a string. -/
theorem Ended.isStr (h : p.Ended t d q) (ht : 0 ∉ t) : q.buffer.IsStr p.offset t := by
  obtain ⟨s, u, rfl, hs, hstr, -⟩ := h
  rw [List.mem_append, not_or] at ht
  exact Mem.IsStr.append hs.text ht.1 (hs.offset ▸ hstr)

/-- There is one byte more than the string and its terminator take. -/
theorem Ended.room (h : p.Ended t d q) : p.offset + t.length + 2 ≤ q.length := by
  obtain ⟨s, u, rfl, hs, -, hroom⟩ := h
  have hoff := hs.offset
  rw [List.length_append]
  omega

theorem Ended.length_le (h : p.Ended t d q) : q.length ≤ intMax := by
  obtain ⟨s, u, rfl, hs, -, -⟩ := h
  exact hs.sound.length_le

/-- A block of the caller is still the same. -/
theorem Ended.length_eq (h : p.Ended t d q) (hp : p.noalloc = true) : q.length = p.length := by
  obtain ⟨s, u, rfl, hs, -, -⟩ := h
  have hlimit := hs.limit
  rwa [PrintBuffer.limit, PrintBuffer.limit, if_pos (hs.noalloc.trans hp), if_pos hp] at hlimit

/-- A printer that goes on behind one that has left its text unmeasured. -/
theorem Leaves.bind (h : p.Leaves s d e) (hf : ∀ q, p.Passed s d q → q.Writes t d' (f q)) :
    p.Writes (s ++ t) d' (e >>= fun q => q.updateOffset >>= f) := by
  rw [← bind_assoc]
  refine Writes.bind ?_ hf
  refine Ends.bind h fun q hq => ?_
  obtain ⟨r, hr, hpassed, -⟩ := updateOffset_spec hq
  exact Ends.of_ok hr hpassed

end Rules

/-! ## Texts that are written at once -/

theorem store_spec {off : ℕ} {bs : List UInt8} (h : off + bs.length ≤ p.length) :
    p.store off bs = .ok { p with buffer := p.buffer.write off bs } := if_pos h

/-- Bytes written where there is room, the offset behind the first of them. -/
theorem Grown.passed (h : p.Grown n q) (hn : (s ++ t).length ≤ n) :
    p.Passed s d { q with
      buffer := q.buffer.write q.offset (s ++ t)
      offset := q.offset + s.length
      depth := d } := by
  have hroom := h.room
  have hoff := h.offset
  rw [List.length_append] at hn
  refine ⟨?_, ?_, fun i hi => ?_, ⟨?_, h.length_le⟩, h.format, rfl, h.limit, h.noalloc,
    h.reallocate⟩
  · exact congrArg (· + s.length) hoff
  · dsimp only
    rw [← Mem.write_write, Mem.read_write_of_disjoint (.inl (by omega)), ← hoff, Mem.read_write_self]
  · dsimp only
    rw [Mem.write_apply_of_lt (by omega), h.buffer]
  · dsimp only
    omega

/-- A string written where there is room for it, and for its terminator. -/
theorem Grown.ended (h : p.Grown n q) (hn : t.length + 1 ≤ n) (ht : 0 ∉ t) :
    p.Ended t d { q with buffer := q.buffer.write q.offset (t ++ [0]), depth := d } := by
  have hroom := h.room
  have hoff := h.offset
  refine ⟨[], t, rfl, h.passed (s := []) (by simpa using hn), Mem.isStr_write _ _ ht, ?_⟩
  dsimp only
  omega

theorem Passed.setDepth (h : p.Passed s d q) (d' : ℕ) : p.Passed s d' { q with depth := d' } :=
  { h with
    sound := ⟨h.sound.offset_le, h.sound.length_le⟩
    depth := rfl }

theorem Ended.setDepth (h : p.Ended t d q) (d' : ℕ) : p.Ended t d' { q with depth := d' } := by
  obtain ⟨s, u, ht, hs, hstr, hroom⟩ := h
  exact ⟨s, u, ht, hs.setDepth d', hstr, hroom⟩

/-- A text is copied into the room made for it. -/
theorem Grown.append (h : p.Grown n q) (hn : s.length ≤ n) {E : PrintExit → Prop} :
    Ends E (p.Passed s p.depth) (q.append s) := by
  have hroom := h.room
  have hoff := h.offset
  have hpassed := h.passed (t := []) (d := p.depth) (by simpa using hn)
  rw [List.append_nil] at hpassed
  rw [PrintBuffer.append, store_spec (by omega), ok_bind]
  exact h.depth ▸ hpassed

/-- Bytes with no terminator. -/
theorem append_spec (h : p.Sound) (hn : s.length ≤ n) (hm : n ≤ s.length + 1) :
    p.Writes s p.depth (p.ensure n >>= fun q => q.append s) :=
  Ends.bind (ensure_spec h hm) fun _ hq => hq.append hn

/-- Bytes with a terminator that is written over. -/
theorem separate_spec (h : p.Sound) :
    p.Writes s p.depth (p.ensure (s.length + 1) >>= fun q => q.store q.offset (s ++ [0]) >>=
      fun r => pure { r with offset := r.offset + s.length }) := by
  refine Ends.bind (ensure_spec h (Nat.le_refl _)) fun q hq => ?_
  have hroom := hq.room
  have hoff := hq.offset
  rw [store_spec (by rw [List.length_append, List.length_singleton]; omega), ok_bind]
  exact hq.depth ▸ hq.passed (by simp)

/-- `null`, `true` and `false`. -/
theorem printWord_spec (h : p.Sound) (hs : 0 ∉ s) : p.Leaves s p.depth (p.printWord s) := by
  refine Ends.bind (ensure_spec h (Nat.le_refl _)) fun q hq => ?_
  have hroom := hq.room
  have hoff := hq.offset
  rw [store_spec (by rw [List.length_append, List.length_singleton]; omega)]
  exact hq.depth ▸ hq.ended (Nat.le_refl _) hs

/-- `print_number`. -/
theorem printNumber_spec (h : p.Sound) {x : Double} (hx : InLong x) :
    p.Leaves (numberText x) p.depth (p.printNumber x) := by
  have hlen := length_numberText_le hx
  rw [printNumber, if_neg (not_not.2 hx), if_neg (by omega)]
  refine Ends.bind (ensure_spec h (Nat.le_refl _)) fun q hq => ?_
  have hroom := hq.room
  have hoff := hq.offset
  rw [store_spec (by rw [List.length_append, List.length_singleton]; omega)]
  refine ⟨numberText x, [], (List.append_nil _).symm, hq.depth ▸ hq.passed (by simp), ?_, ?_⟩
  · refine Mem.isStr_nil_iff.2 ?_
    exact (Mem.isStr_write _ _ (zero_notMem_numberText x)).terminator
  · dsimp only [List.length_nil]
    omega

/-- The start of an array. -/
theorem openArray_spec (h : p.Sound) : p.Writes [91] (p.depth + 1) p.openArray := by
  rw [openArray, ← bind_assoc]
  refine Ends.bind (append_spec h (Nat.le_refl _) (by decide)) fun q hq => ?_
  exact hq.depth ▸ hq.setDepth _

/-- What comes behind an element. -/
theorem comma_spec (h : p.Sound) (last : Bool) :
    p.Writes (if last then [] else 44 :: (if p.format then [32] else [])) p.depth
      (p.comma last) := by
  rw [comma]
  split_ifs
  · exact .refl h
  · exact separate_spec h
  · exact separate_spec h

/-- The end of an array. -/
theorem closeArray_spec (h : p.Sound) : p.Leaves [93] (p.depth - 1) p.closeArray := by
  refine Ends.bind (ensure_spec h (Nat.le_refl _)) fun q hq => ?_
  have hroom := hq.room
  have hoff := hq.offset
  rw [store_spec (by simp only [List.length_cons, List.length_nil]; omega)]
  exact hq.depth ▸ (hq.ended (t := [93]) (d := p.depth) (Nat.le_refl _) (by decide)).setDepth _

/-- The start of an object. -/
theorem openObject_spec (h : p.Sound) :
    p.Writes (123 :: KJson.newline p.format) (p.depth + 1) p.openObject := by
  rw [openObject, ← bind_assoc]
  refine Ends.bind (append_spec h (Nat.le_succ _) (Nat.le_refl _)) fun q hq => ?_
  exact hq.depth ▸ hq.setDepth _

/-- The tabs in front of a member. -/
theorem indent_spec (h : p.Sound) : p.Writes (KJson.tabs p.format p.depth) p.depth p.indent := by
  rw [indent, KJson.tabs]
  split_ifs
  · refine Ends.bind (ensure_spec h (by rw [List.length_replicate]; omega)) fun q hq => ?_
    rw [hq.depth]
    exact hq.append (Nat.le_of_eq List.length_replicate)
  · exact .refl h

/-- What comes behind a name. -/
theorem colon_spec (h : p.Sound) :
    p.Writes (58 :: (if p.format then [9] else [])) p.depth p.colon :=
  append_spec h (Nat.le_refl _) (Nat.le_succ _)

/-- What comes behind a member. -/
theorem endMember_spec (h : p.Sound) (last : Bool) :
    p.Writes ((if last then [] else [44]) ++ KJson.newline p.format) p.depth (p.endMember last) :=
  separate_spec h

/-- The end of an object. -/
theorem closeObject_spec (h : p.Sound) (hdepth : 0 < p.depth) :
    p.Leaves (KJson.tabs p.format (p.depth - 1) ++ [125]) (p.depth - 1) p.closeObject := by
  have hneeded : (if p.format then p.depth + 1 else 2) =
      (KJson.tabs p.format (p.depth - 1) ++ [125]).length + 1 := by
    rw [KJson.tabs]
    split_ifs
    · simp only [List.length_append, List.length_replicate, List.length_singleton]
      omega
    · rfl
  have hzero : 0 ∉ KJson.tabs p.format (p.depth - 1) ++ [125] := by
    rw [KJson.tabs]
    split_ifs
    · simp
    · decide
  rw [closeObject, hneeded]
  refine Ends.bind (ensure_spec h (Nat.le_refl _)) fun q hq => ?_
  have hroom := hq.room
  have hoff := hq.offset
  rw [hq.format, hq.depth, show KJson.tabs p.format (p.depth - 1) ++ [125, 0] =
    KJson.tabs p.format (p.depth - 1) ++ [125] ++ [0] by rw [List.append_assoc]; rfl]
  generalize KJson.tabs p.format (p.depth - 1) ++ [125] = t at *
  rw [store_spec (by rw [List.length_append, List.length_singleton]; omega)]
  rw [← hq.depth]
  exact (hq.ended (d := p.depth) (Nat.le_refl _) hzero).setDepth _

/-! ## Strings -/

/-- The bytes that are copied. -/
theorem escapeJsonByte_of_plain {c : UInt8} (h : 31 < c ∧ c ≠ 34 ∧ c ≠ 92) : escapeJsonByte c = [c] := by
  have hne (e : UInt8) (he : e ≤ 31) : c ≠ e := by
    rintro rfl
    exact absurd h.1 (UInt8.not_lt.2 he)
  rw [escapeJsonByte, shortEscape, if_neg h.2.2, if_neg h.2.1, if_neg (hne 8 (by decide)),
    if_neg (hne 12 (by decide)), if_neg (hne 10 (by decide)), if_neg (hne 13 (by decide)),
    if_neg (hne 9 (by decide))]
  exact if_pos h.1

/-- The bytes that are not have no short escape, or are below the space. -/
theorem lt_of_not_plain {c : UInt8} (h : ¬(31 < c ∧ c ≠ 34 ∧ c ≠ 92)) (he : shortEscape c = none) :
    ¬31 < c := by
  intro hlt
  refine h ⟨hlt, ?_, ?_⟩
  · rintro rfl
    cases he
  · rintro rfl
    cases he

/-- The room that is asked for is what is written. -/
theorem escapeCharacters_eq (s : List UInt8) : s.length + escapeCharacters s = (escape s).length := by
  induction s with
  | nil => rfl
  | cons c s ih =>
    rw [escape_cons, List.length_append, ← ih, List.length_cons, escapeCharacters, escapeJsonByte]
    cases he : shortEscape c with
    | some e =>
      simp only [Option.isSome_some, if_true, List.length_cons, List.length_nil]
      omega
    | none =>
      simp only [Option.isSome_none, Bool.false_eq_true, if_false]
      by_cases hlt : c < 32
      · rw [if_pos hlt, if_neg (by rw [UInt8.lt_iff_toNat_lt] at *; simp at *; omega)]
        simp only [List.length_cons, length_formatHex4]
        omega
      · rw [if_neg hlt, if_pos (by rw [UInt8.lt_iff_toNat_lt] at *; simp at *; omega)]
        simp only [List.length_cons, List.length_nil]
        omega

/-- Where nothing has to be escaped, the string is copied. -/
theorem escape_of_escapeCharacters (h : escapeCharacters s = 0) : escape s = s := by
  induction s with
  | nil => rfl
  | cons c s ih =>
    rw [escapeCharacters, Nat.add_eq_zero_iff] at h
    rw [escape_cons, ih h.2, escapeJsonByte]
    cases he : shortEscape c with
    | some e =>
      rw [he] at h
      exact absurd h.1 (by simp)
    | none =>
      rw [he] at h
      have hlt : ¬c < 32 := fun hlt => by simp [hlt] at h
      dsimp only
      rw [if_pos (by rw [UInt8.lt_iff_toNat_lt] at *; simp at *; omega)]
      rfl

/-- The bytes are written one behind the other, and one more byte may be touched. -/
theorem storeEscaped_spec {off : ℕ} (h : off + (escape s).length + 1 ≤ p.length) :
    ∃ m, p.storeEscaped off s = .ok { p with buffer := m } ∧
      m.read off (escape s).length = escape s ∧ ∀ i < off, m i = p.buffer i := by
  induction s generalizing p off with
  | nil => exact ⟨p.buffer, rfl, rfl, fun _ _ => rfl⟩
  | cons c s ih =>
    -- What is stored for a byte stays when the others are stored behind it.
    have hstep (bs zs : List UInt8) (hbs : escapeJsonByte c = bs)
        (hroom : off + bs.length + (escape s).length + 1 ≤ p.length) :
        ∃ m, PrintBuffer.storeEscaped { p with buffer := p.buffer.write off (bs ++ zs) }
            (off + bs.length) s = .ok { p with buffer := m } ∧
          m.read off (escape (c :: s)).length = escape (c :: s) ∧ ∀ i < off, m i = p.buffer i := by
      obtain ⟨m, hrun, hread, hkeep⟩ :=
        @ih { p with buffer := p.buffer.write off (bs ++ zs) } (off + bs.length) hroom
      refine ⟨m, hrun, ?_, fun i hi => ?_⟩
      · rw [escape_cons, hbs, List.length_append, Mem.read_add, hread]
        congr 1
        rw [Mem.read_congr fun i _ hi => hkeep i hi]
        dsimp only
        rw [← Mem.write_write, Mem.read_write_of_disjoint (.inl (Nat.le_refl _)),
          Mem.read_write_self]
      · rw [hkeep i (by omega)]
        exact Mem.write_apply_of_lt hi
    rw [escape_cons, List.length_append] at h
    rw [storeEscaped]
    split_ifs with hplain
    · have hbs := escapeJsonByte_of_plain hplain
      rw [hbs, List.length_singleton] at h
      rw [store_spec (by rw [List.length_singleton]; omega), ok_bind]
      simpa using hstep [c] [] hbs (by rw [List.length_singleton]; omega)
    · cases he : shortEscape c with
      | some e =>
        have hbs : escapeJsonByte c = [92, e] := by rw [escapeJsonByte, he]
        rw [hbs, List.length_cons, List.length_singleton] at h
        rw [store_spec (by rw [List.length_singleton]; omega), ok_bind]
        dsimp only
        rw [store_spec (by dsimp only; rw [List.length_singleton]; omega), ok_bind]
        dsimp only
        rw [show off + 1 = off + [(92 : UInt8)].length from rfl, Mem.write_write]
        exact hstep [92, e] [] hbs (by rw [List.length_cons, List.length_singleton]; omega)
      | none =>
        have hbs : escapeJsonByte c = 92 :: 117 :: formatHex4 c.toNat := by
          rw [escapeJsonByte, he]
          exact if_neg (lt_of_not_plain hplain he)
        rw [hbs, List.length_cons, List.length_cons, length_formatHex4] at h
        rw [store_spec (by rw [List.length_singleton]; omega), ok_bind]
        dsimp only
        rw [store_spec (by simp only [List.length_cons, List.length_append, length_formatHex4,
          List.length_nil]; omega), ok_bind]
        dsimp only
        rw [show off + 1 = off + [(92 : UInt8)].length from rfl, Mem.write_write]
        have h6 := hstep (92 :: 117 :: formatHex4 c.toNat) [0] hbs (by
          rw [List.length_cons, List.length_cons, length_formatHex4]
          omega)
        rw [List.length_cons, List.length_cons, length_formatHex4] at h6
        exact h6

/-- The escapes of a string are stored within the buffer. -/
theorem storeString_spec {k : ℕ} (h : k + (escape s).length + 1 ≤ p.length) :
    ∃ m, p.storeString k s = .ok { p with buffer := m } ∧
      m.read k (escape s).length = escape s ∧ ∀ i < k, m i = p.buffer i := by
  rw [storeString]
  split_ifs with hnone
  · have hcopy := escape_of_escapeCharacters hnone
    refine ⟨_, store_spec ?_, ?_, fun i hi => Mem.write_apply_of_lt hi⟩
    · rw [hcopy] at h
      omega
    · rw [hcopy, Mem.read_write_self]
  · exact storeEscaped_spec h

/-- `print_string_ptr`. -/
theorem printStringPtr_spec (h : p.Sound) (s : Option CStr) :
    p.Leaves (quoted s) p.depth (p.printStringPtr s) := by
  have hzero := zero_notMem_quoted s
  cases s with
  -- A null pointer is printed as the empty string.
  | none =>
    refine Ends.bind (ensure_spec h (Nat.le_refl 3)) fun q hq => ?_
    have hroom := hq.room
    have hoff := hq.offset
    rw [store_spec (by simp only [List.length_cons, List.length_nil]; omega)]
    exact hq.depth ▸ hq.ended (t := [34, 34]) (Nat.le_refl _) hzero
  | some s =>
    have hlen := escapeCharacters_eq s.1
    rw [quoted, Option.elim_some] at hzero ⊢
    refine Ends.bind (ensure_spec h ?_) fun q hq => ?_
    · simp only [List.length_cons, List.length_append, List.length_nil]
      omega
    have hroom := hq.room
    have hoff := hq.offset
    rw [store_spec (by rw [List.length_singleton]; omega), ok_bind]
    dsimp only
    obtain ⟨m, hm, hread, hkeep⟩ := storeString_spec (s := s.1) (k := q.offset + 1)
      (p := { q with buffer := q.buffer.write q.offset [34] }) (by dsimp only; omega)
    dsimp only at hkeep
    rw [hm, ok_bind, store_spec (by rw [List.length_singleton]; dsimp only; omega), ok_bind]
    dsimp only
    rw [store_spec (by rw [List.length_singleton]; dsimp only; omega)]
    -- The quote in front is not overwritten.
    have hquote : m q.offset = 34 := by
      rw [hkeep _ (Nat.lt_succ_self _), Mem.write_apply_of_mem (Nat.le_refl _) (by simp)]
      simp
    -- The quotes, and the escaped text between them.
    have htext : (m.write (q.offset + (s.1.length + escapeCharacters s.1) + 1) [34, 0]).IsStr q.offset
        (34 :: (escape s.1 ++ [34])) := by
      refine Mem.isStr_cons_iff.2 ⟨?_, by decide, ?_⟩
      · rw [Mem.write_apply_of_lt (by omega), hquote]
      · refine Mem.IsStr.append ?_ (zero_notMem_escape s.2) ?_
        · rw [Mem.read_write_of_disjoint (.inl (by omega)), hread]
        · rw [← hlen, Nat.add_right_comm]
          exact Mem.isStr_write _ _ (show (0 : UInt8) ∉ [34] by decide)
    rw [show q.offset + (s.1.length + escapeCharacters s.1) + 2 =
      q.offset + (s.1.length + escapeCharacters s.1) + 1 + [(34 : UInt8)].length from rfl,
      Mem.write_write]
    refine ⟨[], _, rfl, ⟨hoff, rfl, fun i hi => ?_, ⟨?_, hq.length_le⟩, hq.format, hq.depth,
      hq.limit, hq.noalloc, hq.reallocate⟩, htext, ?_⟩
    · dsimp only
      rw [Mem.write_apply_of_lt (by omega), hkeep i (by omega), Mem.write_apply_of_lt (by omega),
        hq.buffer]
    · dsimp only
      omega
    · simp only [List.length_cons, List.length_append, List.length_nil]
      omega

/-! ## Items -/

/-- What the printing of an item does. -/
def Renders (item : KJson) : Prop :=
  ∀ {p : PrintBuffer}, p.Sound → p.Leaves (item.render p.format p.depth) p.depth (p.printValue item)

/-- The elements of an array: induction on the list. -/
theorem printElements_spec {child : List KJson} (hchild : ∀ item ∈ child, Renders item)
    (h : p.Sound) :
    p.Writes (KJson.renderElements p.format p.depth child) p.depth (p.printElements child) := by
  induction child generalizing p with
  | nil => exact .refl h
  | cons item next ih =>
    rw [List.forall_mem_cons] at hchild
    refine Leaves.bind (hchild.1 h) fun q hq => ?_
    refine Writes.bind (hq.format ▸ hq.depth ▸ comma_spec hq.sound _) fun r hr => ?_
    have hnext := ih hchild.2 hr.sound
    rwa [hr.format, hr.depth, hq.format] at hnext

/-- The members of an object: induction on the list. -/
theorem printMembers_spec {child : List (Option CStr × KJson)}
    (hchild : ∀ member ∈ child, Renders member.2) (h : p.Sound) :
    p.Writes (KJson.renderMembers p.format p.depth child) p.depth (p.printMembers child) := by
  induction child generalizing p with
  | nil => exact .refl h
  | cons member next ih =>
    obtain ⟨name, item⟩ := member
    rw [List.forall_mem_cons] at hchild
    refine Writes.bind (indent_spec h) fun q₁ h₁ => ?_
    refine Leaves.bind (h₁.depth ▸ printStringPtr_spec h₁.sound name) fun q₂ h₂ => ?_
    have hformat₂ := h₂.format.trans h₁.format
    refine Writes.bind (hformat₂ ▸ h₂.depth ▸ colon_spec h₂.sound) fun q₃ h₃ => ?_
    have hformat₃ := h₃.format.trans hformat₂
    refine Leaves.bind (hformat₃ ▸ h₃.depth ▸ hchild.1 h₃.sound) fun q₄ h₄ => ?_
    have hformat₄ := h₄.format.trans hformat₃
    refine Writes.bind (hformat₄ ▸ h₄.depth ▸ endMember_spec h₄.sound _) fun q₅ h₅ => ?_
    have hnext := ih hchild.2 h₅.sound
    rwa [h₅.format, hformat₄, h₅.depth] at hnext

/-- The text of an item is written. -/
theorem printValue_spec {item : KJson} (hlong : item.LongNumbers) : Renders item := by
  induction item using KJson.ind with
  | null => exact fun h => printWord_spec (s := ascii "null") h (by decide)
  | false => exact fun h => printWord_spec (s := ascii "false") h (by decide)
  | true => exact fun h => printWord_spec (s := ascii "true") h (by decide)
  | number d n => exact fun h => printNumber_spec h (of_decide_eq_true hlong)
  | string s => exact fun h => printStringPtr_spec h s
  | raw s => exact fun h => printWord_spec h s.2
  | array child ih =>
    intro p h
    have hchild : ∀ item ∈ child, Renders item := fun item hitem =>
      ih item hitem (KJson.all_array.1 hlong |>.2 item hitem)
    refine Writes.bind_leaves (openArray_spec h) fun q hq => ?_
    refine Writes.bind_leaves (hq.format ▸ hq.depth ▸ printElements_spec hchild hq.sound)
      fun r hr => ?_
    have hclose := closeArray_spec hr.sound
    rwa [hr.depth] at hclose
  | object child ih =>
    intro p h
    have hchild : ∀ member ∈ child, Renders member.2 := fun member hmember =>
      ih member hmember (KJson.all_object.1 hlong |>.2 member hmember)
    refine Writes.bind_leaves (openObject_spec h) fun q hq => ?_
    refine Writes.bind_leaves (hq.format ▸ hq.depth ▸ printMembers_spec hchild hq.sound)
      fun r hr => ?_
    have hclose := closeObject_spec hr.sound (by rw [hr.depth]; exact Nat.succ_pos _)
    rwa [hr.depth, hr.format.trans hq.format] at hclose

end PrintBuffer

/-- `print`: the block that is returned. The bytes of a new block may be any. -/
def KJson.print (item : KJson) (format : Bool) (m : Mem) (reallocate : ℕ → Bool) :
    Except PrintExit PrintBuffer :=
  if reallocate 256 then do
    let p ← PrintBuffer.printValue { buffer := m, length := 256, format, reallocate } item
    let p ← p.updateOffset
    p.grow (p.offset + 1)
  else .error .failed

/-- `kJSON_PrintPreallocated`: the block is the caller's. -/
def KJson.printPreallocated (item : KJson) (buf : Mem) (len : ℕ) (fmt : Bool)
    (reallocate : ℕ → Bool) : Except PrintExit PrintBuffer :=
  PrintBuffer.printValue
    { buffer := buf, length := len, noalloc := Bool.true, format := fmt, reallocate } item

/-- `ks_json_print`. -/
def ksJsonPrint (item : KJson) : Mem → (ℕ → Bool) → Except PrintExit PrintBuffer :=
  item.print true

section Texts

variable {item : KJson} {m : Mem} {reallocate : ℕ → Bool} {format : Bool}

/-- The block that is returned has the text in it, its terminator, and nothing more; without a
    block, the text is too long, or the system has not granted one. -/
theorem print_spec (hlong : item.LongNumbers) :
    Ends (fun x => x = .failed ∧
        (intMax < (item.render format 0).length + 2 ∨ ∃ k, reallocate k = false))
      (fun b => b.buffer.IsStr 0 (item.render format 0) ∧
        b.length = (item.render format 0).length + 1 ∧ (item.render format 0).length + 2 ≤ intMax)
      (item.print format m reallocate) := by
  rw [KJson.print]
  split_ifs with h256
  · have hsound : PrintBuffer.Sound { buffer := m, length := 256, format, reallocate } :=
      ⟨Nat.zero_le _, show 256 ≤ intMax by decide⟩
    refine Ends.bind ((PrintBuffer.printValue_spec hlong hsound).mono (fun x hx => ?_) fun _ => id)
      fun q hq => ?_
    · refine ⟨hx.1, hx.2.imp (fun hlt => ?_) And.right⟩
      rwa [Nat.zero_add] at hlt
    have hstr := hq.isStr (item.zero_notMem_render format 0)
    have hroom := hq.room
    obtain ⟨r, hr, hpassed, hbuffer, -⟩ := PrintBuffer.updateOffset_spec hq
    have hoff := hpassed.offset
    rw [Nat.zero_add] at hoff hroom
    rw [hr, ok_bind, PrintBuffer.grow, hpassed.reallocate, hoff]
    split_ifs with hgranted
    · exact ⟨hbuffer ▸ hstr, rfl, Nat.le_trans hroom hq.length_le⟩
    · exact ⟨rfl, .inr ⟨_, by simpa using hgranted⟩⟩
  · exact ⟨rfl, .inr ⟨_, by simpa using h256⟩⟩

/-- With memory for it, a text that is not too long is returned. -/
theorem exists_print (hlong : item.LongNumbers) (hall : ∀ k, reallocate k = true)
    (hroom : (item.render format 0).length + 2 ≤ intMax) :
    ∃ b, item.print format m reallocate = .ok b ∧ b.buffer.IsStr 0 (item.render format 0) := by
  have hspec : Ends _ _ (item.print format m reallocate) := print_spec hlong
  refine (hspec.mono (fun x hx => ?_) fun b hb => hb.1).exists_ok
  rcases hx.2 with hlt | ⟨k, hk⟩
  · exact Nat.not_le.2 hlt hroom
  · exact absurd (hall k) (Bool.not_eq_true _ ▸ hk)

/-- In a block of the caller there has to be room for the text, its terminator and one byte
    more. -/
theorem printPreallocated_spec (hlong : item.LongNumbers) {len : ℕ} (hlen : len ≤ intMax) :
    Ends (fun x => x = .failed ∧ len < (item.render format 0).length + 2)
      (fun b => b.buffer.IsStr 0 (item.render format 0) ∧ b.length = len ∧
        (item.render format 0).length + 2 ≤ len)
      (item.printPreallocated m len format reallocate) := by
  have hsound : PrintBuffer.Sound
      { buffer := m, length := len, noalloc := true, format, reallocate } := ⟨Nat.zero_le _, hlen⟩
  refine (PrintBuffer.printValue_spec hlong hsound).mono (fun x hx => ?_) fun q hq => ?_
  · refine ⟨hx.1, hx.2.elim (fun hlt => ?_) fun hk => ?_⟩
    · rwa [Nat.zero_add] at hlt
    · cases hk.1
  · have hroom := hq.room
    have hlength := hq.length_eq rfl
    rw [Nat.zero_add, hlength] at hroom
    exact ⟨hq.isStr (item.zero_notMem_render format 0), hlength, hroom⟩

/-- `ks_json_print`, and the same on one line: with memory for it, a block is returned if and
    only if the text has `INT_MAX - 2` bytes at most, and it is the text with its terminator. -/
theorem ksJsonPrint_text (item : KJson) (hlong : item.LongNumbers) (m : Mem)
    (reallocate : ℕ → Bool) (format : Bool) :
    (∀ x, item.print format m reallocate = .error x → x = .failed) ∧
      (∀ b, item.print format m reallocate = .ok b →
        b.buffer.IsStr 0 (item.render format 0) ∧ b.length = (item.render format 0).length + 1) ∧
      ((∀ k, reallocate k = true) →
        ((∃ b, item.print format m reallocate = .ok b) ↔
          (item.render format 0).length + 2 ≤ intMax)) := by
  have hspec : Ends _ _ (item.print format m reallocate) := print_spec hlong
  refine ⟨fun x hx => (hspec.error hx).1, fun b hb => ⟨(hspec.ok hb).1, (hspec.ok hb).2.1⟩,
    fun hall => ⟨fun ⟨b, hb⟩ => (hspec.ok hb).2.2, fun hroom => ?_⟩⟩
  obtain ⟨b, hb, -⟩ := exists_print hlong hall hroom
  exact ⟨b, hb⟩

/-- A point with its tags is printed on lines. -/
theorem ksJsonPrint_text_point : ∃ b,
    ksJsonPrint pointItem (fun _ => 0) (fun _ => true) = .ok b ∧
      b.buffer.IsStr 0 (ascii "\x7b\n\t\"x\":\t2,\n\t\"tags\":\t[\"a\\\"b\\n\", null]\n\x7d") := by
  obtain ⟨-, htext, hroom⟩ :=
    ksJsonPrint_text pointItem (by decide +kernel) (fun _ => 0) (fun _ => true) true
  obtain ⟨b, hb⟩ := (hroom fun _ => rfl).2 (by decide +kernel)
  refine ⟨b, hb, ?_⟩
  have hrender : pointItem.render true 0 =
      ascii "\x7b\n\t\"x\":\t2,\n\t\"tags\":\t[\"a\\\"b\\n\", null]\n\x7d" := by decide +kernel
  exact hrender ▸ (htext b hb).1

/-- `kJSON_PrintPreallocated`: a block of the caller is enough if and only if there are two bytes
    in it behind the text, and then the text is in it, with its terminator. -/
theorem printPreallocated_text (item : KJson) (hlong : item.LongNumbers) (buf : Mem) (len : ℕ)
    (hlen : len ≤ intMax) (reallocate : ℕ → Bool) (format : Bool) :
    (∀ x, item.printPreallocated buf len format reallocate = .error x → x = .failed) ∧
      (∀ p, item.printPreallocated buf len format reallocate = .ok p →
        p.buffer.IsStr 0 (item.render format 0) ∧ p.length = len) ∧
      ((∃ p, item.printPreallocated buf len format reallocate = .ok p) ↔
        (item.render format 0).length + 2 ≤ len) := by
  have hspec : Ends _ _ (item.printPreallocated buf len format reallocate) :=
    printPreallocated_spec hlong hlen
  exact ⟨fun x hx => (hspec.error hx).1, fun p hp => ⟨(hspec.ok hp).1, (hspec.ok hp).2.1⟩,
    hspec.exists_ok_iff (fun x hx => Nat.not_le.2 hx.2) fun p hp => hp.2.2⟩

/-- On one line the same point has 30 bytes, so that a block of 32 is enough for it. -/
theorem printPreallocated_text_point : ∃ p,
    pointItem.printPreallocated (fun _ => 0) 32 false (fun _ => true) = .ok p ∧
      p.buffer.IsStr 0 (ascii "\x7b\"x\":2,\"tags\":[\"a\\\"b\\n\",null]\x7d") := by
  obtain ⟨-, htext, hroom⟩ := printPreallocated_text pointItem (by decide +kernel) (fun _ => 0) 32
    (by decide) (fun _ => true) false
  obtain ⟨p, hp⟩ := hroom.2 (by decide +kernel)
  refine ⟨p, hp, ?_⟩
  have hrender : pointItem.render false 0 =
      ascii "\x7b\"x\":2,\"tags\":[\"a\\\"b\\n\",null]\x7d" := by decide +kernel
  exact hrender ▸ (htext p hp).1

end Texts

end Libks
