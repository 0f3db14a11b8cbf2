import Libks.Base.Memory
import Libks.Base.Word
import Libks.Fault

/-!
# Buffers

`KsBuffer` is the record behind `ks_buffer_t`: a block of memory, of which the
bytes before `actuallyUsed` have been written, and those from `head` on are
still to be read. Sizes are `size_t`s, and wrap. What is checked is where
`memcpy` and `memmove` read and write: a call that leaves the block ends in a
fault. The outcome of `realloc` is up to the system: every write is told whether
it is granted.
-/

namespace Libks

open Base

/-- `struct ks_buffer`. -/
structure KsBuffer where
  data : Mem := fun _ => 0
  /-- The offset of `head` in `data`. -/
  head : ℕ := 0
  used : ℕ := 0
  actuallyUsed : ℕ := 0
  datalen : ℕ := 0
  maxLen : ℕ := 0
  blocksize : ℕ := 0
  loops : ℤ := 0

namespace KsBuffer

/-- `ks_buffer_create`. A buffer with `start_len` zero has no block at first. -/
def create (blocksize startLen maxLen : ℕ) : KsBuffer :=
  { maxLen, datalen := startLen, blocksize }

/-- `ks_buffer_inuse`. -/
def inuse (b : KsBuffer) : ℕ := b.used

/-- The bytes still to be read. -/
def unread (b : KsBuffer) : List UInt8 := b.data.read b.head b.used

/-! ## Copies -/

/-- A `memcpy` of `n` bytes out of the block. -/
def copyOut (b : KsBuffer) (off n : ℕ) : Except Fault (List UInt8) :=
  if off + n ≤ b.datalen then .ok (b.data.read off n) else .error .outOfBounds

/-- A `memcpy` of `bs` into the block. -/
def copyIn (b : KsBuffer) (off : ℕ) (bs : List UInt8) : Except Fault KsBuffer :=
  if off + bs.length ≤ b.datalen then .ok { b with data := b.data.write off bs }
  else .error .outOfBounds

/-! ## Reading -/

/-- How many of `datalen` bytes asked for there are. -/
def available (b : KsBuffer) (datalen : ℕ) : ℕ := if datalen ≤ b.used then datalen else b.used

/-- `ks_buffer_seek`. -/
def seek (b : KsBuffer) (datalen : ℕ) : ℕ × KsBuffer :=
  if b.used < 1 then (0, { b with used := 0 })
  else
    let reading := b.available datalen
    (reading, { b with used := sub64 b.actuallyUsed reading, head := reading })

/-- `ks_buffer_toss`. -/
def toss (b : KsBuffer) (datalen : ℕ) : ℕ × KsBuffer :=
  if b.used < 1 then (0, { b with used := 0 })
  else
    let reading := b.available datalen
    let b := { b with used := sub64 b.used reading, head := b.head + reading }
    (b.used, b)

/-- `ks_buffer_read`: what it returns, and the bytes it has copied. -/
def read (b : KsBuffer) (datalen : ℕ) : Except Fault ((ℕ × List UInt8) × KsBuffer) :=
  if b.datalen = 0 then .error .assertion
  else if b.used < 1 then .ok ((0, []), { b with used := 0 })
  else do
    let reading := b.available datalen
    let bs ← b.copyOut b.head reading
    return ((reading, bs), { b with used := sub64 b.used reading, head := b.head + reading })

/-- `ks_buffer_read_loop`. The counter `loops` is an `int`, and wraps. -/
def readLoop (b : KsBuffer) (datalen : ℕ) : Except Fault ((ℕ × List UInt8) × KsBuffer) := do
  let ((len, bs), b) ← b.read datalen
  if len < datalen then
    if b.loops = 0 then return ((len, bs), b)
    else
      let ((len, more), b) ← { b with head := 0, used := b.actuallyUsed }.read (datalen - len)
      return ((len, bs ++ more), { b with loops := toInt32 (b.loops - 1) })
  else return ((len, bs), b)

/-- The loop of `ks_buffer_read_packet` from the offset `p` on, with `left` more
    bytes up to `e`: the length of the packet, `0` if there is none. It may look
    at the byte at `e`, whatever that is. -/
def packetLen (m : Mem) (head e : ℕ) : ℕ → ℕ → ℕ
  | 0, _ => 0
  | left + 1, p =>
    if m p = 0 then 0
    else
      let pe := if m (p + 1) = 13 then p + 2 else p + 1
      if m p = 10 ∧ pe ≤ e ∧ m pe = 10 then pe + 1 - head
      else packetLen m head e left (p + 1)

/-- `ks_buffer_read_packet`. -/
def readPacket (b : KsBuffer) (maxlen : ℕ) : Except Fault ((ℕ × List UInt8) × KsBuffer) :=
  b.read (min (packetLen b.data b.head (b.head + b.used) b.used b.head) maxlen)

/-! ## Writing -/

/-- The `memmove` that takes the unread bytes to the front. -/
def compact (b : KsBuffer) : Except Fault KsBuffer := do
  let bs ← b.copyOut b.head b.used
  let b ← b.copyIn 0 bs
  return { b with head := 0, actuallyUsed := b.used }

/-- The new size of a block that has to take `n` more bytes. -/
def newSize (b : KsBuffer) (n : ℕ) : ℕ :=
  let newSize := add64 b.datalen n
  let newBlockSize := add64 b.datalen b.blocksize
  if newSize < newBlockSize then newBlockSize else newSize

/-- The first part of `ks_buffer_write`: where the block has no room for `n` more
    bytes, the unread ones are moved to the front, unless they and the new ones
    go beyond `max_len`. -/
def makeRoom (b : KsBuffer) (n : ℕ) : Except Fault KsBuffer :=
  if sub64 b.datalen b.actuallyUsed < n ∧ (b.maxLen = 0 ∨ add64 b.used n ≤ b.maxLen) then b.compact
  else .ok b

/-- The end of `ks_buffer_write`: the bytes go behind the unread ones, if the
    block has room for them. -/
def store (b : KsBuffer) (bs : List UInt8) : Except Fault (ℕ × KsBuffer) :=
  if sub64 b.datalen b.used < bs.length then .ok (0, b)
  else do
    let b ← b.copyIn (b.head + b.used) bs
    let b := { b with
      used := add64 b.used bs.length
      actuallyUsed := add64 b.actuallyUsed bs.length }
    return (b.used, b)

/-- The second part of `ks_buffer_write`: the block grows, where it has to, and
    takes the bytes. -/
def append (b : KsBuffer) (bs : List UInt8) (granted : Bool) : Except Fault (ℕ × KsBuffer) :=
  if sub64 b.datalen b.used < bs.length then
    -- The head is reset before `realloc`, and stays so where that fails.
    if granted then { b with head := 0, datalen := b.newSize bs.length }.store bs
    else .ok (0, { b with head := 0 })
  else b.store bs

/-- `ks_buffer_write`. -/
def write (b : KsBuffer) (bs : List UInt8) (granted : Bool) : Except Fault (ℕ × KsBuffer) :=
  if b.datalen = 0 then .error .assertion
  else if bs.length = 0 then .ok (b.used, b)
  else do
    let b ← b.makeRoom bs.length
    b.append bs granted

/-- `ks_buffer_zero`. -/
def zero (b : KsBuffer) : Except Fault KsBuffer :=
  if b.datalen = 0 then .error .assertion
  else .ok { b with used := 0, actuallyUsed := 0, head := 0 }

/-- `ks_buffer_zwrite`: a write that is made again on the empty buffer, if it has
    returned `0`. -/
def zwrite (b : KsBuffer) (bs : List UInt8) (granted again : Bool) :
    Except Fault (ℕ × KsBuffer) := do
  let (w, b) ← b.write bs granted
  if w = 0 then
    let b ← b.zero
    b.write bs again
  else return (w, b)

/-! ## Calls in a row -/

/-- A call of one of the functions. -/
inductive Op
  | write (bs : List UInt8) (granted : Bool)
  | read (n : ℕ)
  | toss (n : ℕ)
  | seek (n : ℕ)
  | readLoop (n : ℕ)
  | readPacket (n : ℕ)
  | zero
  | zwrite (bs : List UInt8) (granted again : Bool)
  | setLoops (loops : ℤ)

/-- What a call gives: the result, and the bytes it has copied to its caller. -/
abbrev Out := ℕ × List UInt8

/-- The call `op`. -/
def call (b : KsBuffer) : Op → Except Fault (Out × KsBuffer)
  | .write bs granted => do
    let (w, b) ← b.write bs granted
    return ((w, []), b)
  | .read n => b.read n
  | .toss n => .ok (((b.toss n).1, []), (b.toss n).2)
  | .seek n => .ok (((b.seek n).1, []), (b.seek n).2)
  | .readLoop n => b.readLoop n
  | .readPacket n => b.readPacket n
  | .zero => do
    let b ← b.zero
    return ((0, []), b)
  | .zwrite bs granted again => do
    let (w, b) ← b.zwrite bs granted again
    return ((w, []), b)
  | .setLoops loops => .ok ((0, []), { b with loops })

end KsBuffer

end Libks
