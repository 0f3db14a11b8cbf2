import Libks.Base.Calls
import Libks.Base.CString
import Libks.Base.Memory
import Libks.Pool.State

/-!
# String builders

`KsSb` is the record behind `ks_sb_t`: a block of memory that holds a text and the NUL
behind it. The block comes from a pool, and `malloc` and `realloc` may refuse it, which
an assertion of the pool puts an end to. What is checked is where `memcpy` reads and
writes: a call that leaves a block, or reads one that `realloc` has taken away, ends in
a fault.
-/

namespace Libks

open Base

/-- `KS_PRINT_BUF_SIZE`. -/
def printBufSize : ℕ := 350

/-- Where a `const char *` points to: a block of the caller, with the bytes from there
    on, or the block of the builder itself, at an offset. -/
inductive Source
  | null
  | block (bs : List UInt8)
  | inside (off : ℕ)
  | dangling
  deriving DecidableEq, Repr

/-- What is left of a pointer when the block of the builder has been moved. -/
def Source.moved : Source → Source
  | .inside _ => .dangling
  | str => str

/-- The part of `ks_pool_alloc` and `ks_pool_resize` that gets a block of `size` bytes
    from `malloc` or `realloc`, which grants it or not. `ks_pool_resize` does not assert
    that there is room for the fence; but a builder has no size that wraps, as all that it is
    given to hold is in memory already (`accommodate_cases`). -/
def poolBlock (size : ℕ) (granted : Bool) : Except Fault Unit :=
  if size = 0 ∨ granted = false then .error .assertion
  -- A size that has wrapped leaves no room for the prefix, or puts the fence on it.
  else if KsPool.required size < prefixSize then .error .overflow
  else if KsPool.required size < prefixSize + fenceSize then .error .assertion
  else .ok ()

/-- `struct ks_sb_s`. -/
structure KsSb where
  data : Mem := fun _ => 0
  size : ℕ
  used : ℕ

namespace KsSb

/-- The size of the block that a builder starts with. -/
def startSize (preallocated : ℕ) : ℕ := if preallocated = 0 then printBufSize * 2 else preallocated

/-- `ks_sb_create`. The pool sets the bytes of the block to zero. -/
def create (preallocated : ℕ) (granted : Bool) : Except Fault KsSb := do
  poolBlock (startSize preallocated) granted
  return { size := startSize preallocated, used := 1 }

/-- `ks_sb_length`. -/
def length (sb : KsSb) : ℕ := sub64 sb.used 1

/-- `ks_sb_accommodate`. `rest` is what `realloc` finds behind the bytes it keeps, if it
    grants the block. -/
def accommodate (sb : KsSb) (len : ℕ) (rest : Option Mem) : Except Fault KsSb :=
  if len = 0 then .ok sb
  else if sb.size < add64 sb.used len then do
    let needed := sub64 (add64 sb.used len) sb.size
    let needed := if needed < printBufSize then printBufSize else needed
    let size := add64 sb.size needed
    poolBlock size rest.isSome
    return { sb with size, data := fun i => if i < sb.size then sb.data i else rest.getD sb.data i }
  else .ok sb

/-- The bytes that `memcpy` reads at `str`, to put `n` of them at the offset `dst`. It
    is not for blocks that overlap. -/
def fetch (sb : KsSb) (dst n : ℕ) : Source → Except Fault (List UInt8)
  | .block bs => if n ≤ bs.length then .ok (bs.take n) else .error .outOfBounds
  | .inside off =>
    if off + n ≤ sb.size ∧ (off + n ≤ dst ∨ dst + n ≤ off) then .ok (sb.data.read off n)
    else .error .outOfBounds
  | .null | .dangling => .error .outOfBounds

/-- `strlen`. -/
def strlen (sb : KsSb) : Source → Except Fault ℕ
  | .block bs =>
    match strchr 0 bs with
    | some n => .ok n
    | none => .error .outOfBounds
  | .inside off =>
    match strchr 0 (sb.data.read off (sb.size - off)) with
    | some n => .ok n
    | none => .error .outOfBounds
  | .null | .dangling => .error .outOfBounds

/-- The end of `ks_sb_append_ex`: the piece is copied, with the byte behind it. -/
def store (sb : KsSb) (str : Source) (len : ℕ) : Except Fault KsSb := do
  let dst := sub64 sb.used 1
  let bs ← sb.fetch dst (add64 len 1) str
  if dst + bs.length ≤ sb.size then
    return { sb with data := sb.data.write dst bs, used := add64 sb.used len }
  else .error .outOfBounds

/-- `ks_sb_append_ex`. -/
def appendEx (sb : KsSb) (str : Source) (len : ℕ) (rest : Option Mem) :
    Except Fault (Status × KsSb) :=
  if str = .null ∨ len = 0 then .ok (.success, sb)
  else do
    let str := if sb.size < add64 sb.used len then str.moved else str
    let sb ← sb.accommodate len rest
    let sb ← sb.store str len
    return (.success, sb)

/-- `ks_sb_append`. -/
def append (sb : KsSb) (str : Source) (rest : Option Mem) : Except Fault (Status × KsSb) :=
  if str = .null then .ok (.success, sb)
  else do
    let len ← sb.strlen str
    sb.appendEx str len rest

/-- A call, with what `realloc` returns in it. -/
inductive Op
  | append (str : Source) (rest : Option Mem)
  | appendEx (str : Source) (len : ℕ) (rest : Option Mem)

/-- What is called. -/
def call (sb : KsSb) : Op → Except Fault (Status × KsSb)
  | .append str rest => sb.append str rest
  | .appendEx str len rest => sb.appendEx str len rest

end KsSb

end Libks
