import Libks.Base.Memory
import Libks.Fault
import Libks.Kws.Transport

/-!
# The state of a connection

`Kws` is the record behind `kws_t`, with the world on the other side of its
socket. Pointers into its two buffers are offsets; a store through a pointer is
checked against the capacity the record gives for the buffer (`Kws.store`), and
a run that would leave the buffer, overflow a signed integer or fail an
assertion stops with a `Fault`.
-/

namespace Libks

open Base

/-- `kws_type_t`. -/
inductive KwsType
  | client
  | server
  deriving DecidableEq, Repr

/-- `kws_flag_t`. -/
structure KwsFlags where
  closeSock : Bool := false
  block : Bool := false
  stayOpen : Bool := false
  dontMask : Bool := false
  http : Bool := false
  deriving DecidableEq, Repr

/-- `kws_opcode_t`, as it is read off the wire: the four low bits of a byte,
    some of which have a name. -/
abbrev Opcode := Fin 16

namespace Opcode

def continuation : Opcode := 0x0
def text : Opcode := 0x1
def binary : Opcode := 0x2
def close : Opcode := 0x8
def ping : Opcode := 0x9
def pong : Opcode := 0xA
def invalid : Opcode := 0xF

end Opcode

/-- What the JSON object `params` holds of interest. -/
structure Params where
  /-- The keys and values of `headers`, where they are strings. -/
  headers : List (Option (List UInt8) × Option (List UInt8)) := []
  sslValidateCertificate : Bool := false
  payloadSizeMax : ℤ := 0
  wsHandshakeTimeoutMs : ℕ := 0

/-- `struct kws_s`. -/
structure Kws where
  /-- Whether `sock` is not `KS_SOCK_INVALID`. -/
  sock : Bool := true
  type : KwsType := .client
  buffer : Mem := fun _ => 0
  bbuffer : Mem := fun _ => 0
  /-- The offset of `body` in `bbuffer`. -/
  body : ℕ := 0
  uri : Option (List UInt8) := none
  buflen : ℕ := 1024 * 64
  bbuflen : ℕ := 1024 * 64
  datalen : ℤ := 0
  /-- The offset of `payload` in `buffer`. -/
  payload : ℕ := 0
  plen : ℤ := 0
  rplen : ℤ := 0
  packetlen : ℤ := 0
  ssl : Bool := false
  handshake : Bool := false
  down : ℕ := 0
  secure : Bool := false
  block : ℤ := 0
  sanity : ℕ := 5000
  secureEstablished : Bool := false
  logicalEstablished : Bool := false
  flags : KwsFlags := {}
  x : ℕ := 0
  sslIoError : Bool := false
  writeBuffer : Mem := fun _ => 0
  writeBufferLen : ℕ := 0
  reqUri : List UInt8 := []
  reqHost : Option (List UInt8) := none
  reqProto : Option (List UInt8) := none
  certifiedClient : Bool := false
  unprocessedBufferLen : ℕ := 0
  /-- The offset of `unprocessed_position` in `buffer` (`0` for `NULL`). -/
  unprocessedPosition : ℕ := 0
  params : Params := {}
  payloadSizeMax : ℤ := 0
  world : World := {}

/-- A pointer into one of the buffers, or to memory of the caller. -/
inductive Ptr
  | buffer (off : ℕ)
  | bbuffer (off : ℕ)
  | caller
  deriving DecidableEq, Repr

/-- Pointer arithmetic. -/
def Ptr.add : Ptr → ℕ → Ptr
  | buffer off, n => buffer (off + n)
  | bbuffer off, n => bbuffer (off + n)
  | caller, _ => caller

/-- `WS_BLOCK`. -/
def wsBlock : ℤ := 10000

/-- `WS_SOFT_BLOCK`. -/
def wsSoftBlock : ℤ := 1000

/-- `WS_WRITE_SANITY`. -/
def wsWriteSanity : ℕ := 200

namespace Kws

/-- Stores `bs` at `p`, in the bounds of the buffer. The caller answers for its
    own memory. -/
def store (k : Kws) (p : Ptr) (bs : List UInt8) : Except Fault Kws :=
  match p with
  | .buffer off =>
    if off + bs.length ≤ k.buflen then .ok { k with buffer := k.buffer.write off bs }
    else .error .outOfBounds
  | .bbuffer off =>
    if off + bs.length ≤ k.bbuflen then .ok { k with bbuffer := k.bbuffer.write off bs }
    else .error .outOfBounds
  | .caller => .ok k

/-- The `n` bytes at `p`. -/
def load (k : Kws) (p : Ptr) (n : ℕ) : List UInt8 :=
  match p with
  | .buffer off => k.buffer.read off n
  | .bbuffer off => k.bbuffer.read off n
  | .caller => []

/-- The string in the receive buffer. -/
def text (k : Kws) : List UInt8 := k.buffer.strAt k.buflen 0

/-- The bytes of earlier reads that no call has delivered yet. -/
def unprocessed (k : Kws) : List UInt8 :=
  k.buffer.read k.unprocessedPosition k.unprocessedBufferLen

/-! ## Reading -/

/-- What a read returns, and the bytes it has stored for the caller. -/
structure Read where
  ret : ℤ
  bytes : List UInt8
  deriving DecidableEq, Repr

/-- The part of `kws_raw_read` that turns to the transport. -/
def transportRead (k : Kws) (bytes : ℕ) (block : ℤ) : Received :=
  if Refused k.ssl bytes then ⟨-1, [], k.x + 1, true, k.world.reads⟩
  -- A read of no bytes takes nothing from the transport.
  else if requestSize bytes = 0 then ⟨0, [], k.x + 1, k.sslIoError, k.world.reads⟩
  else receive k.ssl (requestSize bytes) block (k.x + 1) k.sslIoError k.world.reads

/-- The connection after the transport gave `got`. -/
def afterRead (k : Kws) (got : Received) : Kws :=
  { k with
    x := got.x
    sslIoError := got.sslIoError
    world := { k.world with reads := got.reads } }

/-- The `end:` of `kws_raw_read`, where a read of the transport has given `got`. -/
def endRead (k : Kws) (data : Ptr) (bytes : ℕ) (block : ℤ) (got : Received) :
    Except Fault (Read × Kws) :=
  -- The wait has taken too long, whatever has arrived in the end.
  let r := if 10000 ≤ k.x ∨ (block ≠ 0 ∧ block.tdiv 10 ≤ k.x) then -1 else got.r
  do
    let k ← if 0 < r ∧ r < bytes then k.store (data.add r.toNat) [0] else .ok k
    return (⟨r, if 0 < r then got.bytes else []⟩, if 0 ≤ r then { k with x := 0 } else k)

/-- `kws_raw_read`. -/
def rawRead (k : Kws) (data : Ptr) (bytes : ℕ) (block : ℤ) : Except Fault (Read × Kws) :=
  if 0 < k.unprocessedBufferLen then
    let n := if bytes < k.unprocessedBufferLen then bytes else k.unprocessedBufferLen
    let bs := k.buffer.read k.unprocessedPosition n
    do
      let k ← k.store data bs
      if bytes < k.unprocessedBufferLen then
        return (⟨n, bs⟩, { k with
          unprocessedPosition := k.unprocessedPosition + n
          unprocessedBufferLen := k.unprocessedBufferLen - n })
      else
        return (⟨n, bs⟩, { k with unprocessedPosition := 0, unprocessedBufferLen := 0 })
  else
    let got := k.transportRead bytes block
    do
      let k ← (k.afterRead got).store data got.bytes
      k.endRead data bytes block got

/-- The loop of `kws_raw_read_blocking`, with `total` bytes read so far. A call
    for bytes of the transport is repeated at most `max_bytes` times, and each
    time at most `max_retries` times without result. -/
def rawReadBlockingLoop (data : Ptr) (maxBytes maxRetries : ℕ) :
    ℕ → Kws → ℕ → ℕ → Except Fault (ℤ × Kws)
  | 0, _, _, _ => .error .outOfFuel
  | fuel + 1, k, total, zeroReads =>
    if total < maxBytes ∧ zeroReads < maxRetries then do
      let (read, k) ← k.rawRead (data.add total) (maxBytes - total) wsBlock
      if read.ret = 0 then rawReadBlockingLoop data maxBytes maxRetries fuel k total (zeroReads + 1)
      else if read.ret < 0 then return ((total : ℤ), k)
      else rawReadBlockingLoop data maxBytes maxRetries fuel k (total + read.ret.toNat) 0
    else .ok (total, k)

/-- `kws_raw_read_blocking`. -/
def rawReadBlocking (k : Kws) (data : Ptr) (maxBytes maxRetries : ℕ) : Except Fault (ℤ × Kws) :=
  rawReadBlockingLoop data maxBytes maxRetries ((maxBytes + 1) * (maxRetries + 1)) k 0 0

/-- `kws_string_read`: a read of up to `buffer_size - 1` bytes into a buffer
    whose last byte is set to NUL first. -/
def stringRead (k : Kws) (strBuffer : Ptr) (bufferSize : ℕ) (block : ℤ) :
    Except Fault (Read × Kws) :=
  if bufferSize < 1 then .ok (⟨-1, []⟩, k)
  else do
    let k ← k.store (strBuffer.add (bufferSize - 1)) [0]
    if bufferSize < 2 then return (⟨0, []⟩, k)
    else k.rawRead strBuffer (bufferSize - 1) block

/-- `kws_string_read_blocking`. -/
def stringReadBlocking (k : Kws) (strBuffer : Ptr) (bufferSize maxRetries : ℕ) :
    Except Fault (ℤ × Kws) :=
  if bufferSize < 1 then .ok (-1, k)
  else do
    let k ← k.store (strBuffer.add (bufferSize - 1)) [0]
    if bufferSize < 2 then return (0, k)
    else k.rawReadBlocking strBuffer (bufferSize - 1) maxRetries

/-- `kws_read_buffer`. -/
def readBuffer (k : Kws) (bytes : ℕ) (block : ℤ) : Except Fault (Read × Kws) :=
  k.stringRead (.buffer 0) (min bytes k.buflen) block

/-! ## Writing -/

/-- `kws_raw_write`. -/
def rawWrite (k : Kws) (data : List UInt8) : ℤ × Kws :=
  let s := if k.ssl then sslWriteLoop data wsWriteSanity 0 [] k.world.writes
    else sendLoop data wsWriteSanity 0 [] k.world.writes
  (s.r, { k with
    sslIoError := k.sslIoError || s.sslIoError
    world := { k.world with writes := s.writes, sent := k.world.sent ++ s.accepted } })

/-- `gen_nonce`: the next `n` bytes of the random number generator. -/
def genNonce (k : Kws) (n : ℕ) : List UInt8 × Kws :=
  ((k.world.random.take n) ++ List.replicate (n - k.world.random.length) 0,
    { k with world := { k.world with random := k.world.random.drop n } })

end Kws

end Libks
