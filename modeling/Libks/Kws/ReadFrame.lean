import Libks.Base.Rfc6455
import Libks.Kws.Establish

/-!
# Reading a frame

`readFrame` embeds `kws_read_frame`. A pass of its `again:` loop (`pass`) reads
one frame: a speculative read of up to nine bytes (`pullHeader`), reads that top
up the header to its full length (`readHeader`), the room for the payload
(`makeRoom`), and the payload itself (`readPayload`). A pass leaves the
function early by an `Exit`, or gives the state in which the loop goes around.
-/

namespace Libks

open Base

/-- The opcodes of frames with a payload to read. -/
def Opcode.IsData (oc : Opcode) : Prop :=
  oc = continuation ∨ oc = text ∨ oc = binary ∨ oc = ping ∨ oc = pong

instance : DecidablePred Opcode.IsData := fun _ => inferInstanceAs (Decidable (_ ∨ _))

/-- What `kws_read_frame` returns, with what it stores through its arguments. -/
structure FrameResult where
  ret : ℤ
  oc : Opcode
  data : Option Ptr
  deriving DecidableEq, Repr

/-- An early end of `kws_read_frame`. -/
inductive Exit
  | fault (f : Fault)
  | ret (r : FrameResult) (k : Kws)

/-- A step that may stop the run. -/
def Exit.lift {α : Type} (e : Except Fault α) : Except Exit α := e.mapError Exit.fault

/-- `hton64`. -/
def hton64 (val : ℕ) : ℕ := bswap 8 val

/-- `ntoh64`. -/
def ntoh64 (val : ℕ) : ℕ := bswap 8 val

/-- The bytes `bs` xored with the key, byte `i` with key byte `i % 4`. -/
def maskBytes (maskp : ℕ → UInt8) (bs : List UInt8) : List UInt8 :=
  bs.mapIdx fun i b => b ^^^ maskp (i % 4)

/-- The mask of the code, with its key in memory, is the mask of the RFC. -/
theorem maskBytes_eq {maskp : ℕ → UInt8} {key : Rfc6455.Key} (h : ∀ i : Fin 4, maskp i = key i)
    (bs : List UInt8) : maskBytes maskp bs = key.mask bs := by
  refine List.ext_getElem (by simp [maskBytes]) fun i h₁ h₂ => ?_
  simp only [maskBytes, Rfc6455.Key.mask, List.getElem_mapIdx]
  rw [← h ⟨i % 4, Nat.mod_lt _ (by decide)⟩]

namespace Kws

/-- `return kws_close(kws, reason)`. -/
def closeWith {α : Type} (k : Kws) (reason : ℕ) (oc : Opcode) (data : Option Ptr := none) :
    Except Exit α :=
  .error (.ret ⟨(k.close reason).1, oc, data⟩ (k.close reason).2)

/-! ## The header -/

/-- The checks a pass starts with. -/
def enter (k : Kws) (oc : Opcode) : Except Exit Kws := do
  let (ll, k) ← Exit.lift k.establishLogicalLayer
  if ll < 0 then .error (.ret ⟨ll, oc, none⟩ k)
  else if k.down ≠ 0 then .error (.ret ⟨-1, oc, none⟩ k)
  else if ¬k.handshake then k.closeWith 0 oc
  else .ok k

/-- The first reads of a frame: nine bytes if they are there, two at least. -/
def pullHeader (k : Kws) (oc : Opcode) : Except Exit Kws := do
  let (read, k) ← Exit.lift (k.stringRead (.buffer 0) (9 + 1) k.block)
  let k := { k with datalen := read.ret }
  if read.ret < 0 then
    if read.ret = -2 then .error (.ret ⟨-2, oc, none⟩ k) else k.closeWith 0 oc
  else if k.datalen < 2 then
    let (read, k) ← Exit.lift
      (k.stringRead (.buffer k.datalen.toNat) (9 - k.datalen).toNat wsBlock)
    if read.ret < 0 then k.closeWith 0 oc
    else
      let k := { k with datalen := k.datalen + read.ret }
      if k.datalen < 2 then k.closeWith 0 oc else .ok k
  else .ok k

/-- Reads the header up to `need` bytes, where fewer have come so far. -/
def topUp (k : Kws) (need : ℕ) : Except Exit Kws :=
  if k.datalen < (need : ℤ) then do
    let (bytes, k) ← Exit.lift (k.stringReadBlocking (.buffer k.datalen.toNat)
      (need - k.datalen + 1).toNat 10)
    if bytes < 0 then k.closeWith 0 Opcode.close
    else
      let k := { k with datalen := k.datalen + bytes }
      if k.datalen < (need : ℤ) then k.closeWith 0 Opcode.close else .ok k
  else .ok k

/-- Reads the length field: sets `plen` and `payload`, and gives the length of
    the header so far (which has `need` bytes before the extended length). -/
def readLength (k : Kws) (need : ℕ) : Except Exit (ℕ × Kws) :=
  let len := (k.buffer 1).toNat % 128
  if len = 127 then do
    let k ← k.topUp (need + 8)
    return (need + 8, { k with
      plen := toInt64 (ntoh64 (ofLe (k.buffer.read 2 8)))
      payload := 10 })
  else if len = 126 then do
    let k ← k.topUp (need + 2)
    return (need + 2, { k with
      plen := ntohs (ofLe (k.buffer.read 2 2))
      payload := 4 })
  else return (need, { k with plen := len, payload := 2 })

/-! ## The payload -/

/-- Room for the payload behind the `body` bytes of the message, and for a
    terminator; a message over the size limit closes the connection. -/
def makeRoom (k : Kws) : Except Exit Kws :=
  -- `blen` is an `int`.
  if 2 ^ 31 ≤ k.body then .error (.fault .overflow)
  else if 2 ^ 63 ≤ k.body + k.plen then .error (.fault .overflow)
  else if toInt64 k.bbuflen ≤ k.body + k.plen then
    let k := { k with bbuflen := (k.body + k.plen).toNat + 1 }
    if k.payloadSizeMax ≠ 0 ∧ toUInt64 k.payloadSizeMax < k.bbuflen then k.closeWith 0 Opcode.close
    else .ok k
  else .ok k

/-- The payload bytes that came with the header, `rplen` of them, go to the
    body; both assertions guard the copy and the reads to come. -/
def copyHeld (k : Kws) (need : ℤ) : Except Exit Kws := do
  let k := { k with rplen := k.plen - need }
  let k ←
    if k.rplen ≠ 0 then
      if (k.bbuflen : ℤ) < k.body + k.rplen then .error (.fault .assertion)
      else Exit.lift (k.store (.bbuffer k.body) (k.buffer.read k.payload k.rplen.toNat))
    else .ok k
  if (k.bbuflen : ℤ) < k.body + k.plen then .error (.fault .assertion) else .ok k

/-- The `while (need)` loop. Every turn reads a byte at least, so `need` turns
    are enough. -/
def readPayload : ℕ → Kws → ℕ → Except Exit Kws
  | 0, k, need => if need = 0 then .ok k else .error (.fault .outOfFuel)
  | fuel + 1, k, need =>
    if need = 0 then .ok k
    else do
      let (read, k) ← Exit.lift
        (k.stringRead (.bbuffer (k.body + k.rplen.toNat)) (need + 1) wsBlock)
      if read.ret < 1 then k.closeWith 0 Opcode.close
      else
        let k := { k with datalen := k.datalen + read.ret, rplen := k.rplen + read.ret }
        readPayload fuel k (need - read.ret.toNat)

/-- Takes the mask off the payload. `maskp` is the offset of the key, if there
    is one. -/
def unmask (k : Kws) (maskp : Option ℕ) : Except Exit Kws :=
  match maskp with
  | some maskp => Exit.lift (k.store (.bbuffer k.body)
      (maskBytes (fun i => k.buffer (maskp + i)) (k.bbuffer.read k.body k.plen.toNat)))
  | none => .ok k

/-- Unmasks the payload, terminates a text, and moves `body` behind the payload. -/
def finishFrame (k : Kws) (oc : Opcode) (maskp : Option ℕ) : Except Exit Kws := do
  let k ← k.unmask maskp
  let k ←
    if oc = Opcode.text then Exit.lift (k.store (.bbuffer (k.body + k.rplen.toNat)) [0]) else .ok k
  return { k with packetlen := k.packetlen + k.rplen, body := k.body + k.rplen.toNat }

/-- The rest of the header of a data, ping or pong frame whose first bytes are
    in the buffer: its length, and the offset of the key, if there is one. -/
def readHeader (k : Kws) : Except Exit (ℕ × Option ℕ × Kws) := do
  let mask : Bool := 128 ≤ (k.buffer 1).toNat
  let k ← if mask then k.topUp 6 else .ok k
  let (need, k) ← k.readLength (if mask then 6 else 2)
  return (need, if mask then some k.payload else none,
    if mask then { k with payload := k.payload + 4 } else k)

/-- The payload behind a header of `need` bytes. -/
def readBody (k : Kws) (oc : Opcode) (need : ℕ) (maskp : Option ℕ) : Except Exit Kws := do
  let need := k.plen - (k.datalen - need)
  if need < -2 ^ 63 then .error (.fault .overflow)
  else if need < 0 then k.closeWith 0 Opcode.close
  else
    let k ← k.makeRoom
    let k ← k.copyHeld need
    let k ← readPayload need.toNat k need.toNat
    k.finishFrame oc maskp

/-- The case of a data, ping or pong frame, whose first bytes are in the buffer. -/
def readDataFrame (k : Kws) (oc : Opcode) : Except Exit Kws := do
  let (need, maskp, k) ← k.readHeader
  k.readBody oc need maskp

/-- The fragmentation flag after a frame with the first byte `b0`. -/
def nextFrag (frag : Bool) (b0 : UInt8) (oc : Opcode) : Bool :=
  let fin : Bool := 128 ≤ b0.toNat
  if ¬fin ∧ oc ≠ Opcode.continuation then true
  else if fin ∧ oc = Opcode.continuation then false
  else frag

/-- The opcode in the first byte of a frame. -/
def opcodeOf (b0 : UInt8) : Opcode := ⟨b0.toNat % 16, Rfc6455.opcode_lt b0⟩

/-- One pass from `again:` on, entered with `frag` and `*oc`: it gives their
    next values where the loop goes around. -/
def pass (k : Kws) (frag : Bool) (oc : Opcode) : Except Exit (Bool × Opcode × Kws) := do
  let k ← k.enter oc
  let k ← k.pullHeader oc
  let oc := opcodeOf (k.buffer 0)
  if oc = Opcode.close then
    let k := { k with plen := ((k.buffer 1).toNat % 128 : ℕ) }
    k.closeWith 1000 oc (some (.buffer 2))
  else if Opcode.IsData oc then
    let frag := nextFrag frag (k.buffer 0) oc
    let k ← k.readDataFrame oc
    if frag then return (frag, oc, k)
    else .error (.ret ⟨k.packetlen, oc, some (.bbuffer 0)⟩ k)
  else k.closeWith 1002 Opcode.close

/-- The `again:` loop. Every pass that goes around has read two bytes at least. -/
def againLoop : ℕ → Kws → Bool → Opcode → Except Fault (FrameResult × Kws)
  | 0, _, _, _ => .error .outOfFuel
  | fuel + 1, k, frag, oc =>
    match k.pass frag oc with
    | .error (.fault f) => .error f
    | .error (.ret r k) => .ok (r, k)
    | .ok (frag, oc, k) => againLoop fuel k frag oc

/-- `kws_read_frame`. -/
def readFrame (k : Kws) : Except Fault (FrameResult × Kws) :=
  againLoop k.inputSize { k with body := 0, packetlen := 0 } false Opcode.invalid

end Kws

end Libks
