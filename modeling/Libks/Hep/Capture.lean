import Libks.Base.CString
import Libks.Base.Hep3
import Libks.Base.Memory
import Libks.Base.Outcome
import Libks.Fault

/-!
# HEP3 captures

`ks_hepv3_capture_create` lays out a packet with the parameters of a call and its
payload, in records without padding whose numbers are put in network order. The length
of the packet and that of the payload's chunk have 16 bits, and so a packet that is not
refused can be read again if and only if it is shorter than `2 ^ 16` bytes
(`captureCreate_carries_iff`).

The clock, the two conversions of addresses, and what `malloc` returns are up to the
system, and arguments.
-/

namespace Libks

open Base

/-- `htonl`. -/
def htonl (n : ℕ) : ℕ := bswap 4 n

/-- The conversion to a `uint16_t`. -/
def toUInt16 (n : ℕ) : ℕ := n % 2 ^ 16

/-- `AF_INET`. -/
def afInet : ℤ := 2

/-- `IPPROTO_TCP`. -/
def ipprotoTcp : ℕ := 6

/-- `ks_hepv3_direction_t`. -/
inductive HepDirection
  | send
  | recv
  deriving DecidableEq, Repr

/-- `ks_hepv3_capture_params_t`. -/
structure HepCaptureParams where
  ipFamily : ℤ
  localIp : List UInt8
  remoteIp : List UInt8
  localPort : UInt16
  remotePort : UInt16
  direction : HepDirection
  captureId : UInt32
  protocolTypeId : UInt8
  /-- The bytes that can be read at `payload`. -/
  payload : Option (List UInt8)
  payloadSize : ℕ

/-- The functions of the system: `ks_time_now`, `inet_addr` and `inet_pton` for
    `AF_INET6`, with the bytes of an address as they are stored. -/
structure HepSystem where
  timeNow : ℤ
  inetAddr : List UInt8 → Vector UInt8 4
  inetPton6 : List UInt8 → Option (Vector UInt8 16)

/-! ## Records -/

/-- `KS_HEPV3_VENDOR_ID_GENERIC`. -/
def hepVendorIdGeneric : ℕ := 0x0000

/-- The types of the generic chunks. -/
def hepTypeIdIpFamily : ℕ := 0x0001
def hepTypeIdIpProto : ℕ := 0x0002
def hepTypeIdSrcIp4 : ℕ := 0x0003
def hepTypeIdDstIp4 : ℕ := 0x0004
def hepTypeIdSrcIp6 : ℕ := 0x0005
def hepTypeIdDstIp6 : ℕ := 0x0006
def hepTypeIdSrcPort : ℕ := 0x0007
def hepTypeIdDstPort : ℕ := 0x0008
def hepTypeIdTimestampSec : ℕ := 0x0009
def hepTypeIdTimestampUsec : ℕ := 0x000a
def hepTypeIdProtoType : ℕ := 0x000b
def hepTypeIdAgentId : ℕ := 0x000c
def hepTypeIdPayload : ℕ := 0x000f

/-- `ks_hepv3_chunk_t`. -/
structure HepChunk where
  vendorId : ℕ
  typeId : ℕ
  length : ℕ

/-- `sizeof (ks_hepv3_chunk_t)`. -/
def sizeofHepChunk : ℕ := 6

/-- A chunk in memory. -/
def HepChunk.bytes (c : HepChunk) : List UInt8 :=
  leBytes 2 c.vendorId ++ leBytes 2 c.typeId ++ leBytes 2 c.length

/-- The records of a chunk and `n` bytes of data: `ks_hepv3_chunk_uint8_t`,
    `ks_hepv3_chunk_uint16_t`, `ks_hepv3_chunk_uint32_t`, `ks_hepv3_chunk_ip4_t` and
    `ks_hepv3_chunk_ip6_t`. -/
structure HepField (n : ℕ) where
  chunk : HepChunk
  data : Vector UInt8 n

/-- The size of such a record. -/
def sizeofHepField (n : ℕ) : ℕ := sizeofHepChunk + n

/-- The record in memory. -/
def HepField.bytes {n : ℕ} (f : HepField n) : List UInt8 := f.chunk.bytes ++ f.data.toList

/-- A record with its chunk filled in. -/
def hepField {n : ℕ} (typeId : ℕ) (data : Vector UInt8 n) : HepField n where
  chunk := {
    vendorId := htons hepVendorIdGeneric
    typeId := htons typeId
    length := htons (sizeofHepField n) }
  data

/-- A number of `n` bytes in memory. -/
def wordBytes (n w : ℕ) : Vector UInt8 n := ⟨(leBytes n w).toArray, by simp⟩

/-- `ks_hepv3_generic_t`. -/
structure HepGeneric where
  id : List UInt8
  length : ℕ
  ipFamily : HepField 1
  ipProto : HepField 1
  srcPort : HepField 2
  dstPort : HepField 2
  timeSec : HepField 4
  timeUsec : HepField 4
  protoT : HepField 1
  captId : HepField 4

/-- `sizeof (ks_hepv3_generic_t)`. -/
def sizeofHepGeneric : ℕ := 73

/-- The generic record in memory. -/
def HepGeneric.bytes (hg : HepGeneric) : List UInt8 :=
  hg.id ++ leBytes 2 hg.length ++ hg.ipFamily.bytes ++ hg.ipProto.bytes ++ hg.srcPort.bytes ++
    hg.dstPort.bytes ++ hg.timeSec.bytes ++ hg.timeUsec.bytes ++ hg.protoT.bytes ++ hg.captId.bytes

/-! ## The packet -/

/-- `*out_buffer`, a block of `size` bytes, and how many have been filled. -/
structure HepBuffer where
  data : Mem
  size : ℕ
  buflen : ℕ := 0

/-- A `memcpy` to the end of what has been filled. -/
def HepBuffer.put (b : HepBuffer) (bs : List UInt8) : Except Fault HepBuffer :=
  if b.buflen + bs.length ≤ b.size then
    .ok { b with data := b.data.write b.buflen bs, buflen := b.buflen + bs.length }
  else .error .outOfBounds

namespace HepCaptureParams

variable (S : HepSystem) (p : HepCaptureParams)

/-- `is_send`. -/
def isSend : Bool := p.direction = .send

/-- The generic record, before the length is filled in. -/
def generic : HepGeneric :=
  let nowUsec := S.timeNow
  let nowSec := nowUsec.tdiv 1000000
  { id := [0x48, 0x45, 0x50, 0x33]
    length := 0
    ipFamily := hepField hepTypeIdIpFamily (wordBytes 1 (p.ipFamily % 2 ^ 8).toNat)
    ipProto := hepField hepTypeIdIpProto (wordBytes 1 ipprotoTcp)
    srcPort := hepField hepTypeIdSrcPort
      (wordBytes 2 (htons (if p.isSend then p.localPort else p.remotePort).toNat))
    dstPort := hepField hepTypeIdDstPort
      (wordBytes 2 (htons (if p.isSend then p.remotePort else p.localPort).toNat))
    timeSec := hepField hepTypeIdTimestampSec (wordBytes 4 (htonl (nowSec % 2 ^ 32).toNat))
    timeUsec := hepField hepTypeIdTimestampUsec
      (wordBytes 4 (htonl ((nowUsec - nowSec * 1000000) % 2 ^ 32).toNat))
    protoT := hepField hepTypeIdProtoType (wordBytes 1 p.protocolTypeId.toNat)
    captId := hepField hepTypeIdAgentId (wordBytes 4 (htonl p.captureId.toNat)) }

/-- The chunk of the source address. An IPv6 address that is not understood stays zero. -/
def srcIp : List UInt8 :=
  if p.ipFamily = afInet then
    let localAddr := S.inetAddr p.localIp
    let remoteAddr := S.inetAddr p.remoteIp
    (hepField hepTypeIdSrcIp4 (if p.isSend then localAddr else remoteAddr)).bytes
  else
    let localAddr := (S.inetPton6 p.localIp).getD (Vector.replicate 16 0)
    let remoteAddr := (S.inetPton6 p.remoteIp).getD (Vector.replicate 16 0)
    (hepField hepTypeIdSrcIp6 (if p.isSend then localAddr else remoteAddr)).bytes

/-- The chunk of the destination address. -/
def dstIp : List UInt8 :=
  if p.ipFamily = afInet then
    let localAddr := S.inetAddr p.localIp
    let remoteAddr := S.inetAddr p.remoteIp
    (hepField hepTypeIdDstIp4 (if p.isSend then remoteAddr else localAddr)).bytes
  else
    let localAddr := (S.inetPton6 p.localIp).getD (Vector.replicate 16 0)
    let remoteAddr := (S.inetPton6 p.remoteIp).getD (Vector.replicate 16 0)
    (hepField hepTypeIdDstIp6 (if p.isSend then remoteAddr else localAddr)).bytes

/-- `iplen`. -/
def iplen : ℕ :=
  if p.ipFamily = afInet then sizeofHepField 4 + sizeofHepField 4
  else sizeofHepField 16 + sizeofHepField 16

/-- `total_len`. -/
def totalLen : ℕ := add64 (add64 (add64 sizeofHepGeneric p.payloadSize) p.iplen) sizeofHepChunk

/-- The chunk in front of the payload. -/
def payloadChunk : HepChunk where
  vendorId := htons hepVendorIdGeneric
  typeId := htons hepTypeIdPayload
  length := htons (toUInt16 (add64 sizeofHepChunk p.payloadSize))

/-- The output buffer is filled, if `malloc` grants it, with the block as it finds it. -/
def fill (hg : HepGeneric) (payload : List UInt8) : Option Mem → Except Fault (ℕ × Option HepBuffer)
  | none => .ok (0, none)
  | some data => do
    let b ← HepBuffer.put { data, size := p.totalLen } hg.bytes
    let b ← b.put (p.srcIp S)
    let b ← b.put (p.dstIp S)
    let b ← b.put p.payloadChunk.bytes
    if p.payloadSize ≤ payload.length then
      let b ← b.put (payload.take p.payloadSize)
      return (b.buflen, some b)
    else .error .outOfBounds

/-- `ks_hepv3_capture_create`: what it returns, and what it stores to `out_buffer`. The
    generic record is in a block of its own, which `malloc` grants or not. -/
def captureCreate (granted : Bool) (outBuffer : Option Mem) :
    Except Fault (ℕ × Option HepBuffer) :=
  match p.payload with
  | none => .ok (0, none)
  | some payload =>
    if p.payloadSize = 0 ∨ granted = false then .ok (0, none)
    else
      let hg := { p.generic S with length := htons (toUInt16 p.totalLen) }
      p.fill S hg payload outBuffer

/-! ## The contents of a packet -/

/-- The ends of the message, in its direction: where it comes from and where it goes. -/
def ends {α : Type} (localEnd remoteEnd : α) : α × α :=
  match p.direction with
  | .send => (localEnd, remoteEnd)
  | .recv => (remoteEnd, localEnd)

/-- The generic chunks that a packet should carry. -/
def generics : List Hep3.Chunk := [
  ⟨0, 0x1, [UInt8.ofNat (p.ipFamily % 2 ^ 8).toNat]⟩,
  ⟨0, 0x2, [6]⟩,
  ⟨0, 0x7, beBytes 2 (p.ends p.localPort p.remotePort).1.toNat⟩,
  ⟨0, 0x8, beBytes 2 (p.ends p.localPort p.remotePort).2.toNat⟩,
  ⟨0, 0x9, beBytes 4 (S.timeNow.tdiv 1000000 % 2 ^ 32).toNat⟩,
  ⟨0, 0xa, beBytes 4 (S.timeNow.tmod 1000000 % 2 ^ 32).toNat⟩,
  ⟨0, 0xb, [p.protocolTypeId]⟩,
  ⟨0, 0xc, beBytes 4 p.captureId.toNat⟩]

/-- The addresses that it should carry. -/
def addresses : List Hep3.Chunk :=
  let (src, dst) := p.ends p.localIp p.remoteIp
  if p.ipFamily = afInet then
    [⟨0, 0x3, (S.inetAddr src).toList⟩, ⟨0, 0x4, (S.inetAddr dst).toList⟩]
  else
    let inet6 addr := (S.inetPton6 addr).getD (Vector.replicate 16 0)
    [⟨0, 0x5, (inet6 src).toList⟩, ⟨0, 0x6, (inet6 dst).toList⟩]

/-- All that it should carry. -/
def chunks : List Hep3.Chunk :=
  p.generics S ++ p.addresses S ++ [⟨0, 0xf, (p.payload.getD []).take p.payloadSize⟩]

/-- The buffer is as long as is returned, and a packet with these chunks. -/
def Carries (r : ℕ × Option HepBuffer) : Prop :=
  ∃ b, r.2 = some b ∧ b.size = r.1 ∧ Hep3.parse (b.data.read 0 r.1) = some (p.chunks S)

/-- What the caller sees to: the payload can be read. -/
def Readable : Prop := p.payloadSize ≤ (p.payload.getD []).length ∨ p.payload = none

/-! ## The layout -/

variable {S p}

theorem leBytes_htons (n : ℕ) : leBytes 2 (htons n) = beBytes 2 n := leBytes_bswap 2 n

theorem leBytes_htonl (n : ℕ) : leBytes 4 (htonl n) = beBytes 4 n := leBytes_bswap 4 n

theorem toList_wordBytes (n w : ℕ) : (wordBytes n w).toList = leBytes n w := rfl

theorem hepField_bytes {n typeId : ℕ} (data : Vector UInt8 n) :
    (hepField typeId data).bytes = Hep3.Chunk.bytes ⟨0, typeId, data.toList⟩ := by
  simp only [HepField.bytes, hepField, HepChunk.bytes, leBytes_htons, Hep3.Chunk.bytes,
    sizeofHepField, sizeofHepChunk, hepVendorIdGeneric, Vector.length_toList]

theorem length_bytes {n : ℕ} (typeId : ℕ) (data : Vector UInt8 n) :
    (hepField typeId data).bytes.length = 6 + n := by
  rw [hepField_bytes, Hep3.Chunk.bytes]
  simp only [List.length_append, length_beBytes, Vector.length_toList]

theorem length_generic (n : ℕ) : { p.generic S with length := n }.bytes.length = 73 := by
  simp only [HepGeneric.bytes, generic, List.length_append, length_leBytes, length_bytes]
  rfl

/-- The records in memory are the chunks of the packet. -/
theorem generic_bytes (n : ℕ) : { p.generic S with length := n }.bytes =
    [0x48, 0x45, 0x50, 0x33] ++ leBytes 2 n ++ (p.generics S).flatMap Hep3.Chunk.bytes := by
  have htime : S.timeNow - S.timeNow.tdiv 1000000 * 1000000 = S.timeNow.tmod 1000000 := by
    rw [Int.tmod_def, Int.mul_comm]
  have hport : ∀ a b : UInt16, p.ends a b = (if p.isSend then a else b, if p.isSend then b else a) :=
    fun a b => by
      rw [ends, isSend]
      cases p.direction <;> rfl
  have hid : leBytes 1 p.protocolTypeId.toNat = [p.protocolTypeId] :=
    congrArg (· :: []) UInt8.ofNat_toNat
  simp only [HepGeneric.bytes, generic, generics, hepField_bytes, htime, hport, List.flatMap_cons,
    List.flatMap_nil, List.append_assoc, List.append_nil, toList_wordBytes, leBytes_htons,
    leBytes_htonl, hid]
  rfl

theorem addresses_bytes :
    p.srcIp S ++ p.dstIp S = (p.addresses S).flatMap Hep3.Chunk.bytes := by
  rw [srcIp, dstIp, addresses, ends, isSend]
  by_cases hfamily : p.ipFamily = afInet
  · simp only [if_pos hfamily, hepField_bytes]
    cases p.direction <;> simp <;> rfl
  · simp only [if_neg hfamily, hepField_bytes]
    cases p.direction <;> simp <;> rfl

theorem length_srcIp : (p.srcIp S).length + (p.dstIp S).length = p.iplen := by
  rw [srcIp, dstIp, iplen]
  by_cases hfamily : p.ipFamily = afInet
  · simp only [if_pos hfamily, length_bytes]
    rfl
  · simp only [if_neg hfamily, length_bytes]
    rfl

/-- The length of a packet, if it does not wrap. -/
theorem totalLen_of_lt (h : 79 + p.iplen + p.payloadSize < 2 ^ 64) :
    p.totalLen = 79 + p.iplen + p.payloadSize := by
  rw [totalLen, sizeofHepGeneric, sizeofHepChunk,
    add64_of_lt (show 73 + p.payloadSize < 2 ^ 64 by omega),
    add64_of_lt (show 73 + p.payloadSize + p.iplen < 2 ^ 64 by omega), add64_of_lt (by omega)]
  omega

/-- A packet that has wrapped has no room for its payload. -/
theorem totalLen_lt (h : 2 ^ 64 ≤ 79 + p.iplen + p.payloadSize) :
    p.totalLen < p.payloadSize := by
  have hiplen : p.iplen ≤ 44 := by
    rw [iplen]
    split_ifs <;> decide
  rw [totalLen, sizeofHepGeneric, sizeofHepChunk, add64, add64, add64]
  omega

/-- What is laid out is the packet of the chunks, if the lengths have room in 16 bits. -/
theorem layout_eq {payload : List UInt8} (hpayload : p.payload = some payload)
    (hread : p.payloadSize ≤ payload.length) (h : 79 + p.iplen + p.payloadSize < 2 ^ 16) :
    { p.generic S with length := htons (toUInt16 p.totalLen) }.bytes ++ p.srcIp S ++ p.dstIp S ++
      p.payloadChunk.bytes ++ payload.take p.payloadSize = Hep3.packet (p.chunks S) := by
  have htake : (payload.take p.payloadSize).length = p.payloadSize := by
    rw [List.length_take]
    omega
  have hchunk : p.payloadChunk.bytes ++ payload.take p.payloadSize =
      Hep3.Chunk.bytes ⟨0, 0xf, payload.take p.payloadSize⟩ := by
    rw [HepChunk.bytes, payloadChunk, leBytes_htons, leBytes_htons, leBytes_htons,
      add64_of_lt (show sizeofHepChunk + p.payloadSize < 2 ^ 64 by rw [sizeofHepChunk]; omega),
      toUInt16, Nat.mod_eq_of_lt (show sizeofHepChunk + p.payloadSize < 2 ^ 16 by
        rw [sizeofHepChunk]; omega), Hep3.Chunk.bytes, htake]
    rfl
  have hflat : (p.chunks S).flatMap Hep3.Chunk.bytes =
      (p.generics S).flatMap Hep3.Chunk.bytes ++ (p.srcIp S ++ p.dstIp S) ++
        (p.payloadChunk.bytes ++ payload.take p.payloadSize) := by
    rw [chunks, List.flatMap_append, List.flatMap_append, addresses_bytes, hchunk, hpayload]
    simp only [List.flatMap_cons, List.flatMap_nil, List.append_nil, Option.getD_some]
  have hgenerics : ((p.generics S).flatMap Hep3.Chunk.bytes).length = 67 := by
    have hlen := length_generic (S := S) (p := p) 0
    rw [generic_bytes, List.length_append, List.length_append, length_leBytes] at hlen
    exact Nat.add_left_cancel (n := 6) hlen
  have htotal : 6 + ((p.chunks S).flatMap Hep3.Chunk.bytes).length = p.totalLen := by
    have hip := length_srcIp (S := S) (p := p)
    rw [hflat, totalLen_of_lt (by omega), List.length_append, List.length_append, hgenerics,
      List.length_append, hip, List.length_append, htake]
    have hsix : p.payloadChunk.bytes.length = 6 := by
      simp only [HepChunk.bytes, List.length_append, length_leBytes]
    omega
  rw [Hep3.packet, htotal, hflat, generic_bytes, leBytes_htons, toUInt16,
    Nat.mod_eq_of_lt (by rw [totalLen_of_lt (by omega)]; exact h)]
  simp only [List.append_assoc]

theorem chunks_fit {payload : List UInt8} (hpayload : p.payload = some payload)
    (h : 79 + p.iplen + p.payloadSize < 2 ^ 16) : ∀ c ∈ p.chunks S, c.Fits := by
  have hgenerics : ∀ c ∈ p.generics S, c.Fits := by
    simp only [generics, List.forall_mem_cons, Hep3.Chunk.fits_iff, length_beBytes]
    simp
  have haddresses : ∀ c ∈ p.addresses S, c.Fits := by
    rw [addresses]
    split_ifs <;> simp [Hep3.Chunk.fits_iff]
  have hlast : (payload.take p.payloadSize).length ≤ p.payloadSize := List.length_take_le ..
  rw [chunks, hpayload]
  intro c hc
  rcases List.mem_append.1 hc with hc | hc
  · exact (List.mem_append.1 hc).elim (hgenerics c) (haddresses c)
  · rw [List.mem_singleton.1 hc, Hep3.Chunk.fits_iff]
    rw [Option.getD_some]
    dsimp only
    omega

/-! ## Filling the buffer -/

/-- The bytes that have been put. -/
structure Filled (b : HepBuffer) (bs : List UInt8) : Prop where
  buflen : b.buflen = bs.length
  bytes : b.data.read 0 b.buflen = bs

theorem Filled.put {b : HepBuffer} {bs : List UInt8} (h : Filled b bs) (cs : List UInt8)
    (hroom : bs.length + cs.length ≤ b.size) :
    ∃ b', b.put cs = .ok b' ∧ Filled b' (bs ++ cs) ∧ b'.size = b.size := by
  refine ⟨_, if_pos (by rw [h.buflen]; exact hroom), ⟨?_, ?_⟩, rfl⟩
  · rw [List.length_append, h.buflen]
  · have hread := h.bytes
    have hwrite := Mem.read_write_append (p := 0) (by rwa [h.buflen] at hread) cs
    dsimp only
    rwa [Nat.zero_add, ← h.buflen] at hwrite

theorem size_put {b b' : HepBuffer} {bs : List UInt8} (h : b.put bs = .ok b') :
    b'.size = b.size ∧ bs.length ≤ b.size := by
  rw [HepBuffer.put] at h
  split_ifs at h with hroom
  cases h
  exact ⟨rfl, by omega⟩

/-- The packet is laid out, if its length does not wrap. -/
theorem fill_eq {hg : HepGeneric} (hg73 : hg.bytes.length = 73) {payload : List UInt8}
    (hread : p.payloadSize ≤ payload.length) (h : 79 + p.iplen + p.payloadSize < 2 ^ 64)
    (data : Mem) :
    ∃ b, p.fill S hg payload (some data) = .ok (p.totalLen, some b) ∧ b.size = p.totalLen ∧
      b.data.read 0 p.totalLen = hg.bytes ++ p.srcIp S ++ p.dstIp S ++ p.payloadChunk.bytes ++
        payload.take p.payloadSize := by
  have hip := length_srcIp (S := S) (p := p)
  have htotal := totalLen_of_lt h
  have hsix : p.payloadChunk.bytes.length = 6 := by
    simp only [HepChunk.bytes, List.length_append, length_leBytes]
  have htake : (payload.take p.payloadSize).length = p.payloadSize := by
    rw [List.length_take]
    omega
  have hzero : Filled { data, size := p.totalLen } [] := ⟨rfl, rfl⟩
  obtain ⟨b₁, hput₁, h₁, hs₁⟩ := hzero.put hg.bytes (by dsimp only; simp; omega)
  obtain ⟨b₂, hput₂, h₂, hs₂⟩ := h₁.put (p.srcIp S) (by rw [hs₁]; dsimp only; simp; omega)
  obtain ⟨b₃, hput₃, h₃, hs₃⟩ := h₂.put (p.dstIp S)
    (by rw [hs₂, hs₁]; dsimp only; simp; omega)
  obtain ⟨b₄, hput₄, h₄, hs₄⟩ := h₃.put p.payloadChunk.bytes
    (by rw [hs₃, hs₂, hs₁]; dsimp only; simp; omega)
  obtain ⟨b₅, hput₅, h₅, hs₅⟩ := h₄.put (payload.take p.payloadSize)
    (by rw [hs₄, hs₃, hs₂, hs₁]; dsimp only; simp; omega)
  have hlen : b₅.buflen = p.totalLen := by
    rw [h₅.buflen]
    simp only [List.length_append, List.length_nil]
    omega
  refine ⟨b₅, ?_, by rw [hs₅, hs₄, hs₃, hs₂, hs₁], ?_⟩
  · rw [fill, hput₁, ok_bind, hput₂, ok_bind, hput₃, ok_bind, hput₄, ok_bind, if_pos hread, hput₅,
      ok_bind, hlen]
    rfl
  · rw [← hlen]
    exact h₅.bytes

/-- A packet whose length wraps is not laid out. -/
theorem fill_wraps {hg : HepGeneric} {payload : List UInt8}
    (hread : p.payloadSize ≤ payload.length) (h : 2 ^ 64 ≤ 79 + p.iplen + p.payloadSize)
    {data : Mem} {r : ℕ × Option HepBuffer} : p.fill S hg payload (some data) ≠ .ok r := by
  intro hfill
  obtain ⟨b₁, hput₁, hfill⟩ := bind_eq_ok.1 hfill
  obtain ⟨b₂, hput₂, hfill⟩ := bind_eq_ok.1 hfill
  obtain ⟨b₃, hput₃, hfill⟩ := bind_eq_ok.1 hfill
  obtain ⟨b₄, hput₄, hfill⟩ := bind_eq_ok.1 hfill
  rw [if_pos hread] at hfill
  obtain ⟨b₅, hput₅, -⟩ := bind_eq_ok.1 hfill
  -- The payload alone is longer than the buffer.
  have hroom := (size_put hput₅).2
  rw [(size_put hput₄).1, (size_put hput₃).1, (size_put hput₂).1, (size_put hput₁).1,
    List.length_take, Nat.min_eq_left hread] at hroom
  exact absurd (totalLen_lt h) (Nat.not_lt.2 hroom)

/-- A capture is given up, or is a packet with all its chunks, if and only if there is no
    payload or no memory for it, or it is shorter than `2 ^ 16` bytes. -/
theorem captureCreate_carries_iff (hp : p.Readable) (granted : Bool) (outBuffer : Option Mem) :
    Ends (fun _ => False) (fun r => r.1 = 0 ∨ p.Carries S r)
        (p.captureCreate S granted outBuffer) ↔
      (p.payload = none ∨ p.payloadSize = 0 ∨ granted = false ∨ outBuffer.isSome = false) ∨
        79 + p.iplen + p.payloadSize < 2 ^ 16 := by
  rw [captureCreate]
  -- Nothing to send, no memory, and no place for the result: the call returns 0.
  cases hpayload : p.payload with
  | none => exact iff_of_true (.inl rfl) (.inl (.inl rfl))
  | some payload =>
    have hread : p.payloadSize ≤ payload.length := by
      have hle := hp.resolve_right (by rw [hpayload]; simp)
      rwa [hpayload, Option.getD_some] at hle
    by_cases hgive : p.payloadSize = 0 ∨ granted = false
    · dsimp only
      rw [if_pos hgive]
      refine iff_of_true (.inl rfl) (.inl (.inr ?_))
      exact hgive.imp_right .inl
    dsimp only
    rw [if_neg hgive]
    obtain ⟨hne, hgranted⟩ := not_or.1 hgive
    cases outBuffer with
    | none => exact iff_of_true (.inl rfl) (.inl (.inr (.inr (.inr rfl))))
    | some data =>
      have hright : (some payload = none ∨ p.payloadSize = 0 ∨ granted = false ∨
          (some data).isSome = false) ∨ 79 + p.iplen + p.payloadSize < 2 ^ 16 ↔
          79 + p.iplen + p.payloadSize < 2 ^ 16 := by
        simp [hne, hgranted]
      rw [hright]
      -- Below 2^64 the length is what `htons` leaves of it, from there on the sum has wrapped.
      rcases Nat.lt_or_ge (79 + p.iplen + p.payloadSize) (2 ^ 64) with hlt | hwraps
      · obtain ⟨b, hfill, hsize, hbytes⟩ := fill_eq (S := S) (length_generic _) hread hlt data
        rw [hfill, ends_ok]
        have htotal := totalLen_of_lt hlt
        constructor
        · rintro (hzero | ⟨b', hb', -, hparse⟩)
          · dsimp only at hzero
            omega
          · have hshort := Hep3.length_of_parse hparse
            rw [Mem.length_read] at hshort
            dsimp only at hshort
            omega
        · intro hshort
          refine .inr ⟨b, rfl, hsize, ?_⟩
          have hlayout := layout_eq (S := S) hpayload hread hshort
          dsimp only
          rw [hbytes, hlayout, Hep3.parse_packet (chunks_fit hpayload hshort)]
          rw [← hlayout, ← hbytes, Mem.length_read]
          omega
      · refine iff_of_false (fun hends => ?_) (by omega)
        cases hfill : p.fill S { p.generic S with length := htons (toUInt16 p.totalLen) } payload
            (some data) with
        | ok r => exact fill_wraps hread hwraps hfill
        | error x =>
          rw [hfill] at hends
          exact hends

/-- A system in which every IPv4 address is the loopback, and no IPv6 address is understood. -/
def loopback : HepSystem where
  timeNow := 1500000000123456
  inetAddr _ := #v[127, 0, 0, 1]
  inetPton6 _ := none

/-- A message of `n` bytes on the loopback. -/
def localMessage (n : ℕ) : HepCaptureParams where
  ipFamily := afInet
  localIp := ascii "127.0.0.1"
  remoteIp := ascii "127.0.0.1"
  localPort := 5060
  remotePort := 5080
  direction := .recv
  captureId := 200
  protocolTypeId := 1
  payload := some (List.replicate n 97)
  payloadSize := n

theorem captureCreate_carries_four : Ends (fun _ => False)
    (fun r => r.1 = 0 ∨ (localMessage 4).Carries loopback r)
    ((localMessage 4).captureCreate loopback true (some fun _ => 0)) :=
  (captureCreate_carries_iff (.inl (by decide)) true _).2 (.inr (by decide))

/-- A payload of 65437 bytes makes a packet of `2 ^ 16` bytes, whose header says zero. -/
theorem not_captureCreate_carries : ¬Ends (fun _ => False)
    (fun r => r.1 = 0 ∨ (localMessage 65437).Carries loopback r)
    ((localMessage 65437).captureCreate loopback true (some fun _ => 0)) := by
  have hiplen : (localMessage 65437).iplen = 20 := rfl
  have hread : (localMessage 65437).payloadSize ≤ (List.replicate 65437 (97 : UInt8)).length := by
    rw [List.length_replicate]
    exact Nat.le_refl _
  have hlt : 79 + (localMessage 65437).iplen + (localMessage 65437).payloadSize < 2 ^ 64 := by
    rw [hiplen]
    decide
  have htotal : (localMessage 65437).totalLen = 65536 := totalLen_of_lt hlt
  obtain ⟨b, hfill, hsize, -⟩ := fill_eq (S := loopback) (length_generic _) hread hlt fun _ => 0
  rw [captureCreate, show (localMessage 65437).payload = some (List.replicate 65437 97) from rfl]
  dsimp only
  rw [if_neg (by decide), hfill, ends_ok, htotal]
  rintro (hzero | ⟨b', -, -, hparse⟩)
  · exact absurd hzero (Nat.succ_ne_zero 65535)
  · have hshort := Hep3.length_of_parse hparse
    rw [Mem.length_read] at hshort
    exact absurd hshort (Nat.lt_irrefl 65536)

end HepCaptureParams

end Libks
