import Libks.Base.Rfc6455
import Libks.Kws.ReadFrame

/-!
# Writing a frame

`writeFrame` embeds `kws_write_frame`: it lays the frame out in the write buffer
of the connection (`buildFrame`), which it enlarges where it is too small, and
hands it to the transport.

* `buildFrame_eq`: whatever the write buffer was, every byte lands inside it,
  and what is handed over is the encoding of the frame under RFC 6455, its
  length in the shortest form;
* `written_decodes`: so the reference decoder gives the frame back.
-/

namespace Libks

open Base

namespace Kws

/-- Stores `bs` in the write buffer, in its bounds. -/
def storeWrite (k : Kws) (off : ℕ) (bs : List UInt8) : Except Fault Kws :=
  if off + bs.length ≤ k.writeBufferLen then
    .ok { k with writeBuffer := k.writeBuffer.write off bs }
  else .error .outOfBounds

/-- The first bytes of `hdr`, without the mask bit. -/
def frameHeader (oc : Opcode) (bytes : ℕ) : List UInt8 :=
  let hdr0 := UInt8.ofNat oc.val ||| 0x80
  if bytes < 126 then [hdr0, UInt8.ofNat bytes]
  else if bytes < 0x10000 then hdr0 :: 126 :: leBytes 2 (htons (bytes % 2 ^ 16))
  else hdr0 :: 127 :: leBytes 8 (hton64 bytes)

/-- The room `kws_write_frame` makes in the write buffer. -/
def growWrite (k : Kws) (room : ℕ) : Kws :=
  if k.writeBufferLen < room then { k with writeBufferLen := room } else k

/-- The frame `kws_write_frame` lays out in the write buffer. -/
def buildFrame (k : Kws) (oc : Opcode) (data : List UInt8) : Except Fault (List UInt8 × Kws) := do
  let bytes := data.length
  let mask : Bool := ¬k.flags.dontMask
  let hdr := frameHeader oc bytes
  let hlen := hdr.length
  -- The room is computed in `size_t`.
  let k := k.growWrite ((hlen + bytes + 1 + if mask then 4 else 0) % 2 ^ 64)
  let k ← k.storeWrite 0 hdr
  if mask then
    let (maskingKey, k) := k.genNonce 4
    let k ← k.storeWrite 1 [k.writeBuffer 1 ||| 0x80]
    let k ← k.storeWrite hlen maskingKey
    let k ← k.storeWrite (hlen + 4) (maskBytes (fun i => maskingKey.getD i 0) data)
    return (k.writeBuffer.read 0 (hlen + 4 + bytes), k)
  else
    let k ← k.storeWrite hlen data
    return (k.writeBuffer.read 0 (hlen + bytes), k)

/-- `kws_write_frame`. -/
def writeFrame (k : Kws) (oc : Opcode) (data : List UInt8) : Except Fault (ℤ × Kws) :=
  if k.down ≠ 0 then .ok (-1, k)
  else do
    let (frame, k) ← k.buildFrame oc data
    let (rawRet, k) := k.rawWrite frame
    if rawRet ≤ 0 ∨ rawRet ≠ frame.length then return (rawRet, k) else return (data.length, k)

/-! ## What is written -/

/-- The key the next frame is masked with. -/
def nextKey (k : Kws) : Rfc6455.Key := fun i => (k.genNonce 4).1.getD i.val 0

/-- The frame `kws_write_frame` sends. -/
def frameFor (k : Kws) (oc : Opcode) (data : List UInt8) : Rfc6455.Frame where
  fin := true
  opcode := oc
  key := if k.flags.dontMask then none else some k.nextKey
  payload := data

variable {k k' : Kws} {oc : Opcode} {data bs : List UInt8} {off : ℕ}

theorem length_genNonce (k : Kws) (n : ℕ) : (k.genNonce n).1.length = n := by
  simp only [genNonce, List.length_append, List.length_take, List.length_replicate]
  omega

theorem nextKey_bytes (k : Kws) : k.nextKey.bytes = (k.genNonce 4).1 := by
  have hl := length_genNonce k 4
  refine List.ext_getElem (by rw [hl, Rfc6455.Key.length_bytes]) fun i h₁ h₂ => ?_
  simp only [Rfc6455.Key.bytes, nextKey, List.getElem_ofFn]
  rw [List.getD_eq_getElem?_getD, List.getElem?_eq_getElem h₂, Option.getD_some]

theorem hdr0_eq (oc : Opcode) : UInt8.ofNat oc.val ||| 0x80 = UInt8.ofNat (128 + oc.val) := by
  revert oc
  decide

theorem or_maskBit {n : ℕ} (h : n < 128) : UInt8.ofNat n ||| 0x80 = UInt8.ofNat (128 + n) := by
  have : ∀ n : Fin 128, UInt8.ofNat n.val ||| 0x80 = UInt8.ofNat (128 + n.val) := by decide
  exact this ⟨n, h⟩

theorem leBytes_mod (k n : ℕ) : leBytes k (n % 256 ^ k) = leBytes k n := by
  have h := leBytes_ofLe (leBytes k n)
  rwa [length_leBytes, ofLe_leBytes] at h

/-- The header is the one of the RFC, its length in the shortest form. -/
theorem frameHeader_eq (oc : Opcode) (n : ℕ) :
    frameHeader oc n = UInt8.ofNat (128 + oc.val) ::
      UInt8.ofNat ((Rfc6455.LengthForm.shortest n).low n) ::
      (Rfc6455.LengthForm.shortest n).extended n := by
  rw [frameHeader, hdr0_eq]
  by_cases h₁ : n < 126
  · simp only [Rfc6455.LengthForm.shortest, if_pos h₁]
    rfl
  by_cases h₂ : n < 2 ^ 16
  · have h₂' : n < 0x10000 := h₂
    simp only [Rfc6455.LengthForm.shortest, if_neg h₁, if_pos h₂, if_pos h₂']
    rw [htons, leBytes_bswap, show (2 : ℕ) ^ 16 = 256 ^ 2 by decide, leBytes_mod]
    rfl
  · have h₂' : ¬n < 0x10000 := h₂
    simp only [Rfc6455.LengthForm.shortest, if_neg h₁, if_neg h₂, if_neg h₂']
    rw [hton64, leBytes_bswap]
    rfl

theorem length_frameHeader_le (oc : Opcode) (n : ℕ) : (frameHeader oc n).length ≤ 10 := by
  rw [frameHeader]
  split_ifs <;> simp

/-- A store in the write buffer that fits into it. -/
theorem storeWrite_of_le (h : off + bs.length ≤ k.writeBufferLen) :
    k.storeWrite off bs = .ok { k with writeBuffer := k.writeBuffer.write off bs } :=
  if_pos h

theorem growWrite_eq (k : Kws) (room : ℕ) :
    ∃ len, room ≤ len ∧ k.growWrite room = { k with writeBufferLen := len } := by
  rw [growWrite]
  split_ifs with h
  · exact ⟨room, Nat.le_refl _, rfl⟩
  · exact ⟨k.writeBufferLen, Nat.not_lt.1 h, rfl⟩

/-- The frame in the write buffer, for a header `h₀ :: h₁ :: ext`. -/
theorem read_unmasked (m : Mem) (hdr data : List UInt8) :
    ((m.write 0 hdr).write hdr.length data).read 0 (hdr.length + data.length) = hdr ++ data := by
  have := Mem.write_write m 0 hdr data
  rw [Nat.zero_add] at this
  rw [this, ← List.length_append, Mem.read_write_self]

/-- The same, once the mask bit is set and the key stored. -/
theorem read_masked (m : Mem) (h₀ h₁ : UInt8) (ext key data : List UInt8) :
    ((((m.write 0 (h₀ :: h₁ :: ext)).write 1 [h₁ ||| 0x80]).write (ext.length + 2) key).write
        (ext.length + 2 + key.length) data).read 0 (ext.length + 2 + key.length + data.length) =
      h₀ :: (h₁ ||| 0x80) :: ext ++ key ++ data := by
  have h := Mem.write_write_inside m 0 [h₀] ext h₁ (h₁ ||| 0x80)
  simp only [List.cons_append, List.nil_append, List.length_cons, List.length_nil] at h
  have hk := Mem.write_write m 0 (h₀ :: (h₁ ||| 0x80) :: ext) key
  have hd := read_unmasked m (h₀ :: (h₁ ||| 0x80) :: ext ++ key) data
  simp only [List.length_cons, List.length_append, Nat.zero_add] at h hk hd
  rw [h, hk]
  exact hd

/-- The connection with another write buffer, and another random number
    generator: all that laying out a frame changes. -/
def withWrite (k : Kws) (writeBuffer : Mem) (writeBufferLen : ℕ) (random : List UInt8) : Kws :=
  { k with writeBuffer, writeBufferLen, world := { k.world with random } }

/-- Whatever the write buffer was, the frame fits into it, and is the encoding
    of the RFC. -/
theorem buildFrame_eq (k : Kws) (oc : Opcode) (hn : data.length < 2 ^ 63) :
    ∃ m len random,
      k.buildFrame oc data = .ok ((k.frameFor oc data).encode, k.withWrite m len random) := by
  have hdr := frameHeader_eq oc data.length
  have hlen := length_frameHeader_le oc data.length
  cases hm : k.flags.dontMask with
  -- Without a mask: the header and the data.
  | true =>
    obtain ⟨len, hroom, hgrow⟩ := k.growWrite_eq
      (((frameHeader oc data.length).length + data.length + 1 + 0) % 2 ^ 64)
    rw [Nat.mod_eq_of_lt (by omega)] at hroom
    have henc : (k.frameFor oc data).encode = frameHeader oc data.length ++ data := by
      rw [hdr]
      simp [frameFor, hm, Rfc6455.Frame.encode, Rfc6455.Frame.encodeAs, Rfc6455.Frame.header,
        Rfc6455.Frame.byte0, Rfc6455.Frame.byte1, Rfc6455.Frame.keyBytes, Rfc6455.Frame.body]
    refine ⟨(k.writeBuffer.write 0 (frameHeader oc data.length)).write
      (frameHeader oc data.length).length data, len, k.world.random, ?_⟩
    simp only [buildFrame, hm, not_true_eq_false, decide_false, Bool.false_eq_true, if_false, hgrow]
    rw [storeWrite_of_le (by dsimp only; omega)]
    simp only [bind, Except.bind, pure, Except.pure]
    rw [storeWrite_of_le (by dsimp only; omega)]
    simp only [read_unmasked, henc, withWrite]
  -- With a mask: the bit is set in the second byte, and the key comes behind the length.
  | false =>
    obtain ⟨len, hroom, hgrow⟩ := k.growWrite_eq
      (((frameHeader oc data.length).length + data.length + 1 + 4) % 2 ^ 64)
    rw [Nat.mod_eq_of_lt (by omega)] at hroom
    have hkey := nextKey_bytes k
    have h4 := length_genNonce k 4
    have hmask : maskBytes (fun i => (k.genNonce 4).1.getD i 0) data = k.nextKey.mask data :=
      maskBytes_eq (fun _ => rfl) data
    have hlow := Rfc6455.LengthForm.low_lt (Rfc6455.LengthForm.fits_shortest hn)
    set h₀ := UInt8.ofNat (128 + oc.val)
    set h₁ := UInt8.ofNat ((Rfc6455.LengthForm.shortest data.length).low data.length) with hh₁
    set ext := (Rfc6455.LengthForm.shortest data.length).extended data.length
    have henc : (k.frameFor oc data).encode =
        h₀ :: (h₁ ||| 0x80) :: ext ++ k.nextKey.bytes ++ k.nextKey.mask data := by
      rw [hh₁, or_maskBit hlow]
      simp only [frameFor, hm, Rfc6455.Frame.encode, Rfc6455.Frame.encodeAs, Rfc6455.Frame.header,
        Rfc6455.Frame.byte0, Rfc6455.Frame.byte1, Rfc6455.Frame.keyBytes, Rfc6455.Frame.body,
        if_true, Option.isSome_some, Option.map_some, Option.getD_some, Bool.false_eq_true, if_false]
      rfl
    have hlm : (k.nextKey.mask data).length = data.length := k.nextKey.length_mask data
    have hread := read_masked k.writeBuffer h₀ h₁ ext k.nextKey.bytes (k.nextKey.mask data)
    rw [hkey, h4, hlm] at hread
    rw [hdr, List.length_cons, List.length_cons] at hlen hroom hgrow
    have h1 : (k.writeBuffer.write 0 (h₀ :: h₁ :: ext)) 1 = h₁ := by
      rw [Mem.write_apply_of_mem (by omega) (by simp)]
      rfl
    refine ⟨(((k.writeBuffer.write 0 (h₀ :: h₁ :: ext)).write 1 [h₁ ||| 0x80]).write
      (ext.length + 2) (k.genNonce 4).1).write (ext.length + 2 + 4) (k.nextKey.mask data),
      len, k.world.random.drop 4, ?_⟩
    have hgen : ∀ m, genNonce { k with writeBufferLen := len, writeBuffer := m } 4 =
        ((k.genNonce 4).1, k.withWrite m len (k.world.random.drop 4)) := fun _ => rfl
    simp only [buildFrame, hm, hdr, hgrow, List.length_cons, Bool.false_eq_true,
      not_false_eq_true, decide_true, if_true]
    rw [storeWrite_of_le (by simp only [List.length_cons]; omega)]
    simp only [bind, Except.bind, pure, Except.pure, hgen]
    rw [storeWrite_of_le (by simp only [withWrite, List.length_cons, List.length_nil]; omega)]
    simp only [withWrite, h1]
    rw [storeWrite_of_le (by simp only [h4]; omega)]
    simp only [hmask]
    rw [storeWrite_of_le (by simp only [hlm]; omega)]
    simp only [henc, hkey, ← hread]

/-- A call that is not refused hands the frame to `kws_raw_write`, and to nothing else. -/
theorem writeFrame_eq {frame : List UInt8} {k₁ : Kws} (hdown : k.down = 0)
    (hbuild : k.buildFrame oc data = .ok (frame, k₁)) :
    ∃ ret, k.writeFrame oc data = .ok (ret, (k₁.rawWrite frame).2) := by
  rw [writeFrame, if_neg (not_not_intro hdown), hbuild]
  simp only [bind, Except.bind]
  split_ifs
  · exact ⟨_, rfl⟩
  · exact ⟨_, rfl⟩

/-- What a call hands over is, to the last byte, a frame for the reference
    decoder: a final one with the opcode and the payload, masked with the next key
    if frames are to be masked, and its length in the shortest form. -/
theorem written_decodes (k : Kws) (oc : Opcode) (data : List UInt8) (hn : data.length < 2 ^ 63) :
    ∃ frame k₁, k.buildFrame oc data = .ok (frame, k₁) ∧
      (k.down = 0 → ∃ ret, k.writeFrame oc data = .ok (ret, (k₁.rawWrite frame).2)) ∧
      Rfc6455.decode frame = some
        (⟨true, oc, if k.flags.dontMask then none else some k.nextKey, data⟩,
          .shortest data.length, []) := by
  obtain ⟨m, len, random, hbuild⟩ := buildFrame_eq k oc hn
  have hdecode := Rfc6455.decode_encodeAs (k.frameFor oc data) (Rfc6455.LengthForm.fits_shortest hn) []
  rw [List.append_nil] at hdecode
  exact ⟨_, _, hbuild, fun hdown => writeFrame_eq hdown hbuild, hdecode⟩

/-- A masked frame with the 16-bit form of the length, in a write buffer that was
    too small for it. -/
theorem written_decodes_126 :
    ∃ frame k₁, { world := { random := [1, 2, 3, 4] }, writeBufferLen := 5 : Kws }.buildFrame
        Opcode.binary (List.replicate 126 7) = .ok (frame, k₁) ∧
      Rfc6455.decode frame = some (⟨true, Opcode.binary, some ![1, 2, 3, 4], List.replicate 126 7⟩,
        .bits16, []) := by
  obtain ⟨frame, k₁, hbuild, -, hdecode⟩ := written_decodes
    { world := { random := [1, 2, 3, 4] }, writeBufferLen := 5 } Opcode.binary
    (List.replicate 126 7) (by rw [List.length_replicate]; decide)
  refine ⟨frame, k₁, hbuild, hdecode.trans ?_⟩
  have hkey : nextKey { world := { random := [1, 2, 3, 4] }, writeBufferLen := 5 } = ![1, 2, 3, 4] := by
    funext i
    match i with
    | 0 | 1 | 2 | 3 => rfl
  rw [hkey, List.length_replicate]
  rfl

end Kws

end Libks
