import Libks.Base.Word
import Mathlib.Data.Fin.VecNotation

/-!
# The framing of RFC 6455

The wire format of WebSocket frames, as the RFC gives it: a frame
(`Frame`), its bytes under any of the three forms of the length field
(`Frame.encodeAs`) and under the shortest one (`Frame.encode`), and the
reference decoder (`decode`), which undoes them (`decode_encodeAs`).
-/

namespace Base.Rfc6455

/-- A masking key. -/
abbrev Key := Fin 4 → UInt8

/-- The bytes of a key on the wire. -/
def Key.bytes (key : Key) : List UInt8 := List.ofFn key

/-- Masks `bs`, or takes the mask off: byte `i` is xored with key byte `i % 4`. -/
def Key.mask (key : Key) (bs : List UInt8) : List UInt8 :=
  bs.mapIdx fun i b => b ^^^ key ⟨i % 4, Nat.mod_lt _ (by decide)⟩

/-- The opcode fills the low half of its byte. -/
theorem opcode_lt (b : UInt8) : b.toNat % 16 < 16 := Nat.mod_lt _ (Nat.succ_pos 15)

/-- A frame without extensions. -/
structure Frame where
  fin : Bool
  opcode : Fin 16
  key : Option Key
  payload : List UInt8

/-- The three forms of the length field. -/
inductive LengthForm
  | bits7
  | bits16
  | bits64
  deriving DecidableEq, Repr

namespace LengthForm

/-- Whether a form can hold a length. -/
def Fits (n : ℕ) : LengthForm → Prop
  | bits7 => n < 126
  | bits16 => n < 2 ^ 16
  | bits64 => n < 2 ^ 63

/-- The shortest form of a length. -/
def shortest (n : ℕ) : LengthForm :=
  if n < 126 then bits7 else if n < 2 ^ 16 then bits16 else bits64

/-- The seven bits of the second byte. -/
def low (n : ℕ) : LengthForm → ℕ
  | bits7 => n
  | bits16 => 126
  | bits64 => 127

/-- How many bytes the extended length has. -/
def size : LengthForm → ℕ
  | bits7 => 0
  | bits16 => 2
  | bits64 => 8

/-- The extended length, in network byte order. -/
def extended (n : ℕ) (f : LengthForm) : List UInt8 := (leBytes f.size n).reverse

/-- The extended length takes as many bytes as its form says. -/
@[simp] theorem length_extended (n : ℕ) (f : LengthForm) : (f.extended n).length = f.size := by
  rw [extended, List.length_reverse, length_leBytes]

/-- The shortest form has room for the length. -/
theorem fits_shortest {n : ℕ} (h : n < 2 ^ 63) : (shortest n).Fits n := by
  rw [shortest]
  split_ifs with h₁ h₂
  exacts [h₁, h₂, h]

/-- The length in the second byte has seven bits. -/
theorem low_lt {n : ℕ} {f : LengthForm} (h : f.Fits n) : f.low n < 128 := by
  cases f with
  | bits7 => exact Nat.lt_trans h (by decide)
  | bits16 => exact (by decide : (126 : ℕ) < 128)
  | bits64 => exact (by decide : (127 : ℕ) < 128)

end LengthForm

namespace Frame

/-- The length of the header. -/
def headerLength (f : Frame) (form : LengthForm) : ℕ :=
  2 + form.size + if f.key.isSome then 4 else 0

/-- The first byte: FIN and the opcode. -/
def byte0 (f : Frame) : UInt8 := UInt8.ofNat ((if f.fin then 128 else 0) + f.opcode.val)

/-- The second byte: the mask bit and the seven bits of the length. -/
def byte1 (f : Frame) (form : LengthForm) : UInt8 :=
  UInt8.ofNat ((if f.key.isSome then 128 else 0) + form.low f.payload.length)

/-- The key on the wire, if there is one. -/
def keyBytes (f : Frame) : List UInt8 := (f.key.map Key.bytes).getD []

/-- The payload on the wire. -/
def body (f : Frame) : List UInt8 :=
  match f.key with
  | some key => key.mask f.payload
  | none => f.payload

/-- The bytes in front of the payload. -/
def header (f : Frame) (form : LengthForm) : List UInt8 :=
  [f.byte0, f.byte1 form] ++ form.extended f.payload.length ++ f.keyBytes

/-- The bytes of a frame whose length has the given form. -/
def encodeAs (f : Frame) (form : LengthForm) : List UInt8 := f.header form ++ f.body

/-- The bytes of a frame, its length in the shortest form. -/
def encode (f : Frame) : List UInt8 := f.encodeAs (.shortest f.payload.length)

end Frame

/-! ## The reference decoder -/

/-- Splits off the first `n` bytes. -/
def split (n : ℕ) (bs : List UInt8) : Option (List UInt8 × List UInt8) :=
  if n ≤ bs.length then some (bs.take n, bs.drop n) else none

/-- The length field with the seven bits `low`: its form, the length, and the
    bytes behind it. -/
def decodeLength (low : ℕ) (bs : List UInt8) : Option (LengthForm × ℕ × List UInt8) :=
  if low < 126 then some (.bits7, low, bs)
  else if low = 126 then
    (split 2 bs).map fun (l, bs) => (.bits16, ofLe l.reverse, bs)
  else do
    let (l, bs) ← split 8 bs
    -- The most significant bit must be 0.
    if ofLe l.reverse < 2 ^ 63 then some (.bits64, ofLe l.reverse, bs) else none

/-- The key, if the mask bit is set, and the bytes behind it. -/
def decodeKey (masked : Bool) (bs : List UInt8) : Option (Option Key × List UInt8) :=
  if masked then
    match bs with
    | k₀ :: k₁ :: k₂ :: k₃ :: bs => some (some ![k₀, k₁, k₂, k₃], bs)
    | _ => none
  else some (none, bs)

/-- The first frame of `bs`, the form of its length, and the bytes behind it. -/
def decode (bs : List UInt8) : Option (Frame × LengthForm × List UInt8) :=
  match bs with
  | b₀ :: b₁ :: bs => do
    -- The reserved bits must be 0.
    if b₀.toNat / 16 % 8 ≠ 0 then none
    else
      let (form, n, bs) ← decodeLength (b₁.toNat % 128) bs
      let (key, bs) ← decodeKey (128 ≤ b₁.toNat) bs
      let (body, bs) ← split n bs
      let payload := match key with
        | some key => key.mask body
        | none => body
      some (⟨128 ≤ b₀.toNat, ⟨b₀.toNat % 16, opcode_lt b₀⟩, key, payload⟩, form, bs)
  | _ => none

/-! ## Round trip -/

@[simp] theorem Key.length_bytes (key : Key) : key.bytes.length = 4 := by simp [bytes]

theorem Key.bytes_eq (key : Key) : key.bytes = [key 0, key 1, key 2, key 3] := rfl

/-- Masking changes no length. -/
@[simp] theorem Key.length_mask (key : Key) (bs : List UInt8) :
    (key.mask bs).length = bs.length := by
  rw [mask, List.length_mapIdx]

/-- Masking twice gives the bytes back. -/
theorem Key.mask_mask (key : Key) (bs : List UInt8) : key.mask (key.mask bs) = bs := by
  refine List.ext_getElem (by simp) fun i h₁ h₂ => ?_
  simp only [mask, List.getElem_mapIdx, UInt8.xor_assoc, UInt8.xor_self, UInt8.xor_zero]

namespace Frame

variable (f : Frame) {form : LengthForm}

@[simp] theorem length_body : f.body.length = f.payload.length := by
  rw [body]
  cases f.key with
  | some key => exact key.length_mask _
  | none => rfl

@[simp] theorem length_keyBytes : f.keyBytes.length = if f.key.isSome then 4 else 0 := by
  rw [keyBytes]
  cases f.key with
  | some key => exact key.length_bytes
  | none => rfl

/-- The header is as long as `headerLength` says. -/
@[simp] theorem length_header (form : LengthForm) :
    (f.header form).length = f.headerLength form := by
  simp only [header, headerLength, List.length_append, LengthForm.length_extended,
    length_keyBytes, List.length_cons, List.length_nil]

/-- A frame is its header and its payload. -/
theorem length_encodeAs (form : LengthForm) :
    (f.encodeAs form).length = f.headerLength form + f.payload.length := by
  rw [encodeAs, List.length_append, length_header, length_body]

/-- The first byte: the bit of the last fragment, and the opcode. -/
theorem toNat_byte0 : f.byte0.toNat = (if f.fin then 128 else 0) + f.opcode.val := by
  have := f.opcode.isLt
  rw [byte0, UInt8.toNat_ofNat']
  split_ifs <;> omega

/-- The second byte: the bit of the mask, and the length in seven bits. -/
theorem toNat_byte1 (h : form.Fits f.payload.length) :
    (f.byte1 form).toNat = (if f.key.isSome then 128 else 0) + form.low f.payload.length := by
  have := LengthForm.low_lt h
  rw [byte1, UInt8.toNat_ofNat']
  split_ifs <;> omega

/-- The high bit of the first byte is that of the last fragment. -/
theorem byte0_div : 128 ≤ f.byte0.toNat ↔ f.fin = true := by
  have := f.opcode.isLt
  rw [toNat_byte0]
  cases f.fin with
  | true => simp
  | false => simpa using by omega

/-- Its low bits are the opcode. -/
theorem byte0_mod : f.byte0.toNat % 16 = f.opcode.val := by
  rw [toNat_byte0]
  split_ifs <;> omega

/-- The high bit of the second byte is that of the mask. -/
theorem byte1_div (h : form.Fits f.payload.length) :
    128 ≤ (f.byte1 form).toNat ↔ f.key.isSome = true := by
  have := LengthForm.low_lt h
  rw [toNat_byte1 f h]
  cases f.key.isSome with
  | true => simp
  | false => simpa using this

/-- Its low bits are the length. -/
theorem byte1_mod (h : form.Fits f.payload.length) :
    (f.byte1 form).toNat % 128 = form.low f.payload.length := by
  have := LengthForm.low_lt h
  rw [toNat_byte1 f h]
  split_ifs <;> omega

end Frame

/-- Two parts are split where the first one ends. -/
theorem split_append (as bs : List UInt8) : split as.length (as ++ bs) = some (as, bs) := by
  simp [split]

theorem split_of_le {n : ℕ} {bs : List UInt8} (h : n ≤ bs.length) :
    split n bs = some (bs.take n, bs.drop n) := if_pos h

/-- The key is the next four bytes. -/
theorem decodeKey_of_le {key : Key} {bs : List UInt8} (h : 4 ≤ bs.length)
    (hkey : ∀ i : Fin 4, bs[i.val]? = some (key i)) :
    decodeKey true bs = some (some key, bs.drop 4) := by
  match bs, h with
  | k₀ :: k₁ :: k₂ :: k₃ :: bs, _ =>
    have heq : key = ![k₀, k₁, k₂, k₃] := by
      funext i
      match i with
      | 0 => exact (Option.some.inj (hkey 0)).symm
      | 1 => exact (Option.some.inj (hkey 1)).symm
      | 2 => exact (Option.some.inj (hkey 2)).symm
      | 3 => exact (Option.some.inj (hkey 3)).symm
    rw [heq]
    rfl

/-- A payload with its mask, or without one. -/
def maskWith (key : Option Key) (bs : List UInt8) : List UInt8 :=
  match key with
  | some key => key.mask bs
  | none => bs

@[simp] theorem length_maskWith (key : Option Key) (bs : List UInt8) :
    (maskWith key bs).length = bs.length := by
  cases key with
  | some key => exact key.length_mask bs
  | none => rfl

/-- The decoder, part by part. -/
theorem decode_of_parts {b₀ b₁ : UInt8} {bs bs₁ bs₂ : List UInt8} {form : LengthForm} {n : ℕ}
    {key : Option Key} (hr : b₀.toNat / 16 % 8 = 0)
    (hlen : decodeLength (b₁.toNat % 128) bs = some (form, n, bs₁))
    (hkey : decodeKey (128 ≤ b₁.toNat) bs₁ = some (key, bs₂)) (hn : n ≤ bs₂.length) :
    decode (b₀ :: b₁ :: bs) = some (⟨128 ≤ b₀.toNat, ⟨b₀.toNat % 16, opcode_lt b₀⟩, key,
      maskWith key (bs₂.take n)⟩, form, bs₂.drop n) := by
  simp only [decode, hr, hlen, hkey, split_of_le hn, Option.bind_eq_bind, Option.bind_some, ne_eq,
    not_true_eq_false, if_false]
  rfl

/-- The length is read back in the form in which it was written. -/
theorem decodeLength_extended {n : ℕ} {form : LengthForm} (h : form.Fits n) (bs : List UInt8) :
    decodeLength (form.low n) (form.extended n ++ bs) = some (form, n, bs) := by
  have hs := split_append (form.extended n) bs
  rw [LengthForm.length_extended] at hs
  have hl : ofLe (form.extended n).reverse = n % 256 ^ form.size := by
    rw [LengthForm.extended, List.reverse_reverse, ofLe_leBytes]
  cases form with
  | bits7 =>
    rw [decodeLength, LengthForm.low, if_pos (show n < 126 from h)]
    rfl
  | bits16 =>
    rw [decodeLength, LengthForm.low, if_neg (by decide), if_pos rfl]
    simp only [LengthForm.size] at hs hl
    rw [hs, Option.map_some]
    simp only [hl, Nat.mod_eq_of_lt (show n < 256 ^ 2 from h)]
  | bits64 =>
    rw [decodeLength, LengthForm.low, if_neg (by decide), if_neg (by decide)]
    simp only [LengthForm.size] at hs hl
    have hn : n % 256 ^ 8 = n := Nat.mod_eq_of_lt (Nat.lt_trans h (by decide))
    rw [hs]
    simp only [Option.bind_eq_bind, Option.bind_some, hl, hn]
    exact if_pos h

/-- The key is read back, if there is one. -/
theorem decodeKey_keyBytes (f : Frame) (bs : List UInt8) :
    decodeKey f.key.isSome (f.keyBytes ++ bs) = some (f.key, bs) := by
  rw [Frame.keyBytes]
  cases f.key with
  | none => rfl
  | some key =>
    rw [Option.map_some, Option.getD_some, Key.bytes_eq]
    simp only [decodeKey, Option.isSome_some, if_true, List.cons_append, List.nil_append,
      Option.some_inj, Prod.mk.injEq, and_true]
    funext i
    match i with
    | 0 | 1 | 2 | 3 => rfl

/-- The reference decoder undoes the encoding, whatever form the length has. -/
theorem decode_encodeAs (f : Frame) {form : LengthForm} (h : form.Fits f.payload.length)
    (rest : List UInt8) : decode (f.encodeAs form ++ rest) = some (f, form, rest) := by
  have hr : f.byte0.toNat / 16 % 8 = 0 := by
    have := f.opcode.isLt
    rw [f.toNat_byte0]
    split_ifs <;> omega
  have hbody := split_append f.body rest
  rw [f.length_body] at hbody
  have hmask : (match f.key with
      | some key => key.mask f.body
      | none => f.body) = f.payload := by
    rw [Frame.body]
    cases f.key with
    | some key => exact key.mask_mask _
    | none => rfl
  have hkey : decide (128 ≤ (f.byte1 form).toNat) = f.key.isSome := by
    simp only [f.byte1_div h, Bool.decide_eq_true]
  have hfin : decide (128 ≤ f.byte0.toNat) = f.fin := by
    simp only [f.byte0_div, Bool.decide_eq_true]
  simp only [Frame.encodeAs, Frame.header, List.cons_append, List.nil_append, List.append_assoc]
  simp only [decode, hr, f.byte1_mod h, decodeLength_extended h, hkey, decodeKey_keyBytes, hbody,
    hmask, hfin, f.byte0_mod, Option.bind_eq_bind, Option.bind_some, ne_eq, not_true_eq_false,
    if_false]

end Base.Rfc6455
