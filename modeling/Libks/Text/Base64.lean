import Libks.Base.Base64
import Libks.Status
import Libks.Text.Url

/-!
# Base 64

`ks_b64_encode` and `ks_b64_decode` shift what they read into an accumulator
and write a byte whenever there are bits enough. Behind every byte they test
whether the buffer is used up, and stop if it is (`B64Out.put`), so that what
they write is the start of what there is to write (`putAll_eq`).
-/

namespace Libks

open Base

/-- `ks_b64_table`. -/
def ksB64Table : List UInt8 :=
  ascii "ABCDEFGHIJKLMNOPQRSTUVWXYZabcdefghijklmnopqrstuvwxyz0123456789+/"

/-! ## Writing up to a limit -/

/-- The buffer that the bytes are written into, how many of it are, and whether
    the loop has been left there. -/
structure B64Out where
  out : Mem
  bytes : ℕ
  full : Bool

/-- `out[bytes++] = c`, in a buffer of `olen` bytes, and the test for `limit`
    bytes behind it. -/
def B64Out.put (olen : ℕ) (limit : ℤ) (o : B64Out) (c : UInt8) : Except Fault B64Out := do
  let out ← putAt olen o.out o.bytes c
  return ⟨out, o.bytes + 1, limit ≤ o.bytes + 1⟩

/-! ## Encoding -/

section Encode

variable (olen : ℕ) (limit : ℤ)

/-- The inner loop of `ks_b64_encode`, which takes the groups of six off the `l`
    bits that are left in `b`. -/
def b64EncodeDrain (b : ℕ) : ℕ → B64Out → ℕ → Except Fault (B64Out × ℕ)
  | 0, _, _ => .error .outOfFuel
  | fuel + 1, o, l =>
    if 6 ≤ l then do
      let o ← o.put olen limit (ksB64Table.getD (b / 2 ^ (l - 6) % 64) 0)
      if o.full then return (o, l - 6) else b64EncodeDrain b fuel o (l - 6)
    else .ok (o, l)

/-- The loop of `ks_b64_encode` that pads the last group. -/
def b64EncodePad : ℕ → B64Out → ℕ → Except Fault B64Out
  | 0, _, _ => .error .outOfFuel
  | fuel + 1, o, l =>
    if l < 6 ∧ o.bytes < limit then do
      b64EncodePad fuel (← o.put olen limit 61) (l + 2)
    else .ok o

/-- The loop of `ks_b64_encode` over its input, and what comes behind it. -/
def b64EncodeLoop : B64Out → ℕ → ℕ → List UInt8 → Except Fault B64Out
  | o, b, l, [] =>
    if l = 0 then .ok o
    else do
      -- There is no test whether this character still fits.
      let o ← o.put olen limit (ksB64Table.getD (b % 16 * 2 ^ (6 - l) % 64) 0)
      b64EncodePad olen limit 6 o l
  | o, b, l, c :: input => do
    let b := pushByte b c
    let (o, l) ← b64EncodeDrain olen limit b (l + 8) o (l + 8)
    if o.full then return o else b64EncodeLoop o b l input

end Encode

/-- `ks_b64_encode`. -/
def ksB64Encode (input : List UInt8) (out : Mem) (olen : ℕ) : Except Fault (Status × Mem) := do
  let o ← b64EncodeLoop olen (toInt32 (toInt32 olen - 1)) ⟨out, 0, false⟩ 0 0 input
  let out ← putAt olen o.out o.bytes 0
  return (.success, out)

/-! ## Decoding -/

/-- The table `l64` of `ks_b64_decode`. -/
def l64 : List ℤ :=
  (List.range 64).foldl (fun l64 i => l64.set (ksB64Table.getD i 0).toNat i)
    (List.replicate 256 (-1))

/-- `l64[i]`. -/
def l64At (i : ℤ) : Except Fault ℤ :=
  if i < 0 then .error .outOfBounds
  else match l64[i.toNat]? with
    | some c => .ok c
    | none => .error .outOfBounds

section Decode

variable (olen : ℕ) (limit : ℤ)

/-- The inner loop of `ks_b64_decode`, which takes the bytes off the `l` bits
    that are left in `b`. -/
def b64DecodeDrain (b : ℤ) : ℕ → B64Out → ℕ → Except Fault (B64Out × ℕ)
  | 0, _, _ => .error .outOfFuel
  | fuel + 1, o, l =>
    if 8 ≤ l then do
      let o ← o.put olen limit (UInt8.ofInt ((b / 2 ^ (l - 8)).tmod 256))
      if o.full then return (o, l - 8) else b64DecodeDrain b fuel o (l - 8)
    else .ok (o, l)

/-- The loop of `ks_b64_decode` over its input. -/
def b64DecodeLoop : B64Out → ℤ → ℕ → List UInt8 → Except Fault B64Out
  | o, _, _, [] => .ok o
  | o, b, l, ip :: input =>
    if ip = 0 then .ok o
    else do
      let c ← l64At (charVal ip)
      if c = -1 then b64DecodeLoop o b l input
      else
        let b := pushSextet b c
        let (o, l) ← b64DecodeDrain olen limit b (l + 6) o (l + 6)
        if o.full then return o else b64DecodeLoop o b l input

end Decode

/-- `ks_b64_decode`, with what it returns. Nothing is read where there is no input. -/
def ksB64Decode (input : Option (List UInt8)) (out : Mem) (olen : ℕ) :
    Except Fault (Mem × ℕ) := do
  let o ← b64DecodeLoop olen (sub64 olen 2) ⟨out, 0, false⟩ 0 0 (input.getD [])
  let out ← putAt olen o.out o.bytes 0
  return (out, o.bytes + 1)

/-! ## What is written -/

/-- Bytes are written until the loop is left. -/
def putAll (olen : ℕ) (limit : ℤ) : B64Out → List UInt8 → Except Fault B64Out
  | o, [] => .ok o
  | o, c :: cs => if o.full then .ok o else do putAll olen limit (← o.put olen limit c) cs

section Put

variable {olen : ℕ} {limit : ℤ} {o : B64Out} {c : UInt8} {cs ds : List UInt8}

theorem putAll_of_full (h : o.full = true) : putAll olen limit o cs = .ok o := by
  cases cs with
  | nil => rfl
  | cons c cs => exact if_pos h

theorem putAll_cons (h : o.full = false) :
    putAll olen limit o (c :: cs) = o.put olen limit c >>= fun o => putAll olen limit o cs := by
  rw [putAll, if_neg (by rw [h]; exact Bool.false_ne_true)]

theorem put_of_lt (h : o.bytes < olen) :
    o.put olen limit c =
      .ok ⟨o.out.write o.bytes [c], o.bytes + 1, limit ≤ o.bytes + 1⟩ := by
  rw [B64Out.put, putAt_of_lt h, ok_bind]
  rfl

theorem put_of_ge (h : olen ≤ o.bytes) : o.put olen limit c = .error .outOfBounds := by
  rw [B64Out.put, putAt, if_neg (Nat.not_lt.2 h), error_bind]

/-- How many bytes are written at most: one, and then up to the limit. -/
def room (limit : ℤ) (bytes : ℕ) : ℕ := max 1 (limit - bytes).toNat

/-- What is written is the start of what there is to write, and the loop is left
    when there is no more room. -/
theorem putAll_eq (h : o.full = false) (hroom : o.bytes + room limit o.bytes ≤ olen) :
    putAll olen limit o cs =
      .ok ⟨o.out.write o.bytes (cs.take (room limit o.bytes)),
        o.bytes + min (room limit o.bytes) cs.length, room limit o.bytes ≤ cs.length⟩ := by
  induction cs generalizing o with
  | nil =>
    have hpos : ¬room limit o.bytes ≤ 0 := Nat.not_le.2 (Nat.lt_of_lt_of_le Nat.one_pos
      (Nat.le_max_left _ _))
    rw [List.take_nil, List.length_nil, Nat.min_zero, Mem.write_nil, decide_eq_false hpos, ← h]
    rfl
  | cons c cs ih =>
    rw [putAll_cons h, put_of_lt (Nat.lt_of_lt_of_le
      (Nat.lt_add_of_pos_right (Nat.lt_of_lt_of_le Nat.one_pos (Nat.le_max_left _ _))) hroom),
      ok_bind]
    by_cases hlast : limit ≤ o.bytes + 1
    · have hone : room limit o.bytes = 1 := by
        rw [room]
        omega
      rw [putAll_of_full (decide_eq_true hlast), hone, List.take_succ_cons, List.take_zero,
        decide_eq_true hlast, decide_eq_true (by simp), Nat.min_eq_left (by simp)]
    · have hmore : room limit o.bytes = room limit (o.bytes + 1) + 1 := by
        rw [room, room]
        omega
      have hrest : o.bytes + 1 + room limit (o.bytes + 1) ≤ olen := by omega
      rw [ih (decide_eq_false hlast) hrest, hmore, List.take_succ_cons, List.length_cons,
        Nat.add_min_add_right]
      have hw := Mem.write_write o.out o.bytes [c] (cs.take (room limit (o.bytes + 1)))
      rw [List.length_singleton, List.singleton_append] at hw
      rw [hw, Nat.add_assoc, Nat.add_comm 1]
      simp only [Nat.add_le_add_iff_right]

end Put

/-! ## The encoder writes the encoding -/

section EncodeLoop

variable {olen : ℕ} {limit : ℤ} {o : B64Out} {b l : ℕ} {c : UInt8} {input : List UInt8}

/-- A character is written, and the rest is done unless the loop is left there. -/
def putThen (olen : ℕ) (limit : ℤ) (o : B64Out) (c : UInt8)
    (next : B64Out → Except Fault B64Out) : Except Fault B64Out := do
  let o ← o.put olen limit c
  if o.full then return o else next o

/-- Where the rest writes what is left, all of it is written. -/
theorem putThen_eq {next : B64Out → Except Fault B64Out} {cs : List UInt8}
    (h : o.full = false)
    (hnext : ∀ o : B64Out, o.full = false → next o = putAll olen limit o cs) :
    putThen olen limit o c next = putAll olen limit o (c :: cs) := by
  rw [putAll_cons h]
  refine bind_congr fun o => ?_
  cases hfull : o.full with
  | true => rw [if_pos rfl, putAll_of_full hfull]; rfl
  | false => rw [if_neg Bool.false_ne_true, hnext o hfull]

theorem b64EncodeDrain_step (h : 6 ≤ l) (fuel : ℕ) :
    b64EncodeDrain olen limit b (fuel + 1) o l =
      o.put olen limit (ksB64Table.getD (b / 2 ^ (l - 6) % 64) 0) >>= fun o =>
        if o.full then .ok (o, l - 6) else b64EncodeDrain olen limit b fuel o (l - 6) := by
  rw [b64EncodeDrain, if_pos h]
  rfl

theorem b64EncodeDrain_done (h : l < 6) (fuel : ℕ) :
    b64EncodeDrain olen limit b (fuel + 1) o l = .ok (o, l) := by
  rw [b64EncodeDrain, if_neg (Nat.not_le.2 h)]

/-- A byte behind up to two bits is one character, and two bits more are left. -/
theorem b64EncodeLoop_one (hl : l < 4) :
    b64EncodeLoop olen limit o b l (c :: input) =
      putThen olen limit o (ksB64Table.getD (pushByte b c / 2 ^ (l + 2) % 64) 0) fun o =>
        b64EncodeLoop olen limit o (pushByte b c) (l + 2) input := by
  rw [b64EncodeLoop, putThen]
  dsimp only
  rw [b64EncodeDrain_step (by omega), show l + 8 - 6 = l + 2 by omega, bind_assoc]
  refine bind_congr fun o => ?_
  cases hfull : o.full with
  | true => rw [if_pos rfl, ok_bind, hfull]
  | false =>
    rw [if_neg Bool.false_ne_true, b64EncodeDrain_done (by omega), ok_bind, hfull]

/-- A byte behind four bits is two characters, and nothing is left. -/
theorem b64EncodeLoop_two :
    b64EncodeLoop olen limit o b 4 (c :: input) =
      putThen olen limit o (ksB64Table.getD (pushByte b c / 2 ^ 6 % 64) 0) fun o =>
        putThen olen limit o (ksB64Table.getD (pushByte b c / 2 ^ 0 % 64) 0) fun o =>
          b64EncodeLoop olen limit o (pushByte b c) 0 input := by
  rw [b64EncodeLoop, putThen]
  dsimp only
  rw [b64EncodeDrain_step (by decide), bind_assoc]
  refine bind_congr fun o => ?_
  cases hfull : o.full with
  | true =>
    rw [if_pos rfl, ok_bind, hfull]
    rfl
  | false =>
    rw [if_neg Bool.false_ne_true, if_neg Bool.false_ne_true, b64EncodeDrain_step (by decide),
      bind_assoc, putThen]
    refine bind_congr fun o => ?_
    cases hfull : o.full with
    | true => rw [if_pos rfl, ok_bind, hfull]
    | false => rw [if_neg Bool.false_ne_true, b64EncodeDrain_done (by decide), ok_bind, hfull]

/-- The padding goes on as the loop does: the test before a character is the one
    behind the last. -/
theorem b64EncodePad_eq {fuel n : ℕ} (hfull : o.full = decide (limit ≤ o.bytes))
    (hl : l + 2 * n = 6) (hn : n < fuel) :
    b64EncodePad olen limit fuel o l = putAll olen limit o (List.replicate n 61) := by
  induction fuel generalizing o l n with
  | zero => exact absurd hn (Nat.not_lt_zero _)
  | succ fuel ih =>
    rw [b64EncodePad]
    by_cases hlimit : limit ≤ o.bytes
    · rw [if_neg fun h => absurd h.2 (not_lt.2 hlimit), putAll_of_full (by rw [hfull]; simpa)]
    · cases n with
      | zero =>
        rw [if_neg fun h => absurd h.1 (by omega)]
        rfl
      | succ n =>
        rw [if_pos ⟨by omega, not_le.1 hlimit⟩, List.replicate_succ,
          putAll_cons (by rw [hfull]; simpa using hlimit)]
        by_cases hsize : o.bytes < olen
        · rw [put_of_lt hsize, ok_bind, ok_bind]
          exact ih (by push_cast; rfl) (by omega) (by omega)
        · rw [put_of_ge (Nat.le_of_not_lt hsize), error_bind, error_bind]

/-- What comes behind the loop. -/
theorem b64EncodeLoop_nil {n : ℕ} (h : o.full = false) (hl : l + 2 * n = 6) (hpos : 0 < l) :
    b64EncodeLoop olen limit o b l [] =
      putAll olen limit o
        (ksB64Table.getD (b % 16 * 2 ^ (6 - l) % 64) 0 :: List.replicate n 61) := by
  rw [b64EncodeLoop, if_neg hpos.ne', putAll_cons h]
  by_cases hsize : o.bytes < olen
  · rw [put_of_lt hsize, ok_bind, ok_bind, b64EncodePad_eq (by push_cast; rfl) hl (by omega)]
  · rw [put_of_ge (Nat.le_of_not_lt hsize), error_bind, error_bind]

/-- The character of a group that the accumulator holds. -/
theorem ksB64Table_getD {n v : ℕ} (h : n = v) : ksB64Table.getD n 0 = base64Char v := by
  rw [h]
  rfl

/-- The loop writes the encoding, until the buffer is used up. -/
theorem b64EncodeLoop_eq (h : o.full = false) :
    b64EncodeLoop olen limit o b 0 input = putAll olen limit o (base64Encode input) := by
  induction input using sextets.induct generalizing o b with
  | case1 a c d input ih =>
    have h₁ := pushByte_one b a
    have h₂ := pushByte_two b a c
    have h₃ := pushByte_three b a c d
    have ha := a.toNat_lt
    have hc := c.toNat_lt
    have hd := d.toNat_lt
    rw [base64Encode_cons, b64EncodeLoop_one (by decide),
      ksB64Table_getD (v := a.toNat / 4) (by omega)]
    refine putThen_eq h fun o h => ?_
    rw [b64EncodeLoop_one (by decide),
      ksB64Table_getD (v := a.toNat % 4 * 16 + c.toNat / 16) (by omega)]
    refine putThen_eq h fun o h => ?_
    rw [b64EncodeLoop_two, ksB64Table_getD (v := c.toNat % 16 * 4 + d.toNat / 64) (by omega),
      ksB64Table_getD (v := d.toNat % 64) (by omega)]
    refine putThen_eq h fun o h => putThen_eq h fun o h => ih h
  | case2 a c =>
    have h₁ := pushByte_one b a
    have h₂ := pushByte_two b a c
    have ha := a.toNat_lt
    have hc := c.toNat_lt
    rw [base64Encode_two, b64EncodeLoop_one (by decide),
      ksB64Table_getD (v := a.toNat / 4) (by omega)]
    refine putThen_eq h fun o h => ?_
    rw [b64EncodeLoop_one (by decide),
      ksB64Table_getD (v := a.toNat % 4 * 16 + c.toNat / 16) (by omega)]
    refine putThen_eq h fun o h => ?_
    rw [b64EncodeLoop_nil (n := 1) h rfl (by decide),
      ksB64Table_getD (v := c.toNat % 16 * 4) (by omega)]
    rfl
  | case3 a =>
    have h₁ := pushByte_one b a
    have ha := a.toNat_lt
    rw [base64Encode_one, b64EncodeLoop_one (by decide),
      ksB64Table_getD (v := a.toNat / 4) (by omega)]
    refine putThen_eq h fun o h => ?_
    rw [b64EncodeLoop_nil (n := 2) h rfl (by decide),
      ksB64Table_getD (v := a.toNat % 4 * 16) (by omega)]
    rfl
  | case4 => rfl

end EncodeLoop

section Encoder

variable {input : List UInt8} {out : Mem} {olen : ℕ}

/-- The test of the encoder, as long as its buffer has less than `2 ^ 31` bytes. -/
theorem encode_limit (hpos : 1 ≤ olen) (hlt : olen < 2 ^ 31) :
    toInt32 (toInt32 olen - 1) = (olen - 1 : ℕ) := by
  rw [toInt32_of_lt hlt, show (olen : ℤ) - 1 = (olen - 1 : ℕ) by omega, toInt32_of_lt (by omega)]

/-- What the encoder does with a buffer of any size: with one byte, it writes
    behind the buffer unless there is nothing to encode. -/
theorem ksB64Encode_eq (hpos : 1 ≤ olen) (hlt : olen < 2 ^ 31) :
    ksB64Encode input out olen =
      if 2 ≤ olen ∨ input = [] then
        .ok (.success, out.write 0 ((base64Encode input).take (olen - 1) ++ [0]))
      else .error .outOfBounds := by
  have hroom : room ((olen - 1 : ℕ) : ℤ) 0 = max 1 (olen - 1) := by
    rw [room]
    omega
  rw [ksB64Encode, encode_limit hpos hlt, b64EncodeLoop_eq rfl,
    putAll_eq rfl (show 0 + room ((olen - 1 : ℕ) : ℤ) 0 ≤ olen by rw [hroom]; omega), ok_bind]
  dsimp only
  rw [hroom]
  have hlen := length_base64Encode input
  split_ifs with h
  · -- The terminator comes behind what is written, and inside.
    have htake : (base64Encode input).take (max 1 (olen - 1)) =
        (base64Encode input).take (olen - 1) := by
      rcases h with h | rfl
      · rw [Nat.max_eq_right (by omega)]
      · exact List.take_nil.trans List.take_nil.symm
    have hlast : 0 + min (max 1 (olen - 1)) (base64Encode input).length =
        0 + ((base64Encode input).take (olen - 1)).length := by
      rw [← htake, List.length_take]
    have hfits : 0 + ((base64Encode input).take (olen - 1)).length < olen := by
      rw [List.length_take]
      omega
    rw [htake, hlast, putAt_of_lt hfits, ok_bind, Mem.write_write]
    rfl
  · rw [not_or] at h
    have hne : 0 < input.length := List.length_pos_iff.2 h.2
    rw [putAt, if_neg (by omega), error_bind]

/-- The whole encoding is written into a buffer that has room for it. -/
theorem ksB64Encode_full (h : 4 * ((input.length + 2) / 3) + 1 ≤ olen) (hlt : olen < 2 ^ 31) :
    ksB64Encode input out olen = .ok (.success, out.write 0 (base64Encode input ++ [0])) := by
  have hlen := length_base64Encode input
  have hsize : 2 ≤ olen ∨ input = [] := by
    rcases input with _ | ⟨a, input⟩
    · exact .inr rfl
    · rw [List.length_cons] at h
      exact .inl (by omega)
  rw [ksB64Encode_eq (by omega) hlt, if_pos hsize, List.take_of_length_le (by omega)]

/-- The encoder stays inside the buffer, and leaves there the start of the
    encoding that fits, as a string. -/
def EncodedWithin (input : List UInt8) (out : Mem) (olen : ℕ) : Prop :=
  ∃ out', ksB64Encode input out olen = .ok (.success, out') ∧
    (∀ i, olen ≤ i → out' i = out i) ∧
    out'.IsStr 0 ((base64Encode input).take (min (base64Encode input).length (olen - 1)))

/-- It does so unless the buffer has one byte, and there is something to encode:
    the test comes behind the first character. -/
theorem encodedWithin_iff (hpos : 1 ≤ olen) (hlt : olen < 2 ^ 31) :
    EncodedWithin input out olen ↔ 2 ≤ olen ∨ input = [] := by
  rw [EncodedWithin, ksB64Encode_eq hpos hlt]
  constructor
  · rintro ⟨out', h, -, -⟩
    by_contra hn
    rw [if_neg hn] at h
    cases h
  · intro h
    have htake : (base64Encode input).take (min (base64Encode input).length (olen - 1)) =
        (base64Encode input).take (olen - 1) := by
      rw [Nat.min_comm, ← List.take_take, List.take_length]
    have hlen : ((base64Encode input).take (olen - 1) ++ [0]).length ≤ olen := by
      rw [List.length_append, List.length_take, List.length_singleton]
      omega
    have hzero : 0 ∉ (base64Encode input).take (olen - 1) := fun h0 =>
      zero_notMem_base64Encode input (List.mem_of_mem_take h0)
    rw [if_pos h, htake]
    exact ⟨_, rfl, fun i hi => Mem.write_apply_of_ge (by omega), Mem.isStr_write out 0 hzero⟩

theorem encodedWithin_man : EncodedWithin (ascii "Man") (fun _ => 35) 4 :=
  (encodedWithin_iff (by decide) (by decide)).2 (.inl (by decide))

/-- A buffer of one byte gets a character, and its terminator is behind it. -/
theorem not_encodedWithin_one : ¬EncodedWithin (ascii "M") (fun _ => 35) 1 := by
  rintro ⟨out', h, -, -⟩
  cases h

end Encoder

/-! ## The decoder writes the bytes -/

theorem length_foldl_set (t : List ℤ) (f : ℕ → ℕ) (n : ℕ) :
    ((List.range n).foldl (fun t i => t.set (f i) i) t).length = t.length := by
  induction n with
  | zero => rfl
  | succ n ih =>
    rw [List.range_succ, List.foldl_append, List.foldl_cons, List.foldl_nil, List.length_set, ih]

/-- After `n` rounds, the table has the groups of the first `n` characters. -/
theorem getElem?_foldl_set {n : ℕ} (hn : n ≤ base64Alphabet.length) (c : UInt8) :
    ((List.range n).foldl (fun t i => t.set (ksB64Table.getD i 0).toNat (i : ℤ))
        (List.replicate 256 (-1)))[c.toNat]? =
      some ((((base64Alphabet.take n).idxOf? c).map ((↑) : ℕ → ℤ)).getD (-1)) := by
  have hc : c.toNat < 256 := c.toNat_lt
  induction n with
  | zero => exact List.getElem?_replicate_of_lt hc
  | succ n ih =>
    have hchar : ksB64Table.getD n 0 = base64Alphabet[n] := List.getD_eq_getElem _ _ hn
    rw [List.range_succ, List.foldl_append, List.foldl_cons, List.foldl_nil, hchar,
      List.getElem?_set, length_foldl_set, List.length_replicate, ih (Nat.le_of_succ_le hn),
      List.take_succ_eq_append_getElem hn, List.idxOf?, List.findIdx?_append,
      List.findIdx?_singleton]
    by_cases heq : base64Alphabet[n] = c
    · -- The character comes once in the alphabet, and so not before.
      have hfirst : (base64Alphabet.take n).findIdx? (· == c) = none := by
        refine List.findIdx?_eq_none_iff.2 fun d hd => ?_
        obtain ⟨i, hi, rfl⟩ := List.mem_take_iff_getElem.1 hd
        rw [beq_eq_false_iff_ne, ← heq, Ne, nodup_base64Alphabet.getElem_inj_iff]
        omega
      rw [heq, if_pos rfl, if_pos hc, hfirst, beq_self_eq_true, if_pos rfl, Option.none_or,
        List.length_take, Nat.min_eq_left (Nat.le_of_succ_le hn), Option.map_some, Nat.zero_add]
      rfl
    · rw [if_neg fun h => heq (UInt8.toNat_inj.1 h), if_neg (by rwa [beq_iff_eq]),
        Option.map_none, Option.or_none]

/-- The table has the groups of the characters. -/
theorem l64At_of_lt {c : UInt8} (hc : c < 128) :
    l64At (charVal c) = .ok (((base64Val c).map ((↑) : ℕ → ℤ)).getD (-1)) := by
  have hlt : c.toNat < 256 := c.toNat_lt
  have ht : l64[c.toNat]? = some (((base64Val c).map ((↑) : ℕ → ℤ)).getD (-1)) := by
    have h := getElem?_foldl_set le_rfl c
    rwa [List.take_length] at h
  rw [charVal_of_lt hc, l64At, if_neg (by omega), Int.toNat_natCast, ht]

/-- A `char` below 0 is looked up in front of the table. -/
theorem l64At_of_ge {c : UInt8} (hc : 128 ≤ c) : l64At (charVal c) = .error .outOfBounds :=
  if_pos (charVal_neg hc)

section DecodeLoop

variable {olen : ℕ} {limit : ℤ} {o : B64Out} {b : ℤ} {l v : ℕ} {c : UInt8} {input u : List UInt8}
  {vs : List ℕ}

/-- The loop of the decoder, over the groups that the characters stand for. -/
def sextetLoop (olen : ℕ) (limit : ℤ) : B64Out → ℤ → ℕ → List ℕ → Except Fault B64Out
  | o, _, _, [] => .ok o
  | o, b, l, v :: vs => do
    let b := pushSextet b v
    let (o, l) ← b64DecodeDrain olen limit b (l + 6) o (l + 6)
    if o.full then return o else sextetLoop olen limit o b l vs

/-- A byte outside the alphabet is skipped. -/
theorem b64DecodeLoop_skip (h0 : c ≠ 0) (hc : c < 128) (h : base64Val c = none) :
    b64DecodeLoop olen limit o b l (c :: input) = b64DecodeLoop olen limit o b l input := by
  rw [b64DecodeLoop, if_neg h0, l64At_of_lt hc, ok_bind, h]
  exact if_pos rfl

theorem b64DecodeLoop_some (h0 : c ≠ 0) (hc : c < 128) (h : base64Val c = some v) :
    b64DecodeLoop olen limit o b l (c :: input) =
      b64DecodeDrain olen limit (pushSextet b v) (l + 6) o (l + 6) >>= fun r =>
        if r.1.full then .ok r.1 else b64DecodeLoop olen limit r.1 (pushSextet b v) r.2 input := by
  have hv : ¬((v : ℕ) : ℤ) = -1 := by omega
  rw [b64DecodeLoop, if_neg h0, l64At_of_lt hc, ok_bind, h]
  exact if_neg hv

/-- The loop is one over the groups. -/
theorem b64DecodeLoop_eq (h0 : 0 ∉ input) (h : ∀ c ∈ input, c < 128) :
    b64DecodeLoop olen limit o b l input =
      sextetLoop olen limit o b l (input.filterMap base64Val) := by
  induction input generalizing o b l with
  | nil => rfl
  | cons c input ih =>
    rw [List.mem_cons, not_or] at h0
    rw [List.forall_mem_cons] at h
    cases hv : base64Val c with
    | none =>
      rw [b64DecodeLoop_skip (Ne.symm h0.1) h.1 hv, List.filterMap_cons_none hv, ih h0.2 h.2]
    | some v =>
      rw [b64DecodeLoop_some (Ne.symm h0.1) h.1 hv, List.filterMap_cons_some hv, sextetLoop]
      refine bind_congr fun r => ?_
      rw [ih h0.2 h.2]
      rfl

/-- A byte from 128 on is the end, unless the loop has been left in front of it. -/
theorem b64DecodeLoop_negative {w : List UInt8} (ho : o.full = false) (h0 : 0 ∉ u)
    (h : ∀ c ∈ u, c < 128) (hc : 128 ≤ c) :
    b64DecodeLoop olen limit o b l (u ++ c :: w) =
      b64DecodeLoop olen limit o b l u >>= fun o =>
        if o.full then .ok o else .error .outOfBounds := by
  induction u generalizing o b l with
  | nil =>
    have hc0 : c ≠ 0 := fun h => absurd (h ▸ hc) (by decide)
    have hbad : b64DecodeLoop olen limit o b l (c :: w) = .error .outOfBounds := by
      rw [b64DecodeLoop, if_neg hc0, l64At_of_ge hc]
      rfl
    rw [List.nil_append, hbad, b64DecodeLoop, ok_bind, ho]
    rfl
  | cons d u ih =>
    rw [List.mem_cons, not_or] at h0
    rw [List.forall_mem_cons] at h
    rw [List.cons_append]
    cases hv : base64Val d with
    | none =>
      rw [b64DecodeLoop_skip (Ne.symm h0.1) h.1 hv, b64DecodeLoop_skip (Ne.symm h0.1) h.1 hv,
        ih ho h0.2 h.2]
    | some v =>
      rw [b64DecodeLoop_some (Ne.symm h0.1) h.1 hv, b64DecodeLoop_some (Ne.symm h0.1) h.1 hv,
        bind_assoc]
      refine bind_congr fun r => ?_
      cases hfull : r.1.full with
      | true => rw [if_pos rfl, if_pos rfl, ok_bind, if_pos hfull]
      | false => rw [if_neg Bool.false_ne_true, if_neg Bool.false_ne_true, ih hfull h0.2 h.2]

theorem b64DecodeDrain_step (h : 8 ≤ l) (fuel : ℕ) :
    b64DecodeDrain olen limit b (fuel + 1) o l =
      o.put olen limit (UInt8.ofInt ((b / 2 ^ (l - 8)).tmod 256)) >>= fun o =>
        if o.full then .ok (o, l - 8) else b64DecodeDrain olen limit b fuel o (l - 8) := by
  rw [b64DecodeDrain, if_pos h]
  rfl

theorem b64DecodeDrain_done (h : l < 8) (fuel : ℕ) :
    b64DecodeDrain olen limit b (fuel + 1) o l = .ok (o, l) := by
  rw [b64DecodeDrain, if_neg (Nat.not_le.2 h)]

/-- Where less than eight bits are there, none is written. -/
theorem sextetLoop_none (ho : o.full = false) (hl : l < 2) :
    sextetLoop olen limit o b l (v :: vs) =
      sextetLoop olen limit o (pushSextet b v) (l + 6) vs := by
  rw [sextetLoop]
  dsimp only
  rw [b64DecodeDrain_done (by omega), ok_bind, ho]
  rfl

/-- Otherwise a byte is, and the rest of the bits is left. -/
theorem sextetLoop_one (hl : 2 ≤ l) (hl' : l < 8) :
    sextetLoop olen limit o b l (v :: vs) =
      putThen olen limit o (UInt8.ofInt ((pushSextet b v / 2 ^ (l - 2)).tmod 256)) fun o =>
        sextetLoop olen limit o (pushSextet b v) (l - 2) vs := by
  rw [sextetLoop, putThen]
  dsimp only
  rw [b64DecodeDrain_step (by omega), show l + 6 - 8 = l - 2 by omega, bind_assoc]
  refine bind_congr fun o => ?_
  cases hfull : o.full with
  | true => rw [if_pos rfl, ok_bind, hfull]
  | false =>
    rw [if_neg Bool.false_ne_true, b64DecodeDrain_done (by omega), ok_bind, hfull]

/-- The loop writes the bytes, until the buffer is used up. -/
theorem sextetLoop_eq (h : o.full = false) (hvs : ∀ v ∈ vs, v < 64) :
    sextetLoop olen limit o b 0 vs = putAll olen limit o (octets vs) := by
  induction vs using octets.induct generalizing o b with
  | case1 p q r s vs ih =>
    simp only [List.forall_mem_cons] at hvs
    obtain ⟨hp, hq, hr, hs, hvs⟩ := hvs
    have h₂ := pushSextet_two b hp hq
    have h₃ := pushSextet_three b hp hq hr
    have h₄ := pushSextet_four b hp hq hr hs
    rw [octets, sextetLoop_none h (by decide), sextetLoop_one (by decide) (by decide),
      ofInt_tmod (n := p * 4 + q / 16) (by omega)]
    refine putThen_eq h fun o h => ?_
    rw [sextetLoop_one (by decide) (by decide),
      ofInt_tmod (n := q % 16 * 16 + r / 4) (by omega)]
    refine putThen_eq h fun o h => ?_
    rw [sextetLoop_one (by decide) (by decide), ofInt_tmod (n := r % 4 * 64 + s) (by omega)]
    exact putThen_eq h fun o h => ih h hvs
  | case2 p q r =>
    simp only [List.forall_mem_cons] at hvs
    obtain ⟨hp, hq, hr, -⟩ := hvs
    have h₂ := pushSextet_two b hp hq
    have h₃ := pushSextet_three b hp hq hr
    rw [octets, sextetLoop_none h (by decide), sextetLoop_one (by decide) (by decide),
      ofInt_tmod (n := p * 4 + q / 16) (by omega)]
    refine putThen_eq h fun o h => ?_
    rw [sextetLoop_one (by decide) (by decide),
      ofInt_tmod (n := q % 16 * 16 + r / 4) (by omega)]
    exact putThen_eq h fun o h => rfl
  | case3 p q =>
    simp only [List.forall_mem_cons] at hvs
    obtain ⟨hp, hq, -⟩ := hvs
    have h₂ := pushSextet_two b hp hq
    rw [octets, sextetLoop_none h (by decide), sextetLoop_one (by decide) (by decide),
      ofInt_tmod (n := p * 4 + q / 16) (by omega)]
    exact putThen_eq h fun o h => rfl
  | case4 p => exact sextetLoop_none h (by decide)
  | case5 => rfl

end DecodeLoop

section Decoder

variable {input u v : List UInt8} {out : Mem} {olen : ℕ} {c : UInt8}

/-- How many bytes the decoder stores at most, in a buffer of at least two. -/
theorem decode_room (h : 2 ≤ olen) (hlt : olen < 2 ^ 64) :
    room (sub64 olen 2) 0 = max 1 (olen - 2) := by
  rw [room, sub64_of_le h hlt]
  omega

/-- The bytes that an input stands for. -/
def decoded (input : List UInt8) : List UInt8 := octets (input.filterMap base64Val)

theorem length_decoded (input : List UInt8) :
    (decoded input).length = 6 * input.countP isBase64 / 8 := by
  rw [decoded, length_octets, length_filterMap_base64Val]

theorem decodeLoop_decoded {limit : ℤ} {o : B64Out} (ho : o.full = false) (h0 : 0 ∉ input)
    (h : ∀ c ∈ input, c < 128) :
    b64DecodeLoop olen limit o 0 0 input = putAll olen limit o (decoded input) := by
  rw [b64DecodeLoop_eq h0 h, sextetLoop_eq ho fun v => lt_of_mem_filterMap_base64Val, decoded]

/-- In a buffer of at least two bytes, the loop stores the start of the bytes
    that leaves the last two free, or one. -/
theorem decodeLoop_eq (h0 : 0 ∉ input) (h : ∀ c ∈ input, c < 128) (h2 : 2 ≤ olen)
    (hlt : olen < 2 ^ 64) :
    b64DecodeLoop olen (sub64 olen 2) ⟨out, 0, false⟩ 0 0 input =
      .ok ⟨out.write 0 ((decoded input).take (max 1 (olen - 2))),
        min (max 1 (olen - 2)) (decoded input).length,
        max 1 (olen - 2) ≤ (decoded input).length⟩ := by
  have hroom := decode_room h2 hlt
  rw [decodeLoop_decoded rfl h0 h, putAll_eq rfl
    (show 0 + room (sub64 olen 2) 0 ≤ olen by rw [hroom]; omega)]
  dsimp only
  rw [hroom, Nat.zero_add]

theorem ksB64Decode_eq (h0 : 0 ∉ input) (h : ∀ c ∈ input, c < 128) (h2 : 2 ≤ olen)
    (hlt : olen < 2 ^ 64) :
    ksB64Decode (some input) out olen =
      .ok (out.write 0 ((decoded input).take (max 1 (olen - 2)) ++ [0]),
        min (max 1 (olen - 2)) (decoded input).length + 1) := by
  have hlen : min (max 1 (olen - 2)) (decoded input).length =
      0 + ((decoded input).take (max 1 (olen - 2))).length := by
    rw [List.length_take, Nat.zero_add]
  rw [ksB64Decode, Option.getD_some, decodeLoop_eq h0 h h2 hlt, ok_bind]
  dsimp only
  rw [putAt_of_lt (by omega), ok_bind, hlen, Mem.write_write]
  rfl

/-- Where nothing is to be stored, any buffer will do. -/
theorem ksB64Decode_none (h0 : 0 ∉ input) (h : ∀ c ∈ input, c < 128) (hd : decoded input = [])
    (hpos : 1 ≤ olen) : ksB64Decode (some input) out olen = .ok (out.write 0 [0], 1) := by
  rw [ksB64Decode, Option.getD_some, decodeLoop_decoded rfl h0 h, hd, putAll, ok_bind]
  dsimp only
  rw [putAt_of_lt hpos, ok_bind]
  rfl

/-! ### The round trip -/

/-- What the encoder makes of a string in a buffer of `size` bytes is a string
    that the decoder makes the bytes of again, with a terminator behind them. -/
def RoundTrip (x : List UInt8) (buf : Mem) (size : ℕ) (out : Mem) (olen : ℕ) : Prop :=
  ∃ buf' text, ksB64Encode x buf size = .ok (.success, buf') ∧ buf'.IsStr 0 text ∧
    ksB64Decode (some text) out olen = .ok (out.write 0 (x ++ [0]), x.length + 1)

theorem RoundTrip.size {x : List UInt8} {buf : Mem} {size : ℕ} (h : RoundTrip x buf size out olen)
    (hsize : 4 * ((x.length + 2) / 3) + 1 ≤ size) (hsizelt : size < 2 ^ 31)
    (holen : x.length + 1 ≤ olen) (hlt : olen < 2 ^ 64) :
    x.length ≤ 1 ∨ x.length + 2 ≤ olen := by
  obtain ⟨buf', text, he, htext, hdec⟩ := h
  have h0 := zero_notMem_base64Encode x
  rw [ksB64Encode_full hsize hsizelt] at he
  cases he
  obtain rfl := (Mem.isStr_write buf 0 h0).unique htext
  by_contra hn
  rw [not_or] at hn
  rw [ksB64Decode_eq h0 (fun c => lt_of_mem_base64Encode) (by omega) hlt, decoded,
    octets_base64Encode] at hdec
  have hlen : min (max 1 (olen - 2)) x.length + 1 = x.length + 1 :=
    congrArg Prod.snd (Except.ok.inj hdec)
  omega

/-- The bytes come back, except two or more of them in the smallest buffer for
    them: the test behind a byte leaves as many free as if it stood before. -/
theorem roundTrip_iff {x : List UInt8} {buf : Mem} {size : ℕ}
    (hsize : 4 * ((x.length + 2) / 3) + 1 ≤ size) (hsizelt : size < 2 ^ 31)
    (holen : x.length + 1 ≤ olen) (hlt : olen < 2 ^ 64) :
    RoundTrip x buf size out olen ↔ x.length ≤ 1 ∨ x.length + 2 ≤ olen := by
  refine ⟨fun h => h.size hsize hsizelt holen hlt, fun h => ?_⟩
  have h0 := zero_notMem_base64Encode x
  have hascii : ∀ c ∈ base64Encode x, c < 128 := fun c => lt_of_mem_base64Encode
  have hx : decoded (base64Encode x) = x := octets_base64Encode x
  refine ⟨_, _, ksB64Encode_full hsize hsizelt, Mem.isStr_write buf 0 h0, ?_⟩
  by_cases h2 : 2 ≤ olen
  · rw [ksB64Decode_eq h0 hascii h2 hlt, hx, List.take_of_length_le (by omega),
      Nat.min_eq_right (by omega)]
  · -- A buffer of one byte is for no bytes.
    obtain rfl : x = [] := List.length_eq_zero_iff.1 (by omega)
    exact ksB64Decode_none h0 hascii hx (by omega)

theorem roundTrip_man : RoundTrip (ascii "Man") (fun _ => 35) 5 (fun _ => 35) 5 :=
  (roundTrip_iff (by decide) (by decide) (by decide) (by decide)).2 (.inr (by decide))

/-- Two bytes, in a buffer of three. -/
theorem not_roundTrip_ab : ¬RoundTrip (ascii "ab") (fun _ => 35) 5 (fun _ => 35) 3 := fun h =>
  absurd (h.size (by decide) (by decide) (by decide) (by decide)) (by decide)

/-! ### Any input -/

/-- The bytes behind which the decoder has left its loop. -/
def UsedUp (olen : ℕ) (u : List UInt8) : Prop :=
  2 ≤ olen ∧ max 1 (olen - 2) ≤ 6 * u.countP isBase64 / 8

/-- The decoder stays inside its table and its buffer, and does what it does
    with the characters of the alphabet alone. -/
def DecodedWithin (input : List UInt8) (out : Mem) (olen : ℕ) : Prop :=
  ∃ out' n, ksB64Decode (some input) out olen = .ok (out', n) ∧
    (∀ i, olen ≤ i → out' i = out i) ∧
    ksB64Decode (some (input.filter isBase64)) out olen = .ok (out', n)

theorem UsedUp.append (h : UsedUp olen u) (w : List UInt8) : UsedUp olen (u ++ w) := by
  obtain ⟨h2, h⟩ := h
  rw [UsedUp, List.countP_append]
  omega

/-- The characters of the alphabet are ASCII. -/
theorem lt_of_mem_filter : ∀ c ∈ input.filter isBase64, c < 128 := by
  intro c hc
  have hsome : isBase64 c := List.of_mem_filter hc
  obtain ⟨v, hv⟩ := Option.isSome_iff_exists.1 hsome
  exact lt_of_base64Val hv

theorem decoded_filter (input : List UInt8) : decoded (input.filter isBase64) = decoded input := by
  rw [decoded, filterMap_filter_isBase64, decoded]

/-- An input that is ASCII, and what is in front of a `char` below 0. -/
theorem ascii_or_split (input : List UInt8) :
    (∀ c ∈ input, c < 128) ∨
      ∃ u c w, input = u ++ c :: w ∧ (∀ d ∈ u, d < 128) ∧ 128 ≤ c := by
  induction input with
  | nil => exact .inl fun c hc => absurd hc List.not_mem_nil
  | cons d input ih =>
    rcases UInt8.lt_or_le d 128 with hd | hd
    · rcases ih with h | ⟨u, c, w, rfl, hu, hc⟩
      · exact .inl (List.forall_mem_cons.2 ⟨hd, h⟩)
      · exact .inr ⟨d :: u, c, w, rfl, List.forall_mem_cons.2 ⟨hd, hu⟩, hc⟩
    · exact .inr ⟨[], d, input, rfl, fun c hc => absurd hc List.not_mem_nil, hd⟩

/-- Where the limit is behind the end of the buffer, it is never reached. -/
theorem putAll_beyond {limit : ℤ} {o o' : B64Out} {cs : List UInt8} (ho : o.full = false)
    (hlimit : olen < limit) (h : putAll olen limit o cs = .ok o') :
    o'.full = false ∧ o'.bytes = o.bytes + cs.length := by
  induction cs generalizing o with
  | nil =>
    cases h
    exact ⟨ho, rfl⟩
  | cons c cs ih =>
    rw [putAll_cons ho] at h
    by_cases hsize : o.bytes < olen
    · rw [put_of_lt hsize, ok_bind] at h
      obtain ⟨hfull, hbytes⟩ := ih (decide_eq_false (by omega)) h
      exact ⟨hfull, hbytes.trans (Nat.succ_add_eq_add_succ _ _)⟩
    · rw [put_of_ge (Nat.le_of_not_lt hsize)] at h
      cases h

/-- In a buffer of one byte nothing can be stored, and nothing stops the loop. -/
theorem of_ksB64Decode_one {r : Mem × ℕ} (h0 : 0 ∉ input)
    (h : ksB64Decode (some input) out 1 = .ok r) :
    (∀ c ∈ input, c < 128) ∧ decoded input = [] := by
  have hlimit : ((1 : ℕ) : ℤ) < sub64 1 2 := by
    rw [sub64]
    decide
  rw [ksB64Decode, Option.getD_some] at h
  rcases ascii_or_split input with hascii | ⟨u, c, w, rfl, hu, hc⟩
  · refine ⟨hascii, ?_⟩
    rw [decodeLoop_decoded rfl h0 hascii] at h
    cases hput : putAll 1 (sub64 1 2) ⟨out, 0, false⟩ (decoded input) with
    | error => rw [hput] at h; cases h
    | ok o =>
      obtain ⟨-, hbytes⟩ := putAll_beyond rfl hlimit hput
      rw [hput, ok_bind, putAt] at h
      split_ifs at h with hlt
      · exact List.length_eq_zero_iff.1 (by omega)
      · cases h
  · have hu0 : 0 ∉ u := fun hz => h0 (List.mem_append_left _ hz)
    rw [b64DecodeLoop_negative rfl hu0 hu hc, decodeLoop_decoded rfl hu0 hu] at h
    cases hput : putAll 1 (sub64 1 2) ⟨out, 0, false⟩ (decoded u) with
    | error => rw [hput] at h; cases h
    | ok o =>
      obtain ⟨hfull, -⟩ := putAll_beyond rfl hlimit hput
      rw [hput, ok_bind, hfull] at h
      cases h

/-- What is behind a `char` below 0 is not read, if the loop has been left in
    front of it. -/
theorem ksB64Decode_split {w : List UInt8} (h0 : 0 ∉ u) (hu : ∀ d ∈ u, d < 128) (hc : 128 ≤ c)
    (h2 : 2 ≤ olen) (hlt : olen < 2 ^ 64) (hused : UsedUp olen u) :
    ksB64Decode (some (u ++ c :: w)) out olen = ksB64Decode (some u) out olen := by
  obtain ⟨-, hk⟩ := hused
  rw [← length_decoded] at hk
  rw [ksB64Decode, ksB64Decode, Option.getD_some, Option.getD_some,
    b64DecodeLoop_negative rfl h0 hu hc, decodeLoop_eq h0 hu h2 hlt, ok_bind, ok_bind,
    if_pos (decide_eq_true hk), ok_bind]

theorem usedUp_of_ok {w : List UInt8} {r : Mem × ℕ} (h0 : 0 ∉ u) (hu : ∀ d ∈ u, d < 128)
    (hc : 128 ≤ c) (h2 : 2 ≤ olen) (hlt : olen < 2 ^ 64)
    (h : ksB64Decode (some (u ++ c :: w)) out olen = .ok r) : UsedUp olen u := by
  refine ⟨h2, ?_⟩
  rw [← length_decoded]
  by_contra hk
  rw [ksB64Decode, Option.getD_some, b64DecodeLoop_negative rfl h0 hu hc,
    decodeLoop_eq h0 hu h2 hlt, ok_bind, if_neg (by rwa [decide_eq_true_iff])] at h
  cases h

/-- The decoder stays inside and reads the characters of the alphabet alone,
    unless it gets to a `char` below 0, or has to store a byte in a buffer of
    one. -/
theorem decodedWithin_iff (h0 : 0 ∉ input) (hpos : 1 ≤ olen) (hlt : olen < 2 ^ 64) :
    DecodedWithin input out olen ↔
      (2 ≤ olen ∨ input.countP isBase64 ≤ 1) ∧
        ∀ u c w, input = u ++ c :: w → 128 ≤ c → UsedUp olen u := by
  have hfilter : 0 ∉ input.filter isBase64 := fun h => h0 (List.mem_of_mem_filter h)
  constructor
  · rintro ⟨out', n, h, -, -⟩
    by_cases h2 : 2 ≤ olen
    · refine ⟨.inl h2, fun u c w hs hc => ?_⟩
      rcases ascii_or_split input with hascii | ⟨u', c', w', rfl, hu', hc'⟩
      · exact absurd (hascii c (by rw [hs]; simp)) (UInt8.not_lt.2 hc)
      · have hu0 : 0 ∉ u' := fun hz => h0 (List.mem_append_left _ hz)
        have hused := usedUp_of_ok hu0 hu' hc' h2 hlt h
        -- The byte is the first of its kind, or behind it.
        rcases List.append_eq_append_iff.1 hs with ⟨a, rfl, -⟩ | ⟨b, rfl, hb⟩
        · exact hused.append a
        · cases b with
          | nil => rwa [List.append_nil] at hused
          | cons d b =>
            rw [List.cons_append] at hb
            have hd : d < 128 := hu' d (by simp)
            rw [← (List.cons_eq_cons.1 hb).1] at hd
            exact absurd hd (UInt8.not_lt.2 hc)
    · obtain rfl : olen = 1 := by omega
      obtain ⟨hascii, hd⟩ := of_ksB64Decode_one h0 h
      have hlen := length_decoded input
      rw [hd, List.length_nil] at hlen
      refine ⟨.inr (by omega), fun u c w hs hc => ?_⟩
      exact absurd (hascii c (by rw [hs]; simp)) (UInt8.not_lt.2 hc)
  · rintro ⟨hcount, hneg⟩
    by_cases h2 : 2 ≤ olen
    · have hframe (bs : List UInt8) (i : ℕ) (hi : olen ≤ i) :
          out.write 0 (bs.take (max 1 (olen - 2)) ++ [0]) i = out i := by
        refine Mem.write_apply_of_ge ?_
        rw [List.length_append, List.length_take, List.length_singleton]
        omega
      have heq : ksB64Decode (some (input.filter isBase64)) out olen = _ :=
        ksB64Decode_eq hfilter lt_of_mem_filter h2 hlt
      rw [decoded_filter] at heq
      rcases ascii_or_split input with hascii | ⟨u, c, w, rfl, hu, hc⟩
      · exact ⟨_, _, ksB64Decode_eq h0 hascii h2 hlt, hframe _, heq⟩
      · have hu0 : 0 ∉ u := fun hz => h0 (List.mem_append_left _ hz)
        have hused := hneg u c w rfl hc
        have hk := hused.2
        rw [← length_decoded] at hk
        obtain ⟨t, ht⟩ := octets_append (u.filterMap base64Val) ((c :: w).filterMap base64Val)
        rw [← List.filterMap_append] at ht
        have ht : decoded u ++ t = decoded (u ++ c :: w) := ht
        rw [← ht, List.take_append_of_le_length hk, List.length_append,
          Nat.min_eq_left (Nat.le_add_right_of_le hk)] at heq
        refine ⟨_, _, ?_, hframe _, heq⟩
        rw [ksB64Decode_split hu0 hu hc h2 hlt hused, ksB64Decode_eq hu0 hu h2 hlt,
          Nat.min_eq_left hk]
    · have hcount : input.countP isBase64 ≤ 1 := hcount.resolve_left h2
      have hascii : ∀ c ∈ input, c < 128 := by
        rcases ascii_or_split input with hascii | ⟨u, c, w, rfl, -, hc⟩
        · exact hascii
        · exact absurd (hneg u c w rfl hc).1 h2
      have hd : decoded input = [] := by
        rw [← List.length_eq_zero_iff, length_decoded]
        omega
      have heq : ksB64Decode (some (input.filter isBase64)) out olen = _ :=
        ksB64Decode_none hfilter lt_of_mem_filter ((decoded_filter input).trans hd) hpos
      exact ⟨_, _, ksB64Decode_none h0 hascii hd hpos,
        fun i hi => Mem.write_apply_of_ge (by simpa using Nat.le_trans hpos hi), heq⟩

theorem decodedWithin_line : DecodedWithin (ascii "TWFu\n\t=") (fun _ => 35) 5 :=
  (decodedWithin_iff (by decide) (by decide) (by decide)).2
    ⟨.inl (by decide), fun u c w hs hc => absurd
      ((by decide +kernel : ∀ d ∈ ascii "TWFu\n\t=", ¬128 ≤ d) c (by rw [hs]; simp)) (not_not.2 hc)⟩

/-- A byte from 128 on is not an index of the table. -/
theorem not_decodedWithin_latin1 : ¬DecodedWithin [0xE9] (fun _ => 35) 16 := by
  rintro ⟨out', n, h, -⟩
  cases h

end Decoder

end Libks
