import Libks.Base.Outcome
import Libks.Kws.Fragments
import Libks.Kws.ReadSafety

/-!
# Reading frames from any peer

Whatever bytes arrive and however the transport delivers them, a call of
`kws_read_frame` stays inside its two buffers, and its assertions hold, as long
as no sum of the length of a message and the length a frame declares leaves its
type (`Fits`): `readFrames_sound`. The invariant is `Sound`, which a pass keeps
where it goes around and where it leaves the call (`pass_sound`).
-/

namespace Libks

open Base

/-! ## What a header declares -/

/-- The length in the header at the start of `m`, as the code reads it. -/
def lengthField (m : Mem) : ℤ :=
  let len := (m 1).toNat % 128
  if len = 127 then toInt64 (ntoh64 (ofLe (m.read 2 8)))
  else if len = 126 then ntohs (ofLe (m.read 2 2))
  else len

/-- How many bytes the extended length in that header has. -/
def extendedSize (m : Mem) : ℕ :=
  let len := (m 1).toNat % 128
  if len = 127 then 8 else if len = 126 then 2 else 0

/-- How many bytes that header has. -/
def headerSize (m : Mem) : ℕ := (if 128 ≤ (m 1).toNat then 6 else 2) + extendedSize m

/-- How many bytes the length takes is read off the second byte of the header. -/
theorem extendedSize_congr {m m' : Mem} (h : m' 1 = m 1) : extendedSize m' = extendedSize m := by
  rw [extendedSize, extendedSize, h]

/-- The length is read off the header, and nothing else. -/
theorem lengthField_congr {m m' : Mem} (h : ∀ i < 2 + extendedSize m, m' i = m i) :
    lengthField m' = lengthField m := by
  have h1 : m' 1 = m 1 := h 1 (by omega)
  rw [extendedSize] at h
  rw [lengthField, lengthField, h1]
  by_cases h127 : (m 1).toNat % 128 = 127
  · rw [if_pos h127] at h
    rw [if_pos h127, if_pos h127, Mem.read_congr fun i _ hi => h i hi]
  by_cases h126 : (m 1).toNat % 128 = 126
  · rw [if_neg h127, if_pos h126] at h
    rw [if_neg h127, if_pos h126, if_neg h127, if_pos h126, Mem.read_congr fun i _ hi => h i hi]
  · rw [if_neg h127, if_neg h126, if_neg h127, if_neg h126]

/-- The length is an `ssize_t`. -/
theorem lengthField_lt (m : Mem) : lengthField m < 2 ^ 63 := by
  have := toInt64_lt (ntoh64 (ofLe (m.read 2 8)))
  have h16 : ntohs (ofLe (m.read 2 2)) < 256 ^ 2 := by
    have := ofLe_lt (leBytes 2 (ofLe (m.read 2 2))).reverse
    rwa [List.length_reverse, length_leBytes] at this
  rw [lengthField]
  split_ifs <;> omega

/-- The memory that holds `bs` from its start on. -/
def memOf (bs : List UInt8) : Mem := fun i => bs.getD i 0

namespace Kws

variable {k k' k₁ k₂ : Kws} {d n need l : ℕ}

/-- The sums of the pass to come do not leave their types: where the frame to
    be read has a payload and a complete header, the length of the message so far
    is an `int`, and with the length in the header it is an `ssize_t`. -/
def Fits (k : Kws) : Prop :=
  let m := memOf k.incoming
  Opcode.IsData (opcodeOf (m 0)) → headerSize m ≤ k.incoming.length →
    k.body < 2 ^ 31 ∧ (k.body : ℤ) + lengthField m < 2 ^ 63

/-! ## The invariant -/

/-- An established connection that is not closed, whose message has room in the
    body buffer, also for a terminator. -/
structure Roomy (k : Kws) : Prop extends Up k where
  buflen : 16 ≤ k.buflen
  room : k.body < k.bbuflen
  bbuflen : k.bbuflen < 2 ^ 63
  limit : 0 < k.payloadSizeMax ∧ k.payloadSizeMax < 2 ^ 63

/-- Such a connection between two frames. What is left over from the handshake is
    not at the start of the receive buffer, and once there is a message, it is
    behind the first reads of a header. -/
structure Sound (k : Kws) : Prop extends Roomy k where
  leftover : k.unprocessedBufferLen = 0 ∨
    1 ≤ k.unprocessedPosition ∧ (k.body = 0 ∨ 10 ≤ k.unprocessedPosition)

theorem Sound.start (h : k.Sound) : k.start.Sound :=
  ⟨⟨⟨h.sanity, h.established, h.handshake, h.down⟩, h.buflen,
    Nat.lt_of_le_of_lt (Nat.zero_le _) h.room, h.bbuflen, h.limit⟩,
    h.leftover.imp_right fun h => ⟨h.1, .inl rfl⟩⟩

/-- `k'` is `k` after a part of a pass that does not move `body`. -/
def Worked (k k' : Kws) : Prop :=
  ∃ d pl po rl, ReadFrom { k with datalen := d, plen := pl, payload := po, rplen := rl } k'

theorem Worked.refl (k : Kws) : k.Worked k := ⟨_, _, _, _, .refl k⟩

theorem ReadFrom.worked (h : k.ReadFrom k') : k.Worked k' := ⟨_, _, _, _, h⟩

theorem Worked.trans (h₁ : k.Worked k₁) (h₂ : k₁.Worked k₂) : k.Worked k₂ := by
  obtain ⟨_, _, _, _, _, _, _, _, _, _, _, rfl⟩ := h₁
  obtain ⟨d, pl, po, rl, m, mb, x, io, up, ul, rs, rfl⟩ := h₂
  exact ⟨d, pl, po, rl, m, mb, x, io, up, ul, rs, rfl⟩

theorem worked_of_fields (k : Kws) (d pl rl : ℤ) (po : ℕ) :
    k.Worked { k with datalen := d, plen := pl, payload := po, rplen := rl } :=
  ⟨_, _, _, _, .refl _⟩

/-- The frame at work leaves the sizes of the buffers alone. -/
theorem Roomy.worked (h : k.Roomy) (hw : k.Worked k') : k'.Roomy := by
  obtain ⟨_, _, _, _, _, _, _, _, _, _, _, rfl⟩ := hw
  exact ⟨⟨h.sanity, h.established, h.handshake, h.down⟩, h.buflen, h.room, h.bbuflen, h.limit⟩

theorem Worked.body (hw : k.Worked k') : k'.body = k.body := by
  obtain ⟨_, _, _, _, _, _, _, _, _, _, _, rfl⟩ := hw
  rfl

/-- A connection stays sound while it works on a frame. -/
theorem Sound.worked (h : k.Sound) (hw : k.Worked k') (hp : k.Past k' 0) : k'.Sound := by
  refine ⟨h.toRoomy.worked hw, ?_⟩
  rw [hw.body]
  rcases h.leftover with hu | ⟨h1, hb⟩
  · exact .inl (hp.empty hu)
  · exact hp.place.imp_right fun h' => ⟨by omega, hb.imp_right fun h => by omega⟩

/-- A pass does not fault; where it leaves the call, the connection is closed or
    as sound as before. -/
def Leaves : Exit → Prop
  | .fault _ => False
  | .ret _ k => k.down ≠ 0 ∨ k.Sound

/-- A connection that has been closed is left as it may be. -/
theorem leaves_closeWith {α : Type} {Q : α → Prop} (k : Kws) (reason : ℕ) (oc : Opcode)
    (data : Option Ptr) : Ends Leaves Q (k.closeWith reason oc data : Except Exit α) :=
  .inl (k.down_close reason)

theorem leaves_of_closed {α : Type} {e : Except Exit α} {Q : α → Prop} (h : Closed e) :
    Ends Leaves Q e := by
  obtain ⟨r, k, rfl, -, hd⟩ := h
  exact .inl hd

/-- Behind its first reads, a pass that leaves the call early has closed the connection,
    under the opcode of a close frame. -/
def Shut : Exit → Prop
  | .fault _ => False
  | .ret r k => r.oc = Opcode.close ∧ k.down ≠ 0

theorem shut_closeWith {α : Type} {Q : α → Prop} (k : Kws) (reason : ℕ) :
    Ends Shut Q (k.closeWith reason Opcode.close : Except Exit α) :=
  ⟨rfl, k.down_close reason⟩

theorem leaves_of_shut {x : Exit} (h : Shut x) : Leaves x := by
  cases x with
  | fault f => exact h.elim
  | ret r k => exact .inl h.2

/-- `k'` is `k` after such a part, with the bytes left over still out of the way
    and no more input than before. -/
structure Onward (k k' : Kws) : Prop where
  worked : k.Worked k'
  past : k.Past k' 0
  size : k'.inputSize ≤ k.inputSize

theorem Onward.refl (k : Kws) : k.Onward k := ⟨.refl k, .refl k, Nat.le_refl _⟩

theorem Onward.trans (h₁ : k.Onward k₁) (h₂ : k₁.Onward k₂) : k.Onward k₂ :=
  ⟨h₁.worked.trans h₂.worked, h₁.past.trans h₂.past, Nat.le_trans h₂.size h₁.size⟩

/-! ## The header -/

/-- The first reads leave the call under the opcode before it: the connection is closed, or
    has nothing to read yet. -/
def Pulls (k : Kws) (oc : Opcode) : Exit → Prop
  | .fault _ => False
  | .ret r k' => r.oc = oc ∧ (k'.down ≠ 0 ∨ k.Onward k')

theorem pulls_closeWith {α : Type} {Q : α → Prop} (k k₁ : Kws) (reason : ℕ) (oc : Opcode) :
    Ends (k.Pulls oc) Q (k₁.closeWith reason oc : Except Exit α) :=
  ⟨rfl, .inl (k₁.down_close reason)⟩

theorem Sound.leaves_of_pulls {oc : Opcode} {x : Exit} (h : k.Sound) (hx : k.Pulls oc x) :
    Leaves x := by
  cases x with
  | fault f => exact hx.elim
  | ret r k' => exact hx.2.imp_right fun hon => h.worked hon.worked hon.past

/-- The first reads of a pass get from two to nine bytes. -/
theorem pullHeader_spec (hbuf : 16 ≤ k.buflen) (oc : Opcode) :
    Ends (k.Pulls oc) (fun k₁ : Kws => ∃ d : ℕ, 2 ≤ d ∧ d ≤ 9 ∧ k₁.datalen = d ∧ k.Onward k₁ ∧
      k.Past k₁ 9 ∧ k₁.inputSize < k.inputSize ∧
      (k.unprocessedBufferLen = 0 ∨ 9 < k.unprocessedPosition → k.Took k₁ 0 d))
      (k.pullHeader oc) := by
  obtain ⟨read, k₁, hread, hfrom, hret, hpast, hle, hlt, htook⟩ :=
    stringRead_spec (q := .buffer 0) (n := 9) (show 0 + 10 ≤ k.buflen by omega) (by decide) k.block
  have hworked (d : ℤ) : k.Worked { k₁ with datalen := d } :=
    hfrom.worked.trans (worked_of_fields _ _ _ _ _)
  rw [pullHeader, hread]
  simp only [Exit.lift_ok, bind, Except.bind]
  by_cases hneg : read.ret < 0
  · rw [if_pos hneg]
    split_ifs
    · exact ⟨rfl, .inr ⟨hworked _, ⟨(hpast.mono (Nat.zero_le 9)).place, hpast.empty⟩, hle⟩⟩
    · exact pulls_closeWith _ _ _ _
  rw [if_neg hneg]
  obtain ⟨c, hc⟩ := Int.eq_ofNat_of_zero_le (Int.not_lt.1 hneg)
  have htook (hu : k.unprocessedBufferLen = 0 ∨ 9 < k.unprocessedPosition) : k.Took k₁ 0 c := by
    have ht := htook 0 rfl (by rwa [Nat.zero_add]) (by omega)
    rwa [hc, Int.toNat_natCast] at ht
  rw [hc] at hret hlt ⊢
  -- Fewer than two bytes have come: a second read goes on behind them.
  by_cases h2 : (c : ℤ) < 2
  · obtain ⟨read₂, k₂, hread₂, hfrom₂, hret₂, hpast₂, hle₂, hlt₂, htook₂⟩ :=
      stringRead_spec (k := { k₁ with datalen := (c : ℤ) }) (q := .buffer c) (n := 8 - c)
        (show c + (8 - c + 1) ≤ k₁.buflen by
          obtain ⟨_, _, _, _, _, _, _, rfl⟩ := hfrom
          show c + (8 - c + 1) ≤ k.buflen
          omega) (by omega) wsBlock
    have hd₂ : k₂.datalen = c := by
      obtain ⟨_, _, _, _, _, _, _, rfl⟩ := hfrom₂
      rfl
    rw [if_pos h2, Int.toNat_natCast, show (9 - (c : ℤ)).toNat = 8 - c + 1 by omega, hread₂]
    simp only [Exit.lift_ok, hd₂]
    by_cases hneg₂ : read₂.ret < 0
    · rw [if_pos hneg₂]
      exact pulls_closeWith _ _ _ _
    obtain ⟨c₂, hc₂⟩ := Int.eq_ofNat_of_zero_le (Int.not_lt.1 hneg₂)
    rw [if_neg hneg₂, hc₂]
    rw [hc₂] at hret₂ hlt₂
    by_cases h2' : (c : ℤ) + c₂ < 2
    · rw [if_pos h2']
      exact pulls_closeWith _ _ _ _
    rw [if_neg h2']
    have hpast' : k.Past { k₂ with datalen := (c : ℤ) + c₂ } (9 + (8 - c)) := by
      have hp₁ : k.Past { k₁ with datalen := (c : ℤ) } 9 := ⟨hpast.place, hpast.empty⟩
      have hp₂ := hp₁.trans hpast₂
      exact ⟨hp₂.place, hp₂.empty⟩
    have hlt' : k₂.inputSize < k.inputSize :=
      Nat.lt_of_lt_of_le (hlt₂ (by omega)) hle
    refine ⟨c + c₂, by omega, by omega, rfl, ⟨?_, hpast'.mono (Nat.zero_le _), Nat.le_of_lt hlt'⟩,
      hpast'.mono (by omega), hlt', fun hu => ?_⟩
    · exact ((hworked _).trans hfrom₂.worked).trans (worked_of_fields _ _ _ _ _)
    -- What is left over is still out of the way of the second read.
    · have ht := htook hu
      have hu₁ : k₁.unprocessedBufferLen = 0 ∨ c + (8 - c) < k₁.unprocessedPosition :=
        hu.elim (fun hu => .inl (hpast.empty hu)) fun hu => hpast.place.imp_right fun h' => by omega
      have ht₂ := htook₂ c rfl hu₁ (by omega)
      rw [hc₂, Int.toNat_natCast] at ht₂
      have ht₁ : k.Took { k₁ with datalen := (c : ℤ) } 0 c :=
        ⟨ht.length, ht.bytes, ht.frame, ht.rest, ht.other⟩
      have ht' := ht₁.trans (by rwa [Nat.zero_add])
      exact ⟨ht'.length, ht'.bytes, ht'.frame, ht'.rest, ht'.other⟩
  · rw [if_neg h2]
    have hlt' : k₁.inputSize < k.inputSize := hlt (by omega)
    refine ⟨c, by omega, by omega, rfl,
      ⟨hworked _, ⟨(hpast.mono (Nat.zero_le 9)).place, hpast.empty⟩, hle⟩,
      ⟨hpast.place, hpast.empty⟩, hlt', fun hu => ?_⟩
    have ht := htook hu
    exact ⟨ht.length, ht.bytes, ht.frame, ht.rest, ht.other⟩

/-- The header is read up to `need` bytes, and what is taken comes off the front of the input. -/
theorem topUp_spec (hbuf : 16 ≤ k.buflen) (hd : k.datalen = d) (hn : need ≤ 14) :
    Ends Shut (fun k₁ : Kws => k₁.datalen = (max d need : ℕ) ∧ k.Onward k₁ ∧
      (k.unprocessedBufferLen = 0 ∨ need < k.unprocessedPosition → k.Took k₁ d (max d need - d)))
      (k.topUp need) := by
  by_cases hlt : d < need
  · obtain ⟨c, k₁, hread, hfrom, hc, hpast, hle, htook⟩ :=
      stringReadBlocking_spec (k := k) (q := .buffer d) (n := need - d)
        (show d + (need - d + 1) ≤ k.buflen by omega) (by omega) 10
    have hd₁ : k₁.datalen = d := by
      obtain ⟨_, _, _, _, _, _, _, rfl⟩ := hfrom
      exact hd
    rw [topUp, hd, if_pos (by omega), Int.toNat_natCast,
      show ((need : ℤ) - d + 1).toNat = need - d + 1 by omega, hread]
    simp only [Exit.lift_ok, bind, Except.bind, hd₁]
    rw [if_neg (by omega)]
    by_cases hshort : (d : ℤ) + c < need
    · rw [if_pos hshort]
      exact shut_closeWith _ _
    · rw [if_neg hshort]
      refine ⟨show (d : ℤ) + c = _ by omega,
        ⟨hfrom.worked.trans (worked_of_fields _ _ _ _ _), ⟨hpast.place, hpast.empty⟩, hle⟩,
        fun hu => ?_⟩
      have ht := htook d rfl (by rwa [Nat.add_sub_cancel' (Nat.le_of_lt hlt)]) (by omega)
      rw [Nat.max_eq_right (Nat.le_of_lt hlt)]
      exact ⟨ht.length, ht.bytes, ht.frame, ht.rest, ht.other⟩
  · rw [topUp_of_le (show (need : ℤ) ≤ k.datalen by omega)]
    refine ⟨show k.datalen = _ by omega, .refl k, fun _ => ?_⟩
    rw [Nat.max_eq_left (by omega), Nat.sub_self]
    exact .refl k d

/-- The length field has been read behind `need` bytes: the header has `n` bytes
    so far, and the buffer `e` of them and of the payload. -/
structure LengthRead (k k' : Kws) (d e need n : ℕ) : Prop where
  onward : k.Onward k'
  datalen : k'.datalen = e
  held : d ≤ e ∧ n ≤ e ∧ e ≤ 14
  /-- Where a length may be negative, the buffer holds nothing of the payload. -/
  sign : 0 ≤ k'.plen ∨ e = n
  range : -2 ^ 63 ≤ k'.plen ∧ k'.plen < 2 ^ 63
  took : k.unprocessedBufferLen = 0 ∨ 14 < k.unprocessedPosition → k.Took k' d (e - d) ∧
    k'.plen = lengthField k'.buffer ∧ n = need + extendedSize k'.buffer

/-- The extended length, for a header that has at most 14 bytes. -/
theorem readLength_spec (hbuf : 16 ≤ k.buflen) (hd : k.datalen = d) (hneed : need = 2 ∨ need = 6)
    (hle : need ≤ d) (hd9 : d ≤ 9) :
    Ends Shut (fun p : ℕ × Kws => ∃ e, k.LengthRead p.2 d e need p.1) (k.readLength need) := by
  have hbyte {k₁ : Kws} {c : ℕ} (ht : k.Took k₁ d c) : k₁.buffer 1 = k.buffer 1 :=
    ht.frame 1 (by omega)
  rw [readLength]
  by_cases h127 : (k.buffer 1).toNat % 128 = 127
  · simp only [if_pos h127]
    refine (topUp_spec hbuf hd (by omega)).bind ?_
    rintro k₁ ⟨hd₁, hon, htook⟩
    rw [Nat.max_eq_right (by omega)] at hd₁ htook
    have hrange := le_toInt64 (ntoh64 (ofLe (k₁.buffer.read 2 8)))
    have hrange' := toInt64_lt (ntoh64 (ofLe (k₁.buffer.read 2 8)))
    refine ⟨need + 8, ⟨hon.worked.trans (worked_of_fields _ _ _ _ _), ⟨hon.past.place, hon.past.empty⟩,
      hon.size⟩, hd₁, ⟨by omega, Nat.le_refl _, by omega⟩, .inr rfl,
      ⟨by dsimp only; exact hrange, by dsimp only; exact hrange'⟩, fun hu => ?_⟩
    have ht := htook (hu.imp_right fun h => by omega)
    refine ⟨⟨ht.length, ht.bytes, ht.frame, ht.rest, ht.other⟩, ?_, ?_⟩
    · dsimp only
      rw [lengthField, hbyte ht, if_pos h127]
    · dsimp only
      rw [extendedSize, hbyte ht, if_pos h127]
  by_cases h126 : (k.buffer 1).toNat % 128 = 126
  · simp only [if_neg h127, if_pos h126]
    refine (topUp_spec hbuf hd (by omega)).bind ?_
    rintro k₁ ⟨hd₁, hon, htook⟩
    have hrange : ntohs (ofLe (k₁.buffer.read 2 2)) < 2 ^ 16 := by
      have := ofLe_lt (leBytes 2 (ofLe (k₁.buffer.read 2 2))).reverse
      rwa [List.length_reverse, length_leBytes] at this
    refine ⟨max d (need + 2), ⟨hon.worked.trans (worked_of_fields _ _ _ _ _),
      ⟨hon.past.place, hon.past.empty⟩, hon.size⟩, hd₁, ⟨by omega, Nat.le_max_right _ _, by omega⟩,
      .inl (Int.natCast_nonneg _), ⟨by dsimp only; omega, by dsimp only; omega⟩, fun hu => ?_⟩
    have ht := htook (hu.imp_right fun h => by omega)
    refine ⟨⟨ht.length, ht.bytes, ht.frame, ht.rest, ht.other⟩, ?_, ?_⟩
    · dsimp only
      rw [lengthField, hbyte ht, if_neg h127, if_pos h126]
    · dsimp only
      rw [extendedSize, hbyte ht, if_neg h127, if_pos h126]
  · simp only [if_neg h127, if_neg h126]
    have ht : k.Took k d 0 := .refl k d
    refine ⟨d, ⟨worked_of_fields _ _ _ _ _, ⟨(Past.refl k).place, id⟩, Nat.le_refl _⟩, hd,
      ⟨Nat.le_refl _, hle, by omega⟩, .inl (Int.natCast_nonneg _),
      ⟨by dsimp only; omega, by dsimp only; omega⟩, fun hu => ?_⟩
    rw [Nat.sub_self]
    refine ⟨⟨ht.length, ht.bytes, ht.frame, ht.rest, ht.other⟩, ?_, ?_⟩
    · dsimp only
      rw [lengthField, if_neg h127, if_neg h126]
    · dsimp only
      rw [extendedSize, if_neg h127, if_neg h126, Nat.add_zero]

/-- The header has been read: it has `n` bytes, of the `e` in the buffer. -/
structure HeaderRead (k k' : Kws) (d e n : ℕ) : Prop where
  onward : k.Onward k'
  datalen : k'.datalen = e
  held : n ≤ e ∧ e ≤ 14
  sign : 0 ≤ k'.plen ∨ e = n
  range : -2 ^ 63 ≤ k'.plen ∧ k'.plen < 2 ^ 63
  took : k.unprocessedBufferLen = 0 ∨ 14 < k.unprocessedPosition → d ≤ e ∧ k.Took k' d (e - d) ∧
    k'.plen = lengthField k'.buffer ∧ n = headerSize k'.buffer

/-- The whole header fits into the receive buffer. -/
theorem readHeader_spec (hbuf : 16 ≤ k.buflen) (hd : k.datalen = d) (h2 : 2 ≤ d) (hd9 : d ≤ 9) :
    Ends Shut (fun p : ℕ × Option ℕ × Kws => ∃ e, k.HeaderRead p.2.2 d e p.1) k.readHeader := by
  have hlength {k₁ k₂ : Kws} {c need n e : ℕ} (hon : k.Onward k₁) (hr : k₁.LengthRead k₂ c e need n)
      (hc : c ≤ 9) (hdc : d ≤ c) (hneed : need = if 128 ≤ (k.buffer 1).toNat then 6 else 2)
      (ht₁ : k.unprocessedBufferLen = 0 ∨ 14 < k.unprocessedPosition → k.Took k₁ d (c - d)) (po : ℕ) :
      k.HeaderRead { k₂ with payload := po } d e n := by
    obtain ⟨hon₂, hd₂, ⟨hce, hne, he⟩, hsign, hrange, htook⟩ := hr
    have hon' := hon.trans hon₂
    refine ⟨⟨hon'.worked.trans (worked_of_fields _ _ _ _ _), ⟨hon'.past.place, hon'.past.empty⟩,
      hon'.size⟩, hd₂, ⟨hne, he⟩, hsign, hrange, fun hu => ?_⟩
    have hu₁ : k₁.unprocessedBufferLen = 0 ∨ 14 < k₁.unprocessedPosition :=
      hu.elim (fun hu => .inl (hon.past.empty hu)) fun hu => hon.past.place.imp_right fun h => by omega
    obtain ⟨ht₂, hplen, hn⟩ := htook hu₁
    have ht := (ht₁ hu).trans (by rwa [Nat.add_sub_cancel' hdc] : k₁.Took k₂ (d + (c - d)) (e - c))
    rw [show c - d + (e - c) = e - d by omega] at ht
    refine ⟨by omega, ⟨ht.length, ht.bytes, ht.frame, ht.rest, ht.other⟩, hplen, ?_⟩
    dsimp only
    rw [headerSize, hn, hneed, ht.frame 1 (by omega)]
  rw [readHeader]
  by_cases hmask : 128 ≤ (k.buffer 1).toNat
  · simp only [hmask, decide_true, if_true]
    refine (topUp_spec hbuf hd (show 6 ≤ 14 by omega)).bind ?_
    rintro k₁ ⟨hd₁, hon, htook⟩
    have hbuf₁ : 16 ≤ k₁.buflen := by
      obtain ⟨_, _, _, _, _, _, _, _, _, _, _, rfl⟩ := hon.worked
      exact hbuf
    refine (readLength_spec hbuf₁ hd₁ (.inr rfl) (Nat.le_max_right _ _) (by omega)).bind
      ?_
    rintro ⟨n, k₂⟩ ⟨e, hr⟩
    refine ⟨e, ?_⟩
    exact hlength hon hr (by omega) (Nat.le_max_left _ _) (by rw [if_pos hmask])
      (fun hu => htook (hu.imp_right fun h => by omega)) _
  · simp only [hmask, decide_false, Bool.false_eq_true, if_false]
    refine (readLength_spec hbuf hd (.inl rfl) h2 hd9).bind ?_
    rintro ⟨n, k₂⟩ ⟨e, hr⟩
    refine ⟨e, ?_⟩
    refine hlength (.refl k) hr hd9 (Nat.le_refl _) (by rw [if_neg hmask]) (fun _ => ?_) k₂.payload
    rw [Nat.sub_self]
    exact .refl k d

/-! ## The payload -/

theorem readPayload_spec {f : ℕ} (hfuel : need ≤ f) (hrp : k.rplen = (l : ℕ))
    (hroom : k.body + l + need < k.bbuflen) :
    Ends Shut (fun k₁ : Kws => k.Onward k₁ ∧ k₁.rplen = (l + need : ℕ) ∧ k₁.plen = k.plen)
      (readPayload f k need) := by
  induction f generalizing k need l with
  | zero =>
    obtain rfl : need = 0 := by omega
    rw [readPayload, if_pos rfl]
    exact ⟨.refl k, hrp, rfl⟩
  | succ f ih =>
    by_cases h0 : need = 0
    · subst h0
      rw [readPayload, if_pos rfl]
      exact ⟨.refl k, hrp, rfl⟩
    obtain ⟨read, k₁, hread, hfrom, hret, hpast, hle, hlt, -⟩ :=
      stringRead_spec (k := k) (q := .bbuffer (k.body + l)) (n := need)
        (show k.body + l + (need + 1) ≤ k.bbuflen by omega) (Nat.pos_of_ne_zero h0) wsBlock
    rw [readPayload_step hrp h0 hread]
    by_cases hpos : read.ret < 1
    · rw [if_pos hpos]
      exact shut_closeWith _ _
    obtain ⟨r, hr⟩ := Int.eq_ofNat_of_zero_le (show 0 ≤ read.ret by omega)
    rw [if_neg hpos, hr, Int.toNat_natCast]
    rw [hr] at hret
    have hon₁ : k.Onward { k₁ with datalen := k₁.datalen + r, rplen := k₁.rplen + r } :=
      ⟨hfrom.worked.trans (worked_of_fields _ _ _ _ _),
        ⟨(hpast.mono (Nat.zero_le _)).place, hpast.empty⟩, hle⟩
    have hsame : k₁.body = k.body ∧ k₁.bbuflen = k.bbuflen ∧ k₁.rplen = k.rplen ∧
        k₁.plen = k.plen := by
      obtain ⟨_, _, _, _, _, _, _, rfl⟩ := hfrom
      exact ⟨rfl, rfl, rfl, rfl⟩
    obtain ⟨hbody, hbbuflen, hrplen, hplen⟩ := hsame
    have hloop := ih (k := { k₁ with datalen := k₁.datalen + r, rplen := k₁.rplen + r })
      (l := l + r) (show need - r ≤ f by omega) (by dsimp only; omega) (by dsimp only; omega)
    refine hloop.imp ?_
    rintro k₂ ⟨hon₂, hrp₂, hpl⟩
    exact ⟨hon₁.trans hon₂, by rw [hrp₂]; omega, hpl.trans hplen⟩

/-- The payload is unmasked in place. -/
theorem unmask_spec (hpl : k.plen = n) (hroom : k.body + n < k.bbuflen) (maskp : Option ℕ) :
    ∃ m, k.unmask maskp = .ok { k with bbuffer := m } := by
  cases maskp with
  | none => exact ⟨k.bbuffer, rfl⟩
  | some mp =>
    have hlen : k.Room (.bbuffer k.body) (maskBytes (fun i => k.buffer (mp + i))
        (k.bbuffer.read k.body k.plen.toNat)).length := by
      rw [maskBytes, List.length_mapIdx, Mem.length_read, hpl, Int.toNat_natCast]
      exact Nat.le_of_lt hroom
    rw [unmask, store_of_room hlen]
    exact ⟨_, rfl⟩

/-- Room for the payload is made, or the connection closed. -/
theorem makeRoom_spec (h : k.Roomy) (hpl : k.plen = n) (hb : k.body < 2 ^ 31)
    (hn : k.body + n < 2 ^ 63) :
    Ends Leaves (fun k₁ : Kws => ∃ b, k₁ = { k with bbuflen := b } ∧ k.body + n < b ∧ b < 2 ^ 63)
      k.makeRoom := by
  by_cases hbig : k.TooBig n
  · exact leaves_of_closed (makeRoom_tooBig hpl hb hn hbig)
  obtain ⟨b, hlt, hor, hroom⟩ := makeRoom_ok hpl hb hn hbig
  refine .of_ok hroom ⟨b, rfl, hlt, ?_⟩
  rcases hor with rfl | ⟨-, hmax⟩
  · exact h.bbuflen
  · have hlim := h.limit
    have hu : (toUInt64 k.payloadSizeMax : ℤ) = k.payloadSizeMax := by
      rw [toUInt64]
      omega
    by_contra hge
    exact hmax ⟨by omega, by omega⟩

/-- The payload is stored in the body buffer, or the connection closed. -/
theorem readBody_spec {e : ℕ} (h : k.Roomy) (hd : k.datalen = e) (hheld : n ≤ e ∧ e ≤ 14)
    (hsign : 0 ≤ k.plen ∨ e = n) (hrange : -2 ^ 63 ≤ k.plen)
    (hroom : 0 ≤ k.plen → k.body < 2 ^ 31 ∧ (k.body : ℤ) + k.plen < 2 ^ 63) (oc : Opcode)
    (maskp : Option ℕ) :
    Ends Leaves (fun k' : Kws => k'.Roomy ∧ k.Past k' 0 ∧ k'.inputSize ≤ k.inputSize)
      (k.readBody oc n maskp) := by
  obtain ⟨need, hneed⟩ : ∃ need, k.plen - (k.datalen - n) = need := ⟨_, rfl⟩
  rw [readBody, hneed, if_neg (by omega)]
  by_cases hneg : need < 0
  · rw [if_pos hneg]
    exact leaves_closeWith _ _ _ _
  rw [if_neg hneg]
  obtain ⟨len, hlen⟩ := Int.eq_ofNat_of_zero_le (show 0 ≤ k.plen by omega)
  obtain ⟨hb, hsum⟩ := hroom (by omega)
  rw [hlen] at hsum
  refine (makeRoom_spec h hlen hb (by omega)).bind ?_
  rintro k₁ ⟨b, hk₁, hlt, hb63⟩
  subst hk₁
  have hcopy := copyHeld_ok (k := { k with bbuflen := b }) hlen (show e - n ≤ len by omega) hlt
  rw [show ((len : ℕ) : ℤ) - (e - n : ℕ) = need by omega] at hcopy
  rw [hcopy]
  refine ((readPayload_spec (l := e - n) (Nat.le_refl _) rfl
    (show k.body + (e - n) + need.toNat < b by omega)).mono (fun _ => leaves_of_shut)
      fun _ => id).bind ?_
  rintro k₂ ⟨hon, hrp, hpl⟩
  obtain ⟨hw, hpast, hsize⟩ := hon
  obtain ⟨_, _, _, _, m, mb, x, io, up, ul, rs, rfl⟩ := hw
  have hrp' : (e - n + need.toNat : ℕ) = len := by omega
  rw [hrp'] at hrp
  obtain ⟨mb', hmask⟩ := unmask_spec (hpl.trans hlen) hlt maskp
  refine .of_ok (finishFrame_eq hrp hmask hlt) ⟨?_, ⟨hpast.place, hpast.empty⟩, hsize⟩
  exact ⟨⟨h.sanity, h.established, h.handshake, h.down⟩, h.buflen, hlt, hb63, h.limit⟩

/-! ## One pass -/

theorem Drew.memOf {c i : ℕ} (h : k.Took k' 0 c) (hi : i < c) : k'.buffer i = memOf k.incoming i := by
  have hlen := h.length
  have hread := Mem.getElem?_read k'.buffer 0 c hi
  rw [h.bytes, Nat.zero_add, List.getElem?_take_of_lt hi] at hread
  rw [Libks.memOf, List.getD_eq_getElem?_getD, hread, Option.getD_some]

/-- The sums of a pass over the header of a frame with a payload. -/
theorem Fits.sums {e : ℕ} (hfits : k.Fits) (h : k.Sound) (hon : k.Onward k₁) (hpast : k.Past k₁ 9)
    (h2 : 2 ≤ d)
    (htook : k.unprocessedBufferLen = 0 ∨ 9 < k.unprocessedPosition → k.Took k₁ 0 d)
    (hdata : Opcode.IsData (opcodeOf (k₁.buffer 0))) (hr : k₁.HeaderRead k₂ d e n) :
    k₂.body < 2 ^ 31 ∧ (k₂.body : ℤ) + k₂.plen < 2 ^ 63 := by
  rw [hr.onward.worked.body, hon.worked.body]
  by_cases h0 : k.body = 0
  · rw [h0]
    exact ⟨Nat.two_pow_pos 31, by have := hr.range.2; omega⟩
  -- The message has begun: what is left over is behind the header.
  have hu : k.unprocessedBufferLen = 0 ∨ 9 < k.unprocessedPosition :=
    h.leftover.imp_right fun h => by have := h.2.resolve_left h0; omega
  have hu₁ : k₁.unprocessedBufferLen = 0 ∨ 14 < k₁.unprocessedPosition :=
    hu.elim (fun hu => .inl (hpast.empty hu)) fun hu => hpast.place.imp_right fun h => by omega
  obtain ⟨hde, ht₂, hplen, hn⟩ := hr.took hu₁
  have ht := (htook hu).trans (by rwa [Nat.zero_add] : k₁.Took k₂ (0 + d) (e - d))
  rw [Nat.add_sub_cancel' hde] at ht
  have hheld := hr.held
  have hmem (i : ℕ) (hi : i < e) : memOf k.incoming i = k₂.buffer i := (ht.memOf hi).symm
  have hext : 2 + extendedSize k₂.buffer ≤ n := by
    rw [hn, headerSize]
    split_ifs <;> omega
  have hsize : headerSize (memOf k.incoming) = n := by
    have h1 := hmem 1 (by omega)
    rw [headerSize, h1, extendedSize_congr h1, hn, headerSize]
  have hfield : lengthField (memOf k.incoming) = k₂.plen :=
    (lengthField_congr fun i hi => hmem i (by omega)).trans hplen.symm
  have hsums := hfits (by rwa [← (htook hu).memOf (by omega)])
    (by have := ht.length; omega)
  rwa [hfield] at hsums

/-- A data frame whose length fits does not fault, and leaves room for the next. -/
theorem readDataFrame_spec (h : k.Sound) (hfits : k.Fits) (hon : k.Onward k₁) (hpast : k.Past k₁ 9)
    (hd : k₁.datalen = d) (h2 : 2 ≤ d) (hd9 : d ≤ 9)
    (htook : k.unprocessedBufferLen = 0 ∨ 9 < k.unprocessedPosition → k.Took k₁ 0 d)
    (hdata : Opcode.IsData (opcodeOf (k₁.buffer 0))) (oc : Opcode) :
    Ends Leaves (fun k' : Kws => k'.Roomy ∧ k₁.Past k' 0 ∧ k'.inputSize ≤ k₁.inputSize)
      (k₁.readDataFrame oc) := by
  have hk₁ := h.toRoomy.worked hon.worked
  refine ((readHeader_spec hk₁.buflen hd h2 hd9).mono (fun _ => leaves_of_shut)
    fun _ => id).bind ?_
  rintro ⟨n, maskp, k₂⟩ ⟨e, hr⟩
  have hspec := readBody_spec (hk₁.worked hr.onward.worked) hr.datalen hr.held hr.sign hr.range.1
    (fun _ => hfits.sums h hon hpast h2 htook hdata hr) oc maskp
  refine hspec.imp ?_
  rintro k' ⟨hk', hpast', hsize⟩
  refine ⟨hk', hr.onward.past.trans hpast', ?_⟩
  exact Nat.le_trans hsize hr.onward.size

/-- A pass neither faults nor loses the invariant. -/
theorem pass_sound (h : k.Sound) (hfits : k.Fits) (frag : Bool) (oc : Opcode) :
    Ends Leaves (fun p : Bool × Opcode × Kws => p.2.2.Sound ∧ p.2.2.inputSize < k.inputSize)
      (k.pass frag oc) := by
  rw [pass, h.toUp.enter]
  refine ((pullHeader_spec h.buflen oc).mono (fun _ => h.leaves_of_pulls) fun _ => id).bind ?_
  rintro k₁ ⟨d, h2, hd9, hd, hon, hpast, hlt, htook⟩
  by_cases hclose : opcodeOf (k₁.buffer 0) = Opcode.close
  · simp only [hclose, if_true]
    exact leaves_closeWith _ _ _ _
  by_cases hdata : Opcode.IsData (opcodeOf (k₁.buffer 0))
  · simp only [if_neg hclose, if_pos hdata]
    refine (readDataFrame_spec h hfits hon hpast hd h2 hd9 htook hdata _).bind
      ?_
    rintro k₃ ⟨hk₃, hpast₃, hsize⟩
    have hsound : k₃.Sound := by
      refine ⟨hk₃, ?_⟩
      have hpast' := hpast.trans hpast₃
      rcases h.leftover with hu | ⟨h1, -⟩
      · exact .inl (hpast'.empty hu)
      · exact hpast'.place.imp_right fun h' => ⟨by omega, .inr (by omega)⟩
    split_ifs
    · exact ⟨hsound, Nat.lt_of_le_of_lt hsize hlt⟩
    · exact .inr hsound
  · simp only [if_neg hclose, if_neg hdata]
    exact leaves_closeWith _ _ _ _

/-! ## A run of calls -/

/-- The states in which a pass starts, in calls from `k₀` on: at the start of a
    call, and where the pass before has gone around. -/
inductive Before (k₀ : Kws) : Kws → Bool → Opcode → Prop
  | first : Before k₀ k₀.start false Opcode.invalid
  | again {k k' : Kws} {frag frag' : Bool} {oc oc' : Opcode} (h : Before k₀ k frag oc)
      (hpass : k.pass frag oc = .ok (frag', oc', k')) : Before k₀ k' frag' oc'
  | next {k k' : Kws} {frag : Bool} {oc : Opcode} {r : FrameResult} (h : Before k₀ k frag oc)
      (hpass : k.pass frag oc = .error (.ret r k')) : Before k₀ k'.start false Opcode.invalid

variable {k₀ : Kws}

/-- The loop ends, and leaves the connection closed or sound. -/
theorem againLoop_sound (hfits : ∀ k frag oc, Before k₀ k frag oc → k.Fits) {fuel : ℕ}
    {frag : Bool} {oc : Opcode} (hk : Before k₀ k frag oc) (hsound : k.down ≠ 0 ∨ k.Sound)
    (hfuel : k.inputSize ≤ fuel) :
    ∃ r k', againLoop fuel k frag oc = .ok (r, k') ∧ (k'.down ≠ 0 ∨ k'.Sound) ∧
      Before k₀ k'.start false Opcode.invalid := by
  induction fuel generalizing k frag oc with
  | zero => exact absurd hfuel (by rw [inputSize]; omega)
  | succ fuel ih =>
    have hpass : Ends Leaves
        (fun p : Bool × Opcode × Kws => p.2.2.Sound ∧ p.2.2.inputSize < k.inputSize)
        (k.pass frag oc) := by
      rcases hsound with hdown | hsound
      · exact leaves_of_closed ((enter_down hdown oc).bind _)
      · exact pass_sound hsound (hfits k frag oc hk) frag oc
    rw [againLoop]
    cases hp : k.pass frag oc with
    | error x =>
      rw [hp] at hpass
      cases x with
      | fault f => exact hpass.elim
      | ret r k' => exact ⟨r, k', rfl, hpass, .next hk hp⟩
    | ok p =>
      rw [hp] at hpass
      obtain ⟨frag', oc', k'⟩ := p
      obtain ⟨hsound', hlt⟩ : k'.Sound ∧ k'.inputSize < k.inputSize := hpass
      exact ih (.again hk hp) (.inr hsound') (by omega)

/-- Calls do not fault as long as every pass fits: induction on the number of calls, with a
    sound connection as the invariant. -/
theorem readFrames_before (hfits : ∀ k frag oc, Before k₀ k frag oc → k.Fits)
    (hk : Before k₀ k.start false Opcode.invalid) (hsound : k.down ≠ 0 ∨ k.Sound) :
    ∃ ds k', k.readFrames n = .ok (ds, k') := by
  induction n generalizing k with
  | zero => exact ⟨[], k, rfl⟩
  | succ n ih =>
    obtain ⟨r, k₁, hrun, hsound₁, hk₁⟩ := againLoop_sound hfits hk
      (hsound.imp id Sound.start) (Nat.le_refl _)
    obtain ⟨ds, k', hds⟩ := ih hk₁ hsound₁
    have hread : k.readFrame = .ok (r, k₁) := hrun
    exact ⟨k₁.delivery r :: ds, k', by rw [readFrames, hread]; simp only [bind, Except.bind, hds]; rfl⟩

/-- No number of calls faults, whatever the peer sends and however it arrives, as
    long as the sums of every pass stay in their types. -/
theorem readFrames_sound (hk : k₀.Sound) (hfits : ∀ k frag oc, Before k₀ k frag oc → k.Fits) (n : ℕ) :
    ∃ ds k', k₀.readFrames n = .ok (ds, k') :=
  readFrames_before hfits .first (.inr hk)

theorem fits_of_body (h : k.body = 0) : k.Fits := by
  intro _ _
  have hlt := lengthField_lt (memOf k.incoming)
  rw [h]
  exact ⟨Nat.two_pow_pos 31, by omega⟩

instance (k : Kws) : Decidable k.Fits := inferInstanceAs (Decidable (_ → _ → _ ∧ _))

/-- An established connection with a limit for messages. -/
def limited (reads : List ReadEvent) : Kws := { established reads with payloadSizeMax := 1000 }

theorem sound_limited (reads : List ReadEvent) : (limited reads).Sound :=
  ⟨⟨⟨Nat.succ_ne_zero 4999, rfl, rfl, rfl⟩, (by decide : 16 ≤ 65536), Nat.succ_pos 65535,
    (by decide : 65536 < 2 ^ 63), (by decide : (0 : ℤ) < 1000 ∧ (1000 : ℤ) < 2 ^ 63)⟩, .inl rfl⟩

/-- A fragment, and a continuation that declares a length over the limit: the
    second pass closes the connection. -/
theorem readFrames_sound_limited :
    ∃ ds k', (limited [.data [0x01, 1, 65],
        .data [0x80, 0x7f, 0x7f, 0, 0, 0, 0, 0, 0, 0]]).readFrames 2 = .ok (ds, k') := by
  refine readFrames_sound (sound_limited _) (fun k frag oc hk => ?_) 2
  generalize hs : limited _ = s at hk
  obtain ⟨k₁, hpass₁, hfits₁, r₂, k₂, hpass₂, hdown₂⟩ : ∃ k₁,
      s.start.pass false Opcode.invalid = .ok (true, Opcode.text, k₁) ∧ k₁.Fits ∧
      ∃ r₂ k₂, k₁.pass true Opcode.text = .error (.ret r₂ k₂) ∧ k₂.down ≠ 0 := by
    rw [← hs]
    exact ⟨_, rfl, by decide +kernel, _, _, rfl, by decide +kernel⟩
  have hstates : (k = s.start ∧ frag = false ∧ oc = Opcode.invalid) ∨
      (k = k₁ ∧ frag = true ∧ oc = Opcode.text) ∨ (k.down ≠ 0 ∧ k.body = 0) := by
    induction hk with
    | first => exact .inl ⟨rfl, rfl, rfl⟩
    | again _ hpass ih =>
      rcases ih with ⟨rfl, rfl, rfl⟩ | ⟨rfl, rfl, rfl⟩ | ⟨hdown, -⟩
      · rw [hpass₁] at hpass
        cases hpass
        exact .inr (.inl ⟨rfl, rfl, rfl⟩)
      · rw [hpass₂] at hpass
        cases hpass
      · obtain ⟨r, k', hclosed, -⟩ := (enter_down hdown _).bind _
        cases hclosed.symm.trans hpass
    | next _ hpass ih =>
      refine .inr (.inr ⟨?_, rfl⟩)
      rcases ih with ⟨rfl, rfl, rfl⟩ | ⟨rfl, rfl, rfl⟩ | ⟨hdown, -⟩
      · rw [hpass₁] at hpass
        cases hpass
      · rw [hpass₂] at hpass
        cases hpass
        exact hdown₂
      · obtain ⟨r, k', hclosed, -, hdown'⟩ := (enter_down hdown _).bind _
        cases hclosed.symm.trans hpass
        exact hdown'
  rcases hstates with ⟨rfl, -⟩ | ⟨rfl, -⟩ | ⟨-, hbody⟩
  · exact fits_of_body rfl
  · exact hfits₁
  · exact fits_of_body hbody

/-- The same fragment, and a continuation whose length makes the sum with it
    overflow. -/
theorem readFrames_overflow :
    let k := limited [.data [0x01, 1, 65],
      .data [0x80, 0x7f, 0x7f, 0xff, 0xff, 0xff, 0xff, 0xff, 0xff, 0xff]]
    k.Sound ∧ ¬∃ ds k', k.readFrames 1 = .ok (ds, k') := by
  refine ⟨sound_limited _, ?_⟩
  rintro ⟨ds, h⟩
  have hrun : ((limited [.data [0x01, 1, 65], .data [0x80, 0x7f, 0x7f, 0xff, 0xff, 0xff, 0xff,
    0xff, 0xff, 0xff]]).readFrames 1).map Prod.fst = .error .overflow := by decide +kernel
  refine readFrames_ne ?_ h
  rw [hrun]
  exact nofun

end Kws

end Libks
