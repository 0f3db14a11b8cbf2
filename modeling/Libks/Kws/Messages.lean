import Libks.Kws.Certificate
import Libks.Kws.Fragments
import Libks.Kws.SizeLimit

/-!
# What a call reports as a message

`kws_read_frame` says by its result that a message has arrived: a length, an opcode
of a data frame, and the bytes. A failure in its loop is told apart by the opcode of
a close frame, except where the first reads of a pass fail: they end the call with
the opcode of the frame before. So a stream that ends between two fragments is
reported as an empty message. In a run in which every pass finds what it relies on
(`Regular`), whatever is reported is a message (`reported_run`). The invariant is
`Gathered`: the body holds the payloads of the frames the call has read so far.
-/

namespace Libks

open Base Rfc6455

/-! ## A frame in the stream -/

/-- The bytes of a frame with the reserved bits cleared, which the code does not look at. -/
def unreserved : List UInt8 → List UInt8
  | [] => []
  | b :: bs => UInt8.ofNat (b.toNat / 128 * 128 + b.toNat % 16) :: bs

theorem toNat_unreserved (b : UInt8) :
    (UInt8.ofNat (b.toNat / 128 * 128 + b.toNat % 16)).toNat = b.toNat / 128 * 128 + b.toNat % 16 := by
  have := b.toNat_lt
  rw [UInt8.toNat_ofNat']
  exact Nat.mod_eq_of_lt (by omega)

/-- The key of the frame whose header is at the start of `m`. -/
def keyField (m : Mem) : Option Key :=
  if 128 ≤ (m 1).toNat then some fun i : Fin 4 => m (headerSize m - 4 + i) else none

/-- The length field, where the bytes behind the first two are `t`. -/
theorem decodeLength_field {m : Mem} {t : List UInt8} {l : ℕ}
    (ht : m.read 2 (extendedSize m) = t.take (extendedSize m)) (hle : extendedSize m ≤ t.length)
    (hl : lengthField m = l) :
    ∃ form, decodeLength ((m 1).toNat % 128) t = some (form, l, t.drop (extendedSize m)) := by
  have hswap (k : ℕ) (hk : k ≤ t.length) : bswap k (ofLe (t.take k)) = ofLe (t.take k).reverse := by
    have h := bswap_ofLe (t.take k)
    rwa [List.length_take, Nat.min_eq_left hk] at h
  rw [extendedSize] at ht hle ⊢
  rw [lengthField] at hl
  rw [decodeLength]
  by_cases h127 : (m 1).toNat % 128 = 127
  · simp only [h127, if_true] at ht hle hl ⊢
    have hlt : ofLe (t.take 8).reverse < 256 ^ 8 := by
      have h := ofLe_lt (t.take 8).reverse
      rwa [List.length_reverse, List.length_take, Nat.min_eq_left hle] at h
    rw [ht, ntoh64, hswap 8 hle] at hl
    have hval : ofLe (t.take 8).reverse < 2 ^ 63 ∧ ofLe (t.take 8).reverse = l := by
      by_cases h63 : ofLe (t.take 8).reverse < 2 ^ 63
      · rw [toInt64_of_lt h63] at hl
        exact ⟨h63, Int.ofNat.inj hl⟩
      · rw [toInt64_neg_of_le (Nat.le_of_not_lt h63) hlt] at hl
        omega
    rw [if_neg (by decide), if_neg (by decide), split_of_le hle]
    simp only [Option.bind_eq_bind, Option.bind_some]
    rw [if_pos hval.1, hval.2]
    exact ⟨_, rfl⟩
  by_cases h126 : (m 1).toNat % 128 = 126
  · simp only [h126, if_true] at ht hle hl ⊢
    rw [if_neg (by decide)] at ht hle hl ⊢
    have hval : ofLe (t.take 2).reverse = l := by
      rw [ht, ntohs, hswap 2 hle] at hl
      exact Int.ofNat.inj hl
    rw [if_neg (by decide), split_of_le hle, Option.map_some, hval]
    exact ⟨_, rfl⟩
  · simp only [h127, h126, if_false] at hl ⊢
    rw [if_pos (by omega), Int.ofNat.inj hl]
    exact ⟨_, rfl⟩

/-- A header in memory, and the payload behind it in the stream, are a frame. -/
theorem decode_field {m : Mem} {s : List UInt8} {e l : ℕ} (hs : m.read 0 e = s.take e)
    (he : e ≤ s.length) (hn : headerSize m ≤ e) (hl : lengthField m = l)
    (hlen : headerSize m + l ≤ s.length) :
    ∃ form, decode (unreserved s) = some (⟨128 ≤ (m 0).toNat, Kws.opcodeOf (m 0), keyField m,
      maskWith (keyField m) ((s.drop (headerSize m)).take l)⟩, form, s.drop (headerSize m + l)) := by
  have hget (i : ℕ) (hi : i < e) : s[i]? = some (m i) := by
    have h := Mem.getElem?_read m 0 e hi
    rwa [hs, List.getElem?_take_of_lt hi, Nat.zero_add] at h
  have hsize : headerSize m = (if 128 ≤ (m 1).toNat then 6 else 2) + extendedSize m := rfl
  have h2 : 2 + extendedSize m ≤ headerSize m := by
    rw [hsize]
    split_ifs <;> omega
  match s, show 2 ≤ s.length by omega with
  | b₀ :: b₁ :: t, _ =>
    obtain rfl : b₀ = m 0 := Option.some.inj (hget 0 (by omega))
    obtain rfl : b₁ = m 1 := Option.some.inj (hget 1 (by omega))
    have ht : m.read 2 (e - 2) = t.take (e - 2) := by
      have h := congrArg (List.drop 2) hs
      rw [Mem.drop_read _ _ _ _ (by omega), List.drop_take] at h
      exact h
    have htlen : extendedSize m ≤ t.length := by
      simp only [List.length_cons] at hlen
      omega
    have hext : m.read 2 (extendedSize m) = t.take (extendedSize m) := by
      have h := congrArg (List.take (extendedSize m)) ht
      rwa [Mem.take_read _ _ _ _ (by omega), List.take_take, Nat.min_eq_left (by omega)] at h
    obtain ⟨form, hform⟩ := decodeLength_field hext htlen hl
    have hb := toNat_unreserved (m 0)
    have hb' := (m 0).toNat_lt
    -- The frame, once its key and what follows the key are known.
    have hparts {key : Option Key} {bs₂ : List UInt8}
        (hkey : decodeKey (128 ≤ (m 1).toNat) (t.drop (extendedSize m)) = some (key, bs₂))
        (hbs : bs₂ = (m 0 :: m 1 :: t).drop (headerSize m)) :
        decode (unreserved (m 0 :: m 1 :: t)) = some (⟨128 ≤ (m 0).toNat, Kws.opcodeOf (m 0), key,
          maskWith key (((m 0 :: m 1 :: t).drop (headerSize m)).take l)⟩, form,
          (m 0 :: m 1 :: t).drop (headerSize m + l)) := by
      have hr : (UInt8.ofNat ((m 0).toNat / 128 * 128 + (m 0).toNat % 16)).toNat / 16 % 8 = 0 := by
        rw [hb]
        omega
      have h := decode_of_parts hr hform hkey (by rw [hbs, List.length_drop]; omega)
      rw [unreserved, h, hbs, List.drop_drop]
      have hfin : decide (128 ≤ (m 0).toNat / 128 * 128 + (m 0).toNat % 16) =
          decide (128 ≤ (m 0).toNat) := by
        rw [decide_eq_decide]
        omega
      have hoc : ((m 0).toNat / 128 * 128 + (m 0).toNat % 16) % 16 = (m 0).toNat % 16 := by
        omega
      simp only [hb, hfin, hoc, Kws.opcodeOf]
    refine ⟨form, ?_⟩
    -- Four bytes of the header are the key, or there is none.
    by_cases hmask : 128 ≤ (m 1).toNat
    · rw [if_pos hmask] at hsize
      have hkey : keyField m = some fun i : Fin 4 => m (headerSize m - 4 + i) := if_pos hmask
      have hdec : decodeKey (decide (128 ≤ (m 1).toNat)) (t.drop (extendedSize m)) =
          some (some fun i : Fin 4 => m (headerSize m - 4 + i), (t.drop (extendedSize m)).drop 4) := by
        rw [decide_eq_true hmask]
        refine decodeKey_of_le ?_ fun i => ?_
        · rw [List.length_drop]
          simp only [List.length_cons] at hlen
          omega
        · have hi := i.isLt
          have h := hget (headerSize m - 4 + i) (by omega)
          rw [show headerSize m - 4 + i = extendedSize m + i + 1 + 1 by omega,
            List.getElem?_cons_succ, List.getElem?_cons_succ] at h
          rw [List.getElem?_drop, h, show headerSize m - 4 + i = extendedSize m + i + 1 + 1 by omega]
      rw [hkey]
      refine hparts hdec ?_
      rw [List.drop_drop, hsize, show 6 + extendedSize m = extendedSize m + 4 + 1 + 1 by omega]
      rfl
    · rw [if_neg hmask] at hsize
      have hkey : keyField m = none := if_neg hmask
      have hdec : decodeKey (decide (128 ≤ (m 1).toNat)) (t.drop (extendedSize m)) =
          some (none, t.drop (extendedSize m)) := by
        rw [decide_eq_false hmask]
        rfl
      rw [hkey]
      refine hparts hdec ?_
      rw [hsize, show 2 + extendedSize m = extendedSize m + 1 + 1 by omega]
      rfl

namespace Kws

variable {k k' k₁ k₂ : Kws} {d e n need l : ℕ} {oc : Opcode}

/-! ## Reading it -/

/-- Nothing is reported as a message. -/
def Silent : Exit → Prop
  | .fault _ => True
  | .ret r _ => 0 ≤ r.ret → ¬Opcode.IsData r.oc

theorem silent_closeWith {α : Type} {Q : α → Prop} (k : Kws) (reason : ℕ) :
    Ends Silent Q (k.closeWith reason Opcode.close : Except Exit α) :=
  fun _ => (by decide : ¬Opcode.IsData Opcode.close)

/-- A call that closes the connection reports nothing. -/
theorem silent_of_shut {x : Exit} (h : Shut x) : Silent x := by
  cases x with
  | fault f => trivial
  | ret r k =>
    intro _
    rw [h.1]
    decide

theorem ends_true {ε α : Type} (e : Except ε α) : Ends (fun _ => True) (fun _ => True) e := by
  cases e <;> trivial

/-- The payload starts as far on as the bytes of the length go. -/
theorem readLength_place (k : Kws) (need : ℕ) :
    Ends (fun _ => True) (fun p : ℕ × Kws => p.2.payload + need = p.1 + 2) (k.readLength need) := by
  rw [readLength]
  split_ifs
  · refine (ends_true (k.topUp (need + 8))).bind fun k₁ _ => ?_
    dsimp only [pure, Except.pure]
    exact Nat.add_comm 10 need
  · refine (ends_true (k.topUp (need + 2))).bind fun k₁ _ => ?_
    dsimp only [pure, Except.pure]
    exact Nat.add_comm 4 need
  · exact Nat.add_comm 2 need

/-- Where the payload starts, and the key, if there is one. -/
theorem readHeader_place (k : Kws) :
    Ends (fun _ => True) (fun p : ℕ × Option ℕ × Kws => p.2.2.payload = p.1 ∧
      p.2.1 = if 128 ≤ (k.buffer 1).toNat then some (p.1 - 4) else none) k.readHeader := by
  rw [readHeader]
  by_cases hmask : 128 ≤ (k.buffer 1).toNat
  · simp only [hmask, decide_true, if_true]
    refine (ends_true (k.topUp 6)).bind fun k₁ _ => (readLength_place k₁ 6).bind ?_
    rintro ⟨n, k₂⟩ hp
    have hp : k₂.payload + 6 = n + 2 := hp
    exact ⟨show k₂.payload + 4 = n by omega, congrArg some (show k₂.payload = n - 4 by omega)⟩
  · simp only [hmask, decide_false, Bool.false_eq_true, if_false]
    refine (readLength_place k 2).bind ?_
    rintro ⟨n, k₂⟩ hp
    exact ⟨Nat.add_right_cancel hp, rfl⟩

/-- The loop of reads stores the next bytes to come in behind those it has. -/
theorem readPayload_body {f : ℕ} (hrp : k.rplen = (l : ℕ)) (hroom : k.body + l + need < k.bbuflen) :
    Ends (fun _ => True)
      (fun k₁ : Kws => k₁.buffer = k.buffer ∧ Drew bbuffer buffer k k₁ (k.body + l) need)
      (readPayload f k need) := by
  induction f generalizing k need l with
  | zero =>
    rw [readPayload]
    split_ifs with h0
    · rw [h0]
      exact ⟨rfl, .refl k _⟩
    · trivial
  | succ f ih =>
    by_cases h0 : need = 0
    · rw [readPayload, if_pos h0, h0]
      exact ⟨rfl, .refl k _⟩
    have hroom' : k.Room (.bbuffer (k.body + l)) (need + 1) :=
      show k.body + l + (need + 1) ≤ k.bbuflen by omega
    obtain ⟨read, k₁, hread, hfrom, hret, -⟩ :=
      stringRead_spec hroom' (Nat.pos_of_ne_zero h0) wsBlock
    obtain ⟨hbuffer, hdrew⟩ :=
      (stringRead_body hroom' (Nat.pos_of_ne_zero h0) wsBlock).ok hread
    rw [readPayload_step hrp h0 hread]
    by_cases hpos : read.ret < 1
    · rw [if_pos hpos]
      trivial
    obtain ⟨r, hr⟩ := Int.eq_ofNat_of_zero_le (show 0 ≤ read.ret by omega)
    have hdrew := hdrew (show 0 ≤ read.ret by omega)
    rw [if_neg hpos, hr, Int.toNat_natCast]
    rw [hr] at hret
    dsimp only at hbuffer hdrew
    rw [hr, Int.toNat_natCast] at hdrew
    -- A read leaves the fields of the body alone.
    have hsame : k₁.body = k.body ∧ k₁.bbuflen = k.bbuflen ∧ k₁.rplen = k.rplen := by
      obtain ⟨_, _, _, _, _, _, _, rfl⟩ := hfrom
      exact ⟨rfl, rfl, rfl⟩
    obtain ⟨hbody, hbbuflen, hrplen⟩ := hsame
    have hrp₁ : ({ k₁ with datalen := k₁.datalen + r, rplen := k₁.rplen + r } : Kws).rplen =
        (l + r : ℕ) := by
      dsimp only
      omega
    refine (ih hrp₁ (show k₁.body + (l + r) + (need - r) < k₁.bbuflen by omega)).imp ?_
    rintro k₂ ⟨hbuffer₂, hdrew₂⟩
    refine ⟨hbuffer₂.trans hbuffer, ?_⟩
    -- What this read draws, and what the others draw behind it.
    have hstep : Drew bbuffer buffer k { k₁ with datalen := k₁.datalen + r, rplen := k₁.rplen + r }
        (k.body + l) r := ⟨hdrew.length, hdrew.bytes, hdrew.frame, hdrew.rest, hdrew.other⟩
    have hrest : Drew bbuffer buffer { k₁ with datalen := k₁.datalen + r, rplen := k₁.rplen + r } k₂
        (k.body + l + r) (need - r) := by
      rw [Nat.add_assoc, ← hbody]
      exact hdrew₂
    have h := hstep.trans hrest
    rwa [Nat.add_sub_cancel' (by omega)] at h

/-- Where the room for the payload is made, there is some. -/
theorem makeRoom_room (hplen : k.plen = l) :
    Ends Silent (fun k₁ : Kws => ∃ b, k₁ = { k with bbuflen := b } ∧ k.body + l < b) k.makeRoom := by
  have hle := toInt64_le k.bbuflen
  rw [makeRoom]
  split_ifs with hbody hsum hgrow
  · trivial
  · trivial
  · dsimp only
    split_ifs
    · exact silent_closeWith _ _
    · exact ⟨_, rfl, by omega⟩
  · exact ⟨k.bbuflen, rfl, by omega⟩

/-- The bytes without the mask whose key is at `maskp`. -/
def unmasked (k : Kws) (maskp : Option ℕ) (bs : List UInt8) : List UInt8 :=
  match maskp with
  | some maskp => maskBytes (fun i => k.buffer (maskp + i)) bs
  | none => bs

@[simp] theorem length_unmasked (maskp : Option ℕ) (bs : List UInt8) :
    (k.unmasked maskp bs).length = bs.length := by
  cases maskp with
  | some maskp => exact List.length_mapIdx
  | none => rfl

/-- What is unmasked is the payload, within the body. -/
theorem unmask_body (maskp : Option ℕ) (hplen : k.plen = l) (hroom : k.body + l < k.bbuflen) :
    ∃ m, m.read k.body l = k.unmasked maskp (k.bbuffer.read k.body l) ∧
      (∀ i < k.body, m i = k.bbuffer i) ∧ k.unmask maskp = .ok { k with bbuffer := m } := by
  cases maskp with
  | none => exact ⟨k.bbuffer, rfl, fun i _ => rfl, rfl⟩
  | some mp =>
    obtain ⟨bs, hbs⟩ : ∃ bs, k.unmasked (some mp) (k.bbuffer.read k.body l) = bs := ⟨_, rfl⟩
    have hlen : bs.length = l := by rw [← hbs, length_unmasked, Mem.length_read]
    have hstore : k.Room (.bbuffer k.body) bs.length := by
      rw [hlen]
      exact Nat.le_of_lt hroom
    have hread := Mem.read_write_self k.bbuffer k.body bs
    rw [hlen] at hread
    refine ⟨k.bbuffer.write k.body bs, hread.trans hbs.symm, fun i hi => Mem.write_apply_of_lt hi, ?_⟩
    have hmask : maskBytes (fun i => k.buffer (mp + i)) (k.bbuffer.read k.body k.plen.toNat) = bs := by
      rw [hplen, Int.toNat_natCast]
      exact hbs
    rw [unmask, hmask, store_of_room hstore]
    rfl

/-- What the check of a pass looks at. -/
def standing (k : Kws) : ℕ × Bool × Bool × ℕ :=
  (k.buflen, k.logicalEstablished, k.handshake, k.down)

/-- A step of the work on a frame leaves the sizes alone. -/
theorem Worked.sizes (h : k.Worked k') : k.SameSizes k' := by
  obtain ⟨_, _, _, _, _, _, _, _, _, _, _, rfl⟩ := h
  rfl

theorem Worked.standing (h : k.Worked k') : k'.standing = k.standing := by
  obtain ⟨_, _, _, _, _, _, _, _, _, _, _, rfl⟩ := h
  rfl

/-- `k'` is `k` with the payload of a frame behind the message so far. -/
structure Extended (k k' : Kws) (bs : List UInt8) : Prop where
  bytes : k'.bbuffer.read k.body bs.length = bs
  frame : ∀ i < k.body, k'.bbuffer i = k.bbuffer i
  body : k'.body = k.body + bs.length
  packetlen : k'.packetlen = k.packetlen + bs.length
  past : k.Past k' 0
  standing : k'.standing = k.standing

/-- What a pass makes of the payload of a frame: what it holds of it, and the next bytes to
    come in. -/
theorem readBody_body (hd : k.datalen = e) (hheld : n ≤ e ∧ e ≤ 14)
    (hpayload : k.payload = n) (oc : Opcode) (maskp : Option ℕ) :
    Ends Silent (fun k' : Kws => ∃ l : ℕ, k.plen = l ∧ e - n ≤ l ∧
      l - (e - n) ≤ k.incoming.length ∧ k'.incoming = k.incoming.drop (l - (e - n)) ∧
      k.Extended k' (k.unmasked maskp
        (k.buffer.read n (e - n) ++ k.incoming.take (l - (e - n))))) (k.readBody oc n maskp) := by
  obtain ⟨need, hneed⟩ : ∃ need, k.plen - (k.datalen - n) = need := ⟨_, rfl⟩
  rw [readBody, hneed]
  by_cases hover : need < -2 ^ 63
  · rw [if_pos hover]
    trivial
  rw [if_neg hover]
  by_cases hneg : need < 0
  · rw [if_pos hneg]
    exact silent_closeWith k 0
  rw [if_neg hneg]
  obtain ⟨l, hlen⟩ := Int.eq_ofNat_of_zero_le (show 0 ≤ k.plen by omega)
  refine (makeRoom_room hlen).bind ?_
  rintro k₁ ⟨b, hk₁, hlt⟩
  subst hk₁
  have hcopy := copyHeld_ok (k := { k with bbuflen := b }) hlen (show e - n ≤ l by omega) hlt
  rw [show ((l : ℕ) : ℤ) - (e - n : ℕ) = need by omega] at hcopy
  rw [hcopy]
  have hneed' : need.toNat = l - (e - n) := by omega
  have hroom : k.body + (e - n) + need.toNat < b := by omega
  refine (((readPayload_spec (l := e - n) (Nat.le_refl _) rfl hroom).and
    (readPayload_body rfl hroom)).mono (fun x hx => silent_of_shut hx.1) fun _ => id).bind ?_
  rintro k₂ ⟨⟨hon, hrp, hpl⟩, hbuffer, hdrew⟩
  obtain ⟨hw, hpast, -⟩ := hon
  obtain ⟨hbody, hbbuflen, hpacketlen, -⟩ := hw.sizes.eqs
  have hstanding := hw.standing
  rw [hneed'] at hrp hdrew
  have hle : e - n ≤ l := by omega
  rw [Nat.add_sub_cancel' hle] at hrp
  dsimp only at hbuffer hbody hbbuflen hpacketlen hpl
  have hlt₂ : k₂.body + l < k₂.bbuflen := by
    rw [hbody, hbbuflen]
    exact hlt
  obtain ⟨mb', hread, hframe, hmask⟩ := unmask_body maskp (hpl.trans hlen) hlt₂
  -- The payload before it is unmasked: the copy, and what the reads have stored behind it.
  have hraw : k₂.bbuffer.read k.body l = k.buffer.read n (e - n) ++ k.incoming.take (l - (e - n)) := by
    have hcopied : k₂.bbuffer.read k.body (e - n) = k.buffer.read n (e - n) := by
      have hself := Mem.read_write_self k.bbuffer k.body (k.buffer.read k.payload (e - n))
      rw [Mem.length_read] at hself
      rw [Mem.read_congr fun i _ hi => hdrew.frame i hi, hself, hpayload]
    have hbytes : k₂.bbuffer.read (k.body + (e - n)) (l - (e - n)) =
        k.incoming.take (l - (e - n)) := hdrew.bytes
    rw [← Nat.add_sub_cancel' hle, Mem.read_add, hcopied, Nat.add_sub_cancel_left, hbytes]
  have hread : mb'.read k.body l = k.unmasked maskp
      (k.buffer.read n (e - n) ++ k.incoming.take (l - (e - n))) := by
    rw [← hraw, ← hbody, hread]
    cases maskp with
    | none => rfl
    | some mp => simp only [unmasked, hbuffer]
  have hframe (i : ℕ) (hi : i < k.body) : mb' i = k.bbuffer i :=
    (hframe i (by rwa [hbody])).trans ((hdrew.frame i (show i < k.body + (e - n) by omega)).trans
      (Mem.write_apply_of_lt hi))
  have hbytes : (k.unmasked maskp
      (k.buffer.read n (e - n) ++ k.incoming.take (l - (e - n)))).length = l := by
    rw [← hread, Mem.length_read]
  have hkept (i : ℕ) (hi : i < k.body + l) :
      (if oc = Opcode.text then mb'.write (k₂.body + l) [0] else mb') i = mb' i := by
    rw [hbody]
    split_ifs
    · exact Mem.write_apply_of_lt hi
    · rfl
  refine .of_ok (finishFrame_eq hrp hmask hlt₂) ⟨l, hlen, hle, hdrew.length, hdrew.rest, ?_⟩
  generalize k.unmasked maskp (k.buffer.read n (e - n) ++ k.incoming.take (l - (e - n))) = bs
    at hread hbytes ⊢
  subst hbytes
  refine ⟨?_, fun i hi => (hkept i (Nat.lt_add_right _ hi)).trans (hframe i hi), ?_, ?_,
    ⟨hpast.place, hpast.empty⟩, hstanding⟩
  · exact (Mem.read_congr fun i _ hi => hkept i hi).trans hread
  · exact congrArg (· + bs.length) hbody
  · exact congrArg (· + (bs.length : ℤ)) hpacketlen

/-- A data frame, from the first bytes of its header on: it is the next one of the stream. -/
theorem readDataFrame_body (hbuf : 16 ≤ k₁.buflen) (ht : k.Took k₁ 0 d) (hd : k₁.datalen = d)
    (h2 : 2 ≤ d) (hd9 : d ≤ 9)
    (hu : k₁.unprocessedBufferLen = 0 ∨ 14 < k₁.unprocessedPosition) (oc : Opcode) :
    Ends Silent (fun k' : Kws => ∃ f form, decode (unreserved k.incoming) =
        some (f, form, k'.incoming) ∧ f.fin = decide (128 ≤ (k₁.buffer 0).toNat) ∧
      f.opcode = opcodeOf (k₁.buffer 0) ∧ f.payload.length < 2 ^ 63 ∧ k₁.Extended k' f.payload)
      (k₁.readDataFrame oc) := by
  refine (((readHeader_spec hbuf hd h2 hd9).and (readHeader_place k₁)).mono
    (fun x hx => silent_of_shut hx.1) fun _ => id).bind ?_
  rintro ⟨n, maskp, k₂⟩ ⟨⟨e, hr⟩, hpayload, hmaskp⟩
  dsimp only at hr hpayload hmaskp
  obtain ⟨hde, ht₂, hplen, hn⟩ := hr.took hu
  have hheld := hr.held
  have ht' : k.Took k₂ 0 e := by
    have h := ht.trans (by rwa [Nat.zero_add] : k₁.Took k₂ (0 + d) (e - d))
    rwa [Nat.add_sub_cancel' hde] at h
  refine (readBody_body hr.datalen hheld hpayload oc maskp).imp ?_
  rintro k' ⟨l, hl, hle, hlen, hrest, hext⟩
  have hlen' : e + (l - (e - n)) ≤ k.incoming.length := by
    have h := ht'.length
    rw [ht'.rest, List.length_drop] at hlen
    omega
  have hnl : e + (l - (e - n)) = n + l := by omega
  obtain ⟨form, hdecode⟩ := decode_field ht'.bytes ht'.length (by omega : headerSize k₂.buffer ≤ e)
    (hplen.symm.trans hl) (by omega)
  rw [← hn] at hdecode
  have h0 : k₂.buffer 0 = k₁.buffer 0 := ht₂.frame 0 (by omega)
  have h1 : k₂.buffer 1 = k₁.buffer 1 := ht₂.frame 1 (by omega)
  -- The bytes of the payload that came with the header, and those behind them.
  have hraw : k₂.buffer.read n (e - n) ++ k₂.incoming.take (l - (e - n)) =
      (k.incoming.drop n).take l := by
    have hread := congrArg (List.drop n) ht'.bytes
    rw [Mem.drop_read _ _ _ _ hheld.1, Nat.zero_add, List.drop_take] at hread
    rw [hread, ht'.rest, show k.incoming.drop e = (k.incoming.drop n).drop (e - n) by
      rw [List.drop_drop, Nat.add_sub_cancel' hheld.1], ← List.take_add, Nat.add_sub_cancel' hle]
  have hmask : k₂.unmasked maskp ((k.incoming.drop n).take l) =
      maskWith (keyField k₂.buffer) ((k.incoming.drop n).take l) := by
    rw [keyField, h1, ← hn]
    rw [hmaskp]
    split_ifs
    · show maskBytes (fun i => k₂.buffer (n - 4 + i)) _ =
        Key.mask (fun i : Fin 4 => k₂.buffer (n - 4 + i)) _
      exact maskBytes_eq (fun i => rfl) _
    · rfl
  rw [hraw, hmask] at hext
  have hrest' : k.incoming.drop (n + l) = k'.incoming := by
    rw [hrest, ht'.rest, List.drop_drop, hnl]
  rw [hrest'] at hdecode
  refine ⟨_, form, hdecode, ?_, ?_, ?_, ?_⟩
  · rw [h0]
  · rw [h0]
  · have hrange := hr.range.2
    rw [length_maskWith, List.length_take]
    omega
  · have hw := hr.onward.worked
    have hbody := hw.body
    obtain ⟨-, -, hpacketlen, -⟩ := hw.sizes.eqs
    refine ⟨?_, fun i hi => ?_, ?_, ?_, ?_, ?_⟩
    · rw [← hbody]
      exact hext.bytes
    · rw [hext.frame i (by rwa [hbody]), ht₂.other]
    · rw [hext.body, hbody]
    · rw [hext.packetlen, hpacketlen]
    · exact hr.onward.past.trans hext.past
    · exact hext.standing.trans hw.standing

end Kws

/-! ## Messages in the stream -/

/-- The bytes start with these frames, and go on with `rest`. -/
def Starts : List UInt8 → List Frame → List UInt8 → Prop
  | bs, [], rest => rest = bs
  | bs, f :: fs, rest =>
    ∃ form bs', decode (unreserved bs) = some (f, form, bs') ∧ Starts bs' fs rest

/-- One more frame of those that have come. -/
theorem Starts.append {bs rest rest' : List UInt8} {fs : List Frame} {f : Frame}
    {form : LengthForm} (h : Starts bs fs rest)
    (hf : decode (unreserved rest) = some (f, form, rest')) : Starts bs (fs ++ [f]) rest' := by
  induction fs generalizing bs with
  | nil =>
    obtain rfl : rest = bs := h
    exact ⟨form, rest', hf, rfl⟩
  | cons g fs ih =>
    obtain ⟨form', bs', hg, hfs⟩ := h
    exact ⟨form', bs', hg, ih hfs⟩

/-- The frames of a message, its opcode as it is delivered, and its payload. -/
inductive IsMessage : List Frame → Opcode → List UInt8 → Prop
  | frame (f : Frame) (hfin : f.fin = true) (hoc : Opcode.IsData f.opcode) (hne : ¬Continues f) :
    IsMessage [f] f.opcode f.payload
  | fragments (m : Message) : IsMessage m.frames Opcode.continuation m.payload

/-- The frames are those of a message so far, with nothing in the control frames. -/
def Opened (fs : List Frame) : Prop :=
  ∃ first middle, fs = first :: middle ∧ (first.opcode = Opcode.text ∨ first.opcode = Opcode.binary) ∧
    first.fin = false ∧
    (∀ f ∈ middle, Control f ∧ f.payload = [] ∨ Continues f ∧ f.fin = false) ∧
    ∀ f ∈ first :: middle, f.payload.length < 2 ^ 63

/-- The next frame has its place: it starts a message, or continues the one that has been
    started. A control frame may stand in between, but what it carries would get into the
    message. -/
def InPlace (frag : Bool) (f : Frame) : Prop :=
  if frag then Continues f ∨ Control f ∧ f.payload = []
  else ¬Continues f ∧ (f.fin = true ∨ f.opcode = Opcode.text ∨ f.opcode = Opcode.binary)

/-- A control frame continues no message. -/
theorem control_not_continues {f : Frame} (h : Control f) : ¬Continues f := by
  intro hc
  have hc : f.opcode = Opcode.continuation := hc
  rcases h.2 with h | h <;> rw [hc] at h <;> exact absurd h (by decide)

/-- Frames between the fragments add nothing to the message. -/
theorem Opened.flatMap_filter {middle : List Frame}
    (h : ∀ f ∈ middle, Control f ∧ f.payload = [] ∨ Continues f ∧ f.fin = false) :
    (middle.filter Continues).flatMap Frame.payload = middle.flatMap Frame.payload := by
  induction middle with
  | nil => rfl
  | cons f middle ih =>
    have ih := ih fun g hg => h g (List.mem_cons_of_mem f hg)
    rcases h f List.mem_cons_self with ⟨hctl, hnil⟩ | ⟨hcont, -⟩
    · rw [List.filter_cons_of_neg (by simpa using control_not_continues hctl), ih, List.flatMap_cons,
        hnil, List.nil_append]
    · rw [List.filter_cons_of_pos (by simpa using hcont), List.flatMap_cons, ih, List.flatMap_cons]

/-- The last fragment ends the message. -/
theorem Opened.isMessage {fs : List Frame} {f : Frame} (h : Opened fs) (hf : Continues f)
    (hfin : f.fin = true) (hlen : f.payload.length < 2 ^ 63) :
    IsMessage (fs ++ [f]) f.opcode ((fs ++ [f]).flatMap Frame.payload) := by
  obtain ⟨first, middle, rfl, hoc, hfirst, hmiddle, hlens⟩ := h
  have hm := IsMessage.fragments
    { first, middle, last := f, first_opcode := hoc, first_fin := hfirst
      middle_frame := fun g hg => (hmiddle g hg).imp_left And.left
      last_continues := hf, last_fin := hfin
      length := fun g hg => (List.mem_append.1 hg).elim (hlens g) fun hg => by
        rw [List.mem_singleton.1 hg]
        exact hlen }
  have hpayload : (first :: middle ++ [f]).flatMap Frame.payload =
      first.payload ++ (middle.filter Continues).flatMap Frame.payload ++ f.payload := by
    rw [Opened.flatMap_filter hmiddle, List.flatMap_append, List.flatMap_cons,
      List.flatMap_singleton]
  have hcont : f.opcode = Opcode.continuation := hf
  rw [hpayload, hcont]
  exact hm

/-- A message goes on with a frame in its place. -/
theorem Opened.append {fs : List Frame} {f : Frame} (h : fs = [] ∨ Opened fs)
    (hf : InPlace (!fs.isEmpty) f) (hgo : ¬Continues f → fs = [] → f.fin = false)
    (hcont : Continues f → f.fin = false) (hlen : f.payload.length < 2 ^ 63) : Opened (fs ++ [f]) := by
  rcases h with rfl | ⟨first, middle, rfl, hoc, hfirst, hmiddle, hlens⟩
  · obtain ⟨hne, hplace⟩ : ¬Continues f ∧ _ := hf
    have hfin := hgo hne rfl
    refine ⟨f, [], rfl, hplace.resolve_left (by rw [hfin]; exact Bool.false_ne_true), hfin,
      fun g hg => absurd hg List.not_mem_nil, fun g hg => ?_⟩
    rw [List.mem_singleton.1 hg]
    exact hlen
  · have hf : Continues f ∨ Control f ∧ f.payload = [] := hf
    refine ⟨first, middle ++ [f], rfl, hoc, hfirst, fun g hg => ?_, fun g hg => ?_⟩
    · rcases List.mem_append.1 hg with hg | hg
      · exact hmiddle g hg
      · rw [List.mem_singleton.1 hg]
        exact hf.symm.imp_right fun h => ⟨h, hcont h⟩
    · rcases List.mem_append.1 (show g ∈ (first :: middle) ++ [f] from hg) with hg | hg
      · exact hlens g hg
      · rw [List.mem_singleton.1 hg]
        exact hlen

namespace Kws

variable {k k' k₀ k₁ k₂ : Kws} {frag : Bool} {oc : Opcode} {r : FrameResult} {bs : List UInt8}
  {fs : List Frame}

/-- What the call has returned is a message: its frames are the next ones of the stream, `*data`
    points to its payload, and the connection is not down. -/
def Reported (bs : List UInt8) (k' : Kws) (r : FrameResult) : Prop :=
  ∃ fs payload, Starts bs fs k'.incoming ∧ IsMessage fs r.oc payload ∧
    r.data = some (.bbuffer 0) ∧ r.ret = payload.length ∧
    k'.load (.bbuffer 0) payload.length = payload ∧ k'.down = 0

/-- A call that returns a length and the opcode of a message has received one, of the bytes
    to come in once the connection is established. -/
def ReportsMessages (k : Kws) : Prop :=
  ∀ r k', k.readFrame = .ok (r, k') → 0 ≤ r.ret → Opcode.IsData r.oc →
    ∃ k₁, k.start.enter Opcode.invalid = .ok k₁ ∧ Reported k₁.incoming k' r

/-- The first reads of a frame get two bytes, or find that there is nothing yet. -/
def Arrives (k : Kws) : Prop :=
  ∀ read k₁, k.stringRead (.buffer 0) (9 + 1) k.block = .ok (read, k₁) →
    read.ret = -2 ∨ 2 ≤ read.ret ∨
      0 ≤ read.ret ∧ ∀ read₂ k₂, { k₁ with datalen := read.ret }.stringRead
        (.buffer read.ret.toNat) (9 - read.ret).toNat wsBlock = .ok (read₂, k₂) →
          2 ≤ read.ret + read₂.ret

/-- What a pass relies on, once the connection is established: what is left over from the
    handshake is not in the first ten bytes of the receive buffer, the stream goes on between
    two frames of a message, and the next frame has its place. -/
structure Regular (k : Kws) (frag : Bool) : Prop where
  leftover : k.unprocessedBufferLen = 0 ∨ 10 ≤ k.unprocessedPosition
  arrives : frag = true → k.Arrives
  place : ∀ f form rest, decode (unreserved k.incoming) = some (f, form, rest) →
    Opcode.IsData f.opcode → InPlace frag f

/-! ## Entering a pass -/

theorem establishSecure_neg (k : Kws) : ∀ c, k.establishSecure.1 = some c → c < 0 := by
  intro c hc
  rw [establishSecure] at hc
  split_ifs at hc
  · cases hc
    decide
  · rcases hs : shakeLoop k.block k.sanity k.world.handshakes with ⟨code, n, b, es⟩
    rw [hs] at hc
    obtain rfl : code = some c := hc
    exact (shakeLoop_neg hs).1

/-- A handshake that has failed gives a negative number. -/
theorem establishWebSocket_neg (k : Kws) (handshake : Kws → Except Fault (ℤ × Kws)) :
    Ends (fun _ => True) (fun p : Option ℤ × Kws => ∀ c, p.1 = some c → c < 0)
      (k.establishWebSocket handshake) := by
  rw [establishWebSocket]
  split_ifs
  · intro c hc
    cases hc
  · refine (ends_true (handshake k)).bind ?_
    rintro ⟨r, k₁⟩ -
    dsimp only
    split_ifs
    · intro c hc
      cases hc
      decide
    · intro c hc
      cases hc

/-- Where establishing the connection does not fail, it is marked as established. -/
theorem establishLogicalLayer_marks (k : Kws) :
    Ends (fun _ => True) (fun p : ℤ × Kws => 0 ≤ p.1 → p.2.logicalEstablished = true)
      k.establishLogicalLayer := by
  have hsecure := establishSecure_neg k
  have hneg {c : ℤ} {k₁ : Kws} (hc : c < 0) : 0 ≤ c → k₁.logicalEstablished = true :=
    fun h => absurd h (Int.not_le.2 hc)
  rw [establishLogicalLayer, establishClientLogicalLayer, establishServerLogicalLayer]
  generalize k.establishSecure = s at hsecure ⊢
  obtain ⟨code, k₁⟩ := s
  cases k.type with
  | client =>
    dsimp only
    split_ifs with _ hle
    · exact hneg (show (-1 : ℤ) < 0 by decide)
    · exact fun _ => hle
    · cases code with
      | some code => exact hneg (hsecure code rfl)
      | none =>
        refine (establishWebSocket_neg k₁ wsClientHandshake).bind ?_
        rintro ⟨code, k₂⟩ hcode
        cases code with
        | some code => exact hneg (hcode code rfl)
        | none =>
          intro _
          show (validateCertificate { k₂ with logicalEstablished := true }).2.logicalEstablished = true
          rw [validateCertificate]
          dsimp only
          split_ifs <;> rfl
  | server =>
    dsimp only
    split_ifs with _ hle
    · exact hneg (show (-1 : ℤ) < 0 by decide)
    · exact fun _ => hle
    · cases code with
      | some code => exact hneg (hsecure code rfl)
      | none =>
        refine (establishWebSocket_neg k₁ wsServerHandshake).bind ?_
        rintro ⟨code, k₂⟩ hcode
        cases code with
        | some code => exact hneg (hcode code rfl)
        | none => exact fun _ => rfl

/-- A connection that has passed the check of a pass. -/
structure Standing (k : Kws) : Prop where
  buflen : 16 ≤ k.buflen
  established : k.logicalEstablished = true
  handshake : k.handshake = true
  down : k.down = 0

theorem Standing.of_eq (h : k.Standing) (hs : k'.standing = k.standing) : k'.Standing := by
  simp only [Kws.standing, Prod.mk.injEq] at hs
  obtain ⟨hbuf, hle, hshake, hdown⟩ := hs
  exact ⟨by rw [hbuf]; exact h.buflen, hle.trans h.established, hshake.trans h.handshake,
    hdown.trans h.down⟩

/-- The first pass comes to a connection that stands, or reports nothing. -/
theorem enter_first (hbuf : 16 ≤ k.buflen) :
    Ends Silent (fun k₁ : Kws => k.SameSizes k₁ ∧ k₁.Standing) (k.enter Opcode.invalid) := by
  have hquiet (k₁ : Kws) (ret : ℤ) : Silent (.ret ⟨ret, Opcode.invalid, none⟩ k₁) :=
    fun _ => (by decide : ¬Opcode.IsData Opcode.invalid)
  rw [enter]
  rcases hll : k.establishLogicalLayer with x | ⟨ll, k₁⟩
  · trivial
  have hsame : k.SameSizes k₁ := (establishLogicalLayer_sizes k).ok hll
  have hmark := (establishLogicalLayer_marks k).ok hll
  rw [Exit.lift_ok]
  simp only [bind, Except.bind]
  split_ifs with hneg hdown hshake
  · exact hquiet k₁ _
  · exact hquiet k₁ _
  · refine ⟨hsame, by rw [hsame.eqs.2.2.2.2]; exact hbuf, hmark (Int.not_lt.1 hneg), hshake, ?_⟩
    exact Decidable.not_not.1 hdown
  · exact fun _ => (by decide : ¬Opcode.IsData Opcode.invalid)

/-- A later pass goes straight to the header. -/
theorem enter_again (h : k.Standing) (oc : Opcode) :
    Ends Silent (fun k₁ : Kws => k₁ = k) (k.enter oc) := by
  by_cases hs : k.sanity = 0
  · rw [enter, establishLogicalLayer, establishClientLogicalLayer, establishServerLogicalLayer,
      if_pos hs, if_pos hs]
    cases k.type with
    | client => exact fun h => absurd h (show ¬(0 : ℤ) ≤ -1 by decide)
    | server => exact fun h => absurd h (show ¬(0 : ℤ) ≤ -1 by decide)
  · rw [(⟨hs, h.established, h.handshake, h.down⟩ : k.Up).enter oc]
    rfl

/-- The first reads of a later frame fail only where they find nothing yet. -/
theorem pullHeader_silent (h : Opcode.IsData oc → k.Arrives) :
    Ends Silent (fun _ => True) (k.pullHeader oc) := by
  rw [pullHeader]
  rcases hread : k.stringRead (.buffer 0) (9 + 1) k.block with x | ⟨read, k₁⟩
  · trivial
  rw [Exit.lift_ok]
  simp only [bind, Except.bind]
  split_ifs with hneg hwait hshort
  · exact fun h => absurd h (show ¬(0 : ℤ) ≤ -2 by decide)
  · intro _ hoc
    rcases h hoc read k₁ hread with h | h | h <;> omega
  · rcases hread₂ : { k₁ with datalen := read.ret }.stringRead
      (.buffer read.ret.toNat) (9 - read.ret).toNat wsBlock with x | ⟨read₂, k₂⟩
    · rw [hread₂]
      trivial
    have hdatalen : k₂.datalen = read.ret := by
      have hfrom := ((stringRead_from { k₁ with datalen := read.ret } _ _ _).ok hread₂).1
      obtain ⟨_, _, _, _, _, _, _, rfl⟩ := hfrom
      rfl
    have hsum (hoc : Opcode.IsData oc) : 2 ≤ read.ret + read₂.ret := by
      rcases h hoc read k₁ hread with h | h | h
      · omega
      · omega
      · exact h.2 read₂ k₂ hread₂
    rw [hread₂, Exit.lift_ok]
    dsimp only
    split_ifs with hneg₂ hshort₂
    · intro _ hoc
      have := hsum hoc
      omega
    · intro _ hoc
      have := hsum hoc
      omega
    · trivial
  · trivial

/-! ## One pass -/

/-- The call has read the frames `fs` of the stream `bs`, those of a message so far, and the
    body holds their payloads. -/
structure Gathered (bs : List UInt8) (fs : List Frame) (k : Kws) : Prop where
  starts : Starts bs fs k.incoming
  opened : fs = [] ∨ Opened fs
  bytes : k.bbuffer.read 0 k.body = fs.flatMap Frame.payload
  packetlen : k.packetlen = k.body
  standing : k.Standing

/-- If the pass leaves the call with what looks like a message, it is one. -/
def Reports (bs : List UInt8) : Exit → Prop
  | .fault _ => True
  | .ret r k => 0 ≤ r.ret → Opcode.IsData r.oc → Reported bs k r

theorem reports_of_silent {x : Exit} (h : Silent x) : Reports bs x := by
  cases x with
  | fault f => trivial
  | ret r k => exact fun hret hoc => absurd hoc (h hret)

/-- When a message goes on behind a frame. -/
theorem nextFrag_eq_true_iff (frag : Bool) (b₀ : UInt8) (oc : Opcode) :
    nextFrag frag b₀ oc = true ↔
      ¬128 ≤ b₀.toNat ∧ oc ≠ Opcode.continuation ∨
        frag = true ∧ ¬(128 ≤ b₀.toNat ∧ oc = Opcode.continuation) := by
  simp only [nextFrag, decide_eq_true_eq]
  split_ifs with h₁ h₂
  · simp [h₁]
  · simp [h₂]
  · tauto

/-- The frame behind those gathered so far. -/
theorem Gathered.extend {f : Frame} {form : LengthForm} (h : Gathered bs fs k)
    (hbody : k₁.body = k.body) (hbytes : k₁.bbuffer = k.bbuffer)
    (hpacketlen : k₁.packetlen = k.packetlen)
    (hstanding : k₁.standing = k.standing)
    (hf : decode (unreserved k.incoming) = some (f, form, k'.incoming))
    (hext : k₁.Extended k' f.payload) :
    Starts bs (fs ++ [f]) k'.incoming ∧
      k'.bbuffer.read 0 k'.body = (fs ++ [f]).flatMap Frame.payload ∧ k'.packetlen = k'.body ∧
      k'.Standing := by
  refine ⟨h.starts.append hf, ?_, ?_, h.standing.of_eq (hext.standing.trans hstanding)⟩
  · have hold : k'.bbuffer.read 0 k₁.body = fs.flatMap Frame.payload := by
      rw [Mem.read_congr fun i _ hi => hext.frame i (by omega), hbody, hbytes, h.bytes]
    rw [hext.body, Mem.read_add, hold, Nat.zero_add, hext.bytes, List.flatMap_append,
      List.flatMap_singleton]
  · rw [hext.packetlen, hext.body, hpacketlen, h.packetlen, hbody, Nat.cast_add]

/-- A pass reports the message as far as it has come, or gathers one more frame. -/
theorem pass_gathers (henter : k.enter oc = .ok k₁) (h : Gathered bs fs k₁)
    (hreg : k₁.Regular frag) (hfrag : frag = !fs.isEmpty)
    (hoc : frag = false → ¬Opcode.IsData oc) :
    Ends (Reports bs) (fun p => p.1 = true ∧ ∃ f, Gathered bs (fs ++ [f]) p.2.2)
      (k.pass frag oc) := by
  have hu : k₁.unprocessedBufferLen = 0 ∨ 9 < k₁.unprocessedPosition := hreg.leftover
  have harrives (hd : Opcode.IsData oc) : k₁.Arrives :=
    hreg.arrives (by
      cases frag with
      | true => rfl
      | false => exact absurd hd (hoc rfl))
  -- The header: a pass that ends here has nothing to report.
  rw [pass, henter, ok_bind]
  refine (((pullHeader_spec h.standing.buflen oc).and (pullHeader_silent harrives)).mono
    (fun x hx => reports_of_silent hx.2) fun _ => id).bind ?_
  rintro k₂ ⟨⟨d, h2, hd9, hd, hon, hpast, -, htook⟩, -⟩
  have ht := htook hu
  -- A close frame, or an opcode that has no name, delivers no data.
  by_cases hclose : opcodeOf (k₂.buffer 0) = Opcode.close
  · simp only [hclose, if_true]
    exact fun _ hdata => absurd hdata (by decide : ¬Opcode.IsData Opcode.close)
  by_cases hdata : Opcode.IsData (opcodeOf (k₂.buffer 0))
  swap
  · simp only [if_neg hclose, if_neg hdata]
    exact fun _ hdata => absurd hdata (by decide : ¬Opcode.IsData Opcode.close)
  simp only [if_neg hclose, if_pos hdata]
  obtain ⟨hbody, -, hpacketlen, -, hbuflen⟩ := hon.worked.sizes.eqs
  have hu₂ : k₂.unprocessedBufferLen = 0 ∨ 14 < k₂.unprocessedPosition :=
    hu.elim (fun hu => .inl (hpast.empty hu)) fun hu => hpast.place.imp_right fun h' => by omega
  -- The frame: its payload comes behind what the message has so far.
  refine ((readDataFrame_body (by rw [hbuflen]; exact h.standing.buflen) ht hd h2 hd9 hu₂ _).mono
    (fun x hx => reports_of_silent hx) fun _ => id).bind ?_
  rintro k₃ ⟨f, form, hf, hfin, hop, hlen, hext⟩
  have hplace := hreg.place f form k₃.incoming hf (by rwa [hop])
  rw [hfrag] at hplace
  obtain ⟨hstarts, hbytes, hlen₃, hstanding⟩ :=
    h.extend hbody ht.other hpacketlen hon.worked.standing hf hext
  have hfin' : f.fin = true ↔ 128 ≤ (k₂.buffer 0).toNat := by
    rw [hfin, decide_eq_true_eq]
  have hcont : Continues f ↔ opcodeOf (k₂.buffer 0) = Opcode.continuation := by
    rw [Continues, hop]
  have hiff := nextFrag_eq_true_iff frag (k₂.buffer 0) (opcodeOf (k₂.buffer 0))
  by_cases hgo : nextFrag frag (k₂.buffer 0) (opcodeOf (k₂.buffer 0)) = true
  · -- The message goes on.
    rw [if_pos hgo]
    rw [hiff, ← hfin', ← hcont, ne_eq, ← hcont] at hgo
    refine ⟨hiff.2 (by rwa [← hfin', ne_eq, ← hcont]), f, hstarts, ?_, hbytes, hlen₃, hstanding⟩
    refine .inr (Opened.append h.opened hplace (fun hne hfs => ?_) (fun hc => ?_) hlen)
    · rcases hgo with hgo | hgo
      · exact Bool.eq_false_iff.2 hgo.1
      · rw [hfrag, hfs] at hgo
        exact absurd hgo.1 Bool.false_ne_true
    · rcases hgo with hgo | hgo
      · exact absurd hc hgo.2
      · exact Bool.eq_false_iff.2 fun h => hgo.2 ⟨h, hc⟩
  · -- The call returns it.
    rw [if_neg hgo]
    rw [hiff, ← hfin', ← hcont, ne_eq, ← hcont, not_or, not_and_not_right] at hgo
    intro _ _
    have hmessage : IsMessage (fs ++ [f]) f.opcode ((fs ++ [f]).flatMap Frame.payload) := by
      rcases h.opened with rfl | hopened
      · obtain ⟨hne, -⟩ : ¬Continues f ∧ _ := hplace
        have hfin : f.fin = true := by
          by_contra hfin
          exact hne (hgo.1 hfin)
        rw [List.nil_append, List.flatMap_singleton]
        exact .frame f hfin (by rwa [hop]) hne
      · have hne : fs ≠ [] := by
          obtain ⟨first, middle, rfl, -⟩ := hopened
          exact List.cons_ne_nil _ _
        have hend : f.fin = true ∧ Continues f := by
          by_contra hno
          exact hgo.2 ⟨by rw [hfrag]; simpa using hne, hno⟩
        exact hopened.isMessage hend.2 hend.1 hlen
    rw [hop] at hmessage
    have hlength : ((fs ++ [f]).flatMap Frame.payload).length = k₃.body := by
      rw [← hbytes, Mem.length_read]
    refine ⟨fs ++ [f], _, hstarts, hmessage, rfl, ?_, ?_, hstanding.down⟩
    · rw [hlength]
      exact hlen₃
    · rw [hlength]
      exact hbytes

/-! ## Every run -/

theorem againLoop_reports (hreg : ∀ k frag oc k₁, Before k₀ k frag oc → k.enter oc = .ok k₁ →
      k₁.Regular frag) {fuel : ℕ} (hk : Before k₀ k true oc) (h : Gathered bs fs k) (hfs : fs ≠ [])
    (hrun : againLoop fuel k true oc = .ok (r, k')) (hret : 0 ≤ r.ret) (hoc : Opcode.IsData r.oc) :
    Reported bs k' r := by
  induction fuel generalizing k fs oc with
  | zero => cases hrun
  | succ fuel ih =>
    have hpass : Ends (Reports bs) (fun p => p.1 = true ∧ ∃ f, Gathered bs (fs ++ [f]) p.2.2)
        (k.pass true oc) := by
      have henter := enter_again h.standing oc
      rcases he : k.enter oc with x | k₁
      · rw [he] at henter
        rw [pass, he]
        exact reports_of_silent henter
      · rw [he] at henter
        obtain rfl : k₁ = k := henter
        exact pass_gathers he h (hreg _ _ _ _ hk he) (by simpa using hfs) (fun h => by cases h)
    rw [againLoop] at hrun
    rcases hp : k.pass true oc with (x | ⟨r₁, k₁⟩) | ⟨frag₁, oc₁, k₁⟩
    · rw [hp] at hrun
      cases hrun
    · rw [hp] at hrun hpass
      cases hrun
      exact hpass hret hoc
    · rw [hp] at hrun hpass
      obtain ⟨hfrag, f, hf⟩ := hpass
      dsimp only at hfrag hf
      subst hfrag
      exact ih (.again hk hp) hf (by simp) hrun

/-- A call whose passes find what they rely on. -/
theorem readFrame_reports (hbuf : 16 ≤ k.buflen)
    (hreg : ∀ k' frag oc k₁, Before k₀ k' frag oc → k'.enter oc = .ok k₁ → k₁.Regular frag)
    (hk : Before k₀ k.start false Opcode.invalid) : k.ReportsMessages := by
  intro r k' hrun hret hoc
  have hrun : againLoop (k.unprocessedBufferLen + readSize k.world.reads + 1) k.start false
      Opcode.invalid = .ok (r, k') := hrun
  have henter := enter_first (k := k.start) hbuf
  rw [againLoop] at hrun
  rcases he : k.start.enter Opcode.invalid with x | k₁
  · rw [he] at henter
    rw [pass, he, error_bind] at hrun
    cases x with
    | fault f => cases hrun
    | ret r₁ k₁ =>
      cases hrun
      exact absurd hoc (henter hret)
  · rw [he] at henter
    obtain ⟨hsizes, hstanding⟩ := henter
    obtain ⟨hbody, -, hpacketlen, -⟩ := hsizes.eqs
    have hgathered : Gathered k₁.incoming [] k₁ := by
      refine ⟨rfl, .inl rfl, ?_, ?_, hstanding⟩
      · rw [hbody]
        rfl
      · rw [hpacketlen, hbody]
        rfl
    have hpass := pass_gathers he hgathered (hreg _ _ _ _ hk he) rfl
      fun _ => (by decide : ¬Opcode.IsData Opcode.invalid)
    refine ⟨k₁, rfl, ?_⟩
    rcases hp : k.start.pass false Opcode.invalid with (x | ⟨r₁, k₂⟩) | ⟨frag₂, oc₂, k₂⟩
    · rw [hp] at hrun
      cases hrun
    · rw [hp] at hrun hpass
      cases hrun
      exact hpass hret hoc
    · rw [hp] at hrun hpass
      obtain ⟨hfrag, f, hf⟩ := hpass
      dsimp only at hfrag hf
      subst hfrag
      exact againLoop_reports hreg (.again hk hp) hf (by simp) hrun hret hoc

/-- A pass leaves the size of the receive buffer alone. -/
theorem pass_buflen (k : Kws) (frag : Bool) (oc : Opcode) :
    Ends (fun x => ∀ r k', x = .ret r k' → k'.buflen = k.buflen)
      (fun p => p.2.2.buflen = k.buflen) (k.pass frag oc) := by
  have hclose {α : Type} {Q : α → Prop} {k₁ : Kws} (h : k₁.buflen = k.buflen) (reason : ℕ)
      (oc : Opcode) (data : Option Ptr) : Ends (fun x => ∀ r k', x = .ret r k' → k'.buflen = k.buflen)
        Q (k₁.closeWith reason oc data : Except Exit α) := by
    intro r k' hx
    cases hx
    exact (close_sizes k₁ reason).eqs.2.2.2.2.trans h
  have hsteps {α : Type} {k₁ : Kws} {e : Except Exit α} {f : α → Kws} (h : k₁.Steps e f)
      (hk₁ : k₁.buflen = k.buflen) : Ends (fun x => ∀ r k', x = .ret r k' → k'.buflen = k.buflen)
        (fun a => (f a).buflen = k.buflen) e := by
    refine h.mono (fun x hx r k' hret => ?_) fun a ha => ha.buflen.trans hk₁
    subst hret
    exact (Keeps.buflen hx).trans hk₁
  have hret {k₁ : Kws} (ret : FrameResult) (h : k₁.buflen = k.buflen) :
      ∀ r k', Exit.ret ret k₁ = .ret r k' → k'.buflen = k.buflen := by
    intro r k' hx
    cases hx
    exact h
  have henter : Ends (fun x => ∀ r k', x = .ret r k' → k'.buflen = k.buflen)
      (fun k₁ : Kws => k₁.buflen = k.buflen) (k.enter oc) := by
    rw [enter]
    rcases hll : k.establishLogicalLayer with x | ⟨ll, k₁⟩
    · intro r k' hx
      cases hx
    have hk₁ : k₁.buflen = k.buflen := ((establishLogicalLayer_sizes k).ok hll).eqs.2.2.2.2
    rw [Exit.lift_ok]
    simp only [bind, Except.bind]
    split_ifs
    · exact hret _ hk₁
    · exact hret _ hk₁
    · exact hk₁
    · exact hclose hk₁ 0 oc none
  rw [pass]
  refine henter.bind fun k₁ hk₁ => (hsteps (pullHeader_keeps k₁ oc) hk₁).bind fun k₂ hk₂ => ?_
  dsimp only [id]
  split_ifs
  · exact hclose (by exact hk₂) _ _ _
  · exact (hsteps (readDataFrame_keeps k₂ _) hk₂).bind fun k₃ hk₃ => hk₃
  · exact (hsteps (readDataFrame_keeps k₂ _) hk₂).bind fun k₃ hk₃ => hret _ hk₃
  · exact hclose hk₂ _ _ _

/-- A call ends where the next one starts. -/
theorem againLoop_before {fuel : ℕ} (hk : Before k₀ k frag oc)
    (hrun : againLoop fuel k frag oc = .ok (r, k')) :
    Before k₀ k'.start false Opcode.invalid ∧ k'.buflen = k.buflen := by
  induction fuel generalizing k frag oc with
  | zero => cases hrun
  | succ fuel ih =>
    have hbuf := pass_buflen k frag oc
    rw [againLoop] at hrun
    rcases hp : k.pass frag oc with (x | ⟨r₁, k₁⟩) | ⟨frag₁, oc₁, k₁⟩
    · rw [hp] at hrun
      cases hrun
    · rw [hp] at hrun hbuf
      cases hrun
      exact ⟨.next hk hp, hbuf _ _ rfl⟩
    · rw [hp] at hrun hbuf
      obtain ⟨hbefore, hlen⟩ := ih (.again hk hp) hrun
      exact ⟨hbefore, hlen.trans hbuf⟩

/-- In every run of calls whose passes find what they rely on, what a call returns as a
    message is one. -/
theorem reported_run (hbuf : 16 ≤ k₀.buflen)
    (hreg : ∀ k frag oc k₁, Before k₀ k frag oc → k.enter oc = .ok k₁ → k₁.Regular frag) (n : ℕ)
    (ds : List Delivery) (k : Kws) (hrun : k₀.readFrames n = .ok (ds, k)) : k.ReportsMessages := by
  have hinv : Before k₀ k.start false Opcode.invalid ∧ 16 ≤ k.buflen := by
    have hall : ∀ m (k₁ : Kws) ds, Before k₀ k₁.start false Opcode.invalid ∧ 16 ≤ k₁.buflen →
        k₁.readFrames m = .ok (ds, k) → Before k₀ k.start false Opcode.invalid ∧ 16 ≤ k.buflen := by
      intro m
      induction m with
      | zero =>
        intro k₁ ds h hm
        cases hm
        exact h
      | succ m ih =>
        intro k₁ ds h hm
        obtain ⟨r, k₂, ds', hr, hn, -⟩ := readFrames_succ hm
        obtain ⟨hbefore, hlen⟩ := againLoop_before h.1 hr
        exact ih k₂ ds' ⟨hbefore, Nat.le_trans h.2 (Nat.le_of_eq hlen.symm)⟩ hn
    exact hall n k₀ ds ⟨.first, hbuf⟩ hrun
  exact readFrame_reports hinv.2 hreg hinv.1

/-- A stream that ends between two fragments: the call returns an empty text. -/
theorem reported_run_torn :
    let k₀ := established [.data [0x01, 3, 65, 66, 67]]
    16 ≤ k₀.buflen ∧ ¬∀ n ds k, k₀.readFrames n = .ok (ds, k) → k.ReportsMessages := by
  refine ⟨by decide, fun h => ?_⟩
  have hrun : okAnd (fun p => p.1 = ⟨0, Opcode.text, none⟩)
      (established [.data [0x01, 3, 65, 66, 67]]).readFrame = true := by decide +kernel
  simp only [okAnd_iff, decide_eq_true_eq, Prod.exists] at hrun
  obtain ⟨r, k', hread, rfl⟩ := hrun
  obtain ⟨k₁, -, fs, payload, -, -, hdata, -⟩ := h 0 [] _ rfl _ k' hread (Int.le_refl 0) (by decide)
  cases hdata

/-- A text in two fragments. -/
def fragments : Kws := established [.data [0x01, 1, 72], .data [0x80, 1, 105]]

/-- Between two frames, where the next bytes of the stream are `bs`. -/
def Next (k : Kws) (bs : List UInt8) : Prop :=
  k.sanity ≠ 0 ∧ k.logicalEstablished = true ∧ k.handshake = true ∧ k.down = 0 ∧
    k.unprocessedBufferLen = 0 ∧ k.incoming = bs ∧
    (bs ≠ [] → okAnd (fun p => 2 ≤ p.1.ret) (k.stringRead (.buffer 0) (9 + 1) k.block))

instance (k : Kws) (bs : List UInt8) : Decidable (k.Next bs) :=
  inferInstanceAs (Decidable (_ ∧ _))

/-- Between two frames, a pass may rely on the next one if it is in its place. -/
theorem Next.regular {f : Frame} {form : LengthForm} {rest : List UInt8} (h : k.Next bs)
    (hbs : bs ≠ []) (hf : decode (unreserved bs) = some (f, form, rest)) (hplace : InPlace frag f)
    (henter : k.enter oc = .ok k₁) : k₁.Regular frag := by
  obtain ⟨hsanity, hle, hshake, hdown, hu, hin, harrives⟩ := h
  rw [(⟨hsanity, hle, hshake, hdown⟩ : k.Up).enter oc] at henter
  cases henter
  refine ⟨.inl hu, fun _ read k₂ hread => .inr (.inl ?_), fun g form rest hg _ => ?_⟩
  · have hret := harrives hbs
    rw [hread] at hret
    exact of_decide_eq_true hret
  · rw [hin, hf] at hg
    cases hg
    exact hplace

/-- The call that reads it returns a message, or none. -/
theorem reported_run_fragments : fragments.ReportsMessages := by
  refine reported_run (by decide) (fun k frag oc k₁ hk henter => ?_) 0 [] fragments rfl
  generalize hs : fragments = s at hk
  obtain ⟨hnext₁, k₂, hpass, hnext₂, r, k₃, hpass₂, hnext₃, r', k₄, hpass₃, hdown⟩ :
      s.start.Next [0x01, 1, 72, 0x80, 1, 105] ∧ ∃ k₂,
      s.start.pass false Opcode.invalid = .ok (true, Opcode.text, k₂) ∧
      k₂.Next [0x80, 1, 105] ∧ ∃ r k₃,
      k₂.pass true Opcode.text = .error (.ret r k₃) ∧ k₃.start.Next [] ∧ ∃ r' k₄,
      k₃.start.pass false Opcode.invalid = .error (.ret r' k₄) ∧ k₄.down ≠ 0 := by
    rw [← hs]
    exact ⟨by decide +kernel, _, rfl, by decide +kernel, _, _, rfl, by decide +kernel, _, _, rfl,
      by decide +kernel⟩
  have hdecode₁ : decode (unreserved [0x01, 1, 72, 0x80, 1, 105]) =
    some (⟨false, Opcode.text, none, [72]⟩, .bits7, [0x80, 1, 105]) := rfl
  have hdecode₂ : decode (unreserved [0x80, 1, 105]) =
    some (⟨true, Opcode.continuation, none, [105]⟩, .bits7, []) := rfl
  have hstates : (k = s.start ∧ frag = false ∧ oc = Opcode.invalid) ∨
      (k = k₂ ∧ frag = true ∧ oc = Opcode.text) ∨
      (k = k₃.start ∧ frag = false ∧ oc = Opcode.invalid) ∨ k.down ≠ 0 := by
    clear henter
    induction hk with
    | first => exact .inl ⟨rfl, rfl, rfl⟩
    | again _ hp ih =>
      rcases ih with ⟨rfl, rfl, rfl⟩ | ⟨rfl, rfl, rfl⟩ | ⟨rfl, rfl, rfl⟩ | hd
      · rw [hpass] at hp
        cases hp
        exact .inr (.inl ⟨rfl, rfl, rfl⟩)
      · rw [hpass₂] at hp
        cases hp
      · rw [hpass₃] at hp
        cases hp
      · obtain ⟨r, k', hclosed, -⟩ := (enter_down hd _).bind _
        cases hclosed.symm.trans hp
    | next _ hp ih =>
      rcases ih with ⟨rfl, rfl, rfl⟩ | ⟨rfl, rfl, rfl⟩ | ⟨rfl, rfl, rfl⟩ | hd
      · rw [hpass] at hp
        cases hp
      · rw [hpass₂] at hp
        cases hp
        exact .inr (.inr (.inl ⟨rfl, rfl, rfl⟩))
      · rw [hpass₃] at hp
        cases hp
        exact .inr (.inr (.inr hdown))
      · obtain ⟨r, k', hclosed, -, hd'⟩ := (enter_down hd _).bind _
        cases hclosed.symm.trans hp
        exact .inr (.inr (.inr hd'))
  rcases hstates with ⟨rfl, rfl, rfl⟩ | ⟨rfl, rfl, rfl⟩ | ⟨rfl, rfl, rfl⟩ | hd
  · exact hnext₁.regular (List.cons_ne_nil _ _) hdecode₁ ⟨by decide, .inr (.inl rfl)⟩ henter
  · exact hnext₂.regular (List.cons_ne_nil _ _) hdecode₂ (.inl rfl) henter
  · obtain ⟨hsanity, hle, hshake, hdown, hu, hin, -⟩ := hnext₃
    rw [(⟨hsanity, hle, hshake, hdown⟩ : k₃.start.Up).enter _] at henter
    cases henter
    refine ⟨.inl hu, fun h => absurd h Bool.false_ne_true, fun f form rest hf _ => ?_⟩
    rw [hin] at hf
    cases hf
  · obtain ⟨r, k', hclosed, -⟩ := enter_down hd oc
    cases hclosed.symm.trans henter

end Kws

end Libks
