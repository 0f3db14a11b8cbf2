import Libks.Kws.FrameHeader

/-!
# The payload of an arriving frame

What a pass of `kws_read_frame` does with the payload of a frame: it stores the
whole of it at `body`, unmasked (`readBody_frame`), or closes the
connection. It closes it where the first reads have taken bytes of the next
frame (`readBody_long`), where the message is over the size limit, and
where a read asks for a length that is no positive `int` (`Flows`).
-/

namespace Libks

open Base Rfc6455

/-- Every read of a payload of `need` bytes asks the transport for some, however
    many the reads before it got. -/
inductive Flows (ssl : Bool) : List ReadEvent → ℕ → Prop
  | done (es : List ReadEvent) : Flows ssl es 0
  | read {es : List ReadEvent} {need r : ℕ} (ha : Asks ssl need)
      (hr : r = min (requestSize need) (headLength es)) (h : Flows ssl (after r es) (need - r)) :
      Flows ssl es need

/-- The reads of a payload that is no longer than an `int` can say never stall. -/
theorem flows_of_lt {ssl : Bool} {es : List ReadEvent} {need : ℕ} (hne : NonEmpty es)
    (hn : need ≤ (avail es).length) (h : need < 2 ^ 31) : Flows ssl es need := by
  induction need using Nat.strong_induction_on generalizing es with
  | _ need ih =>
    rcases Nat.eq_zero_or_pos need with rfl | hpos
    · exact .done es
    · have hr := headLength_pos hne (List.ne_nil_of_length_pos (by omega))
      refine .read (asks_of_lt hpos h) rfl ?_
      rw [requestSize_of_lt h]
      refine ih _ (by omega) (hne.after _) ?_ (by omega)
      rw [avail_after, List.length_drop]
      omega

namespace Kws

variable {k : Kws} {n held need l : ℕ}

/-! ## The steps -/

/-- The message would be over the size limit. -/
def TooBig (k : Kws) (n : ℕ) : Prop :=
  toInt64 k.bbuflen ≤ k.body + (n : ℤ) ∧ k.payloadSizeMax ≠ 0 ∧
    toUInt64 k.payloadSizeMax < k.body + n + 1

instance (k : Kws) (n : ℕ) : Decidable (k.TooBig n) := inferInstanceAs (Decidable (_ ∧ _))

theorem toInt64_le (n : ℕ) : toInt64 n ≤ n := by
  rw [toInt64, Int.bmod_def]
  omega

theorem makeRoom_ok (hp : k.plen = n) (hb : k.body < 2 ^ 31) (hn : k.body + n < 2 ^ 63)
    (hbig : ¬k.TooBig n) :
    ∃ b, k.body + n < b ∧ (b = k.bbuflen ∨
        b = k.body + n + 1 ∧ ¬(k.payloadSizeMax ≠ 0 ∧ toUInt64 k.payloadSizeMax < b)) ∧
      k.makeRoom = .ok { k with bbuflen := b } := by
  have hsum : (k.body : ℤ) + k.plen = (k.body + n : ℕ) := by omega
  rw [makeRoom, if_neg (by omega), hsum, if_neg (by omega), Int.toNat_natCast]
  by_cases h : toInt64 k.bbuflen ≤ (k.body + n : ℕ)
  · rw [if_pos h, if_neg (fun h' => hbig ⟨by rwa [← Nat.cast_add], h'⟩)]
    exact ⟨_, Nat.lt_succ_self _, .inr ⟨rfl, fun h' => hbig ⟨by rwa [← Nat.cast_add], h'⟩⟩, rfl⟩
  · have := toInt64_le k.bbuflen
    rw [if_neg h]
    exact ⟨k.bbuflen, by omega, .inl rfl, rfl⟩

theorem makeRoom_tooBig (hp : k.plen = n) (hb : k.body < 2 ^ 31) (hn : k.body + n < 2 ^ 63)
    (hbig : k.TooBig n) : Closed k.makeRoom := by
  have hsum : (k.body : ℤ) + k.plen = (k.body + n : ℕ) := by omega
  rw [makeRoom, if_neg (by omega), hsum, if_neg (by omega), Int.toNat_natCast,
    if_pos (by rw [Nat.cast_add]; exact hbig.1), if_pos hbig.2]
  exact closed_closeWith _ _ _

theorem makeRoom_overflow (hp : k.plen = n) (hn : 2 ^ 31 ≤ k.body ∨ 2 ^ 63 ≤ k.body + n) :
    k.makeRoom = .error (.fault .overflow) := by
  rw [makeRoom]
  split_ifs with h h'
  · rfl
  · rfl
  all_goals omega

theorem copyHeld_ok (hp : k.plen = n) (hh : held ≤ n) (hb : k.body + n < k.bbuflen) :
    k.copyHeld ((n : ℤ) - held) = .ok { k with
      rplen := held
      bbuffer := k.bbuffer.write k.body (k.buffer.read k.payload held) } := by
  have hrp : k.plen - (n - held) = held := by omega
  have hroom : { k with rplen := held }.Room (.bbuffer k.body)
      (k.buffer.read k.payload held).length := by
    rw [Mem.length_read]
    exact Nat.le_trans (show k.body + held ≤ k.body + n by omega) (Nat.le_of_lt hb)
  have hassert : ¬((k.bbuflen : ℤ) < k.body + k.plen) := by omega
  rw [copyHeld, hrp, Int.toNat_natCast]
  by_cases h0 : held = 0
  · subst h0
    rw [if_neg (by simp)]
    simp only [bind, Except.bind]
    rw [if_neg hassert, Mem.read_zero, Mem.write_nil]
  · rw [if_pos (by simpa using h0), if_neg (show ¬((k.bbuflen : ℤ) < k.body + (held : ℕ)) by omega)]
    dsimp only
    rw [store_of_room hroom, Exit.lift_ok]
    exact if_neg hassert

/-- The state of a connection the loop of reads of the payload relies on. -/
structure Quiet (k : Kws) : Prop where
  unprocessed : k.unprocessedBufferLen = 0
  x : k.x = 0
  reads : NonEmpty k.world.reads

theorem readPayload_step {read : Read} {k₁ : Kws} {fuel : ℕ} (hrp : k.rplen = (l : ℕ))
    (hn : need ≠ 0)
    (hread : k.stringRead (.bbuffer (k.body + l)) (need + 1) wsBlock = .ok (read, k₁)) :
    readPayload (fuel + 1) k need =
      if read.ret < 1 then k₁.closeWith 0 Opcode.close
      else readPayload fuel { k₁ with
        datalen := k₁.datalen + read.ret
        rplen := k₁.rplen + read.ret } (need - read.ret.toNat) := by
  rw [readPayload, if_neg hn, hrp, Int.toNat_natCast, hread]
  rfl

/-- The loop stores the rest of the payload behind what it has of it. -/
theorem readPayload_ok {fuel : ℕ} (hflow : Flows k.ssl k.world.reads need) (hfuel : need ≤ fuel)
    (hk : k.Quiet) (hrp : k.rplen = (l : ℕ)) (hav : need ≤ (avail k.world.reads).length)
    (hroom : k.body + l + need < k.bbuflen) :
    ∃ m, m.read (k.body + l) need = (avail k.world.reads).take need ∧
      (∀ i < k.body + l, m i = k.bbuffer i) ∧
      readPayload fuel k need = .ok { k.delivered need with
        bbuffer := m
        datalen := k.datalen + need
        rplen := l + need } := by
  induction fuel generalizing k need l with
  | zero =>
    obtain rfl : need = 0 := by omega
    refine ⟨k.bbuffer, rfl, fun i _ => rfl, ?_⟩
    rw [readPayload, if_pos rfl, delivered_zero hk.x hk.reads]
    simp only [Nat.cast_zero, Int.add_zero, ← hrp]
  | succ fuel ih =>
    cases hflow with
    | done =>
      refine ⟨k.bbuffer, rfl, fun i _ => rfl, ?_⟩
      rw [readPayload, if_pos rfl, delivered_zero hk.x hk.reads]
      simp only [Nat.cast_zero, Int.add_zero, ← hrp]
    | @read _ _ r ha hr hflow =>
      have hpos : 0 < need := Nat.lt_of_lt_of_le ha.2 (requestSize_le need)
      have hne : avail k.world.reads ≠ [] := List.ne_nil_of_length_pos (by omega)
      -- One read, of the chunk that has come.
      obtain ⟨k₁, hk₁, hread⟩ := stringRead_data (q := .bbuffer (k.body + l)) (n := need)
        hk.unprocessed (patient_of_x hk.x (.inr rfl)) ha hk.reads hne (by rw [Room]; omega)
      have hc := chunk_pos hk.reads hne ha
      have hc' := k.chunk_le need
      have hlen := k.length_take_chunk need
      rw [← chunk] at hr
      rw [← hr] at hk₁ hread hc hc' hlen
      obtain ⟨m, rfl, hm, hlt⟩ := hk₁
      rw [hlen] at hm
      obtain ⟨m', hm', hlt', hloop⟩ := ih (l := l + r)
        (k := { { k with bbuffer := m }.delivered r with
          datalen := k.datalen + r
          rplen := k.rplen + r })
        hflow (by omega) ⟨hk.unprocessed, rfl, hk.reads.after r⟩ (by rw [hrp, Nat.cast_add])
        (show need - r ≤ (avail (after r k.world.reads)).length by
          rw [avail_after, List.length_drop]; omega)
        (show k.body + (l + r) + (need - r) < k.bbuflen by omega)
      -- The chunk, and what the rest of the loop reads behind it.
      have hadd : r + (need - r) = need := by omega
      refine ⟨m', ?_, fun i hi => (hlt' i (show i < k.body + (l + r) by omega)).trans (hlt i hi), ?_⟩
      · have hpre : m'.read (k.body + l) r = m.read (k.body + l) r :=
          Mem.read_congr fun i _ hi => hlt' i (show i < k.body + (l + r) by omega)
        rw [← hadd, Mem.read_add, List.take_add, hpre, hm, Nat.add_assoc]
        exact congrArg _ (hm'.trans (congrArg _ (avail_after r _)))
      · have hd : k.datalen + r + (need - r : ℕ) = k.datalen + need := by omega
        have hrl : ((l + r : ℕ) : ℤ) + (need - r : ℕ) = l + need := by omega
        rw [readPayload_step hrp (by omega) hread]
        dsimp only
        rw [if_neg (by omega), Int.toNat_natCast]
        refine hloop.trans ?_
        simp only [delivered, ← after_add, hadd, hd, hrl]

/-- A payload whose reads stall closes the connection. -/
theorem readPayload_stalled {fuel : ℕ} (hflow : ¬Flows k.ssl k.world.reads need)
    (hfuel : need ≤ fuel) (hk : k.Quiet) (hrp : k.rplen = (l : ℕ))
    (hav : need ≤ (avail k.world.reads).length) (hroom : k.body + l + need < k.bbuflen) :
    Closed (readPayload fuel k need) := by
  induction fuel generalizing k need l with
  | zero =>
    obtain rfl : need = 0 := by omega
    exact absurd (.done _) hflow
  | succ fuel ih =>
    have hpos : need ≠ 0 := by
      rintro rfl
      exact hflow (.done _)
    by_cases ha : Asks k.ssl need
    · have hne : avail k.world.reads ≠ [] := List.ne_nil_of_length_pos (by omega)
      obtain ⟨k₁, hk₁, hread⟩ := stringRead_data (q := .bbuffer (k.body + l)) (n := need)
        hk.unprocessed (patient_of_x hk.x (.inr rfl)) ha hk.reads hne (by rw [Room]; omega)
      have hc := chunk_pos hk.reads hne ha
      have hc' := k.chunk_le need
      have hr : k.chunk need = min (requestSize need) (headLength k.world.reads) := rfl
      obtain ⟨r, hr'⟩ : ∃ r, k.chunk need = r := ⟨_, rfl⟩
      rw [hr'] at hk₁ hread hc hc' hr
      obtain ⟨m, rfl, -⟩ := hk₁
      rw [readPayload_step hrp hpos hread]
      dsimp only
      rw [if_neg (by omega), Int.toNat_natCast]
      refine ih (l := l + r)
        (k := { { k with bbuffer := m }.delivered r with
          datalen := k.datalen + r
          rplen := k.rplen + r })
        (fun h => hflow (.read ha hr h)) (by omega) ⟨hk.unprocessed, rfl, hk.reads.after r⟩
        (by rw [hrp, Nat.cast_add])
        (show need - r ≤ (avail (after r k.world.reads)).length by
          rw [avail_after, List.length_drop]; omega)
        (show k.body + (l + r) + (need - r) < k.bbuflen by omega)
    · obtain ⟨r, k', hread, hr⟩ := stringRead_idle (q := .bbuffer (k.body + l))
        hk.unprocessed ha (Nat.pos_of_ne_zero hpos) (by rw [Room]; omega) wsBlock
      rw [readPayload_step hrp hpos hread, if_pos (by dsimp only; omega)]
      exact closed_closeWith _ _ _

/-- The bytes a key in memory masks. -/
theorem maskBytes_of_read {m : Mem} {mp : ℕ} {key : Key}
    (h : m.read mp key.bytes.length = key.bytes) (bs : List UInt8) :
    maskBytes (fun i => m (mp + i)) bs = key.mask bs := by
  refine maskBytes_eq (fun i => ?_) bs
  have hi : i.val < key.bytes.length := by rw [Key.length_bytes]; exact i.isLt
  rw [Mem.apply_of_read h hi]
  simp only [Key.bytes, List.getElem_ofFn, Fin.eta]

theorem finishFrame_eq {m : Mem} {oc : Opcode} {maskp : Option ℕ} (hrp : k.rplen = n)
    (hmask : k.unmask maskp = .ok { k with bbuffer := m }) (hb : k.body + n < k.bbuflen) :
    k.finishFrame oc maskp = .ok { k with
      bbuffer := if oc = Opcode.text then m.write (k.body + n) [0] else m
      packetlen := k.packetlen + n
      body := k.body + n } := by
  have hn : k.rplen.toNat = n := by rw [hrp, Int.toNat_natCast]
  rw [finishFrame, hmask]
  simp only [bind, Except.bind, hn]
  by_cases hoc : oc = Opcode.text
  · have hroom : { k with bbuffer := m }.Room (.bbuffer (k.body + n)) [(0 : UInt8)].length := hb
    rw [if_pos hoc, if_pos hoc, store_of_room hroom, Exit.lift_ok]
    simp only [put, ← hrp, hn]
    rfl
  · rw [if_neg hoc, if_neg hoc]
    simp only [← hrp]
    rfl

theorem unmask_frame {f : Frame} {form : LengthForm} (hplen : k.plen = f.payload.length)
    (hkey : k.buffer.read (2 + form.size) f.keyBytes.length = f.keyBytes)
    (hbody : k.bbuffer.read k.body f.payload.length = f.body)
    (hb : k.body + f.payload.length < k.bbuflen) :
    ∃ m, m.read k.body f.payload.length = f.payload ∧ (∀ i < k.body, m i = k.bbuffer i) ∧
      k.unmask (keyOffset f form) = .ok { k with bbuffer := m } := by
  rw [keyOffset]
  rw [Frame.keyBytes] at hkey
  rw [Frame.body] at hbody
  cases hk : f.key with
  | none =>
    rw [hk] at hbody
    exact ⟨k.bbuffer, hbody, fun i _ => rfl, rfl⟩
  | some key =>
    rw [hk] at hbody hkey
    have hmask : maskBytes (fun i => k.buffer (2 + form.size + i)) (key.mask f.payload) =
        f.payload := by
      rw [maskBytes_of_read hkey, Key.mask_mask]
    refine ⟨k.bbuffer.write k.body f.payload, Mem.read_write_self _ _ _,
      fun i hi => Mem.write_apply_of_lt hi, ?_⟩
    have hn : k.plen.toNat = f.payload.length := by rw [hplen, Int.toNat_natCast]
    have hroom : k.Room (.bbuffer k.body) f.payload.length := Nat.le_of_lt hb
    rw [Option.isSome_some, if_pos rfl, unmask, hn, hbody, hmask,
      store_of_room hroom]
    rfl

/-! ## The payload of a frame -/

/-- The header of a frame is in the buffer, and `held` bytes behind it. -/
structure AtBody (k : Kws) (f : Frame) (form : LengthForm) (rest : List UInt8) (held : ℕ) :
    Prop where
  quiet : k.Quiet
  small : held ≤ 9
  plen : k.plen = f.payload.length
  datalen : k.datalen = (f.headerLength form + held : ℕ)
  bytes : k.buffer.read k.payload held = (f.body ++ rest).take held
  key : k.buffer.read (2 + form.size) f.keyBytes.length = f.keyBytes
  avail : avail k.world.reads = (f.body ++ rest).drop held

variable {f : Frame} {form : LengthForm} {rest : List UInt8} {oc : Opcode}

theorem AtBody.need_eq (h : k.AtBody f form rest held) :
    k.plen - (k.datalen - (f.headerLength form : ℕ)) = (f.payload.length : ℤ) - held := by
  rw [h.plen, h.datalen]
  omega

/-- Bytes of the next frame among those held close the connection. -/
theorem readBody_long (h : k.AtBody f form rest held) (hlong : f.payload.length < held)
    (maskp : Option ℕ) : Closed (k.readBody oc (f.headerLength form) maskp) := by
  have := h.small
  rw [readBody, h.need_eq, if_neg (by omega), if_pos (by omega)]
  exact closed_closeWith _ _ _

theorem readBody_short (h : k.AtBody f form rest held) (hle : held ≤ f.payload.length)
    (maskp : Option ℕ) :
    k.readBody oc (f.headerLength form) maskp =
      (do
        let k ← k.makeRoom
        let k ← k.copyHeld ((f.payload.length : ℤ) - held)
        let k ← readPayload (f.payload.length - held) k (f.payload.length - held)
        k.finishFrame oc maskp) := by
  rw [readBody, h.need_eq, if_neg (by omega), if_neg (by omega),
    show ((f.payload.length : ℤ) - held).toNat = f.payload.length - held by omega]

/-- The payload after the copy of what is held. -/
def copied (k : Kws) (b held : ℕ) : Kws :=
  { k with
    bbuflen := b
    rplen := held
    bbuffer := k.bbuffer.write k.body (k.buffer.read k.payload held) }

theorem readBody_copied {b : ℕ} (h : k.AtBody f form rest held) (hle : held ≤ f.payload.length)
    (hb : k.body + f.payload.length < b) (hroom : k.makeRoom = .ok { k with bbuflen := b })
    (maskp : Option ℕ) :
    k.readBody oc (f.headerLength form) maskp =
      (do
        let k ← readPayload (f.payload.length - held) (k.copied b held) (f.payload.length - held)
        k.finishFrame oc maskp) := by
  rw [readBody_short h hle, hroom]
  have hcopy := copyHeld_ok (k := { k with bbuflen := b }) h.plen hle hb
  simp only [bind, Except.bind, hcopy]
  rfl

theorem readBody_frame (oc : Opcode) (h : k.AtBody f form rest held) (hle : held ≤ f.payload.length)
    (hb : k.body < 2 ^ 31) (hn : k.body + f.payload.length < 2 ^ 63)
    (hbig : ¬k.TooBig f.payload.length)
    (hflow : Flows k.ssl k.world.reads (f.payload.length - held)) :
    ∃ m b, m.read k.body f.payload.length = f.payload ∧ (∀ i < k.body, m i = k.bbuffer i) ∧
      k.body + f.payload.length < b ∧
      k.readBody oc (f.headerLength form) (keyOffset f form) =
        .ok { k.delivered (f.payload.length - held) with
          bbuffer := m
          bbuflen := b
          datalen := (f.headerLength form + f.payload.length : ℕ)
          rplen := f.payload.length
          packetlen := k.packetlen + f.payload.length
          body := k.body + f.payload.length } := by
  obtain ⟨b, hlt, -, hroom⟩ := makeRoom_ok h.plen hb hn hbig
  have hav : f.payload.length - held ≤ (Libks.avail k.world.reads).length := by
    rw [h.avail, List.length_drop, List.length_append, Frame.length_body]
    omega
  obtain ⟨m, hm, hpre, hread⟩ := readPayload_ok (k := k.copied b held) (l := held) hflow
    (Nat.le_refl _) ⟨h.quiet.unprocessed, h.quiet.x, h.quiet.reads⟩ rfl hav
    (show k.body + held + (f.payload.length - held) < b by omega)
  -- What came with the header, and what was read behind it, are the body.
  have hbody : m.read k.body f.payload.length = f.body := by
    have hlow : m.read k.body held = (f.body ++ rest).take held := by
      have hwrite := Mem.read_write_self k.bbuffer k.body (k.buffer.read k.payload held)
      rw [Mem.length_read] at hwrite
      exact (Mem.read_congr fun i _ hi => hpre i hi).trans (hwrite.trans h.bytes)
    have hhigh : m.read (k.body + held) (f.payload.length - held) =
        ((f.body ++ rest).drop held).take (f.payload.length - held) :=
      hm.trans (congrArg _ h.avail)
    have hadd : f.payload.length = held + (f.payload.length - held) := by omega
    rw [hadd, Mem.read_add, hlow, hhigh, ← List.take_add, ← hadd, ← f.length_body, List.take_left]
  have hrl : (held : ℤ) + (f.payload.length - held : ℕ) = f.payload.length := by omega
  have hd : k.datalen + (f.payload.length - held : ℕ) =
      (f.headerLength form + f.payload.length : ℕ) := by
    rw [h.datalen]
    omega
  -- Unmasking touches the payload alone.
  obtain ⟨m', hm', hpre', hunmask⟩ := unmask_frame
    (k := { (k.copied b held).delivered (f.payload.length - held) with
      bbuffer := m
      datalen := (f.headerLength form + f.payload.length : ℕ)
      rplen := f.payload.length }) h.plen h.key hbody hlt
  refine ⟨if oc = Opcode.text then m'.write (k.body + f.payload.length) [0] else m', b, ?_, ?_, hlt,
    ?_⟩
  · split_ifs
    · rw [Mem.read_write_of_disjoint (.inl (Nat.le_refl _))]
      exact hm'
    · exact hm'
  · intro i hi
    have h' : m' i = k.bbuffer i := by
      refine (hpre' i hi).trans ((hpre i (show i < k.body + held by omega)).trans ?_)
      exact Mem.write_apply_of_lt hi
    split_ifs
    · rwa [Mem.write_apply_of_lt (by omega)]
    · exact h'
  · rw [readBody_copied h hle hlt hroom, hread]
    simp only [bind, Except.bind, hrl]
    rw [show (k.copied b held).datalen = k.datalen from rfl, hd, finishFrame_eq rfl hunmask hlt]
    rfl

/-- Anything that keeps the payload from being read ends the connection. -/
theorem readBody_not_clear (oc : Opcode) (maskp : Option ℕ) (h : k.AtBody f form rest held)
    (hc : ¬(held ≤ f.payload.length ∧ k.body < 2 ^ 31 ∧ k.body + f.payload.length < 2 ^ 63 ∧
      ¬k.TooBig f.payload.length ∧ Flows k.ssl k.world.reads (f.payload.length - held))) :
    Closed (k.readBody oc (f.headerLength form) maskp) ∨
      k.readBody oc (f.headerLength form) maskp = .error (.fault .overflow) := by
  by_cases hle : held ≤ f.payload.length
  · by_cases hsum : k.body < 2 ^ 31 ∧ k.body + f.payload.length < 2 ^ 63
    · by_cases hbig : k.TooBig f.payload.length
      · rw [readBody_short h hle]
        exact .inl ((makeRoom_tooBig h.plen hsum.1 hsum.2 hbig).bind _)
      · obtain ⟨b, hlt, -, hroom⟩ := makeRoom_ok h.plen hsum.1 hsum.2 hbig
        have hav : f.payload.length - held ≤ (Libks.avail k.world.reads).length := by
          rw [h.avail, List.length_drop, List.length_append, Frame.length_body]
          omega
        rw [readBody_copied h hle hlt hroom]
        refine .inl (Closed.bind (readPayload_stalled (k := k.copied b held) (l := held)
          (fun hflow => hc ⟨hle, hsum.1, hsum.2, hbig, hflow⟩) (Nat.le_refl _)
          ⟨h.quiet.unprocessed, h.quiet.x, h.quiet.reads⟩ rfl hav
          (show k.body + held + (f.payload.length - held) < b by omega)) _)
    · rw [readBody_short h hle, makeRoom_overflow h.plen (by omega)]
      exact .inr rfl
  · exact .inl (readBody_long h (by omega) maskp)

end Kws

end Libks
