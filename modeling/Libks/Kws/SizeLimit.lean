import Libks.Kws.FrameSafety

/-!
# The size limit of messages

`kws_read_frame` compares a message with `payload_size_max` only where the body buffer
has to grow for it, and it compares the size of the buffer, which has room for a
terminator. So a message over the limit goes through if the buffer has room for it
anyway, and a message of just the limit is refused if the buffer has to grow for it.
In a run in which no frame brings a message to such a length (`Apt`), the limit does
what it is for (`limited_run`). The invariant is `Bounded`: the buffer has the size it was
created with, or it has grown up to the limit.
-/

namespace Libks

open Base

namespace Kws

variable {k k' k₁ k₂ : Kws} {m n need : ℕ} {oc : Opcode}

/-! ## What leaves the message alone -/

/-- The message so far, the sizes of the buffers, and the limit. -/
def sizes (k : Kws) : ℕ × ℕ × ℤ × ℤ × ℕ :=
  (k.body, k.bbuflen, k.packetlen, k.payloadSizeMax, k.buflen)

/-- `k'` is no other than `k` in this. -/
def SameSizes (k k' : Kws) : Prop := k'.sizes = k.sizes

theorem SameSizes.refl (k : Kws) : k.SameSizes k := rfl

theorem SameSizes.trans (h₁ : k.SameSizes k₁) (h₂ : k₁.SameSizes k₂) : k.SameSizes k₂ :=
  Eq.trans h₂ h₁

/-- The sizes, one by one. -/
theorem SameSizes.eqs (h : k.SameSizes k') :
    k'.body = k.body ∧ k'.bbuflen = k.bbuflen ∧ k'.packetlen = k.packetlen ∧
      k'.payloadSizeMax = k.payloadSizeMax ∧ k'.buflen = k.buflen := by
  simpa only [SameSizes, sizes, Prod.mk.injEq] using h

/-- A read leaves the sizes alone. -/
theorem ReadFrom.sizes (h : k.ReadFrom k') : k.SameSizes k' := by
  obtain ⟨_, _, _, _, _, _, _, rfl⟩ := h
  rfl

/-- A step that leaves the message alone, if it succeeds. -/
abbrev Spares {α : Type} (k : Kws) (e : Except Fault α) (f : α → Kws) : Prop :=
  Ends (fun _ => True) (fun a => k.SameSizes (f a)) e

/-- `kws_close` leaves the sizes alone, whichever way it ends. -/
theorem close_sizes (k : Kws) (reason : ℕ) : k.SameSizes (k.close reason).2 := by
  have htls (k₁ : Kws) : k₁.SameSizes k₁.closeTls := by
    rw [closeTls]
    split_ifs <;> rfl
  have hframe (k₁ : Kws) (r : ℕ) : k₁.SameSizes (k₁.closeFrame r).2 := by
    rw [closeFrame]
    cases k₁.type <;> rfl
  have hend (k₁ : Kws) (h : k.SameSizes k₁) : k.SameSizes { k₁.closeTls with sock := false } :=
    h.trans (htls k₁)
  rw [close]
  by_cases hd : k.down ≠ 0
  · rw [if_pos hd]
    rfl
  · rw [if_neg hd]
    refine hend _ ?_
    split_ifs
    · exact hframe { k with down := 1, uri := none } _
    · exact hframe { k with down := 1, uri := none } _
    · rfl

/-- The answer of the server is read: induction on the fuel. -/
theorem readResponse_sizes (fuel : ℕ) (k : Kws) : k.Spares (readResponse fuel k) Prod.snd := by
  induction fuel generalizing k with
  | zero => trivial
  | succ fuel ih =>
    rw [readResponse]
    refine (stringRead_from k _ _ _).bind ?_
    rintro ⟨read, k₁⟩ ⟨h₁, -⟩
    dsimp only
    split_ifs
    · exact (ih k₁).imp fun _ h => h₁.sizes.trans h
    · exact h₁.sizes

theorem checkResponse_sizes (k : Kws) (enonce : List UInt8) (bytes : ℤ) :
    k.SameSizes (k.checkResponse enonce bytes).2 := by
  rw [checkResponse]
  dsimp only
  split_ifs
  · rfl
  · rfl
  · split
    · split_ifs <;> rfl
    · rfl

/-- The client's end of the handshake. -/
theorem wsClientHandshake_sizes (k : Kws) : k.Spares k.wsClientHandshake Prod.snd := by
  rw [wsClientHandshake]
  refine (readResponse_sizes _ _).bind ?_
  rintro ⟨bytes, k₁⟩ h₁
  have h : k.SameSizes k₁ := h₁
  exact h.trans (checkResponse_sizes k₁ _ _)

/-- The request of the client is read: induction on the fuel. -/
theorem readRequest_sizes (fuel : ℕ) (k : Kws) : k.Spares (readRequest fuel k) Prod.snd := by
  induction fuel generalizing k with
  | zero => trivial
  | succ fuel ih =>
    rw [readRequest]
    refine (stringRead_from k _ _ _).bind ?_
    rintro ⟨read, k₁⟩ ⟨h₁, -⟩
    dsimp only
    split_ifs
    · exact h₁.sizes
    · exact (ih _).imp fun _ h => h₁.sizes.trans h
    · exact h₁.sizes

/-- A handshake that is refused. -/
theorem serverHandshakeError_sizes (k : Kws) (bytes : ℤ) :
    k.SameSizes (k.serverHandshakeError bytes).2 := by
  rw [serverHandshakeError]
  dsimp only
  split_ifs
  · rfl
  · rfl
  · exact close_sizes (k.rawWrite _).2 0
  · exact close_sizes k 0

/-- A request that is answered. -/
theorem answerRequest_sizes (k : Kws) (bytes : ℤ) : k.SameSizes (k.answerRequest bytes).2 := by
  have herror (k₁ : Kws) (h : k.SameSizes k₁) : k.SameSizes (k₁.serverHandshakeError bytes).2 :=
    h.trans (serverHandshakeError_sizes k₁ bytes)
  rw [answerRequest]
  dsimp only
  split_ifs
  · split
    · exact herror k rfl
    · split_ifs
      · exact herror _ rfl
      · exact herror _ rfl
      · rfl
  · exact herror k rfl

/-- The server's end of the handshake. -/
theorem wsServerHandshake_sizes (k : Kws) : k.Spares k.wsServerHandshake Prod.snd := by
  -- The request is read, and then answered or refused.
  rw [wsServerHandshake]
  by_cases hsock : k.sock = true
  · rw [if_neg (not_not_intro hsock)]
    refine (readRequest_sizes _ k).bind ?_
    rintro ⟨bytes, k₁⟩ h₁
    dsimp only
    split_ifs
    · exact SameSizes.trans h₁ (serverHandshakeError_sizes k₁ bytes)
    · refine (store_from k₁ _ _).bind fun k₂ h₂ => ?_
      exact SameSizes.trans h₁ (h₂.sizes.trans (answerRequest_sizes k₂ bytes))
  · rw [if_pos hsock]
    exact SameSizes.refl k

theorem establishSecure_sizes (k : Kws) : k.SameSizes k.establishSecure.2 := by
  rw [establishSecure]
  split_ifs <;> rfl

theorem validateCertificate_sizes (k : Kws) : k.SameSizes k.validateCertificate.2 := by
  rw [validateCertificate]
  dsimp only
  split_ifs <;> rfl

/-- Either end, where its handshake leaves the sizes alone. -/
theorem establishWebSocket_sizes {handshake : Kws → Except Fault (ℤ × Kws)}
    (hs : ∀ k : Kws, k.Spares (handshake k) Prod.snd) (k : Kws) :
    k.Spares (k.establishWebSocket handshake) Prod.snd := by
  rw [establishWebSocket]
  split_ifs
  · exact SameSizes.refl k
  · refine (hs k).bind ?_
    rintro ⟨r, k₁⟩ h₁
    dsimp only
    split_ifs
    · exact h₁
    · exact h₁

/-- `kws_establish_logical_layer`, TLS and WebSocket. -/
theorem establishLogicalLayer_sizes (k : Kws) : k.Spares k.establishLogicalLayer Prod.snd := by
  have hsecure := establishSecure_sizes k
  rw [establishLogicalLayer, establishClientLogicalLayer, establishServerLogicalLayer]
  generalize k.establishSecure = s at hsecure ⊢
  obtain ⟨code, k₁⟩ := s
  have h₁ : k.SameSizes k₁ := hsecure
  -- A check of the certificate ends the one of the client only.
  cases k.type with
  | client =>
    dsimp only
    split_ifs
    · exact SameSizes.refl k
    · exact SameSizes.refl k
    · cases code with
      | some code => exact h₁
      | none =>
        refine (establishWebSocket_sizes wsClientHandshake_sizes k₁).bind ?_
        rintro ⟨code, k₂⟩ h₂
        cases code with
        | some code => exact h₁.trans h₂
        | none => exact h₁.trans (SameSizes.trans h₂ (validateCertificate_sizes _))
  | server =>
    dsimp only
    split_ifs
    · exact SameSizes.refl k
    · exact SameSizes.refl k
    · cases code with
      | some code => exact h₁
      | none =>
        refine (establishWebSocket_sizes wsServerHandshake_sizes k₁).bind ?_
        rintro ⟨code, k₂⟩ h₂
        cases code with
        | some code => exact h₁.trans h₂
        | none => exact h₁.trans h₂

/-! ## The size test -/

/-- The pass has read the header of a frame, and in `k₂` the size of the message with this
    frame is put to the test. -/
def AtSizeTest (k : Kws) (oc : Opcode) (k₂ : Kws) : Prop :=
  ∃ k₀ k₁ n maskp, k.enter oc = .ok k₀ ∧ k₀.pullHeader oc = .ok k₁ ∧
    Opcode.IsData (opcodeOf (k₁.buffer 0)) ∧ k₁.readHeader = .ok (n, maskp, k₂) ∧
    0 ≤ k₂.plen - (k₂.datalen - n)

/-- What a limit of `m` bytes asks of a pass: it delivers no longer message, and only a
    longer one does not pass the test. -/
structure Limited (m : ℕ) (k : Kws) (frag : Bool) (oc : Opcode) : Prop where
  delivered : ∀ r k', k.pass frag oc = .error (.ret r k') → r.data = some (.bbuffer 0) → r.ret ≤ m
  refused : ∀ k₂ r k', k.AtSizeTest oc k₂ → k₂.makeRoom = .error (.ret r k') →
    (m : ℤ) < k₂.body + k₂.plen

/-- A length for which the test does what the limit asks. The body buffer is created with
    65536 bytes: below that, whatever has room in it passes. From there on, a message of
    just the limit does not pass. -/
def Apt (m : ℕ) (t : ℤ) : Prop := if m < 65536 then t ≤ m ∨ 65536 ≤ t else t ≠ m

/-- Between two frames, the body buffer has the size it was created with, or it has grown
    up to the limit. -/
structure Bounded (k : Kws) (m : ℕ) : Prop where
  limit : k.payloadSizeMax = m
  bbuflen : 65536 ≤ k.bbuflen ∧ (k.bbuflen = 65536 ∨ k.bbuflen ≤ m)
  packetlen : k.packetlen = k.body

/-- Whatever leaves the sizes alone keeps the bound. -/
theorem Bounded.sizes (h : k.Bounded m) (hs : k.SameSizes k') : k'.Bounded m := by
  obtain ⟨hbody, hbbuflen, hpacketlen, hmax, -⟩ := hs.eqs
  exact ⟨hmax.trans h.limit, by rw [hbbuflen]; exact h.bbuflen, by rw [hpacketlen, hbody, h.packetlen]⟩

/-- A call starts with an empty packet. -/
theorem Bounded.start (h : k.Bounded m) : k.start.Bounded m := ⟨h.limit, h.bbuflen, rfl⟩

/-- A pass that leaves the call has delivered no longer message. -/
def LeavesBounded (m : ℕ) : Exit → Prop
  | .fault _ => True
  | .ret r k => (k.down ≠ 0 ∨ k.Bounded m) ∧ (r.data = some (.bbuffer 0) → r.ret ≤ m)

/-- An early return by way of `kws_close` is one of a connection that is down. -/
theorem ends_closeWith {α : Type} {E : Exit → Prop} {Q : α → Prop} (k : Kws) (reason : ℕ)
    (oc : Opcode) (data : Option Ptr)
    (h : ∀ r k', r.data = data → k'.down ≠ 0 → E (.ret r k')) :
    Ends E Q (k.closeWith reason oc data : Except Exit α) :=
  h _ _ rfl (k.down_close reason)

/-- Behind `kws_close` there is nothing left to bound. -/
theorem leavesBounded_of_down {r : FrameResult} (hr : r.data = none) (hd : k.down ≠ 0) :
    LeavesBounded m (.ret r k) := by
  refine ⟨.inl hd, fun h => ?_⟩
  rw [hr] at h
  cases h

/-- An early return with `kws_close` is no excess. -/
theorem leavesBounded_closeWith {α : Type} {Q : α → Prop} (k : Kws) (reason : ℕ) (oc : Opcode) :
    Ends (LeavesBounded m) Q (k.closeWith reason oc : Except Exit α) :=
  ends_closeWith k reason oc none fun _ _ => leavesBounded_of_down

/-- A fault is no excess. -/
theorem lift_ends {α : Type} {e : Except Fault α} {Q : α → Prop}
    (h : Ends (fun _ => True) Q e) : Ends (LeavesBounded m) Q (Exit.lift e) := by
  cases e with
  | ok a => exact h
  | error x => trivial

/-- The start of a pass. -/
theorem enter_bounded (h : k.Bounded m) (oc : Opcode) :
    Ends (LeavesBounded m) k.SameSizes (k.enter oc) := by
  rw [enter]
  refine (lift_ends (establishLogicalLayer_sizes k)).bind ?_
  rintro ⟨ll, k₁⟩ h₁
  dsimp only
  -- The layer has failed, the connection is down, up, or without a handshake.
  split_ifs
  · exact ⟨.inr (h.sizes h₁), fun h => absurd h (Option.some_ne_none _).symm⟩
  · exact ⟨.inr (h.sizes h₁), fun h => absurd h (Option.some_ne_none _).symm⟩
  · exact h₁
  · exact leavesBounded_closeWith k₁ 0 oc

/-- Two bytes of the header are there, or the pass ends. -/
theorem pullHeader_bounded (h : k.Bounded m) (oc : Opcode) :
    Ends (LeavesBounded m) (fun k₁ => k.SameSizes k₁ ∧ 2 ≤ k₁.datalen) (k.pullHeader oc) := by
  rw [pullHeader]
  refine (lift_ends (stringRead_from k _ _ _)).bind ?_
  rintro ⟨read, k₁⟩ ⟨h₁, -⟩
  have hs₁ : k.SameSizes { k₁ with datalen := read.ret } := h₁.sizes
  dsimp only
  split_ifs with hneg hwait hshort
  · exact ⟨.inr (h.sizes hs₁), fun h => absurd h (Option.some_ne_none _).symm⟩
  · exact leavesBounded_closeWith _ 0 oc
  · refine (lift_ends (stringRead_from { k₁ with datalen := read.ret } _ _ _)).bind ?_
    rintro ⟨read₂, k₂⟩ ⟨h₂, -⟩
    dsimp only
    split_ifs with hneg₂ hshort₂
    · exact leavesBounded_closeWith _ 0 oc
    · exact leavesBounded_closeWith _ 0 oc
    · exact ⟨hs₁.trans h₂.sizes, Int.not_lt.1 hshort₂⟩
  · exact ⟨hs₁, Int.not_lt.1 hshort⟩

/-- The header is all there, or the pass ends. -/
theorem topUp_bounded (k : Kws) (need : ℕ) :
    Ends (LeavesBounded m) (fun k₁ => k.SameSizes k₁ ∧ (need : ℤ) ≤ k₁.datalen) (k.topUp need) := by
  rw [topUp]
  split_ifs with hlt
  · refine (lift_ends (stringReadBlocking_from k _ _ _)).bind ?_
    rintro ⟨bytes, k₁⟩ h₁
    dsimp only
    split_ifs with hneg hshort
    · exact leavesBounded_closeWith _ 0 _
    · exact leavesBounded_closeWith _ 0 _
    · have hs₁ : k.SameSizes k₁ := ReadFrom.sizes h₁
      exact ⟨hs₁, Int.not_lt.1 hshort⟩
  · exact ⟨.refl k, Int.not_lt.1 hlt⟩

/-- The extended length is no longer than what has been read. -/
theorem readLength_bounded (hneed : (need : ℤ) ≤ k.datalen) :
    Ends (LeavesBounded m) (fun p => k.SameSizes p.2 ∧ (p.1 : ℤ) ≤ p.2.datalen)
      (k.readLength need) := by
  rw [readLength]
  split_ifs
  · exact (topUp_bounded k _).bind fun k₁ h₁ => h₁
  · exact (topUp_bounded k _).bind fun k₁ h₁ => h₁
  · exact ⟨rfl, hneed⟩

/-- The header ends within what has been read, so that a payload follows it. -/
theorem readHeader_bounded (hd : 2 ≤ k.datalen) :
    Ends (LeavesBounded m) (fun p => k.SameSizes p.2.2 ∧ (p.1 : ℤ) ≤ p.2.2.datalen)
      k.readHeader := by
  rw [readHeader]
  split_ifs
  · refine (topUp_bounded k 6).bind ?_
    rintro k₁ ⟨h₁, hd₁⟩
    refine (readLength_bounded hd₁).bind ?_
    rintro ⟨n, k₂⟩ ⟨h₂, hn⟩
    exact ⟨h₁.trans h₂, hn⟩
  · exact (readLength_bounded hd).bind fun p hp => hp

/-! ## The payload -/

/-- The test: a length that passes it has room and, if it is one for which the test does
    what the limit asks, is within the limit; one that does not pass is over it. -/
theorem makeRoom_bounded (h : k.Bounded m) (hm : 0 < m) (hm' : m < 2 ^ 63)
    (hapt : Apt m (k.body + k.plen)) :
    Ends (fun x => LeavesBounded m x ∧ ∀ r k', x = .ret r k' → (m : ℤ) < k.body + k.plen)
      (fun k₁ : Kws => ∃ b, k₁ = { k with bbuflen := b } ∧ k₁.Bounded m ∧
        k.body + k.plen ≤ m) k.makeRoom := by
  obtain ⟨hlow, hhigh⟩ := h.bbuflen
  have hlen : toInt64 k.bbuflen = k.bbuflen := toInt64_of_lt (by omega)
  have hmax : toUInt64 k.payloadSizeMax = m := by
    rw [h.limit, toUInt64]
    omega
  have hne : k.payloadSizeMax ≠ 0 := by
    rw [h.limit]
    omega
  -- The test on the size of the buffer decides as the limit does, for such a length.
  have hle : ¬(k.bbuflen : ℤ) ≤ k.body + k.plen ∨ k.body + k.plen + 1 ≤ m →
      k.body + k.plen ≤ (m : ℤ) := by
    rw [Apt] at hapt
    split_ifs at hapt <;> omega
  have hgt : (k.bbuflen : ℤ) ≤ k.body + k.plen → ¬k.body + k.plen + 1 ≤ (m : ℤ) →
      (m : ℤ) < k.body + k.plen := by
    rw [Apt] at hapt
    split_ifs at hapt <;> omega
  have hfault : LeavesBounded m (.fault .overflow) ∧
      ∀ r k', Exit.fault .overflow = .ret r k' → (m : ℤ) < k.body + k.plen := by
    refine ⟨trivial, fun r k' hx => ?_⟩
    cases hx
  -- No room and over the limit, room made, room left.
  rw [makeRoom]
  split_ifs with hbody hsum hgrow
  · exact hfault
  · exact hfault
  · rw [hlen] at hgrow
    dsimp only
    split_ifs with hbig
    · rw [hmax] at hbig
      exact ends_closeWith _ 0 _ none fun r k' hr hd =>
        ⟨leavesBounded_of_down hr hd, fun _ _ _ => hgt hgrow (by omega)⟩
    · have hfits : k.body + k.plen + 1 ≤ (m : ℤ) := by
        by_contra hover
        exact hbig ⟨hne, by rw [hmax]; omega⟩
      exact ⟨_, rfl, ⟨h.limit, by dsimp only; omega, h.packetlen⟩, hle (.inr hfits)⟩
  · rw [hlen] at hgrow
    exact ⟨k.bbuflen, rfl, h, hle (.inl hgrow)⟩

/-- What has been read of the payload is what came with the header. -/
theorem copyHeld_bounded (k : Kws) (need : ℤ) :
    Ends (LeavesBounded m) (fun k₁ => k.SameSizes k₁ ∧ k₁.plen = k.plen ∧ k₁.rplen = k.plen - need)
      (k.copyHeld need) := by
  -- The assertion behind the copy.
  have hassert (k₁ : Kws) (h₁ : k.SameSizes k₁ ∧ k₁.plen = k.plen ∧ k₁.rplen = k.plen - need) :
      Ends (LeavesBounded m)
        (fun k₁ => k.SameSizes k₁ ∧ k₁.plen = k.plen ∧ k₁.rplen = k.plen - need)
        (if (k₁.bbuflen : ℤ) < k₁.body + k₁.plen then .error (.fault .assertion)
          else .ok k₁ : Except Exit Kws) := by
    split_ifs
    · trivial
    · exact h₁
  rw [copyHeld]
  dsimp only
  by_cases h0 : k.plen - need ≠ 0
  · rw [if_pos h0]
    by_cases hlt : (k.bbuflen : ℤ) < k.body + (k.plen - need)
    · rw [if_pos hlt]
      trivial
    · rw [if_neg hlt]
      refine (lift_ends (store_from _ _ _)).bind fun k₁ hk₁ => hassert k₁ ?_
      obtain ⟨_, _, _, _, _, _, _, rfl⟩ := hk₁
      exact ⟨rfl, rfl, rfl⟩
  · rw [if_neg h0]
    exact hassert _ ⟨rfl, rfl, rfl⟩

/-- All that was left is read, or the pass ends: induction on the fuel. -/
theorem readPayload_bounded {f : ℕ} (k : Kws) (need : ℕ) :
    Ends (LeavesBounded m)
      (fun k₁ => k.SameSizes k₁ ∧ k₁.plen = k.plen ∧ k₁.rplen = k.rplen + need)
      (readPayload f k need) := by
  induction f generalizing k need with
  | zero =>
    rw [readPayload]
    split_ifs with h0
    · exact ⟨rfl, rfl, by rw [h0]; exact (Int.add_zero _).symm⟩
    · trivial
  | succ f ih =>
    rw [readPayload]
    split_ifs with h0
    · exact ⟨rfl, rfl, by rw [h0]; exact (Int.add_zero _).symm⟩
    refine (lift_ends (stringRead_from k _ _ _)).bind ?_
    rintro ⟨read, k₁⟩ ⟨h₁, hret⟩
    obtain ⟨_, _, _, _, _, _, _, rfl⟩ := h₁
    dsimp only at hret ⊢
    split_ifs with hpos
    · exact leavesBounded_closeWith _ 0 _
    -- What a read takes from `need` it adds to `rplen`.
    · refine (ih _ _).imp ?_
      rintro k₂ ⟨hs, hplen, hrplen⟩
      refine ⟨hs, hplen, hrplen.trans ?_⟩
      dsimp only
      omega

/-- A finished frame has all of its payload in the packet. -/
theorem finishFrame_bounded (h : k.Bounded m) (hrplen : k.rplen = k.plen) (hplen : 0 ≤ k.plen)
    (oc : Opcode) (maskp : Option ℕ) :
    Ends (LeavesBounded m) (fun k₁ => k₁.Bounded m ∧ k₁.packetlen = k.body + k.plen)
      (k.finishFrame oc maskp) := by
  -- The frame is added to the packet, and the body goes on behind it.
  have hend (k₁ : Kws) (h₁ : k.ReadFrom k₁) :
      { k₁ with
        packetlen := k₁.packetlen + k₁.rplen
        body := k₁.body + k₁.rplen.toNat }.Bounded m ∧
      k₁.packetlen + k₁.rplen = k.body + k.plen := by
    obtain ⟨_, _, _, _, _, _, _, rfl⟩ := h₁
    have hp := h.packetlen
    refine ⟨⟨h.limit, h.bbuflen, ?_⟩, ?_⟩
    · dsimp only
      omega
    · dsimp only
      omega
  have hunmask : Ends (LeavesBounded m) k.ReadFrom (k.unmask maskp) := by
    cases maskp with
    | none => exact ReadFrom.refl k
    | some maskp => exact lift_ends (store_from k _ _)
  rw [finishFrame]
  refine hunmask.bind fun k₁ h₁ => ?_
  split_ifs
  · exact (lift_ends (store_from k₁ _ _)).bind fun k₂ h₂ => hend k₂ (h₁.trans h₂)
  · exact hend k₁ h₁

/-- The size test stands in front of the store: a packet that passes it is within the limit,
    and one that does not ends the pass by way of `kws_close`. -/
theorem readBody_bounded (h : k.Bounded m) (hm : 0 < m) (hm' : m < 2 ^ 63)
    (hd : (n : ℤ) ≤ k.datalen)
    (hapt : 0 ≤ k.plen - (k.datalen - n) → Apt m (k.body + k.plen)) (oc : Opcode)
    (maskp : Option ℕ) :
    Ends (LeavesBounded m) (fun k₁ => k₁.Bounded m ∧ k₁.packetlen ≤ (m : ℤ))
      (k.readBody oc n maskp) := by
  rw [readBody]
  split_ifs with hover hneg
  · trivial
  · exact leavesBounded_closeWith k 0 _
  have hneed := Int.not_lt.1 hneg
  refine ((makeRoom_bounded h hm hm' (hapt hneed)).mono (fun x hx => hx.1)
    (fun _ => id)).bind ?_
  rintro k₁ ⟨b, rfl, h₁, hle⟩
  refine (copyHeld_bounded _ _).bind ?_
  rintro k₂ ⟨hs₂, hplen₂, hrplen₂⟩
  refine (readPayload_bounded k₂ _).bind ?_
  rintro k₃ ⟨hs₃, hplen₃, hrplen₃⟩
  have hs := hs₂.trans hs₃
  have hp₃ : k₃.plen = k.plen := hplen₃.trans hplen₂
  refine (finishFrame_bounded (h₁.sizes hs) ?_ (by omega) oc maskp).imp ?_
  · omega
  · rintro k₄ ⟨h₄, hlen⟩
    have hbody : k₃.body = k.body := hs.eqs.1
    exact ⟨h₄, by omega⟩

/-! ## Runs -/

/-- At the test, the body buffer is as it was when the pass began. -/
theorem AtSizeTest.bounded (h : k.Bounded m) (ht : k.AtSizeTest oc k₂) :
    k₂.Bounded m := by
  obtain ⟨k₀, k₁, n, maskp, henter, hpull, -, hheader, -⟩ := ht
  have h₀ := h.sizes ((enter_bounded h oc).ok henter)
  obtain ⟨hs₁, hd₁⟩ := (pullHeader_bounded h₀ oc).ok hpull
  have hs₂ := ((readHeader_bounded hd₁ : Ends (LeavesBounded m) _ _).ok hheader).1
  exact (h₀.sizes hs₁).sizes hs₂

/-- A pass delivers no message over the limit, and keeps the invariant. -/
theorem pass_bounded (h : k.Bounded m) (hm : 0 < m) (hm' : m < 2 ^ 63) (frag : Bool)
    (oc : Opcode) (hapt : ∀ k₂, k.AtSizeTest oc k₂ → Apt m (k₂.body + k₂.plen)) :
    Ends (LeavesBounded m) (fun p => p.2.2.Bounded m) (k.pass frag oc) := by
  rw [pass]
  refine (enter_bounded h oc).bind_of fun k₀ henter hs₀ => ?_
  have h₀ := h.sizes hs₀
  refine (pullHeader_bounded h₀ oc).bind_of ?_
  rintro k₁ hpull ⟨hs₁, hd₁⟩
  have h₁ := h₀.sizes hs₁
  by_cases hclose : opcodeOf (k₁.buffer 0) = Opcode.close
  · simp only [hclose, if_true]
    exact ends_closeWith _ _ _ _ fun r k' hr hd => ⟨.inl hd, fun h => by rw [hr] at h; cases h⟩
  by_cases hdata : Opcode.IsData (opcodeOf (k₁.buffer 0))
  · simp only [if_neg hclose, if_pos hdata]
    rw [readDataFrame]
    have hframe : Ends (LeavesBounded m) (fun k₃ => k₃.Bounded m ∧ k₃.packetlen ≤ (m : ℤ))
        (k₁.readHeader >>= fun p => p.2.2.readBody (opcodeOf (k₁.buffer 0)) p.1 p.2.1) := by
      refine (readHeader_bounded hd₁).bind_of ?_
      rintro ⟨n, maskp, k₂⟩ hheader ⟨hs₂, hn⟩
      exact readBody_bounded (h₁.sizes hs₂) hm hm' hn
        (fun hneed => hapt k₂ ⟨k₀, k₁, n, maskp, henter, hpull, hdata, hheader, hneed⟩) _ _
    refine hframe.bind ?_
    rintro k₃ ⟨h₃, hlen⟩
    split_ifs
    · exact h₃
    · exact ⟨.inr h₃, fun _ => hlen⟩
  · simp only [if_neg hclose, if_neg hdata]
    exact leavesBounded_closeWith k₁ _ _

/-- One pass, up to the size test and on from it. -/
theorem pass_limited (h : k.down ≠ 0 ∨ k.Bounded m) (hm : 0 < m) (hm' : m < 2 ^ 63) (frag : Bool)
    (oc : Opcode) (hapt : ∀ k₂, k.AtSizeTest oc k₂ → Apt m (k₂.body + k₂.plen)) :
    Limited m k frag oc ∧ Ends (LeavesBounded m) (fun p => p.2.2.Bounded m) (k.pass frag oc) := by
  rcases h with hdown | h
  · have henter := enter_down hdown oc
    obtain ⟨r, k₁, hpass, hr, hd⟩ : Closed (k.pass frag oc) := henter.bind _
    refine ⟨⟨fun r' k' hret hdata => ?_, fun k₂ r' k' ht _ => ?_⟩, ?_⟩
    · rw [hpass] at hret
      cases hret
      rw [hr] at hdata
      cases hdata
    · obtain ⟨r₀, k₀, hclosed, -⟩ := henter
      obtain ⟨k₀', k₁', n, maskp, hok, -⟩ := ht
      rw [hclosed] at hok
      cases hok
    · rw [hpass]
      exact leavesBounded_of_down hr hd
  · have hpass := pass_bounded h hm hm' frag oc hapt
    refine ⟨⟨fun r k' hret hdata => ?_, fun k₂ r k' ht hroom => ?_⟩, hpass⟩
    · rw [hret] at hpass
      exact hpass.2 hdata
    · have hmake := makeRoom_bounded (ht.bounded h) hm hm' (hapt k₂ ht)
      rw [hroom] at hmake
      exact hmake.2 r k' rfl

variable {k₀ : Kws}

/-- In every run of calls in which no frame brings its message to a length for which the
    test does not do what the limit asks, no pass delivers a message over the limit or
    refuses one within it. -/
theorem limited_run (hm : 0 < m) (hm' : m < 2 ^ 63) (hlimit : k₀.payloadSizeMax = m)
    (hbuf : k₀.bbuflen = 65536)
    (hapt : ∀ k frag oc k₂, Before k₀ k frag oc → k.AtSizeTest oc k₂ →
      Apt m (k₂.body + k₂.plen)) :
    ∀ k frag oc, Before k₀ k frag oc → Limited m k frag oc := by
  have hstep (k : Kws) (frag : Bool) (oc : Opcode) (hk : Before k₀ k frag oc)
      (h : k.down ≠ 0 ∨ k.Bounded m) := pass_limited h hm hm' frag oc fun k₂ => hapt k frag oc k₂ hk
  have hinv : ∀ k frag oc, Before k₀ k frag oc → k.down ≠ 0 ∨ k.Bounded m := by
    intro k frag oc hk
    induction hk with
    | first => exact .inr ⟨hlimit, ⟨hbuf.ge, .inl hbuf⟩, rfl⟩
    | again hk hpass ih =>
      have hends := (hstep _ _ _ hk ih).2
      rw [hpass] at hends
      exact .inr hends
    | next hk hpass ih =>
      have hends := (hstep _ _ _ hk ih).2
      rw [hpass] at hends
      exact hends.1.imp_right Bounded.start
  intro k frag oc hk
  exact (hstep k frag oc hk (hinv k frag oc hk)).1

/-- An established connection with a limit of `m` bytes. -/
def limitedTo (m : ℕ) (reads : List ReadEvent) : Kws :=
  { established reads with payloadSizeMax := m }

/-- With a limit of 65535 bytes, the test does what the limit asks for every length. -/
theorem limited_run_created :
    Limited 65535 (limitedTo 65535 [.data [0x81, 2, 72, 105]]).start false Opcode.invalid := by
  refine limited_run (by decide) (by decide) rfl rfl (fun k frag oc k₂ _ _ => ?_) _ _ _ .first
  rw [Apt, if_pos (by decide)]
  omega

/-- With a limit of one byte, a text of two bytes is delivered. -/
theorem limited_run_exceeded :
    let k₀ := limitedTo 1 [.data [0x81, 2, 72, 105]]
    k₀.payloadSizeMax = 1 ∧ k₀.bbuflen = 65536 ∧
      ¬∀ k frag oc, Before k₀ k frag oc → Limited 1 k frag oc := by
  refine ⟨rfl, rfl, fun h => ?_⟩
  have hpass : (match (limitedTo 1 [.data [0x81, 2, 72, 105]]).start.pass false Opcode.invalid with
      | .error (.ret r _) => decide (r = ⟨2, Opcode.text, some (.bbuffer 0)⟩)
      | _ => false) = true := by decide +kernel
  split at hpass
  · next r k' hexit =>
    obtain rfl := of_decide_eq_true hpass
    exact absurd ((h _ _ _ .first).delivered _ k' hexit rfl) (by decide)
  · cases hpass

end Kws

end Libks
