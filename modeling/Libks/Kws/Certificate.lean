import Libks.Base.Outcome
import Libks.Kws.FrameRun
import Libks.Kws.ReadSafety
import Libks.Kws.WriteFrame

/-!
# The certificate of the peer

A client over TLS that is told to validate the certificate of its peer does so
at the end of `establish_client_logical_layer`, behind the mark that the logical
layer is established. So `kws_init_ex` gives no connection whose check has
failed; but a check that fails in `kws_read_frame` leaves the mark behind, and
`kws_write_frame` never looks at it. Where neither happens (`Uses`), data only
comes from, and only goes to, a peer whose certificate was good
(`uses_verified`): the invariant is `Guarded`.
-/

namespace Libks

open Base

namespace Kws

variable {k k' k₁ k₂ : Kws}

/-! ## What reading and writing leave alone -/

/-- All that the check of the certificate depends on, and what it has found; and the size of
    the receive buffer. -/
def security (k : Kws) :
    KwsType × Bool × Params × Bool × Bool × Bool × List CertEvent × Bool × ℕ :=
  (k.type, k.secure, k.params, k.ssl, k.secureEstablished, k.logicalEstablished, k.world.certs,
    k.world.verified, k.buflen)

/-- `k'` is no other than `k` in this. -/
def Keeps (k k' : Kws) : Prop := k'.security = k.security

theorem Keeps.refl (k : Kws) : k.Keeps k := rfl

theorem Keeps.trans (h₁ : k.Keeps k₁) (h₂ : k₁.Keeps k₂) : k.Keeps k₂ := Eq.trans h₂ h₁

/-- A step that keeps this, if it succeeds. -/
abbrev Preserves {α : Type} (k : Kws) (e : Except Fault α) (f : α → Kws) : Prop :=
  Ends (fun _ => True) (fun a => k.Keeps (f a)) e

/-- A read stores bytes and answers of the transport, and no more. -/
theorem ReadFrom.keeps (h : k.ReadFrom k') : k.Keeps k' := by
  obtain ⟨_, _, _, _, _, _, _, rfl⟩ := h
  rfl

theorem store_keeps (k : Kws) (q : Ptr) (bs : List UInt8) : k.Preserves (k.store q bs) id :=
  (store_from k q bs).imp fun _ => ReadFrom.keeps

/-- A read by `kws_string_read`. -/
theorem stringRead_keeps (k : Kws) (q : Ptr) (n : ℕ) (b : ℤ) :
    k.Preserves (k.stringRead q n b) Prod.snd :=
  (stringRead_from k q n b).imp fun _ h => h.1.keeps

theorem stringReadBlocking_keeps (k : Kws) (q : Ptr) (n retries : ℕ) :
    k.Preserves (k.stringReadBlocking q n retries) Prod.snd :=
  (stringReadBlocking_from k q n retries).imp fun _ => ReadFrom.keeps

theorem rawWrite_keeps (k : Kws) (data : List UInt8) : k.Keeps (k.rawWrite data).2 := rfl

theorem genNonce_keeps (k : Kws) (n : ℕ) : k.Keeps (k.genNonce n).2 := rfl

/-- The TLS shutdown reads into the buffer, and looks at no certificate. -/
theorem closeTls_keeps (k : Kws) : k.Keeps k.closeTls := by
  rw [closeTls]
  split_ifs <;> rfl

theorem closeFrame_keeps (k : Kws) (reason : ℕ) : k.Keeps (k.closeFrame reason).2 := by
  rw [closeFrame]
  cases k.type <;> rfl

/-- `kws_close`. -/
theorem close_keeps (k : Kws) (reason : ℕ) : k.Keeps (k.close reason).2 := by
  have hend (k₁ : Kws) (hk₁ : k.Keeps k₁) : k.Keeps { k₁.closeTls with sock := false } :=
    hk₁.trans (closeTls_keeps k₁)
  rw [close]
  by_cases hd : k.down ≠ 0
  · rw [if_pos hd]
    rfl
  · rw [if_neg hd]
    refine hend _ ?_
    split_ifs
    · exact closeFrame_keeps { k with down := 1, uri := none } _
    · exact closeFrame_keeps { k with down := 1, uri := none } _
    · rfl

/-- A store into the write buffer. -/
theorem storeWrite_keeps (h : k.Keeps k₁) (off : ℕ) (bs : List UInt8) :
    k.Preserves (k₁.storeWrite off bs) id := by
  rw [storeWrite]
  split_ifs
  · exact h
  · trivial

/-- The write buffer grows. -/
theorem growWrite_keeps (h : k.Keeps k₁) (room : ℕ) : k.Keeps (k₁.growWrite room) := by
  rw [growWrite]
  split_ifs
  · exact h
  · exact h

/-- The frame that `kws_write_frame` writes is put together. -/
theorem buildFrame_keeps (k : Kws) (oc : Opcode) (data : List UInt8) :
    k.Preserves (k.buildFrame oc data) Prod.snd := by
  rw [buildFrame]
  refine (storeWrite_keeps (growWrite_keeps (.refl k) _) _ _).bind fun k₁ h₁ => ?_
  split_ifs
  · refine (storeWrite_keeps (h₁.trans (genNonce_keeps k₁ 4)) _ _).bind fun k₂ h₂ => ?_
    refine (storeWrite_keeps h₂ _ _).bind fun k₃ h₃ => ?_
    exact (storeWrite_keeps h₃ _ _).bind fun k₄ h₄ => h₄
  · exact (storeWrite_keeps h₁ _ _).bind fun k₂ h₂ => h₂

/-- `kws_write_frame`, with the close frame that may come before it. -/
theorem writeFrame_keeps (k : Kws) (oc : Opcode) (data : List UInt8) :
    k.Preserves (k.writeFrame oc data) Prod.snd := by
  rw [writeFrame]
  split_ifs
  · exact Keeps.refl k
  · refine (buildFrame_keeps k oc data).bind ?_
    rintro ⟨frame, k₁⟩ h
    dsimp only
    split_ifs
    · exact h.trans (rawWrite_keeps k₁ frame)
    · exact h.trans (rawWrite_keeps k₁ frame)

/-! ## The steps of a pass -/

/-- A pass that leaves the call keeps this. -/
def LeavesWith (k : Kws) : Exit → Prop
  | .fault _ => True
  | .ret _ k' => k.Keeps k'

/-- A step of a pass that keeps this. -/
abbrev Steps {α : Type} (k : Kws) (e : Except Exit α) (f : α → Kws) : Prop :=
  Ends k.LeavesWith (fun a => k.Keeps (f a)) e

/-- A part that may fault, in a function that may also return early. -/
theorem lift_keeps {α : Type} {e : Except Fault α} {f : α → Kws} (h : k.Keeps k₁)
    (he : k₁.Preserves e f) : k.Steps (Exit.lift e) f := by
  cases e with
  | ok a => exact h.trans he
  | error x => trivial

/-- An early return by way of `kws_close`. -/
theorem closeWith_keeps {α : Type} {f : α → Kws} (h : k.Keeps k₁) (reason : ℕ) (oc : Opcode)
    (data : Option Ptr) : k.Steps (k₁.closeWith reason oc data) f :=
  h.trans (close_keeps k₁ reason)

/-- The two bytes that every frame starts with. -/
theorem pullHeader_keeps (k : Kws) (oc : Opcode) : k.Steps (k.pullHeader oc) id := by
  rw [pullHeader]
  refine (lift_keeps (.refl k) (stringRead_keeps k _ _ _)).bind ?_
  rintro ⟨read, k₁⟩ h₁
  dsimp only
  split_ifs
  · exact h₁
  · exact closeWith_keeps (by exact h₁) _ _ _
  -- Fewer than two bytes have come, and more are waited for.
  · refine (lift_keeps (by exact h₁) (stringRead_keeps _ _ _ _)).bind ?_
    rintro ⟨read₂, k₂⟩ h₂
    dsimp only
    split_ifs
    · exact closeWith_keeps (by exact h₂) _ _ _
    · exact closeWith_keeps (by exact h₂) _ _ _
    · exact h₂
  · exact h₁

/-- The bytes of the header that are still missing. -/
theorem topUp_keeps (h : k.Keeps k₁) (need : ℕ) : k.Steps (k₁.topUp need) id := by
  rw [topUp]
  split_ifs
  · refine (lift_keeps (by exact h) (stringReadBlocking_keeps _ _ _ _)).bind ?_
    rintro ⟨bytes, k₂⟩ h₂
    dsimp only
    split_ifs
    · exact closeWith_keeps (by exact h₂) _ _ _
    · exact closeWith_keeps (by exact h₂) _ _ _
    · exact h₂
  · exact h

/-- The extended length of a frame. -/
theorem readLength_keeps (h : k.Keeps k₁) (need : ℕ) : k.Steps (k₁.readLength need) Prod.snd := by
  rw [readLength]
  split_ifs
  · exact (topUp_keeps h _).bind fun k₂ h₂ => h₂
  · exact (topUp_keeps h _).bind fun k₂ h₂ => h₂
  · exact h

/-- All of the header of a frame. -/
theorem readHeader_keeps (k : Kws) : k.Steps k.readHeader (·.2.2) := by
  rw [readHeader]
  split_ifs
  · refine (topUp_keeps (.refl k) _).bind fun k₁ h₁ => ?_
    exact (readLength_keeps h₁ _).bind fun _ h₂ => h₂
  · exact (readLength_keeps (.refl k) _).bind fun _ h₂ => h₂

/-- The body grows, and is copied. -/
theorem makeRoom_keeps (k : Kws) : k.Steps k.makeRoom id := by
  rw [makeRoom]
  dsimp only
  split_ifs
  · trivial
  · trivial
  · exact closeWith_keeps (by exact rfl) _ _ _
  · exact Keeps.refl k
  · exact Keeps.refl k

/-- The bytes of the payload that came with the header. -/
theorem copyHeld_keeps (h : k.Keeps k₁) (need : ℤ) : k.Steps (k₁.copyHeld need) id := by
  have hassert (k₂ : Kws) (h₂ : k.Keeps k₂) : k.Steps (if (k₂.bbuflen : ℤ) < k₂.body + k₂.plen
      then .error (.fault .assertion) else .ok k₂ : Except Exit Kws) id := by
    split_ifs
    · trivial
    · exact h₂
  rw [copyHeld]
  dsimp only
  by_cases h0 : k₁.plen - need ≠ 0
  · rw [if_pos h0]
    by_cases hlt : (k₁.bbuflen : ℤ) < k₁.body + (k₁.plen - need)
    · rw [if_pos hlt]
      trivial
    · rw [if_neg hlt]
      exact (lift_keeps (by exact h) (store_keeps _ _ _)).bind hassert
  · rw [if_neg h0]
    exact hassert _ h

/-- The rest of the payload, read by read: induction on the fuel. -/
theorem readPayload_keeps {f : ℕ} (h : k.Keeps k₁) (need : ℕ) :
    k.Steps (readPayload f k₁ need) id := by
  induction f generalizing k₁ need with
  | zero =>
    rw [readPayload]
    split_ifs
    · exact h
    · trivial
  | succ f ih =>
    rw [readPayload]
    split_ifs
    · exact h
    -- A read that fails closes the connection, any other one goes on.
    · refine (lift_keeps (by exact h) (stringRead_keeps _ _ _ _)).bind ?_
      rintro ⟨read, k₂⟩ h₂
      dsimp only
      split_ifs
      · exact closeWith_keeps (by exact h₂) _ _ _
      · exact ih (by exact h₂) _

/-- The payload is unmasked and terminated. -/
theorem finishFrame_keeps (h : k.Keeps k₁) (oc : Opcode) (maskp : Option ℕ) :
    k.Steps (k₁.finishFrame oc maskp) id := by
  have hunmask : k.Steps (k₁.unmask maskp) id := by
    cases maskp with
    | none => exact h
    | some maskp => exact lift_keeps (by exact h) (store_keeps _ _ _)
  rw [finishFrame]
  refine hunmask.bind fun k₂ h₂ => ?_
  split_ifs
  · exact (lift_keeps (by exact h₂) (store_keeps _ _ _)).bind fun k₃ h₃ => h₃
  · exact h₂

/-- A whole data frame. -/
theorem readDataFrame_keeps (k : Kws) (oc : Opcode) : k.Steps (k.readDataFrame oc) id := by
  rw [readDataFrame]
  refine (readHeader_keeps k).bind ?_
  rintro ⟨need, maskp, k₁⟩ h₁
  dsimp only
  rw [readBody]
  split_ifs
  · trivial
  · exact closeWith_keeps (by exact h₁) _ _ _
  -- Room for the payload, what is held of it, the rest, and its end.
  · have hroom : k.Steps k₁.makeRoom id :=
      (makeRoom_keeps k₁).mono (fun x hx => by cases x with
        | fault f => trivial
        | ret r k' => exact Keeps.trans h₁ hx) fun k₂ h₂ => Keeps.trans h₁ h₂
    refine hroom.bind fun k₂ h₂ => ?_
    refine (copyHeld_keeps h₂ _).bind fun k₃ h₃ => ?_
    exact (readPayload_keeps h₃ _).bind fun k₄ h₄ => finishFrame_keeps h₄ oc maskp

/-! ## The invariant -/

/-- A client over TLS that is told to validate the certificate, and that has not
    established its logical layer without. -/
structure Guarded (k : Kws) : Prop where
  type : k.type = .client
  secure : k.secure = true
  validate : k.params.sslValidateCertificate = true
  tls : k.secureEstablished = true → k.ssl = true
  verified : k.logicalEstablished = true → k.world.verified = true

theorem Keeps.established (h : k.Keeps k') : k'.logicalEstablished = k.logicalEstablished :=
  congrArg (·.2.2.2.2.2.1) h

theorem Keeps.verified (h : k.Keeps k') : k'.world.verified = k.world.verified :=
  congrArg (·.2.2.2.2.2.2.2.1) h

theorem Keeps.buflen (h : k.Keeps k') : k'.buflen = k.buflen :=
  congrArg (·.2.2.2.2.2.2.2.2) h

/-- What keeps the record of the checks keeps the guard. -/
theorem Guarded.keeps (h : k.Guarded) (hk : k.Keeps k') : k'.Guarded := by
  simp only [Keeps, security, Prod.mk.injEq] at hk
  obtain ⟨htype, hsecure, hparams, hssl, hse, hle, -, hverified, -⟩ := hk
  constructor
  · rw [htype, h.type]
  · rw [hsecure, h.secure]
  · rw [hparams, h.validate]
  · rw [hse, hssl]
    exact h.tls
  · rw [hle, hverified]
    exact h.verified

/-- The stages of `establish_client_logical_layer` in front of the check: the code
    to return, or none where the check comes next. -/
def beforeCheck (k : Kws) : Except Fault (Option ℤ × Kws) :=
  match k.establishSecure with
  | (some code, k) => .ok (some code, k)
  | (none, k) => k.establishWebSocket wsClientHandshake

/-- If the next call that establishes the logical layer gets as far as the check,
    the certificate is good. -/
def CheckPasses (k : Kws) : Prop :=
  k.logicalEstablished = false → (∃ k₁, k.beforeCheck = .ok (none, k₁)) →
    (k.world.certs.headD ⟨false, false⟩).present = true ∧
      (k.world.certs.headD ⟨false, false⟩).verified = true

/-- The answer of the server is read, in as many reads as it takes. -/
theorem readResponse_keeps (h : k.Keeps k₁) (fuel : ℕ) :
    k.Preserves (readResponse fuel k₁) Prod.snd := by
  induction fuel generalizing k₁ with
  | zero => trivial
  | succ fuel ih =>
    rw [readResponse]
    refine (stringRead_keeps k₁ _ _ _).bind ?_
    rintro ⟨read, k₂⟩ h₂
    dsimp only
    split_ifs
    · exact ih (h.trans h₂)
    · exact h.trans h₂

/-- The answer of the server is looked at. -/
theorem checkResponse_keeps (k : Kws) (enonce : List UInt8) (bytes : ℤ) :
    k.Keeps (k.checkResponse enonce bytes).2 := by
  rw [checkResponse]
  dsimp only
  split_ifs
  · rfl
  · rfl
  · split
    · split_ifs
      · rfl
      · rfl
    · rfl

/-- The client's end of the WebSocket handshake asks for no certificate. -/
theorem wsClientHandshake_keeps (k : Kws) : k.Preserves k.wsClientHandshake Prod.snd := by
  rw [wsClientHandshake]
  refine (readResponse_keeps (by rfl) _).bind ?_
  rintro ⟨bytes, k₁⟩ h₁
  exact Keeps.trans h₁ (checkResponse_keeps k₁ _ _)

theorem establishWebSocket_keeps (k : Kws) :
    k.Preserves (k.establishWebSocket wsClientHandshake) Prod.snd := by
  rw [establishWebSocket]
  split_ifs
  · exact Keeps.refl k
  · refine (wsClientHandshake_keeps k).bind ?_
    rintro ⟨r, k₁⟩ h₁
    dsimp only
    split_ifs
    · exact h₁
    · exact h₁

/-- A TLS handshake that does not succeed leaves the loop with a negative code. -/
theorem shakeLoop_neg {block : ℤ} {n m : ℕ} {es es' : List ShakeEvent} {c : ℤ} {b : Bool}
    (h : shakeLoop block n es = (some c, m, b, es')) : c < 0 ∧ b = false := by
  induction es generalizing n with
  | nil =>
    cases n <;> · cases h; exact ⟨by decide, rfl⟩
  | cons e es ih =>
    cases n with
    | zero => cases h; exact ⟨by decide, rfl⟩
    | succ n =>
      cases e with
      | done => cases h
      | closed => cases h; exact ⟨by decide, rfl⟩
      | failed err =>
        rw [shakeLoop] at h
        split_ifs at h
        · cases h; exact ⟨by decide, rfl⟩
        · exact ih h
        · cases h; exact ⟨by decide, rfl⟩

/-- The TLS stage. -/
theorem establishSecure_guarded (h : k.Guarded) :
    k.establishSecure.2.Guarded ∧
      k.establishSecure.2.logicalEstablished = k.logicalEstablished ∧
      k.establishSecure.2.world.certs = k.world.certs ∧
      (k.establishSecure.1 = none → k.establishSecure.2.ssl = true) ∧
      ∀ c, k.establishSecure.1 = some c → c < 0 := by
  rw [establishSecure]
  split_ifs with h₁ h₂
  -- TLS is established already, as `h.secure` rules out that it is not wanted
  · refine ⟨h, rfl, rfl, fun _ => h.tls (h₁.resolve_left (not_not_intro h.secure)), ?_⟩
    intro c hc
    cases hc
  · refine ⟨h, rfl, rfl, fun hc => ?_, fun c hc => ?_⟩
    · cases hc
    · cases hc
      decide
  -- The handshake runs, and gives a code only where it has failed.
  · rcases hs : shakeLoop k.block k.sanity k.world.handshakes with ⟨code, n, b, es⟩
    refine ⟨⟨h.type, h.secure, h.validate, fun _ => rfl, h.verified⟩, rfl, rfl, fun _ => rfl,
      fun c hc => ?_⟩
    obtain rfl : code = some c := hc
    exact (shakeLoop_neg hs).1

/-- The stages in front of the check. -/
theorem beforeCheck_guarded (h : k.Guarded) :
    Ends (fun _ => True) (fun p : Option ℤ × Kws => p.2.Guarded ∧
      p.2.logicalEstablished = k.logicalEstablished ∧ p.2.world.certs = k.world.certs ∧
      (p.1 = none → p.2.ssl = true) ∧ ∀ c, p.1 = some c → c < 0) k.beforeCheck := by
  have hsecure := establishSecure_guarded h
  rw [beforeCheck]
  generalize k.establishSecure = s at hsecure ⊢
  obtain ⟨code, k₁⟩ := s
  obtain ⟨hk, hle, hcerts, hssl, hneg⟩ := hsecure
  cases code with
  | some code => exact ⟨hk, hle, hcerts, hssl, hneg⟩
  | none =>
    have hws := establishWebSocket_keeps k₁
    dsimp only
    rcases hr : k₁.establishWebSocket wsClientHandshake with x | ⟨code, k₂⟩
    · trivial
    rw [hr] at hws
    have hws : k₁.Keeps k₂ := hws
    refine ⟨hk.keeps hws, hws.established.trans hle, ?_, fun _ => ?_, fun c hc => ?_⟩
    · exact (congrArg (·.2.2.2.2.2.2.1) hws : k₂.world.certs = k₁.world.certs).trans hcerts
    · exact (congrArg (·.2.2.2.1) hws : k₂.ssl = k₁.ssl).trans (hssl rfl)
    -- A code means that the WebSocket handshake has failed.
    · obtain rfl : code = some c := hc
      rw [establishWebSocket] at hr
      split_ifs at hr
      · cases hr
      · rcases hh : wsClientHandshake k₁ with x | ⟨r, k₃⟩
        · rw [hh] at hr
          cases hr
        · rw [hh] at hr
          simp only [bind, Except.bind] at hr
          split_ifs at hr
          · cases hr
            decide
          · cases hr

/-- The check itself, behind the mark. -/
theorem validateCertificate_guarded (htype : k.type = .client) (hsecure : k.secure = true)
    (hval : k.params.sslValidateCertificate = true) (hssl : k.ssl = true) :
    (k.validateCertificate.1 = 0 ∨ k.validateCertificate.1 = -1) ∧
      k.validateCertificate.2.logicalEstablished = k.logicalEstablished ∧
      (k.validateCertificate.1 = 0 ∨ ((k.world.certs.headD ⟨false, false⟩).present = true ∧
        (k.world.certs.headD ⟨false, false⟩).verified = true) → k.validateCertificate.2.Guarded) := by
  rw [validateCertificate, if_pos ⟨hssl, hval⟩]
  dsimp only
  have hneg : ¬(-1 : ℤ) = 0 := by decide
  split_ifs with h₁ h₂
  -- Both answers are good, and the check is noted.
  · refine ⟨.inl rfl, rfl, fun _ => ⟨htype, hsecure, hval, fun _ => hssl, fun _ => ?_⟩⟩
    dsimp only
    rw [h₁, h₂, Bool.and_true, Bool.or_true]
  · exact ⟨.inr rfl, rfl, fun h => absurd h (not_or.2 ⟨hneg, fun h => h₂ h.2⟩)⟩
  · exact ⟨.inr rfl, rfl, fun h => absurd h (not_or.2 ⟨hneg, fun h => h₁ h.1⟩)⟩

/-- Establishing the logical layer fails where the check fails, and only then are
    the mark and the certificate at odds. -/
theorem establishLogicalLayer_guarded (h : k.Guarded) :
    Ends (fun _ => True) (fun p : ℤ × Kws => (p.1 = -1 ∨ p.2.Guarded) ∧
      (k.CheckPasses → p.2.Guarded) ∧ (0 ≤ p.1 → p.2.logicalEstablished = true))
      k.establishLogicalLayer := by
  rw [establishLogicalLayer, h.type, establishClientLogicalLayer]
  by_cases hsanity : k.sanity = 0
  · rw [if_pos hsanity]
    exact ⟨.inl rfl, fun _ => h, fun h => absurd h (show ¬(0 : ℤ) ≤ -1 by decide)⟩
  rw [if_neg hsanity]
  by_cases hle : k.logicalEstablished = true
  · rw [if_pos hle]
    exact ⟨.inr h, fun _ => h, fun _ => hle⟩
  rw [if_neg hle]
  have hbefore := beforeCheck_guarded h
  have hcheck : k.CheckPasses → (∃ k₁, k.beforeCheck = .ok (none, k₁)) → _ :=
    fun hc => hc (by simpa using hle)
  rw [beforeCheck] at hbefore hcheck
  rcases hs : k.establishSecure with ⟨code, k₁⟩
  rw [hs] at hbefore hcheck
  cases code with
  | some code =>
    obtain ⟨hk, hle₁, -, -, hneg⟩ := hbefore
    exact ⟨.inr hk, fun _ => hk, fun h => absurd h (Int.not_le.2 (hneg code rfl))⟩
  | none =>
    dsimp only at hbefore hcheck ⊢
    rcases hw : k₁.establishWebSocket wsClientHandshake with x | ⟨code, k₂⟩
    · trivial
    rw [hw] at hbefore hcheck
    obtain ⟨hk, hle₁, hcerts, hssl, hneg⟩ := hbefore
    cases code with
    | some code =>
      exact ⟨.inr hk, fun _ => hk, fun h => absurd h (Int.not_le.2 (hneg code rfl))⟩
    | none =>
      -- `logical_established` is set in front of the check, and stays set where it fails
      obtain ⟨hret, hmark, hguard⟩ := validateCertificate_guarded
        (k := { k₂ with logicalEstablished := true }) hk.type hk.secure hk.validate (hssl rfl)
      refine ⟨?_, fun hc => hguard (.inr ?_), fun _ => hmark⟩
      · exact hret.symm.imp_right fun h => hguard (.inl h)
      · have hgood := hcheck hc ⟨k₂, rfl⟩
        rwa [← hcerts] at hgood

/-! ## The calls -/

/-- What a pass leaves behind: data is delivered only from a verified peer. -/
def LeavesGuarded : Exit → Prop
  | .fault _ => True
  | .ret r k => k.Guarded ∧ (r.data ≠ none → k.world.verified = true)

/-- What asks for no certificate keeps an established connection guarded. -/
theorem Steps.guarded {α : Type} {e : Except Exit α} {f : α → Kws} (h : k.Steps e f)
    (hk : k.Guarded) (hle : k.logicalEstablished = true) :
    Ends LeavesGuarded (fun a => (f a).Guarded ∧ (f a).logicalEstablished = true) e := by
  refine h.mono (fun x hx => ?_) fun a ha => ⟨hk.keeps ha, ha.established.trans hle⟩
  cases x with
  | fault x => trivial
  | ret r k' => exact ⟨hk.keeps hx, fun _ => (Keeps.verified hx).trans (hk.verified hle)⟩

/-- The start of a pass: an established connection was checked when it was established, and
    one that is not runs `kws_establish_logical_layer` first. -/
theorem enter_guarded (hk : k.Guarded) (hc : k.CheckPasses) (oc : Opcode) :
    Ends LeavesGuarded (fun k' : Kws => k'.Guarded ∧ k'.logicalEstablished = true) (k.enter oc) := by
  have hll := establishLogicalLayer_guarded hk
  rw [enter]
  rcases hr : k.establishLogicalLayer with x | ⟨ll, k₁⟩
  · trivial
  rw [hr] at hll
  obtain ⟨-, hguard, hmark⟩ := hll
  -- Here the hypothesis on the check is used: a failed one would leave the mark set.
  have hk₁ : k₁.Guarded := hguard hc
  rw [Exit.lift_ok]
  simp only [bind, Except.bind]
  split_ifs with hneg
  · exact ⟨hk₁, fun h => absurd rfl h⟩
  · exact ⟨hk₁, fun h => absurd rfl h⟩
  · exact ⟨hk₁, hmark (Int.not_lt.1 hneg)⟩
  · exact ⟨hk₁.keeps (close_keeps k₁ 0), fun h => absurd rfl h⟩

/-- One pass of `kws_read_frame`. -/
theorem pass_guarded (hk : k.Guarded) (hc : k.CheckPasses) (frag : Bool) (oc : Opcode) :
    Ends LeavesGuarded
      (fun p : Bool × Opcode × Kws => p.2.2.Guarded ∧ p.2.2.logicalEstablished = true)
      (k.pass frag oc) := by
  rw [pass]
  refine (enter_guarded hk hc oc).bind ?_
  rintro k₁ ⟨hk₁, hle₁⟩
  refine (Steps.guarded (pullHeader_keeps k₁ oc) hk₁ hle₁).bind ?_
  rintro k₂ ⟨hk₂, hle₂⟩
  -- By opcode: only data frames deliver something.
  dsimp only [id]
  split_ifs
  · exact Steps.guarded (closeWith_keeps (by rfl) _ _ _) hk₂ hle₂
  · exact (Steps.guarded (readDataFrame_keeps k₂ _) hk₂ hle₂).bind fun k₃ h₃ => h₃
  · exact (Steps.guarded (readDataFrame_keeps k₂ _) hk₂ hle₂).bind
      fun k₃ h₃ => ⟨h₃.1, fun _ => h₃.1.verified h₃.2⟩
  · exact Steps.guarded (closeWith_keeps (by rfl) _ _ _) hk₂ hle₂

/-- All passes of a call: induction on the fuel, with the guard as the invariant. Data is
    delivered by an established connection only, and that one is verified. -/
theorem againLoop_guarded {fuel : ℕ} {frag : Bool} {oc : Opcode} {r : FrameResult}
    (hk : k.Guarded) (hc : k.CheckPasses) (h : againLoop fuel k frag oc = .ok (r, k')) :
    k'.Guarded ∧ (r.data ≠ none → k'.world.verified = true) := by
  induction fuel generalizing k frag oc with
  | zero => cases h
  | succ fuel ih =>
    have hpass := pass_guarded hk hc frag oc
    rw [againLoop] at h
    rcases hp : k.pass frag oc with (x | ⟨r₁, k₁⟩) | ⟨frag₁, oc₁, k₁⟩
    · rw [hp] at h
      cases h
    · rw [hp] at h hpass
      cases h
      exact hpass
    · rw [hp] at h hpass
      obtain ⟨hk₁, hle₁⟩ : k₁.Guarded ∧ k₁.logicalEstablished = true := hpass
      -- The next pass makes no check, as the connection is established.
      exact ih hk₁ (fun hle => absurd hle₁ (by rw [hle]; decide)) h

/-- A call of `kws_read_frame`. -/
theorem readFrame_guarded {r : FrameResult} (hk : k.Guarded) (hc : k.start.CheckPasses)
    (h : k.readFrame = .ok (r, k')) :
    k'.Guarded ∧ (r.data ≠ none → k'.world.verified = true) :=
  againLoop_guarded (hk.keeps (show k.Keeps k.start from rfl)) hc h

/-- A new connection is guarded, as it has established nothing. -/
theorem setup_guarded (world : World) (data : List UInt8) (flags : KwsFlags) {params : Params}
    (hval : params.sslValidateCertificate = true) :
    (setup world true (some data) flags params).Guarded := by
  have hne : ¬false = true := Bool.false_ne_true
  rw [setup]
  dsimp only
  cases strchr 58 data with
  | none => exact ⟨rfl, rfl, hval, fun h => absurd h hne, fun h => absurd h hne⟩
  | some i =>
    dsimp only
    cases strchr 58 (data.drop (i + 1)) with
    | none => exact ⟨rfl, rfl, hval, fun h => absurd h hne, fun h => absurd h hne⟩
    | some j => exact ⟨rfl, rfl, hval, fun h => absurd h hne, fun h => absurd h hne⟩

/-- The loop around the handshake of `kws_init_ex`, until the deadline: it fails, or leaves a
    guarded connection. -/
theorem deadlineLoop_guarded {clock : List Bool} {ll : ℤ} (hk : k.Guarded)
    (h : deadlineLoop clock k = .ok (ll, k')) : ll = -1 ∨ k'.Guarded := by
  induction clock generalizing k with
  | nil =>
    have hll := establishLogicalLayer_guarded hk
    rw [deadlineLoop] at h
    rcases hr : k.establishLogicalLayer with x | ⟨ll₁, k₁⟩
    · rw [hr] at h
      cases h
    · rw [hr] at h hll
      cases h
      split_ifs
      · exact .inl rfl
      · exact hll.1
  | cons late clock ih =>
    have hll := establishLogicalLayer_guarded hk
    rw [deadlineLoop] at h
    rcases hr : k.establishLogicalLayer with x | ⟨ll₁, k₁⟩
    · rw [hr] at h
      cases h
    · rw [hr] at h hll
      simp only [bind, Except.bind] at h
      split_ifs at h with h2 hlate
      · cases h
        exact .inl rfl
      -- A handshake that waits has not failed, and is tried again.
      · exact ih (hll.1.resolve_left (by dsimp only; omega)) h
      · cases h
        exact hll.1

/-- `kws_init_ex` gives no connection with a failed check. -/
theorem initEx_guarded {world : World} {data : List UInt8} {flags : KwsFlags} {params : Params}
    (hval : params.sslValidateCertificate = true)
    (h : initEx world true (some data) flags params = .ok (some k)) : k.Guarded := by
  have hk := setup_guarded world data flags hval
  rw [initEx] at h
  generalize setup world true (some data) flags params = k₀ at hk h
  -- With a timeout or without, the handshake fails or leaves a guarded connection.
  have hdrive : ∀ ll k₁, k₀.driveHandshake = .ok (ll, k₁) → ll = -1 ∨ k₁.Guarded := by
    intro ll k₁ hd
    rw [driveHandshake] at hd
    split_ifs at hd
    · rcases hr : deadlineLoop k₀.world.clock { k₀ with block := 0 } with x | ⟨ll₂, k₂⟩
      · rw [hr] at hd
        cases hd
      · rw [hr] at hd
        cases hd
        refine (deadlineLoop_guarded (hk.keeps (by rfl)) hr).imp_right fun hk₂ => ?_
        exact hk₂.keeps rfl
    · have hll := establishLogicalLayer_guarded hk
      rw [hd] at hll
      exact hll.1
  rcases hr : k₀.driveHandshake with x | ⟨ll, k₁⟩
  · rw [hr] at h
    cases h
  rw [hr] at h
  simp only [bind, Except.bind] at h
  split_ifs at h with h1 h2
  · cases h
  · cases h
  · have hk₁ := (hdrive ll k₁ hr).resolve_left h1
    rw [hk₁.type] at h
    cases h
    exact hk₁

/-! ## Every run -/

/-- The connections reached from `k₀` by calls of `kws_read_frame` and
    `kws_write_frame`, where the first never sees the check fail, and the second
    is not called while the connection is still being established. -/
inductive Uses (k₀ : Kws) : Kws → Prop
  | init : Uses k₀ k₀
  | read {k k' : Kws} {r : FrameResult} (h : Uses k₀ k) (hcheck : k.start.CheckPasses)
      (hread : k.readFrame = .ok (r, k')) : Uses k₀ k'
  | write {k k' : Kws} {oc : Opcode} {data : List UInt8} {ret : ℤ} (h : Uses k₀ k)
      (hready : k.logicalEstablished = true ∨ k.down ≠ 0)
      (hwrite : k.writeFrame oc data = .ok (ret, k')) : Uses k₀ k'

/-- Induction on the calls made: each one starts from a guarded connection. -/
theorem Uses.guarded {k₀ : Kws} (h : Uses k₀ k) (hk₀ : k₀.Guarded) : k.Guarded := by
  induction h with
  | init => exact hk₀
  | read _ hcheck hread ih => exact (readFrame_guarded ih hcheck hread).1
  | @write k k' oc data ret _ _ hwrite ih =>
    have hkeeps := writeFrame_keeps k oc data
    rw [hwrite] at hkeeps
    exact ih.keeps hkeeps

/-- In every such run from `kws_init_ex` on, `kws_read_frame` delivers data, and
    `kws_write_frame` sends, only if the peer has presented a good certificate, and
    no connection is taken for established whose check has failed. -/
theorem uses_verified {world : World} {data : List UInt8} {flags : KwsFlags} {params : Params}
    {k₀ : Kws} (hval : params.sslValidateCertificate = true)
    (hinit : initEx world true (some data) flags params = .ok (some k₀)) (h : Uses k₀ k) :
    (∀ r k', k.start.CheckPasses → k.readFrame = .ok (r, k') → r.data ≠ none →
        k'.world.verified = true) ∧
      (∀ oc data ret k', k.logicalEstablished = true ∨ k.down ≠ 0 →
        k.writeFrame oc data = .ok (ret, k') → k'.world.sent ≠ k.world.sent →
          k.world.verified = true) ∧
      (k.logicalEstablished = true → k.world.verified = true) := by
  have hk := h.guarded (initEx_guarded hval hinit)
  refine ⟨fun r k' hcheck hread => (readFrame_guarded hk hcheck hread).2, ?_, hk.verified⟩
  intro oc data ret k' hready hwrite hsent
  rcases hready with hle | hdown
  · exact hk.verified hle
  · rw [writeFrame, if_pos hdown] at hwrite
    cases hwrite
    exact absurd rfl hsent

/-- A peer over TLS that accepts the WebSocket handshake and then sends a text. -/
def tlsPeer (handshakes : List ShakeEvent) (cert : CertEvent) : World where
  reads := [.data (ascii "HTTP/1.1 101 Switching Protocols\r\nSec-WebSocket-Accept: AAAAAAAAAAAAAAAAAAAAAAAAAAA=\r\n\r\n"),
    .data ([0x81, 7] ++ ascii "welcome")]
  handshakes := handshakes
  certs := [cert]

/-- A client that connects to it, without blocking. -/
def tlsClient (world : World) : Except Fault (Option Kws) :=
  initEx world true (some (ascii "/:host")) {} { sslValidateCertificate := true }

theorem uses_verified_welcome :
    ∃ k₀ r k₁, tlsClient (tlsPeer [.done] ⟨true, true⟩) = .ok (some k₀) ∧
      k₀.readFrame = .ok (r, k₁) ∧ r.data ≠ none ∧ k₁.world.verified = true := by
  have h : okAnd (Option.any fun k₀ => k₀.logicalEstablished &&
      okAnd (fun p => p.1.data ≠ none) k₀.readFrame)
      (tlsClient (tlsPeer [.done] ⟨true, true⟩)) = true := by decide +kernel
  simp only [okAnd_iff, Option.any_eq_true, Bool.and_eq_true, decide_eq_true_eq, Prod.exists] at h
  obtain ⟨_, hinit, k₀, rfl, hle, r, k₁, hread, hdata⟩ := h
  exact ⟨k₀, r, k₁, hinit, hread, hdata, (uses_verified rfl hinit .init).1 r k₁
    (fun h => absurd (h.symm.trans hle) (by decide)) hread hdata⟩

/-- A peer whose certificate is not valid, and a TLS handshake that has to wait:
    the first call sees the check fail, and the second delivers the text. -/
theorem readFrame_unverified :
    ∃ k₀ r₁ k₁ r₂ k₂, tlsClient (tlsPeer [.failed .wantRead, .done] ⟨true, false⟩) = .ok (some k₀) ∧
      k₀.readFrame = .ok (r₁, k₁) ∧ r₁.ret = -1 ∧ k₁.readFrame = .ok (r₂, k₂) ∧
      k₂.delivery r₂ = ⟨7, Opcode.text, some (ascii "welcome")⟩ ∧ k₂.world.verified = false := by
  have h : okAnd (Option.any fun k₀ => okAnd (fun p => p.1.ret = -1 && okAnd (fun q =>
      q.2.delivery q.1 = ⟨7, Opcode.text, some (ascii "welcome")⟩ && !q.2.world.verified)
      p.2.readFrame) k₀.readFrame)
      (tlsClient (tlsPeer [.failed .wantRead, .done] ⟨true, false⟩)) = true := by decide +kernel
  simp only [okAnd_iff, Option.any_eq_true, Bool.and_eq_true, decide_eq_true_eq, Prod.exists,
    Bool.not_eq_true'] at h
  obtain ⟨_, hinit, k₀, rfl, r₁, k₁, hread₁, hret, r₂, k₂, hread₂, hdelivery, hverified⟩ := h
  exact ⟨k₀, r₁, k₁, r₂, k₂, hinit, hread₁, hret, hread₂, hdelivery, hverified⟩

end Kws

end Libks
