import Libks.Kws.Handshake

/-!
# Establishing a connection

The logical layer of a connection is established in stages, the TLS session
first, then the WebSocket handshake: `establishClientLogicalLayer` and
`establishServerLogicalLayer` go as far as the transport lets them, and are
called again later where it would block. `initEx` creates a connection and
drives it there, `destroy` ends it.
-/

namespace Libks

open Base

namespace Kws

/-- The loop around `SSL_connect` or `SSL_accept`: the code to return, or none
    to go on to the WebSocket handshake. -/
def shakeLoop (block : ℤ) : ℕ → List ShakeEvent → Option ℤ × ℕ × Bool × List ShakeEvent
  | 0, es => (some (-1), 0, false, es)
  | sanity, [] => (some (-1), sanity, false, [])
  | sanity, .done :: es => (none, sanity, true, es)
  | sanity, .closed :: es => (some (-1), sanity, false, es)
  | sanity + 1, .failed err :: es =>
    if ¬err.isWant then (some (-1), sanity + 1, false, es)
    else if block = 0 then (some (-2), sanity, false, es)
    else shakeLoop block sanity es

/-- The TLS stage of `establish_client_logical_layer` and
    `establish_server_logical_layer`. -/
def establishSecure (k : Kws) : Option ℤ × Kws :=
  if ¬k.secure ∨ k.secureEstablished then (none, k)
  else if ¬k.ssl ∧ ¬k.world.sslNew then (some (-1), k)
  else
    let (code, sanity, secureEstablished, handshakes) :=
      shakeLoop k.block k.sanity k.world.handshakes
    (code, { k with
      ssl := true, sanity, secureEstablished, world := { k.world with handshakes } })

/-- The certificate check of `establish_client_logical_layer`. -/
def validateCertificate (k : Kws) : ℤ × Kws :=
  if k.ssl ∧ k.params.sslValidateCertificate then
    let cert := k.world.certs.headD ⟨false, false⟩
    let k := { k with world := { k.world with
      certs := k.world.certs.tail
      verified := k.world.verified || (cert.present && cert.verified) } }
    if ¬cert.present then (-1, k)
    else if ¬cert.verified then (-1, k)
    else (0, k)
  else (0, k)

/-- The WebSocket stage: the `while` loop around the handshake, which either
    ends with the handshake done or marks the connection down. -/
def establishWebSocket (k : Kws) (handshake : Kws → Except Fault (ℤ × Kws)) :
    Except Fault (Option ℤ × Kws) :=
  if k.down ≠ 0 ∨ k.handshake then .ok (none, k)
  else do
    let (r, k) ← handshake k
    if r < 0 then return (some (-1), { k with down := 1 })
    else return (none, k)

/-- `establish_client_logical_layer`. -/
def establishClientLogicalLayer (k : Kws) : Except Fault (ℤ × Kws) :=
  if k.sanity = 0 then .ok (-1, k)
  else if k.logicalEstablished then .ok (0, k)
  else
    match k.establishSecure with
    | (some code, k) => .ok (code, k)
    | (none, k) => do
      match ← k.establishWebSocket wsClientHandshake with
      | (some code, k) => return (code, k)
      | (none, k) => return { k with logicalEstablished := true }.validateCertificate

/-- `establish_server_logical_layer`. -/
def establishServerLogicalLayer (k : Kws) : Except Fault (ℤ × Kws) :=
  if k.sanity = 0 then .ok (-1, k)
  else if k.logicalEstablished then .ok (0, k)
  else
    match k.establishSecure with
    | (some code, k) => .ok (code, k)
    | (none, k) => do
      match ← k.establishWebSocket wsServerHandshake with
      | (some code, k) => return (code, k)
      | (none, k) => return (0, { k with logicalEstablished := true })

/-- `establish_logical_layer`. -/
def establishLogicalLayer (k : Kws) : Except Fault (ℤ × Kws) :=
  match k.type with
  | .client => k.establishClientLogicalLayer
  | .server => k.establishServerLogicalLayer

/-! ## Connections that are down -/

theorem down_establishSecure (k : Kws) : k.establishSecure.2.down = k.down := by
  rw [establishSecure]
  split_ifs <;> rfl

theorem down_validateCertificate (k : Kws) : k.validateCertificate.2.down = k.down := by
  rw [validateCertificate]
  dsimp only
  split_ifs <;> rfl

theorem establishWebSocket_of_down {k : Kws} (h : k.down ≠ 0)
    (handshake : Kws → Except Fault (ℤ × Kws)) :
    k.establishWebSocket handshake = .ok (none, k) :=
  if_pos (.inl h)

/-- Establishing a connection that is down leaves it down. -/
theorem establishLogicalLayer_of_down {k : Kws} (h : k.down ≠ 0) :
    ∃ ll k', k.establishLogicalLayer = .ok (ll, k') ∧ k'.down ≠ 0 := by
  have hsecure := k.down_establishSecure
  rw [establishLogicalLayer, establishClientLogicalLayer, establishServerLogicalLayer]
  generalize k.establishSecure = s at hsecure ⊢
  obtain ⟨code, k₁⟩ := s
  have h₁ : k₁.down ≠ 0 := by rwa [hsecure]
  by_cases hs : k.sanity = 0
  · rw [if_pos hs, if_pos hs]
    exact ⟨-1, k, by cases k.type <;> rfl, h⟩
  rw [if_neg hs, if_neg hs]
  by_cases hl : k.logicalEstablished = true
  · rw [if_pos hl, if_pos hl]
    exact ⟨0, k, by cases k.type <;> rfl, h⟩
  rw [if_neg hl, if_neg hl]
  cases code with
  | some code => exact ⟨code, k₁, by cases k.type <;> rfl, h₁⟩
  | none =>
    simp only [establishWebSocket_of_down h₁, bind, Except.bind]
    cases k.type with
    | client => exact ⟨_, _, rfl, (down_validateCertificate _).trans_ne h₁⟩
    | server => exact ⟨_, _, rfl, h₁⟩

/-! ## Creating and destroying -/

/-- `kws_destroy`, for a connection that is not destroyed yet. -/
def destroy (k : Kws) : Kws :=
  let k := if k.down = 0 then (k.close 0).2 else k
  if 1 < k.down then k else { k with down := 2, writeBufferLen := 0, ssl := false }

/-- The loop of `kws_init_ex` that drives the handshake up to a deadline, with
    one look at the clock a turn. -/
def deadlineLoop : List Bool → Kws → Except Fault (ℤ × Kws)
  | [], k => do
    let (ll, k) ← k.establishLogicalLayer
    return (if ll = -2 then -1 else ll, k)
  | late :: clock, k => do
    let (ll, k) ← k.establishLogicalLayer
    if ll = -2 then if late then return (-1, k) else deadlineLoop clock k
    else return (ll, k)

/-- The connection `kws_init_ex` sets up from `client_data`
    (`uri[:host[:protocol]]`; none for a server) before the handshake. -/
def setup (world : World) (sslCtx : Bool) (clientData : Option (List UInt8)) (flags : KwsFlags)
    (params : Params) : Kws :=
  let k : Kws := { world, params, payloadSizeMax := params.payloadSizeMax, secure := sslCtx,
                   block := if flags.block then wsBlock else 0 }
  match clientData with
  | some data =>
    match strchr 58 data with
    | none => { k with type := .client, flags, reqUri := data }
    | some i =>
      let host := data.drop (i + 1)
      match strchr 58 host with
      | none => { k with type := .client, flags, reqUri := data.take i, reqHost := some host }
      | some j => { k with
          type := .client, flags, reqUri := data.take i
          reqHost := some (host.take j), reqProto := some (host.drop (j + 1)) }
  | none => { k with type := .server, flags := { flags with dontMask := true } }

/-- The handshake in `kws_init_ex`, with its optional time limit. -/
def driveHandshake (k : Kws) : Except Fault (ℤ × Kws) :=
  if 0 < k.params.wsHandshakeTimeoutMs then do
    let (ll, k') ← deadlineLoop k.world.clock { k with block := 0 }
    return (ll, { k' with block := k.block })
  else k.establishLogicalLayer

/-- `kws_init_ex`: the connection, or none on a failure. -/
def initEx (world : World) (sslCtx : Bool) (clientData : Option (List UInt8)) (flags : KwsFlags)
    (params : Params) : Except Fault (Option Kws) := do
  let (ll, k) ← (setup world sslCtx clientData flags params).driveHandshake
  if ll = -1 then return none
  else if k.down ≠ 0 then return none
  else
    match k.type with
    | .client => return some k
    | .server =>
      let cert := k.world.certs.headD ⟨false, false⟩
      return some { k with
        world := { k.world with certs := k.world.certs.tail }
        certifiedClient := cert.present && cert.verified }

end Kws

end Libks
