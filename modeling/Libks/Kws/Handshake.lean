import Libks.Base.CString
import Libks.Kws.State

/-!
# The WebSocket handshake

The text side of the handshake: the header scanner `cheezyGetVar`, the base-64
encoder `b64encode`, and the two ends of the exchange, `wsClientHandshake` and
`wsServerHandshake`; and `close`, which the server's end falls back on.
-/

namespace Libks

open Base

/-! ## Headers and digests -/

/-- The suffix of the head at which the line of the header `name` starts: the
    first line start that `name` and a `:` follow. -/
def cheezyFind (name : List UInt8) : Bool → List UInt8 → Option (List UInt8)
  | _, [] => none
  | lineStart, c :: s =>
    if lineStart ∧ startsWithNoCase name (c :: s) ∧ (c :: s)[name.length]? = some 58 then
      some (c :: s)
    else cheezyFind name (c = 10) s

/-- `cheezy_get_var`: the value of the header `name`, cut to the buffer. The end
    of the value is the next CR, or else the next LF. -/
def cheezyGetVar (data name : List UInt8) (buflen : ℕ) : Option (List UInt8) := do
  let p ← cheezyFind name true data
  let colon ← strchr 58 p
  let v := (p.drop (colon + 1)).dropWhile (· = 32)
  let e ← (strchr 13 v).or (strchr 10 v)
  return v.take (min e (buflen - 1))

/-- `c64`. -/
def c64 : List UInt8 := ascii "ABCDEFGHIJKLMNOPQRSTUVWXYZabcdefghijklmnopqrstuvwxyz0123456789+/"

/-- The characters of the groups of six among the `l` low bits of `b`, and how
    many bits are left. -/
def b64Drain (b : ℕ) : ℕ → ℕ → List UInt8 × ℕ
  | 0, l => ([], l)
  | fuel + 1, l =>
    if 6 ≤ l then
      let (cs, l') := b64Drain b fuel (l - 6)
      (c64.getD (b / 2 ^ (l - 6) % 64) 0 :: cs, l')
    else ([], l)

/-- The loop of `b64encode`: the characters written for `input`, and the state
    of its accumulator, an `unsigned int`. -/
def b64Loop : ℕ → ℕ → List UInt8 → List UInt8 × ℕ × ℕ
  | b, l, [] => ([], b, l)
  | b, l, c :: input =>
    let b := (b * 256 + c.toNat) % 2 ^ 32
    let (cs, l) := b64Drain b (l + 8) (l + 8)
    let (out, s) := b64Loop b l input
    (cs ++ out, s)

/-- `b64encode`. -/
def b64encode (input : List UInt8) : List UInt8 :=
  let (out, b, l) := b64Loop 0 0 input
  out ++ (if 0 < l then [c64.getD (b % 16 * 2 ^ (6 - l) % 64) 0] else []) ++
    (if l ≠ 0 then List.replicate ((6 - l + 1) / 2) 61 else [])

/-- `WEBSOCKET_GUID`. -/
def websocketGuid : List UInt8 := ascii "258EAFA5-E914-47DA-95CA-C5AB0DC85B11"

/-- The value of `Sec-WebSocket-Accept` for the key `enonce`, which `snprintf`
    puts with the GUID into `size` bytes. -/
def acceptFor (sha1 : List UInt8 → Fin 20 → UInt8) (size : ℕ) (enonce : List UInt8) :
    List UInt8 :=
  b64encode (List.ofFn (sha1 ((enonce ++ websocketGuid).take (size - 1))))

/-- `verify_accept`. -/
def verifyAccept (k : Kws) (enonce accept : List UInt8) : Bool :=
  acceptFor k.world.sha1 256 enonce = accept

namespace Kws

/-! ## Closing -/

/-- The loop of `kws_close` that reads what the peer still sends. Left with
    `true`, the outer loop goes on. -/
def drainLoop (blockN : ℕ) : ℕ → ℕ → Mem → List ReadEvent → Bool × ℕ × Mem × List ReadEvent
  | 0, n, buffer, es => (false, n, buffer, es)
  | _, n, buffer, [] => (true, n, buffer, [])
  | fuel + 1, n, buffer, .data bs :: es =>
    let buffer := buffer.write 0 (bs.take 9)
    if bs = [] then (false, n, buffer, es)
    else drainLoop blockN fuel n buffer (if bs.length ≤ 9 then es else .data (bs.drop 9) :: es)
  | fuel + 1, n, buffer, .closed err :: es | fuel + 1, n, buffer, .failed err :: es =>
    if err = .zeroReturn then (true, n, buffer, es)
    else if err.isIoError then (false, n, buffer, es)
    else if err = .wantRead then
      if n + 1 = blockN then (false, n + 1, buffer, es)
      else drainLoop blockN fuel (n + 1) buffer es
    else (false, n, buffer, es)

/-- A bound on the reads it takes to drain the transport. -/
def readSize (es : List ReadEvent) : ℕ :=
  (es.map fun | .data bs => bs.length + 1 | _ => 1).sum

/-- The shutdown of the TLS session in `kws_close`, on both sides. -/
def shutdownLoop (blockN : ℕ) : ℕ → Mem → List ReadEvent → List ShutdownEvent →
    Mem × List ReadEvent × List ShutdownEvent
  | _, buffer, reads, [] => (buffer, reads, [])
  | n, buffer, reads, s :: ss =>
    if s.code ≤ 0 ∧ s.err = .wantRead then
      let (goOn, n, buffer, reads) := drainLoop blockN (readSize reads + 1) n buffer reads
      if goOn then shutdownLoop blockN n buffer reads ss else (buffer, reads, ss)
    else if s.code = 0 ∨ (s.code < 0 ∧ s.err = .wantWrite) then
      if n + 1 = blockN then (buffer, reads, ss) else shutdownLoop blockN (n + 1) buffer reads ss
    else (buffer, reads, ss)

/-- The TLS part of `kws_close`. -/
def closeTls (k : Kws) : Kws :=
  if ¬k.ssl ∨ ¬k.sock then k
  -- The TLS layer was never established, or an I/O error occurred.
  else if ¬k.secureEstablished ∨ k.sslIoError then k
  else if k.world.sentShutdown then k
  else if k.world.receivedShutdown then
    { k with world := { k.world with shutdowns := k.world.shutdowns.tail } }
  else
    let (buffer, reads, shutdowns) :=
      shutdownLoop (wsSoftBlock / 10).toNat 0 k.buffer k.world.reads k.world.shutdowns
    { k with buffer, world := { k.world with reads, shutdowns } }

/-- The close frame of `kws_close`, masked by a client. -/
def closeFrame (k : Kws) (reason : ℕ) : List UInt8 × Kws :=
  let u16 := (leBytes 2 reason).reverse
  match k.type with
  | .client =>
    let (maskingKey, k) := k.genNonce 4
    ([0x88, 0x82] ++ maskingKey ++ (u16.zipWith (· ^^^ ·) maskingKey), k)
  | .server => ([0x88, 0x02] ++ u16, k)

/-- `kws_close`. -/
def close (k : Kws) (reason : ℕ) : ℤ × Kws :=
  if k.down ≠ 0 then (-1, k)
  else
    let k := { k with down := 1, uri := none }
    let k :=
      if k.handshake ∧ k.sock then
        let (fr, k) := k.closeFrame (if reason ≠ 0 then reason else 1000)
        (k.rawWrite fr).2
      else k
    (-reason, { k.closeTls with sock := false })

theorem down_closeFrame (k : Kws) (reason : ℕ) : (k.closeFrame reason).2.down = k.down := by
  rw [closeFrame]
  cases k.type <;> rfl

theorem down_closeTls (k : Kws) : k.closeTls.down = k.down := by
  rw [closeTls]
  split_ifs <;> rfl

/-- A connection is down once it is closed. -/
theorem down_close (k : Kws) (reason : ℕ) : (k.close reason).2.down ≠ 0 := by
  rw [close]
  by_cases hd : k.down ≠ 0
  · rwa [if_pos hd]
  · rw [if_neg hd]
    dsimp only
    rw [down_closeTls]
    split_ifs
    · exact (down_closeFrame _ _).trans_ne Nat.one_ne_zero
    · exact (down_closeFrame _ _).trans_ne Nat.one_ne_zero
    · exact Nat.one_ne_zero

/-! ## The client's handshake -/

/-- `CRLF CRLF`. -/
def crlfcrlf : List UInt8 := [13, 10, 13, 10]

/-- The extra headers of the request, from `params`. -/
def extraHeaders (headers : List (Option (List UInt8) × Option (List UInt8))) : List UInt8 :=
  headers.flatMap fun
    | (some k, some v) => k ++ ascii ": " ++ v ++ [13, 10]
    | _ => []

/-- The request of `ws_client_handshake`. -/
def clientRequest (k : Kws) (enonce : List UInt8) : List UInt8 :=
  ascii "GET " ++ k.reqUri ++ ascii " HTTP/1.1\r\n" ++
    ascii "Host: " ++ k.reqHost.getD [] ++ ascii "\r\n" ++
    ascii "Upgrade: websocket\r\n" ++
    ascii "Connection: Upgrade\r\n" ++
    ascii "Sec-WebSocket-Key: " ++ enonce ++ ascii "\r\n" ++
    ascii "Sec-WebSocket-Version: 13\r\n" ++
    (match k.reqProto with
      | some proto => ascii "Sec-WebSocket-Protocol: " ++ proto ++ ascii "\r\n"
      | none => []) ++
    extraHeaders k.params.headers ++ ascii "\r\n"

/-- The loop of `ws_client_handshake` that reads the response. Every read goes
    to the same place, as `datalen` stays what it was. -/
def readResponse : ℕ → Kws → Except Fault (ℤ × Kws)
  | 0, _ => .error .outOfFuel
  | fuel + 1, k => do
    let (read, k) ← k.stringRead (.buffer k.datalen.toNat) (k.buflen - k.datalen.toNat) wsBlock
    if 0 < read.ret ∧ (strstr crlfcrlf k.text).isNone then readResponse fuel k
    else return (read.ret, k)

/-- A bound on the reads it takes to exhaust what a connection can still read. -/
def inputSize (k : Kws) : ℕ := k.unprocessedBufferLen + readSize k.world.reads + 1

/-- What `ws_client_handshake` makes of the response, after a last read of
    `bytes` bytes. -/
def checkResponse (k : Kws) (enonce : List UInt8) (bytes : ℤ) : ℤ × Kws :=
  if bytes ≤ 0 then (-1, k)
  else
    let frameEnd := (strstr crlfcrlf k.text).map (· + 4)
    let accept := (cheezyGetVar k.text (ascii "Sec-WebSocket-Accept") 128).getD []
    if accept = [] ∨ ¬verifyAccept k enonce accept then (-1, k)
    else
      -- Check if there is any more data.
      let k := match frameEnd with
        | some e =>
          if (e : ℤ) < bytes then
            { k with unprocessedBufferLen := (bytes - e).toNat, unprocessedPosition := e }
          else k
        | none => k
      (0, { k with handshake := true })

/-- `ws_client_handshake`. -/
def wsClientHandshake (k : Kws) : Except Fault (ℤ × Kws) := do
  let (nonce, k) := k.genNonce 16
  let enonce := b64encode nonce
  let (_, k) := k.rawWrite (k.clientRequest enonce)
  let (bytes, k) ← readResponse k.inputSize k
  return k.checkResponse enonce bytes

/-! ## The server's handshake -/

/-- The loop of `ws_server_handshake` that reads the request. -/
def readRequest : ℕ → Kws → Except Fault (ℤ × Kws)
  | 0, _ => .error .outOfFuel
  | fuel + 1, k => do
    let (read, k) ← k.stringRead (.buffer k.datalen.toNat) (k.buflen - k.datalen.toNat) wsBlock
    if 0 < read.ret then
      let k := { k with datalen := k.datalen + read.ret }
      if (strstr crlfcrlf k.text).isSome ∨ (strstr [10, 10] k.text).isSome then return (read.ret, k)
      else readRequest fuel k
    else return (read.ret, k)

/-- The end of `ws_server_handshake` on an error. -/
def serverHandshakeError (k : Kws) (bytes : ℤ) : ℤ × Kws :=
  if ¬k.flags.stayOpen then
    let k :=
      if 0 < bytes then
        (k.rawWrite (ascii "HTTP/1.1 400 Bad Request\r\nSec-WebSocket-Version: 13\r\n\r\n")).2
      else k
    (-1, (k.close 0).2)
  else if k.flags.http then (0, { k with handshake := true })
  else (-1, k)

/-- The response of `ws_server_handshake`, cut by `respond[511] = 0`. -/
def serverResponse (k : Kws) (key proto : List UInt8) : List UInt8 :=
  let protoBuf :=
    if proto = [] then []
    else (ascii "Sec-WebSocket-Protocol: " ++ proto ++ ascii "\r\n").take 383
  (ascii "HTTP/1.1 101 Switching Protocols\r\n" ++
    ascii "Upgrade: websocket\r\n" ++
    ascii "Connection: Upgrade\r\n" ++
    ascii "Sec-WebSocket-Accept: " ++ acceptFor k.world.sha1 512 key ++ ascii "\r\n" ++
    protoBuf ++ ascii "\r\n").take 511

/-- What `ws_server_handshake` makes of the request. -/
def answerRequest (k : Kws) (bytes : ℤ) : ℤ × Kws :=
  if ¬startsWithNoCase (ascii "GET ") k.text then k.serverHandshakeError bytes
  else
    let p := k.text.drop 4
    match strchr 32 p with
    | none => k.serverHandshakeError bytes
    | some e =>
      let k := { k with uri := some (p.take e) }
      let key := (cheezyGetVar k.text (ascii "Sec-WebSocket-Key") 256).getD []
      let proto := (cheezyGetVar k.text (ascii "Sec-WebSocket-Protocol") 256).getD []
      if key = [] then k.serverHandshakeError bytes
      else
        let respond := k.serverResponse key proto
        let (r, k) := k.rawWrite respond
        if r ≠ respond.length then k.serverHandshakeError bytes
        else (0, { k with handshake := true, flags := { k.flags with http := false } })

/-- `ws_server_handshake`. -/
def wsServerHandshake (k : Kws) : Except Fault (ℤ × Kws) :=
  if ¬k.sock then .ok (-3, k)
  else do
    let (bytes, k) ← readRequest k.inputSize k
    if bytes < 0 ∨ (k.buflen - 1 : ℤ) < bytes then return k.serverHandshakeError bytes
    else
      let k ← k.store (.buffer k.datalen.toNat) [0]
      return k.answerRequest bytes

end Kws

end Libks
