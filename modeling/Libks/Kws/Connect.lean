import Libks.Kws.ClientHandshake
import Libks.Kws.Establish
import Libks.Kws.Headers
import Libks.Kws.Request

/-!
# Connecting to a server

`kws_connect_ex` is told the host, the port, the path and the protocol in one
URL, or one by one. It packs them into one string, `path:host[:protocol]`, which
`kws_init_ex` takes apart at its first colons, and from which
`ws_client_handshake` writes its request.

* `connecting`: the model of the function, up to the address it connects to;
* `Endpoint`, `Passing`: a server to connect to, and the ways to pass it;
* `Connects`: the right address, and the right request;
* `connects_iff`: that is what comes out of it, if there is no colon in the
  path.
-/

namespace Libks

open Base

namespace Kws

/-! ## The function -/

/-- The members of `params` that `kws_connect_ex` reads, where they are strings,
    and the port, where it is a number. -/
structure ConnectParams extends Params where
  url : Option (List UInt8) := none
  host : Option (List UInt8) := none
  path : Option (List UInt8) := none
  protocol : Option (List UInt8) := none
  port : Option ℤ := none

/-- What `kws_connect_ex` has settled when it connects. -/
structure Connecting where
  host : List UInt8
  port : ℕ
  sslCtx : Bool
  clientData : List UInt8
  deriving DecidableEq, Repr

/-- A conversion to `ks_port_t`. -/
def toPort (n : ℤ) : ℕ := (n % 2 ^ 16).toNat

/-- `ks_json_value_number_int(tmp, (int *)&port)`: it stores four bytes, of which
    the variable has the lower two. The other two go behind it, where the
    compiler may have left room (`padded`). -/
def storePort (padded : Bool) (port : ℕ) : Option ℤ → Except Fault ℕ
  | none => .ok port
  | some v => if padded then .ok (toPort v) else .error .outOfBounds

/-- The host, the port and the path in what is behind the scheme of a URL. -/
def splitUrl (port : ℕ) (s : List UInt8) : List UInt8 × ℕ × List UInt8 :=
  match strchr 58 s with
  | some i =>
    let p := s.drop (i + 1)
    let path := match strchr 47 p with
      | some j => p.drop j
      | none => ascii "/"
    (s.take i, toPort (atoi p), path)
  | none =>
    match strchr 47 s with
    | some j => (s.take j, port, s.drop j)
    | none => (s, port, ascii "/")

/-- The `client_data` of `kws_connect_ex`. -/
def clientData (path host : List UInt8) (protocol : Option (List UInt8)) : List UInt8 :=
  match protocol with
  | some protocol => path ++ 58 :: (host ++ 58 :: protocol)
  | none => path ++ 58 :: host

/-- The start of `kws_connect_ex`, up to the look-up of the host: none for a
    failure. `newCtx` is whether `SSL_CTX_new` succeeds. -/
def connecting (newCtx padded sslCtx : Bool) (p : ConnectParams) :
    Except Fault (Option Connecting) :=
  match p.url with
  | none => do
    let port ← storePort padded 443 p.port
    match p.host, p.path with
    | some host, some path =>
      return some ⟨host, port, sslCtx, clientData path host p.protocol⟩
    | _, _ => return none
  | some url =>
    if ascii "wss://" <+: url then
      if ¬sslCtx ∧ ¬newCtx then .ok none
      else
        let (host, port, path) := splitUrl 443 (url.drop 6)
        .ok (some ⟨host, port, true, clientData path host p.protocol⟩)
    else if ascii "ws://" <+: url then
      let (host, port, path) := splitUrl 80 (url.drop 5)
      .ok (some ⟨host, port, sslCtx, clientData path host p.protocol⟩)
    else .ok none

/-! ## Endpoints -/

/-- A text on one line, without spaces. -/
def OneWord (s : List UInt8) : Prop := 13 ∉ s ∧ 10 ∉ s ∧ 32 ∉ s

instance : DecidablePred OneWord := fun _ => inferInstanceAs (Decidable (_ ∧ _ ∧ _))

/-- A server, and what to ask it for. -/
structure Endpoint where
  host : List UInt8
  port : Option UInt16 := none
  path : List UInt8
  protocol : Option (List UInt8) := none
  host_word : OneWord host
  host_colon : 58 ∉ host
  host_slash : 47 ∉ host
  path_word : OneWord path
  path_slash : path.head? = some 47
  protocol_word : ∀ s ∈ protocol, OneWord s
  protocol_colon : ∀ s ∈ protocol, 58 ∉ s

/-- The ways to pass an endpoint: in a URL with one of two schemes, or in
    members of their own. -/
inductive Passing
  | url (secure : Bool)
  | members
  deriving DecidableEq, Repr

/-- The port to connect to, if the endpoint has none. -/
def Passing.defaultPort : Passing → ℕ
  | url false => 80
  | url true => 443
  | members => 443

/-- The URL of an endpoint, behind the scheme. -/
def Endpoint.locator (e : Endpoint) : List UInt8 :=
  e.host ++ (e.port.elim [] fun port => 58 :: formatNat port.toNat) ++ e.path

/-- The `params` of an endpoint, with members besides that are read later. -/
def Endpoint.params (e : Endpoint) (rest : Params) : Passing → ConnectParams
  | .url secure => { rest with
      url := some ((if secure then ascii "wss://" else ascii "ws://") ++ e.locator)
      protocol := e.protocol }
  | .members => { rest with
      host := some e.host, path := some e.path, protocol := e.protocol
      port := e.port.map fun port => (port.toNat : ℤ) }

/-! ## Requests -/

/-- The request that `ws_client_handshake` hands over. -/
def request (k : Kws) : List UInt8 := clientRequest (k.genNonce 16).2 k.sentKey

/-- Whether a line is one of the header `name`. -/
def IsField (name line : List UInt8) : Prop :=
  (line.takeWhile (· ≠ 58)).map toLower = name.map toLower

instance (name : List UInt8) : DecidablePred (IsField name) :=
  fun _ => inferInstanceAs (Decidable (_ = _))

/-- The lines of the header `name` in a head. -/
def fieldLines (name head : List UInt8) : List (List UInt8) :=
  (Http.lines head).tail.filter (IsField name ·)

/-- A request that asks for an endpoint: for its path, in a Host line for its
    host, and for its protocol, if it has one. -/
structure Asks (req : List UInt8) (e : Endpoint) : Prop where
  target : (Http.lines req).head? = some (ascii "GET " ++ e.path ++ ascii " HTTP/1.1")
  host : fieldLines (ascii "Host") req = [ascii "Host: " ++ e.host]
  protocol : fieldLines (ascii "Sec-WebSocket-Protocol") req =
    e.protocol.toList.map (ascii "Sec-WebSocket-Protocol: " ++ ·)

/-- The connections that `ws_client_handshake` is called for, where
    `kws_init_ex` has set up `k`: it takes any number of tries to establish the
    TLS session first, and they may be non-blocking. -/
inductive Entering (k : Kws) : Kws → Prop
  | start : Entering k k
  | nonblocking {k' : Kws} : Entering k k' → Entering k { k' with block := 0 }
  | secure {k' : Kws} : Entering k k' → Entering k k'.establishSecure.2

/-- With the endpoint in `params`, `kws_connect_ex` connects to its host and
    port, and asks for it there. -/
def Connects (newCtx padded sslCtx : Bool) (e : Endpoint) (rest : Params) (passing : Passing) :
    Prop :=
  ∃ c, connecting newCtx padded sslCtx (e.params rest passing) = .ok (some c) ∧
    c.host = e.host ∧ c.port = e.port.elim passing.defaultPort UInt16.toNat ∧
    ∀ world flags k, Entering (setup world c.sslCtx (some c.clientData) flags rest) k →
      Asks k.request e

variable {k k' : Kws} {e : Endpoint} {s path host : List UInt8} {protocol : Option (List UInt8)}

/-! ## The request of a connection -/

/-- Establishing the TLS session changes nothing the request is made of. -/
theorem request_establishSecure (k : Kws) : k.establishSecure.2.request = k.request := by
  rw [establishSecure]
  split_ifs <;> rfl

theorem Entering.request (h : Entering k k') : k'.request = k.request := by
  induction h with
  | start => rfl
  | nonblocking _ ih => exact ih
  | secure _ ih => exact (request_establishSecure _).trans ih

/-- The lines of a request, in front of the headers from `params`. -/
def ownLines (path host : List UInt8) (protocol : Option (List UInt8)) (key : List UInt8) :
    List (List UInt8) :=
  [ascii "GET " ++ path ++ ascii " HTTP/1.1", ascii "Host: " ++ host, ascii "Upgrade: websocket",
    ascii "Connection: Upgrade", ascii "Sec-WebSocket-Key: " ++ key,
    ascii "Sec-WebSocket-Version: 13"] ++
  protocol.toList.map (ascii "Sec-WebSocket-Protocol: " ++ ·)

/-- The rest of a request, with the headers from `params`. -/
def tail (k : Kws) : List UInt8 := extraHeaders k.params.headers ++ [13, 10]

theorem request_eq (k : Kws) :
    k.request = (ownLines k.reqUri (k.reqHost.getD []) k.reqProto k.sentKey).flatMap
      (· ++ [13, 10]) ++ k.tail := by
  have hget : ascii " HTTP/1.1\r\n" = ascii " HTTP/1.1" ++ [13, 10] := by decide +kernel
  have hend : ascii "\r\n" = [13, 10] := by decide +kernel
  have hupgrade : ascii "Upgrade: websocket\r\n" = ascii "Upgrade: websocket" ++ [13, 10] := by
    decide +kernel
  have hconn : ascii "Connection: Upgrade\r\n" = ascii "Connection: Upgrade" ++ [13, 10] := by
    decide +kernel
  have hversion : ascii "Sec-WebSocket-Version: 13\r\n" =
      ascii "Sec-WebSocket-Version: 13" ++ [13, 10] := by
    decide +kernel
  rw [request, clientRequest, tail, ownLines, hget, hend, hupgrade, hconn, hversion]
  simp only [genNonce]
  cases k.reqProto with
  | none => simp only [List.append_assoc, List.flatMap_cons, List.flatMap_nil, List.nil_append,
      List.cons_append, Option.toList_none, List.map_nil, List.append_nil]
  | some proto => simp only [List.append_assoc, List.flatMap_cons, List.flatMap_nil,
      List.nil_append, List.cons_append, Option.toList_some, List.map_cons, List.map_nil]

theorem lines_request (hpath : 10 ∉ k.reqUri) (hhost : 10 ∉ k.reqHost.getD [])
    (hproto : ∀ s ∈ k.reqProto, 10 ∉ s) :
    Http.lines k.request =
      ownLines k.reqUri (k.reqHost.getD []) k.reqProto k.sentKey ++ Http.lines k.tail := by
  rw [request_eq, Http.lines_flatMap]
  intro l hl
  have hcat {a b : List UInt8} (ha : 10 ∉ a) (hb : 10 ∉ b) : 10 ∉ a ++ b :=
    fun h => (List.mem_append.1 h).elim ha hb
  have hkey : 10 ∉ k.sentKey := newline_notMem_b64encode _
  rw [ownLines, List.mem_append] at hl
  rcases hl with hl | hl
  · simp only [List.mem_cons, List.not_mem_nil, or_false] at hl
    rcases hl with rfl | rfl | rfl | rfl | rfl | rfl
    · exact hcat (hcat (by decide +kernel) hpath) (by decide +kernel)
    · exact hcat (by decide +kernel) hhost
    · decide +kernel
    · decide +kernel
    · exact hcat (by decide +kernel) hkey
    · decide +kernel
  · obtain ⟨s, hs, rfl⟩ := List.mem_map.1 hl
    exact hcat (by decide +kernel) (hproto s (Option.mem_toList.1 hs))

/-- A line with a colon and a space behind the name of its header. -/
theorem isField_iff {name n line v : List UInt8} (hline : line = n ++ [58, 32]) (hn : 58 ∉ n) :
    IsField name (line ++ v) ↔ n.map toLower = name.map toLower := by
  have htake : (line ++ v).takeWhile (· ≠ 58) = n := by
    rw [hline, List.append_assoc, List.takeWhile_append_of_pos fun c hc => by
      simpa using fun h58 : c = 58 => hn (h58 ▸ hc)]
    simp
  rw [IsField, htake]

/-- The names of the two headers that an endpoint decides. -/
def hostName : List UInt8 := ascii "Host"

@[inherit_doc hostName]
def protocolName : List UInt8 := ascii "Sec-WebSocket-Protocol"

theorem isField_host (name v : List UInt8) :
    IsField name (ascii "Host: " ++ v) ↔ hostName.map toLower = name.map toLower :=
  isField_iff (by decide +kernel) (by decide +kernel)

theorem isField_protocol (name v : List UInt8) :
    IsField name (ascii "Sec-WebSocket-Protocol: " ++ v) ↔
      protocolName.map toLower = name.map toLower :=
  isField_iff (by decide +kernel) (by decide +kernel)

theorem isField_key (name v : List UInt8) :
    IsField name (ascii "Sec-WebSocket-Key: " ++ v) ↔
      (ascii "Sec-WebSocket-Key").map toLower = name.map toLower :=
  isField_iff (by decide +kernel) (by decide +kernel)

/-- The lines of a header are those among the own lines, and those from
    `params`. -/
theorem fieldLines_request {name key : List UInt8}
    (h : Http.lines k.request = ownLines path host protocol key ++ Http.lines k.tail) :
    fieldLines name k.request = (ownLines path host protocol key).tail.filter (IsField name ·) ++
      (Http.lines k.tail).filter (IsField name ·) := by
  rw [fieldLines, h, ← List.filter_append]
  rfl

theorem filter_host (path host : List UInt8) (protocol : Option (List UInt8)) (key : List UInt8) :
    (ownLines path host protocol key).tail.filter (IsField hostName ·) =
      [ascii "Host: " ++ host] := by
  have hproto : (protocol.toList.map (ascii "Sec-WebSocket-Protocol: " ++ ·)).filter
      (IsField hostName ·) = [] := by
    rw [List.filter_eq_nil_iff]
    intro l hl
    obtain ⟨s, -, rfl⟩ := List.mem_map.1 hl
    rw [decide_eq_true_eq, isField_protocol]
    decide +kernel
  rw [ownLines, List.cons_append, List.tail_cons, List.filter_append, hproto, List.append_nil,
    List.filter_cons_of_pos (by rw [decide_eq_true_eq, isField_host]),
    List.filter_cons_of_neg (by decide +kernel), List.filter_cons_of_neg (by decide +kernel),
    List.filter_cons_of_neg (by rw [decide_eq_true_eq, isField_key]; decide +kernel),
    List.filter_cons_of_neg (by decide +kernel), List.filter_nil]

theorem filter_protocol (path host : List UInt8) (protocol : Option (List UInt8))
    (key : List UInt8) :
    (ownLines path host protocol key).tail.filter (IsField protocolName ·) =
      protocol.toList.map (ascii "Sec-WebSocket-Protocol: " ++ ·) := by
  have hproto : (protocol.toList.map (ascii "Sec-WebSocket-Protocol: " ++ ·)).filter
      (IsField protocolName ·) = protocol.toList.map (ascii "Sec-WebSocket-Protocol: " ++ ·) := by
    rw [List.filter_eq_self]
    intro l hl
    obtain ⟨s, -, rfl⟩ := List.mem_map.1 hl
    rw [decide_eq_true_eq, isField_protocol]
  rw [ownLines, List.cons_append, List.tail_cons, List.filter_append, hproto,
    List.filter_cons_of_neg (by rw [decide_eq_true_eq, isField_host]; decide +kernel),
    List.filter_cons_of_neg (by decide +kernel), List.filter_cons_of_neg (by decide +kernel),
    List.filter_cons_of_neg (by rw [decide_eq_true_eq, isField_key]; decide +kernel),
    List.filter_cons_of_neg (by decide +kernel), List.filter_nil, List.nil_append]

/-! ## Packing and unpacking -/

theorem setup_clientData (world : World) (sslCtx : Bool) (flags : KwsFlags) (rest : Params)
    (hpath : 58 ∉ path) (hhost : 58 ∉ host) :
    let k := setup world sslCtx (some (clientData path host protocol)) flags rest
    k.reqUri = path ∧ k.reqHost = some host ∧ k.reqProto = protocol ∧ k.params = rest := by
  cases protocol with
  | none =>
    simp [setup, clientData, strchr_append_cons hpath, strchr_eq_none_iff.2 hhost]
  | some protocol =>
    simp [setup, clientData, strchr_append_cons hpath, strchr_append_cons hhost]

/-- Whatever is packed, there is no colon in the path that is unpacked. -/
theorem colon_notMem_reqUri (world : World) (sslCtx : Bool) (data : List UInt8) (flags : KwsFlags)
    (rest : Params) : 58 ∉ (setup world sslCtx (some data) flags rest).reqUri := by
  rw [setup]
  dsimp only
  cases hat : strchr 58 data with
  | none => exact strchr_eq_none_iff.1 hat
  | some i =>
    dsimp only
    cases strchr 58 (data.drop (i + 1)) with
    | none => exact notMem_take_of_strchr hat
    | some j => exact notMem_take_of_strchr hat

/-! ## Ports -/

theorem toPort_toNat (port : UInt16) : toPort (port.toNat : ℤ) = port.toNat := by
  have := port.toNat_lt
  rw [toPort]
  omega

/-! ## The address -/

theorem splitUrl_locator (hpath : 58 ∉ e.path) (port : ℕ) :
    splitUrl port e.locator = (e.host, e.port.elim port UInt16.toNat, e.path) := by
  obtain ⟨r, hr⟩ : ∃ r, e.path = 47 :: r := List.head?_eq_some_iff.1 e.path_slash
  rw [splitUrl, Endpoint.locator]
  cases e.port with
  | none =>
    have hcolon : 58 ∉ e.host ++ e.path := fun h => (List.mem_append.1 h).elim e.host_colon hpath
    dsimp only [Option.elim]
    rw [List.append_nil, strchr_eq_none_iff.2 hcolon, hr]
    dsimp only
    rw [strchr_append_cons e.host_slash]
    dsimp only
    rw [List.take_left, List.drop_left]
  | some p =>
    have hslash : 47 ∉ formatNat p.toNat := fun h =>
      absurd (isDigit_of_mem_formatNat h).1 (by decide)
    have hp : p.toNat < 2 ^ 31 := Nat.lt_trans p.toNat_lt (by decide)
    dsimp only [Option.elim]
    rw [List.append_assoc, List.cons_append, strchr_append_cons e.host_colon]
    dsimp only
    rw [drop_cut, hr, strchr_append_cons hslash,
      atoi_formatNat hp (by rintro c ⟨⟩; decide), toPort_toNat]
    dsimp only
    rw [List.take_left, List.drop_left]

variable {newCtx padded sslCtx : Bool} {rest : Params} {passing : Passing}

theorem connecting_url (hpath : 58 ∉ e.path) (secure : Bool)
    (hctx : secure → sslCtx ∨ newCtx) :
    connecting newCtx padded sslCtx (e.params rest (.url secure)) =
      .ok (some ⟨e.host, e.port.elim (Passing.url secure).defaultPort UInt16.toNat,
        secure || sslCtx, clientData e.path e.host e.protocol⟩) := by
  cases secure with
  | true =>
    have hdrop : (ascii "wss://" ++ e.locator).drop 6 = e.locator := List.drop_left' (by decide)
    simp only [connecting, Endpoint.params, if_true]
    have hnew : ¬(¬sslCtx = true ∧ ¬newCtx = true) := fun h => (hctx rfl).elim h.1 h.2
    rw [if_pos (List.prefix_append _ _), if_neg hnew, hdrop, splitUrl_locator hpath]
    rfl
  | false =>
    have hdrop : (ascii "ws://" ++ e.locator).drop 5 = e.locator := List.drop_left' (by decide)
    have hne : ¬ascii "wss://" <+: ascii "ws://" ++ e.locator := by
      rw [show ascii "wss://" = [119, 115, 115, 58, 47, 47] by decide +kernel,
        show ascii "ws://" = [119, 115, 58, 47, 47] by decide +kernel]
      simp
    simp only [connecting, Endpoint.params, Bool.false_eq_true, if_false]
    rw [if_neg hne, if_pos (List.prefix_append _ _), hdrop, splitUrl_locator hpath]
    rfl

theorem connecting_members :
    connecting newCtx padded sslCtx (e.params rest .members) =
      if e.port.isSome ∧ ¬padded then .error .outOfBounds
      else .ok (some ⟨e.host, e.port.elim 443 UInt16.toNat, sslCtx,
        clientData e.path e.host e.protocol⟩) := by
  simp only [connecting, Endpoint.params]
  cases e.port with
  | none => rfl
  | some p =>
    cases padded with
    | false => rfl
    | true =>
      simp only [Option.map_some, storePort, if_true, toPort_toNat]
      rfl

/-- A request for the right path was made of the right path. -/
theorem colon_notMem_of_target (hword : 32 ∉ e.path) (hcolon : 58 ∉ k.reqUri)
    (h : (Http.lines k.request).head? = some (ascii "GET " ++ e.path ++ ascii " HTTP/1.1")) :
    58 ∉ e.path := by
  intro hmem
  obtain ⟨t, ht⟩ := Http.lines_initial h
  have hsplit : ∃ u, k.request = ascii "GET " ++ (k.reqUri ++ 32 :: u) :=
    ⟨_, by rw [request, clientRequest]; simp only [List.append_assoc]; rfl⟩
  obtain ⟨u, hu⟩ := hsplit
  rw [hu, show ascii " HTTP/1.1" = 32 :: ascii "HTTP/1.1" by decide +kernel] at ht
  simp only [List.append_assoc, List.cons_append] at ht
  rcases List.append_eq_append_iff.1 (List.append_cancel_left ht) with ⟨a, ha, -⟩ | ⟨a, ha, ha'⟩
  · exact hcolon (ha ▸ List.mem_append_left _ hmem)
  · cases a with
    | nil => exact hcolon (by rwa [ha, List.append_nil] at hmem)
    | cons b a =>
      injection ha' with hb
      exact hword (by rw [ha, ← hb]; simp)

/-- The headers from `params` add no line of the two headers that an endpoint
    decides. -/
def HeadersApart (headers : List (Option (List UInt8) × Option (List UInt8))) : Prop :=
  ∀ name ∈ [hostName, protocolName], ∀ l ∈ Http.lines (extraHeaders headers ++ [13, 10]),
    ¬IsField name l

/-- The request of a connection set up from what was packed for an endpoint. -/
theorem asks_iff (hpath : 58 ∉ e.path) (world : World) (sslCtx : Bool) (flags : KwsFlags)
    (rest : Params) :
    Asks (setup world sslCtx (some (clientData e.path e.host e.protocol)) flags rest).request e ↔
      HeadersApart rest.headers := by
  obtain ⟨huri, hhost, hproto, hparams⟩ :=
    @setup_clientData e.path e.host e.protocol world sslCtx flags rest hpath e.host_colon
  generalize setup world sslCtx (some (clientData e.path e.host e.protocol)) flags rest = k at *
  have hlines := @lines_request k (huri ▸ e.path_word.2.1) (hhost ▸ e.host_word.2.1)
    (hproto ▸ fun s hs => (e.protocol_word s hs).2.1)
  rw [huri, hhost, hproto, Option.getD_some] at hlines
  have hhosts : fieldLines hostName k.request = _ := fieldLines_request hlines
  have hprotos : fieldLines protocolName k.request = _ := fieldLines_request hlines
  have htail : k.tail = extraHeaders rest.headers ++ [13, 10] := by rw [tail, hparams]
  rw [filter_host, htail] at hhosts
  rw [filter_protocol, htail] at hprotos
  constructor
  · rintro ⟨-, hh, hp⟩ name hname l hl
    have hnil₁ := List.append_cancel_left ((hhosts.symm.trans hh).trans (List.append_nil _).symm)
    have hnil₂ := List.append_cancel_left ((hprotos.symm.trans hp).trans (List.append_nil _).symm)
    rcases List.mem_cons.1 hname with rfl | hname
    · exact fun h => List.filter_eq_nil_iff.1 hnil₁ l hl (decide_eq_true h)
    · obtain rfl := List.mem_singleton.1 hname
      exact fun h => List.filter_eq_nil_iff.1 hnil₂ l hl (decide_eq_true h)
  · intro h
    refine ⟨by rw [hlines]; rfl, hhosts.trans ?_, hprotos.trans ?_⟩
    · rw [List.filter_eq_nil_iff.2 fun l hl => by simpa using h hostName (by simp) l hl,
        List.append_nil]
    · rw [List.filter_eq_nil_iff.2 fun l hl => by simpa using h protocolName (by simp) l hl,
        List.append_nil]

/-- `kws_connect_ex` connects to the endpoint it is told, and asks for it, if and
    only if there is no colon in the path, the port is not stored over the end
    of its variable, and the other headers leave the two alone. -/
theorem connects_iff (hctx : passing = .url true → sslCtx ∨ newCtx) :
    Connects newCtx padded sslCtx e rest passing ↔
      58 ∉ e.path ∧ (passing = .members → e.port.isSome → padded) ∧ HeadersApart rest.headers := by
  have hget (hpath : 58 ∉ e.path) (hport : passing = .members → e.port.isSome → padded) :
      ∃ ssl, connecting newCtx padded sslCtx (e.params rest passing) =
        .ok (some ⟨e.host, e.port.elim passing.defaultPort UInt16.toNat, ssl,
          clientData e.path e.host e.protocol⟩) := by
    cases passing with
    | url secure =>
      exact ⟨secure || sslCtx, connecting_url hpath secure fun h => hctx (by rw [h])⟩
    | members =>
      refine ⟨sslCtx, ?_⟩
      rw [connecting_members, if_neg fun h => h.2 (hport rfl h.1)]
      rfl
  constructor
  · rintro ⟨c, hc, hhost, hport, hasks⟩
    have hpath : 58 ∉ e.path := by
      have h := hasks {} {} _ .start
      exact colon_notMem_of_target e.path_word.2.2 (colon_notMem_reqUri _ _ _ _ _) h.target
    have hstore : passing = .members → e.port.isSome → padded := by
      rintro rfl hsome
      by_contra hpad
      rw [connecting_members, if_pos ⟨hsome, hpad⟩] at hc
      cases hc
    obtain ⟨ssl, hc'⟩ := hget hpath hstore
    obtain rfl := Option.some.inj (Except.ok.inj (hc.symm.trans hc'))
    exact ⟨hpath, hstore, (asks_iff hpath {} ssl {} rest).1 (hasks {} {} _ .start)⟩
  · rintro ⟨hpath, hport, hheaders⟩
    obtain ⟨ssl, hc⟩ := hget hpath hport
    refine ⟨_, hc, rfl, rfl, fun world flags k hk => ?_⟩
    rw [hk.request]
    exact (asks_iff hpath world ssl flags rest).2 hheaders

/-- An endpoint with everything in it, in a URL, and another header. -/
theorem connects_iff_url :
    let e : Endpoint := {
      host := ascii "example.com", port := some 8080
      path := ascii "/chat", protocol := some (ascii "v1")
      host_word := by decide +kernel, host_colon := by decide +kernel
      host_slash := by decide +kernel, path_word := by decide +kernel
      path_slash := by decide +kernel, protocol_word := by decide +kernel
      protocol_colon := by decide +kernel }
    let rest : Params := { headers := [(some (ascii "X-Id"), some (ascii "7"))] }
    Connects true false false e rest (.url true) ↔
      58 ∉ e.path ∧ (Passing.url true = .members → e.port.isSome → false = true) ∧
        HeadersApart rest.headers :=
  connects_iff fun _ => .inr rfl

/-- A path with a colon in it is cut off there. -/
theorem not_connects_colon :
    ¬∀ (e : Endpoint) (passing : Passing), Connects true true false e {} passing := by
  intro h
  obtain ⟨c, -, -, -, hasks⟩ := h {
    host := ascii "example.com", path := ascii "/a:b"
    host_word := by decide +kernel, host_colon := by decide +kernel
    host_slash := by decide +kernel, path_word := by decide +kernel
    path_slash := by decide +kernel, protocol_word := by decide +kernel
    protocol_colon := by decide +kernel } .members
  have htarget := (hasks {} {} _ .start).target
  exact colon_notMem_of_target (by decide +kernel) (colon_notMem_reqUri _ _ _ _ _) htarget
    (by decide +kernel)

end Kws

end Libks
