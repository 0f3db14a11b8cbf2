import Libks.Kws.Base64
import Libks.Kws.Connect
import Libks.Kws.RawWrite

/-!
# Both ends of the handshake

The request of `ws_client_handshake` is made of lines that end with CR LF, and
so is the response of `ws_server_handshake`; `cheezy_get_var` finds in either
what the other end has put there (`cheezyGetVar_headOf`). The server reads the
request in as many pieces as the transport has it in, and stops behind the
last byte of it (`readRequest_pieces`). So both handshakes succeed, for every
request that a client can be told to make (`handshakes_agree`).
-/

namespace Libks

open Base

/-! ## Values of headers -/

variable {name : HeaderName} {as l s u v : List UInt8} {ls : List (List UInt8)} {n : ℕ}

/-- A line with a colon begins with a name if that is what is before it. -/
theorem begins_iff (h : 58 ∉ as) :
    begins name.bytes (as ++ 58 :: u) = true ↔ as.map toLower = name.bytes.map toLower := by
  constructor
  · intro hb
    obtain ⟨bs, w, heq, hlen, -, h58⟩ := begins_split name hb
    have hcolon := congrArg (strchr 58) heq
    rw [strchr_append_cons h, strchr_append_cons h58] at hcolon
    obtain ⟨rfl, -⟩ := List.append_inj heq (Option.some.inj hcolon)
    rw [begins, decide_eq_true_eq, startsWithNoCase, decide_eq_true_eq, ← hlen, List.take_left] at hb
    exact hb.1
  · intro hmap
    have hlen := congrArg List.length hmap
    rw [List.length_map, List.length_map] at hlen
    rw [begins, decide_eq_true_eq, startsWithNoCase, decide_eq_true_eq, ← hlen, List.take_left]
    exact ⟨hmap, by simp⟩

/-- A line with a colon and a space behind the name of its header. -/
theorem begins_field (field : List UInt8) {line : List UInt8} (hline : line = field ++ [58, 32])
    (h : 58 ∉ field) (u : List UInt8) :
    begins name.bytes (line ++ u) = true ↔ field.map toLower = name.bytes.map toLower := by
  rw [hline, List.append_assoc]
  exact begins_iff h

/-- A line that starts with another letter does not begin with a name. -/
theorem not_begins_head {c d : UInt8} (hname : name.bytes.head? = some d) (hs : s.head? = some c)
    (h : toLower c ≠ toLower d) : begins name.bytes s = false := by
  obtain ⟨bs, hbs⟩ := List.head?_eq_some_iff.1 hname
  obtain ⟨t, rfl⟩ := List.head?_eq_some_iff.1 hs
  rw [begins, decide_eq_false_iff_not, startsWithNoCase, decide_eq_true_eq, hbs]
  rintro ⟨hmap, -⟩
  rw [List.length_cons, List.take_succ_cons, List.map_cons, List.map_cons] at hmap
  exact h (List.cons.inj hmap).1

/-- A header is looked for line by line: this line has it, or it is behind the line. -/
theorem valueFrom_append (h : Http.IsLine l) :
    valueFrom (l ++ 13 :: 10 :: s) name.bytes =
      if begins name.bytes l then
        some ((l.drop (name.bytes.length + 1)).dropWhile (· = 32) ++ 13 :: 10 :: s)
      else valueFrom s name.bytes := by
  have hfirst : Http.firstLine (l ++ 13 :: 10 :: s) = l := by
    rw [Http.firstLine_return h.newline h.carriage]
    exact if_pos rfl
  rw [valueFrom, Http.fromLines_append h.newline, List.find?_cons, hfirst]
  by_cases hb : begins name.bytes l = true
  · obtain ⟨bs, w, rfl, hlen, -, -⟩ := begins_split name hb
    rw [hb, if_pos rfl, Option.map_some, ← hlen, drop_cut, List.append_assoc, List.cons_append,
      drop_cut, List.dropWhile_append]
    split_ifs with hnil
    · rw [List.isEmpty_iff.1 hnil]
      rfl
    · rfl
  · rw [if_neg hb, Bool.eq_false_of_not_eq_true hb]
    rfl

/-- In a head whose lines end with CR LF, the value is that of the first line
    with the name. -/
theorem cheezyGetVar_headOf (name : HeaderName) (h : ∀ l ∈ ls, Http.IsLine l) (buflen : ℕ) :
    cheezyGetVar (Http.headOf ls) name.bytes buflen =
      (ls.find? (begins name.bytes)).map fun l =>
        ((l.drop (name.bytes.length + 1)).dropWhile (· = 32)).take (buflen - 1) := by
  induction ls with
  | nil =>
    have hnone : valueFrom [13, 10] name.bytes = none := by
      simp [valueFrom, Http.fromLines, Http.afterLines, Http.firstLine, begins]
    rw [cheezyGetVar_eq, Http.headOf, List.flatMap_nil, List.nil_append, hnone]
    rfl
  | cons l ls ih =>
    have hl := h l List.mem_cons_self
    rw [cheezyGetVar_eq, Http.headOf_cons, valueFrom_append hl, List.find?_cons]
    by_cases hb : begins name.bytes l = true
    · have hcr : 13 ∉ (l.drop (name.bytes.length + 1)).dropWhile (· = 32) := fun h =>
        hl.carriage (List.mem_of_mem_drop ((List.dropWhile_sublist _).mem h))
      rw [if_pos hb, hb, Option.bind_some, strchr_append_cons hcr, Option.some_or, Option.map_some,
        Option.map_some, take_min_length]
    · rw [if_neg hb, Bool.eq_false_of_not_eq_true hb, ← cheezyGetVar_eq,
        ih fun l hl => h l (List.mem_cons_of_mem _ hl)]

/-- The value of a header on the line where it is found. -/
theorem cheezyGetVar_line (name : HeaderName) {field : List UInt8} (h : ∀ l ∈ ls, Http.IsLine l)
    (hfind : ls.find? (begins name.bytes) = some (field ++ v))
    (hfield : field = name.bytes ++ [58, 32]) (hv : v.head? ≠ some 32) (buflen : ℕ) :
    cheezyGetVar (Http.headOf ls) name.bytes buflen = some (v.take (buflen - 1)) := by
  have hdrop : ((field ++ v).drop (name.bytes.length + 1)).dropWhile (· = 32) = v := by
    rw [hfield, List.append_assoc, List.cons_append, drop_cut, List.cons_append, List.nil_append,
      List.dropWhile_cons_of_pos (by decide)]
    cases v with
    | nil => rfl
    | cons c v => exact List.dropWhile_cons_of_neg (by simpa using hv)
  rw [cheezyGetVar_headOf name h, hfind, Option.map_some, hdrop]

/-! ## The request -/

namespace Kws

variable {k : Kws}

/-- A text that is a part of one line. -/
structure Inline (s : List UInt8) : Prop where
  nul : 0 ∉ s
  newline : 10 ∉ s
  carriage : 13 ∉ s

instance : DecidablePred Inline := fun _ =>
  decidable_of_iff (_ ∧ _ ∧ _) ⟨fun h => ⟨h.1, h.2.1, h.2.2⟩, fun h => ⟨h.1, h.2, h.3⟩⟩

/-- What a client can be told to ask for. -/
structure Requesting (k : Kws) : Prop where
  target : Inline k.reqUri ∧ 32 ∉ k.reqUri
  host : Inline (k.reqHost.getD [])
  proto : ∀ s ∈ k.reqProto, Inline s ∧ s ≠ [] ∧ s.head? ≠ some 32
  headers : ∀ key value, (some key, some value) ∈ k.params.headers →
    Inline key ∧ Inline value ∧ ¬startsWithNoCase (ascii "Sec-WebSocket-") key

/-- The lines of the headers from `params`. -/
def extraLines (headers : List (Option (List UInt8) × Option (List UInt8))) :
    List (List UInt8) :=
  headers.filterMap fun
    | (some key, some value) => some (key ++ ascii ": " ++ value)
    | _ => none

/-- All lines of the request. -/
def requestLines (k : Kws) : List (List UInt8) :=
  ownLines k.reqUri (k.reqHost.getD []) k.reqProto k.sentKey ++ extraLines k.params.headers

/-- The request is the head of its lines. -/
theorem request_headOf (k : Kws) : k.request = Http.headOf k.requestLines := by
  have hextra (headers : List (Option (List UInt8) × Option (List UInt8))) :
      extraHeaders headers = (extraLines headers).flatMap (· ++ [13, 10]) := by
    induction headers with
    | nil => rfl
    | cons a headers ih =>
      obtain ⟨_ | key, _ | value⟩ := a
      · exact ih
      · exact ih
      · exact ih
      · exact congrArg (key ++ ascii ": " ++ value ++ [13, 10] ++ ·) ih
  rw [request_eq, tail, hextra, requestLines, Http.headOf, List.flatMap_append, List.append_assoc]

/-- A text without line ends, and not empty, is a line. -/
theorem Inline.isLine (h : Inline s ∧ s ≠ []) : Http.IsLine s := ⟨h.2, h.1.newline, h.1.carriage⟩

theorem Inline.append {s t : List UInt8} (hs : Inline s) (ht : Inline t) : Inline (s ++ t) :=
  ⟨fun h => (List.mem_append.1 h).elim hs.nul ht.nul,
    fun h => (List.mem_append.1 h).elim hs.newline ht.newline,
    fun h => (List.mem_append.1 h).elim hs.carriage ht.carriage⟩

theorem lt_of_mem_base64 {c : UInt8} (h : c ∈ base64Encode s) : 32 < c := by
  rw [base64Encode, List.mem_append, List.mem_map, List.mem_replicate] at h
  rcases h with ⟨v, hv, rfl⟩ | ⟨-, rfl⟩
  · have hmem := isSome_base64Val.1 (Option.isSome_iff_exists.2
      ⟨v, base64Val_char (lt_of_mem_sextets hv)⟩)
    have hall : ∀ c ∈ base64Alphabet, 32 < c := by decide +kernel
    exact hall _ hmem
  · decide

/-- What `b64encode` writes is a part of a line, and has no spaces in it. -/
theorem inline_b64encode (s : List UInt8) : Inline (b64encode s) ∧ 32 ∉ b64encode s := by
  rw [b64encode_eq]
  refine ⟨⟨fun h => ?_, fun h => ?_, fun h => ?_⟩, fun h => ?_⟩
  all_goals exact absurd (lt_of_mem_base64 h) (by decide)

theorem length_b64encode (s : List UInt8) : (b64encode s).length = 4 * ((s.length + 2) / 3) := by
  rw [b64encode_eq, length_base64Encode]

/-- The key of 16 bytes takes 24 characters. -/
theorem length_sentKey (k : Kws) : k.sentKey.length = 24 := by
  rw [sentKey, length_b64encode, genNonce, List.length_append, List.length_take,
    List.length_replicate]
  omega

/-- What holds of every line of the request, one by one. -/
theorem forall_ownLines {P : List UInt8 → Prop} {path host key : List UInt8}
    {protocol : Option (List UInt8)} (hget : P (ascii "GET " ++ path ++ ascii " HTTP/1.1"))
    (hhost : P (ascii "Host: " ++ host)) (hupgrade : P (ascii "Upgrade: websocket"))
    (hconnection : P (ascii "Connection: Upgrade")) (hkey : P (ascii "Sec-WebSocket-Key: " ++ key))
    (hversion : P (ascii "Sec-WebSocket-Version: 13"))
    (hproto : ∀ s ∈ protocol, P (ascii "Sec-WebSocket-Protocol: " ++ s)) :
    ∀ l ∈ ownLines path host protocol key, P l := by
  intro l hl
  rw [ownLines, List.mem_append] at hl
  rcases hl with hl | hl
  · simp only [List.mem_cons, List.not_mem_nil, or_false] at hl
    rcases hl with rfl | rfl | rfl | rfl | rfl | rfl
    · exact hget
    · exact hhost
    · exact hupgrade
    · exact hconnection
    · exact hkey
    · exact hversion
  · obtain ⟨s, hs, rfl⟩ := List.mem_map.1 hl
    exact hproto s (Option.mem_toList.1 hs)

/-- The lines of the request are lines, of texts without a NUL. -/
theorem Requesting.lines (h : k.Requesting) :
    ∀ l ∈ k.requestLines, Inline l ∧ l ≠ [] := by
  have hcat {s t : List UInt8} (hs : Inline s ∧ s ≠ []) (ht : Inline t) :
      Inline (s ++ t) ∧ s ++ t ≠ [] :=
    ⟨hs.1.append ht, List.append_ne_nil_of_left_ne_nil hs.2 t⟩
  intro l hl
  rw [requestLines, List.mem_append] at hl
  rcases hl with hl | hl
  · revert l
    refine forall_ownLines ?_ ?_ ?_ ?_ ?_ ?_ fun s hs => ?_
    · exact hcat (hcat (by decide +kernel) h.target.1) (by decide +kernel)
    · exact hcat (by decide +kernel) h.host
    · decide +kernel
    · decide +kernel
    · exact hcat (by decide +kernel) (inline_b64encode _).1
    · decide +kernel
    · exact hcat (by decide +kernel) (h.proto s hs).1
  · obtain ⟨⟨_ | key, _ | value⟩, hmem, heq⟩ := List.mem_filterMap.1 hl
    · cases heq
    · cases heq
    · cases heq
    · obtain rfl := Option.some.inj heq
      obtain ⟨hkey, hvalue, -⟩ := h.headers key value hmem
      refine ⟨(hkey.append (by decide +kernel)).append hvalue, ?_⟩
      simp [ascii]

/-! ## What the server finds in it -/

/-- The header whose value the response answers. -/
def keyName : HeaderName := ⟨ascii "Sec-WebSocket-Key", by decide +kernel, by decide +kernel⟩

/-- A header from `params` is none of those of the handshake. -/
theorem not_begins_extra (name : HeaderName) (h : k.Requesting)
    (hname : ascii "Sec-WebSocket-" <+: name.bytes) :
    ∀ l ∈ extraLines k.params.headers, begins name.bytes l = false := by
  intro l hl
  obtain ⟨⟨_ | key, _ | value⟩, hmem, heq⟩ := List.mem_filterMap.1 hl
  · cases heq
  · cases heq
  · cases heq
  · obtain rfl := Option.some.inj heq
    by_contra hb
    rw [Bool.not_eq_false] at hb
    obtain ⟨-, -, hnot⟩ := h.headers key value hmem
    refine hnot ?_
    have hsep : ascii ": " = [58, 32] := by decide +kernel
    rw [hsep, List.append_assoc, List.cons_append] at hb
    obtain ⟨bs, w, heq, hlen, -, h58⟩ := begins_split name hb
    -- The colon behind the key is not in the name.
    obtain ⟨r, rfl⟩ : bs <+: key := by
      rcases List.append_eq_append_iff.1 heq with ⟨_ | ⟨c, r⟩, hr, hcolon⟩ | ⟨r, hr, -⟩
      · exact ⟨[], by rw [hr, List.append_nil, List.append_nil]⟩
      · obtain ⟨rfl, -⟩ := List.cons.inj hcolon
        exact absurd (by rw [hr]; simp) h58
      · exact ⟨r, hr.symm⟩
    have hmap : bs.map toLower = name.bytes.map toLower := by
      rw [heq] at hb
      exact (begins_iff h58).1 hb
    obtain ⟨rest, hname⟩ := hname
    have htake := congrArg (List.take (ascii "Sec-WebSocket-").length) hmap
    rw [← hname, List.length_append] at hlen
    rw [← hname, List.map_append, List.take_left' (List.length_map _), ← List.map_take] at htake
    rw [startsWithNoCase, decide_eq_true_eq, List.take_append_of_le_length (by omega), htake]

/-- The lines of the client's own that may begin with the name of a header of
    the handshake. -/
theorem find_ownLines {path host key : List UInt8} {protocol : Option (List UInt8)}
    (hname : name.bytes.head? = some 83)
    (hversion : begins name.bytes (ascii "Sec-WebSocket-Version: 13") = false) :
    (ownLines path host protocol key).find? (begins name.bytes) =
      ((ascii "Sec-WebSocket-Key: " ++ key) ::
        protocol.toList.map (ascii "Sec-WebSocket-Protocol: " ++ ·)).find? (begins name.bytes) := by
  have hget : begins name.bytes (ascii "GET " ++ path ++ ascii " HTTP/1.1") = false :=
    not_begins_head hname (c := 71) rfl (by decide)
  have hhost : begins name.bytes (ascii "Host: " ++ host) = false :=
    not_begins_head hname (c := 72) rfl (by decide)
  have hupgrade : begins name.bytes (ascii "Upgrade: websocket") = false :=
    not_begins_head hname (c := 85) rfl (by decide)
  have hconnection : begins name.bytes (ascii "Connection: Upgrade") = false :=
    not_begins_head hname (c := 67) rfl (by decide)
  simp only [ownLines, List.cons_append, List.nil_append, List.find?_cons, hget, hhost, hupgrade,
    hconnection, hversion]

/-- The line of the key begins with a name if and only if this is the name. -/
theorem begins_key (u : List UInt8) :
    begins name.bytes (ascii "Sec-WebSocket-Key: " ++ u) = true ↔
      (ascii "Sec-WebSocket-Key").map toLower = name.bytes.map toLower :=
  begins_field _ (by decide +kernel) (by decide +kernel) u

/-- So does the line of the protocol. -/
theorem begins_protocol (u : List UInt8) :
    begins name.bytes (ascii "Sec-WebSocket-Protocol: " ++ u) = true ↔
      (ascii "Sec-WebSocket-Protocol").map toLower = name.bytes.map toLower :=
  begins_field _ (by decide +kernel) (by decide +kernel) u

/-- The server finds the key that the client has sent. -/
theorem cheezyGetVar_key (h : k.Requesting) :
    cheezyGetVar k.request (ascii "Sec-WebSocket-Key") 256 = some k.sentKey := by
  have hfind := @find_ownLines keyName k.reqUri (k.reqHost.getD []) k.sentKey k.reqProto
    (by decide +kernel) (by decide +kernel)
  rw [List.find?_cons, (@begins_key keyName k.sentKey).2 (by decide +kernel)] at hfind
  have hlen := k.length_sentKey
  have hhead : k.sentKey.head? ≠ some 32 := fun h =>
    (inline_b64encode (k.genNonce 16).1).2 (List.mem_of_head? h)
  rw [request_headOf]
  refine (cheezyGetVar_line keyName (fun l hl => Inline.isLine (h.lines l hl))
    (by rw [requestLines, List.find?_append, hfind, Option.some_or]) (by decide +kernel) hhead
    256).trans ?_
  rw [List.take_of_length_le (by omega)]

/-- The server finds the protocol, of which it keeps 255 bytes. -/
theorem cheezyGetVar_protocol (h : k.Requesting) :
    cheezyGetVar k.request (ascii "Sec-WebSocket-Protocol") 256 =
      k.reqProto.map (List.take 255) := by
  have hextra := not_begins_extra Libks.protocolName h (by decide +kernel)
  have hnone : (extraLines k.params.headers).find? (begins Libks.protocolName.bytes) = none := by
    rw [List.find?_eq_none]
    exact fun l hl => by simp [hextra l hl]
  have hfind := @find_ownLines Libks.protocolName k.reqUri (k.reqHost.getD []) k.sentKey k.reqProto
    (by decide +kernel) (by decide +kernel)
  have hkey : begins Libks.protocolName.bytes (ascii "Sec-WebSocket-Key: " ++ k.sentKey) = false :=
    Bool.eq_false_of_not_eq_true fun h => absurd ((begins_key _).1 h) (by decide +kernel)
  rw [List.find?_cons, hkey] at hfind
  have hlines : ∀ l ∈ k.requestLines, Http.IsLine l := fun l hl => Inline.isLine (h.lines l hl)
  rw [request_headOf]
  cases hproto : k.reqProto with
  | none =>
    rw [hproto] at hfind
    refine (cheezyGetVar_headOf Libks.protocolName hlines 256).trans ?_
    rw [requestLines, List.find?_append, hproto, hfind, hnone]
    rfl
  | some proto =>
    rw [hproto, Option.toList_some, List.map_singleton, List.find?_cons,
      (@begins_protocol Libks.protocolName proto).2 (by decide +kernel)] at hfind
    obtain ⟨-, -, hhead⟩ := h.proto proto hproto
    exact cheezyGetVar_line Libks.protocolName hlines
      (by rw [requestLines, List.find?_append, hproto, hfind, Option.some_or]) (by decide +kernel)
      hhead 256

/-! ## Reading the request -/

variable {k' : Kws} {p q : List UInt8} {fuel : ℕ}

/-- A server that has read the part `p` of a request, with `n + 1` bytes in its
    buffer. -/
structure Reading (k : Kws) (n : ℕ) (p : List UInt8) : Prop where
  unprocessed : k.unprocessedBufferLen = 0
  x : k.x = 0
  datalen : k.datalen = p.length
  buflen : k.buflen = n + 1
  small : n < 2 ^ 31
  read : k.buffer.read 0 p.length = p
  calm : Calm k.world.reads

/-- The server once it has read up to `p`. -/
def hasRead (k : Kws) (m : Mem) (p : List UInt8) (es : List ReadEvent) : Kws :=
  { k with buffer := m, datalen := p.length, x := 0, world := { k.world with reads := es } }

/-- A read gets the next piece, and puts it behind those before it. -/
theorem stringRead_piece (h : k.Reading n p) (hfit : p.length + (wire k.world.reads).length ≤ n)
    (hne : wire k.world.reads ≠ []) :
    ∃ q m es, q ≠ [] ∧ q ++ wire es = wire k.world.reads ∧ Calm es ∧
      m.read 0 (p ++ q).length = p ++ q ∧ m (p ++ q).length = 0 ∧
      k.stringRead (.buffer p.length) (n + 1 - p.length) wsBlock =
        .ok (⟨q.length, q⟩,
          { k with buffer := m, x := 0, world := { k.world with reads := es } }) := by
  have hreads : k.world.reads ≠ [] := fun hnil => hne (by rw [hnil]; rfl)
  have ha := h.calm.avail_ne hreads
  have hpos : 0 < (wire k.world.reads).length := List.length_pos_of_ne_nil hne
  obtain ⟨r, hr⟩ : ∃ r, n + 1 - p.length = r + 1 := ⟨n - p.length, by omega⟩
  have hr0 : 0 < r := by omega
  have hasks : Libks.Asks k.ssl r := asks_of_lt hr0 (by have := h.small; omega)
  have hroom : k.Room (.buffer p.length) (r + 1) :=
    show p.length + (r + 1) ≤ k.buflen by rw [h.buflen]; omega
  have hlen := k.length_take_chunk r
  have hle := k.chunk_le r
  have hq := chunk_pos h.calm.nonEmpty ha hasks
  refine ⟨(avail k.world.reads).take (k.chunk r),
    (k.buffer.write (p.length + r) [0]).write p.length (k.stored (k.chunk r) r),
    after (k.chunk r) k.world.reads, ?_, wire_after (k.chunk_le_avail r), h.calm.after _, ?_, ?_, ?_⟩
  · rw [← List.length_pos_iff, hlen]
    exact hq
  · rw [List.length_append, Mem.read_add, Nat.zero_add, stored, read_write_prefix,
      Mem.read_write_of_disjoint (.inl (by omega)), Mem.read_write_of_disjoint (.inl (by omega)),
      h.read]
  · rw [List.length_append, hlen, stored]
    by_cases hlt : k.chunk r < r
    · rw [if_pos hlt, ← Mem.write_write, hlen, Mem.write_apply_of_mem (Nat.le_refl _) (by simp),
        List.getElem_singleton]
    · rw [if_neg hlt, List.append_nil, Mem.write_apply_of_ge (by rw [hlen]),
        Mem.write_apply_of_mem (by omega) (by simp; omega), List.getElem_singleton]
  · rw [hr, stringRead_eq hr0 hroom, rawRead_data (k := k.put ((Ptr.buffer p.length).add r) [0])
      h.unprocessed (patient_of_x h.x (.inr rfl)) hasks h.calm.nonEmpty ha
      ((room_put _).2 (hroom.mono (Nat.le_succ r))), hlen]
    rfl

theorem cstr_eq (h : 0 ∉ p) : cstr p = p :=
  List.takeWhile_eq_self_iff.2 fun c hc => by simpa using fun h0 : c = 0 => h (h0 ▸ hc)

/-- A head of lines without NUL has none. -/
theorem nul_notMem_headOf (h : ∀ l ∈ ls, Inline l ∧ l ≠ []) : 0 ∉ Http.headOf ls := by
  rw [Http.headOf, List.mem_append, List.mem_flatMap, not_or]
  refine ⟨?_, by decide⟩
  rintro ⟨l, hl, hmem⟩
  rcases List.mem_append.1 hmem with hmem | hmem
  · exact (h l hl).1.nul hmem
  · exact absurd hmem (by decide)

/-- A head has its empty line. -/
theorem blank_headOf (hls : ls ≠ []) : (strstr crlfcrlf (Http.headOf ls)).isSome := by
  by_contra hnone
  rw [Bool.not_eq_true, Option.isSome_eq_false_iff, Option.isNone_iff_eq_none,
    strstr_eq_none_iff (by decide)] at hnone
  refine hnone (List.IsSuffix.isInfix ?_)
  obtain ⟨ls, l, rfl⟩ : ∃ ls' l, ls = ls' ++ [l] := ⟨_, _, (List.dropLast_append_getLast hls).symm⟩
  rw [Http.headOf, List.flatMap_append, List.flatMap_singleton]
  exact ⟨ls.flatMap (· ++ [13, 10]) ++ l, by simp [crlfcrlf]⟩

/-- The end of the request is seen when it has come, and not before. -/
theorem ended_iff_eq (h : ∀ l ∈ ls, Inline l ∧ l ≠ []) (hls : ls ≠ [])
    (hcat : p ++ s = Http.headOf ls) :
    (strstr crlfcrlf p).isSome ∨ (strstr [10, 10] p).isSome ↔ s = [] := by
  have hlines : ∀ l ∈ ls, Http.IsLine l := fun l hl => Inline.isLine (h l hl)
  -- An empty line in the part ends what is in front of the rest of the head.
  have hsuffix {pat : List UInt8} (hne : pat ≠ []) (hsome : (strstr pat p).isSome) :
      ∃ b, pat ++ (b ++ s) <:+ Http.headOf ls := by
    have hinfix : pat <:+: p := by
      by_contra hnot
      rw [(strstr_eq_none_iff hne).2 hnot] at hsome
      exact Bool.false_ne_true hsome
    obtain ⟨a, b, rfl⟩ := hinfix
    exact ⟨b, a, by rw [← hcat]; simp⟩
  constructor
  · rintro (hsome | hsome)
    · obtain ⟨b, hb⟩ := hsuffix (by decide) hsome
      have hnil := (List.append_eq_nil_iff.1 (Http.eq_nil_of_blank_suffix hlines hb)).2
      exact (List.append_eq_nil_iff.1 hnil).2
    · obtain ⟨b, hb⟩ := hsuffix (by decide) hsome
      exact absurd hb (Http.not_newlines_suffix hlines)
  · rintro rfl
    rw [List.append_nil] at hcat
    exact .inl (hcat ▸ blank_headOf hls)

theorem readRequest_step {r : ℤ} {bs : List UInt8} (hd : k.datalen = p.length)
    (hread : k.stringRead (.buffer p.length) (k.buflen - p.length) wsBlock = .ok (⟨r, bs⟩, k'))
    (hr : 0 < r) :
    readRequest (fuel + 1) k =
      let k' := { k' with datalen := k'.datalen + r }
      if (strstr crlfcrlf k'.text).isSome ∨ (strstr [10, 10] k'.text).isSome then .ok (r, k')
      else readRequest fuel k' := by
  rw [readRequest, hd, Int.toNat_natCast, hread]
  exact if_pos hr

/-- The server reads the request, in as many pieces as it comes in, and no
    further. -/
theorem readRequest_pieces (h : k.Reading n p) (hls : ∀ l ∈ ls, Inline l ∧ l ≠ [])
    (hne : ls ≠ []) (hcat : p ++ wire k.world.reads = Http.headOf ls)
    (hmore : wire k.world.reads ≠ []) (hfit : (Http.headOf ls).length ≤ n)
    (hfuel : (wire k.world.reads).length < fuel) :
    ∃ r m es, readRequest fuel k = .ok (r, k.hasRead m (Http.headOf ls) es) ∧ 0 < r ∧ r ≤ n ∧
      m.read 0 (Http.headOf ls).length = Http.headOf ls ∧ m (Http.headOf ls).length = 0 := by
  induction fuel generalizing k p with
  | zero => exact absurd hfuel (Nat.not_lt_zero _)
  | succ fuel ih =>
    have hlen := congrArg List.length hcat
    rw [List.length_append] at hlen
    obtain ⟨q, m, es, hq, hwire, hcalm, hm, h0, hread⟩ := stringRead_piece h (by omega) hmore
    rw [← h.buflen] at hread
    rw [← hwire, ← List.append_assoc] at hcat
    have hqpos := List.length_pos_of_ne_nil hq
    have hwlen := congrArg List.length hwire
    rw [List.length_append] at hwlen
    have hdata : k.datalen + q.length = (p ++ q).length := by
      rw [h.datalen, List.length_append, Nat.cast_add]
    rw [readRequest_step h.datalen hread (by omega)]
    dsimp only
    rw [hdata]
    have hk₁ : ({ k with
        buffer := m
        x := 0
        datalen := ((p ++ q).length : ℕ)
        world := { k.world with reads := es } } : Kws) = k.hasRead m (p ++ q) es := rfl
    rw [hk₁]
    have htext : (k.hasRead m (p ++ q) es).text = p ++ q := by
      have hnul : 0 ∉ p ++ q := fun hmem =>
        nul_notMem_headOf hls (by rw [← hcat]; exact List.mem_append_left _ hmem)
      refine (text_eq hm h0 ?_).trans (cstr_eq hnul)
      have : (k.hasRead m (p ++ q) es).buflen = n + 1 := h.buflen
      rw [this, List.length_append]
      omega
    rw [htext]
    by_cases hend : wire es = []
    · rw [if_pos ((ended_iff_eq hls hne hcat).2 hend)]
      rw [hend, List.append_nil] at hcat
      rw [hcat] at hm h0 ⊢
      exact ⟨_, m, es, rfl, by omega, by omega, hm, h0⟩
    · rw [if_neg fun h => hend ((ended_iff_eq hls hne hcat).1 h)]
      obtain ⟨r, m', es', hrun, hr0, hrn, hm', h0'⟩ := ih (k := k.hasRead m (p ++ q) es) (p := p ++ q)
        ⟨h.unprocessed, rfl, rfl, h.buflen, h.small, hm, hcalm⟩ hcat hend
        (show (wire es).length < fuel by omega)
      exact ⟨r, m', es', hrun, hr0, hrn, hm', h0'⟩

/-! ## The response -/

/-- The lines of the response. -/
def responseLines (accept proto : List UInt8) : List (List UInt8) :=
  [ascii "HTTP/1.1 101 Switching Protocols", ascii "Upgrade: websocket",
    ascii "Connection: Upgrade", ascii "Sec-WebSocket-Accept: " ++ accept] ++
  if proto = [] then [] else [ascii "Sec-WebSocket-Protocol: " ++ proto]

/-- The digest of 20 bytes takes 28 characters. -/
theorem length_acceptFor (sha1 : List UInt8 → Fin 20 → UInt8) (size : ℕ) (key : List UInt8) :
    (acceptFor sha1 size key).length = 28 := by
  rw [acceptFor, length_b64encode, List.length_ofFn]

/-- The response is not cut. -/
theorem serverResponse_headOf (k : Kws) (key : List UInt8) {proto : List UInt8}
    (h : proto.length ≤ 255) :
    k.serverResponse key proto =
        Http.headOf (responseLines (acceptFor k.world.sha1 512 key) proto) ∧
      (k.serverResponse key proto).length < 512 := by
  have haccept := length_acceptFor k.world.sha1 512 key
  generalize haccept' : acceptFor k.world.sha1 512 key = accept at haccept
  have hcrlf : ascii "\r\n" = [13, 10] := by decide +kernel
  have hstatus : ascii "HTTP/1.1 101 Switching Protocols\r\n" =
      ascii "HTTP/1.1 101 Switching Protocols" ++ [13, 10] := by
    decide +kernel
  have hupgrade : ascii "Upgrade: websocket\r\n" = ascii "Upgrade: websocket" ++ [13, 10] := by
    decide +kernel
  have hconn : ascii "Connection: Upgrade\r\n" = ascii "Connection: Upgrade" ++ [13, 10] := by
    decide +kernel
  have hfull : ascii "HTTP/1.1 101 Switching Protocols\r\n" ++ ascii "Upgrade: websocket\r\n" ++
      ascii "Connection: Upgrade\r\n" ++ ascii "Sec-WebSocket-Accept: " ++ accept ++ ascii "\r\n" ++
      (if proto = [] then [] else ascii "Sec-WebSocket-Protocol: " ++ proto ++ ascii "\r\n") ++
      ascii "\r\n" = Http.headOf (responseLines accept proto) := by
    rw [hcrlf, hstatus, hupgrade, hconn, responseLines, Http.headOf]
    split_ifs
    · simp only [List.append_assoc, List.flatMap_cons, List.flatMap_nil, List.cons_append,
        List.nil_append, List.append_nil]
    · simp only [List.append_assoc, List.flatMap_cons, List.flatMap_nil, List.cons_append,
        List.nil_append]
  -- The texts take 121 bytes, the digest 28, the protocol 255, and the other line ends 6.
  have hlen : (Http.headOf (responseLines accept proto)).length ≤ 410 := by
    have h₁ : (ascii "HTTP/1.1 101 Switching Protocols\r\n").length = 34 := by decide +kernel
    have h₂ : (ascii "Upgrade: websocket\r\n").length = 20 := by decide +kernel
    have h₃ : (ascii "Connection: Upgrade\r\n").length = 21 := by decide +kernel
    have h₄ : (ascii "Sec-WebSocket-Accept: ").length = 22 := by decide +kernel
    have h₅ : (ascii "Sec-WebSocket-Protocol: ").length = 24 := by decide +kernel
    rw [← hfull, hcrlf]
    simp only [List.length_append, h₁, h₂, h₃, h₄, haccept, List.length_cons, List.length_nil]
    split_ifs
    · simp
    · simp only [List.length_append, h₅, List.length_cons, List.length_nil]
      omega
  -- The line of the protocol fits the 384 bytes of its array.
  have hbuf : (if proto = [] then []
      else (ascii "Sec-WebSocket-Protocol: " ++ proto ++ ascii "\r\n").take 383) =
      if proto = [] then [] else ascii "Sec-WebSocket-Protocol: " ++ proto ++ ascii "\r\n" := by
    have h₅ : (ascii "Sec-WebSocket-Protocol: ").length = 24 := by decide +kernel
    split_ifs
    · rfl
    · refine List.take_of_length_le ?_
      rw [hcrlf]
      simp only [List.length_append, h₅, List.length_cons, List.length_nil]
      omega
  rw [serverResponse]
  rw [hbuf, haccept', hfull, List.take_of_length_le (by omega)]
  exact ⟨rfl, by omega⟩

/-- The lines of the answer are lines. -/
theorem responseLines_inline {accept proto : List UInt8} (haccept : Inline accept)
    (hproto : Inline proto) : ∀ l ∈ responseLines accept proto, Inline l ∧ l ≠ [] := by
  have hcat {s t : List UInt8} (hs : Inline s ∧ s ≠ []) (ht : Inline t) :
      Inline (s ++ t) ∧ s ++ t ≠ [] :=
    ⟨hs.1.append ht, List.append_ne_nil_of_left_ne_nil hs.2 t⟩
  intro l hl
  rw [responseLines, List.mem_append] at hl
  rcases hl with hl | hl
  · simp only [List.mem_cons, List.not_mem_nil, or_false] at hl
    rcases hl with rfl | rfl | rfl | rfl
    · decide +kernel
    · decide +kernel
    · decide +kernel
    · exact hcat (by decide +kernel) haccept
  · split_ifs at hl
    · exact absurd hl List.not_mem_nil
    · obtain rfl := List.mem_singleton.1 hl
      exact hcat (by decide +kernel) hproto

/-- A write that tells of all its bytes has sent them. -/
theorem rawWrite_all {data : List UInt8} (h : (k.rawWrite data).1 = data.length) :
    (k.rawWrite data).2.world.sent = k.world.sent ++ data := by
  have hr := @rawWrite_r data k (by omega)
  rw [rawWrite_sent, List.take_of_length_le (by omega)]

/-- The server answers a request that it has read. -/
theorem answerRequest_request (h : k.Requesting) {server : Kws} (htext : server.text = k.request)
    (bytes : ℤ) :
    let respond := server.serverResponse k.sentKey ((k.reqProto.map (List.take 255)).getD [])
    (server.rawWrite respond).1 = respond.length →
      ∃ server', server.answerRequest bytes = (0, server') ∧ server'.uri = some k.reqUri ∧
        server'.handshake = true ∧ server'.world.sent = server.world.sent ++ respond := by
  intro respond hwrite
  have hsplit : ∃ u, k.request = ascii "GET " ++ (k.reqUri ++ 32 :: u) :=
    ⟨_, by rw [request, clientRequest]; simp only [List.append_assoc]; rfl⟩
  obtain ⟨u, hu⟩ := hsplit
  have hget : startsWithNoCase (ascii "GET ") server.text = true := by
    rw [htext, hu, startsWithNoCase, decide_eq_true_eq, List.take_left]
  have hdrop : server.text.drop 4 = k.reqUri ++ 32 :: u := by
    rw [htext, hu]
    exact List.drop_left' (by decide +kernel)
  have hkey : k.sentKey ≠ [] := by
    rw [← List.length_pos_iff, length_sentKey]
    decide
  rw [answerRequest, if_neg (not_not_intro hget)]
  dsimp only
  rw [hdrop, strchr_append_cons h.target.2]
  dsimp only
  have htext₁ : ({ server with
      uri := some ((k.reqUri ++ 32 :: u).take k.reqUri.length) } : Kws).text = k.request := htext
  rw [htext₁, cheezyGetVar_key h, cheezyGetVar_protocol h, Option.getD_some, if_neg hkey]
  refine ⟨_, if_neg (not_not_intro hwrite), ?_, rfl, rawWrite_all hwrite⟩
  exact congrArg some List.take_left

/-! ## Agreement -/

/-- The protocol of a client, as the server repeats it. -/
def echo (client : Kws) : List UInt8 := (client.reqProto.map (List.take 255)).getD []

/-- The answer of a server to a client. -/
def answer (server client : Kws) : List UInt8 := server.serverResponse client.sentKey client.echo

/-- What is written, and what comes of it, is up to the world. -/
theorem answer_congr {server server' client : Kws} (hssl : server'.ssl = server.ssl)
    (hworld : server'.world.writes = server.world.writes)
    (hsha : server'.world.sha1 = server.world.sha1) :
    server'.answer client = server.answer client ∧
      (server'.rawWrite (server.answer client)).1 = (server.rawWrite (server.answer client)).1 := by
  constructor
  · rw [answer, answer, serverResponse, serverResponse, hsha]
  · rw [rawWrite, rawWrite, hssl, hworld]

/-- The server accepts the request of a client, and answers it. -/
theorem wsServerHandshake_request {client server : Kws} (hreq : client.Requesting)
    (h : server.Fresh n) (hsock : server.sock = true) (hcalm : Calm server.world.reads)
    (hreads : wire server.world.reads = client.request) (hfit : client.request.length ≤ n)
    (hwrite : (server.rawWrite (server.answer client)).1 = (server.answer client).length) :
    ∃ server', server.wsServerHandshake = .ok (0, server') ∧ server'.uri = some client.reqUri ∧
      server'.handshake = true ∧
      server'.world.sent = server.world.sent ++ server.answer client := by
  have hlines := request_headOf client
  have hne : client.requestLines ≠ [] := by
    rw [requestLines, ownLines]
    exact List.cons_ne_nil _ _
  have hpos : wire server.world.reads ≠ [] := by
    rw [hreads, hlines, Http.headOf]
    exact List.append_ne_nil_of_right_ne_nil _ (by decide)
  have hfuel : (wire server.world.reads).length < server.inputSize := by
    have := length_wire_le server.world.reads
    rw [inputSize]
    omega
  -- The request is read whole, whatever pieces it comes in.
  obtain ⟨r, m, es, hrun, hr0, hrn, hm, h0⟩ := readRequest_pieces (p := [])
    ⟨h.unprocessed, h.x, h.datalen, h.buflen, h.small, rfl, hcalm⟩ hreq.lines hne
    (hreads.trans hlines) hpos (hlines ▸ hfit) hfuel
  rw [← hlines] at hrun hm h0
  generalize hk : server.hasRead m client.request es = k at hrun
  have hbuflen : k.buflen = n + 1 := by
    rw [← hk]
    exact h.buflen
  have hdatalen : k.datalen.toNat = client.request.length := by
    rw [← hk]
    exact Int.toNat_natCast _
  have hroom : k.Room (.buffer k.datalen.toNat) 1 := by
    rw [Room, hbuflen, hdatalen]
    omega
  -- With the NUL behind it, the buffer holds the request as a string.
  have htext : (k.put (.buffer k.datalen.toNat) [0]).text = client.request := by
    have hnul : 0 ∉ client.request := hlines ▸ nul_notMem_headOf hreq.lines
    have hbuffer : k.buffer = m := by
      rw [← hk]
      rfl
    have hstored : (k.put (.buffer k.datalen.toNat) [0]).text =
        (k.buffer.write k.datalen.toNat [0]).strAt k.buflen 0 := rfl
    rw [hstored, hbuffer, hdatalen, hbuflen]
    refine (text_eq ?_ ?_ (by omega)).trans (cstr_eq hnul)
    · rw [Mem.read_write_of_disjoint (.inl (by omega))]
      exact hm
    · rw [Mem.write_apply_of_mem (Nat.le_refl _) (by simp), List.getElem_singleton]
  obtain ⟨hsame, hwrote⟩ := @answer_congr server (k.put (.buffer k.datalen.toNat) [0]) client
    (by rw [ssl_put, ← hk]; rfl) (by rw [world_put, ← hk]; rfl) (by rw [world_put, ← hk]; rfl)
  obtain ⟨server', hanswer, huri, hshake, hsent⟩ := answerRequest_request hreq htext r (by
    rw [← echo, ← answer, hsame, hwrote, hwrite])
  rw [← echo, ← answer, hsame] at hsent
  refine ⟨server', ?_, huri, hshake, ?_⟩
  · rw [wsServerHandshake, if_neg (not_not_intro hsock), hrun]
    simp only [bind, Except.bind]
    rw [if_neg (by omega), store_of_room hroom]
    exact congrArg Except.ok hanswer
  · rw [hsent, world_put, ← hk]
    rfl

/-- The header whose value the client compares. -/
def acceptField : HeaderName := ⟨acceptName, by decide +kernel, by decide +kernel⟩

/-- Both buffers have the room for the key and the GUID. -/
theorem acceptFor_eq (sha1 : List UInt8 → Fin 20 → UInt8) {key : List UInt8}
    (h : key.length = 24) : acceptFor sha1 256 key = acceptFor sha1 512 key := by
  have hguid : websocketGuid.length = 36 := by decide +kernel
  rw [acceptFor, acceptFor, List.take_of_length_le (by rw [List.length_append]; omega),
    List.take_of_length_le (by rw [List.length_append]; omega)]

/-- The protocol sent back is a line, as it is part of one. -/
theorem inline_echo {client : Kws} (h : client.Requesting) : Inline client.echo := by
  rw [echo]
  cases hproto : client.reqProto with
  | none => decide
  | some s =>
    obtain ⟨hs, -, -⟩ := h.proto s hproto
    exact ⟨fun h => hs.nul (List.mem_of_mem_take h), fun h => hs.newline (List.mem_of_mem_take h),
      fun h => hs.carriage (List.mem_of_mem_take h)⟩

/-- The answer is the head of its lines, and fits the array `respond`. -/
theorem answer_headOf (server : Kws) (client : Kws) :
    server.answer client = Http.headOf
        (responseLines (acceptFor server.world.sha1 512 client.sentKey) client.echo) ∧
      (server.answer client).length < 512 := by
  refine serverResponse_headOf server client.sentKey ?_
  rw [echo]
  cases client.reqProto with
  | none => exact Nat.zero_le _
  | some s => exact (List.length_take_le 255 s)

theorem answerLines_inline {client : Kws} (h : client.Requesting) (server : Kws) :
    ∀ l ∈ responseLines (acceptFor server.world.sha1 512 client.sentKey) client.echo,
      Inline l ∧ l ≠ [] :=
  responseLines_inline (inline_b64encode _).1 (inline_echo h)

/-- The client accepts the answer to its request. -/
theorem accepts_answer {client server : Kws} (hreq : client.Requesting)
    (hsha : server.world.sha1 = client.world.sha1) : client.Accepts (server.answer client) := by
  have hinline := answerLines_inline hreq server
  have haccept := length_acceptFor server.world.sha1 512 client.sentKey
  have hspace : 32 ∉ acceptFor server.world.sha1 512 client.sentKey := (inline_b64encode _).2
  have hverify := acceptFor_eq server.world.sha1 client.length_sentKey
  rw [Accepts, (answer_headOf server client).1, cstr_eq (nul_notMem_headOf hinline), verifyAccept,
    ← hsha, hverify]
  generalize acceptFor server.world.sha1 512 client.sentKey = accept at *
  have hfind : (responseLines accept client.echo).find? (begins acceptField.bytes) =
      some (ascii "Sec-WebSocket-Accept: " ++ accept) := by
    have hstatus : begins acceptField.bytes (ascii "HTTP/1.1 101 Switching Protocols") = false := by
      decide +kernel
    have hupgrade : begins acceptField.bytes (ascii "Upgrade: websocket") = false := by
      decide +kernel
    have hconn : begins acceptField.bytes (ascii "Connection: Upgrade") = false := by
      decide +kernel
    have haccept : begins acceptField.bytes (ascii "Sec-WebSocket-Accept: " ++ accept) = true :=
      (begins_field (ascii "Sec-WebSocket-Accept") (by decide +kernel) (by decide +kernel)
        accept).2 (by decide +kernel)
    simp only [responseLines, List.cons_append, List.find?_cons, hstatus, hupgrade, hconn, haccept]
  have hget := cheezyGetVar_line acceptField (fun l hl => Inline.isLine (hinline l hl)) hfind
    (by decide +kernel) (fun h => hspace (List.mem_of_mem_head? h)) 128
  have hvalue : cheezyGetVar (Http.headOf (responseLines accept client.echo)) acceptName 128 =
      some accept := by
    refine hget.trans ?_
    rw [List.take_of_length_le (by omega)]
  rw [hvalue, Option.getD_some, decide_eq_true_eq]
  exact ⟨List.ne_nil_of_length_pos (by omega), rfl⟩

/-- A client that is delivered the answer of a server whole, and anything behind
    it, succeeds. -/
theorem wsClientHandshake_answer {client server : Kws} (hreq : client.Requesting)
    (h : client.Fresh n) (hn : 512 ≤ n) (hsha : server.world.sha1 = client.world.sha1)
    {es : List ReadEvent} (hes : Calm es) :
    ∃ client', wsClientHandshake { client with
      world := { client.world with reads := .data (server.answer client) :: es } } =
        .ok (0, client') := by
  obtain ⟨hhead, hlen⟩ := answer_headOf server client
  have haccepts := accepts_answer hreq hsha
  have hinline := answerLines_inline hreq server
  have hblank : Blank (server.answer client) := by
    rw [Blank, hhead, cstr_eq (nul_notMem_headOf hinline)]
    exact blank_headOf (List.cons_ne_nil _ _)
  have hne : server.answer client ≠ [] := by
    rw [hhead, Http.headOf]
    exact List.append_ne_nil_of_right_ne_nil _ (by decide)
  generalize server.answer client = p at hlen haccepts hblank hne ⊢
  obtain ⟨ps, hps⟩ := hes.exists_reads h.pos
  have hcalm : Calm (.data p :: es) := by
    intro e he
    rcases List.mem_cons.1 he with rfl | he
    · exact ⟨p, hne, rfl⟩
    · exact hes e he
  obtain ⟨r, client', hrun, hor⟩ := wsClientHandshake_reads (k := { client with
    world := { client.world with reads := .data p :: es } })
    ⟨h.unprocessed, h.x, h.datalen, h.buflen, h.pos, h.small⟩ hcalm
    (hps.cons hes.nonEmpty hne (by omega))
  rcases hor with ⟨-, hall⟩ | ⟨as, q, bs, i, heq, has, hq, -, hiff, -⟩
  · exact absurd hblank (hall p List.mem_cons_self)
  · -- The first read with a blank line is that of the answer.
    have hsplit : [] ++ p :: ps = as ++ q :: bs := heq
    obtain ⟨-, rfl, -⟩ := first_unique hsplit (fun _ h => absurd h List.not_mem_nil) has hblank hq
    obtain rfl := hiff.2 haccepts
    exact ⟨client', hrun⟩

/-- The answer has a line for the protocol if the client has one, with the
    first 255 bytes of it. -/
theorem fieldLines_answer {client : Kws} (hreq : client.Requesting) (server : Kws) :
    fieldLines protocolName (server.answer client) =
      client.reqProto.toList.map fun s => ascii "Sec-WebSocket-Protocol: " ++ s.take 255 := by
  have hinline := answerLines_inline hreq server
  rw [fieldLines, (answer_headOf server client).1,
    Http.lines_headOf fun l hl => (hinline l hl).1.newline]
  generalize acceptFor server.world.sha1 512 client.sentKey = accept
  have hupgrade : ¬IsField protocolName (ascii "Upgrade: websocket") := by decide +kernel
  have hconn : ¬IsField protocolName (ascii "Connection: Upgrade") := by decide +kernel
  have hend : ¬IsField protocolName [] := by decide +kernel
  have haccept : ¬IsField protocolName (ascii "Sec-WebSocket-Accept: " ++ accept) := by
    rw [isField_iff (n := ascii "Sec-WebSocket-Accept") (by decide +kernel) (by decide +kernel)]
    decide +kernel
  have hproto (s : List UInt8) : IsField protocolName (ascii "Sec-WebSocket-Protocol: " ++ s) :=
    (isField_protocol _ s).2 rfl
  cases hp : client.reqProto with
  | none =>
    rw [echo, hp, responseLines, Option.map_none, Option.getD_none, if_pos rfl]
    simp [hupgrade, hconn, hend, haccept]
  | some s =>
    obtain ⟨-, hne, -⟩ := hreq.proto s hp
    have htake : s.take 255 ≠ [] := by simpa using hne
    rw [echo, hp, responseLines, Option.map_some, Option.getD_some, if_neg htake]
    simp [hupgrade, hconn, hend, haccept, hproto]

/-- Both ends of the handshake agree: the server accepts the request of the
    client, in whatever pieces it comes, knows its target, and answers its
    protocol, and the client accepts the answer. -/
theorem handshakes_agree {client server : Kws} (hreq : client.Requesting)
    (hclient : client.Fresh 65535) (hserver : server.Fresh 65535) (hsock : server.sock = true)
    (hsha : server.world.sha1 = client.world.sha1) (hcalm : Calm server.world.reads)
    (hreads : wire server.world.reads = client.request)
    (hfit : client.request.length ≤ 65535)
    (hwrite : ∀ data, data ≠ [] → data.length < 512 → (server.rawWrite data).1 = data.length) :
    ∃ server' response, server.wsServerHandshake = .ok (0, server') ∧
      server'.handshake = true ∧ server'.uri = some client.reqUri ∧
      server'.world.sent = server.world.sent ++ response ∧
      (fieldLines protocolName response =
        client.reqProto.toList.map fun s => ascii "Sec-WebSocket-Protocol: " ++ s.take 255) ∧
      ∀ es, Calm es → ∃ client', wsClientHandshake { client with
        world := { client.world with reads := .data response :: es } } = .ok (0, client') := by
  obtain ⟨hhead, hlen⟩ := answer_headOf server client
  have hne : server.answer client ≠ [] := by
    rw [hhead, Http.headOf]
    exact List.append_ne_nil_of_right_ne_nil _ (by decide)
  obtain ⟨server', hrun, huri, hshake, hsent⟩ := wsServerHandshake_request hreq hserver hsock hcalm
    hreads hfit (hwrite _ hne hlen)
  exact ⟨server', server.answer client, hrun, hshake, huri, hsent, fieldLines_answer hreq server,
    fun es hes => wsClientHandshake_answer hreq hclient (by decide) hsha hes⟩

/-- A client with a protocol and a header, and a server that gets the request
    in two pieces. -/
theorem handshakes_agree_pieces :
    let client : Kws := {
      reqUri := ascii "/chat", reqHost := some (ascii "example.com")
      reqProto := some (ascii "v1"), world := { random := List.replicate 16 7 }
      params := { headers := [(some (ascii "X-Id"), some (ascii "7"))] } }
    let server : Kws := {
      type := .server
      world := {
        reads := [.data (client.request.take 20), .data (client.request.drop 20)]
        writes := [.accept 512] } }
    ∃ server' response, server.wsServerHandshake = .ok (0, server') ∧
      server'.handshake = true ∧ server'.uri = some client.reqUri ∧
      server'.world.sent = server.world.sent ++ response ∧
      (fieldLines protocolName response =
        client.reqProto.toList.map fun s => ascii "Sec-WebSocket-Protocol: " ++ s.take 255) ∧
      ∀ es, Calm es → ∃ client', wsClientHandshake { client with
        world := { client.world with reads := .data response :: es } } = .ok (0, client') := by
  intro client server
  have hlen : client.request.length < 300 ∧ 20 < client.request.length := by decide +kernel
  refine @handshakes_agree client server ⟨?_, ?_, ?_, ?_⟩
    ⟨rfl, rfl, rfl, rfl, by decide, by decide⟩ ⟨rfl, rfl, rfl, rfl, by decide, by decide⟩ rfl rfl
    ?_ ?_ (by omega) ?_
  · decide +kernel
  · decide +kernel
  · rintro s ⟨⟩
    decide +kernel
  · intro key value h
    obtain ⟨hkey, hvalue⟩ := Prod.ext_iff.1 (List.mem_singleton.1 h)
    obtain rfl := Option.some.inj hkey
    obtain rfl := Option.some.inj hvalue
    decide +kernel
  · have htake : client.request.take 20 ≠ [] := by
      rw [← List.length_pos_iff, List.length_take]
      omega
    have hdrop : client.request.drop 20 ≠ [] := by
      rw [← List.length_pos_iff, List.length_drop]
      omega
    intro e he
    simp only [server, List.mem_cons, List.not_mem_nil, or_false] at he
    rcases he with rfl | rfl
    · exact ⟨_, htake, rfl⟩
    · exact ⟨_, hdrop, rfl⟩
  · show client.request.take 20 ++ (client.request.drop 20 ++ []) = client.request
    rw [List.append_nil, List.take_append_drop]
  · intro data hne hlt
    have hpos := List.length_pos_of_ne_nil hne
    refine @sendLoop_whole data 200 0 [] server.world.writes hpos ?_
    have hsize : requestSize data.length = data.length := requestSize_of_lt (by omega)
    simp only [server, takes, Nat.sub_zero, hsize]
    simp
    omega

end Kws

end Libks
