import Libks.Kws.RequestLine
import Libks.Kws.Keepalive

/-!
# What is behind the head

`kws_parse_header` moves the bytes behind a head to the start of the receive
buffer, for the reads that follow it. A read that loses none of the bytes still
to come in (`BodyRead.Keeps`) delivers the next of them, and so does a run of
such reads (`runReads_incoming`); with a head that has header lines, these are
the bytes behind it (`parseHeader_delivers`).

A read of the receive buffer stores its last terminator before it reads, and so
over bytes that are still left over there (`EndsClear`); a read that has
waited too long drops what it gets (`Prompt`); and nothing is moved behind a
request line alone.
-/

namespace Libks

open Base

namespace Kws

variable {k k' : Kws} {q : Ptr} {n : ℕ} {b : ℤ}

/-! ## Reads in time -/

/-- How often a read has to wait for the next bytes of the transport, if it gets
    any. -/
def waits : List ReadEvent → Option ℕ
  | .data bs :: _ => if bs = [] then none else some 0
  | .failed err :: es => if err.isWant then (waits es).map (· + 1) else none
  | _ => none

/-- A read of the transport that lasts until the next bytes come is not too late
    for them: the waits of all reads since the last one with a result count. -/
def Prompt (k : Kws) (n : ℕ) (b : ℤ) : Prop :=
  k.unprocessedBufferLen = 0 → Libks.Asks k.ssl n → ∀ j, waits k.world.reads = some j →
    (j = 0 ∨ b ≠ 0 ∧ (k.x + 1 + j : ℤ) < b.tdiv 10) →
    k.x + 1 + j < 10000 ∧ (b ≠ 0 → (k.x + 1 + j : ℤ) < b.tdiv 10)

instance : Decidable (k.Prompt n b) :=
  inferInstanceAs (Decidable (_ → _ → ∀ j ∈ waits k.world.reads, _))

/-- A read that gets bytes has waited for them. -/
theorem receive_waits {ssl : Bool} {x : ℕ} {io : Bool} {es : List ReadEvent}
    (h : (receive ssl n b x io es).bytes ≠ []) :
    ∃ j, waits es = some j ∧ (receive ssl n b x io es).x = x + j ∧
      (j = 0 ∨ b ≠ 0 ∧ (x + j : ℤ) < b.tdiv 10) := by
  induction es generalizing x with
  | nil => exact absurd rfl h
  | cons e es ih =>
    cases e with
    | data bs =>
      have hbs : bs ≠ [] := by
        rintro rfl
        exact h List.take_nil
      exact ⟨0, if_neg hbs, rfl, .inl rfl⟩
    | closed err => exact absurd rfl h
    | failed err =>
      rw [receive] at h ⊢
      split_ifs at h ⊢ with hwant hb hx
      · exact absurd rfl h
      · obtain ⟨j, hj, hxj, hlt⟩ := ih h
        refine ⟨j + 1, ?_, by rw [hxj]; omega, .inr ⟨hb, ?_⟩⟩
        · rw [waits, if_pos hwant, hj]
          rfl
        · rcases hlt with rfl | ⟨-, hlt⟩
          · exact hx
          · push_cast at hlt ⊢
            omega
      · exact absurd rfl h
      all_goals exact absurd rfl h

/-- What a read in time gets, it returns. -/
theorem Prompt.bytes_readOf (h : k.Prompt n b) (hu : k.unprocessedBufferLen = 0) :
    (readOf (k.transportRead n b) b).bytes = (k.transportRead n b).bytes := by
  obtain ⟨-, -, hr⟩ := k.transportRead_spec n b
  rcases hr with ⟨hpos, -⟩ | ⟨hnone, hnil⟩
  · have hlate : ¬Late (k.transportRead n b) b := by
      rw [transportRead] at hpos ⊢
      split_ifs at hpos ⊢ with hrefused hsize
      · exact absurd hpos (by simp)
      · exact absurd hpos (lt_irrefl 0)
      obtain ⟨-, -, hr⟩ := receive_spec k.ssl (requestSize n) b (k.x + 1) k.sslIoError k.world.reads
      have hbytes : (receive k.ssl (requestSize n) b (k.x + 1) k.sslIoError k.world.reads).bytes ≠
          [] := by
        intro hnil
        rw [hnil, List.length_nil] at hr
        omega
      obtain ⟨j, hj, hx, hlt⟩ := receive_waits hbytes
      obtain ⟨h₁, h₂⟩ := h hu ⟨hrefused, Nat.pos_of_ne_zero hsize⟩ j hj (by exact_mod_cast hlt)
      rintro (h' | ⟨hb, h'⟩)
      · omega
      · have := h₂ hb
        omega
    rw [readOf, if_neg hlate]
    exact if_pos hpos
  · rw [readOf, hnil]
    exact ite_self _

theorem toNat_readOf (k : Kws) (n : ℕ) (b : ℤ) :
    (readOf (k.transportRead n b) b).ret.toNat = (readOf (k.transportRead n b) b).bytes.length := by
  obtain ⟨-, -, hr⟩ := k.transportRead_spec n b
  rw [readOf]
  by_cases hlate : Late (k.transportRead n b) b
  · rw [if_pos hlate]
    rfl
  · rw [if_neg hlate]
    by_cases hpos : 0 < (k.transportRead n b).r
    · rw [if_pos hpos]
      change (k.transportRead n b).r.toNat = (k.transportRead n b).bytes.length
      omega
    · rw [if_neg hpos]
      exact Int.toNat_of_nonpos (not_lt.1 hpos)

/-! ## One read -/

/-- A read in time, into memory that is not in the way of the bytes left over,
    delivers the next of those to come in. -/
theorem rawRead_incoming (hroom : k.Room q n) (htime : k.Prompt n b)
    (hq : ∀ off, q = .buffer off → off ≤ k.unprocessedPosition ∨ k.unprocessedBufferLen = 0) :
    ∃ read k', k.rawRead q n b = .ok (read, k') ∧ read.bytes ++ k'.incoming = k.incoming ∧
      ∀ off, q = .buffer off → k'.buffer.read off read.ret.toNat = read.bytes := by
  by_cases hu : 0 < k.unprocessedBufferLen
  · obtain ⟨c, up, ul, -, hc, hul, -, hup, hread⟩ := rawRead_leftover hu hroom b
    have hlen : (k.unprocessed.take c).length = c := by
      rw [List.length_take, unprocessed, Mem.length_read, Nat.min_eq_left hc]
    refine ⟨_, _, hread, ?_, ?_⟩
    · rw [incoming_leftover hc hul hup fun off h => (hq off h).resolve_right hu.ne']
      have hle : c ≤ k.unprocessed.length := by rwa [unprocessed, Mem.length_read]
      have htake : k.unprocessed.take c = k.incoming.take c :=
        (List.take_append_of_le_length hle).symm
      rw [htake, List.take_append_drop]
    · rintro off rfl
      have h := Mem.read_write_self k.buffer off (k.unprocessed.take c)
      rwa [hlen] at h
  · have hu := Nat.eq_zero_of_not_pos hu
    obtain ⟨hwire, -, hr⟩ := k.transportRead_spec n b
    obtain ⟨tail, x, hread⟩ := rawRead_eq hu hroom b
    refine ⟨_, _, hread, ?_, ?_⟩
    · rw [htime.bytes_readOf hu, incoming_filled hu, hwire, incoming_of_empty hu]
    · rintro off rfl
      rw [toNat_readOf, htime.bytes_readOf hu]
      exact read_write_prefix _ _ _ _

/-- The same for a string read, which stores a terminator first. -/
theorem stringRead_incoming {size : ℕ} (hroom : k.Room q size) (htime : k.Prompt (size - 1) b)
    (hq : ∀ off, q = .buffer off → k.unprocessedBufferLen = 0 ∨ off ≤ k.unprocessedPosition ∧
      (off + size ≤ k.unprocessedPosition ∨
        k.unprocessedPosition + k.unprocessedBufferLen < off + size)) :
    ∃ read k', k.stringRead q size b = .ok (read, k') ∧ read.bytes ++ k'.incoming = k.incoming ∧
      ∀ off, q = .buffer off → k'.buffer.read off read.ret.toNat = read.bytes := by
  by_cases hsize : size < 1
  · refine ⟨_, _, if_pos hsize, rfl, fun off _ => rfl⟩
  obtain ⟨n, rfl⟩ : ∃ n, size = n + 1 := ⟨size - 1, by omega⟩
  have hin : (k.put (q.add n) [0]).incoming = k.incoming := by
    rw [incoming, incoming, world_put]
    refine congrArg (· ++ _) ?_
    cases q with
    | buffer off =>
      rcases hq off rfl with hu | ⟨-, hq⟩
      · rw [unprocessed, unprocessed, hu]
        have hu' : (k.put ((Ptr.buffer off).add n) [0]).unprocessedBufferLen = 0 := hu
        rw [hu']
        rfl
      · refine Mem.read_write_of_disjoint ?_
        change k.unprocessedPosition + k.unprocessedBufferLen ≤ off + n ∨
          off + n + 1 ≤ k.unprocessedPosition
        omega
    | bbuffer off => rfl
    | caller => rfl
  have hsame := (wrote_put_add k q n [0]).same
  have hpos : (k.put (q.add n) [0]).unprocessedPosition = k.unprocessedPosition := by
    cases q <;> rfl
  by_cases hn : n = 0
  · subst hn
    have hstore : k.store (q.add 0) [0] = .ok (k.put (q.add 0) [0]) :=
      store_of_room (Room.add hroom)
    refine ⟨⟨0, []⟩, k.put (q.add 0) [0], ?_, hin, fun off _ => rfl⟩
    rw [stringRead, if_neg hsize, hstore]
    rfl
  · rw [stringRead_eq (Nat.pos_of_ne_zero hn) hroom, ← hin]
    refine rawRead_incoming ((room_put _).2 (hroom.mono (Nat.le_succ n))) ?_ ?_
    · rw [Prompt, hsame.1, hsame.2.1, hsame.2.2.1, hsame.2.2.2.1]
      exact htime
    · rintro off h
      rw [hpos, hsame.1]
      exact (hq off h).symm.imp_left And.left

/-! ## A run of reads -/

/-- The calls that read behind the head of a request. -/
inductive BodyRead
  | buffer (bytes : ℕ) (block : ℤ)
  | string (size : ℕ) (block : ℤ)
  | raw (bytes : ℕ) (block : ℤ)
  deriving DecidableEq, Repr

/-- The bytes a call delivers; those of `kws_read_buffer` stand at the start of the
    receive buffer. -/
def BodyRead.run : BodyRead → Kws → Except Fault (List UInt8 × Kws)
  | buffer bytes block, k => do
    let (read, k) ← k.readBuffer bytes block
    return (k.load (.buffer 0) read.ret.toNat, k)
  | string size block, k => do
    let (read, k) ← k.stringRead .caller size block
    return (read.bytes, k)
  | raw bytes block, k => do
    let (read, k) ← k.rawRead .caller bytes block
    return (read.bytes, k)

/-- The bytes that calls deliver, one after the other. -/
def runReads : Kws → List BodyRead → Except Fault (List UInt8 × Kws)
  | k, [] => .ok ([], k)
  | k, call :: calls => do
    let (bytes, k) ← call.run k
    let (bytes', k) ← runReads k calls
    return (bytes ++ bytes', k)

/-- The last of `size` bytes of the receive buffer is not one of those left over. -/
def EndsClear (k : Kws) (size : ℕ) : Prop :=
  k.unprocessedBufferLen = 0 ∨ size ≤ k.unprocessedPosition ∨
    k.unprocessedPosition + k.unprocessedBufferLen < size

instance (k : Kws) : DecidablePred k.EndsClear := fun _ => inferInstanceAs (Decidable (_ ∨ _))

/-- A call that loses none of the bytes still to come in. -/
def BodyRead.Keeps (k : Kws) : BodyRead → Prop
  | buffer bytes block =>
    k.EndsClear (min bytes k.buflen) ∧ k.Prompt (min bytes k.buflen - 1) block
  | string size block => k.Prompt (size - 1) block
  | raw bytes block => k.Prompt bytes block

instance : (call : BodyRead) → Decidable (call.Keeps k)
  | .buffer _ _ => inferInstanceAs (Decidable (_ ∧ _))
  | .string size block => inferInstanceAs (Decidable (k.Prompt (size - 1) block))
  | .raw bytes block => inferInstanceAs (Decidable (k.Prompt bytes block))

/-- Every call of a run is one of these, in the state it is made in. -/
def KeepsAll : Kws → List BodyRead → Prop
  | _, [] => True
  | k, call :: calls =>
    call.Keeps k ∧ ∀ bytes k', call.run k = .ok (bytes, k') → KeepsAll k' calls

instance decidableKeepsAll : (k : Kws) → (calls : List BodyRead) → Decidable (KeepsAll k calls)
  | _, [] => isTrue trivial
  | k, call :: calls =>
    match h : call.run k with
    | .ok (bytes, k') =>
      haveI := decidableKeepsAll k' calls
      decidable_of_iff (call.Keeps k ∧ KeepsAll k' calls) <| and_congr_right fun _ => by
        constructor
        · intro hk bytes₁ k₁ h₁
          obtain ⟨-, rfl⟩ := Prod.ext_iff.1 (Except.ok.inj (h.symm.trans h₁))
          exact hk
        · exact fun hk => hk bytes k' h
    | .error _ =>
      decidable_of_iff (call.Keeps k) <| by
        refine (and_iff_left_of_imp fun _ bytes k' h' => ?_).symm
        cases h.symm.trans h'

theorem run_incoming {call : BodyRead} (h : call.Keeps k) :
    ∃ bytes k', call.run k = .ok (bytes, k') ∧ bytes ++ k'.incoming = k.incoming := by
  cases call with
  | buffer bytes block =>
    obtain ⟨hclear, htime⟩ := h
    have hroom : k.Room (.buffer 0) (min bytes k.buflen) :=
      show 0 + min bytes k.buflen ≤ k.buflen by omega
    obtain ⟨read, k', hread, hin, hload⟩ := stringRead_incoming hroom htime fun off hoff => by
      obtain rfl := Ptr.buffer.inj hoff
      rw [Nat.zero_add]
      exact hclear.imp_right fun h => ⟨Nat.zero_le _, h⟩
    refine ⟨read.bytes, k', ?_, hin⟩
    rw [BodyRead.run, readBuffer, hread, ok_bind]
    exact congrArg (fun bytes => Except.ok (bytes, k')) (hload 0 rfl)
  | string size block =>
    have hroom : k.Room .caller size := trivial
    obtain ⟨read, k', hread, hin, -⟩ := stringRead_incoming hroom h fun off hoff => by cases hoff
    refine ⟨read.bytes, k', ?_, hin⟩
    rw [BodyRead.run, hread]
    rfl
  | raw bytes block =>
    have hroom : k.Room .caller bytes := trivial
    obtain ⟨read, k', hread, hin, -⟩ := rawRead_incoming hroom h fun off hoff => by cases hoff
    refine ⟨read.bytes, k', ?_, hin⟩
    rw [BodyRead.run, hread]
    rfl

/-- A run of such calls delivers the bytes that are to come in, in their order. -/
theorem runReads_incoming {calls : List BodyRead} (h : KeepsAll k calls) :
    ∃ bytes k', runReads k calls = .ok (bytes, k') ∧ bytes ++ k'.incoming = k.incoming := by
  induction calls generalizing k with
  | nil => exact ⟨[], k, rfl, rfl⟩
  | cons call calls ih =>
    obtain ⟨bytes, k₁, hrun, hin⟩ := run_incoming h.1
    obtain ⟨bytes', k', hruns, hin'⟩ := ih (h.2 _ _ hrun)
    refine ⟨bytes ++ bytes', k', ?_, ?_⟩
    · rw [runReads, hrun, ok_bind]
      dsimp only
      rw [hruns]
      rfl
    · rw [List.append_assoc, hin', hin]

end Kws

/-! ## The head -/

/-- There are lines behind the request line: a line feed comes behind its target. -/
def HasLines (head : List UInt8) : Prop :=
  ∃ method path query rest, head = method ++ 32 :: (targetOf path query ++ 32 :: rest) ∧
    32 ∉ method ∧ IsTarget path query ∧ 10 ∈ rest

/-- They are found. -/
theorem HasLines.parseHead {head : List UInt8} {r : KwsRequest} {lines : Bool} (h : HasLines head)
    (h0 : 0 ∉ head) (hparse : parseHead head = .ok (some (r, lines))) : lines = true := by
  obtain ⟨method, path, query, rest, hhead, hmethod, ht, hrest⟩ := h
  have hstr := Mem.isStr_write (fun _ => 0) 0 h0
  rw [hhead] at hstr
  obtain ⟨hdeep, hline⟩ := parseRequestLine_str hstr (Nat.lt_succ_self _) hmethod ht
  rw [← hhead] at hdeep hline
  rw [Libks.parseHead] at hparse
  obtain ⟨line, hparsed, hparse⟩ := bind_eq_ok.1 hparse
  rcases line with _ | ⟨r₁, http⟩
  · cases hparse
  · by_cases hd : TooDeep path
    · cases (hdeep hd).symm.trans hparsed
    obtain ⟨m', hm', -, -, hline⟩ := hline hd
    rw [hline] at hparsed
    split_ifs at hparsed with hversion
    · cases hparsed
    obtain ⟨rfl, rfl⟩ := Prod.ext_iff.1 (Option.some.inj (Except.ok.inj hparsed))
    have hlen : method.length + 1 + (targetOf path query).length + 1 + rest.length <
        head.length + 1 := by
      rw [hhead]
      simp only [List.length_append, List.length_cons]
      omega
    obtain ⟨j, hj⟩ := Option.ne_none_iff_exists'.1 fun hnone => strchr_eq_none_iff.1 hnone hrest
    dsimp only at hparse
    rw [KwsRequest.parseLines] at hparse
    dsimp only at hparse
    rw [cutAt_str hm' hlen 10, hj, Option.map_some, ok_bind] at hparse
    obtain ⟨⟨m, headers⟩, -, hparse⟩ := bind_eq_ok.1 hparse
    dsimp only at hparse
    split_ifs at hparse with hcount
    · cases hparse
    obtain ⟨r₂, -, hparse⟩ := bind_eq_ok.1 hparse
    cases r₂ with
    | none => cases hparse
    | some r₂ => exact (Prod.ext_iff.1 (Option.some.inj (Except.ok.inj hparse))).2.symm

theorem lt_of_endOfHead {text : List UInt8} {i body : ℕ} (h : endOfHead text = some (i, body)) :
    i < body := by
  rw [endOfHead] at h
  split at h
  · obtain ⟨rfl, rfl⟩ := Prod.ext_iff.1 (Option.some.inj h)
    exact Nat.lt_add_of_pos_right (by decide)
  · obtain ⟨j, -, hj⟩ := Option.map_eq_some_iff.1 h
    obtain ⟨rfl, rfl⟩ := Prod.ext_iff.1 hj
    exact Nat.lt_add_of_pos_right (by decide)

namespace Kws

variable {k k' : Kws} {datalen body : ℕ} {calls : List BodyRead}

/-- What is moved is still to come in; where nothing is, nothing may be left over from
    before. -/
theorem incoming_shiftRest (h : k.shiftRest datalen body = .ok k') (hbody : body ≤ datalen)
    (hempty : datalen = body → k.unprocessedBufferLen = 0) :
    k'.incoming = k.buffer.read body (datalen - body) ++ wire k.world.reads := by
  rw [shiftRest, if_pos hbody, if_pos hbody] at h
  split_ifs at h with hrest hroom
  · obtain rfl := Except.ok.inj h
    rw [hrest, Mem.read_zero]
    exact incoming_of_empty (hempty (by omega))
  · obtain rfl := Except.ok.inj h
    refine congrArg (· ++ _) ?_
    change (k.buffer.write 0 (k.buffer.read body (datalen - body + 1))).read 0 (datalen - body) = _
    have hmove := read_write_prefix k.buffer 0 (k.buffer.read body (datalen - body))
      (k.buffer.read (body + (datalen - body)) 1)
    rwa [← Mem.read_add, Mem.length_read] at hmove

/-- The reads behind a head deliver the bytes that stand behind it in the receive buffer,
    then those of the transport. -/
def DeliversRest (k k' : Kws) (body : ℕ) (calls : List BodyRead) : Prop :=
  ∃ bytes k'', runReads k' calls = .ok (bytes, k'') ∧
    bytes ++ k''.incoming =
      k.buffer.read body (toUInt64 k.datalen - body) ++ wire k.world.reads

/-- Bytes behind the head come after header lines; where there are none, none are left
    over from before. -/
def Moves (k : Kws) (head : List UInt8) (body : ℕ) : Prop :=
  if toUInt64 k.datalen = body then k.unprocessedBufferLen = 0 else HasLines head

/-- Once `kws_parse_header` has accepted a request, with lines if there are bytes behind
    its head, any reads that keep the bytes to come deliver those behind the head and
    then the socket's. -/
theorem parseHeader_delivers {text : List UInt8} {i : ℕ} {r : KwsRequest}
    (htext : loadStr k.buflen k.buffer 0 = .ok text) (hend : endOfHead text = some (i, body))
    (hbody : body ≤ toUInt64 k.datalen) (hmoves : k.Moves (text.take i) body)
    (h : k.parseHeader = .ok (.success, some r, k')) (hcalls : KeepsAll k' calls) :
    k.DeliversRest k' body calls := by
  obtain ⟨text', i', body', r₀, lines, htext', hend', hhead, hskip, -⟩ := parseHeader_parts h
  obtain rfl := Except.ok.inj (htext'.symm.trans htext)
  obtain ⟨rfl, rfl⟩ := Prod.ext_iff.1 (Option.some.inj (hend'.symm.trans hend))
  obtain ⟨bytes, k'', hruns, hin⟩ := runReads_incoming hcalls
  refine ⟨bytes, k'', hruns, hin.trans ?_⟩
  have hread (n : ℕ) : (k.buffer.write i' [0]).read body' n = k.buffer.read body' n :=
    Mem.read_write_of_disjoint (.inr (lt_of_endOfHead hend))
  rw [← hread]
  rw [Moves] at hmoves
  by_cases hnone : toUInt64 k.datalen = body'
  · rw [if_pos hnone] at hmoves
    cases lines with
    | true => exact incoming_shiftRest hskip hbody fun _ => hmoves
    | false =>
      obtain rfl := Except.ok.inj hskip
      rw [hnone, Nat.sub_self, Mem.read_zero]
      exact incoming_of_empty hmoves
  · rw [if_neg hnone] at hmoves
    have h0 : 0 ∉ text'.take i' := fun hmem => by
      obtain ⟨rfl, -⟩ := loadStr_eq_ok_iff.1 htext
      exact Mem.zero_notMem_strAt _ _ _ (List.mem_of_mem_take hmem)
    obtain rfl := hmoves.parseHead h0 hhead
    exact incoming_shiftRest hskip hbody fun h => absurd h hnone

/-- A request with six bytes behind its head. -/
def requestAndRest : Kws := requestAt0 (ascii "GET / HTTP/1.1\r\nA: b\r\n\r\nabcdef")

/-- They are read in two pieces, the second one through the receive buffer; a third call
    finds nothing more. -/
theorem parseHeader_delivers_rest :
    ∃ r k', requestAndRest.parseHeader = .ok (.success, some r, k') ∧
      requestAndRest.DeliversRest k' 24 [.raw 2 0, .buffer 10 0, .string 4 0] := by
  have haccepted : okAnd (fun a => a.1 = .success ∧ a.2.1.isSome ∧
      KeepsAll a.2.2 [.raw 2 0, .buffer 10 0, .string 4 0]) requestAndRest.parseHeader = true := by
    decide +kernel
  have htext : okAnd (fun text => endOfHead text = some (20, 24) ∧
      text.take 20 = ascii "GET / HTTP/1.1\r\nA: b")
      (loadStr requestAndRest.buflen requestAndRest.buffer 0) = true := by
    decide +kernel
  obtain ⟨⟨status, r, k'⟩, hrun, ha⟩ := okAnd_iff.1 haccepted
  obtain ⟨rfl, hr, hkeeps⟩ := of_decide_eq_true ha
  obtain ⟨r, rfl⟩ := Option.isSome_iff_exists.1 hr
  obtain ⟨text, htext, ht⟩ := okAnd_iff.1 htext
  obtain ⟨hend, hhead⟩ := of_decide_eq_true ht
  refine ⟨r, k', hrun, parseHeader_delivers htext hend (by decide +kernel) ?_ hrun hkeeps⟩
  rw [Moves, if_neg (by decide +kernel), hhead]
  exact ⟨ascii "GET", [47], none, ascii "HTTP/1.1\r\nA: b", by decide +kernel, by decide +kernel,
    ⟨rfl, by decide, by decide, by decide⟩, by decide +kernel⟩

/-- A read of the receive buffer for three bytes and a terminator takes the fourth one
    away. -/
theorem parseHeader_overwrites :
    ∃ r k', requestAndRest.parseHeader = .ok (.success, some r, k') ∧
      ¬requestAndRest.DeliversRest k' 24 [.buffer 4 0, .buffer 10 0] := by
  have hrun : okAnd (fun a => a.1 = .success ∧ a.2.1.isSome ∧
      okAnd (fun d => d.1 ++ d.2.incoming = [97, 98, 99, 0, 101, 102])
        (runReads a.2.2 [.buffer 4 0, .buffer 10 0])) requestAndRest.parseHeader = true := by
    decide +kernel
  obtain ⟨⟨status, r, k'⟩, hrun, ha⟩ := okAnd_iff.1 hrun
  obtain ⟨rfl, hr, hruns⟩ := of_decide_eq_true ha
  obtain ⟨r, rfl⟩ := Option.isSome_iff_exists.1 hr
  obtain ⟨⟨bytes, k''⟩, hruns, hbytes⟩ := okAnd_iff.1 hruns
  refine ⟨r, k', hrun, ?_⟩
  rintro ⟨bytes', k₁, hruns', hin⟩
  obtain ⟨rfl, rfl⟩ := Prod.ext_iff.1 (Except.ok.inj (hruns.symm.trans hruns'))
  rw [of_decide_eq_true hbytes] at hin
  exact absurd hin (by decide +kernel)

end Kws

end Libks
