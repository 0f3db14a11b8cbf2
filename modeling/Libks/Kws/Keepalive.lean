import Libks.Kws.ReadSafety
import Libks.Kws.Request

/-!
# Waiting for the next request

`kws_keepalive` reads until a terminator stands in the receive buffer, as a C
string. A read of the socket ends with a NUL, so that the string is what has
been read (`keepaliveLoop_transport`). A read of bytes left over from the last
request has none: the string goes on into what stood in the buffer before. The
first read decides (`keepalive_iff`).
-/

namespace Libks

open Base

/-! ## Strings in the buffer -/

theorem length_strAt_le {m : Mem} {limit p j : ℕ} (h : m (p + j) = 0) :
    (m.strAt limit p).length ≤ j := by
  induction limit generalizing p j with
  | zero => exact Nat.zero_le j
  | succ limit ih =>
    rw [Mem.strAt]
    split_ifs with hp
    · exact Nat.zero_le j
    · cases j with
      | zero => exact absurd h hp
      | succ j =>
        rw [List.length_cons]
        exact Nat.succ_le_succ (ih (by rwa [Nat.add_right_comm, Nat.add_assoc]))

theorem read_strAt (m : Mem) (limit p : ℕ) :
    m.read p (m.strAt limit p).length = m.strAt limit p := by
  induction limit generalizing p with
  | zero => rfl
  | succ limit ih =>
    rw [Mem.strAt]
    split_ifs
    · rfl
    · rw [List.length_cons, Mem.read, ih]

/-- What `strstr` finds ends the text up to there. -/
theorem take_of_strstr {pat text : List UInt8} {i : ℕ} (hp : pat ≠ [])
    (h : strstr pat text = some i) :
    i + pat.length ≤ text.length ∧ pat <:+ text.take (i + pat.length) := by
  have hpre := ((strstr_eq_some_iff hp).1 h).1
  refine ⟨?_, text.take i, ?_⟩
  · have hlen := hpre.length_le
    have hpos := List.length_pos_iff.2 hp
    rw [List.length_drop] at hlen
    omega
  · rw [List.take_add, ← List.prefix_iff_eq_take.1 hpre]

/-- The terminator of a head stands in front of the body. -/
theorem endOfHead_inside {text : List UInt8} {i body : ℕ} (h : endOfHead text = some (i, body)) :
    body ≤ text.length ∧
      ([13, 10, 13, 10] <:+: text.take body ∨ [10, 10] <:+: text.take body) := by
  rw [endOfHead] at h
  split at h
  · rename_i j hj
    obtain ⟨rfl, rfl⟩ := Prod.ext_iff.1 (Option.some.inj h)
    obtain ⟨hle, hsuffix⟩ := take_of_strstr (by decide) hj
    exact ⟨hle, .inl hsuffix.isInfix⟩
  · obtain ⟨j, hj, hij⟩ := Option.map_eq_some_iff.1 h
    obtain ⟨rfl, rfl⟩ := Prod.ext_iff.1 hij
    obtain ⟨hle, hsuffix⟩ := take_of_strstr (by decide) hj
    exact ⟨hle, .inr hsuffix.isInfix⟩

theorem loadStr_eq_ok_iff {size p : ℕ} {m : Mem} {s : List UInt8} :
    loadStr size m p = .ok s ↔ m.strAt (size - p) p = s ∧ s.length < size - p := by
  rw [loadStr]
  split_ifs with hlt
  · constructor
    · intro h
      obtain rfl := Except.ok.inj h
      exact ⟨rfl, hlt⟩
    · rintro ⟨rfl, -⟩
      rfl
  · refine iff_of_false (fun h => by cases h) ?_
    rintro ⟨rfl, h⟩
    exact hlt h

namespace Kws

/-- The head that `kws_parse_header` takes next is among the bytes that have been
    read: the first `datalen` of the buffer have its terminator, and the string
    in the buffer has no later one. -/
structure HeadRead (k : Kws) : Prop where
  terminator : [13, 10, 13, 10] <:+: k.buffer.read 0 k.datalen.toNat ∨
    [10, 10] <:+: k.buffer.read 0 k.datalen.toNat
  head : ∃ text i body, loadStr k.buflen k.buffer 0 = .ok text ∧
    endOfHead text = some (i, body) ∧ body ≤ k.datalen.toNat

/-- It is enough that the body starts behind no more than has been read. -/
theorem headRead_iff {k : Kws} {text : List UInt8} {i body : ℕ}
    (ht : loadStr k.buflen k.buffer 0 = .ok text) (he : endOfHead text = some (i, body)) :
    k.HeadRead ↔ body ≤ k.datalen.toNat := by
  constructor
  · rintro ⟨-, text', i', body', ht', he', hle⟩
    obtain rfl := Except.ok.inj (ht.symm.trans ht')
    obtain ⟨-, rfl⟩ := Prod.ext_iff.1 (Option.some.inj (he.symm.trans he'))
    exact hle
  · intro hle
    obtain ⟨hbody, hend⟩ := endOfHead_inside he
    have hread : text.take body = (k.buffer.read 0 k.datalen.toNat).take body := by
      rw [Mem.take_read _ _ _ _ hle]
      obtain ⟨rfl, -⟩ := loadStr_eq_ok_iff.1 ht
      rw [← Mem.take_read _ _ _ _ hbody, read_strAt]
    rw [hread] at hend
    have hinfix := (List.take_prefix body (k.buffer.read 0 k.datalen.toNat)).isInfix
    exact ⟨hend.imp (·.trans hinfix) (·.trans hinfix), text, i, body, ht, he, hle⟩

/-- The receive buffer where the bytes left over have been moved to its start. -/
def leftoverBuffer (k : Kws) : Mem :=
  (k.buffer.write (k.buflen - 1) [0]).write 0 k.unprocessed

/-- No bytes are left over, or a terminator that the string in the buffer then has
    is one of theirs. -/
def LeftoverClean (k : Kws) : Prop :=
  k.unprocessedBufferLen = 0 ∨
    ∀ text i body, loadStr k.buflen k.leftoverBuffer 0 = .ok text →
      endOfHead text = some (i, body) → body ≤ k.unprocessedBufferLen

/-- The bytes left over stand in the buffer, in front of its last byte. -/
def LeftoverInside (k : Kws) : Prop :=
  k.unprocessedBufferLen = 0 ∨ k.unprocessedPosition + k.unprocessedBufferLen < k.buflen

variable {k k' : Kws}

/-- `kws_parse_header` leaves bytes over inside the buffer. -/
theorem LeftoverInside.shiftRest {datalen body : ℕ} (hk : k.LeftoverInside)
    (h : k.shiftRest datalen body = .ok k') : k'.LeftoverInside := by
  rw [Kws.shiftRest] at h
  split_ifs at h
  · obtain rfl := Except.ok.inj h
    exact hk
  · obtain rfl := Except.ok.inj h
    refine .inr ?_
    change 0 + (datalen - body) < k.buflen
    omega
  · obtain rfl := Except.ok.inj h
    exact hk
  · obtain rfl := Except.ok.inj h
    refine .inr ?_
    change 0 + datalen < k.buflen
    omega

/-- A read keeps those that are still left over there. -/
theorem LeftoverInside.rawRead {q : Ptr} {n : ℕ} {b : ℤ} {read : Read} (hk : k.LeftoverInside)
    (hroom : k.Room q n) (h : k.rawRead q n b = .ok (read, k')) : k'.LeftoverInside := by
  by_cases hu : 0 < k.unprocessedBufferLen
  · obtain ⟨c, up, ul, -, hc, hul, -, hup, hread⟩ := rawRead_leftover hu hroom b
    obtain ⟨-, rfl⟩ := Prod.ext_iff.1 (Except.ok.inj (hread.symm.trans h))
    refine hup.imp_right fun hup => ?_
    have hbuflen : (k.put q (k.unprocessed.take c)).buflen = k.buflen := by cases q <;> rfl
    change up + ul < (k.put q (k.unprocessed.take c)).buflen
    have := hk.resolve_left (by omega)
    omega
  · obtain ⟨read', k₁, h', -, -, hpast, -⟩ := rawRead_spec hroom b
    obtain ⟨-, rfl⟩ := Prod.ext_iff.1 (Except.ok.inj (h'.symm.trans h))
    exact .inl (hpast.empty (by omega))

/-- A string read of the socket leaves a NUL behind what it has read. -/
theorem stringRead_terminator {off n : ℕ} {read : Read} {b : ℤ} (hu : k.unprocessedBufferLen = 0)
    (hn : 0 < n) (hroom : k.Room (.buffer off) (n + 1))
    (h : k.stringRead (.buffer off) (n + 1) b = .ok (read, k')) (hret : 0 < read.ret) :
    k'.buffer (off + read.ret.toNat) = 0 := by
  rw [stringRead_eq hn hroom] at h
  generalize hk₁ : k.put ((Ptr.buffer off).add n) [0] = k₁ at h
  have hu₁ : k₁.unprocessedBufferLen = 0 := by
    rw [← hk₁]
    exact hu
  have hroom₁ : k₁.Room (.buffer off) n := by
    rw [← hk₁, room_put]
    exact hroom.mono (Nat.le_succ n)
  obtain ⟨tail, x, hread, htail⟩ := rawRead_tail hu₁ hroom₁ b
  obtain ⟨hr, hk⟩ := Prod.ext_iff.1 (Except.ok.inj (hread.symm.trans h))
  dsimp only at hr hk
  rw [hr] at htail
  obtain ⟨-, -, hgot⟩ := k₁.transportRead_spec n b
  obtain ⟨hlen, hle⟩ : read.ret = (k₁.transportRead n b).bytes.length ∧
      (k₁.transportRead n b).bytes.length ≤ n := by
    have hret' : (if Late (k₁.transportRead n b) b then -1 else (k₁.transportRead n b).r) =
        read.ret := congrArg Read.ret hr
    split_ifs at hret'
    · omega
    · rcases hgot with h' | h'
      · exact ⟨hret'.symm.trans h'.2.1, h'.2.2.1⟩
      · omega
  have hoff : off + read.ret.toNat = off + (k₁.transportRead n b).bytes.length := by omega
  rw [← hk, hoff]
  change k₁.buffer.write off ((k₁.transportRead n b).bytes ++ tail) _ = 0
  rw [htail]
  by_cases hfull : read.ret < n
  · rw [if_pos ⟨hret, hfull⟩, ← Mem.write_write, Mem.write_apply_of_mem le_rfl (by simp),
      List.getElem_singleton]
  · -- The last byte of the buffer was set before the read.
    have hn' : (k₁.transportRead n b).bytes.length = n := by omega
    have hlast : k₁.buffer (off + n) = 0 := by
      rw [← hk₁]
      change k.buffer.write (off + n) [0] (off + n) = 0
      rw [Mem.write_apply_of_mem le_rfl (by simp), List.getElem_singleton]
    rw [if_neg fun h' => hfull h'.2, List.append_nil, Mem.write_apply_of_ge le_rfl, hn', hlast]

/-! ## The loop -/

/-- A string read with result has a buffer for a byte and its terminator. -/
theorem two_le_of_stringRead {q : Ptr} {size : ℕ} {read : Read} {b : ℤ}
    (h : k.stringRead q size b = .ok (read, k')) (hret : 0 < read.ret) : 2 ≤ size := by
  by_contra hsize
  have hnot : read.ret ≤ 0 := by
    rw [stringRead] at h
    split_ifs at h
    · obtain ⟨rfl, -⟩ := Prod.ext_iff.1 (Except.ok.inj h)
      exact Int.negSucc_le_zero 0
    · obtain ⟨k₁, -, h⟩ := bind_eq_ok.1 h
      obtain ⟨rfl, -⟩ := Prod.ext_iff.1 (Except.ok.inj h)
      exact le_rfl
    · omega
  exact absurd hret (Int.not_lt.2 hnot)

/-- A read of the socket with result, in a round of the loop. -/
theorem stringRead_round {read : Read} (hu : k.unprocessedBufferLen = 0)
    (h : k.stringRead (.buffer k.datalen.toNat) (k.buflen - k.datalen.toNat) wsBlock =
      .ok (read, k')) (hret : 0 < read.ret) :
    k'.buffer (k.datalen.toNat + read.ret.toNat) = 0 ∧ k'.datalen = k.datalen ∧
      k'.unprocessedBufferLen = 0 := by
  have hsize := two_le_of_stringRead h hret
  obtain ⟨n, hn⟩ : ∃ n, k.buflen - k.datalen.toNat = n + 1 :=
    ⟨k.buflen - k.datalen.toNat - 1, by omega⟩
  rw [hn] at h hsize
  have hroom : k.Room (.buffer k.datalen.toNat) (n + 1) :=
    show k.datalen.toNat + (n + 1) ≤ k.buflen by omega
  have hpos : 0 < n := by omega
  obtain ⟨read', k₁, h', hfrom, -, hpast, -⟩ := stringRead_spec hroom hpos wsBlock
  obtain ⟨-, rfl⟩ : read' = read ∧ k₁ = k' := by
    simpa using h'.symm.trans h
  refine ⟨stringRead_terminator hu hpos hroom h hret, ?_, hpast.empty hu⟩
  obtain ⟨_, _, _, _, _, _, _, rfl⟩ := hfrom
  rfl

/-- Where the bytes come from the socket, the string is what has been read. -/
theorem keepaliveLoop_transport {fuel : ℕ} (hu : k.unprocessedBufferLen = 0)
    (hd : 0 ≤ k.datalen) (h : k.keepaliveLoop fuel = .ok (.success, k')) : k'.HeadRead := by
  induction fuel generalizing k with
  | zero => cases h
  | succ fuel ih =>
    rw [keepaliveLoop] at h
    obtain ⟨⟨read, k₁⟩, hread, h⟩ := bind_eq_ok.1 h
    dsimp only at h
    split_ifs at h with hret
    · obtain ⟨hnul, hdatalen, hu₁⟩ := stringRead_round hu hread hret
      obtain ⟨text, htext, h⟩ := bind_eq_ok.1 h
      generalize hk₂ : ({ k₁ with datalen := k₁.datalen + read.ret } : Kws) = k₂ at h
      have hdatalen₂ : k₂.datalen = k.datalen + read.ret := by
        rw [← hk₂, ← hdatalen]
      split_ifs at h with hend
      · obtain ⟨⟨i, body⟩, he⟩ := Option.isSome_iff_exists.1 hend
        obtain ⟨-, rfl⟩ := Prod.ext_iff.1 (Except.ok.inj h)
        have htext₂ : loadStr k₂.buflen k₂.buffer 0 = .ok text := by
          rw [← hk₂]
          exact htext
        refine (headRead_iff htext₂ he).2 ?_
        obtain ⟨rfl, -⟩ := loadStr_eq_ok_iff.1 htext
        have hlen : (k₁.buffer.strAt (k₁.buflen - 0) 0).length ≤
            k.datalen.toNat + read.ret.toNat :=
          length_strAt_le (by rwa [Nat.zero_add])
        have hbody := (endOfHead_inside he).1
        rw [hdatalen₂]
        omega
      · refine ih ?_ (by omega) h
        rw [← hk₂]
        exact hu₁
    · cases h

/-- The first round of the loop, where bytes are left over. -/
theorem keepaliveLoop_leftover (hu : 0 < k.unprocessedBufferLen) (hd : k.datalen = 0)
    (hpos : k.unprocessedPosition + k.unprocessedBufferLen < k.buflen) :
    ∃ k₁ : Kws, k₁.buffer = k.leftoverBuffer ∧ k₁.buflen = k.buflen ∧
      k₁.datalen = k.unprocessedBufferLen ∧ k₁.unprocessedBufferLen = 0 ∧
      ∀ fuel, k.keepaliveLoop (fuel + 1) = (loadStr k₁.buflen k₁.buffer 0 >>= fun text =>
        if (endOfHead text).isSome then .ok (.success, k₁) else k₁.keepaliveLoop fuel) := by
  obtain ⟨n, hn⟩ : ∃ n, k.buflen = n + 1 := ⟨k.buflen - 1, by omega⟩
  have hroom : k.Room (.buffer 0) (n + 1) := show 0 + (n + 1) ≤ k.buflen by omega
  have hread := stringRead_eq (by omega) hroom wsBlock
  -- The store of the last terminator is behind the bytes left over.
  have hunprocessed : (k.put ((Ptr.buffer 0).add n) [0]).unprocessed = k.unprocessed := by
    refine Mem.read_write_of_disjoint (.inl ?_)
    change k.unprocessedPosition + k.unprocessedBufferLen ≤ 0 + n
    omega
  have hroom₁ : (k.put ((Ptr.buffer 0).add n) [0]).Room (.buffer 0) n :=
    (room_put _).2 (hroom.mono (Nat.le_succ n))
  have hu₁ : 0 < (k.put ((Ptr.buffer 0).add n) [0]).unprocessedBufferLen := hu
  obtain ⟨c, up, ul, -, hc, hul, hall, -, hraw⟩ := rawRead_leftover hu₁ hroom₁ wsBlock
  obtain ⟨rfl, rfl⟩ : c = k.unprocessedBufferLen ∧ ul = 0 := by
    change c ≤ k.unprocessedBufferLen at hc
    change ul = k.unprocessedBufferLen - c at hul
    omega
  have htake : k.unprocessed.take k.unprocessedBufferLen = k.unprocessed :=
    List.take_of_length_le (Mem.length_read _ _ _).le
  rw [hunprocessed, htake] at hraw
  refine ⟨{ (k.put ((Ptr.buffer 0).add n) [0]).put (.buffer 0) k.unprocessed with
    unprocessedPosition := up
    unprocessedBufferLen := 0
    datalen := k.datalen + k.unprocessedBufferLen }, ?_, rfl, ?_, rfl, fun fuel => ?_⟩
  · rw [leftoverBuffer, hn, Nat.add_sub_cancel]
    change (k.buffer.write (0 + n) [0]).write 0 k.unprocessed = _
    rw [Nat.zero_add]
  · exact (congrArg (· + (k.unprocessedBufferLen : ℤ)) hd).trans (Int.zero_add _)
  · have h0 : k.datalen.toNat = 0 := by
      rw [hd]
      rfl
    rw [keepaliveLoop, h0, Nat.sub_zero, hn, hread, hraw, ok_bind]
    dsimp only
    rw [if_pos (by omega)]
    rfl

/-- `kws_keepalive` returns `KS_STATUS_SUCCESS` only with a head among the bytes it
    has read, if and only if what is left over is clean. -/
theorem keepalive_iff (k : Kws) (hk : k.LeftoverInside) :
    (∀ k', k.keepalive = .ok (.success, k') → k'.HeadRead) ↔ k.LeftoverClean := by
  by_cases hu : k.unprocessedBufferLen = 0
  · refine iff_of_true (fun k' h => ?_) (.inl hu)
    exact keepaliveLoop_transport (k := { k with datalen := 0 }) hu le_rfl h
  obtain ⟨k₁, hbuffer, hbuflen, hdatalen, hu₁, hround⟩ :=
    keepaliveLoop_leftover (k := { k with datalen := 0 }) (Nat.pos_of_ne_zero hu) rfl
      (hk.resolve_left hu)
  rw [keepalive, hround, hbuffer, hbuflen]
  constructor
  · intro hsafe
    refine .inr fun text i body htext he => ?_
    -- The terminator is found, whoever it belongs to.
    have hhead := hsafe k₁ (by
      rw [show loadStr k.buflen (leftoverBuffer { k with datalen := 0 }) 0 = .ok text from htext,
        ok_bind, he]
      rfl)
    have htext₁ : loadStr k₁.buflen k₁.buffer 0 = .ok text := by
      rw [hbuffer, hbuflen]
      exact htext
    have hle := (headRead_iff htext₁ he).1 hhead
    rw [hdatalen] at hle
    exact hle
  · intro hclean k' h
    obtain ⟨text, htext, h⟩ := bind_eq_ok.1 h
    split_ifs at h with hend
    · obtain ⟨⟨i, body⟩, he⟩ := Option.isSome_iff_exists.1 hend
      obtain ⟨-, rfl⟩ := Prod.ext_iff.1 (Except.ok.inj h)
      have htext₁ : loadStr k₁.buflen k₁.buffer 0 = .ok text := by
        rw [hbuffer, hbuflen]
        exact htext
      refine (headRead_iff htext₁ he).2 ?_
      rw [hdatalen]
      exact hclean.resolve_left hu text i body htext he
    · exact keepaliveLoop_transport hu₁ (by rw [hdatalen]; exact Int.natCast_nonneg _) h

/-- A whole request is left over behind eight bytes of the last body. -/
theorem keepalive_iff_request :
    (∀ k', ({ buffer := stringAt0 (ascii "12345678GET / HTTP/1.1\r\n\r\n")
              unprocessedPosition := 8, unprocessedBufferLen := 18 } : Kws).keepalive =
        .ok (.success, k') → k'.HeadRead) ↔
      ({ buffer := stringAt0 (ascii "12345678GET / HTTP/1.1\r\n\r\n")
         unprocessedPosition := 8, unprocessedBufferLen := 18 } : Kws).LeftoverClean :=
  keepalive_iff _ (.inr (by decide))

/-- Half a request behind eight bytes of the last body: moved to the start of the
    buffer, it is completed by its own last bytes, which still stand behind it. -/
theorem keepalive_stale :
    ∃ k', ({ buffer := stringAt0 (ascii "12345678GET / HTTP/1.1\r\nA: b\r\n")
             unprocessedPosition := 8, unprocessedBufferLen := 22 } : Kws).keepalive =
        .ok (.success, k') ∧ ¬k'.HeadRead := by
  have hrun : okAnd (fun r => r.1 = .success ∧ r.2.datalen = 22 ∧
        okAnd (fun text => endOfHead text = some (20, 24)) (loadStr r.2.buflen r.2.buffer 0))
      ({ buffer := stringAt0 (ascii "12345678GET / HTTP/1.1\r\nA: b\r\n")
         unprocessedPosition := 8, unprocessedBufferLen := 22 } : Kws).keepalive = true := by
    decide +kernel
  obtain ⟨⟨status, k'⟩, hk', hr⟩ := okAnd_iff.1 hrun
  obtain ⟨rfl, hdatalen, htext⟩ := of_decide_eq_true hr
  obtain ⟨text, htext, he⟩ := okAnd_iff.1 htext
  refine ⟨k', hk', fun hhead => ?_⟩
  have hle := (headRead_iff htext (of_decide_eq_true he)).1 hhead
  rw [show k'.datalen = 22 from hdatalen] at hle
  exact absurd hle (by decide)

end Kws

end Libks
