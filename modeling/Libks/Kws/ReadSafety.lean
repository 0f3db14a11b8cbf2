import Libks.Base.Outcome
import Libks.Kws.FrameHeader

/-!
# Reads under any answers of the transport

What the reading functions do whatever the transport answers, and with bytes
left over from the handshake: where there is room for what was asked for, they
do not leave the buffer (`rawRead_spec`, `stringRead_spec`,
`stringReadBlocking_spec`), and what they return are the next bytes to come in
(`Took`), as long as the bytes left over are out of the way.
-/

namespace Libks

open Base

/-- All bytes the transport has to deliver. -/
def wire : List ReadEvent → List UInt8
  | [] => []
  | .data bs :: es => bs ++ wire es
  | _ :: es => wire es

theorem readSize_cons (e : ReadEvent) (es : List ReadEvent) :
    Kws.readSize (e :: es) = (match e with | .data bs => bs.length + 1 | _ => 1) + Kws.readSize es := by
  rfl

/-- What a read of the transport gives is the next part of what it has. -/
theorem receive_spec (ssl : Bool) (n : ℕ) (b : ℤ) (x : ℕ) (io : Bool) (es : List ReadEvent) :
    let got := receive ssl n b x io es
    got.bytes ++ wire got.reads = wire es ∧ Kws.readSize got.reads ≤ Kws.readSize es ∧
      (0 < got.r ∧ got.r = got.bytes.length ∧ got.bytes.length ≤ n ∧
          Kws.readSize got.reads < Kws.readSize es ∨
        got.r ≤ 0 ∧ got.bytes = []) := by
  induction es generalizing x with
  | nil => exact ⟨rfl, Nat.le_refl _, .inr ⟨Int.le_refl 0, rfl⟩⟩
  | cons e es ih =>
    cases e with
    | data bs =>
      rw [receive]
      by_cases hle : bs.length ≤ n
      · simp only [if_pos hle, List.take_of_length_le hle, wire, readSize_cons, true_and]
        refine ⟨by omega, ?_⟩
        rcases Nat.eq_zero_or_pos bs.length with h0 | hpos
        · exact .inr ⟨by omega, List.length_eq_zero_iff.1 h0⟩
        · exact .inl ⟨by omega, by omega, hle, by omega⟩
      · simp only [if_neg hle, wire, readSize_cons, List.length_drop]
        refine ⟨by rw [← List.append_assoc, List.take_append_drop], by omega, ?_⟩
        cases n with
        | zero => exact .inr ⟨by simp, rfl⟩
        | succ n =>
          exact .inl ⟨by omega, by rw [List.length_take]; omega, by rw [List.length_take]; omega,
            by omega⟩
    | closed err =>
      refine ⟨rfl, ?_, .inr ⟨Int.le_refl 0, rfl⟩⟩
      rw [readSize_cons]
      exact Nat.le_add_left _ _
    | failed err =>
      have hsize : Kws.readSize es ≤ Kws.readSize (.failed err :: es) := by
        rw [readSize_cons]
        exact Nat.le_add_left _ _
      have hmono : ∀ m, m ≤ Kws.readSize es → m ≤ Kws.readSize (.failed err :: es) :=
        fun m hm => Nat.le_trans hm hsize
      rw [receive]
      split_ifs
      · exact ⟨rfl, hsize, .inr ⟨by simp, rfl⟩⟩
      · obtain ⟨hwire, hle, hr⟩ := ih (x + 1)
        refine ⟨hwire, hmono _ hle, hr.imp_left fun h => ?_⟩
        exact ⟨h.1, h.2.1, h.2.2.1, Nat.lt_of_lt_of_le h.2.2.2 hsize⟩
      · exact ⟨rfl, hsize, .inr ⟨by simp, rfl⟩⟩
      · exact ⟨rfl, hsize, .inr ⟨by simp, rfl⟩⟩
      · exact ⟨rfl, hsize, .inr ⟨by simp, rfl⟩⟩

namespace Kws

/-- All bytes that are still to come in: those left over, and the transport's. -/
def incoming (k : Kws) : List UInt8 := k.unprocessed ++ wire k.world.reads

/-- `k'` is `k` after reads. -/
def ReadFrom (k k' : Kws) : Prop :=
  ∃ m mb x io up ul rs, k' = { k with
    buffer := m
    bbuffer := mb
    x := x
    sslIoError := io
    unprocessedPosition := up
    unprocessedBufferLen := ul
    world := { k.world with reads := rs } }

variable {k k' k₁ k₂ : Kws} {q : Ptr} {n off c : ℕ} {b : ℤ}

theorem ReadFrom.refl (k : Kws) : k.ReadFrom k :=
  ⟨k.buffer, k.bbuffer, k.x, k.sslIoError, k.unprocessedPosition, k.unprocessedBufferLen,
    k.world.reads, rfl⟩

theorem ReadFrom.trans (h₁ : k.ReadFrom k₁) (h₂ : k₁.ReadFrom k₂) : k.ReadFrom k₂ := by
  obtain ⟨_, _, _, _, _, _, _, rfl⟩ := h₁
  obtain ⟨m, mb, x, io, up, ul, rs, rfl⟩ := h₂
  exact ⟨m, mb, x, io, up, ul, rs, rfl⟩

/-- A store into a buffer is all that a read may do to it. -/
theorem readFrom_put (k : Kws) (p : Ptr) (bs : List UInt8) : k.ReadFrom (k.put p bs) := by
  cases p with
  | buffer off => exact ⟨_, _, _, _, _, _, _, rfl⟩
  | bbuffer off => exact ⟨_, _, _, _, _, _, _, rfl⟩
  | caller => exact .refl k

/-- A read leaves the sizes of the buffers alone, and so the room in them. -/
theorem ReadFrom.room (h : k.ReadFrom k') : k'.Room q n ↔ k.Room q n := by
  obtain ⟨_, _, _, _, _, _, _, rfl⟩ := h
  cases q <;> rfl

/-- Bytes left over are gone, or `n` of them at least have been passed. -/
structure Past (k k' : Kws) (n : ℕ) : Prop where
  place : k'.unprocessedBufferLen = 0 ∨ k.unprocessedPosition + n ≤ k'.unprocessedPosition
  empty : k.unprocessedBufferLen = 0 → k'.unprocessedBufferLen = 0

theorem Past.refl (k : Kws) : k.Past k 0 := ⟨.inr (Nat.le_refl _), id⟩

theorem Past.mono {m : ℕ} (h : k.Past k' n) (hm : m ≤ n) : k.Past k' m :=
  ⟨h.place.imp_right fun h' => by omega, h.empty⟩

theorem Past.trans {m : ℕ} (h₁ : k.Past k₁ n) (h₂ : k₁.Past k₂ m) : k.Past k₂ (n + m) := by
  refine ⟨?_, fun h => h₂.empty (h₁.empty h)⟩
  rcases h₁.place with h | h
  · exact .inl (h₂.empty h)
  · exact h₂.place.imp_right fun h' => by omega

/-- Where the next bytes are stored, those left over are still out of the way. -/
theorem Past.next (h : k.Past k' n) (hc : c ≤ n)
    (hu : k.unprocessedBufferLen = 0 ∨ off ≤ k.unprocessedPosition) :
    k'.unprocessedBufferLen = 0 ∨ off + c ≤ k'.unprocessedPosition := by
  rcases hu with hu | hu
  · exact .inl (h.empty hu)
  · exact h.place.imp_right fun h' => by omega

/-- The `c` bytes stored at `off` of one of the buffers are the next to come in. -/
structure Drew (mem other : Kws → Mem) (k k' : Kws) (off c : ℕ) : Prop where
  length : c ≤ k.incoming.length
  bytes : (mem k').read off c = k.incoming.take c
  frame : ∀ i < off, mem k' i = mem k i
  rest : k'.incoming = k.incoming.drop c
  other : other k' = other k

/-- The `c` bytes stored at `off` of the receive buffer are the next to come in. -/
abbrev Took (k k' : Kws) (off c : ℕ) : Prop := Drew buffer bbuffer k k' off c

variable {mem other : Kws → Mem}

theorem Drew.refl (k : Kws) (off : ℕ) : Drew mem other k k off 0 :=
  ⟨Nat.zero_le _, rfl, fun _ _ => rfl, rfl, rfl⟩

theorem Drew.trans {c' : ℕ} (h₁ : Drew mem other k k₁ off c)
    (h₂ : Drew mem other k₁ k₂ (off + c) c') : Drew mem other k k₂ off (c + c') := by
  have hlen := h₂.length
  rw [h₁.rest, List.length_drop] at hlen
  refine ⟨by have := h₁.length; omega, ?_, fun i hi => ?_, ?_, h₂.other.trans h₁.other⟩
  · rw [Mem.read_add, h₂.bytes, h₁.rest, Mem.read_congr fun i _ hi => h₂.frame i hi, h₁.bytes,
      ← List.take_add]
  · exact (h₂.frame i (by omega)).trans (h₁.frame i hi)
  · rw [h₂.rest, h₁.rest, List.drop_drop]

/-- What the transport gives comes off the front of what it holds, and is no more than what was
    asked for. -/
theorem transportRead_spec (k : Kws) (n : ℕ) (b : ℤ) :
    let got := k.transportRead n b
    got.bytes ++ wire got.reads = wire k.world.reads ∧ readSize got.reads ≤ readSize k.world.reads ∧
      (0 < got.r ∧ got.r = got.bytes.length ∧ got.bytes.length ≤ n ∧
          readSize got.reads < readSize k.world.reads ∨
        got.r ≤ 0 ∧ got.bytes = []) := by
  rw [transportRead]
  split_ifs
  · exact ⟨rfl, Nat.le_refl _, .inr ⟨by simp, rfl⟩⟩
  · exact ⟨rfl, Nat.le_refl _, .inr ⟨Int.le_refl 0, rfl⟩⟩
  · obtain ⟨hwire, hsize, hr⟩ :=
      receive_spec k.ssl (requestSize n) b (k.x + 1) k.sslIoError k.world.reads
    refine ⟨hwire, hsize, hr.imp_left fun h => ?_⟩
    exact ⟨h.1, h.2.1, Nat.le_trans h.2.2.1 (requestSize_le n), h.2.2.2⟩

/-- The connection after a read that has stored `bs` at `q`. -/
def filled (k : Kws) (q : Ptr) (bs : List UInt8) (x : ℕ) (io : Bool) (rs : List ReadEvent) : Kws :=
  { k.put q bs with x := x, sslIoError := io, world := { k.world with reads := rs } }

theorem readFrom_filled (k : Kws) (q : Ptr) (bs : List UInt8) (x : ℕ) (io : Bool)
    (rs : List ReadEvent) : k.ReadFrom (k.filled q bs x io rs) := by
  cases q with
  | buffer off => exact ⟨_, _, _, _, _, _, _, rfl⟩
  | bbuffer off => exact ⟨_, _, _, _, _, _, _, rfl⟩
  | caller => exact ⟨_, _, _, _, _, _, _, rfl⟩

theorem afterRead_put (k : Kws) (got : Received) (q : Ptr) (bs tail : List UInt8) (x : ℕ) :
    { ((k.afterRead got).put q bs).put (q.add bs.length) tail with x := x } =
      k.filled q (bs ++ tail) x got.sslIoError got.reads := by
  rw [put_put, filled, put_afterRead]
  cases q <;> rfl

/-- The read has waited too long. -/
def Late (got : Received) (b : ℤ) : Prop := 10000 ≤ got.x ∨ (b ≠ 0 ∧ b.tdiv 10 ≤ got.x)

instance (got : Received) (b : ℤ) : Decidable (Late got b) :=
  inferInstanceAs (Decidable (_ ∨ _))

/-- What a read returns, where the transport has given `got`. -/
def readOf (got : Received) (b : ℤ) : Read :=
  let r := if Late got b then -1 else got.r
  ⟨r, if 0 < r then got.bytes else []⟩

/-- A read of the transport, where nothing is left over. A NUL is stored behind
    what has been read if there is room for it. -/
theorem rawRead_tail (hu : k.unprocessedBufferLen = 0) (hroom : k.Room q n) (b : ℤ) :
    ∃ tail x, k.rawRead q n b = .ok (readOf (k.transportRead n b) b,
      k.filled q ((k.transportRead n b).bytes ++ tail) x
        (k.transportRead n b).sslIoError (k.transportRead n b).reads) ∧
      tail = if 0 < (readOf (k.transportRead n b) b).ret ∧ (readOf (k.transportRead n b) b).ret < n
        then [0] else [] := by
  obtain ⟨-, -, hr⟩ := k.transportRead_spec n b
  simp only [rawRead, hu, Nat.lt_irrefl, if_false]
  generalize k.transportRead n b = got at hr ⊢
  have hlen : got.bytes.length ≤ n := by
    rcases hr with h | h
    · exact h.2.2.1
    · rw [h.2]
      exact Nat.zero_le n
  have hroom₁ : (k.afterRead got).Room q got.bytes.length :=
    (room_afterRead _).2 (hroom.mono hlen)
  rw [store_of_room hroom₁]
  simp only [bind, Except.bind]
  generalize hk₁ : (k.afterRead got).put q got.bytes = k₁
  have hfill (tail : List UInt8) (x : ℕ) :
      { k₁.put (q.add got.bytes.length) tail with x := x } =
        k.filled q (got.bytes ++ tail) x got.sslIoError got.reads := by
    rw [← hk₁, afterRead_put]
  have hlate : (if 10000 ≤ k₁.x ∨ b ≠ 0 ∧ b.tdiv 10 ≤ k₁.x then -1 else got.r) =
      if Late got b then -1 else got.r := by
    rw [← hk₁, x_put]
    rfl
  rw [endRead, hlate, readOf]
  generalize hr' : (if Late got b then -1 else got.r) = r
  have hret : r = -1 ∨ r = got.r := by
    rw [← hr']
    split_ifs
    · exact .inl rfl
    · exact .inr rfl
  have hx (k : Kws) : ∃ x, (if 0 ≤ r then { k with x := 0 } else k) = { k with x := x } := by
    split_ifs
    · exact ⟨0, rfl⟩
    · exact ⟨k.x, rfl⟩
  -- The NUL is stored behind what a short read brought.
  by_cases hpos : 0 < r ∧ r < n
  · have hrlen : r.toNat = got.bytes.length := by omega
    have hroom' : k₁.Room (q.add got.bytes.length) [(0 : UInt8)].length := by
      rw [← hk₁, room_put, room_afterRead]
      refine Room.add (hroom.mono ?_)
      rw [List.length_singleton]
      omega
    obtain ⟨x, hx⟩ := hx (k₁.put (q.add got.bytes.length) [0])
    rw [if_pos hpos, hrlen, store_of_room hroom']
    refine ⟨[0], x, ?_, (if_pos hpos).symm⟩
    exact congrArg (fun k' => (.ok (_, k') : Except Fault (Read × Kws))) (hx.trans (hfill [0] x))
  · obtain ⟨x, hx⟩ := hx k₁
    rw [if_neg hpos]
    refine ⟨[], x, ?_, (if_neg hpos).symm⟩
    have h := hfill [] x
    rw [put_nil] at h
    exact congrArg (fun k' => (.ok (_, k') : Except Fault (Read × Kws))) (hx.trans h)

/-- A read with nothing left over from earlier ones turns to the transport. -/
theorem rawRead_eq (hu : k.unprocessedBufferLen = 0) (hroom : k.Room q n) (b : ℤ) :
    ∃ tail x, k.rawRead q n b = .ok (readOf (k.transportRead n b) b,
      k.filled q ((k.transportRead n b).bytes ++ tail) x
        (k.transportRead n b).sslIoError (k.transportRead n b).reads) :=
  (rawRead_tail hu hroom b).imp fun _ => Exists.imp fun _ => And.left

/-- It returns what the transport gave, or `-1` where the wait took too long. -/
theorem rawRead_transport (hu : k.unprocessedBufferLen = 0) (hroom : k.Room q n) (b : ℤ) :
    ∃ read tail x, k.rawRead q n b = .ok (read, k.filled q ((k.transportRead n b).bytes ++ tail) x
        (k.transportRead n b).sslIoError (k.transportRead n b).reads) ∧
      (read.ret = -1 ∨ read.ret = (k.transportRead n b).r) := by
  obtain ⟨tail, x, hread⟩ := rawRead_eq hu hroom b
  refine ⟨_, tail, x, hread, ?_⟩
  change (if Late _ b then (-1 : ℤ) else _) = -1 ∨ (if Late _ b then (-1 : ℤ) else _) = _
  split_ifs
  · exact .inl rfl
  · exact .inr rfl

/-- With nothing left over, what is to be delivered is on the wire. -/
theorem incoming_of_empty (hu : k.unprocessedBufferLen = 0) : k.incoming = wire k.world.reads := by
  rw [incoming, unprocessed, hu, Mem.read_zero, List.nil_append]

theorem incoming_filled (hu : k.unprocessedBufferLen = 0) (q : Ptr) (bs : List UInt8) (x : ℕ)
    (io : Bool) (rs : List ReadEvent) : (k.filled q bs x io rs).incoming = wire rs := by
  have hu' : (k.filled q bs x io rs).unprocessedBufferLen = 0 := by
    cases q <;> exact hu
  exact incoming_of_empty hu'

/-- Bytes of the transport are taken into the receive buffer. -/
theorem took_filled {bs tail : List UInt8} {x : ℕ} {io : Bool} {rs : List ReadEvent}
    (hu : k.unprocessedBufferLen = 0) (hwire : bs ++ wire rs = wire k.world.reads) :
    k.Took (k.filled (.buffer off) (bs ++ tail) x io rs) off bs.length := by
  have hin : k.incoming = bs ++ wire rs := (incoming_of_empty hu).trans hwire.symm
  refine ⟨?_, ?_, fun i hi => Mem.write_apply_of_lt hi, ?_, rfl⟩
  · rw [hin, List.length_append]
    exact Nat.le_add_right _ _
  · rw [hin, List.take_left]
    exact read_write_prefix _ _ _ _
  · rw [hin, List.drop_left, incoming_filled hu]

/-- A read of what is left over. -/
theorem rawRead_leftover (hu : 0 < k.unprocessedBufferLen) (hroom : k.Room q n) (b : ℤ) :
    ∃ c up ul, c ≤ n ∧ c ≤ k.unprocessedBufferLen ∧ ul = k.unprocessedBufferLen - c ∧
      (ul = 0 ∨ c = n) ∧ (ul = 0 ∨ up = k.unprocessedPosition + c) ∧
      k.rawRead q n b = .ok (⟨c, k.unprocessed.take c⟩, { k.put q (k.unprocessed.take c) with
        unprocessedPosition := up
        unprocessedBufferLen := ul }) := by
  rw [rawRead, if_pos hu]
  by_cases hn : n < k.unprocessedBufferLen
  · have hread : k.unprocessed.take n = k.buffer.read k.unprocessedPosition n :=
      Mem.take_read _ _ _ _ (Nat.le_of_lt hn)
    have hroom' : k.Room q (k.buffer.read k.unprocessedPosition n).length := by
      rwa [Mem.length_read]
    refine ⟨n, k.unprocessedPosition + n, _, Nat.le_refl n, Nat.le_of_lt hn, rfl,
      .inr rfl, .inr rfl, ?_⟩
    simp only [if_pos hn, hread, store_of_room hroom', bind, Except.bind]
    cases q <;> exact if_pos hn
  · have hread : k.unprocessed.take k.unprocessedBufferLen =
        k.buffer.read k.unprocessedPosition k.unprocessedBufferLen :=
      Mem.take_read _ _ _ _ (Nat.le_refl _)
    have hroom' : k.Room q (k.buffer.read k.unprocessedPosition k.unprocessedBufferLen).length := by
      rw [Mem.length_read]
      exact hroom.mono (by omega)
    refine ⟨k.unprocessedBufferLen, 0, 0, by omega, Nat.le_refl _, (Nat.sub_self _).symm,
      .inl rfl, .inl rfl, ?_⟩
    simp only [if_neg hn, hread, store_of_room hroom', bind, Except.bind]
    cases q <;> exact if_neg hn

/-- What is still to come in, once `c` of the bytes left over have been stored out of
    the way of the others. -/
theorem incoming_leftover {up ul : ℕ} (hc : c ≤ k.unprocessedBufferLen)
    (hul : ul = k.unprocessedBufferLen - c) (hup : ul = 0 ∨ up = k.unprocessedPosition + c)
    (hq : ∀ off, q = .buffer off → off ≤ k.unprocessedPosition) :
    incoming { k.put q (k.unprocessed.take c) with
      unprocessedPosition := up
      unprocessedBufferLen := ul } = k.incoming.drop c := by
  have hlen : k.unprocessed.length = k.unprocessedBufferLen := Mem.length_read _ _ _
  have hrest : k.buffer.read up ul = k.unprocessed.drop c := by
    rw [unprocessed, Mem.drop_read _ _ _ _ hc, ← hul]
    rcases hup with h0 | rfl
    · rw [h0, Mem.read_zero, Mem.read_zero]
    · rfl
  have hread : (k.put q (k.unprocessed.take c)).buffer.read up ul = k.unprocessed.drop c := by
    cases q with
    | buffer off =>
      rw [← hrest]
      rcases hup with h0 | rfl
      · rw [h0, Mem.read_zero, Mem.read_zero]
      · refine Mem.read_write_of_disjoint (.inr ?_)
        have := hq off rfl
        rw [List.length_take]
        omega
    | bbuffer off => exact hrest
    | caller => exact hrest
  rw [incoming, incoming, List.drop_append_of_le_length (by omega), ← hread]
  rw [unprocessed, world_put]

/-- Bytes left over are taken to the front of the same buffer, where they do not lie in the way. -/
theorem took_leftover {up ul : ℕ} (hc : c ≤ k.unprocessedBufferLen)
    (hul : ul = k.unprocessedBufferLen - c) (hup : ul = 0 ∨ up = k.unprocessedPosition + c)
    (hoff : off ≤ k.unprocessedPosition) :
    k.Took { k.put (.buffer off) (k.unprocessed.take c) with
      unprocessedPosition := up
      unprocessedBufferLen := ul } off c := by
  have hlen : k.unprocessed.length = k.unprocessedBufferLen := Mem.length_read _ _ _
  have hlen' : (k.unprocessed.take c).length = c := by
    rw [List.length_take, hlen, Nat.min_eq_left hc]
  have htake : k.incoming.take c = k.unprocessed.take c := by
    rw [incoming, List.take_append_of_le_length (by omega)]
  refine ⟨?_, ?_, fun i hi => Mem.write_apply_of_lt hi, ?_, rfl⟩
  · rw [incoming, List.length_append]
    omega
  · rw [htake]
    have h := Mem.read_write_self k.buffer off (k.unprocessed.take c)
    rwa [hlen'] at h
  · refine incoming_leftover hc hul hup fun off' h => ?_
    obtain rfl := Ptr.buffer.inj h
    exact hoff

/-! ## Reads into the body buffer -/

theorem drew_filled {bs tail : List UInt8} {x : ℕ} {io : Bool} {rs : List ReadEvent}
    (hu : k.unprocessedBufferLen = 0) (hwire : bs ++ wire rs = wire k.world.reads) :
    Drew bbuffer buffer k (k.filled (.bbuffer off) (bs ++ tail) x io rs) off bs.length := by
  have hk : k.incoming = bs ++ wire rs := (incoming_of_empty hu).trans hwire.symm
  refine ⟨?_, ?_, fun i hi => Mem.write_apply_of_lt hi, ?_, rfl⟩
  · rw [hk, List.length_append]
    exact Nat.le_add_right _ _
  · rw [hk, List.take_left]
    exact read_write_prefix _ _ _ _
  · rw [hk, List.drop_left]
    exact incoming_filled hu _ _ _ _ _

/-- Bytes left over are taken into the body. -/
theorem drew_leftover {up ul : ℕ} (hc : c ≤ k.unprocessedBufferLen)
    (hul : ul = k.unprocessedBufferLen - c) (hup : ul = 0 ∨ up = k.unprocessedPosition + c) :
    Drew bbuffer buffer k { k.put (.bbuffer off) (k.unprocessed.take c) with
      unprocessedPosition := up
      unprocessedBufferLen := ul } off c := by
  have hlen : k.unprocessed.length = k.unprocessedBufferLen := Mem.length_read _ _ _
  have hlen' : (k.unprocessed.take c).length = c := by
    rw [List.length_take, hlen, Nat.min_eq_left hc]
  refine ⟨?_, ?_, fun i hi => Mem.write_apply_of_lt hi, ?_, rfl⟩
  · rw [incoming, List.length_append]
    omega
  · rw [incoming, List.take_append_of_le_length (by omega)]
    have h := Mem.read_write_self k.bbuffer off (k.unprocessed.take c)
    rwa [hlen'] at h
  · exact incoming_leftover hc hul hup fun off' h => by cases h

/-- What is read into the body buffer are the next bytes to come in, wherever those left
    over are. -/
theorem rawRead_body (hroom : k.Room (.bbuffer off) n) (b : ℤ) :
    Ends (fun _ => True) (fun p : Read × Kws => p.2.buffer = k.buffer ∧
      (0 ≤ p.1.ret → Drew bbuffer buffer k p.2 off p.1.ret.toNat)) (k.rawRead (.bbuffer off) n b) := by
  by_cases hu : 0 < k.unprocessedBufferLen
  · obtain ⟨c, up, ul, -, hc, hul, -, hup, hread⟩ := rawRead_leftover hu hroom b
    exact .of_ok hread ⟨rfl, fun _ => drew_leftover hc hul hup⟩
  · obtain ⟨hwire, -, hr⟩ := k.transportRead_spec n b
    obtain ⟨read, tail, x, hread, hret⟩ := rawRead_transport (Nat.eq_zero_of_not_pos hu) hroom b
    refine .of_ok hread ⟨rfl, fun (h0 : 0 ≤ read.ret) => ?_⟩
    have hlen : read.ret.toNat = (k.transportRead n b).bytes.length := by
      rcases hr with h | h
      · omega
      · rw [h.2, List.length_nil]
        omega
    dsimp only
    rw [hlen]
    exact drew_filled (Nat.eq_zero_of_not_pos hu) hwire

/-- A read into the body leaves the receive buffer alone. -/
theorem stringRead_body (hroom : k.Room (.bbuffer off) (n + 1)) (hn : 0 < n) (b : ℤ) :
    Ends (fun _ => True) (fun p : Read × Kws => p.2.buffer = k.buffer ∧
      (0 ≤ p.1.ret → Drew bbuffer buffer k p.2 off p.1.ret.toNat))
      (k.stringRead (.bbuffer off) (n + 1) b) := by
  rw [stringRead_eq hn hroom]
  refine (rawRead_body ((room_put _).2 (hroom.mono (Nat.le_succ n))) b).imp ?_
  rintro ⟨read, k'⟩ ⟨hbuffer, hdrew⟩
  refine ⟨hbuffer, fun h0 => ?_⟩
  have h := hdrew h0
  exact ⟨h.length, h.bytes, fun i hi => (h.frame i hi).trans (Mem.write_apply_of_lt (by omega)),
    h.rest, h.other⟩

/-! ## Reads that may leave the buffer -/

theorem store_from (k : Kws) (q : Ptr) (bs : List UInt8) :
    Ends (fun _ => True) k.ReadFrom (k.store q bs) := by
  cases q with
  | buffer off =>
    rw [store]
    split_ifs
    · exact readFrom_put k (.buffer off) bs
    · trivial
  | bbuffer off =>
    rw [store]
    split_ifs
    · exact readFrom_put k (.bbuffer off) bs
    · trivial
  | caller => exact .refl k

theorem readFrom_afterRead (k : Kws) (got : Received) : k.ReadFrom (k.afterRead got) :=
  ⟨_, _, _, _, _, _, _, rfl⟩

/-- The end of a read returns what the transport gave, or `-1`. -/
theorem endRead_from (k : Kws) (q : Ptr) (n : ℕ) (b : ℤ) (got : Received) :
    Ends (fun _ => True) (fun p : Read × Kws => k.ReadFrom p.2 ∧ (p.1.ret = -1 ∨ p.1.ret = got.r))
      (k.endRead q n b got) := by
  rw [endRead]
  generalize hr : (if 10000 ≤ k.x ∨ b ≠ 0 ∧ b.tdiv 10 ≤ k.x then -1 else got.r) = r
  have hret : r = -1 ∨ r = got.r := by
    rw [← hr]
    split_ifs
    · exact .inl rfl
    · exact .inr rfl
  have hend (k₁ : Kws) (hk₁ : k.ReadFrom k₁) :
      k.ReadFrom (if 0 ≤ r then { k₁ with x := 0 } else k₁) ∧ (r = -1 ∨ r = got.r) := by
    refine ⟨?_, hret⟩
    split_ifs
    · exact hk₁.trans ⟨_, _, _, _, _, _, _, rfl⟩
    · exact hk₁
  by_cases h : 0 < r ∧ r < n
  · rw [if_pos h]
    exact (store_from k _ _).bind hend
  · rw [if_neg h]
    exact hend k (.refl k)

/-- `kws_raw_read`, whatever it returns. -/
theorem rawRead_from (k : Kws) (q : Ptr) (n : ℕ) (b : ℤ) :
    Ends (fun _ => True) (fun p : Read × Kws => k.ReadFrom p.2 ∧ p.1.ret ≤ n)
      (k.rawRead q n b) := by
  rw [rawRead]
  split_ifs with hu hn
  · refine (store_from k q _).bind fun k₁ hk₁ => ?_
    split_ifs
    · exact ⟨hk₁.trans ⟨_, _, _, _, _, _, _, rfl⟩, Int.le_refl _⟩
    · exact ⟨hk₁.trans ⟨_, _, _, _, _, _, _, rfl⟩, Int.le_refl _⟩
  · have hle : (k.unprocessedBufferLen : ℤ) ≤ n := Int.ofNat_le.2 (Nat.not_lt.1 hn)
    refine (store_from k q _).bind fun k₁ hk₁ => ?_
    split_ifs
    · exact ⟨hk₁.trans ⟨_, _, _, _, _, _, _, rfl⟩, hle⟩
    · exact ⟨hk₁.trans ⟨_, _, _, _, _, _, _, rfl⟩, hle⟩
  · obtain ⟨-, -, hr⟩ := k.transportRead_spec n b
    dsimp only
    generalize k.transportRead n b = got at hr ⊢
    refine (store_from (k.afterRead got) q got.bytes).bind fun k₁ hk₁ => ?_
    refine (endRead_from k₁ q n b got).imp ?_
    rintro ⟨read, k₂⟩ ⟨hk₂, hret⟩
    exact ⟨(readFrom_afterRead k got).trans (hk₁.trans hk₂), by omega⟩

/-- `kws_string_read` leaves the last byte to the NUL. -/
theorem stringRead_from (k : Kws) (q : Ptr) (n : ℕ) (b : ℤ) :
    Ends (fun _ => True) (fun p : Read × Kws => k.ReadFrom p.2 ∧ p.1.ret ≤ (n - 1 : ℕ))
      (k.stringRead q n b) := by
  rw [stringRead]
  split_ifs
  · exact ⟨.refl k, show (-1 : ℤ) ≤ _ by omega⟩
  · exact (store_from k _ _).bind fun k₁ hk₁ => ⟨hk₁, Int.natCast_nonneg _⟩
  · refine (store_from k _ _).bind fun k₁ hk₁ => ?_
    exact (rawRead_from k₁ q _ b).imp fun _ h => ⟨hk₁.trans h.1, h.2⟩

/-- The loop of `kws_raw_read_blocking`: induction on the fuel. -/
theorem rawReadBlockingLoop_from (q : Ptr) (l retries f : ℕ) (k : Kws) (t z : ℕ) :
    Ends (fun _ => True) (fun p : ℤ × Kws => k.ReadFrom p.2)
      (rawReadBlockingLoop q l retries f k t z) := by
  induction f generalizing k t z with
  | zero => trivial
  | succ f ih =>
    rw [rawReadBlockingLoop]
    split_ifs
    · refine (rawRead_from k _ _ _).bind ?_
      rintro ⟨read, k₁⟩ ⟨hk₁, -⟩
      dsimp only
      split_ifs
      · exact (ih _ _ _).imp fun _ h => hk₁.trans h
      · exact hk₁
      · exact (ih _ _ _).imp fun _ h => hk₁.trans h
    · exact ReadFrom.refl k

theorem stringReadBlocking_from (k : Kws) (q : Ptr) (n retries : ℕ) :
    Ends (fun _ => True) (fun p : ℤ × Kws => k.ReadFrom p.2)
      (k.stringReadBlocking q n retries) := by
  rw [stringReadBlocking]
  split_ifs
  · exact ReadFrom.refl k
  · exact (store_from k _ _).bind fun k₁ hk₁ => hk₁
  · refine (store_from k _ _).bind fun k₁ hk₁ => ?_
    exact (rawReadBlockingLoop_from q _ _ _ k₁ 0 0).imp fun _ h => hk₁.trans h

/-! ## Reads in bounds -/

/-- A read does not leave the buffer. -/
theorem rawRead_spec (hroom : k.Room q n) (b : ℤ) :
    ∃ read k', k.rawRead q n b = .ok (read, k') ∧ k.ReadFrom k' ∧ read.ret ≤ n ∧
      k.Past k' n ∧ k'.inputSize ≤ k.inputSize ∧ (0 < read.ret → k'.inputSize < k.inputSize) ∧
      (∀ off, q = .buffer off → (k.unprocessedBufferLen = 0 ∨ off ≤ k.unprocessedPosition) →
        0 ≤ read.ret → k.Took k' off read.ret.toNat) := by
  -- The bytes left over are read first, and the transport only without them.
  by_cases hu : 0 < k.unprocessedBufferLen
  · obtain ⟨c, up, ul, hcn, hc, hul, hall, hup, hread⟩ := rawRead_leftover hu hroom b
    have hworld : (k.put q (k.unprocessed.take c)).world = k.world := world_put _ _ _
    have hsize : inputSize { k.put q (k.unprocessed.take c) with
        unprocessedPosition := up
        unprocessedBufferLen := ul } + c = k.inputSize := by
      simp only [inputSize, hworld]
      omega
    refine ⟨_, _, hread, ?_, by simpa using hcn, ⟨?_, fun h => absurd h (by omega)⟩, by omega,
      fun h => ?_, ?_⟩
    · refine (k.readFrom_put q (k.unprocessed.take c)).trans ?_
      exact ⟨_, _, _, _, up, ul, _, rfl⟩
    · rcases hall with h | h
      · exact .inl h
      · exact hup.imp_right fun h' => by dsimp only; omega
    · have h : (0 : ℤ) < c := h
      omega
    · rintro off rfl hoff -
      exact took_leftover hc hul hup (hoff.resolve_left (by omega))
  · have hu : k.unprocessedBufferLen = 0 := by omega
    obtain ⟨hwire, hsize, hr⟩ := k.transportRead_spec n b
    obtain ⟨read, tail, x, hread, hret⟩ := rawRead_transport hu hroom b
    have hin (bs : List UInt8) (x : ℕ) (io : Bool) (rs : List ReadEvent) :
        (k.filled q bs x io rs).inputSize = readSize rs + 1 := by
      rw [inputSize]
      cases q <;> exact congrArg (· + 1) ((congrArg (· + readSize rs) hu).trans (Nat.zero_add _))
    have hk : k.inputSize = readSize k.world.reads + 1 := by
      rw [inputSize, hu, Nat.zero_add]
    have hu' (bs : List UInt8) (x : ℕ) (io : Bool) (rs : List ReadEvent) :
        (k.filled q bs x io rs).unprocessedBufferLen = 0 := by
      cases q <;> exact hu
    refine ⟨read, _, hread, k.readFrom_filled _ _ _ _ _, by omega,
      ⟨.inl (hu' _ _ _ _), fun _ => hu' _ _ _ _⟩, ?_, fun h => ?_, ?_⟩
    · rw [hin, hk]
      omega
    · rw [hin, hk]
      omega
    · rintro off rfl - h0
      have hlen : read.ret.toNat = (k.transportRead n b).bytes.length := by
        rcases hr with h | h
        · omega
        · rw [h.2, List.length_nil]
          omega
      rw [hlen]
      exact took_filled hu hwire

/-- A store behind the bytes to read, and in front of those left over. -/
theorem Took.of_put {z : UInt8} (h : (k.put (.buffer (off + n)) [z]).Took k' off c)
    (hu : k.unprocessedBufferLen = 0 ∨ off + n < k.unprocessedPosition) : k.Took k' off c := by
  have hin : (k.put (.buffer (off + n)) [z]).incoming = k.incoming := by
    have hread : (k.buffer.write (off + n) [z]).read k.unprocessedPosition k.unprocessedBufferLen =
        k.buffer.read k.unprocessedPosition k.unprocessedBufferLen := by
      rcases hu with h0 | h'
      · rw [h0, Mem.read_zero, Mem.read_zero]
      · exact Mem.read_write_of_disjoint (.inr (by rw [List.length_singleton]; omega))
    exact congrArg (· ++ wire k.world.reads) hread
  refine ⟨by rw [← hin]; exact h.length, by rw [← hin]; exact h.bytes, fun i hi => ?_,
    by rw [← hin]; exact h.rest, h.other⟩
  exact (h.frame i hi).trans (Mem.write_apply_of_lt (by omega))

theorem inputSize_put (k : Kws) (p : Ptr) (bs : List UInt8) : (k.put p bs).inputSize = k.inputSize := by
  cases p <;> rfl

/-- `kws_string_read` with room for its bytes does not fault, and each byte it returns makes the
    input shorter. -/
theorem stringRead_spec (hroom : k.Room q (n + 1)) (hn : 0 < n) (b : ℤ) :
    ∃ read k', k.stringRead q (n + 1) b = .ok (read, k') ∧ k.ReadFrom k' ∧ read.ret ≤ n ∧
      k.Past k' n ∧ k'.inputSize ≤ k.inputSize ∧ (0 < read.ret → k'.inputSize < k.inputSize) ∧
      (∀ off, q = .buffer off →
        (k.unprocessedBufferLen = 0 ∨ off + n < k.unprocessedPosition) →
        0 ≤ read.ret → k.Took k' off read.ret.toNat) := by
  rw [stringRead_eq hn hroom]
  obtain ⟨read, k', hread, hfrom, hret, hpast, hle, hlt, htook⟩ :=
    rawRead_spec (k := k.put (q.add n) [0]) ((room_put _).2 (hroom.mono (Nat.le_succ n))) b
  rw [inputSize_put] at hle hlt
  refine ⟨read, k', hread, (k.readFrom_put _ _).trans hfrom, hret, ?_, hle, hlt, ?_⟩
  · cases q <;> exact ⟨hpast.place, hpast.empty⟩
  rintro off rfl hu h0
  exact (htook off rfl (hu.imp_right fun h => show off ≤ k.unprocessedPosition by omega) h0).of_put hu

/-- The blocking loop ends, inside the buffer. -/
theorem rawReadBlockingLoop_spec {l f t z : ℕ} (retries : ℕ)
    (hfuel : (l - t) * (retries + 1) + (retries - z) < f) (ht : t ≤ l)
    (hroom : k.Room (q.add t) (l - t)) :
    ∃ (m : ℕ) (k' : Kws), rawReadBlockingLoop q l retries f k t z = .ok ((m : ℤ), k') ∧
      k.ReadFrom k' ∧ m ≤ l ∧ k.Past k' 0 ∧ k'.inputSize ≤ k.inputSize ∧
      (∀ off, q = .buffer off → (k.unprocessedBufferLen = 0 ∨ off + t ≤ k.unprocessedPosition) →
        m = l → k.Took k' (off + t) (l - t)) := by
  induction f generalizing k t z with
  | zero => omega
  | succ f ih =>
    rw [rawReadBlockingLoop]
    by_cases hcond : t < l ∧ z < retries
    · obtain ⟨read, k₁, hread, hfrom, hret, hpast, hle, hlt, htook⟩ := rawRead_spec hroom wsBlock
      rw [if_pos hcond, hread]
      simp only [bind, Except.bind]
      have hroom₁ := hfrom.room.2 hroom
      -- The read failed; nothing came, and one try is gone; some came, and the tries start anew.
      rcases lt_trichotomy read.ret 0 with hneg | h0 | hpos
      · rw [if_neg (by omega), if_pos hneg]
        refine ⟨t, k₁, rfl, hfrom, ht, hpast.mono (Nat.zero_le _), hle, ?_⟩
        rintro off rfl hu rfl
        exact absurd hcond.1 (Nat.lt_irrefl _)
      · obtain ⟨m, k', hloop, hfrom', hm, hpast', hle', htook'⟩ :=
          ih (k := k₁) (t := t) (z := z + 1) (by omega) ht hroom₁
        rw [if_pos h0]
        refine ⟨m, k', hloop, hfrom.trans hfrom', hm, (hpast.mono (Nat.zero_le _)).trans hpast',
          Nat.le_trans hle' hle, ?_⟩
        rintro off rfl hu hml
        have h₁ := htook (off + t) rfl hu (Int.le_of_eq h0.symm)
        rw [h0] at h₁
        have hu₁ : k₁.unprocessedBufferLen = 0 ∨ off + t + 0 ≤ k₁.unprocessedPosition :=
          hpast.next (Nat.zero_le _) hu
        have h₂ := h₁.trans (htook' off rfl hu₁ hml)
        rwa [Int.toNat_zero, Nat.zero_add] at h₂
      · obtain ⟨c, hc⟩ := Int.eq_ofNat_of_zero_le (Int.le_of_lt hpos)
        have hmul : (l - (t + c)) * (retries + 1) + (retries + 1) ≤ (l - t) * (retries + 1) := by
          rw [← Nat.succ_mul]
          exact Nat.mul_le_mul_right _ (by omega)
        have hroom₂ : k₁.Room (q.add (t + c)) (l - (t + c)) := by
          have h : k₁.Room (q.add t) (c + (l - (t + c))) :=
            hroom₁.mono (by omega)
          rw [← Ptr.add_add]
          exact h.add
        obtain ⟨m, k', hloop, hfrom', hm, hpast', hle', htook'⟩ :=
          ih (k := k₁) (t := t + c) (z := 0) (by omega) (by omega) hroom₂
        rw [if_neg (by omega), if_neg (by omega), hc, Int.toNat_natCast]
        refine ⟨m, k', hloop, hfrom.trans hfrom', hm, (hpast.mono (Nat.zero_le _)).trans hpast',
          Nat.le_trans hle' hle, ?_⟩
        rintro off rfl hu hml
        have h₁ := htook (off + t) rfl hu (Int.le_of_lt hpos)
        rw [hc, Int.toNat_natCast] at h₁
        have h₂ := h₁.trans (by
          rw [Nat.add_assoc]
          exact htook' off rfl (by rw [← Nat.add_assoc]; exact hpast.next (by omega) hu) hml)
        rwa [show c + (l - (t + c)) = l - t by omega] at h₂
    · rw [if_neg hcond]
      refine ⟨t, k, rfl, .refl k, ht, .refl k, Nat.le_refl _, ?_⟩
      rintro off rfl hu rfl
      rw [Nat.sub_self]
      exact .refl k _

/-- `kws_string_read_blocking` with room for its bytes does not fault. -/
theorem stringReadBlocking_spec (hroom : k.Room q (n + 1)) (hn : 0 < n) (retries : ℕ) :
    ∃ (m : ℕ) (k' : Kws), k.stringReadBlocking q (n + 1) retries = .ok ((m : ℤ), k') ∧
      k.ReadFrom k' ∧ m ≤ n ∧ k.Past k' 0 ∧ k'.inputSize ≤ k.inputSize ∧
      (∀ off, q = .buffer off →
        (k.unprocessedBufferLen = 0 ∨ off + n < k.unprocessedPosition) → m = n → k.Took k' off n) := by
  rw [stringReadBlocking, if_neg (by omega), Nat.add_sub_cancel, store_of_room (Room.add hroom)]
  simp only [bind, Except.bind]
  rw [if_neg (by omega), rawReadBlocking]
  obtain ⟨m, k', hloop, hfrom, hm, hpast, hle, htook⟩ := rawReadBlockingLoop_spec
    (k := k.put (q.add n) [0]) (q := q) (l := n) (t := 0) (z := 0)
    (f := (n + 1) * (retries + 1)) retries (by rw [Nat.sub_zero, Nat.succ_mul]; omega) (Nat.zero_le n)
    ((room_put _).2 (by rw [Ptr.add_zero]; exact hroom.mono (Nat.le_succ n)))
  rw [inputSize_put] at hle
  refine ⟨m, k', hloop, (k.readFrom_put _ _).trans hfrom, hm, ?_, hle, ?_⟩
  · cases q <;> exact ⟨hpast.place, hpast.empty⟩
  · rintro off rfl hu hmn
    exact (htook off rfl (hu.imp_right fun h => show off + 0 ≤ k.unprocessedPosition by omega)
      hmn).of_put hu

end Kws

end Libks
