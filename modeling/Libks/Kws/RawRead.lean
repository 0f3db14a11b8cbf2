import Libks.Kws.State

/-!
# Reads that get data

What the reading functions do while the transport has bytes to deliver: they
store the next of them and take them off the transport (`rawRead_data`,
`stringRead_data`), and the blocking read stores as many as it was asked for
(`stringReadBlocking_data`).
-/

namespace Libks

open Base

@[simp] theorem Ptr.add_zero (p : Ptr) : p.add 0 = p := by
  cases p <;> rfl

theorem Ptr.add_add (p : Ptr) (n m : ℕ) : (p.add n).add m = p.add (n + m) := by
  cases p <;> simp only [Ptr.add, Nat.add_assoc]

namespace Kws

variable {k : Kws} {q : Ptr} {bs cs : List UInt8} {n off : ℕ} {b : ℤ}

/-! ## Stores in bounds -/

/-- The connection with `bs` stored at `p`. -/
def put (k : Kws) (p : Ptr) (bs : List UInt8) : Kws :=
  match p with
  | .buffer off => { k with buffer := k.buffer.write off bs }
  | .bbuffer off => { k with bbuffer := k.bbuffer.write off bs }
  | .caller => k

/-- There is room for `n` bytes at `p`. -/
def Room (k : Kws) (p : Ptr) (n : ℕ) : Prop :=
  match p with
  | .buffer off => off + n ≤ k.buflen
  | .bbuffer off => off + n ≤ k.bbuflen
  | .caller => True

/-- A store with room for its bytes is in bounds. -/
theorem store_of_room (h : k.Room q bs.length) : k.store q bs = .ok (k.put q bs) := by
  cases q with
  | buffer off => exact if_pos h
  | bbuffer off => exact if_pos h
  | caller => rfl

/-- Room for more bytes is room for fewer. -/
theorem Room.mono {m : ℕ} (h : k.Room q n) (hm : m ≤ n) : k.Room q m := by
  cases q with
  | buffer off => exact Nat.le_trans (Nat.add_le_add_left hm _) h
  | bbuffer off => exact Nat.le_trans (Nat.add_le_add_left hm _) h
  | caller => trivial

/-- Behind the first bytes there is room for the rest. -/
theorem Room.add {m : ℕ} (h : k.Room q (n + m)) : k.Room (q.add n) m := by
  cases q with
  | buffer off => exact (Nat.add_assoc off n m).trans_le h
  | bbuffer off => exact (Nat.add_assoc off n m).trans_le h
  | caller => trivial

/-- A store leaves the room as it is. -/
theorem room_put (p : Ptr) : (k.put p bs).Room q n ↔ k.Room q n := by
  cases p <;> cases q <;> rfl

/-- Two stores, one behind the other, are one. -/
theorem put_put (k : Kws) (p : Ptr) (bs cs : List UInt8) :
    (k.put p bs).put (p.add bs.length) cs = k.put p (bs ++ cs) := by
  cases p with
  | buffer off => simp only [put, Ptr.add, Mem.write_write]
  | bbuffer off => simp only [put, Ptr.add, Mem.write_write]
  | caller => rfl

@[simp] theorem put_nil (k : Kws) (p : Ptr) : k.put p [] = k := by
  cases p <;> simp only [put, Mem.write_nil]

@[simp] theorem x_put (k : Kws) (p : Ptr) (bs : List UInt8) : (k.put p bs).x = k.x := by
  cases p <;> rfl

@[simp] theorem world_put (k : Kws) (p : Ptr) (bs : List UInt8) :
    (k.put p bs).world = k.world := by
  cases p <;> rfl

@[simp] theorem sslIoError_put (k : Kws) (p : Ptr) (bs : List UInt8) :
    (k.put p bs).sslIoError = k.sslIoError := by
  cases p <;> rfl

@[simp] theorem ssl_put (k : Kws) (p : Ptr) (bs : List UInt8) : (k.put p bs).ssl = k.ssl := by
  cases p <;> rfl

/-- A store and what a read leaves behind do not meet. -/
theorem put_afterRead (k : Kws) (got : Received) (p : Ptr) (bs : List UInt8) :
    (k.afterRead got).put p bs = (k.put p bs).afterRead got := by
  cases p <;> rfl

theorem room_afterRead (got : Received) : (k.afterRead got).Room q n ↔ k.Room q n := by
  cases q <;> rfl

/-! ## Reads -/

/-- A read from the transport that gets its data at once does not wait too long. -/
def Patient (k : Kws) (b : ℤ) : Prop :=
  k.x + 1 < 10000 ∧ (b ≠ 0 → (k.x + 1 : ℤ) < b.tdiv 10)

/-- With a fresh counter, a read that does not block, or blocks for `WS_BLOCK`, is in time. -/
theorem patient_of_x (hx : k.x = 0) (hb : b = 0 ∨ b = wsBlock) : k.Patient b := by
  refine ⟨by omega, fun h => ?_⟩
  rw [hb.resolve_left h, hx]
  decide

/-- The connection after `r` bytes were taken off the transport. -/
def delivered (k : Kws) (r : ℕ) : Kws :=
  { k with x := 0, world := { k.world with reads := after r k.world.reads } }

/-- How many of `n` bytes asked for the next read gets. -/
def chunk (k : Kws) (n : ℕ) : ℕ := min (requestSize n) (headLength k.world.reads)

/-- What a read of `r` bytes stores where there is room for `n`: the bytes,
    terminated if they do not fill the room. -/
def stored (k : Kws) (r n : ℕ) : List UInt8 :=
  (avail k.world.reads).take r ++ if r < n then [0] else []

/-- A chunk has no more bytes than are asked for. -/
theorem chunk_le (k : Kws) (n : ℕ) : k.chunk n ≤ n :=
  Nat.le_trans (Nat.min_le_left _ _) (requestSize_le n)

/-- A chunk has no more bytes than there are. -/
theorem chunk_le_avail (k : Kws) (n : ℕ) : k.chunk n ≤ (avail k.world.reads).length :=
  Nat.le_trans (Nat.min_le_right _ _) (headLength_le _)

/-- As long as there is something to deliver, a read gets something. -/
theorem chunk_pos (hne : NonEmpty k.world.reads) (ha : avail k.world.reads ≠ [])
    (hn : Asks k.ssl n) : 0 < k.chunk n :=
  Nat.lt_min.2 ⟨hn.2, headLength_pos hne ha⟩

/-- A chunk depends on the transport alone. -/
theorem chunk_congr {k' : Kws} (h : k'.world = k.world) : k'.chunk n = k.chunk n := by
  rw [chunk, chunk, h]

theorem length_take_chunk (k : Kws) (n : ℕ) :
    ((avail k.world.reads).take (k.chunk n)).length = k.chunk n := by
  rw [List.length_take, Nat.min_eq_left (k.chunk_le_avail n)]

/-- The end of a read that has got its bytes in time: it terminates them, if
    they do not fill the room. -/
theorem endRead_data {r : ℕ} {got : Received}
    (hx : ¬(10000 ≤ k.x ∨ b ≠ 0 ∧ b.tdiv 10 ≤ k.x)) (hr : got.r = r) (hpos : 0 < r)
    (hle : r ≤ n) (hroom : k.Room (q.add r) (n - r)) :
    k.endRead q n b got =
      .ok (⟨r, got.bytes⟩, { k.put (q.add r) (if r < n then [0] else []) with x := 0 }) := by
  rw [endRead, if_neg hx, hr, Int.toNat_natCast, if_pos (show (0 : ℤ) < r by omega)]
  by_cases h : r < n
  · rw [if_pos (by omega), if_pos h,
      store_of_room (hroom.mono (by rw [List.length_singleton]; omega))]
    rfl
  · rw [if_neg (by omega), if_neg h, put_nil]
    rfl

/-- The end of a read that has got nothing in time. -/
theorem endRead_zero {got : Received} (hx : ¬(10000 ≤ k.x ∨ b ≠ 0 ∧ b.tdiv 10 ≤ k.x))
    (hr : got.r = 0) : k.endRead q n b got = .ok (⟨0, []⟩, { k with x := 0 }) := by
  rw [endRead, if_neg hx, hr]
  rfl

/-- `kws_raw_read` where data has arrived: the bytes of one chunk, as many as are asked for. -/
theorem rawRead_data (hu : k.unprocessedBufferLen = 0) (hp : k.Patient b)
    (hn : Asks k.ssl n) (hne : NonEmpty k.world.reads) (ha : avail k.world.reads ≠ [])
    (hroom : k.Room q n) :
    k.rawRead q n b =
      .ok (⟨(k.chunk n : ℕ), (avail k.world.reads).take (k.chunk n)⟩,
        (k.put q (k.stored (k.chunk n) n)).delivered (k.chunk n)) := by
  have hlen := k.length_take_chunk n
  have hle := k.chunk_le n
  have hpos := chunk_pos hne ha hn
  have hgot : k.transportRead n b = ⟨(k.chunk n : ℕ), (avail k.world.reads).take (k.chunk n),
      k.x + 1, k.sslIoError, after (k.chunk n) k.world.reads⟩ := by
    have hask := hn.2
    rw [transportRead, if_neg hn.1, if_neg (by omega), receive_data hne ha, chunk]
  have hwait : ¬(10000 ≤ k.x + 1 ∨ b ≠ 0 ∧ b.tdiv 10 ≤ ((k.x + 1 : ℕ) : ℤ)) := by
    rintro (h | ⟨h, h'⟩)
    · exact absurd hp.1 (by omega)
    · have := hp.2 h
      omega
  have hroom' : k.Room (q.add (k.chunk n)) (n - k.chunk n) := by
    refine Room.add ?_
    rwa [Nat.add_sub_cancel' hle]
  simp only [rawRead, hu, Nat.lt_irrefl, if_false, hgot]
  rw [store_of_room ((room_afterRead _).2 (by rw [hlen]; exact hroom.mono hle)), put_afterRead]
  simp only [bind, Except.bind]
  rw [endRead_data hwait rfl hpos hle ((room_afterRead _).2 ((room_put _).2 hroom')), put_afterRead]
  have hput := k.put_put q ((avail k.world.reads).take (k.chunk n))
    (if k.chunk n < n then [0] else [])
  rw [hlen] at hput
  rw [hput]
  simp only [afterRead, delivered, stored, world_put, sslIoError_put]

/-! ## What a read leaves in memory -/

/-- `k'` is `k` with `bs` stored at `p`, and nothing else changed but bytes
    behind `bs`. -/
def Wrote (k k' : Kws) (p : Ptr) (bs : List UInt8) : Prop :=
  match p with
  | .buffer off => ∃ m, k' = { k with buffer := m } ∧ m.read off bs.length = bs ∧
      ∀ i < off, m i = k.buffer i
  | .bbuffer off => ∃ m, k' = { k with bbuffer := m } ∧ m.read off bs.length = bs ∧
      ∀ i < off, m i = k.bbuffer i
  | .caller => k' = k

variable {k₁ k₂ : Kws} {p : Ptr}

/-- The first part of what has been written is read. -/
theorem read_write_prefix (m : Mem) (off : ℕ) (bs cs : List UInt8) :
    (m.write off (bs ++ cs)).read off bs.length = bs := by
  have h := Mem.read_write_self m off (bs ++ cs)
  rw [List.length_append, Mem.read_add] at h
  exact (List.append_inj h (by simp)).1

/-- Bytes that have been stored are there, whatever is stored behind them. -/
theorem wrote_put (k : Kws) (p : Ptr) (bs cs : List UInt8) : k.Wrote (k.put p (bs ++ cs)) p bs := by
  cases p with
  | buffer off => exact ⟨_, rfl, read_write_prefix _ _ _ _, fun i hi => Mem.write_apply_of_lt hi⟩
  | bbuffer off => exact ⟨_, rfl, read_write_prefix _ _ _ _, fun i hi => Mem.write_apply_of_lt hi⟩
  | caller => rfl

/-- A store behind a place has written nothing at it yet. -/
theorem wrote_put_add (k : Kws) (p : Ptr) (n : ℕ) (bs : List UInt8) :
    k.Wrote (k.put (p.add n) bs) p [] := by
  cases p with
  | buffer off => exact ⟨_, rfl, rfl, fun i hi => Mem.write_apply_of_lt (by omega)⟩
  | bbuffer off => exact ⟨_, rfl, rfl, fun i hi => Mem.write_apply_of_lt (by omega)⟩
  | caller => rfl

/-- Two parts, written one behind the other, are read as one. -/
theorem read_of_prefix {m m' : Mem} (h : m.read off bs.length = bs)
    (h' : m'.read (off + bs.length) cs.length = cs) (hm : ∀ i < off + bs.length, m' i = m i) :
    m'.read off (bs ++ cs).length = bs ++ cs := by
  rw [List.length_append, Mem.read_add, h', Mem.read_congr fun i _ hi => hm i hi, h]

/-- Two writes, one behind the other, are one of all the bytes. -/
theorem Wrote.trans (h₁ : k.Wrote k₁ p bs) (h₂ : k₁.Wrote k₂ (p.add bs.length) cs) :
    k.Wrote k₂ p (bs ++ cs) := by
  cases p with
  | buffer off =>
    obtain ⟨m₁, rfl, hr₁, hp₁⟩ := h₁
    obtain ⟨m₂, rfl, hr₂, hp₂⟩ := h₂
    exact ⟨m₂, rfl, read_of_prefix hr₁ hr₂ hp₂,
      fun i hi => (hp₂ i (by omega)).trans (hp₁ i hi)⟩
  | bbuffer off =>
    obtain ⟨m₁, rfl, hr₁, hp₁⟩ := h₁
    obtain ⟨m₂, rfl, hr₂, hp₂⟩ := h₂
    exact ⟨m₂, rfl, read_of_prefix hr₁ hr₂ hp₂,
      fun i hi => (hp₂ i (by omega)).trans (hp₁ i hi)⟩
  | caller => exact h₂.trans h₁

/-- A step that writes nothing may come first. -/
theorem Wrote.of_nil (h₁ : k.Wrote k₁ p []) (h₂ : k₁.Wrote k₂ p bs) : k.Wrote k₂ p bs :=
  h₁.trans (show k₁.Wrote k₂ (p.add ([] : List UInt8).length) bs by
    rwa [List.length_nil, Ptr.add_zero])

/-- A store that comes after bytes were taken off the transport could as well
    have come before. -/
theorem Wrote.of_delivered {r : ℕ} (h : (k.delivered r).Wrote k₂ p bs) :
    ∃ k₁, k₂ = k₁.delivered r ∧ k.Wrote k₁ p bs := by
  cases p with
  | buffer off =>
    obtain ⟨m, rfl, hr, hp⟩ := h
    exact ⟨{ k with buffer := m }, rfl, m, rfl, hr, hp⟩
  | bbuffer off =>
    obtain ⟨m, rfl, hr, hp⟩ := h
    exact ⟨{ k with bbuffer := m }, rfl, m, rfl, hr, hp⟩
  | caller =>
    obtain rfl : k₂ = k.delivered r := h
    exact ⟨k, rfl, rfl⟩

/-- A store changes nothing a read depends on. -/
theorem Wrote.same (h : k.Wrote k₁ p bs) :
    k₁.unprocessedBufferLen = k.unprocessedBufferLen ∧ k₁.x = k.x ∧ k₁.world = k.world ∧
      k₁.ssl = k.ssl ∧ k₁.buflen = k.buflen ∧ k₁.bbuflen = k.bbuflen := by
  cases p with
  | buffer off =>
    obtain ⟨m, rfl, -⟩ := h
    exact ⟨rfl, rfl, rfl, rfl, rfl, rfl⟩
  | bbuffer off =>
    obtain ⟨m, rfl, -⟩ := h
    exact ⟨rfl, rfl, rfl, rfl, rfl, rfl⟩
  | caller =>
    obtain rfl : k₁ = k := h
    exact ⟨rfl, rfl, rfl, rfl, rfl, rfl⟩

/-- What writes within the buffers leaves the room as it is. -/
theorem Wrote.room {p' : Ptr} (h : k.Wrote k₁ p bs) : k₁.Room p' n ↔ k.Room p' n := by
  obtain ⟨-, -, -, -, h₁, h₂⟩ := h.same
  cases p' with
  | buffer off => simp only [Room, h₁]
  | bbuffer off => simp only [Room, h₂]
  | caller => rfl

/-- Bytes are delivered one piece after the other. -/
theorem delivered_delivered (k : Kws) (a b : ℕ) :
    (k.delivered a).delivered b = k.delivered (a + b) := by
  simp only [delivered, after_add]

theorem delivered_zero (hx : k.x = 0) (hne : NonEmpty k.world.reads) : k.delivered 0 = k := by
  simp only [delivered, after_zero hne]
  rw [← hx]

/-- A read to which the transport gives nothing. -/
theorem rawRead_nothing (hu : k.unprocessedBufferLen = 0) (hbs : (k.transportRead n b).bytes = [])
    (hr : (k.transportRead n b).r ≤ 0) (hroom : k.Room q n) :
    ∃ r, (r = -1 ∨ r = (k.transportRead n b).r) ∧
      k.rawRead q n b = .ok (⟨r, []⟩,
        if 0 ≤ r then { k.afterRead (k.transportRead n b) with x := 0 }
        else k.afterRead (k.transportRead n b)) := by
  have hend (k : Kws) (got : Received) (hr : got.r ≤ 0) :
      ∃ r, (r = -1 ∨ r = got.r) ∧
        k.endRead q n b got = .ok (⟨r, []⟩, if 0 ≤ r then { k with x := 0 } else k) := by
    rw [endRead]
    generalize hr' : (if 10000 ≤ k.x ∨ b ≠ 0 ∧ b.tdiv 10 ≤ k.x then -1 else got.r) = r
    have h : r = -1 ∨ r = got.r := by
      rw [← hr']
      split_ifs
      · exact .inl rfl
      · exact .inr rfl
    rw [if_neg (by omega), if_neg (by omega)]
    exact ⟨r, h, rfl⟩
  have hroom' : (k.afterRead (k.transportRead n b)).Room q ([] : List UInt8).length :=
    (room_afterRead _).2 (hroom.mono (Nat.zero_le n))
  simp only [rawRead, hu, Nat.lt_irrefl, if_false, hbs]
  rw [store_of_room hroom', put_nil]
  exact hend _ _ hr

/-- `kws_raw_read` where the transport fails stores nothing. -/
theorem rawRead_failed (hu : k.unprocessedBufferLen = 0) (hbs : (k.transportRead n b).bytes = [])
    (hr : (k.transportRead n b).r < 0) (hroom : k.Room q n) :
    ∃ r, (r = -1 ∨ r = (k.transportRead n b).r) ∧
      k.rawRead q n b = .ok (⟨r, []⟩, k.afterRead (k.transportRead n b)) := by
  obtain ⟨r, h, hread⟩ := rawRead_nothing hu hbs (Int.le_of_lt hr) hroom
  rw [if_neg (by omega)] at hread
  exact ⟨r, h, hread⟩

/-- A read that asks for nothing gets nothing. -/
theorem rawRead_idle (hu : k.unprocessedBufferLen = 0) (hn : ¬Asks k.ssl n)
    (hroom : k.Room q n) (b : ℤ) :
    ∃ r k', k.rawRead q n b = .ok (⟨r, []⟩, k') ∧ r ≤ 0 := by
  have hgot : (k.transportRead n b).bytes = [] ∧ (k.transportRead n b).r ≤ 0 := by
    rw [transportRead]
    by_cases hr : Refused k.ssl n
    · rw [if_pos hr]
      exact ⟨rfl, by simp⟩
    · rw [if_neg hr, if_pos (by by_contra h; exact hn ⟨hr, Nat.pos_of_ne_zero h⟩)]
      exact ⟨rfl, Int.le_refl _⟩
  obtain ⟨r, hr, hread⟩ := rawRead_nothing hu hgot.1 hgot.2 hroom
  exact ⟨r, _, hread, by have := hgot.2; omega⟩

/-- A read that has waited too long loses what it gets. -/
theorem rawRead_impatient (hu : k.unprocessedBufferLen = 0) (hp : ¬k.Patient b)
    (hn : Asks k.ssl n) (hne : NonEmpty k.world.reads) (ha : avail k.world.reads ≠ [])
    (hroom : k.Room q n) :
    ∃ k', k.rawRead q n b = .ok (⟨-1, []⟩, k') := by
  have hgot : k.transportRead n b = ⟨(k.chunk n : ℕ), (avail k.world.reads).take (k.chunk n),
      k.x + 1, k.sslIoError, after (k.chunk n) k.world.reads⟩ := by
    have hask := hn.2
    rw [transportRead, if_neg hn.1, if_neg (by omega), receive_data hne ha, chunk]
  have hwait : 10000 ≤ k.x + 1 ∨ b ≠ 0 ∧ b.tdiv 10 ≤ ((k.x + 1 : ℕ) : ℤ) := by
    by_contra h
    refine hp ⟨by omega, fun hb => ?_⟩
    by_contra h'
    exact h (.inr ⟨hb, by omega⟩)
  have hroom' : (k.afterRead (k.transportRead n b)).Room q
      ((avail k.world.reads).take (k.chunk n)).length := by
    rw [length_take_chunk]
    exact (room_afterRead _).2 (hroom.mono (k.chunk_le n))
  have hx (p : Ptr) (bs : List UInt8) : ((k.afterRead (k.transportRead n b)).put p bs).x = k.x + 1 := by
    rw [x_put, hgot]
    rfl
  simp only [rawRead, hu, Nat.lt_irrefl, if_false]
  rw [hgot] at hroom' hx ⊢
  simp only
  rw [store_of_room hroom']
  simp only [bind, Except.bind]
  rw [endRead, hx, if_pos hwait]
  exact ⟨_, rfl⟩

/-- `kws_raw_read` where data has arrived, by what it writes. -/
theorem rawRead_wrote (hu : k.unprocessedBufferLen = 0) (hp : k.Patient b)
    (hn : Asks k.ssl n) (hne : NonEmpty k.world.reads) (ha : avail k.world.reads ≠ [])
    (hroom : k.Room q n) :
    ∃ k₁, k.Wrote k₁ q ((avail k.world.reads).take (k.chunk n)) ∧
      k.rawRead q n b =
        .ok (⟨(k.chunk n : ℕ), (avail k.world.reads).take (k.chunk n)⟩, k₁.delivered (k.chunk n)) :=
  ⟨_, wrote_put _ _ _ _, rawRead_data hu hp hn hne ha hroom⟩

/-- It gets some bytes, and no more than it asked for. -/
theorem rawRead_some (hu : k.unprocessedBufferLen = 0) (hp : k.Patient b)
    (hn : Asks k.ssl n) (hne : NonEmpty k.world.reads) (ha : avail k.world.reads ≠ [])
    (hroom : k.Room q n) :
    ∃ c k₁, 0 < c ∧ c ≤ n ∧ ((avail k.world.reads).take c).length = c ∧
      k.Wrote k₁ q ((avail k.world.reads).take c) ∧
      k.rawRead q n b = .ok (⟨c, (avail k.world.reads).take c⟩, k₁.delivered c) := by
  obtain ⟨k₁, hk₁, hread⟩ := rawRead_wrote hu hp hn hne ha hroom
  exact ⟨_, k₁, chunk_pos hne ha hn, k.chunk_le n, k.length_take_chunk n, hk₁, hread⟩

/-- A string read is a read behind a store of the last terminator. -/
theorem stringRead_eq (hn : 0 < n) (hroom : k.Room q (n + 1)) (b : ℤ) :
    k.stringRead q (n + 1) b = (k.put (q.add n) [0]).rawRead q n b := by
  rw [stringRead, if_neg (by omega), Nat.add_sub_cancel, store_of_room (Room.add hroom)]
  simp only [bind, Except.bind]
  rw [if_neg (by omega)]

/-- A string read while bytes are about to be delivered. -/
theorem stringRead_data (hu : k.unprocessedBufferLen = 0) (hp : k.Patient b)
    (hn : Asks k.ssl n) (hne : NonEmpty k.world.reads) (ha : avail k.world.reads ≠ [])
    (hroom : k.Room q (n + 1)) :
    ∃ k₁, k.Wrote k₁ q ((avail k.world.reads).take (k.chunk n)) ∧
      k.stringRead q (n + 1) b =
        .ok (⟨(k.chunk n : ℕ), (avail k.world.reads).take (k.chunk n)⟩,
          k₁.delivered (k.chunk n)) := by
  have hw := wrote_put_add k q n [0]
  obtain ⟨hu', hx, hworld, hssl, -⟩ := hw.same
  rw [stringRead_eq (Nat.lt_of_lt_of_le hn.2 (requestSize_le n)) hroom]
  obtain ⟨k₁, hk₁, hr⟩ := rawRead_wrote (hu'.trans hu) (by rwa [Patient, hx]) (by rwa [hssl])
    (by rwa [hworld]) (by rwa [hworld]) (hw.room.2 (hroom.mono (Nat.le_succ n)))
  rw [chunk_congr hworld, hworld] at hk₁ hr
  exact ⟨k₁, hw.of_nil hk₁, hr⟩

/-- `kws_string_read` for a length that asks for nothing gets nothing. -/
theorem stringRead_idle (hu : k.unprocessedBufferLen = 0) (hn : ¬Asks k.ssl n) (hpos : 0 < n)
    (hroom : k.Room q (n + 1)) (b : ℤ) :
    ∃ r k', k.stringRead q (n + 1) b = .ok (⟨r, []⟩, k') ∧ r ≤ 0 := by
  have hw := wrote_put_add k q n [0]
  obtain ⟨hu', -, -, hssl, -⟩ := hw.same
  rw [stringRead_eq hpos hroom]
  exact rawRead_idle (hu'.trans hu) (by rwa [hssl]) (hw.room.2 (hroom.mono (Nat.le_succ n))) b

/-- A string read at the end of the stream. -/
theorem stringRead_end {off : ℕ} (hu : k.unprocessedBufferLen = 0) (hreads : k.world.reads = [])
    (hn : Asks k.ssl n) (hroom : k.Room (.buffer off) (n + 1)) (b : ℤ) :
    ∃ r k₁, (r = -1 ∨ r = 0) ∧ k.stringRead (.buffer off) (n + 1) b = .ok (⟨r, []⟩, k₁) ∧
      k₁.unprocessedBufferLen = 0 ∧ k₁.world.reads = [] ∧ k₁.ssl = k.ssl ∧
      k₁.buflen = k.buflen ∧ k₁.datalen = k.datalen := by
  have hgot : (k.put ((Ptr.buffer off).add n) [0]).transportRead n b =
      ⟨0, [], k.x + 1, k.sslIoError, []⟩ := by
    have hpos := hn.2
    rw [transportRead, ssl_put, if_neg hn.1, if_neg (by omega), world_put, hreads, receive, x_put,
      sslIoError_put]
  obtain ⟨r, hr, hread⟩ := rawRead_nothing (k := k.put ((Ptr.buffer off).add n) [0])
    (q := .buffer off) (n := n) (b := b) hu (by rw [hgot]) (by rw [hgot])
    ((room_put _).2 (hroom.mono (Nat.le_succ n)))
  rw [hgot] at hr hread
  refine ⟨r, _, hr, (stringRead_eq (Nat.lt_of_lt_of_le hn.2 (requestSize_le n)) hroom b).trans hread,
    ?_⟩
  split_ifs
  · exact ⟨hu, rfl, rfl, rfl, rfl⟩
  · exact ⟨hu, rfl, rfl, rfl, rfl⟩

/-- The blocking loop while the bytes it still wants are about to be delivered. -/
theorem rawReadBlockingLoop_data {l retries f t : ℕ} (hr : 0 < retries)
    (hfuel : l - t < f) (hle : t ≤ l) (hmax : l < 2 ^ 31)
    (hu : k.unprocessedBufferLen = 0) (hx : k.x = 0) (hne : NonEmpty k.world.reads)
    (ha : l - t ≤ (avail k.world.reads).length)
    (hroom : k.Room (q.add t) (l - t)) :
    ∃ k₁, k.Wrote k₁ (q.add t) ((avail k.world.reads).take (l - t)) ∧
      rawReadBlockingLoop q l retries f k t 0 =
        .ok (l, k₁.delivered (l - t)) := by
  induction f generalizing k t with
  | zero => omega
  | succ f ih =>
    rw [rawReadBlockingLoop]
    rcases Nat.eq_or_lt_of_le hle with rfl | hlt
    · refine ⟨k, ?_, ?_⟩
      · simpa using wrote_put k (q.add t) [] []
      · rw [if_neg (by omega), Nat.sub_self, delivered_zero hx hne]
    have hasks : Asks k.ssl (l - t) := asks_of_lt (by omega) (by omega)
    obtain ⟨c, k₁, hpos, hc, hlen, hk₁, hread⟩ := rawRead_some (b := wsBlock) hu
      (patient_of_x hx (.inr rfl)) hasks hne (List.ne_nil_of_length_pos (by omega)) hroom
    rw [if_pos ⟨hlt, hr⟩, hread]
    simp only [bind, Except.bind]
    rw [if_neg (by omega), if_neg (by omega), Int.toNat_natCast]
    obtain ⟨hu₁, -, hworld, -⟩ := hk₁.same
    have havail : avail (after c k.world.reads) = (avail k.world.reads).drop c := avail_after _ _
    obtain ⟨k₂, hk₂, hloop⟩ := ih (k := k₁.delivered c) (t := t + c) (by omega) (by omega)
      (by simpa only [delivered] using hu₁.trans hu) rfl
      (by simpa only [delivered, hworld] using hne.after c)
      (by simp only [delivered, hworld, havail, List.length_drop]; omega)
      (by
        have h : k₁.Room (q.add t) (c + (l - (t + c))) :=
          hk₁.room.2 (by rwa [show c + (l - (t + c)) = l - t by omega])
        rw [← Ptr.add_add]
        exact h.add)
    simp only [delivered, hworld, havail] at hk₂
    obtain ⟨k₃, rfl, hk₃⟩ := Wrote.of_delivered (r := c) (k := k₁)
      (by simpa only [delivered, hworld] using hk₂)
    refine ⟨k₃, ?_, ?_⟩
    · rw [← Ptr.add_add] at hk₃
      have h := hk₁.trans (by rwa [hlen])
      rwa [← List.take_add, show c + (l - (t + c)) = l - t by omega] at h
    · rw [hloop, delivered_delivered]
      congr 4
      omega

/-- `kws_string_read_blocking` gets all it asks for, if so much arrives. -/
theorem stringReadBlocking_data (retries : ℕ) (hr : 0 < retries) (hn : 0 < n) (hn' : n < 2 ^ 31)
    (hu : k.unprocessedBufferLen = 0) (hx : k.x = 0) (hne : NonEmpty k.world.reads)
    (ha : n ≤ (avail k.world.reads).length) (hroom : k.Room q (n + 1)) :
    ∃ k₁, k.Wrote k₁ q ((avail k.world.reads).take n) ∧
      k.stringReadBlocking q (n + 1) retries = .ok (n, k₁.delivered n) := by
  have hw := wrote_put_add k q n [0]
  obtain ⟨hu', hx', hworld, -⟩ := hw.same
  rw [stringReadBlocking, if_neg (by omega), Nat.add_sub_cancel, store_of_room (Room.add hroom)]
  simp only [bind, Except.bind]
  rw [if_neg (by omega), rawReadBlocking]
  obtain ⟨k₁, hk₁, hloop⟩ := rawReadBlockingLoop_data (k := k.put (q.add n) [0]) (q := q)
    (l := n) (f := (n + 1) * (retries + 1)) (t := 0) hr
    (by
      rw [Nat.sub_zero]
      exact Nat.lt_of_lt_of_le (Nat.lt_succ_self n) (Nat.le_mul_of_pos_right _ (by omega)))
    (Nat.zero_le n) hn'
    (hu'.trans hu) (hx'.trans hx) (by rwa [hworld]) (by rwa [hworld])
    (by rw [Ptr.add_zero]; exact hw.room.2 (hroom.mono (Nat.le_succ n)))
  rw [Ptr.add_zero, Nat.sub_zero, hworld] at hk₁
  rw [Nat.sub_zero] at hloop
  exact ⟨k₁, hw.of_nil hk₁, hloop⟩

end Kws

end Libks
