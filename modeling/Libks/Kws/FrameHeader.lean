import Libks.Base.Rfc6455
import Libks.Kws.RawRead
import Libks.Kws.ReadFrame

/-!
# The header of an arriving frame

What a pass of `kws_read_frame` knows once it has read the header of a frame.
The first reads take `pullLength` bytes, whatever the length of the frame is;
the others read as much as the header has. In the end the receive buffer holds
all bytes taken off the transport (`Kws.holding`), and `need`, `plen`, `payload`
and the key are those of the frame (`readHeader_frame`).
-/

namespace Libks

open Base Rfc6455

/-- How many bytes the first reads of a pass take off the transport: nine, if
    they have come together, and at least two. -/
def pullLength (es : List ReadEvent) : ℕ :=
  let r := min 9 (headLength es)
  if 2 ≤ r then r else r + min 7 (headLength (after r es))

/-- The first reads take at most nine bytes. -/
theorem pullLength_le (es : List ReadEvent) : pullLength es ≤ 9 := by
  rw [pullLength]
  split_ifs <;> omega

/-- Where two bytes arrive at all, the first reads take two. -/
theorem two_le_pullLength {es : List ReadEvent} (hne : NonEmpty es) (h2 : 2 ≤ (avail es).length) :
    2 ≤ pullLength es := by
  have hpos := headLength_pos hne (List.ne_nil_of_length_pos (by omega))
  rw [pullLength]
  by_cases hr : 2 ≤ min 9 (headLength es)
  · rwa [if_pos hr]
  · have h1 : min 9 (headLength es) = 1 := by omega
    have hpos₁ : 0 < headLength (after 1 es) := by
      refine headLength_pos (hne.after 1) (List.ne_nil_of_length_pos ?_)
      rw [avail_after, List.length_drop]
      omega
    rw [if_neg hr, h1]
    omega

@[simp] theorem Exit.lift_ok {α : Type} (a : α) : Exit.lift (.ok a) = .ok a := rfl

/-- The step ends with the connection closed. -/
def Closed {α : Type} (e : Except Exit α) : Prop :=
  ∃ r k, e = .error (.ret r k) ∧ r.data = none ∧ k.down ≠ 0

theorem Closed.bind {α β : Type} {e : Except Exit α} (h : Closed e) (f : α → Except Exit β) :
    Closed (e >>= f) := by
  obtain ⟨r, k, rfl, hr⟩ := h
  exact ⟨r, k, rfl, hr⟩

namespace Kws

theorem closed_closeWith {α : Type} (k : Kws) (reason : ℕ) (oc : Opcode) :
    Closed (k.closeWith reason oc : Except Exit α) :=
  ⟨_, _, rfl, rfl, k.down_close reason⟩

/-- An established connection that is not closed. -/
structure Up (k : Kws) : Prop where
  sanity : k.sanity ≠ 0
  established : k.logicalEstablished = true
  handshake : k.handshake = true
  down : k.down = 0

/-- Such a connection between frames, with nothing left over. -/
structure Open (k : Kws) : Prop extends Up k where
  unprocessed : k.unprocessedBufferLen = 0
  block : k.block = 0 ∨ k.block = wsBlock
  buflen : 16 ≤ k.buflen
  reads : NonEmpty k.world.reads

/-- An open connection that has not waited too long. -/
structure Ready (k : Kws) : Prop extends Open k where
  patient : k.Patient k.block

variable {k : Kws} {m : Mem} {d n need : ℕ}

/-- A connection that is up is not established again. -/
theorem Up.establishLogicalLayer (h : k.Up) : k.establishLogicalLayer = .ok (0, k) := by
  rw [Kws.establishLogicalLayer, establishClientLogicalLayer, establishServerLogicalLayer,
    if_neg h.sanity, if_neg h.sanity, if_pos h.established, if_pos h.established]
  cases k.type <;> rfl

/-- A pass of a connection that is up starts with the header. -/
theorem Up.enter (h : k.Up) (oc : Opcode) : k.enter oc = .ok k := by
  rw [Kws.enter, h.establishLogicalLayer, Exit.lift_ok]
  simp only [bind, Except.bind]
  rw [if_neg (by decide), if_neg (not_not_intro h.down), if_neg (not_not_intro h.handshake)]

/-- On a connection that is down, a pass ends before it reads. -/
theorem enter_down (h : k.down ≠ 0) (oc : Opcode) : Closed (k.enter oc) := by
  obtain ⟨ll, k', hll, hk'⟩ := establishLogicalLayer_of_down h
  rw [Kws.enter, hll, Exit.lift_ok]
  simp only [bind, Except.bind]
  rw [if_pos hk']
  split_ifs
  · exact ⟨_, _, rfl, rfl, hk'⟩
  · exact ⟨_, _, rfl, rfl, hk'⟩

/-- The connection with the first `d` bytes of a frame taken off the transport,
    and the receive buffer `m`. -/
def holding (k : Kws) (m : Mem) (d : ℕ) : Kws :=
  { k.delivered d with buffer := m, datalen := d }

/-- `m` holds the first `d` bytes the transport of `k` delivers. -/
def Holds (k : Kws) (m : Mem) (d : ℕ) : Prop :=
  d ≤ (avail k.world.reads).length ∧ m.read 0 d = (avail k.world.reads).take d

theorem avail_holding (k : Kws) (m : Mem) (d : ℕ) :
    avail (k.holding m d).world.reads = (avail k.world.reads).drop d := avail_after _ _

/-- A read behind the bytes held so far. -/
theorem Holds.append {m' : Mem} {c : ℕ} (h : k.Holds m d) (hc : d + c ≤ (avail k.world.reads).length)
    (hr : m'.read d c = ((avail k.world.reads).drop d).take c) (hm : ∀ i < d, m' i = m i) :
    k.Holds m' (d + c) := by
  refine ⟨hc, ?_⟩
  rw [Mem.read_add, Nat.zero_add, hr, Mem.read_congr fun i _ hi => hm i (by omega), h.2,
    ← List.take_add]

/-- The first read has got two bytes or more. -/
theorem pullHeader_of_long {read : Read} {k₁ : Kws} (oc : Opcode)
    (hread : k.stringRead (.buffer 0) (9 + 1) k.block = .ok (read, k₁)) (h2 : 2 ≤ read.ret) :
    k.pullHeader oc = .ok { k₁ with datalen := read.ret } := by
  rw [pullHeader, hread]
  simp only [Exit.lift_ok, bind, Except.bind]
  rw [if_neg (by omega), if_neg (by omega)]

/-- The first read has got one byte, and a second read is made for the other. -/
theorem pullHeader_of_short {bs : List UInt8} {read₂ : Read} {k₁ k₂ : Kws} (oc : Opcode)
    (hread : k.stringRead (.buffer 0) (9 + 1) k.block = .ok (⟨1, bs⟩, k₁))
    (hread₂ : { k₁ with datalen := 1 }.stringRead (.buffer 1) (7 + 1) wsBlock = .ok (read₂, k₂))
    (hd : k₂.datalen = 1) (h1 : 1 ≤ read₂.ret) :
    k.pullHeader oc = .ok { k₂ with datalen := 1 + read₂.ret } := by
  rw [pullHeader, hread]
  simp only [Exit.lift_ok, bind, Except.bind]
  rw [if_neg (by decide), if_pos (by decide)]
  simp only [Int.toNat_one, show (9 - 1 : ℤ).toNat = 7 + 1 from rfl, hread₂, Exit.lift_ok, hd]
  rw [if_neg (by omega), if_neg (by omega)]

/-- The first reads of a pass. -/
theorem pullHeader_data (h : k.Ready) (h2 : 2 ≤ (avail k.world.reads).length) (oc : Opcode) :
    ∃ m, k.Holds m (pullLength k.world.reads) ∧
      k.pullHeader oc = .ok (k.holding m (pullLength k.world.reads)) := by
  have ha : avail k.world.reads ≠ [] := List.ne_nil_of_length_pos (by omega)
  obtain ⟨k₁, hk₁, hread⟩ := stringRead_data (q := .buffer 0) h.unprocessed
    h.patient (asks_of_lt (n := 9) (by decide) (by decide)) h.reads ha
    (show 0 + 10 ≤ k.buflen by have := h.buflen; omega)
  have hchunk : k.chunk 9 = min 9 (headLength k.world.reads) := by
    rw [chunk, requestSize_of_lt (by decide)]
  have hlen := k.length_take_chunk 9
  have hpos := headLength_pos h.reads ha
  have hle := k.chunk_le_avail 9
  obtain ⟨m, rfl, hm, -⟩ := hk₁
  rw [hlen] at hm
  rw [hchunk] at hm hread hle
  rw [pullLength]
  obtain ⟨r, hr⟩ : ∃ r, min 9 (headLength k.world.reads) = r := ⟨_, rfl⟩
  rw [hr] at hm hread hle ⊢
  have hheld : k.Holds m r := ⟨hle, hm⟩
  by_cases hr2 : 2 ≤ r
  · rw [if_pos hr2]
    exact ⟨m, hheld, pullHeader_of_long oc hread (by simpa using hr2)⟩
  -- One byte has come, and seven more are asked for.
  · obtain rfl : r = 1 := by omega
    have hav := k.avail_holding m 1
    have ha₁ : avail (k.holding m 1).world.reads ≠ [] := by
      rw [hav]
      exact List.ne_nil_of_length_pos (by rw [List.length_drop]; omega)
    obtain ⟨k₂, hk₂, hread₂⟩ := stringRead_data (k := k.holding m 1) (q := .buffer 1)
      (b := wsBlock) h.unprocessed (patient_of_x rfl (.inr rfl))
      (asks_of_lt (n := 7) (by decide) (by decide)) (h.reads.after 1) ha₁
      (show 1 + 8 ≤ k.buflen by have := h.buflen; omega)
    have hchunk₂ : (k.holding m 1).chunk 7 = min 7 (headLength (after 1 k.world.reads)) := by
      rw [chunk, requestSize_of_lt (by decide)]
      rfl
    have hlen₂ := (k.holding m 1).length_take_chunk 7
    have hpos₂ := headLength_pos (h.reads.after 1) ha₁
    have hle₂ := (k.holding m 1).chunk_le_avail 7
    obtain ⟨m₂, rfl, hm₂, hlt₂⟩ := hk₂
    rw [hlen₂] at hm₂
    rw [hchunk₂] at hm₂ hread₂ hle₂
    rw [hav] at hm₂ hle₂
    rw [List.length_drop] at hle₂
    rw [if_neg hr2]
    obtain ⟨r₂, hr₂⟩ : ∃ r, min 7 (headLength (after 1 k.world.reads)) = r := ⟨_, rfl⟩
    rw [hr₂] at hm₂ hread₂ hle₂ ⊢
    refine ⟨m₂, hheld.append (by omega) hm₂ hlt₂, ?_⟩
    rw [pullHeader_of_short oc hread hread₂ rfl (by simp; omega)]
    simp only [holding, delivered, after_add, Nat.cast_add, Nat.cast_one]

/-! ## First reads that get nothing -/

theorem pullHeader_of_fail {read : Read} {k₁ : Kws} (oc : Opcode)
    (hread : k.stringRead (.buffer 0) (9 + 1) k.block = .ok (read, k₁)) (hneg : read.ret < 0) :
    k.pullHeader oc =
      if read.ret = -2 then .error (.ret ⟨-2, oc, none⟩ { k₁ with datalen := read.ret })
      else { k₁ with datalen := read.ret }.closeWith 0 oc := by
  rw [pullHeader, hread]
  simp only [Exit.lift_ok, bind, Except.bind]
  rw [if_pos hneg]

/-- The first read has got nothing, and a second read is made. -/
theorem pullHeader_of_none {bs : List UInt8} {read₂ : Read} {k₁ k₂ : Kws} (oc : Opcode)
    (hread : k.stringRead (.buffer 0) (9 + 1) k.block = .ok (⟨0, bs⟩, k₁))
    (hread₂ : { k₁ with datalen := 0 }.stringRead (.buffer 0) (8 + 1) wsBlock = .ok (read₂, k₂))
    (h0 : read₂.ret ≤ 0) (hd : k₂.datalen = 0) : Closed (k.pullHeader oc) := by
  rw [pullHeader, hread]
  simp only [Exit.lift_ok, bind, Except.bind]
  rw [if_neg (by decide), if_pos (by decide)]
  simp only [Int.toNat_zero, show (9 - 0 : ℤ).toNat = 8 + 1 from rfl, hread₂, Exit.lift_ok, hd]
  by_cases hneg : read₂.ret < 0
  · rw [if_pos hneg]
    exact closed_closeWith _ _ _
  · rw [if_neg hneg, if_pos (by omega)]
    exact closed_closeWith _ _ _

/-- Where the transport would block, the call ends and may be made again. -/
theorem pullHeader_wait {es : List ReadEvent} (h : k.Open) (hb : k.block = 0)
    (hreads : k.world.reads = .failed .wantRead :: es) (oc : Opcode) :
    Closed (k.pullHeader oc) ∨
      ∃ m, k.pullHeader oc = .error (.ret ⟨-2, oc, none⟩ { k with
        buffer := m
        datalen := -2
        x := k.x + 1
        world := { k.world with reads := es } }) := by
  have hroom : k.Room (.buffer 0) (9 + 1) := Nat.le_trans (by decide) h.buflen
  have hgot : (k.put ((Ptr.buffer 0).add 9) [0]).transportRead 9 k.block =
      ⟨-2, [], k.x + 1, k.sslIoError, es⟩ := by
    rw [transportRead, if_neg (not_refused_of_lt (by decide)), requestSize_of_lt (by decide),
      if_neg (by decide), world_put, x_put, sslIoError_put, hreads, receive,
      if_pos (show IoError.wantRead.isWant = true from rfl), if_pos hb]
  have hread := stringRead_eq (by decide) hroom k.block
  obtain ⟨r, hr, hraw⟩ := rawRead_failed (k := k.put ((Ptr.buffer 0).add 9) [0])
    (q := .buffer 0) (n := 9) (b := k.block) h.unprocessed (by rw [hgot])
    (by rw [hgot]; exact (by decide : (-2 : ℤ) < 0)) ((room_put _).2 (hroom.mono (Nat.le_succ 9)))
  rw [hgot] at hr hraw
  have hneg : r < 0 := by rcases hr with rfl | rfl <;> simp
  rw [hraw] at hread
  rw [pullHeader_of_fail oc hread hneg]
  by_cases h2 : r = -2
  · rw [if_pos h2]
    exact .inr ⟨_, by rw [h2]; rfl⟩
  · rw [if_neg h2]
    exact .inl (closed_closeWith _ _ _)

/-- At the end of the stream, the connection is closed. -/
theorem pullHeader_end (h : k.Open) (hreads : k.world.reads = []) (oc : Opcode) :
    Closed (k.pullHeader oc) := by
  obtain ⟨r, k₁, hr, hread, hu, hreads₁, -, hlen, -⟩ := stringRead_end h.unprocessed hreads
    (asks_of_lt (n := 9) (by decide) (by decide))
    (show 0 + 10 ≤ k.buflen from Nat.le_trans (by decide) h.buflen) k.block
  rcases hr with rfl | rfl
  · rw [pullHeader_of_fail oc hread (by simp)]
    exact closed_closeWith _ _ _
  · obtain ⟨r₂, k₂, hr₂, hread₂, -, -, -, -, hd⟩ := stringRead_end (k := { k₁ with datalen := 0 })
      hu hreads₁ (asks_of_lt (n := 8) (by decide) (by decide))
      (show 0 + 9 ≤ k₁.buflen by rw [hlen]; exact Nat.le_trans (by decide) h.buflen) wsBlock
    exact pullHeader_of_none oc hread hread₂ (by rcases hr₂ with rfl | rfl <;> simp) hd

/-- A wait that was too long closes the connection. -/
theorem pullHeader_impatient (h : k.Open) (hp : ¬k.Patient k.block)
    (ha : avail k.world.reads ≠ []) (oc : Opcode) : Closed (k.pullHeader oc) := by
  have hroom : k.Room (.buffer 0) (9 + 1) := Nat.le_trans (by decide) h.buflen
  have hw := wrote_put_add k (.buffer 0) 9 [0]
  obtain ⟨hu, hx, hworld, hssl, -⟩ := hw.same
  obtain ⟨k', hread⟩ := rawRead_impatient (k := k.put ((Ptr.buffer 0).add 9) [0])
    (q := .buffer 0) (n := 9) (b := k.block) h.unprocessed (by rwa [Patient, hx])
    (asks_of_lt (by decide) (by decide)) (by rw [hworld]; exact h.reads) (by rwa [hworld])
    ((room_put _).2 (hroom.mono (Nat.le_succ 9)))
  rw [pullHeader_of_fail oc ((stringRead_eq (by decide) hroom k.block).trans hread) (by simp)]
  exact closed_closeWith _ _ _

/-! ## The rest of the header -/

theorem Holds.read (h : k.Holds m d) {p n : ℕ} (hn : p + n ≤ d) :
    m.read p n = ((avail k.world.reads).drop p).take n := by
  have := congrArg (fun bs => (bs.drop p).take n) h.2
  simp only [Mem.drop_read _ _ _ _ (show p ≤ d by omega), Nat.zero_add,
    Mem.take_read _ _ _ _ (show n ≤ d - p by omega), List.drop_take, List.take_take,
    Nat.min_eq_left (show n ≤ d - p by omega)] at this
  exact this

theorem Holds.read_append (h : k.Holds m d) (as bs cs : List UInt8)
    (ha : avail k.world.reads = as ++ bs ++ cs) (hn : (as ++ bs).length ≤ d) :
    m.read as.length bs.length = bs := by
  rw [h.read (by rwa [List.length_append] at hn), ha, List.append_assoc, List.drop_left,
    List.take_left]

/-- The header is there as far as it is needed. -/
theorem topUp_of_le (h : (need : ℤ) ≤ k.datalen) : k.topUp need = .ok k := by
  rw [topUp, if_neg (by omega)]

/-- The header is not there yet, and is read up to what is needed. -/
theorem topUp_of_lt {bytes : ℤ} {k₁ : Kws} (hd : k.datalen = d) (hlt : d < need)
    (hread : k.stringReadBlocking (.buffer d) (need - d + 1) 10 = .ok (bytes, k₁))
    (h0 : 0 ≤ bytes) (hn : need ≤ k₁.datalen + bytes) :
    k.topUp need = .ok { k₁ with datalen := k₁.datalen + bytes } := by
  rw [topUp, hd, Int.toNat_natCast, show ((need : ℤ) - d + 1).toNat = need - d + 1 by omega, hread,
    if_pos (by omega)]
  simp only [Exit.lift_ok, bind, Except.bind]
  rw [if_neg (by omega), if_neg (by omega)]

/-- As long as the bytes arrive, the header is read up to what is needed. -/
theorem topUp_data (h : k.Ready) (hm : k.Holds m d) (hn : need ≤ (avail k.world.reads).length)
    (hn' : need ≤ 14) :
    ∃ m', k.Holds m' (max d need) ∧
      (k.holding m d).topUp need = .ok (k.holding m' (max d need)) := by
  by_cases hd : d < need
  · rw [Nat.max_eq_right (by omega)]
    obtain ⟨k₁, hk₁, hread⟩ := stringReadBlocking_data (k := k.holding m d) (q := .buffer d)
      (n := need - d) 10 (by decide) (by omega) (by omega) h.unprocessed rfl
      (h.reads.after d) (by rw [avail_holding, List.length_drop]; omega)
      (show d + (need - d + 1) ≤ k.buflen by have := h.buflen; omega)
    obtain ⟨m', rfl, hm', hlt⟩ := hk₁
    have hlen : (((avail k.world.reads).drop d).take (need - d)).length = need - d := by
      rw [List.length_take, List.length_drop]
      omega
    rw [avail_holding, hlen] at hm'
    have hadd : d + (need - d) = need := by omega
    refine ⟨m', ?_, ?_⟩
    · rw [← hadd]
      exact hm.append (by omega) hm' hlt
    · have hcast : (d : ℤ) + (need - d : ℕ) = need := by omega
      rw [topUp_of_lt rfl hd hread (by omega) (Int.le_of_eq hcast.symm)]
      simp only [holding, delivered, ← after_add, hadd, hcast]
  · rw [Nat.max_eq_left (by omega)]
    exact ⟨m, hm, topUp_of_le (show (need : ℤ) ≤ (d : ℕ) by omega)⟩

/-! ## The header of a frame -/

section

variable {f : Frame} {form : LengthForm} {rest : List UInt8}

theorem two_le_headerLength (f : Frame) (form : LengthForm) : 2 ≤ f.headerLength form := by
  rw [Frame.headerLength]
  omega

theorem length_bytes_extended (f : Frame) (form : LengthForm) :
    ([f.byte0, f.byte1 form] ++ form.extended f.payload.length).length = 2 + form.size := by
  rw [List.length_append, LengthForm.length_extended]
  rfl

/-- The first two bytes of a frame. -/
theorem Holds.bytes (hm : k.Holds m d) (h2 : 2 ≤ d)
    (ha : avail k.world.reads = f.encodeAs form ++ rest) : m 0 = f.byte0 ∧ m 1 = f.byte1 form := by
  have h := hm.read (p := 0) (n := 2) (by omega)
  rw [ha] at h
  simpa [Mem.read, Frame.encodeAs, Frame.header] using h

/-- The extended length. -/
theorem Holds.extended (hm : k.Holds m d) (hd : 2 + form.size ≤ d)
    (ha : avail k.world.reads = f.encodeAs form ++ rest) :
    m.read 2 form.size = form.extended f.payload.length := by
  have h := hm.read_append [f.byte0, f.byte1 form] (form.extended f.payload.length)
    (f.keyBytes ++ f.body ++ rest)
    (by simp only [ha, Frame.encodeAs, Frame.header, List.append_assoc])
    (by rwa [length_bytes_extended])
  rwa [LengthForm.length_extended] at h

/-- The key. -/
theorem Holds.key (hm : k.Holds m d) (hd : f.headerLength form ≤ d)
    (ha : avail k.world.reads = f.encodeAs form ++ rest) :
    m.read (2 + form.size) f.keyBytes.length = f.keyBytes := by
  have h := hm.read_append ([f.byte0, f.byte1 form] ++ form.extended f.payload.length) f.keyBytes
    (f.body ++ rest)
    (by simp only [ha, Frame.encodeAs, Frame.header, List.append_assoc])
    (by rwa [← Frame.header, Frame.length_header])
  rwa [length_bytes_extended] at h

/-- The part of the payload that has come with the header. -/
theorem Holds.body (hm : k.Holds m d) (ha : avail k.world.reads = f.encodeAs form ++ rest) {n : ℕ}
    (hn : f.headerLength form + n ≤ d) : m.read (f.headerLength form) n = (f.body ++ rest).take n := by
  rw [hm.read hn, ha, Frame.encodeAs, List.append_assoc, ← Frame.length_header, List.drop_left]

/-- A frame whose length the form can hold has arrived. -/
structure Arrived (k : Kws) (f : Frame) (form : LengthForm) (rest : List UInt8) : Prop where
  ready : k.Ready
  fits : form.Fits f.payload.length
  avail : avail k.world.reads = f.encodeAs form ++ rest

theorem Arrived.length_le (h : k.Arrived f form rest) {n : ℕ}
    (hn : n ≤ f.headerLength form + f.payload.length) : n ≤ (Libks.avail k.world.reads).length := by
  rw [h.avail, List.length_append, Frame.length_encodeAs]
  omega

/-- A header has at most 14 bytes: two, eight for the length and four for the key. -/
theorem headerLength_le (f : Frame) (form : LengthForm) : f.headerLength form ≤ 14 := by
  rw [Frame.headerLength]
  cases form <;> simp only [LengthForm.size] <;> split_ifs <;> omega

/-- A length in seven bits. -/
theorem readLength_of_bits7 {len : ℕ} (hl : (k.buffer 1).toNat % 128 = len) (h : len < 126) :
    k.readLength need = .ok (need, { k with plen := len, payload := 2 }) := by
  rw [readLength, hl, if_neg (by omega), if_neg (by omega)]
  rfl

/-- A length in two more bytes. -/
theorem readLength_of_bits16 {k₁ : Kws} (hl : (k.buffer 1).toNat % 128 = 126)
    (htop : k.topUp (need + 2) = .ok k₁) (hn : n < 2 ^ 16)
    (hext : k₁.buffer.read 2 2 = LengthForm.bits16.extended n) :
    k.readLength need = .ok (need + 2, { k₁ with plen := n, payload := 4 }) := by
  rw [readLength, hl]
  simp only [htop, bind, Except.bind, hext]
  rw [if_neg (by decide), if_pos trivial, ntohs, LengthForm.extended, LengthForm.size,
    bswap_ofLe_reverse hn]
  rfl

/-- A length in eight more bytes. -/
theorem readLength_of_bits64 {k₁ : Kws} (hl : (k.buffer 1).toNat % 128 = 127)
    (htop : k.topUp (need + 8) = .ok k₁) (hn : n < 2 ^ 63)
    (hext : k₁.buffer.read 2 8 = LengthForm.bits64.extended n) :
    k.readLength need = .ok (need + 8, { k₁ with plen := n, payload := 10 }) := by
  rw [readLength, hl]
  simp only [htop, bind, Except.bind, hext]
  rw [if_pos trivial, ntoh64, LengthForm.extended, LengthForm.size,
    bswap_ofLe_reverse (Nat.lt_trans hn (by decide)), toInt64_of_lt hn]
  rfl

/-- The length field of a frame, behind a header of `need` bytes so far. -/
theorem readLength_frame (h : k.Arrived f form rest) (hm : k.Holds m d)
    (hneed : need + form.size = f.headerLength form) (hd : need ≤ d) (hn : 2 ≤ need) :
    ∃ m', k.Holds m' (max d (need + form.size)) ∧
      (k.holding m d).readLength need = .ok (need + form.size,
        { k.holding m' (max d (need + form.size)) with
          plen := f.payload.length
          payload := 2 + form.size }) := by
  have hlow : ((k.holding m d).buffer 1).toNat % 128 = form.low f.payload.length := by
    rw [show (k.holding m d).buffer = m from rfl, (hm.bytes (by omega) h.avail).2,
      f.byte1_mod h.fits]
  have hle := headerLength_le f form
  obtain ⟨m', hm', htop⟩ := topUp_data h.ready hm (h.length_le (n := need + form.size) (by omega))
    (by omega)
  have hext := hm'.extended (by omega) h.avail
  have hfits := h.fits
  cases form with
  | bits7 =>
    rw [LengthForm.size, Nat.add_zero, Nat.max_eq_left hd]
    exact ⟨m, hm, readLength_of_bits7 hlow hfits⟩
  | bits16 => exact ⟨m', hm', readLength_of_bits16 hlow htop hfits hext⟩
  | bits64 => exact ⟨m', hm', readLength_of_bits64 hlow htop hfits hext⟩

/-- The offset of the key of a frame. -/
def keyOffset (f : Frame) (form : LengthForm) : Option ℕ :=
  if f.key.isSome then some (2 + form.size) else none

/-- The header of a frame, of which `d` bytes are there at first. -/
theorem readHeader_frame (h : k.Arrived f form rest) (hm : k.Holds m d) (h2 : 2 ≤ d) :
    ∃ m', k.Holds m' (max d (f.headerLength form)) ∧
      (k.holding m d).readHeader = .ok (f.headerLength form, keyOffset f form,
        { k.holding m' (max d (f.headerLength form)) with
          plen := f.payload.length
          payload := f.headerLength form }) := by
  have hmask : decide (128 ≤ ((k.holding m d).buffer 1).toNat) = f.key.isSome := by
    rw [show (k.holding m d).buffer = m from rfl, (hm.bytes h2 h.avail).2]
    simp only [f.byte1_div h.fits, Bool.decide_eq_true]
  rw [readHeader]
  simp only [hmask, keyOffset]
  by_cases hkey : f.key.isSome = true
  · have hlen : 6 + form.size = f.headerLength form := by
      rw [Frame.headerLength, if_pos hkey]
      omega
    obtain ⟨m₁, hm₁, htop⟩ := topUp_data h.ready hm
      (h.length_le (show 6 ≤ _ by omega)) (by decide)
    obtain ⟨m₂, hm₂, hread⟩ := readLength_frame h hm₁ hlen (by omega) (by omega)
    rw [hlen, Nat.max_assoc, Nat.max_eq_right (show 6 ≤ f.headerLength form by omega)] at hm₂ hread
    refine ⟨m₂, hm₂, ?_⟩
    rw [if_pos hkey, htop, if_pos hkey]
    simp only [bind, Except.bind, hread]
    rw [if_pos hkey, if_pos hkey, ← hlen, show 2 + form.size + 4 = 6 + form.size by omega]
    rfl
  · have hlen : 2 + form.size = f.headerLength form := by
      rw [Frame.headerLength, if_neg hkey, Nat.add_zero]
    obtain ⟨m₂, hm₂, hread⟩ := readLength_frame h hm hlen h2 (Nat.le_refl 2)
    rw [hlen] at hm₂ hread
    refine ⟨m₂, hm₂, ?_⟩
    rw [if_neg hkey]
    simp only [bind, Except.bind, if_neg hkey, hread]
    rfl

end

end Kws

end Libks
