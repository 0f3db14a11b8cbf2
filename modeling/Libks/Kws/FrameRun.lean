import Libks.Kws.FramePayload

/-!
# Reading a run of frames

A pass of `kws_read_frame` over a frame that has arrived either consumes it to
its last byte and stores its payload (`pass_clear`), or ends the connection
(`pass_not_clear`); which of the two is known beforehand (`Clear`). The calls
that read a whole run of frames follow (`readFrames_eq_iff`).
-/

namespace Libks

open Base Rfc6455

namespace Kws

variable {k k' : Kws} {f : Frame} {form : LengthForm} {rest : List UInt8} {frag : Bool}
  {oc : Opcode}

/-! ## One pass -/

/-- How many bytes of a frame, or of what follows it, the reads of the header
    take off the transport. -/
def pulled (k : Kws) (f : Frame) (form : LengthForm) : ℕ :=
  max (pullLength k.world.reads) (f.headerLength form)

/-- At most nine bytes of the payload come with the header. -/
theorem pulled_sub_le : k.pulled f form - f.headerLength form ≤ 9 := by
  have := pullLength_le k.world.reads
  rw [pulled]
  omega

/-- Nothing keeps a pass from reading the frame: the reads of the header stay
    inside it, the message stays small enough, and the reads of the payload do
    not stall. -/
structure Clear (k : Kws) (f : Frame) (form : LengthForm) : Prop where
  pull : pullLength k.world.reads ≤ f.headerLength form + f.payload.length
  body : k.body < 2 ^ 31
  length : k.body + f.payload.length < 2 ^ 63
  limit : ¬k.TooBig f.payload.length
  flows : Flows k.ssl (after (k.pulled f form) k.world.reads)
    (f.headerLength form + f.payload.length - k.pulled f form)

/-- `k'` is `k` after a pass that has consumed the frame. -/
def Consumed (k k' : Kws) (f : Frame) (form : LengthForm) : Prop :=
  ∃ m mb b, mb.read k.body f.payload.length = f.payload ∧ (∀ i < k.body, mb i = k.bbuffer i) ∧
    k.body + f.payload.length < b ∧
    k' = { k.delivered (f.headerLength form + f.payload.length) with
      buffer := m
      bbuffer := mb
      bbuflen := b
      datalen := (f.headerLength form + f.payload.length : ℕ)
      plen := f.payload.length
      payload := f.headerLength form
      rplen := f.payload.length
      packetlen := k.packetlen + f.payload.length
      body := k.body + f.payload.length }

/-- Behind the header, the payload comes next. -/
theorem Arrived.atBody {m : Mem} {d : ℕ} (h : k.Arrived f form rest) (hm : k.Holds m d)
    (hd : f.headerLength form ≤ d) (hd9 : d - f.headerLength form ≤ 9) :
    AtBody { k.holding m d with
      plen := f.payload.length
      payload := f.headerLength form } f form rest (d - f.headerLength form) where
  quiet := ⟨h.ready.unprocessed, rfl, h.ready.reads.after d⟩
  small := hd9
  plen := rfl
  datalen := by rw [Nat.add_sub_cancel' hd]; rfl
  bytes := hm.body h.avail (by omega)
  key := hm.key hd h.avail
  avail := by
    have hdrop := @List.drop_append _ (f.header form) (f.body ++ rest) d
    have hnil : (f.header form).drop d = [] := List.drop_eq_nil_of_le (by rwa [f.length_header])
    rw [f.length_header, hnil, List.nil_append] at hdrop
    refine (avail_after _ _).trans ?_
    rw [h.avail, Frame.encodeAs, List.append_assoc, hdrop]

/-- A data frame, from the first bytes of its header on. -/
theorem readDataFrame_eq {m : Mem} {d : ℕ} (oc : Opcode) (h : k.Arrived f form rest) (hm : k.Holds m d)
    (h2 : 2 ≤ d) :
    ∃ m', k.Holds m' (max d (f.headerLength form)) ∧
      (k.holding m d).readDataFrame oc =
        { k.holding m' (max d (f.headerLength form)) with
          plen := f.payload.length
          payload := f.headerLength form }.readBody oc (f.headerLength form) (keyOffset f form) := by
  obtain ⟨m', hm', hread⟩ := readHeader_frame h hm h2
  refine ⟨m', hm', ?_⟩
  rw [readDataFrame, hread]
  rfl

theorem opcodeOf_byte0 (f : Frame) : opcodeOf f.byte0 = f.opcode :=
  Fin.ext f.byte0_mod

/-- A pass over a data frame goes on while the message has fragments, and delivers at its end. -/
theorem pass_eq {k₁ : Kws} (h : k.Ready) (hpull : k.pullHeader oc = .ok k₁)
    (hoc : opcodeOf (k₁.buffer 0) = f.opcode) (hdata : Opcode.IsData f.opcode) :
    k.pass frag oc = (do
      let k₂ ← k₁.readDataFrame f.opcode
      if nextFrag frag (k₁.buffer 0) f.opcode then
        return (nextFrag frag (k₁.buffer 0) f.opcode, f.opcode, k₂)
      else .error (.ret ⟨k₂.packetlen, f.opcode, some (.bbuffer 0)⟩ k₂)) := by
  have hclose : f.opcode ≠ Opcode.close := by
    rintro hc
    rw [hc] at hdata
    exact absurd hdata (by decide)
  rw [pass, h.toUp.enter]
  simp only [bind, Except.bind, hpull, hoc]
  rw [if_neg hclose, if_pos hdata]

/-- A pass over a frame, from the end of its header on. -/
theorem pass_arrived (h : k.Arrived f form rest) (hdata : Opcode.IsData f.opcode) (frag : Bool)
    (oc : Opcode) :
    ∃ m, k.Holds m (k.pulled f form) ∧
      k.pass frag oc = (do
        let k₂ ← { k.holding m (k.pulled f form) with
          plen := f.payload.length
          payload := f.headerLength form }.readBody f.opcode (f.headerLength form)
            (keyOffset f form)
        if nextFrag frag f.byte0 f.opcode then
          return (nextFrag frag f.byte0 f.opcode, f.opcode, k₂)
        else .error (.ret ⟨k₂.packetlen, f.opcode, some (.bbuffer 0)⟩ k₂)) := by
  have h2 := two_le_headerLength f form
  obtain ⟨m, hm, hpull⟩ := pullHeader_data h.ready (h.length_le (by omega)) oc
  have hp2 := two_le_pullLength h.ready.reads (h.length_le (by omega))
  obtain ⟨m', hm', hread⟩ := readDataFrame_eq f.opcode h hm hp2
  have hb : (k.holding m (pullLength k.world.reads)).buffer 0 = f.byte0 := (hm.bytes hp2 h.avail).1
  refine ⟨m', hm', ?_⟩
  rw [pass_eq h.ready hpull (by rw [hb, opcodeOf_byte0]) hdata, hread, hb]
  rfl

/-- A pass consumes a frame that nothing keeps it from reading; it goes around
    where the message goes on. -/
theorem pass_clear (h : k.Arrived f form rest) (hdata : Opcode.IsData f.opcode)
    (hc : k.Clear f form) (frag : Bool) (oc : Opcode) :
    ∃ k', k.Consumed k' f form ∧
      k.pass frag oc =
        if nextFrag frag f.byte0 f.opcode then
          .ok (nextFrag frag f.byte0 f.opcode, f.opcode, k')
        else .error (.ret ⟨k'.packetlen, f.opcode, some (.bbuffer 0)⟩ k') := by
  obtain ⟨m, hm, hpass⟩ := pass_arrived h hdata frag oc
  have hle : f.headerLength form ≤ k.pulled f form := Nat.le_max_right _ _
  have hle' : k.pulled f form ≤ f.headerLength form + f.payload.length :=
    Nat.max_le.2 ⟨hc.pull, Nat.le_add_right _ _⟩
  have hneed : f.payload.length - (k.pulled f form - f.headerLength form) =
      f.headerLength form + f.payload.length - k.pulled f form := by omega
  obtain ⟨mb, b, hmb, hpre, hlt, hbody⟩ := readBody_frame f.opcode (h.atBody hm hle pulled_sub_le)
    (by omega) hc.body hc.length hc.limit (by rw [hneed]; exact hc.flows)
  refine ⟨_, ⟨m, mb, b, hmb, hpre, hlt, rfl⟩, ?_⟩
  rw [hpass, hbody, hneed]
  simp only [bind, Except.bind, holding, delivered, ← after_add, Nat.add_sub_cancel' hle']
  rfl

/-- A pass over a frame that it cannot read ends the connection. -/
theorem pass_not_clear (h : k.Arrived f form rest) (hdata : Opcode.IsData f.opcode)
    (hc : ¬k.Clear f form) (frag : Bool) (oc : Opcode) :
    Closed (k.pass frag oc) ∨ k.pass frag oc = .error (.fault .overflow) := by
  obtain ⟨m, hm, hpass⟩ := pass_arrived h hdata frag oc
  have hle : f.headerLength form ≤ k.pulled f form := Nat.le_max_right _ _
  have hat := h.atBody hm hle pulled_sub_le
  have hneed : f.payload.length - (k.pulled f form - f.headerLength form) =
      f.headerLength form + f.payload.length - k.pulled f form := by omega
  have hpull : pullLength k.world.reads ≤ k.pulled f form := Nat.le_max_left _ _
  rcases readBody_not_clear f.opcode (keyOffset f form) hat (by
    rintro ⟨hheld, hbody, hlen, hbig, hflow⟩
    exact hc ⟨by omega, hbody, hlen, hbig, by rw [← hneed]; exact hflow⟩) with hbody | hbody
  · exact .inl (by rw [hpass]; exact hbody.bind _)
  · exact .inr (by rw [hpass, hbody]; rfl)

/-- Behind one frame the connection is ready for the next. -/
theorem Consumed.ready (hk : k.Open) (h : k.Consumed k' f form) : k'.Ready := by
  obtain ⟨m, mb, b, -, -, -, rfl⟩ := h
  exact ⟨⟨⟨hk.sanity, hk.established, hk.handshake, hk.down⟩, hk.unprocessed, hk.block, hk.buflen,
    hk.reads.after _⟩, patient_of_x rfl hk.block⟩

/-- A frame takes its own bytes off the transport. -/
theorem Consumed.reads (h : k.Consumed k' f form) :
    k'.world.reads = after (f.encodeAs form).length k.world.reads := by
  obtain ⟨m, mb, b, -, -, -, rfl⟩ := h
  rw [Frame.length_encodeAs]
  rfl

/-- What follows a frame stays on the transport. -/
theorem Consumed.avail (hk : k.Arrived f form rest) (h : k.Consumed k' f form) :
    avail k'.world.reads = rest := by
  rw [h.reads, avail_after, hk.avail, List.drop_left]

/-! ## One call -/

/-- The connection a call starts its first pass with. -/
def start (k : Kws) : Kws := { k with body := 0, packetlen := 0 }

theorem Open.start (h : k.Open) : k.start.Open :=
  ⟨⟨h.sanity, h.established, h.handshake, h.down⟩, h.unprocessed, h.block, h.buflen, h.reads⟩

theorem Arrived.start (h : k.Arrived f form rest) : k.start.Arrived f form rest where
  ready := ⟨h.ready.toOpen.start, h.ready.patient⟩
  fits := h.fits
  avail := h.avail

/-- A first pass that leaves the call is the call. -/
theorem readFrame_of_pass_ret {r : FrameResult}
    (h : k.start.pass false Opcode.invalid = .error (.ret r k')) : k.readFrame = .ok (r, k') := by
  rw [start] at h
  rw [readFrame, inputSize, againLoop, h]

theorem readFrame_of_pass_fault {e : Fault}
    (h : k.start.pass false Opcode.invalid = .error (.fault e)) : k.readFrame = .error e := by
  rw [start] at h
  rw [readFrame, inputSize, againLoop, h]

/-- A frame that does not start a fragmented message. -/
theorem nextFrag_false (h : f.fin = true ∨ f.opcode = Opcode.continuation) :
    nextFrag false f.byte0 f.opcode = false := by
  have hfin : decide (128 ≤ f.byte0.toNat) = f.fin := by
    simp only [f.byte0_div, Bool.decide_eq_true]
  rw [nextFrag, hfin]
  rcases h with h | h
  · rw [h]
    simp
  · rw [h]
    simp

/-- A call over a frame that it can read. -/
theorem readFrame_clear (h : k.Arrived f form rest) (hdata : Opcode.IsData f.opcode)
    (hfin : f.fin = true ∨ f.opcode = Opcode.continuation) (hc : k.start.Clear f form) :
    ∃ k', k.start.Consumed k' f form ∧
      k.readFrame = .ok (⟨f.payload.length, f.opcode, some (.bbuffer 0)⟩, k') := by
  obtain ⟨k', hk', hpass⟩ := pass_clear h.start hdata hc false Opcode.invalid
  rw [nextFrag_false hfin, if_neg Bool.false_ne_true] at hpass
  have hlen : k'.packetlen = f.payload.length := by
    obtain ⟨m, mb, b, -, -, -, rfl⟩ := hk'
    exact Int.zero_add _
  rw [hlen] at hpass
  exact ⟨k', hk', readFrame_of_pass_ret hpass⟩

/-- A call over a frame that it cannot read delivers nothing. -/
theorem readFrame_not_clear (h : k.Arrived f form rest) (hdata : Opcode.IsData f.opcode)
    (hc : ¬k.start.Clear f form) :
    (∃ r k', k.readFrame = .ok (r, k') ∧ r.data = none ∧ k'.down ≠ 0) ∨
      k.readFrame = .error .overflow := by
  rcases pass_not_clear h.start hdata hc false Opcode.invalid with ⟨r, k', hpass, hr⟩ | hpass
  · exact .inl ⟨r, k', readFrame_of_pass_ret hpass, hr⟩
  · exact .inr (readFrame_of_pass_fault hpass)

end Kws

/-! ## A run of calls -/

/-- What the caller of `kws_read_frame` is given. -/
structure Delivery where
  ret : ℤ
  oc : Opcode
  payload : Option (List UInt8)
  deriving DecidableEq, Repr

/-- The delivery of a frame. -/
def Delivery.ofFrame (f : Frame) : Delivery := ⟨f.payload.length, f.opcode, some f.payload⟩

namespace Kws

variable {k k' : Kws} {f : Frame} {form : LengthForm} {rest : List UInt8} {frames : List Frame}

/-- What the caller finds behind the result `r`. -/
def delivery (k : Kws) (r : FrameResult) : Delivery :=
  ⟨r.ret, r.oc, r.data.map fun p => k.load p r.ret.toNat⟩

/-- `n` calls of `kws_read_frame`. -/
def readFrames : ℕ → Kws → Except Fault (List Delivery × Kws)
  | 0, k => .ok ([], k)
  | n + 1, k => do
    let (r, k) ← k.readFrame
    let (ds, k') ← readFrames n k
    return (k.delivery r :: ds, k')

/-- One call, and the ones behind it. -/
theorem readFrames_succ {n : ℕ} {ds : List Delivery} {k₂ : Kws}
    (h : k.readFrames (n + 1) = .ok (ds, k₂)) :
    ∃ r k₁ ds', k.readFrame = .ok (r, k₁) ∧ k₁.readFrames n = .ok (ds', k₂) ∧
      ds = k₁.delivery r :: ds' := by
  rw [readFrames] at h
  cases hr : k.readFrame with
  | error e =>
    rw [hr] at h
    exact absurd h (by simp [bind, Except.bind])
  | ok p =>
    obtain ⟨r, k₁⟩ := p
    rw [hr] at h
    simp only [bind, Except.bind] at h
    cases hn : k₁.readFrames n with
    | error e =>
      rw [hn] at h
      exact absurd h (by simp)
    | ok p =>
      obtain ⟨ds', k₂'⟩ := p
      rw [hn] at h
      simp only [pure, Except.pure, Except.ok.injEq, Prod.mk.injEq] at h
      obtain ⟨rfl, rfl⟩ := h
      exact ⟨r, k₁, ds', rfl, hn, rfl⟩

theorem readFrames_succ_iff {n : ℕ} {r : FrameResult} {d : Delivery} {ds : List Delivery}
    (h : k.readFrame = .ok (r, k')) :
    (∃ k₂, k.readFrames (n + 1) = .ok (d :: ds, k₂)) ↔
      k'.delivery r = d ∧ ∃ k₂, k'.readFrames n = .ok (ds, k₂) := by
  constructor
  · rintro ⟨k₂, hrun⟩
    obtain ⟨r₁, k₁, ds₁, hr, hn, hds⟩ := readFrames_succ hrun
    rw [h] at hr
    simp only [Except.ok.injEq, Prod.mk.injEq] at hr
    obtain ⟨rfl, rfl⟩ := hr
    obtain ⟨rfl, rfl⟩ := List.cons_eq_cons.1 hds
    exact ⟨rfl, k₂, hn⟩
  · rintro ⟨rfl, k₂, hn⟩
    exact ⟨k₂, by rw [readFrames, h]; simp only [bind, Except.bind, hn]; rfl⟩

theorem readFrames_ne {n : ℕ} {ds : List Delivery} (h : (k.readFrames n).map Prod.fst ≠ .ok ds) :
    ¬∃ k', k.readFrames n = .ok (ds, k') := by
  rintro ⟨k', hk⟩
  exact h (by rw [hk]; rfl)

/-- Every frame is read on its own: the reads of its header end before the next
    frame starts, and those of its payload do not stall. -/
def Apart (ssl : Bool) : List ReadEvent → List Frame → Prop
  | _, [] => True
  | es, f :: frames =>
    pullLength es ≤ f.encode.length ∧
      Flows ssl (after (max (pullLength es) (f.headerLength (.shortest f.payload.length))) es)
        (f.encode.length - max (pullLength es) (f.headerLength (.shortest f.payload.length))) ∧
      Apart ssl (after f.encode.length es) frames

/-- Whether a frame comes through is decided by where its bytes break off. -/
theorem clear_start_iff (hmax : k.payloadSizeMax = 0) (hlen : f.payload.length < 2 ^ 63) :
    k.start.Clear f (.shortest f.payload.length) ↔
      pullLength k.world.reads ≤ f.encode.length ∧
        Flows k.ssl (after (max (pullLength k.world.reads)
            (f.headerLength (.shortest f.payload.length))) k.world.reads)
          (f.encode.length - max (pullLength k.world.reads)
            (f.headerLength (.shortest f.payload.length))) := by
  rw [Frame.encode, Frame.length_encodeAs]
  constructor
  · rintro ⟨hpull, -, -, -, hflow⟩
    exact ⟨hpull, hflow⟩
  · rintro ⟨hpull, hflow⟩
    exact ⟨hpull, Nat.two_pow_pos 31, by rw [show k.start.body = 0 from rfl]; omega,
      fun h => h.2.1 hmax, hflow⟩

/-- A frame that `kws_write_frame` sends to be read by one call. -/
structure Single (f : Frame) : Prop where
  fin : f.fin = true
  opcode : f.opcode = Opcode.text ∨ f.opcode = Opcode.binary ∨ f.opcode = Opcode.ping ∨
    f.opcode = Opcode.pong
  length : f.payload.length < 2 ^ 63

instance : DecidablePred Single := fun f =>
  decidable_of_iff (f.fin = true ∧ (f.opcode = Opcode.text ∨ f.opcode = Opcode.binary ∨
      f.opcode = Opcode.ping ∨ f.opcode = Opcode.pong) ∧ f.payload.length < 2 ^ 63)
    ⟨fun h => ⟨h.1, h.2.1, h.2.2⟩, fun h => ⟨h.fin, h.opcode, h.length⟩⟩

theorem Single.isData (h : Single f) : Opcode.IsData f.opcode := .inr h.opcode

/-- What has been consumed is what is delivered. -/
theorem Consumed.delivery (h : k.start.Consumed k' f form) :
    k'.delivery ⟨f.payload.length, f.opcode, some (.bbuffer 0)⟩ = .ofFrame f := by
  obtain ⟨m, mb, b, hm, -, -, rfl⟩ := h
  rw [Kws.delivery, Delivery.ofFrame, Option.map_some]
  exact congrArg (fun p => Delivery.mk _ _ (some p)) hm

theorem Consumed.payloadSizeMax (h : k.start.Consumed k' f form) :
    k'.payloadSizeMax = k.payloadSizeMax ∧ k'.ssl = k.ssl := by
  obtain ⟨m, mb, b, -, -, -, rfl⟩ := h
  exact ⟨rfl, rfl⟩

/-- The calls return the frames sent, one each and in order, if and only if
    every frame is read on its own. -/
theorem readFrames_eq_iff (frames : List Frame) (hk : k.Ready) (hmax : k.payloadSizeMax = 0)
    (hframes : ∀ f ∈ frames, Single f)
    (hreads : avail k.world.reads = frames.flatMap Frame.encode) :
    (∃ k', k.readFrames frames.length = .ok (frames.map .ofFrame, k')) ↔
      Apart k.ssl k.world.reads frames := by
  induction frames generalizing k with
  | nil => exact iff_of_true ⟨k, rfl⟩ trivial
  | cons f frames ih =>
    have hf := hframes f List.mem_cons_self
    have harr : k.Arrived f (.shortest f.payload.length) (frames.flatMap Frame.encode) :=
      ⟨hk, LengthForm.fits_shortest hf.length, by rw [hreads, List.flatMap_cons, Frame.encode]⟩
    rw [Apart, ← and_assoc, ← clear_start_iff hmax hf.length, List.length_cons]
    by_cases hc : k.start.Clear f (.shortest f.payload.length)
    · obtain ⟨k', hk', hread⟩ := readFrame_clear harr hf.isData (.inl hf.fin) hc
      have hih := ih (k := k') (hk'.ready harr.start.ready.toOpen) (by rw [hk'.payloadSizeMax.1, hmax])
        (fun g hg => hframes g (List.mem_cons_of_mem _ hg)) (hk'.avail harr.start)
      rw [hk'.payloadSizeMax.2, hk'.reads] at hih
      rw [List.map_cons, readFrames_succ_iff hread, and_iff_right hk'.delivery, and_iff_right hc]
      exact hih
    · refine iff_of_false ?_ fun h => hc h.1
      rintro ⟨k', hrun⟩
      rcases readFrame_not_clear harr hf.isData hc with ⟨r, k₁, hread, hr, -⟩ | hread
      · have hd := ((readFrames_succ_iff hread).1 ⟨k', hrun⟩).1
        rw [delivery, hr] at hd
        exact absurd (congrArg Delivery.payload hd) (by simp [Delivery.ofFrame])
      · rw [readFrames, hread] at hrun
        exact absurd hrun (by simp [bind, Except.bind])

/-- A blocking connection that is established, with answers to its reads. -/
def established (reads : List ReadEvent) : Kws :=
  { logicalEstablished := true, handshake := true, block := wsBlock, world := { reads } }

theorem ready_established {reads : List ReadEvent} (h : NonEmpty reads) :
    (established reads).Ready :=
  ⟨⟨⟨(by decide : 5000 ≠ 0), rfl, rfl, rfl⟩, rfl, .inr rfl, (by decide : 16 ≤ 65536), h⟩,
    patient_of_x rfl (.inr rfl)⟩

/-- Two frames of nine bytes each, in reads of four, nine and five bytes. -/
theorem readFrames_eq_iff_nine :
    ∃ k', (established [.data [0x81, 7, 65, 66], .data [67, 68, 69, 70, 71, 0x89, 7, 72, 73],
        .data [74, 75, 76, 77, 78]]).readFrames 2 =
      .ok ([⟨7, Opcode.text, some [65, 66, 67, 68, 69, 70, 71]⟩,
        ⟨7, Opcode.ping, some [72, 73, 74, 75, 76, 77, 78]⟩], k') := by
  refine (readFrames_eq_iff [⟨true, Opcode.text, none, [65, 66, 67, 68, 69, 70, 71]⟩,
    ⟨true, Opcode.ping, none, [72, 73, 74, 75, 76, 77, 78]⟩] (ready_established (by decide)) rfl
    (by decide) (by decide)).2 ⟨by decide, ?_, by decide, ?_, trivial⟩
  · exact flows_of_lt (by decide) (by decide) (by decide)
  · exact flows_of_lt (by decide) (by decide) (by decide)

/-- Two short frames that arrive together: the first reads take the second one
    for a part of the first, and the connection is closed. -/
theorem readFrames_short :
    let frames : List Frame :=
      [⟨true, Opcode.text, none, [65, 66]⟩, ⟨true, Opcode.binary, none, [67]⟩]
    let k := established [.data [0x81, 2, 65, 66, 0x82, 1, 67]]
    k.Ready ∧ k.payloadSizeMax = 0 ∧ (∀ f ∈ frames, Single f) ∧
      avail k.world.reads = frames.flatMap Frame.encode ∧
      ¬∃ k', k.readFrames frames.length = .ok (frames.map .ofFrame, k') := by
  refine ⟨ready_established (by decide), rfl, by decide, by decide, ?_⟩
  exact readFrames_ne (by decide +kernel)

end Kws

end Libks
