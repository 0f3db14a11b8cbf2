import Libks.Kws.FrameRun

/-!
# Fragmented messages

A message that comes in fragments, with pings and pongs between them
(`Message`), over a transport that may block before any frame (`Interleaves`).
A call of `kws_read_frame` reports the opcode of the last frame it has read, so
no call delivers such a message under the opcode it was sent with
(`not_delivers_message`).
-/

namespace Libks

open Base Rfc6455

/-! ## Streams of frames -/

/-- What the answers to reads amount to, byte by byte; `none` where the
    transport would block. -/
inductive Answers : List ReadEvent → List (Option UInt8) → Prop
  | nil : Answers [] []
  | data {es : List ReadEvent} {s : List (Option UInt8)} {bs : List UInt8} (hbs : bs ≠ [])
      (h : Answers es s) : Answers (.data bs :: es) (bs.map some ++ s)
  | wait {es : List ReadEvent} {s : List (Option UInt8)} (h : Answers es s) :
      Answers (.failed .wantRead :: es) (none :: s)

/-- The frames, in order, with waits between them. -/
inductive Interleaves : List Frame → List (Option UInt8) → Prop
  | nil : Interleaves [] []
  | wait {fs : List Frame} {s : List (Option UInt8)} (h : Interleaves fs s) :
      Interleaves fs (none :: s)
  | frame {f : Frame} {fs : List Frame} {s : List (Option UInt8)} (h : Interleaves fs s) :
      Interleaves (f :: fs) (f.encode.map some ++ s)

variable {es : List ReadEvent} {s t : List (Option UInt8)} {bs : List UInt8}

theorem Answers.nonEmpty (h : Answers es s) : NonEmpty es := by
  induction h with
  | nil => exact fun bs hbs => absurd hbs List.not_mem_nil
  | data hbs h ih =>
    intro cs hcs
    rcases List.mem_cons.1 hcs with hc | hc
    · injection hc with hc
      rwa [hc]
    · exact ih cs hc
  | wait h ih =>
    intro cs hcs
    rcases List.mem_cons.1 hcs with hc | hc
    · exact absurd hc (by simp)
    · exact ih cs hc

theorem Answers.eq_nil (h : Answers es []) : es = [] := by
  generalize ht : ([] : List (Option UInt8)) = t at h
  cases h with
  | nil => rfl
  | data hbs h => exact absurd (List.map_eq_nil_iff.1 (List.append_eq_nil_iff.1 ht.symm).1) hbs
  | wait h => exact absurd ht (by simp)

theorem Answers.of_wait (h : Answers es (none :: s)) :
    ∃ es', es = .failed .wantRead :: es' ∧ Answers es' s := by
  generalize ht : none :: s = t at h
  cases h with
  | nil => exact absurd ht (by simp)
  | @data es u bs hbs h =>
    cases bs with
    | nil => exact absurd rfl hbs
    | cons b bs => exact absurd ht (by simp)
  | wait h =>
    obtain ⟨-, rfl⟩ := List.cons_eq_cons.1 ht
    exact ⟨_, rfl, h⟩

/-- Bytes at the front of the answers are about to be delivered, and the rest
    comes behind them. -/
theorem Answers.split (h : Answers es t) (ht : t = bs.map some ++ s) :
    (∃ rest, avail es = bs ++ rest) ∧ Answers (after bs.length es) s := by
  induction h generalizing bs with
  | nil =>
    obtain ⟨hbs, hs⟩ := List.append_eq_nil_iff.1 ht.symm
    obtain rfl := List.map_eq_nil_iff.1 hbs
    subst hs
    exact ⟨⟨[], rfl⟩, .nil⟩
  | @data es u cs hcs h ih =>
    rcases List.append_eq_append_iff.1 ht with ⟨ds, hds, hu⟩ | ⟨ds, hds, hu⟩
    · -- The chunk ends before the bytes do.
      obtain ⟨cs', bs', rfl, hcs', rfl⟩ := List.map_eq_append_iff.1 hds
      obtain rfl := List.map_injective_iff.2 (Option.some_injective _) hcs'
      obtain ⟨⟨rest, hrest⟩, hafter⟩ := ih hu
      refine ⟨⟨rest, by rw [avail, hrest, List.append_assoc]⟩, ?_⟩
      rw [after, if_pos (by simp), List.length_append, Nat.add_sub_cancel_left]
      exact hafter
    · -- The bytes end inside the chunk.
      obtain ⟨bs', cs', rfl, hbs', rfl⟩ := List.map_eq_append_iff.1 hds
      obtain rfl := List.map_injective_iff.2 (Option.some_injective _) hbs'
      subst hu
      refine ⟨⟨cs' ++ avail es, by rw [avail, List.append_assoc]⟩, ?_⟩
      by_cases hcs' : cs' = []
      · subst hcs'
        rw [List.append_nil, after, if_pos (Nat.le_refl _), Nat.sub_self, after_zero h.nonEmpty]
        exact h
      · have hpos := List.length_pos_iff.2 hcs'
        rw [after, if_neg (by rw [List.length_append]; omega), List.drop_left]
        exact .data hcs' h
  | wait h ih =>
    cases bs with
    | nil =>
      subst ht
      exact ⟨⟨[], rfl⟩, .wait h⟩
    | cons b bs => exact absurd ht (by simp)

/-! ## Frames that no call reports as a text or as binary data -/

/-- A frame that is no message of its own. -/
structure Fragmentary (f : Frame) : Prop where
  isData : Opcode.IsData f.opcode
  length : f.payload.length < 2 ^ 63
  fin : f.opcode = Opcode.text ∨ f.opcode = Opcode.binary → f.fin = false

/-- The result delivers no text and no binary data. -/
def FrameResult.Quiet (r : FrameResult) : Prop :=
  r.data = none ∨ ¬(r.oc = Opcode.text ∨ r.oc = Opcode.binary)

namespace Kws

variable {k k' : Kws} {fs : List Frame} {f : Frame}

/-- Nothing but such frames are still to come. -/
structure Waiting (k : Kws) (fs : List Frame) (s : List (Option UInt8)) : Prop where
  toOpen : k.Open
  answers : Answers k.world.reads s
  interleaves : Interleaves fs s
  block : k.block ≠ 0 → none ∉ s
  fragmentary : ∀ f ∈ fs, Fragmentary f

/-- Nothing but such frames are still to come, or nothing at all. -/
def Done (k : Kws) : Prop := k.down ≠ 0 ∨ ∃ fs s, k.Waiting fs s

theorem nextFrag_of_quiet (h : Fragmentary f) {frag : Bool}
    (hn : nextFrag frag f.byte0 f.opcode = false) :
    ¬(f.opcode = Opcode.text ∨ f.opcode = Opcode.binary) := by
  intro hoc
  have hfin : decide (128 ≤ f.byte0.toNat) = false := by
    simp only [f.byte0_div, h.fin hoc, Bool.decide_eq_true]
  have hcont : f.opcode ≠ Opcode.continuation := by
    rcases hoc with hoc | hoc <;> rw [hoc] <;> decide
  rw [nextFrag, hfin] at hn
  simp [hcont] at hn

/-- A pass that ends before it has read a frame. -/
theorem pass_of_pullHeader {e : Exit} {oc : Opcode} (h : k.Open) (frag : Bool)
    (hpull : k.pullHeader oc = .error e) : k.pass frag oc = .error e := by
  rw [pass, h.toUp.enter]
  simp only [bind, Except.bind, hpull]

/-- What a pass leaves behind: it goes around between frames, or ends the call
    without a text and without binary data. -/
theorem pass_waiting {s : List (Option UInt8)} (h : k.Waiting fs s) (frag : Bool) (oc : Opcode) :
    (∃ e, k.pass frag oc = .error (.fault e)) ∨
      (∃ r k', k.pass frag oc = .error (.ret r k') ∧ r.Quiet ∧ k'.Done) ∨
      ∃ frag' oc' k', k.pass frag oc = .ok (frag', oc', k') ∧ ∃ fs s, k'.Waiting fs s := by
  have hclosed : Closed (k.pass frag oc) →
      ∃ r k', k.pass frag oc = .error (.ret r k') ∧ r.Quiet ∧ k'.Done :=
    fun ⟨r, k', hpass, hr, hd⟩ => ⟨r, k', hpass, .inl hr, .inl hd⟩
  have hpull : Closed (k.pullHeader oc) → Closed (k.pass frag oc) :=
    fun ⟨r, k', hp, hr⟩ => ⟨r, k', pass_of_pullHeader h.toOpen frag hp, hr⟩
  obtain ⟨hopen, hans, hint, hblock, hfrag⟩ := h
  cases hint with
  | nil => exact .inr (.inl (hclosed (hpull (pullHeader_end hopen hans.eq_nil oc))))
  | @wait _ s hs =>
    obtain ⟨es, hreads, hes⟩ := hans.of_wait
    have hb : k.block = 0 := by
      by_contra hb
      exact hblock hb List.mem_cons_self
    rcases pullHeader_wait hopen hb hreads oc with hp | ⟨m, hp⟩
    · exact .inr (.inl (hclosed (hpull hp)))
    · refine .inr (.inl ⟨_, _, pass_of_pullHeader hopen frag hp, .inl rfl, .inr ⟨fs, s, ?_⟩⟩)
      exact ⟨⟨⟨hopen.sanity, hopen.established, hopen.handshake, hopen.down⟩, hopen.unprocessed,
        hopen.block, hopen.buflen, hes.nonEmpty⟩, hes, hs, fun h => absurd hb h, hfrag⟩
  | @frame f fs s hs =>
    have hf := hfrag f List.mem_cons_self
    obtain ⟨⟨rest, havail⟩, hafter⟩ := hans.split rfl
    -- The header comes in time or not, and there is room for the payload or not.
    by_cases hp : k.Patient k.block
    · have harr : k.Arrived f (.shortest f.payload.length) rest :=
        ⟨⟨hopen, hp⟩, LengthForm.fits_shortest hf.length, havail⟩
      by_cases hc : k.Clear f (.shortest f.payload.length)
      · obtain ⟨k', hk', hpass⟩ := pass_clear harr hf.isData hc frag oc
        have hk : k'.Waiting fs s := by
          refine ⟨(hk'.ready hopen).toOpen, by rw [hk'.reads]; exact hafter, hs, ?_,
            fun g hg => hfrag g (List.mem_cons_of_mem _ hg)⟩
          have hb : k'.block = k.block := by
            obtain ⟨m, mb, b, -, -, -, rfl⟩ := hk'
            rfl
          rw [hb]
          exact fun h hmem => hblock h (List.mem_append_right _ hmem)
        cases hn : nextFrag frag f.byte0 f.opcode with
        | true =>
          rw [hn, if_pos rfl] at hpass
          exact .inr (.inr ⟨_, _, k', hpass, fs, s, hk⟩)
        | false =>
          rw [hn, if_neg Bool.false_ne_true] at hpass
          exact .inr (.inl ⟨_, k', hpass, .inr (nextFrag_of_quiet hf hn), .inr ⟨fs, s, hk⟩⟩)
      · rcases pass_not_clear harr hf.isData hc frag oc with hpass | hpass
        · exact .inr (.inl (hclosed hpass))
        · exact .inl ⟨_, hpass⟩
    · have hne : Libks.avail k.world.reads ≠ [] := by
        rw [havail]
        exact List.ne_nil_of_length_pos (by
          rw [List.length_append, Frame.encode, Frame.length_encodeAs]
          have := two_le_headerLength f (.shortest f.payload.length)
          omega)
      exact .inr (.inl (hclosed (hpull (pullHeader_impatient hopen hp hne oc))))

/-- The same of a whole call. -/
theorem againLoop_waiting {s : List (Option UInt8)} {fuel : ℕ} {r : FrameResult}
    (h : k.Waiting fs s) {frag : Bool} {oc : Opcode}
    (hrun : againLoop fuel k frag oc = .ok (r, k')) : r.Quiet ∧ k'.Done := by
  induction fuel generalizing k fs s frag oc with
  | zero => exact absurd hrun (by simp [againLoop])
  | succ fuel ih =>
    rw [againLoop] at hrun
    rcases pass_waiting h frag oc with ⟨e, hp⟩ | ⟨r₁, k₁, hp, hr, hk⟩ |
      ⟨frag₁, oc₁, k₁, hp, fs₁, s₁, hk⟩
    · rw [hp] at hrun
      exact absurd hrun (by simp)
    · rw [hp] at hrun
      simp only [Except.ok.injEq, Prod.mk.injEq] at hrun
      obtain ⟨rfl, rfl⟩ := hrun
      exact ⟨hr, hk⟩
    · rw [hp] at hrun
      exact ih hk hrun

theorem readFrame_done {r : FrameResult} (h : k.Done) (hrun : k.readFrame = .ok (r, k')) :
    r.Quiet ∧ k'.Done := by
  rcases h with h | ⟨fs, s, h⟩
  · obtain ⟨r₁, k₁, henter, hr, hd⟩ := enter_down (k := k.start) h Opcode.invalid
    have hpass : k.start.pass false Opcode.invalid = .error (.ret r₁ k₁) := by
      rw [pass, henter]
      rfl
    rw [readFrame_of_pass_ret hpass] at hrun
    simp only [Except.ok.injEq, Prod.mk.injEq] at hrun
    obtain ⟨rfl, rfl⟩ := hrun
    exact ⟨.inl hr, .inl hd⟩
  · have hstart : k.start.Waiting fs s :=
      ⟨h.toOpen.start, h.answers, h.interleaves, h.block, h.fragmentary⟩
    exact againLoop_waiting hstart hrun

/-- No number of calls delivers a text or binary data. -/
theorem readFrames_done {n : ℕ} {ds : List Delivery} (h : k.Done)
    (hrun : k.readFrames n = .ok (ds, k')) :
    ∀ d ∈ ds, d.payload = none ∨ ¬(d.oc = Opcode.text ∨ d.oc = Opcode.binary) := by
  induction n generalizing k ds with
  | zero =>
    simp only [readFrames, Except.ok.injEq, Prod.mk.injEq] at hrun
    obtain ⟨rfl, -⟩ := hrun
    exact fun d hd => absurd hd List.not_mem_nil
  | succ n ih =>
    obtain ⟨r, k₁, ds', hr, hn, rfl⟩ := readFrames_succ hrun
    obtain ⟨hquiet, hk₁⟩ := readFrame_done h hr
    intro d hd
    rcases List.mem_cons.1 hd with rfl | hd
    · exact hquiet.imp_left fun hr => by rw [delivery, hr, Option.map_none]
    · exact ih hk₁ hn d hd

end Kws

/-! ## Messages in fragments -/

/-- A control frame. -/
def Control (f : Frame) : Prop :=
  f.fin = true ∧ (f.opcode = Opcode.ping ∨ f.opcode = Opcode.pong)

/-- A continuation of the message. -/
def Continues (f : Frame) : Prop := f.opcode = Opcode.continuation

instance : DecidablePred Continues := fun _ => inferInstanceAs (Decidable (_ = _))

/-- The frames of a message in fragments, and of the pings and pongs between them. -/
structure Message where
  first : Frame
  middle : List Frame
  last : Frame
  first_opcode : first.opcode = Opcode.text ∨ first.opcode = Opcode.binary
  first_fin : first.fin = false
  middle_frame : ∀ f ∈ middle, Control f ∨ Continues f ∧ f.fin = false
  last_continues : Continues last
  last_fin : last.fin = true
  length : ∀ f ∈ first :: middle ++ [last], f.payload.length < 2 ^ 63

namespace Message

variable (m : Message)

/-- The frames on the wire. -/
def frames : List Frame := m.first :: m.middle ++ [m.last]

/-- The payload of the message: the fragments, without the control frames. -/
def payload : List UInt8 :=
  m.first.payload ++ (m.middle.filter Continues).flatMap Frame.payload ++ m.last.payload

theorem fragmentary (f : Frame) (hf : f ∈ m.frames) : Fragmentary f := by
  have hlen := m.length f hf
  rw [frames, List.cons_append, List.mem_cons, List.mem_append, List.mem_singleton] at hf
  rcases hf with rfl | hf | rfl
  · exact ⟨.inr (by have := m.first_opcode; tauto), hlen, fun _ => m.first_fin⟩
  · rcases m.middle_frame f hf with ⟨hfin, hoc⟩ | ⟨hoc, hfin⟩
    · refine ⟨.inr (by tauto), hlen, fun h => ?_⟩
      rcases hoc with hoc | hoc <;> rw [hoc] at h <;> exact absurd h (by decide)
    · exact ⟨.inl hoc, hlen, fun _ => hfin⟩
  · refine ⟨.inl m.last_continues, hlen, fun h => ?_⟩
    rw [m.last_continues] at h
    exact absurd h (by decide)

end Message

namespace Kws

/-- Some number of calls delivers the payload, once, under the opcode. -/
def Delivers (k : Kws) (oc : Opcode) (payload : List UInt8) : Prop :=
  ∃ n ds k', k.readFrames n = .ok (ds, k') ∧
    ds.count ⟨payload.length, oc, some payload⟩ = 1

theorem Done.not_delivers {k : Kws} (h : k.Done) {oc : Opcode}
    (hoc : oc = Opcode.text ∨ oc = Opcode.binary) (payload : List UInt8) :
    ¬k.Delivers oc payload := by
  rintro ⟨n, ds, k', hrun, hcount⟩
  have hmem := List.count_pos_iff.1 (by rw [hcount]; exact Nat.one_pos)
  rcases readFrames_done h hrun _ hmem with hd | hd
  · exact absurd hd (by simp)
  · exact hd hoc

/-- Whatever its fragments, the control frames between them, the waits and the
    chunks they arrive in, a message in fragments is not delivered under the
    opcode it was sent with. -/
theorem not_delivers_message {k : Kws} {s : List (Option UInt8)} (m : Message) (hk : k.Open)
    (hreads : Answers k.world.reads s) (hframes : Interleaves m.frames s)
    (hblock : k.block ≠ 0 → none ∉ s) : ¬k.Delivers m.first.opcode m.payload :=
  Done.not_delivers (.inr ⟨m.frames, s, hk, hreads, hframes, hblock, m.fragmentary⟩)
    m.first_opcode m.payload

/-- A text in two fragments, with a ping between them. -/
def pingedMessage : Message where
  first := ⟨false, Opcode.text, none, ascii "Hello, "⟩
  middle := [⟨true, Opcode.ping, none, ascii "1234567"⟩]
  last := ⟨true, Opcode.continuation, none, ascii "world!!"⟩
  first_opcode := .inl rfl
  first_fin := rfl
  middle_frame := by
    intro f hf
    rw [List.mem_singleton.1 hf]
    exact .inl ⟨rfl, .inl rfl⟩
  last_continues := rfl
  last_fin := rfl
  length := by decide

/-- The message, on a connection that does not block and has to wait for it. -/
theorem not_delivers_message_pinged :
    ¬Delivers { established (.failed .wantRead :: pingedMessage.frames.map (.data ·.encode)) with
      block := 0 } Opcode.text (ascii "Hello, world!!") := by
  refine not_delivers_message (s := none :: pingedMessage.frames.flatMap (·.encode.map some))
    pingedMessage ⟨⟨by decide, rfl, rfl, rfl⟩, rfl, .inl rfl, by decide, by decide⟩ ?_ ?_
    (fun h => absurd rfl h)
  · exact .wait (.data (by decide) (.data (by decide) (.data (by decide) .nil)))
  · exact .wait (.frame (.frame (.frame .nil)))

/-- All that is delivered of it is a continuation, with the ping in the text. -/
theorem readFrames_pinged :
    let k := established (pingedMessage.frames.map (.data ·.encode))
    let s := pingedMessage.frames.flatMap (·.encode.map some)
    k.Open ∧ Answers k.world.reads s ∧ Interleaves pingedMessage.frames s ∧
      (k.block ≠ 0 → none ∉ s) ∧
      (k.readFrames 2).map Prod.fst =
        .ok [⟨21, Opcode.continuation, some (ascii "Hello, 1234567world!!")⟩,
          ⟨0, Opcode.invalid, none⟩] ∧
      ¬k.Delivers pingedMessage.first.opcode pingedMessage.payload := by
  have hne : NonEmpty (pingedMessage.frames.map (.data ·.encode)) := by decide
  have hopen := (ready_established hne).toOpen
  have hans : Answers (pingedMessage.frames.map (.data ·.encode))
      (pingedMessage.frames.flatMap (·.encode.map some)) :=
    .data (by decide) (.data (by decide) (.data (by decide) .nil))
  have hint : Interleaves pingedMessage.frames
      (pingedMessage.frames.flatMap (·.encode.map some)) := .frame (.frame (.frame .nil))
  have hblock : none ∉ pingedMessage.frames.flatMap (·.encode.map some) := by decide
  refine ⟨hopen, hans, hint, fun _ => hblock, by decide +kernel, ?_⟩
  exact Done.not_delivers (.inr ⟨_, _, hopen, hans, hint, fun _ => hblock, pingedMessage.fragmentary⟩)
    pingedMessage.first_opcode _

end Kws

end Libks
