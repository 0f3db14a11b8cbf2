import Libks.Kws.WriteFrame

/-!
# Writing a run of frames

What a run of `kws_write_frame` calls puts on the wire depends on how much of
each frame the transport takes (`takes`) before a call gives up. A call that has
given up in the middle of a frame leaves no trace in the connection: the next
one starts a new frame. So the bytes on the wire are those of whole frames, the
last of them possibly cut short, in the runs in which the transport takes
nothing any more once it has taken a part of a frame (`writeFrames_framed`).
-/

namespace Libks

open Base

/-- How many of `n` bytes the answers of the transport take in `tries` tries.
    Each try asks for all that is left; an error that is final ends the tries, and
    so does a result of `0` for a TLS session. -/
def takes (ssl : Bool) : ℕ → ℕ → List WriteEvent → ℕ
  | 0, _, _ => 0
  | _ + 1, _, [] => 0
  | tries + 1, n, .accept k :: es =>
    let r := min (requestSize n) k
    if ssl ∧ (Refused true n ∨ r = 0) then 0 else r + takes ssl tries (n - r) es
  | tries + 1, n, .zero _ :: es => if ssl then 0 else takes ssl tries n es
  | tries + 1, n, .failed err :: es => if err.isWant then takes ssl tries n es else 0

theorem takes_le (ssl : Bool) (tries n : ℕ) (es : List WriteEvent) : takes ssl tries n es ≤ n := by
  induction es generalizing tries n with
  | nil => cases tries <;> exact Nat.zero_le n
  | cons e es ih =>
    cases tries with
    | zero => exact Nat.zero_le n
    | succ tries =>
      cases e with
      | accept k =>
        have hr : min (requestSize n) k ≤ n := Nat.le_trans (Nat.min_le_left _ _) (requestSize_le n)
        have hrest := ih tries (n - min (requestSize n) k)
        rw [takes]
        split_ifs
        · exact Nat.zero_le n
        · omega
      | zero err =>
        rw [takes]
        split_ifs
        · exact Nat.zero_le n
        · exact ih tries n
      | failed err =>
        rw [takes]
        split_ifs
        · exact ih tries n
        · exact Nat.zero_le n

@[simp] theorem takes_zero (ssl : Bool) (tries : ℕ) (es : List WriteEvent) :
    takes ssl tries 0 es = 0 :=
  Nat.le_zero.1 (takes_le ssl tries 0 es)

@[simp] theorem takes_no_tries (ssl : Bool) (n : ℕ) (es : List WriteEvent) : takes ssl 0 n es = 0 := rfl

/-- Bytes taken in two goes. -/
theorem append_take_drop (acc data : List UInt8) (wrote r t : ℕ) :
    acc ++ (data.drop wrote).take r ++ (data.drop (wrote + r)).take t =
      acc ++ (data.drop wrote).take (r + t) := by
  rw [List.append_assoc, List.take_add, List.drop_drop]

/-- The loop around `send` sends what the transport takes. -/
theorem sendLoop_accepted (data : List UInt8) (sanity wrote : ℕ) (acc : List UInt8)
    (es : List WriteEvent) :
    (sendLoop data sanity wrote acc es).accepted =
      acc ++ (data.drop wrote).take (takes false sanity (data.length - wrote) es) := by
  induction sanity generalizing wrote acc es with
  | zero => simp [sendLoop]
  | succ sanity ih =>
    cases es with
    | nil => simp [sendLoop, takes]
    | cons e es =>
      cases e with
      | accept k =>
        simp only [sendLoop, takes, Bool.false_eq_true, false_and, if_false]
        generalize min (requestSize (data.length - wrote)) k = r
        rw [← append_take_drop, ← Nat.sub_add_eq]
        split_ifs with h
        · have hrest : takes false sanity (data.length - (wrote + r)) es = 0 := by
            rcases h with rfl | h
            · exact takes_no_tries _ _ _
            · rw [Nat.sub_eq_zero_of_le h, takes_zero]
          rw [hrest, List.take_zero, List.append_nil]
        · exact ih _ _ _
      | zero err =>
        simp only [sendLoop, takes, Bool.false_eq_true, if_false]
        split_ifs with h
        · have hrest : takes false sanity (data.length - wrote) es = 0 := by
            rcases h with rfl | h
            · exact takes_no_tries _ _ _
            · rw [Nat.sub_eq_zero_of_le h, takes_zero]
          rw [hrest, List.take_zero, List.append_nil]
        · exact ih _ _ _
      | failed err =>
        simp only [sendLoop, takes]
        by_cases hw : err.isWant = true
        · rw [if_pos hw]
          split_ifs with h
          · have hrest : takes false sanity (data.length - wrote) es = 0 := by
              rcases h with h | rfl | h
              · exact absurd hw h
              · exact takes_no_tries _ _ _
              · rw [Nat.sub_eq_zero_of_le h, takes_zero]
            rw [hrest, List.take_zero, List.append_nil]
          · exact ih _ _ _
        · rw [if_neg hw, if_pos (.inl hw), List.take_zero, List.append_nil]

/-- The loop around `SSL_write` sends what the transport takes. -/
theorem sslWriteLoop_accepted (data : List UInt8) (sanity wrote : ℕ) (acc : List UInt8)
    (es : List WriteEvent) :
    (sslWriteLoop data sanity wrote acc es).accepted =
      acc ++ (data.drop wrote).take (takes true sanity (data.length - wrote) es) := by
  induction sanity generalizing wrote acc es with
  | zero => simp [sslWriteLoop]
  | succ sanity ih =>
    cases es with
    | nil => simp [sslWriteLoop, takes]
    | cons e es =>
      cases e with
      | accept k =>
        simp only [sslWriteLoop, takes, true_and]
        generalize min (requestSize (data.length - wrote)) k = r
        by_cases hrefused : Refused true (data.length - wrote)
        · rw [if_pos hrefused, if_pos (.inl hrefused), List.take_zero, List.append_nil]
        by_cases h0 : r = 0
        · rw [if_neg hrefused, if_pos h0, if_pos (.inr h0), List.take_zero, List.append_nil]
        rw [if_neg hrefused, if_neg h0, if_neg (not_or.2 ⟨hrefused, h0⟩), ← append_take_drop,
          ← Nat.sub_add_eq]
        split_ifs with hs h
        · rw [hs, takes_no_tries, List.take_zero, List.append_nil]
        · rw [Nat.sub_eq_zero_of_le h, takes_zero, List.take_zero, List.append_nil]
        · exact ih _ _ _
      | zero err => simp [sslWriteLoop, takes]
      | failed err =>
        simp only [sslWriteLoop, takes]
        by_cases hw : err.isWant = true
        · rw [if_pos hw, if_neg (not_not_intro hw)]
          split_ifs with hs h
          · rw [hs, takes_no_tries, List.take_zero, List.append_nil]
          · rw [Nat.sub_eq_zero_of_le h, takes_zero, List.take_zero, List.append_nil]
          · exact ih _ _ _
        · rw [if_neg hw, if_pos hw, List.take_zero, List.append_nil]

namespace Kws

variable {k : Kws} {oc : Opcode} {data : List UInt8}

theorem rawWrite_sent (k : Kws) (data : List UInt8) :
    (k.rawWrite data).2.world.sent =
      k.world.sent ++ data.take (takes k.ssl wsWriteSanity data.length k.world.writes) := by
  rw [rawWrite]
  cases k.ssl with
  | true =>
    have h := sslWriteLoop_accepted data wsWriteSanity 0 [] k.world.writes
    rw [List.nil_append, List.drop_zero, Nat.sub_zero] at h
    exact congrArg (k.world.sent ++ ·) h
  | false =>
    have h := sendLoop_accepted data wsWriteSanity 0 [] k.world.writes
    rw [List.nil_append, List.drop_zero, Nat.sub_zero] at h
    exact congrArg (k.world.sent ++ ·) h

/-! ## A run of calls -/

/-- A call of `kws_write_frame`: the frame it is for, and how many bytes of it the
    transport takes. -/
structure Attempt where
  frame : List UInt8
  taken : ℕ
  deriving DecidableEq, Repr

/-- The call with the opcode and the payload. -/
def attempt (k : Kws) (oc : Opcode) (data : List UInt8) : Attempt :=
  let frame := (k.frameFor oc data).encode
  ⟨frame, if k.down ≠ 0 then 0 else takes k.ssl wsWriteSanity frame.length k.world.writes⟩

/-- `kws_write_frame`, called for each of the opcodes and payloads. -/
def writeFrames : List (Opcode × List UInt8) → Kws → Except Fault (List ℤ × Kws)
  | [], k => .ok ([], k)
  | (oc, data) :: calls, k => do
    let (ret, k) ← k.writeFrame oc data
    let (rets, k) ← writeFrames calls k
    return (ret :: rets, k)

/-- What the calls of such a run are for, and what the transport takes of them. -/
def attempts : List (Opcode × List UInt8) → Kws → List Attempt
  | [], _ => []
  | (oc, data) :: calls, k =>
    match k.writeFrame oc data with
    | .error _ => []
    | .ok (_, k') => k.attempt oc data :: attempts calls k'

/-- The frames of which the transport takes something. -/
def framesOf (as : List Attempt) : List UInt8 :=
  (as.filter fun a => 0 < a.taken).flatMap Attempt.frame

/-- The transport takes nothing of `b` once it has taken a part of `a`. -/
def Attempt.Before (a b : Attempt) : Prop :=
  a.taken = 0 ∨ a.frame.length ≤ a.taken ∨ b.taken = 0

instance : DecidableRel Attempt.Before := fun _ _ => inferInstanceAs (Decidable (_ ∨ _ ∨ _))

/-- What is taken is a part of whole frames, in a row. -/
theorem prefix_framesOf {as : List Attempt} (h : as.Pairwise Attempt.Before) :
    (as.flatMap fun a => a.frame.take a.taken) <+: framesOf as := by
  induction as with
  | nil => exact List.prefix_refl []
  | cons a as ih =>
    obtain ⟨ha, has⟩ := List.pairwise_cons.1 h
    rw [List.flatMap_cons, framesOf, List.filter_cons]
    by_cases h0 : a.taken = 0
    · rw [h0, List.take_zero, List.nil_append, if_neg (by simp)]
      exact ih has
    rw [if_pos (by simpa using Nat.pos_of_ne_zero h0), List.flatMap_cons]
    by_cases hfull : a.frame.length ≤ a.taken
    · rw [List.take_of_length_le hfull]
      exact (List.prefix_append_right_inj _).2 (ih has)
    · have hnil : (as.flatMap fun a => a.frame.take a.taken) = [] := by
        refine List.flatMap_eq_nil_iff.2 fun b hb => ?_
        have hb := (ha b hb).resolve_left h0
        rw [hb.resolve_left hfull, List.take_zero]
      rw [hnil, List.append_nil]
      exact (List.take_prefix _ _).trans (List.prefix_append _ _)

/-- A call sends what the transport takes of its frame. -/
theorem writeFrame_sent (k : Kws) (oc : Opcode) (hn : data.length < 2 ^ 63) :
    ∃ ret k', k.writeFrame oc data = .ok (ret, k') ∧
      k'.world.sent =
        k.world.sent ++ (k.attempt oc data).frame.take (k.attempt oc data).taken := by
  rw [attempt]
  by_cases hdown : k.down = 0
  · obtain ⟨m, len, random, hbuild⟩ := buildFrame_eq k oc hn
    obtain ⟨ret, hwrite⟩ := writeFrame_eq hdown hbuild
    refine ⟨ret, _, hwrite, ?_⟩
    rw [if_neg (not_not_intro hdown)]
    exact rawWrite_sent _ _
  · refine ⟨-1, k, if_pos hdown, ?_⟩
    rw [if_pos hdown, List.take_zero, List.append_nil]

theorem writeFrames_sent {calls : List (Opcode × List UInt8)}
    (hlen : ∀ c ∈ calls, c.2.length < 2 ^ 63) :
    ∃ rets k', k.writeFrames calls = .ok (rets, k') ∧
      k'.world.sent =
        k.world.sent ++ (k.attempts calls).flatMap fun a => a.frame.take a.taken := by
  induction calls generalizing k with
  | nil => exact ⟨[], k, rfl, (List.append_nil _).symm⟩
  | cons c calls ih =>
    obtain ⟨oc, data⟩ := c
    obtain ⟨ret, k₁, hwrite, hsent₁⟩ := writeFrame_sent k oc (hlen _ List.mem_cons_self)
    obtain ⟨rets, k', hrun, hsent⟩ := ih (k := k₁) fun c hc => hlen c (List.mem_cons_of_mem _ hc)
    refine ⟨ret :: rets, k', ?_, ?_⟩
    · rw [writeFrames, hwrite]
      simp only [bind, Except.bind, hrun]
      rfl
    · rw [attempts, hwrite, hsent, hsent₁, List.flatMap_cons, List.append_assoc]

/-- As long as the transport takes nothing any more once it has taken a part of a
    frame, what a run of calls has sent is a part of whole frames in a row, one a
    call, without those of which nothing was sent. -/
theorem writeFrames_framed (k : Kws) (calls : List (Opcode × List UInt8))
    (hlen : ∀ c ∈ calls, c.2.length < 2 ^ 63)
    (htakes : (k.attempts calls).Pairwise Attempt.Before) :
    ∃ rets k' bs, k.writeFrames calls = .ok (rets, k') ∧ k'.world.sent = k.world.sent ++ bs ∧
      bs <+: framesOf (k.attempts calls) := by
  obtain ⟨rets, k', hrun, hsent⟩ := writeFrames_sent (k := k) hlen
  exact ⟨rets, k', _, hrun, hsent, prefix_framesOf htakes⟩

/-- A server's connection with answers to its writes. -/
def serving (writes : List WriteEvent) : Kws :=
  { type := .server, flags := { dontMask := true }, logicalEstablished := true, handshake := true,
    world := { writes } }

/-- A text sent in two goes, and another of which nothing is sent. -/
theorem writeFrames_framed_pieces :
    ∃ rets k' bs,
      (serving [.accept 3, .failed .wantWrite, .accept 9, .failed .syscall]).writeFrames
        [(Opcode.text, [72, 105]), (Opcode.text, [33])] = .ok (rets, k') ∧
      k'.world.sent = [] ++ bs ∧ bs <+: [0x81, 2, 72, 105] := by
  exact writeFrames_framed (serving _) [(Opcode.text, [72, 105]), (Opcode.text, [33])]
    (by decide) (by decide +kernel)

/-- The transport takes the first byte of a text and blocks until the call gives
    up; the next call starts a new frame in the middle of it. -/
theorem writeFrames_torn :
    let k := serving (.accept 1 :: List.replicate 199 (.failed .wantWrite) ++ [.accept 9])
    let calls := [(Opcode.text, [72, 105]), (Opcode.text, [33])]
    (∀ c ∈ calls, c.2.length < 2 ^ 63) ∧
      ¬∃ rets k' bs, k.writeFrames calls = .ok (rets, k') ∧ k'.world.sent = k.world.sent ++ bs ∧
        bs <+: framesOf (k.attempts calls) := by
  intro k calls
  refine ⟨by decide, ?_⟩
  rintro ⟨rets, k', bs, hrun, hsent, hbs⟩
  have h : (k.writeFrames calls).map (·.2.world.sent) = .ok [0x81, 0x81, 1, 33] := by decide +kernel
  rw [hrun] at h
  obtain rfl : bs = [0x81, 0x81, 1, 33] := hsent.symm.trans (Except.ok.inj h)
  exact absurd hbs (by decide +kernel)

end Kws

end Libks
