import Libks.Buffer.Bounds

/-!
# Reading in loops

`ks_buffer_read_loop` reads what is left, and then from the front again. What it
copies goes on where the read before has stopped, and starts over at the end of
what was written (`copied_cyclic`). What it returns, where it had to start over, is
the length of the second part alone (`counts_iff`).
-/

namespace Libks

open Base

namespace KsBuffer

variable {b b' : KsBuffer} {B bs : List UInt8} {n : ℕ} {op : Op} {ops : List Op}

/-- The buffer holds `B` from the front of its block on, some of it unread. -/
structure Tape (b : KsBuffer) (B : List UInt8) : Prop where
  within : b.Within
  length : b.actuallyUsed = B.length
  content : b.data.read 0 B.length = B

/-- The calls that play a tape. -/
def Plays : Op → Prop
  | .readLoop _ | .setLoops _ => True
  | _ => False

instance : DecidablePred Plays
  | .readLoop _ | .setLoops _ => .isTrue trivial
  | .write _ _ | .read _ | .toss _ | .seek _ | .readPacket _ | .zero | .zwrite _ _ _ => .isFalse id

/-- What `ks_buffer_read_loop` does with `n` bytes asked for. -/
def Counts (B : List UInt8) (b : KsBuffer) : Op → Out → KsBuffer → Prop
  | .readLoop n, out, _ =>
    out.1 = out.2.length ∧ (b.loops ≠ 0 → n ≤ b.used + B.length → out.1 = n)
  | _, _, _ => True

/-- Where it returns what it should: it does not have to start over with bytes in hand. -/
def Straight (b : KsBuffer) : Op → Prop
  | .readLoop n => n ≤ b.used ∨ b.loops = 0 ∨ b.used = 0
  | _ => True

instance (b : KsBuffer) : DecidablePred b.Straight
  | .readLoop _ => inferInstanceAs (Decidable (_ ∨ _))
  | .write _ _ | .read _ | .toss _ | .seek _ | .readPacket _ | .zero | .zwrite _ _ _
  | .setLoops _ => .isTrue trivial

/-! ## One call -/

theorem Tape.unread (h : b.Tape B) : b.unread = B.drop b.head := by
  have hsum := h.within.sum
  have hlen := h.length
  have hused : b.used = B.length - b.head := by omega
  rw [KsBuffer.unread, hused]
  conv_rhs => rw [← h.content]
  rw [Mem.drop_read _ _ _ _ (by omega), Nat.zero_add]

theorem Tape.dropped (h : b.Tape B) (n : ℕ) : (b.dropped n).Tape B :=
  ⟨dropped_within h.within n, h.length, h.content⟩

/-- The buffer at its front again. -/
def rewound (b : KsBuffer) : KsBuffer := { b with head := 0, used := b.actuallyUsed }

theorem Tape.rewound (h : b.Tape B) : b.rewound.Tape B :=
  ⟨rewound_within h.within, h.length, h.content⟩

/-- The loop counter says nothing about the bytes. -/
theorem Tape.setLoops (h : b.Tape B) (loops : ℤ) : { b with loops }.Tape B :=
  ⟨⟨h.within.sum, h.within.le, h.within.pos, h.within.lt⟩, h.length, h.content⟩

theorem readLoop_eq (h : b.Within) (n : ℕ) :
    b.readLoop n =
      if min n b.used < n then
        if b.loops = 0 then .ok ((min n b.used, b.unread.take n), b.dropped n)
        else b.rewound.read (n - min n b.used) >>= fun r =>
          .ok ((r.1.1, b.unread.take n ++ r.1.2), { r.2 with loops := toInt32 (r.2.loops - 1) })
      else .ok ((min n b.used, b.unread.take n), b.dropped n) := by
  rw [readLoop, read_spec h, ok_bind]
  rfl

/-- A read that does not have to start over, or may not. -/
theorem Tape.readLoop_straight (h : b.Tape B) (hn : n ≤ b.used ∨ b.loops = 0) :
    b.readLoop n = .ok ((min n b.used, b.unread.take n), b.dropped n) := by
  rw [readLoop_eq h.within]
  split_ifs with hlt hl
  · rfl
  · exact absurd (hn.resolve_right hl) (by omega)
  · rfl

/-- A read that starts over. -/
theorem Tape.readLoop_over (h : b.Tape B) (hn : b.used < n) (hl : b.loops ≠ 0) :
    ∃ b', b.readLoop n =
        .ok ((min (n - b.used) B.length, b.unread ++ B.take (n - b.used)), b') ∧
      b'.Tape B ∧ b'.head = min (n - b.used) B.length := by
  have hmin : min n b.used = b.used := Nat.min_eq_right hn.le
  have htake : b.unread.take n = b.unread :=
    List.take_of_length_le (b.length_unread.trans_le hn.le)
  have hall : b.rewound.unread = B := h.rewound.unread
  have hread : b.rewound.read (n - b.used) =
      .ok ((min (n - b.used) B.length, B.take (n - b.used)), b.rewound.dropped (n - b.used)) := by
    rw [read_spec h.rewound.within, hall, ← h.length]
    rfl
  rw [readLoop_eq h.within, hmin, if_pos hn, if_neg hl, hread, ok_bind, htake]
  refine ⟨_, rfl, (h.rewound.dropped _).setLoops _, ?_⟩
  rw [← h.length]
  exact Nat.zero_add _

/-- A call plays on, and is right unless it has to start over with bytes in hand. -/
theorem Tape.call (h : b.Tape B) (hop : Plays op) :
    ∃ out b', b.call op = .ok (out, b') ∧ b'.Tape B ∧ (Counts B b op out b' ↔ b.Straight op) := by
  cases op with
  | setLoops loops =>
    exact ⟨_, _, rfl, h.setLoops loops, iff_of_true trivial trivial⟩
  | readLoop n =>
    by_cases hn : n ≤ b.used ∨ b.loops = 0
    · refine ⟨_, _, h.readLoop_straight hn, h.dropped n, iff_of_true ⟨?_, fun hl _ => ?_⟩
        (hn.imp_right .inl)⟩
      · rw [List.length_take, length_unread]
      · exact Nat.min_eq_left (hn.resolve_right hl)
    · obtain ⟨hn, hl⟩ := not_or.1 hn
      obtain ⟨b', hcall, hb', -⟩ := h.readLoop_over (Nat.lt_of_not_le hn) hl
      refine ⟨_, b', hcall, hb', ?_⟩
      have hlen : (b.unread ++ B.take (n - b.used)).length =
          b.used + min (n - b.used) B.length := by
        rw [List.length_append, length_unread, List.length_take]
      rw [Counts, Straight, hlen]
      constructor
      · rintro ⟨hcount, -⟩
        exact .inr (.inr (by omega))
      · intro hs
        have hz := (hs.resolve_left hn).resolve_left hl
        exact ⟨by omega, fun _ hle => by omega⟩
  | _ => exact hop.elim

/-- What a call copies goes on where the reads before have stopped. -/
theorem Tape.call_copied (h : b.Tape B) (hop : Plays op) {out : Out}
    (hcall : b.call op = .ok (out, b')) :
    ∃ j, B.take b.head ++ out.2 = (List.replicate j B).flatten ++ B.take b'.head := by
  have hsum := h.within.sum
  have hlen := h.length
  cases op with
  | setLoops loops =>
    cases hcall
    exact ⟨0, List.append_nil _⟩
  | readLoop n =>
    by_cases hn : n ≤ b.used ∨ b.loops = 0
    · cases (h.readLoop_straight hn).symm.trans hcall
      refine ⟨0, ?_⟩
      have hmin : b.unread.take n = b.unread.take (min n b.used) := by
        rw [← List.take_take, List.take_of_length_le (b.length_unread.trans_le le_rfl)]
      rw [hmin, h.unread, ← List.take_add]
      rfl
    · obtain ⟨hn, hl⟩ := not_or.1 hn
      obtain ⟨b₁, hover, -, hhead⟩ := h.readLoop_over (Nat.lt_of_not_le hn) hl
      cases hover.symm.trans hcall
      refine ⟨1, ?_⟩
      rw [h.unread, hhead, ← List.append_assoc, List.take_append_drop, ← List.take_take,
        List.take_length]
      simp
  | _ => exact hop.elim

/-- What calls in a row copy is read off the bytes over and over again. -/
theorem copied_cyclic (h : b.Tape B) (hops : ∀ op ∈ ops, Plays op) {outs : List Out}
    (hrun : calls call b ops = .ok (outs, b')) :
    ∃ j, B.take b.head ++ outs.flatMap Prod.snd = (List.replicate j B).flatten ++ B.take b'.head := by
  induction ops generalizing b outs with
  | nil =>
    cases hrun
    exact ⟨0, List.append_nil _⟩
  | cons op ops ih =>
    obtain ⟨hop, hops⟩ := List.forall_mem_cons.1 hops
    obtain ⟨⟨out, b₁⟩, hcall, hrun⟩ := bind_eq_ok.1 hrun
    obtain ⟨⟨outs₁, b₂⟩, hrest, hrun⟩ := bind_eq_ok.1 hrun
    cases hrun
    obtain ⟨out', b₁', hcall', hb₁, -⟩ := h.call hop
    cases hcall.symm.trans hcall'
    obtain ⟨i, hi⟩ := h.call_copied hop hcall
    obtain ⟨j, hj⟩ := ih hb₁ hops hrest
    refine ⟨i + j, ?_⟩
    rw [List.flatMap_cons, ← List.append_assoc, hi, List.append_assoc, hj, List.replicate_add,
      List.flatten_append, List.append_assoc]

theorem exists_calls (h : b.Tape B) (hops : ∀ op ∈ ops, Plays op) :
    ∃ outs b', calls call b ops = .ok (outs, b') := by
  induction ops generalizing b with
  | nil => exact ⟨_, _, rfl⟩
  | cons op ops ih =>
    obtain ⟨hop, hops⟩ := List.forall_mem_cons.1 hops
    obtain ⟨out, b₁, hcall, hb₁, -⟩ := h.call hop
    obtain ⟨outs, b₂, hrest⟩ := ih hb₁ hops
    refine ⟨out :: outs, b₂, ?_⟩
    rw [calls, hcall, ok_bind]
    dsimp only
    rw [hrest]
    rfl

/-- Calls in a row return what they should, if none of them starts over with bytes in hand. -/
theorem obeys_counts_iff (h : b.Tape B) (hops : ∀ op ∈ ops, Plays op) :
    Obeys call (Counts B) b ops ↔ Along call Straight b ops := by
  refine obeys_iff_along (J := fun c => c.Tape B) (P := fun _ op => Plays op ∧ True)
    (fun c op hc hop hst => ?_) (fun c op out c' hc hop hst hcall hcount => hst ?_) h
    ((Along.of_forall (fun _ _ => trivial) b ops).and_of_forall hops)
  · obtain ⟨out, c', hcall, hc', hiff⟩ := hc.call hop.1
    exact ⟨out, c', hcall, hiff.2 hst, hc'⟩
  · obtain ⟨out', c'', hcall', -, hiff⟩ := hc.call hop.1
    cases hcall.symm.trans hcall'
    exact hiff.1 hcount

/-! ## A buffer that was filled -/

theorem head_store {w : ℕ} (h : b.store bs = .ok (w, b')) : b'.head = b.head := by
  rw [store] at h
  split_ifs at h
  · cases h
    rfl
  · rw [copyIn] at h
    split_ifs at h
    · cases h
      rfl
    · cases h

/-- What is read from the front stays there when more is written. -/
theorem head_write {w : ℕ} {granted : Bool} (h0 : b.head = 0)
    (h : b.write bs granted = .ok (w, b')) : b'.head = 0 := by
  rw [write] at h
  split_ifs at h
  · cases h
    exact h0
  obtain ⟨b₁, hroom, happend⟩ := bind_eq_ok.1 h
  have h₁ : b₁.head = 0 := by
    rw [makeRoom] at hroom
    split_ifs at hroom
    · obtain ⟨bs₁, -, hroom⟩ := bind_eq_ok.1 hroom
      obtain ⟨b₂, -, hroom⟩ := bind_eq_ok.1 hroom
      cases hroom
      rfl
    · cases hroom
      exact h0
  rw [append] at happend
  split_ifs at happend
  · exact head_store happend
  · cases happend
    rfl
  · exact (head_store happend).trans h₁

/-- Writes into a fresh buffer. -/
theorem tape_of_writes {writes : List Op} {outs : List Out} (h : b.Within) (h0 : b.head = 0)
    (hwrites : ∀ op ∈ writes, ∃ bs granted, op = .write bs granted)
    (hs : Along call Sized b writes) (hrun : calls call b writes = .ok (outs, b')) :
    b'.Tape b'.unread ∧ b'.head = 0 := by
  induction writes generalizing b outs with
  | nil =>
    cases hrun
    have hsum := h.sum
    have hlen : b'.actuallyUsed = b'.unread.length := by
      rw [length_unread]
      omega
    refine ⟨⟨h, hlen, ?_⟩, h0⟩
    rw [length_unread, KsBuffer.unread, h0]
  | cons op writes ih =>
    obtain ⟨⟨bs, granted, rfl⟩, hrestwrites⟩ := List.forall_mem_cons.1 hwrites
    obtain ⟨⟨out, b₁⟩, hcall, hrun⟩ := bind_eq_ok.1 hrun
    obtain ⟨⟨outs₁, b₂⟩, hrest, hrun⟩ := bind_eq_ok.1 hrun
    cases hrun
    obtain ⟨⟨w, b₁'⟩, hw, hcall'⟩ := bind_eq_ok.1 hcall
    cases hcall'
    have hk : ¬b.Skips bs.length := fun hk => hk.2.2.2.2 h0
    obtain ⟨w', b₁', hw', h₁, -⟩ := write_spec h hs.1 hk granted
    cases hw.symm.trans hw'
    exact ih h₁ (head_write h0 hw) hrestwrites (hs.2 _ _ hcall) hrest

/-- **What `ks_buffer_read_loop` returns.** -/
theorem counts_iff {blocksize startLen maxLen : ℕ} {writes : List Op} {outs₀ : List Out}
    (hpos : 0 < startLen) (hlt : startLen < 2 ^ 64)
    (hwrites : ∀ op ∈ writes, ∃ bs granted, op = .write bs granted)
    (hs : Along call Sized (create blocksize startLen maxLen) writes)
    (hb : calls call (create blocksize startLen maxLen) writes = .ok (outs₀, b))
    (hops : ∀ op ∈ ops, Plays op) :
    (Obeys call (Counts b.unread) b ops ∧
      ∃ outs b' k, calls call b ops = .ok (outs, b') ∧
        outs.flatMap Prod.snd <+: (List.replicate k b.unread).flatten) ↔
      Along call Straight b ops := by
  obtain ⟨htape, hhead⟩ := tape_of_writes (create_within hpos hlt) rfl hwrites hs hb
  rw [obeys_counts_iff htape hops, and_iff_left]
  obtain ⟨outs, b', hrun⟩ := exists_calls htape hops
  obtain ⟨j, hj⟩ := copied_cyclic htape hops hrun
  rw [hhead, List.take_zero, List.nil_append] at hj
  refine ⟨outs, b', j + 1, hrun, ?_⟩
  rw [hj, List.replicate_succ', List.flatten_concat]
  exact (List.prefix_append_right_inj _).2 (List.take_prefix _ _)

/-- A buffer with three bytes. -/
theorem calls_write_three :
    calls call (create 0 4 0) [.write [1, 2, 3] true] =
      .ok ([(3, [])], (create 0 4 0).stored [1, 2, 3]) := by
  have hw : (create 0 4 0).write [1, 2, 3] true = .ok (3, (create 0 4 0).stored [1, 2, 3]) := by
    rw [write, if_neg (by decide), if_neg (by decide), makeRoom, if_neg (by decide +kernel),
      ok_bind, append, if_neg (by decide +kernel),
      store_eq (by decide) (by decide) (by decide)]
    rfl
  rw [calls, call, hw]
  rfl

/-- The calls end where the bytes do. -/
theorem counts_iff_twice :
    Obeys call (Counts [1, 2, 3]) ((create 0 4 0).stored [1, 2, 3])
        [.setLoops (-1), .readLoop 1, .readLoop 2, .readLoop 3] ∧
      ∃ outs b' k, calls call ((create 0 4 0).stored [1, 2, 3])
          [.setLoops (-1), .readLoop 1, .readLoop 2, .readLoop 3] = .ok (outs, b') ∧
        outs.flatMap Prod.snd <+: (List.replicate k [1, 2, 3]).flatten :=
  (counts_iff (by decide) (by decide) (fun op hop => ⟨_, _, List.mem_singleton.1 hop⟩)
    (by decide +kernel) calls_write_three (by decide +kernel)).2 (by decide +kernel)

/-- The second call stores two bytes, and returns `1`. -/
theorem not_counts_over :
    calls call (create 0 4 0) [.write [1, 2, 3] true] =
        .ok ([(3, [])], (create 0 4 0).stored [1, 2, 3]) ∧
      ¬Obeys call (Counts [1, 2, 3]) ((create 0 4 0).stored [1, 2, 3])
        [.setLoops (-1), .readLoop 2, .readLoop 2] := by
  refine ⟨calls_write_three, ?_⟩
  have htape := (tape_of_writes (create_within (by decide) (by decide)) rfl
    (fun op hop => ⟨_, _, List.mem_singleton.1 hop⟩) (by decide +kernel) calls_write_three).1
  rw [show ((create 0 4 0).stored [1, 2, 3]).unread = [1, 2, 3] from rfl] at htape
  rw [obeys_counts_iff htape (by decide +kernel)]
  decide +kernel

end KsBuffer

end Libks
