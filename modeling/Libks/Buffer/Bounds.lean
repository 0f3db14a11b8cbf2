import Libks.Base.Calls
import Libks.Buffer.State

/-!
# Where a buffer copies

A buffer is `Within` its block if the unread bytes end where the written ones
do, and these in the block. A write that skips the move to the front, because
it goes beyond `max_len`, loses that: it writes behind the block, or resets the
head without the bytes it pointed to (`KsBuffer.Skips`).

* `read_spec`, `write_spec`: what a call does to a buffer within its block;
* `stays_iff`: calls in a row keep every buffer within its block, and copy
  nothing outside it, if and only if none of them skips.
-/

namespace Libks

open Base

namespace KsBuffer

variable {b b' : KsBuffer} {bs : List UInt8} {n : ℕ}

/-- The written bytes end in the block, and the unread ones with them. -/
structure Within (b : KsBuffer) : Prop where
  sum : b.head + b.used = b.actuallyUsed
  le : b.actuallyUsed ≤ b.datalen
  pos : 0 < b.datalen
  lt : b.datalen < 2 ^ 64

/-- A new buffer is within its bounds. -/
theorem create_within {blocksize startLen maxLen : ℕ} (hpos : 0 < startLen)
    (hlt : startLen < 2 ^ 64) : (create blocksize startLen maxLen).Within :=
  ⟨rfl, Nat.zero_le _, hpos, hlt⟩

theorem length_unread (b : KsBuffer) : b.unread.length = b.used := Mem.length_read _ _ _

/-- No more can be read than has been written. -/
theorem available_eq (b : KsBuffer) (n : ℕ) : b.available n = min n b.used := by
  rw [available]
  split_ifs with h
  · exact (Nat.min_eq_left h).symm
  · exact (Nat.min_eq_right (by omega)).symm

/-! ## Reading -/

/-- The buffer with its `n` oldest bytes taken off, or all of them. -/
def dropped (b : KsBuffer) (n : ℕ) : KsBuffer :=
  { b with used := b.used - min n b.used, head := b.head + min n b.used }

/-- A buffer from which bytes are dropped stays within its bounds. -/
theorem dropped_within (h : b.Within) (n : ℕ) : (b.dropped n).Within := by
  refine ⟨?_, h.le, h.pos, h.lt⟩
  rw [dropped, ← h.sum]
  dsimp only
  omega

/-- What is dropped comes off the front. -/
theorem unread_dropped (b : KsBuffer) (n : ℕ) : (b.dropped n).unread = b.unread.drop n := by
  rw [unread, unread, dropped]
  dsimp only
  rcases Nat.le_total n b.used with hn | hn
  · rw [Nat.min_eq_left hn, Mem.drop_read _ _ _ _ hn]
  · rw [Nat.min_eq_right hn, Nat.sub_self, Mem.read_zero,
      List.drop_eq_nil_of_le (by rwa [Mem.length_read])]

theorem dropped_of_empty (h : b.used < 1) (n : ℕ) : b.dropped n = { b with used := 0 } := by
  rw [dropped, show b.used = 0 by omega, Nat.min_zero]
  rfl

theorem sub64_used (hlt : b.used < 2 ^ 64) (n : ℕ) :
    sub64 b.used (min n b.used) = b.used - min n b.used :=
  sub64_of_le (Nat.min_le_right _ _) hlt

theorem Within.used_lt (h : b.Within) : b.used < 2 ^ 64 := by
  have := h.sum
  have := h.le
  have := h.lt
  omega

theorem toss_eq (hlt : b.used < 2 ^ 64) (n : ℕ) : b.toss n = (b.used - n, b.dropped n) := by
  rw [toss]
  split_ifs with hu
  · rw [dropped_of_empty hu, show b.used - n = 0 by omega]
  · rw [available_eq]
    dsimp only
    rw [sub64_used hlt, dropped]
    exact Prod.ext (by dsimp only; omega) rfl

/-- `ks_buffer_toss`. -/
theorem toss_spec (h : b.Within) (n : ℕ) : b.toss n = (b.used - n, b.dropped n) :=
  toss_eq h.used_lt n

theorem read_eq (hpos : 0 < b.datalen) (hlt : b.used < 2 ^ 64)
    (hin : b.head + b.used ≤ b.datalen) (n : ℕ) :
    b.read n = .ok ((min n b.used, b.unread.take n), b.dropped n) := by
  rw [read, if_neg hpos.ne']
  split_ifs with hu
  · have hnil : b.unread = [] := List.length_eq_zero_iff.1 (by rw [length_unread]; omega)
    rw [dropped_of_empty hu, hnil, List.take_nil, show min n b.used = 0 by omega]
  · have htake : b.data.read b.head (min n b.used) = b.unread.take n := by
      rw [unread, ← Mem.take_read _ _ _ _ (Nat.min_le_right n b.used)]
      refine List.take_eq_take_iff.2 ?_
      rw [Mem.length_read]
      omega
    rw [available_eq]
    dsimp only
    rw [copyOut, if_pos (by omega), sub64_used hlt, htake]
    rfl

/-- `ks_buffer_read`. -/
theorem read_spec (h : b.Within) (n : ℕ) :
    b.read n = .ok ((min n b.used, b.unread.take n), b.dropped n) :=
  read_eq h.pos h.used_lt (h.sum ▸ h.le) n

theorem seek_within (h : b.Within) (n : ℕ) : (b.seek n).2.Within := by
  have hsum := h.sum
  have hle := h.le
  have hlt := h.lt
  rw [seek]
  split_ifs with hu
  · exact ⟨by dsimp only; omega, hle, h.pos, hlt⟩
  · rw [available_eq]
    refine ⟨?_, hle, h.pos, hlt⟩
    dsimp only
    rw [sub64_of_le (by omega) (by omega)]
    omega

theorem rewound_within (h : b.Within) : { b with head := 0, used := b.actuallyUsed }.Within :=
  ⟨Nat.zero_add _, h.le, h.pos, h.lt⟩

/-- `ks_buffer_read_loop`. -/
theorem readLoop_within (h : b.Within) (n : ℕ) :
    ∃ out b', b.readLoop n = .ok (out, b') ∧ b'.Within := by
  rw [readLoop, read_spec h]
  have hd := dropped_within h n
  simp only [bind, Except.bind, read_spec (rewound_within hd)]
  split_ifs
  · exact ⟨_, _, rfl, hd⟩
  · have hr := dropped_within (rewound_within hd) (n - min n b.used)
    exact ⟨_, _, rfl, hr.sum, hr.le, hr.pos, hr.lt⟩
  · exact ⟨_, _, rfl, hd⟩

/-! ## Writing -/

/-- A write of `n` bytes leaves the unread ones where they are, away from the
    front, though there is no room behind them. -/
def Skips (b : KsBuffer) (n : ℕ) : Prop :=
  0 < n ∧ b.datalen < b.actuallyUsed + n ∧ b.maxLen ≠ 0 ∧ b.maxLen < b.used + n ∧ b.head ≠ 0

instance (b : KsBuffer) : DecidablePred b.Skips := fun _ => inferInstanceAs (Decidable (_ ∧ _))

/-- The bytes in use are moved to the front. -/
theorem compact_spec (h : b.Within) :
    ∃ m, b.compact = .ok { b with data := m, head := 0, actuallyUsed := b.used } ∧
      m.read 0 b.used = b.unread := by
  have hsum := h.sum
  have hle := h.le
  refine ⟨b.data.write 0 b.unread, ?_, ?_⟩
  · rw [compact, copyOut, if_pos (by omega)]
    simp only [bind, Except.bind]
    rw [copyIn, if_pos (by rw [Mem.length_read]; omega)]
    rfl
  · have := Mem.read_write_self b.data 0 b.unread
    rwa [length_unread] at this

/-- Room made by a write that does not skip it. -/
theorem makeRoom_spec (h : b.Within) (hs : b.datalen + n < 2 ^ 64) (hn : 0 < n)
    (hk : ¬b.Skips n) :
    ∃ b', b.makeRoom n = .ok b' ∧ b'.Within ∧ b'.unread = b.unread ∧ b'.used = b.used ∧
      b'.datalen = b.datalen ∧ b'.maxLen = b.maxLen ∧
      (b'.head = 0 ∨ b'.actuallyUsed + n ≤ b'.datalen) := by
  have hsum := h.sum
  have hle := h.le
  rw [makeRoom, sub64_of_le hle h.lt, add64_of_lt (by omega)]
  split_ifs with hc
  · obtain ⟨m, hm, hread⟩ := compact_spec h
    exact ⟨_, hm, ⟨Nat.zero_add _, by dsimp only; omega, h.pos, h.lt⟩, hread, rfl, rfl, rfl, .inl rfl⟩
  · refine ⟨b, rfl, h, rfl, rfl, rfl, rfl, ?_⟩
    rw [Skips] at hk
    omega

/-- A new size has room for what is written, and does not wrap. -/
theorem newSize_spec (hs : b.datalen + n < 2 ^ 64) :
    b.datalen + n ≤ b.newSize n ∧ b.newSize n < 2 ^ 64 := by
  rw [newSize, add64_of_lt hs]
  have hlt := add64_lt b.datalen b.blocksize
  split_ifs <;> omega

/-- The buffer with bytes stored behind the unread ones. -/
def stored (b : KsBuffer) (bs : List UInt8) : KsBuffer :=
  { b with
    data := b.data.write (b.head + b.used) bs
    used := b.used + bs.length
    actuallyUsed := b.actuallyUsed + bs.length }

/-- What is stored comes behind what is there. -/
theorem unread_stored (b : KsBuffer) (bs : List UInt8) :
    (b.stored bs).unread = b.unread ++ bs := by
  have hread : (b.data.write (b.head + b.unread.length) bs).read b.head
      (b.unread.length + bs.length) = b.unread ++ bs :=
    Mem.read_write_append (by rw [length_unread]; rfl) bs
  rwa [length_unread] at hread

/-- Bytes are stored in a block with room for them. -/
theorem store_eq (hin : b.head + b.used + bs.length ≤ b.datalen)
    (ha : b.actuallyUsed + bs.length < 2 ^ 64) (hlt : b.datalen < 2 ^ 64) :
    b.store bs = .ok (b.used + bs.length, b.stored bs) := by
  have hused : add64 b.used bs.length = b.used + bs.length := add64_of_lt (by omega)
  rw [store, sub64_of_le (by omega) hlt, if_neg (by omega), copyIn, if_pos (by omega), ok_bind]
  dsimp only
  rw [hused, add64_of_lt ha]
  rfl

/-- The bytes are stored behind the unread ones, in a block with room for them. -/
theorem store_spec (h : b.Within) (hin : b.actuallyUsed + bs.length ≤ b.datalen) (hbs : bs ≠ []) :
    ∃ b', b.store bs = .ok (b'.used, b') ∧ b'.Within ∧ b'.maxLen = b.maxLen ∧
      0 < b'.used ∧ b'.unread = b.unread ++ bs := by
  have hsum := h.sum
  have hlt := h.lt
  have hn := List.length_pos_iff.2 hbs
  refine ⟨b.stored bs, store_eq (by omega) (by omega) hlt, ⟨?_, hin, h.pos, hlt⟩, rfl,
    Nat.add_pos_right _ hn, unread_stored b bs⟩
  rw [stored]
  dsimp only
  omega

/-- A write stores all of its bytes, or nothing where no memory is to be had. -/
theorem append_spec (h : b.Within) (hs : b.datalen + bs.length < 2 ^ 64) (hbs : bs ≠ [])
    (hroom : b.head = 0 ∨ b.actuallyUsed + bs.length ≤ b.datalen) (granted : Bool) :
    ∃ w b', b.append bs granted = .ok (w, b') ∧ b'.Within ∧ b'.maxLen = b.maxLen ∧
      (0 < w ∧ w = b'.used ∧ b'.unread = b.unread ++ bs ∨
        granted = false ∧ w = 0 ∧ b'.datalen = b.datalen ∧ b'.unread = b.unread) := by
  have hsum := h.sum
  have hle := h.le
  have hlt := h.lt
  rw [append, sub64_of_le (by omega) hlt]
  by_cases hgrow : b.datalen - b.used < bs.length
  · have hhead : b.head = 0 := hroom.resolve_right (by omega)
    rw [if_pos hgrow]
    cases granted with
    | false =>
      have hb : { b with head := 0 } = b := by rw [← hhead]
      rw [if_neg Bool.false_ne_true, hb]
      exact ⟨0, b, rfl, h, rfl, .inr ⟨rfl, rfl, rfl, rfl⟩⟩
    | true =>
      obtain ⟨hge, hlt'⟩ := newSize_spec hs
      have hgrown : { b with head := 0, datalen := b.newSize bs.length }.Within :=
        ⟨by dsimp only; omega, by dsimp only; omega, by dsimp only; omega, hlt'⟩
      obtain ⟨c, hc, hwithin, hmax, hpos, hunread⟩ :=
        store_spec hgrown (by dsimp only; omega) hbs
      rw [if_pos rfl]
      refine ⟨_, c, hc, hwithin, hmax, .inl ⟨hpos, rfl, ?_⟩⟩
      rw [hunread, unread, unread, hhead]
  · rw [if_neg hgrow]
    obtain ⟨c, hc, hwithin, hmax, hpos, hunread⟩ := store_spec h (by omega) hbs
    exact ⟨_, c, hc, hwithin, hmax, .inl ⟨hpos, rfl, hunread⟩⟩

/-- A write that does not skip the move to the front appends its bytes, or does
    nothing if the block may not grow. -/
theorem write_spec (h : b.Within) (hs : b.datalen + bs.length < 2 ^ 64) (hk : ¬b.Skips bs.length)
    (granted : Bool) :
    ∃ w b', b.write bs granted = .ok (w, b') ∧ b'.Within ∧ b'.maxLen = b.maxLen ∧
      (bs.length ≤ w ∧ w = b'.used ∧ b'.unread = b.unread ++ bs ∧ (w = 0 → b' = b) ∨
        granted = false ∧ w = 0 ∧ b'.datalen = b.datalen ∧ b'.unread = b.unread) := by
  have hpos := h.pos
  rw [write, if_neg (by omega)]
  by_cases hbs : bs = []
  · rw [if_pos (by rw [hbs]; rfl)]
    refine ⟨b.used, b, rfl, h, rfl, .inl ⟨?_, rfl, ?_, fun _ => rfl⟩⟩
    · rw [hbs]
      exact Nat.zero_le _
    · rw [hbs, List.append_nil]
  have hn := List.length_pos_iff.2 hbs
  obtain ⟨b₁, hroom, h₁, hunread₁, -, hlen₁, hmax₁, hor⟩ := makeRoom_spec h hs hn hk
  obtain ⟨w, b', happend, h', hmax, hw⟩ := append_spec h₁ (by rwa [hlen₁]) hbs hor granted
  rw [if_neg (by omega), hroom]
  refine ⟨w, b', ?_, h', hmax.trans hmax₁, ?_⟩
  · rw [ok_bind]
    exact happend
  rw [hlen₁, hunread₁] at hw
  rcases hw with ⟨hpos', hw, hunread⟩ | hfail
  · refine .inl ⟨?_, hw, hunread, by omega⟩
    rw [hw, ← length_unread, hunread, List.length_append]
    omega
  · exact .inr hfail

/-- A write that skips it leaves the block, or loses the unread bytes. -/
theorem write_skips (h : b.Within) (hs : b.datalen + bs.length < 2 ^ 64) (hk : b.Skips bs.length)
    (granted : Bool) :
    (b.used + bs.length ≤ b.datalen → b.write bs granted = .error .outOfBounds) ∧
      (b.datalen < b.used + bs.length → ∃ w b', b.write bs granted = .ok (w, b') ∧
        b'.head + b'.used ≠ b'.actuallyUsed ∧ (granted = true → w ≠ 0) ∧
        (granted = false → w = 0 ∧ b' = { b with head := 0 })) := by
  obtain ⟨hn, hroom, hmax, hover, hhead⟩ := hk
  have hpos := h.pos
  have hsum := h.sum
  have hle := h.le
  have hlt := h.lt
  have hskip : b.makeRoom bs.length = .ok b := by
    rw [makeRoom, sub64_of_le hle hlt, add64_of_lt (by omega), if_neg (by omega)]
  rw [write, if_neg (by omega), if_neg (by omega), hskip, ok_bind, append,
    sub64_of_le (by omega) hlt]
  constructor
  · intro hfit
    rw [if_neg (by omega), store, sub64_of_le (by omega) hlt, if_neg (by omega), copyIn,
      if_neg (by omega), error_bind]
  · intro hgrow
    rw [if_pos (by omega)]
    cases granted with
    | false =>
      rw [if_neg Bool.false_ne_true]
      exact ⟨0, _, rfl, by dsimp only; omega, fun h => absurd h Bool.false_ne_true,
        fun _ => ⟨rfl, rfl⟩⟩
    | true =>
      obtain ⟨hge, hlt'⟩ := newSize_spec hs
      rw [if_pos rfl, store]
      dsimp only
      rw [sub64_of_le (by omega) hlt', if_neg (by omega), copyIn, if_pos (by dsimp only; omega)]
      refine ⟨_, _, rfl, ?_, fun _ => ?_, fun h => absurd h.symm Bool.false_ne_true⟩
      · dsimp only
        rw [add64_of_lt (by omega), add64_of_lt (by omega)]
        omega
      · dsimp only
        rw [add64_of_lt (by omega)]
        omega

/-- `ks_buffer_zero`. -/
theorem zero_spec (h : b.Within) :
    b.zero = .ok { b with used := 0, actuallyUsed := 0, head := 0 } ∧
      { b with used := 0, actuallyUsed := 0, head := 0 }.Within := by
  have hpos := h.pos
  exact ⟨by rw [zero, if_neg (by omega)], rfl, Nat.zero_le _, h.pos, h.lt⟩

/-- The second write of `ks_buffer_zwrite` starts at the front, and skips nothing. -/
theorem not_skips_zeroed (b : KsBuffer) (n : ℕ) :
    ¬{ b with used := 0, actuallyUsed := 0, head := 0 }.Skips n := fun h => h.2.2.2.2 rfl

/-- The second write of `ks_buffer_zwrite` starts from an empty buffer, within the bounds. -/
theorem zwrite_of_write {w : ℕ} {granted again : Bool} (hwrite : b.write bs granted = .ok (w, b'))
    (h : b'.Within) (hs : b'.datalen + bs.length < 2 ^ 64) :
    ∃ w' b'', b.zwrite bs granted again = .ok (w', b'') ∧ b''.Within := by
  rw [zwrite, hwrite, ok_bind]
  dsimp only
  split_ifs with hw
  · obtain ⟨hzero, hwithin⟩ := zero_spec h
    obtain ⟨w', b'', hrun, h'', -⟩ := write_spec hwithin hs (not_skips_zeroed b' _) again
    rw [hzero, ok_bind]
    exact ⟨w', b'', hrun, h''⟩
  · exact ⟨w, b', rfl, h⟩

/-! ## Calls in a row -/

/-- The caller's bytes and the block lie in one address space. -/
def Sized (b : KsBuffer) : Op → Prop
  | .write bs _ | .zwrite bs _ _ => b.datalen + bs.length < 2 ^ 64
  | _ => True

instance (b : KsBuffer) : DecidablePred b.Sized
  | .write _ _ | .zwrite _ _ _ => inferInstanceAs (Decidable (_ < _))
  | .read _ | .toss _ | .seek _ | .readLoop _ | .readPacket _ | .zero | .setLoops _ => .isTrue trivial

/-- The call is a write that skips the move to the front. A `ks_buffer_zwrite`
    repairs what it has broken if the block could not grow. -/
def Overruns (b : KsBuffer) : Op → Prop
  | .write bs _ => b.Skips bs.length
  | .zwrite bs granted _ => b.Skips bs.length ∧ (b.used + bs.length ≤ b.datalen ∨ granted)
  | _ => False

instance (b : KsBuffer) : DecidablePred b.Overruns
  | .write _ _ => inferInstanceAs (Decidable (Skips _ _))
  | .zwrite _ _ _ => inferInstanceAs (Decidable (_ ∧ _))
  | .read _ | .toss _ | .seek _ | .readLoop _ | .readPacket _ | .zero | .setLoops _ => .isFalse id

/-- The unread bytes end where the written ones do, and these in the block. -/
def InBounds (b : KsBuffer) : Prop := b.head + b.used = b.actuallyUsed ∧ b.actuallyUsed ≤ b.datalen

instance : DecidablePred InBounds := fun _ => inferInstanceAs (Decidable (_ ∧ _))

theorem Within.inBounds (h : b.Within) : b.InBounds := ⟨h.sum, h.le⟩

/-- One call. -/
theorem call_within {op : Op} (h : b.Within) (hs : b.Sized op) (ho : ¬b.Overruns op) :
    ∃ out b', b.call op = .ok (out, b') ∧ b'.Within := by
  cases op with
  | write bs granted =>
    obtain ⟨w, b', hw, h', -⟩ := write_spec h hs ho granted
    exact ⟨_, b', by rw [call, hw]; rfl, h'⟩
  | read n => exact ⟨_, _, read_spec h n, dropped_within h n⟩
  | toss n => exact ⟨_, _, rfl, by rw [toss_spec h]; exact dropped_within h n⟩
  | seek n => exact ⟨_, _, rfl, seek_within h n⟩
  | readLoop n => exact readLoop_within h n
  | readPacket n => exact ⟨_, _, read_spec h _, dropped_within h _⟩
  | zero =>
    obtain ⟨hzero, h'⟩ := zero_spec h
    exact ⟨_, _, by rw [call, hzero]; rfl, h'⟩
  | setLoops loops => exact ⟨_, _, rfl, h.sum, h.le, h.pos, h.lt⟩
  | zwrite bs granted again =>
    suffices hz : ∃ w b', b.zwrite bs granted again = .ok (w, b') ∧ b'.Within by
      obtain ⟨w, b', hw, h'⟩ := hz
      exact ⟨_, b', by rw [call, hw]; rfl, h'⟩
    by_cases hk : b.Skips bs.length
    · -- The block could not grow: the buffer is emptied, and written to again.
      have hfree : b.datalen < b.used + bs.length ∧ granted = false := by
        simpa [Overruns, hk, not_or] using ho
      obtain ⟨w, b', hw, -, -, hfail⟩ := (write_skips h hs hk granted).2 hfree.1
      obtain ⟨rfl, rfl⟩ := hfail hfree.2
      obtain ⟨hzero, hwithin⟩ := zero_spec h
      obtain ⟨w', b'', hrun, h'', -⟩ := write_spec hwithin hs (not_skips_zeroed b _) again
      rw [zwrite, hw, ok_bind]
      dsimp only
      rw [if_pos rfl, show zero { b with head := 0 } = b.zero from rfl, hzero, ok_bind]
      exact ⟨w', b'', hrun, h''⟩
    · obtain ⟨w, b', hw, h', -, hor⟩ := write_spec h hs hk granted
      by_cases h0 : w = 0
      · refine zwrite_of_write hw h' ?_
        rcases hor with ⟨-, -, -, heq⟩ | ⟨-, -, hlen, -⟩
        · rw [heq h0]
          exact hs
        · rw [hlen]
          exact hs
      · exact ⟨w, b', by rw [zwrite, hw]; exact if_neg h0, h'⟩

/-- A call that overruns is no call, or leaves a buffer that is not in bounds. -/
theorem not_call_of_overruns {op : Op} (h : b.Within) (hs : b.Sized op) (ho : b.Overruns op)
    {out : Out} (hcall : b.call op = .ok (out, b')) : ¬b'.InBounds := by
  cases op with
  | write bs granted =>
    obtain ⟨hfit, hgrow⟩ := write_skips h hs ho granted
    rcases Nat.lt_or_ge b.datalen (b.used + bs.length) with hlt | hge
    · obtain ⟨w, b₁, hw, hne, -⟩ := hgrow hlt
      rw [call, hw] at hcall
      injection hcall with hcall
      injection hcall with _ hb
      subst hb
      exact fun hin => hne hin.1
    · rw [call, hfit hge, error_bind] at hcall
      nomatch hcall
  | zwrite bs granted again =>
    obtain ⟨hk, hor⟩ := ho
    obtain ⟨hfit, hgrow⟩ := write_skips h hs hk granted
    rcases Nat.lt_or_ge b.datalen (b.used + bs.length) with hlt | hge
    · obtain ⟨w, b₁, hw, hne, hnz, -⟩ := hgrow hlt
      have hnz := hnz (hor.resolve_left (by omega))
      rw [call, zwrite, hw, ok_bind] at hcall
      dsimp only at hcall
      rw [if_neg hnz] at hcall
      injection hcall with hcall
      injection hcall with _ hb
      subst hb
      exact fun hin => hne hin.1
    · rw [call, zwrite, hfit hge, error_bind, error_bind] at hcall
      nomatch hcall
  | _ => exact ho.elim

/-- From its creation on, a buffer is in bounds and copies nothing outside its
    block if and only if no write skips the move to the front. -/
theorem stays_iff {blocksize startLen maxLen : ℕ} {ops : List Op} (hpos : 0 < startLen)
    (hlt : startLen < 2 ^ 64) (hs : Along call Sized (create blocksize startLen maxLen) ops) :
    Stays call InBounds (create blocksize startLen maxLen) ops ↔
      Along call (fun b op => ¬b.Overruns op) (create blocksize startLen maxLen) ops :=
  stays_iff_along (fun _ h => h.inBounds) (fun _ _ h hs ho => call_within h hs ho)
    (fun _ _ _ _ h hs ho hcall => not_call_of_overruns h hs (not_not.1 ho) hcall)
    (create_within hpos hlt) hs

theorem stays_iff_compacted :
    Stays call InBounds (create 0 2 3) [.write [1, 2] true, .read 1, .write [3, 4] true] ↔
      Along call (fun b op => ¬b.Overruns op) (create 0 2 3)
        [.write [1, 2] true, .read 1, .write [3, 4] true] :=
  stays_iff (by decide) (by decide) (by decide +kernel)

/-- A buffer of two bytes that may not grow, of which one byte has been read:
    one more is written behind the block. -/
theorem not_stays_overrun :
    ∃ ops, Along call Sized (create 0 2 1) ops ∧ ¬Stays call InBounds (create 0 2 1) ops :=
  ⟨[.write [1, 2] true, .read 1, .write [3] true], by decide +kernel⟩

end KsBuffer

end Libks
