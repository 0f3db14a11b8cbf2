import Libks.Buffer.Bounds

/-!
# The limit of a buffer

`max_len` is read by the test for the move to the front, and by
`ks_buffer_freespace`. Whether a write succeeds is a matter of the size of the
block, which grows as long as `realloc` grants it: a write beyond `max_len` is
refused where the block would have to grow and may not.

* `write_takes`: what a write that gets its room does, whether it skips the move or not;
* `keeps_limit_iff`: a row of calls respects `max_len` if and only if each of its
  writes is within `max_len` and gets its room, or is refused for want of memory.
-/

namespace Libks

open Base

namespace KsBuffer

variable {b b' : KsBuffer} {bs : List UInt8} {n : ℕ} {granted again : Bool}

/-- `ks_buffer_freespace`. -/
def freespace (b : KsBuffer) : ℕ := if b.maxLen ≠ 0 then sub64 b.maxLen b.used else 1000000

/-- The unread bytes end at or before the written ones, which end in the block. -/
structure Loose (b : KsBuffer) : Prop where
  sum : b.head + b.used ≤ b.actuallyUsed
  le : b.actuallyUsed ≤ b.datalen
  lt : b.datalen < 2 ^ 64

/-- The block has room for `n` bytes behind the unread ones at its front, or
    gets it. -/
def Takes (b : KsBuffer) (n : ℕ) (granted : Bool) : Prop :=
  b.used + n ≤ b.datalen ∨ granted = true

instance (b : KsBuffer) (n : ℕ) (granted : Bool) : Decidable (b.Takes n granted) :=
  inferInstanceAs (Decidable (_ ∨ _))

/-! ## Writing -/

theorem loose_stored (h : b.Loose) (hin : b.actuallyUsed + bs.length ≤ b.datalen) :
    (b.stored bs).Loose := by
  refine ⟨?_, hin, h.lt⟩
  have := h.sum
  rw [stored]
  dsimp only
  omega

/-- The move to the front, where there is need of it and it is within `max_len`. -/
theorem makeRoom_within_limit (h : b.Loose) (hs : b.datalen + n < 2 ^ 64)
    (hfit : b.used + n ≤ b.maxLen) :
    ∃ b', b.makeRoom n = .ok b' ∧ b'.Loose ∧ b'.unread = b.unread ∧ b'.used = b.used ∧
      b'.datalen = b.datalen ∧ b'.maxLen = b.maxLen ∧
      (b'.head = 0 ∧ b'.actuallyUsed = b.used ∨ b'.actuallyUsed + n ≤ b'.datalen) := by
  have hsum := h.sum
  have hle := h.le
  have hlt := h.lt
  rw [makeRoom, sub64_of_le hle hlt, add64_of_lt (by omega)]
  split_ifs with hc
  · refine ⟨{ b with data := b.data.write 0 b.unread, head := 0, actuallyUsed := b.used }, ?_,
      ⟨?_, ?_, hlt⟩, ?_, rfl, rfl, rfl, .inl ⟨rfl, rfl⟩⟩
    · rw [compact, copyOut, if_pos (by omega), ok_bind, copyIn,
        if_pos (by rw [Mem.length_read]; omega)]
      rfl
    · exact Nat.le_of_eq (Nat.zero_add _)
    · exact Nat.le_trans (Nat.le_trans (Nat.le_add_left _ _) hsum) hle
    · have hread := Mem.read_write_self b.data 0 b.unread
      rwa [length_unread] at hread
  · exact ⟨b, rfl, h, rfl, rfl, rfl, rfl, .inr (by omega)⟩

theorem write_eq (hpos : 0 < b.datalen) (hn : 0 < bs.length) :
    b.write bs granted = b.makeRoom bs.length >>= fun b => b.append bs granted := by
  rw [write, if_neg hpos.ne', if_neg hn.ne']

/-- A write beyond `max_len` leaves the unread bytes where they are. -/
theorem write_beyond (h : b.Loose) (hpos : 0 < b.datalen) (hs : b.datalen + bs.length < 2 ^ 64)
    (hn : 0 < bs.length) (hmax : 0 < b.maxLen) (hover : b.maxLen < b.used + bs.length) :
    b.write bs granted = b.append bs granted := by
  have hsum := h.sum
  have hle := h.le
  rw [write_eq hpos hn, makeRoom, sub64_of_le hle h.lt, add64_of_lt (by omega),
    if_neg (by omega), ok_bind]

/-- A block that has to grow and may not takes nothing. -/
theorem append_refuses (h : b.Loose) (ht : ¬b.Takes bs.length granted) :
    b.append bs granted = .ok (0, { b with head := 0 }) := by
  have hsum := h.sum
  have hle := h.le
  rw [Takes, not_or] at ht
  rw [append, sub64_of_le (by omega) h.lt, if_pos (by omega), if_neg ht.2]

/-- A block with room takes the bytes, if they get where there is room for them. -/
theorem append_takes (h : b.Loose) (hs : b.datalen + bs.length < 2 ^ 64)
    (hroom : b.head = 0 ∧ b.actuallyUsed = b.used ∨ b.actuallyUsed + bs.length ≤ b.datalen)
    (ht : b.Takes bs.length granted) :
    ∃ b', b.append bs granted = .ok (b.used + bs.length, b') ∧ b'.Loose ∧
      b'.maxLen = b.maxLen ∧ b'.used = b.used + bs.length ∧ b.datalen ≤ b'.datalen ∧
      b'.unread = b.unread ++ bs := by
  have hsum := h.sum
  have hle := h.le
  have hlt := h.lt
  rw [append, sub64_of_le (by omega) hlt]
  by_cases hgrow : b.datalen - b.used < bs.length
  · obtain ⟨hhead, hall⟩ := hroom.resolve_right (by omega)
    obtain ⟨hge, hlt'⟩ := newSize_spec hs
    have hg : granted = true := ht.resolve_left (by omega)
    have hgrown : { b with head := 0, datalen := b.newSize bs.length }.Loose :=
      ⟨by dsimp only; omega, by dsimp only; omega, hlt'⟩
    rw [if_pos hgrow, if_pos hg, store_eq (by dsimp only; omega) (by dsimp only; omega) hlt']
    refine ⟨_, rfl, loose_stored hgrown (by dsimp only; omega), rfl, rfl,
      Nat.le_of_add_right_le hge, ?_⟩
    rw [unread_stored, unread, unread, hhead]
  · rw [if_neg hgrow, store_eq (by omega) (by omega) hlt]
    exact ⟨_, rfl, loose_stored h (by omega), rfl, rfl, Nat.le_refl _, unread_stored b bs⟩

/-- A write within `max_len` appends its bytes, if the block has room for them. -/
theorem write_takes (h : b.Loose) (hpos : 0 < b.datalen) (hs : b.datalen + bs.length < 2 ^ 64)
    (hn : 0 < bs.length) (hfit : b.used + bs.length ≤ b.maxLen)
    (ht : b.Takes bs.length granted) :
    ∃ b', b.write bs granted = .ok (b.used + bs.length, b') ∧ b'.Loose ∧
      b'.maxLen = b.maxLen ∧ b'.used = b.used + bs.length ∧ b.datalen ≤ b'.datalen ∧
      b'.unread = b.unread ++ bs := by
  obtain ⟨b₁, hroom, h₁, hunread, hused, hlen, hmax, hor⟩ := makeRoom_within_limit h hs hfit
  rw [← hused, ← hlen, ← hmax, ← hunread, write_eq hpos hn, hroom, ok_bind]
  exact append_takes h₁ (by omega) (hused ▸ hor) (by rwa [Takes, hused, hlen])

/-- A write within `max_len` does nothing, if the block has to grow and may not. -/
theorem write_refused (h : b.Loose) (hpos : 0 < b.datalen) (hs : b.datalen + bs.length < 2 ^ 64)
    (hn : 0 < bs.length) (hfit : b.used + bs.length ≤ b.maxLen)
    (ht : ¬b.Takes bs.length granted) :
    ∃ b', b.write bs granted = .ok (0, b') ∧ b'.Loose ∧ b'.maxLen = b.maxLen ∧
      b'.datalen = b.datalen ∧ b'.unread = b.unread := by
  obtain ⟨b₁, hroom, h₁, hunread, hused, hlen, hmax, hor⟩ := makeRoom_within_limit h hs hfit
  have hsum := h₁.sum
  have hnot : ¬b₁.Takes bs.length granted := by rwa [Takes, hused, hlen]
  have hlt : b.datalen < b.used + bs.length := by
    rw [Takes, not_or] at ht
    omega
  have hhead : { b₁ with head := 0 } = b₁ := by
    rw [← (hor.resolve_right (by omega)).1]
  rw [write_eq hpos hn, hroom, ok_bind, append_refuses h₁ hnot, hhead]
  exact ⟨b₁, rfl, h₁, hmax, hlen, hunread⟩

/-- A write beyond `max_len` succeeds all the same, if the block has room for the bytes
    or gets it, or leaves the block. -/
theorem write_over (h : b.Loose) (hpos : 0 < b.datalen) (hs : b.datalen + bs.length < 2 ^ 64)
    (hn : 0 < bs.length) (hmax : 0 < b.maxLen) (hover : b.maxLen < b.used + bs.length)
    (ht : b.Takes bs.length granted) {w : ℕ} (hw : b.write bs granted = .ok (w, b')) :
    w = b.used + bs.length ∧ b'.used = b.used + bs.length ∧ b'.maxLen = b.maxLen := by
  have hsum := h.sum
  have hle := h.le
  have hlt := h.lt
  rw [write_beyond h hpos hs hn hmax hover, append, sub64_of_le (by omega) hlt] at hw
  by_cases hgrow : b.datalen - b.used < bs.length
  · obtain ⟨hge, hlt'⟩ := newSize_spec hs
    rw [if_pos hgrow, if_pos (ht.resolve_left (by omega)),
      store_eq (by dsimp only; omega) (by dsimp only; omega) hlt'] at hw
    obtain ⟨rfl, rfl⟩ := Prod.ext_iff.1 (Except.ok.inj hw)
    exact ⟨rfl, rfl, rfl⟩
  · rw [if_neg hgrow] at hw
    by_cases hin : b.head + b.used + bs.length ≤ b.datalen
    · rw [store_eq hin (by omega) hlt] at hw
      obtain ⟨rfl, rfl⟩ := Prod.ext_iff.1 (Except.ok.inj hw)
      exact ⟨rfl, rfl, rfl⟩
    · rw [store, sub64_of_le (by omega) hlt, if_neg hgrow, copyIn, if_neg hin] at hw
      cases hw

/-! ## What is said about `max_len` -/

/-- The calls that this is about. -/
def Plain : Op → Prop
  | .write _ _ | .read _ | .toss _ | .zwrite _ _ _ => True
  | .seek _ | .readLoop _ | .readPacket _ | .zero | .setLoops _ => False

instance : DecidablePred Plain
  | .write _ _ | .read _ | .toss _ | .zwrite _ _ _ => .isTrue trivial
  | .seek _ | .readLoop _ | .readPacket _ | .zero | .setLoops _ => .isFalse id

/-- A write that fits succeeds, and another one returns `0` and does nothing. -/
def Fills (b : KsBuffer) (bs : List UInt8) (w : ℕ) (b' : KsBuffer) : Prop :=
  if b.used + bs.length ≤ b.maxLen then w = b.used + bs.length ∧ b'.unread = b.unread ++ bs
  else w = 0 ∧ b'.unread = b.unread

/-- A `ks_buffer_zwrite` that does not fit makes room by dropping what is there. -/
def Refills (b : KsBuffer) (bs : List UInt8) (b' : KsBuffer) : Prop :=
  if b.used + bs.length ≤ b.maxLen then b'.unread = b.unread ++ bs
  else bs.length ≤ b.maxLen → b'.unread = bs

/-- What a call does in a buffer with `max_len`. What is used stays within `max_len`, and
    what is free is the difference. -/
def Limits (b : KsBuffer) (op : Op) (out : Out) (b' : KsBuffer) : Prop :=
  (match op with
    | .write bs _ => b.Fills bs out.1 b'
    | .zwrite bs _ _ => b.Refills bs b'
    | _ => True) ∧
  b'.used ≤ b.maxLen ∧ b'.freespace + b'.used = b.maxLen

/-- When it does. -/
def Obliges (b : KsBuffer) : Op → Prop
  | .write bs granted =>
    0 < b.datalen ∧ (bs = [] ∨
      if b.used + bs.length ≤ b.maxLen then b.Takes bs.length granted
      else ¬b.Takes bs.length granted ∧ b.data.read 0 b.used = b.unread)
  | .zwrite bs granted again =>
    0 < b.datalen ∧ (bs = [] ∨
      if b.used + bs.length ≤ b.maxLen then
        b.Takes bs.length granted ∨ b.used = 0 ∧ again = true
      else ¬b.Takes bs.length granted ∧
        (bs.length ≤ b.maxLen ↔ bs.length ≤ b.datalen ∨ again = true))
  | .read _ => 0 < b.datalen
  | _ => True

instance (b : KsBuffer) : DecidablePred b.Obliges
  | .write _ _ | .zwrite _ _ _ => inferInstanceAs (Decidable (_ ∧ _))
  | .read _ => inferInstanceAs (Decidable (_ < _))
  | .toss _ | .seek _ | .readLoop _ | .readPacket _ | .zero | .setLoops _ => .isTrue trivial

/-! ## Calls in a row -/

/-- A buffer that has not gone beyond `max_len`. -/
structure Capped (b : KsBuffer) : Prop where
  loose : b.Loose
  pos : 0 < b.maxLen
  lt : b.maxLen < 2 ^ 64
  le : b.used ≤ b.maxLen

theorem Capped.freespace (h : b.Capped) : b.freespace + b.used = b.maxLen := by
  have := h.le
  rw [KsBuffer.freespace, if_pos h.pos.ne', sub64_of_le h.le h.lt]
  omega

/-- The same limit, in a buffer that has changed otherwise. -/
theorem Capped.of_eq (h : b.Capped) (hl : b'.Loose) (hmax : b'.maxLen = b.maxLen)
    (hle : b'.used ≤ b.maxLen) :
    b'.Capped ∧ b'.used ≤ b.maxLen ∧ b'.freespace + b'.used = b.maxLen := by
  have hc : b'.Capped := ⟨hl, hmax ▸ h.pos, hmax ▸ h.lt, hmax ▸ hle⟩
  exact ⟨hc, hle, hc.freespace.trans hmax⟩

/-- The buffer that `ks_buffer_zero` leaves. -/
def emptied (b : KsBuffer) : KsBuffer := { b with used := 0, actuallyUsed := 0, head := 0 }

theorem zero_eq (hpos : 0 < b.datalen) : b.zero = .ok b.emptied := by
  rw [zero, if_neg hpos.ne']
  rfl

theorem Capped.emptied (h : b.Capped) : b.emptied.Capped :=
  ⟨⟨Nat.le_refl _, Nat.zero_le _, h.loose.lt⟩, h.pos, h.lt, Nat.zero_le _⟩

theorem Capped.rewound (h : b.Capped) : { b with head := 0 }.Capped := by
  have := h.loose.sum
  exact ⟨⟨by dsimp only; omega, h.loose.le, h.loose.lt⟩, h.pos, h.lt, h.le⟩

theorem loose_dropped (h : b.Loose) (n : ℕ) : (b.dropped n).Loose := by
  have := h.sum
  refine ⟨?_, h.le, h.lt⟩
  rw [KsBuffer.dropped]
  dsimp only
  omega

/-- A first write that returns `0` is made again on the empty buffer. -/
theorem zwrite_of_zero (hpos : 0 < b'.datalen) (hw : b.write bs granted = .ok (0, b')) :
    b.zwrite bs granted again = b'.emptied.write bs again := by
  rw [zwrite, hw, ok_bind]
  dsimp only
  rw [if_pos rfl, zero_eq hpos, ok_bind]

theorem zwrite_of_pos {w : ℕ} (hw : b.write bs granted = .ok (w, b')) (hpos : w ≠ 0) :
    b.zwrite bs granted again = .ok (w, b') := by
  rw [zwrite, hw, ok_bind]
  exact if_neg hpos

theorem write_nil (hpos : 0 < b.datalen) : b.write [] granted = .ok (b.used, b) := by
  rw [write, if_neg hpos.ne']
  exact if_pos List.length_nil

/-- A write that has to grow the block and may not. -/
theorem write_eq_zero (h : b.Capped) (hpos : 0 < b.datalen)
    (hs : b.datalen + bs.length < 2 ^ 64) (hn : 0 < bs.length) (ht : ¬b.Takes bs.length granted) :
    ∃ b', b.write bs granted = .ok (0, b') ∧ b'.Capped ∧ b'.maxLen = b.maxLen ∧
      b'.datalen = b.datalen := by
  by_cases hfit : b.used + bs.length ≤ b.maxLen
  · obtain ⟨b', hw, hl, hmax, hlen, hunread⟩ := write_refused h.loose hpos hs hn hfit ht
    have hused : b'.used = b.used := by rw [← length_unread, hunread, length_unread]
    exact ⟨b', hw, (h.of_eq hl hmax (hused.trans_le h.le)).1, hmax, hlen⟩
  · refine ⟨{ b with head := 0 }, ?_, h.rewound, rfl, rfl⟩
    rw [write_beyond h.loose hpos hs hn h.pos (Nat.lt_of_not_le hfit), append_refuses h.loose ht]

/-- A write that is as it should be. -/
theorem write_limits (h : b.Capped) (hs : b.datalen + bs.length < 2 ^ 64)
    (ho : b.Obliges (.write bs granted)) :
    ∃ w b', b.write bs granted = .ok (w, b') ∧ b.Limits (.write bs granted) (w, []) b' ∧
      b'.Capped := by
  obtain ⟨hpos, ho⟩ := ho
  have hle := h.le
  rcases Nat.eq_zero_or_pos bs.length with hnil | hn
  · obtain rfl := List.length_eq_zero_iff.1 hnil
    refine ⟨_, b, write_nil hpos, ⟨?_, hle, h.freespace⟩, h⟩
    exact (if_pos hle).mpr ⟨rfl, (List.append_nil _).symm⟩
  have ho := ho.resolve_left (List.length_pos_iff.1 hn)
  by_cases hfit : b.used + bs.length ≤ b.maxLen
  · rw [if_pos hfit] at ho
    obtain ⟨b', hw, hl, hmax, hused, -, hunread⟩ := write_takes h.loose hpos hs hn hfit ho
    obtain ⟨hc, hlim⟩ := h.of_eq hl hmax (hused.trans_le hfit)
    exact ⟨_, b', hw, ⟨(if_pos hfit).mpr ⟨rfl, hunread⟩, hlim⟩, hc⟩
  · rw [if_neg hfit] at ho
    refine ⟨0, { b with head := 0 }, ?_, ⟨(if_neg hfit).mpr ⟨rfl, ho.2⟩, hle,
      h.rewound.freespace⟩, h.rewound⟩
    rw [write_beyond h.loose hpos hs hn h.pos (Nat.lt_of_not_le hfit), append_refuses h.loose ho.1]

/-- A `ks_buffer_zwrite` that is as it should be. -/
theorem zwrite_limits (h : b.Capped) (hs : b.datalen + bs.length < 2 ^ 64)
    (ho : b.Obliges (.zwrite bs granted again)) :
    ∃ w b', b.zwrite bs granted again = .ok (w, b') ∧
      b.Limits (.zwrite bs granted again) (w, []) b' ∧ b'.Capped := by
  obtain ⟨hpos, ho⟩ := ho
  have hle := h.le
  rcases Nat.eq_zero_or_pos bs.length with hnil | hn
  · obtain rfl := List.length_eq_zero_iff.1 hnil
    rcases Nat.eq_zero_or_pos b.used with hz | hused
    · have hw : b.write [] granted = .ok (0, b) := by rw [write_nil hpos, hz]
      have hunread : b.unread = [] := List.length_eq_zero_iff.1 (b.length_unread.trans hz)
      refine ⟨_, b.emptied, (zwrite_of_zero hpos hw).trans (write_nil hpos),
        ⟨(if_pos hle).mpr ?_, Nat.zero_le _, h.emptied.freespace⟩, h.emptied⟩
      rw [hunread]
      rfl
    · exact ⟨_, b, zwrite_of_pos (write_nil hpos) hused.ne',
        ⟨(if_pos hle).mpr (List.append_nil _).symm, hle, h.freespace⟩, h⟩
  have ho := ho.resolve_left (List.length_pos_iff.1 hn)
  by_cases ht : b.Takes bs.length granted
  · have hfit : b.used + bs.length ≤ b.maxLen := by
      by_contra hfit
      rw [if_neg hfit] at ho
      exact ho.1 ht
    obtain ⟨b', hw, hl, hmax, hused, -, hunread⟩ := write_takes h.loose hpos hs hn hfit ht
    obtain ⟨hc, hlim⟩ := h.of_eq hl hmax (hused.trans_le hfit)
    exact ⟨_, b', zwrite_of_pos hw (by omega), ⟨(if_pos hfit).mpr hunread, hlim⟩, hc⟩
  -- The first write returns `0`, and the second one is into the empty buffer.
  obtain ⟨b₁, hw, hc₁, hmax₁, hlen₁⟩ := write_eq_zero h hpos hs hn ht
  have hc := hc₁.emptied
  have hmax : b₁.emptied.maxLen = b.maxLen := hmax₁
  have hlen : b₁.emptied.datalen = b.datalen := hlen₁
  have hused : b₁.emptied.used = 0 := rfl
  rw [zwrite_of_zero (by omega) hw]
  by_cases hfit : bs.length ≤ b.maxLen
  · have ht₁ : b₁.emptied.Takes bs.length again := by
      rw [Takes, hlen, hused, Nat.zero_add]
      split_ifs at ho with hall
      · exact .inr (ho.resolve_left ht).2
      · exact ho.2.1 hfit
    obtain ⟨b', hw', hl', hmax', hused', -, hunread'⟩ :=
      write_takes hc.loose (by omega) (by omega) hn (by omega) ht₁
    obtain ⟨hc', hlim⟩ := h.of_eq hl' (hmax'.trans hmax) (by omega)
    have hunread : b'.unread = bs := hunread'
    refine ⟨_, b', hw', ⟨?_, hlim⟩, hc'⟩
    by_cases hall : b.used + bs.length ≤ b.maxLen
    · rw [if_pos hall] at ho
      have hnone : b.unread = [] :=
        List.length_eq_zero_iff.1 (b.length_unread.trans (ho.resolve_left ht).1)
      refine (if_pos hall).mpr ?_
      rw [hunread, hnone, List.nil_append]
    · exact (if_neg hall).mpr fun _ => hunread
  · have hall : ¬b.used + bs.length ≤ b.maxLen := by omega
    rw [if_neg hall] at ho
    have ht₁ : ¬b₁.emptied.Takes bs.length again := by
      rw [Takes, hlen, hused, Nat.zero_add]
      exact fun h => hfit (ho.2.2 h)
    obtain ⟨b', hw', hc', hmax', -⟩ := write_eq_zero hc (by omega) (by omega) hn ht₁
    have hmax' := hmax'.trans hmax
    exact ⟨0, b', hw', ⟨(if_neg hall).mpr fun h => absurd h hfit, hmax' ▸ hc'.le,
      hc'.freespace.trans hmax'⟩, hc'⟩

/-- A call that is as it should be does what is said about `max_len`. -/
theorem call_limits {op : Op} (h : b.Capped) (hop : Plain op) (hs : b.Sized op)
    (ho : b.Obliges op) :
    ∃ out b', b.call op = .ok (out, b') ∧ b.Limits op out b' ∧ b'.Capped := by
  have hle := h.le
  have hsum := h.loose.sum
  have hlen := h.loose.le
  have hlt := h.loose.lt
  cases op with
  | write bs granted =>
    obtain ⟨w, b', hw, hlim, hc⟩ := write_limits h hs ho
    exact ⟨_, b', by rw [call, hw]; rfl, hlim, hc⟩
  | zwrite bs granted again =>
    obtain ⟨w, b', hw, hlim, hc⟩ := zwrite_limits h hs ho
    exact ⟨_, b', by rw [call, hw]; rfl, hlim, hc⟩
  | read n =>
    obtain ⟨hc, hlim⟩ := h.of_eq (loose_dropped h.loose n) rfl (Nat.le_trans (Nat.sub_le _ _) hle)
    exact ⟨_, _, read_eq ho (by omega) (by omega) n, ⟨trivial, hlim⟩, hc⟩
  | toss n =>
    obtain ⟨hc, hlim⟩ := h.of_eq (loose_dropped h.loose n) rfl (Nat.le_trans (Nat.sub_le _ _) hle)
    refine ⟨_, _, rfl, ?_⟩
    rw [toss_eq (by omega)]
    exact ⟨⟨trivial, hlim⟩, hc⟩
  | _ => exact hop.elim

/-- Another write that succeeds does not. -/
theorem write_not_limits {w : ℕ} (h : b.Capped) (hs : b.datalen + bs.length < 2 ^ 64)
    (ho : ¬b.Obliges (.write bs granted)) (hw : b.write bs granted = .ok (w, b')) :
    ¬b.Limits (.write bs granted) (w, []) b' := by
  rintro ⟨hlaw, hused, -⟩
  have hfill : b.Fills bs w b' := hlaw
  rcases Nat.eq_zero_or_pos b.datalen with hz | hpos
  · rw [write, if_pos hz] at hw
    cases hw
  rw [Obliges, not_and] at ho
  obtain ⟨hne, ho⟩ := not_or.1 (ho hpos)
  have hn := List.length_pos_iff.2 hne
  rw [Fills] at hfill
  split_ifs at hfill ho with hfit
  · obtain ⟨b₁, hw₁, -⟩ := write_refused h.loose hpos hs hn hfit ho
    obtain ⟨rfl, -⟩ := Prod.ext_iff.1 (Except.ok.inj (hw.symm.trans hw₁))
    have hzero := hfill.1
    omega
  · have hover := Nat.lt_of_not_le hfit
    by_cases ht : b.Takes bs.length granted
    · have hpast := (write_over h.loose hpos hs hn h.pos hover ht hw).2.1
      omega
    · -- The head is reset, and the unread bytes are others.
      rw [write_beyond h.loose hpos hs hn h.pos hover, append_refuses h.loose ht] at hw
      obtain ⟨-, rfl⟩ := Prod.ext_iff.1 (Except.ok.inj hw)
      exact ho ⟨ht, hfill.2⟩

/-- Another `ks_buffer_zwrite` that succeeds does not. -/
theorem zwrite_not_limits {w : ℕ} (h : b.Capped) (hs : b.datalen + bs.length < 2 ^ 64)
    (ho : ¬b.Obliges (.zwrite bs granted again))
    (hw : b.zwrite bs granted again = .ok (w, b')) :
    ¬b.Limits (.zwrite bs granted again) (w, []) b' := by
  rintro ⟨hlaw, hused, -⟩
  have hfill : b.Refills bs b' := hlaw
  clear hlaw
  rcases Nat.eq_zero_or_pos b.datalen with hz | hpos
  · rw [zwrite, write, if_pos hz] at hw
    cases hw
  rw [Obliges, not_and] at ho
  obtain ⟨hne, ho⟩ := not_or.1 (ho hpos)
  have hn := List.length_pos_iff.2 hne
  by_cases ht : b.Takes bs.length granted
  · -- The first write goes beyond `max_len`, and so nothing is dropped.
    have hfit : ¬b.used + bs.length ≤ b.maxLen := fun hfit => by
      rw [if_pos hfit] at ho
      exact ho (.inl ht)
    obtain ⟨⟨w₁, b₁⟩, hw₁, hrest⟩ := bind_eq_ok.1 hw
    obtain ⟨hwlen, hpast, -⟩ :=
      write_over h.loose hpos hs hn h.pos (Nat.lt_of_not_le hfit) ht hw₁
    have hrest : (if w₁ = 0 then b₁.zero >>= fun b => b.write bs again else .ok (w₁, b₁)) =
        .ok (w, b') := hrest
    rw [if_neg (by omega)] at hrest
    cases hrest
    omega
  -- The first write stores nothing, and the second one starts from an empty buffer.
  obtain ⟨b₁, hw₁, hc₁, hmax₁, hlen₁⟩ := write_eq_zero h hpos hs hn ht
  have hc := hc₁.emptied
  have hmax : b₁.emptied.maxLen = b.maxLen := hmax₁
  have hlen : b₁.emptied.datalen = b.datalen := hlen₁
  have hused₁ : b₁.emptied.used = 0 := rfl
  rw [zwrite_of_zero (by omega) hw₁] at hw
  by_cases hfit : bs.length ≤ b.maxLen
  · by_cases ht₁ : b₁.emptied.Takes bs.length again
    · obtain ⟨c, hw', -, -, -, -, hunread⟩ :=
        write_takes hc.loose (by omega) (by omega) hn (by omega) ht₁
      cases hw'.symm.trans hw
      have hunread : b'.unread = bs := hunread
      rw [Takes, hlen, hused₁, Nat.zero_add] at ht₁
      rw [Refills, hunread] at hfill
      split_ifs at hfill ho with hall
      · -- Something was dropped that fits together with the bytes.
        have hnone : b.unread = [] := List.append_left_eq_self.1 hfill.symm
        have hz : b.used = 0 := by rw [← length_unread, hnone, List.length_nil]
        rw [Takes, not_or] at ht
        exact ho (.inr ⟨hz, ht₁.resolve_left (by omega)⟩)
      · exact ho ⟨ht, iff_of_true hfit ht₁⟩
    · obtain ⟨c, hw', -, -, -, hunread⟩ :=
        write_refused hc.loose (by omega) (by omega) hn (by omega) ht₁
      cases hw'.symm.trans hw
      have hunread : b'.unread = [] := hunread
      rw [Refills, hunread] at hfill
      split_ifs at hfill with hall
      · exact hne (List.append_eq_nil_iff.1 hfill.symm).2
      · exact hne (hfill hfit).symm
  · have hall : ¬b.used + bs.length ≤ b.maxLen := by omega
    rw [if_neg hall] at ho
    by_cases ht₁ : b₁.emptied.Takes bs.length again
    · have hpast := (write_over hc.loose (by omega) (by omega) hn hc.pos (by omega) ht₁ hw).2.1
      omega
    · rw [Takes, hlen, hused₁, Nat.zero_add] at ht₁
      exact ho ⟨ht, iff_of_false hfit ht₁⟩

/-- Another call that succeeds does not. -/
theorem not_limits {op : Op} {out : Out} (h : b.Capped) (hop : Plain op) (hs : b.Sized op)
    (ho : ¬b.Obliges op) (hcall : b.call op = .ok (out, b')) : ¬b.Limits op out b' := by
  cases op with
  | write bs granted =>
    obtain ⟨⟨w, b₁⟩, hw, hrest⟩ := bind_eq_ok.1 hcall
    cases hrest
    exact write_not_limits h hs ho hw
  | zwrite bs granted again =>
    obtain ⟨⟨w, b₁⟩, hw, hrest⟩ := bind_eq_ok.1 hcall
    cases hrest
    exact zwrite_not_limits h hs ho hw
  | read n =>
    have hz : b.datalen = 0 := Nat.eq_zero_of_not_pos ho
    rw [call, read, if_pos hz] at hcall
    cases hcall
  | toss n => exact absurd trivial ho
  | _ => exact hop.elim

theorem capped_create (blocksize : ℕ) {startLen maxLen : ℕ} (hstart : startLen < 2 ^ 64)
    (hmax : 0 < maxLen) (hlt : maxLen < 2 ^ 64) : (create blocksize startLen maxLen).Capped :=
  ⟨⟨Nat.le_refl _, Nat.zero_le _, hstart⟩, hmax, hlt, Nat.zero_le _⟩

/-- **When a buffer keeps `max_len`.** -/
theorem keeps_limit_iff {blocksize startLen maxLen : ℕ} {ops : List Op} (hmax : 0 < maxLen)
    (hlt : maxLen < 2 ^ 64) (hstart : startLen < 2 ^ 64) (hops : ∀ op ∈ ops, Plain op)
    (hs : Along call Sized (create blocksize startLen maxLen) ops) :
    Obeys call Limits (create blocksize startLen maxLen) ops ↔
      Along call Obliges (create blocksize startLen maxLen) ops := by
  exact obeys_iff_along (fun b op h hp ho => call_limits h hp.1 hp.2 ho)
    (fun b op out b' h hp ho hcall => not_limits h hp.1 hp.2 ho hcall)
    (capped_create blocksize hstart hmax hlt) (hs.and_of_forall hops)

theorem keeps_limit_refilled :
    Obeys call Limits (create 0 2 3)
      [.write [1, 2] true, .read 1, .write [3, 4] true, .zwrite [5, 6] false false,
        .zwrite [7, 8, 9] false true] :=
  (keeps_limit_iff (by decide) (by decide) (by decide) (by decide) (by decide +kernel)).2
    (by decide +kernel)

/-- Three bytes into a block of four, with a `max_len` of two. -/
theorem not_keeps_limit : ¬Obeys call Limits (create 0 4 2) [.write [1, 2, 3] true] := by
  rintro ⟨out, b, hcall, hlim, -⟩
  have hnew := capped_create 0 (show 4 < 2 ^ 64 by decide) (show 0 < 2 by decide) (by decide)
  have hop : Plain (.write [1, 2, 3] true) := trivial
  exact not_limits hnew hop (by decide) (by decide +kernel) hcall hlim

end KsBuffer

end Libks
