import Libks.Buffer.Bounds

/-!
# A buffer as a byte stream

A buffer without `max_len`, whose block may always grow, is a queue of bytes:
what is written goes to the end, what is read or tossed comes from the front,
and neither the drift of the head through the block nor the moves to its front
can be seen (`calls_fifo`).
-/

namespace Libks

open Base

namespace KsBuffer

/-- The calls that make up a stream. Memory is always granted. -/
def Streaming : Op → Prop
  | .write _ granted => granted = true
  | .zwrite _ granted again => granted = true ∧ again = true
  | .read _ | .toss _ | .zero => True
  | .seek _ | .readLoop _ | .readPacket _ | .setLoops _ => False

instance : DecidablePred Streaming
  | .write _ _ => inferInstanceAs (Decidable (_ = _))
  | .zwrite _ _ _ => inferInstanceAs (Decidable (_ ∧ _))
  | .read _ | .toss _ | .zero => .isTrue trivial
  | .seek _ | .readLoop _ | .readPacket _ | .setLoops _ => .isFalse id

/-- What a queue of bytes answers: a write the new length, a read the bytes it
    takes off and how many they are, a toss the length of the rest. -/
def fifo (q : List UInt8) : Op → Out × List UInt8
  | .write bs _ | .zwrite bs _ _ => (((q ++ bs).length, []), q ++ bs)
  | .read n => ((min n q.length, q.take n), q.drop n)
  | .toss n => (((q.drop n).length, []), q.drop n)
  | .zero => ((0, []), [])
  | .seek _ | .readLoop _ | .readPacket _ | .setLoops _ => ((0, []), q)

/-- The buffer holds the queue, and may grow as it likes. -/
structure Queues (b : KsBuffer) (q : List UInt8) : Prop where
  within : b.Within
  maxLen : b.maxLen = 0
  unread : b.unread = q

variable {b : KsBuffer} {q bs : List UInt8}

theorem Queues.inuse (h : b.Queues q) : b.inuse = q.length := by
  rw [← h.unread, length_unread, KsBuffer.inuse]

theorem create_queues {blocksize startLen : ℕ} (hpos : 0 < startLen) (hlt : startLen < 2 ^ 64) :
    (create blocksize startLen 0).Queues [] :=
  ⟨create_within hpos hlt, rfl, rfl⟩

/-- Without `max_len`, no write skips the move to the front. -/
theorem Queues.not_skips (h : b.Queues q) (n : ℕ) : ¬b.Skips n := fun hk => hk.2.2.1 h.maxLen

theorem Queues.write (h : b.Queues q) (bs : List UInt8) (hs : b.datalen + bs.length < 2 ^ 64) :
    ∃ b', b.write bs true = .ok ((q ++ bs).length, b') ∧ b'.Queues (q ++ bs) ∧
      (q ++ bs = [] → b' = b) := by
  obtain ⟨w, b', hw, hwithin, hmax, hor⟩ := write_spec h.within hs (h.not_skips _) true
  obtain ⟨hle, hused, hunread, hsame⟩ := hor.resolve_right fun h => absurd h.1 (by decide)
  rw [h.unread] at hunread
  have hq : b'.Queues (q ++ bs) := ⟨hwithin, hmax.trans h.maxLen, hunread⟩
  have hlen : w = (q ++ bs).length := by rw [hused, ← hq.inuse, KsBuffer.inuse]
  refine ⟨b', by rw [hw, hlen], hq, fun hnil => hsame ?_⟩
  rw [hlen, hnil, List.length_nil]

theorem Queues.dropped (h : b.Queues q) (n : ℕ) : (b.dropped n).Queues (q.drop n) :=
  ⟨dropped_within h.within n, h.maxLen, by rw [unread_dropped, h.unread]⟩

theorem Queues.zero (h : b.Queues q) :
    ∃ b', b.zero = .ok b' ∧ b'.Queues [] ∧ b'.datalen = b.datalen := by
  obtain ⟨hzero, hwithin⟩ := zero_spec h.within
  exact ⟨_, hzero, ⟨hwithin, h.maxLen, rfl⟩, rfl⟩

/-- A `ks_buffer_zwrite` that grows the block as it has to is a write: it is made
    again only when there is nothing to write, and nothing to lose. -/
theorem Queues.zwrite (h : b.Queues q) (hs : b.datalen + bs.length < 2 ^ 64) :
    ∃ b', b.zwrite bs true true = .ok ((q ++ bs).length, b') ∧ b'.Queues (q ++ bs) := by
  obtain ⟨b', hw, hq, hsame⟩ := h.write bs hs
  rw [KsBuffer.zwrite, hw, ok_bind]
  dsimp only
  split_ifs with hnil
  · have hempty := List.length_eq_zero_iff.1 hnil
    obtain rfl := hsame hempty
    rw [hempty] at hq
    obtain ⟨rfl, rfl⟩ := List.append_eq_nil_iff.1 hempty
    obtain ⟨b₁, hzero, hq₁, hlen⟩ := hq.zero
    obtain ⟨b₂, hw₂, hq₂, -⟩ := hq₁.write [] (by rw [hlen]; exact hs)
    rw [hzero, ok_bind]
    exact ⟨b₂, hw₂, hq₂⟩
  · exact ⟨b', rfl, hq⟩

/-- One call. -/
theorem call_fifo {op : Op} (h : b.Queues q) (hop : Streaming op) (hs : b.Sized op) :
    ∃ b', b.call op = .ok ((fifo q op).1, b') ∧ b'.Queues (fifo q op).2 := by
  cases op with
  | write bs granted =>
    obtain rfl : granted = true := hop
    obtain ⟨b', hw, hq, -⟩ := h.write bs hs
    exact ⟨b', by rw [call, hw]; rfl, hq⟩
  | zwrite bs granted again =>
    obtain ⟨rfl, rfl⟩ : granted = true ∧ again = true := hop
    obtain ⟨b', hw, hq⟩ := h.zwrite hs
    exact ⟨b', by rw [call, hw]; rfl, hq⟩
  | read n =>
    refine ⟨_, ?_, h.dropped n⟩
    rw [call, read_spec h.within, h.unread, ← KsBuffer.inuse, h.inuse]
    rfl
  | toss n =>
    refine ⟨_, ?_, h.dropped n⟩
    rw [call, toss_spec h.within, ← KsBuffer.inuse, h.inuse, ← List.length_drop]
    rfl
  | zero =>
    obtain ⟨b', hzero, hq, -⟩ := h.zero
    exact ⟨b', by rw [call, hzero]; rfl, hq⟩
  | _ => exact hop.elim

/-- From its creation on, a buffer without `max_len` answers like a queue of
    bytes, and holds what the queue holds. -/
theorem calls_fifo {blocksize startLen : ℕ} {ops : List Op} (hpos : 0 < startLen)
    (hlt : startLen < 2 ^ 64) (hops : ∀ op ∈ ops, Streaming op)
    (hs : Along call Sized (create blocksize startLen 0) ops) :
    ∃ b, calls call (create blocksize startLen 0) ops = .ok ((answers fifo [] ops).1, b) ∧
      b.unread = (answers fifo [] ops).2 ∧ b.inuse = (answers fifo [] ops).2.length := by
  have hcall (b : KsBuffer) (q : List UInt8) (op : Op) (h : b.Queues q)
      (hp : Streaming op ∧ b.Sized op) :
      ∃ b', b.call op = .ok ((fifo q op).1, b') ∧ b'.Queues (fifo q op).2 :=
    call_fifo h hp.1 hp.2
  obtain ⟨b, hb, hq⟩ := calls_refines hcall (create_queues hpos hlt) (hs.and_of_forall hops)
  exact ⟨b, hb, hq.unread, hq.inuse⟩

theorem calls_fifo_drifting :
    ∃ b, calls call (create 0 2 0) [.write [1, 2] true, .read 1, .write [3, 4] true, .toss 1] =
        .ok ((answers fifo [] [.write [1, 2] true, .read 1, .write [3, 4] true, .toss 1]).1, b) ∧
      b.unread = [3, 4] ∧ b.inuse = 2 :=
  calls_fifo (by decide) (by decide) (by decide) (by decide +kernel)

end KsBuffer

end Libks
