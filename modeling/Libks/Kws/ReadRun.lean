import Libks.Base.Calls
import Libks.Kws.ReadSafety

/-!
# Reads in a row

The counter `x` of a connection says how long its reads have been waiting: every
read of the transport advances it, and so does every try that blocks. It is looked
at after the last try, and a read that has waited too long fails, whatever that try
has got. What it has got is gone then, since the transport does not hand it over
again. So a row of reads loses nothing if and only if each of them that gets bytes
gets them in time (`reads_kept_iff`).
-/

namespace Libks

open Base

variable {ssl ioError : Bool} {n x : ℕ} {b : ℤ} {es : List ReadEvent}

/-- How many tries of a read block before one gets bytes. -/
def blocked : List ReadEvent → ℕ
  | .failed err :: es => if err.isWant then blocked es + 1 else 0
  | _ => 0

/-- The tries that block before bytes are got: they have been waited for, and the
    last wait was not too long. -/
theorem receive_waits (h : (receive ssl n b x ioError es).bytes ≠ []) :
    (receive ssl n b x ioError es).x = x + blocked es ∧
      (blocked es = 0 ∨ (x + blocked es : ℤ) < b.tdiv 10) := by
  induction es generalizing x with
  | nil => exact absurd rfl h
  | cons e es ih =>
    cases e with
    | data bs => exact ⟨rfl, .inl rfl⟩
    | closed err => exact absurd rfl h
    | failed err =>
      rw [receive] at h ⊢
      split_ifs at h ⊢ with hwant hblock hwait
      · exact absurd rfl h
      · obtain ⟨hx, hlast⟩ := ih h
        rw [blocked, if_pos hwant]
        refine ⟨by rw [hx]; omega, .inr ?_⟩
        rcases hlast with h0 | hlast <;> omega
      · exact absurd rfl h
      · exact absurd rfl h
      · exact absurd rfl h

namespace Kws

variable {k k' : Kws}

/-- The arguments of `kws_raw_read`. -/
structure ReadCall where
  data : Ptr
  bytes : ℕ
  block : ℤ
  deriving DecidableEq, Repr

/-- A call of `kws_raw_read`. -/
def readCall (k : Kws) (c : ReadCall) : Except Fault (Read × Kws) :=
  k.rawRead c.data c.bytes c.block

/-- The bytes that `recv` or `SSL_read` hands over in the call. -/
def handed (k : Kws) (c : ReadCall) : List UInt8 :=
  if 0 < k.unprocessedBufferLen then [] else (k.transportRead c.bytes c.block).bytes

/-- The memory at the pointer holds the bytes. What is stored in memory of the caller
    is in the result of the read. -/
def StoredAt (k : Kws) (p : Ptr) (bs : List UInt8) : Prop :=
  match p with
  | .buffer off => k.buffer.read off bs.length = bs
  | .bbuffer off => k.bbuffer.read off bs.length = bs
  | .caller => True

/-- The call, where it has room for what it asks for, returns the bytes that are handed
    over in it, and has them stored. -/
def Kept (k : Kws) (c : ReadCall) : Prop :=
  k.Room c.data c.bytes → k.handed c ≠ [] →
    ∃ k', k.readCall c = .ok (⟨(k.handed c).length, k.handed c⟩, k') ∧ k'.StoredAt c.data (k.handed c)

/-- Bytes that are handed over in the call come in time: the counter, with the tries that
    have blocked before, is below its limit, and it was below that of a call that blocks
    when the call began. -/
def Timely (k : Kws) (c : ReadCall) : Prop :=
  k.Room c.data c.bytes → k.handed c ≠ [] →
    k.x + 1 + blocked k.world.reads < 10000 ∧ (c.block ≠ 0 → (k.x + 1 : ℤ) < c.block.tdiv 10)

instance (k : Kws) (p : Ptr) (n : ℕ) : Decidable (k.Room p n) := by
  cases p <;> unfold Room <;> infer_instance

instance (k : Kws) (c : ReadCall) : Decidable (Timely k c) :=
  inferInstanceAs (Decidable (_ → _ → _ ∧ (_ → _)))

/-- A read that gets bytes asks the transport for them. -/
theorem transportRead_waits (h : (k.transportRead n b).bytes ≠ []) :
    (k.transportRead n b).x = k.x + 1 + blocked k.world.reads ∧
      (blocked k.world.reads = 0 ∨ (k.x + 1 + blocked k.world.reads : ℤ) < b.tdiv 10) := by
  rw [transportRead] at h ⊢
  split_ifs at h ⊢ with hrefused hzero
  · exact absurd rfl h
  · exact absurd rfl h
  · have hwaits := receive_waits h
    rw [Nat.cast_add, Nat.cast_one] at hwaits
    exact hwaits

theorem late_iff (h : (k.transportRead n b).bytes ≠ []) :
    ¬Late (k.transportRead n b) b ↔
      k.x + 1 + blocked k.world.reads < 10000 ∧ (b ≠ 0 → (k.x + 1 : ℤ) < b.tdiv 10) := by
  obtain ⟨hx, hlast⟩ := transportRead_waits h
  rw [Late, hx, not_or, not_and, not_le, not_le]
  refine and_congr_right fun _ => forall_congr' fun _ => ?_
  rcases hlast with h0 | hlast
  · rw [h0, Nat.add_zero, Nat.cast_add, Nat.cast_one]
  · exact iff_of_true (by omega) (by omega)

theorem storedAt_filled (k : Kws) (p : Ptr) (bs tail : List UInt8) (x : ℕ) (io : Bool)
    (rs : List ReadEvent) : (k.filled p (bs ++ tail) x io rs).StoredAt p bs := by
  cases p with
  | buffer off => exact read_write_prefix _ _ _ _
  | bbuffer off => exact read_write_prefix _ _ _ _
  | caller => trivial

/-- One call keeps the bytes it is handed if and only if they come in time. -/
theorem kept_iff_timely (k : Kws) (c : ReadCall) : Kept k c ↔ Timely k c := by
  refine forall_congr' fun hroom => forall_congr' fun hgot => ?_
  have hu : k.unprocessedBufferLen = 0 := by
    by_contra hu
    exact hgot (if_pos (Nat.pos_of_ne_zero hu))
  have hhanded : k.handed c = (k.transportRead c.bytes c.block).bytes := by
    rw [handed, if_neg (Nat.not_lt.2 hu.le)]
  rw [hhanded] at hgot ⊢
  rw [← late_iff hgot]
  obtain ⟨tail, x, hread⟩ := rawRead_eq hu hroom c.block
  obtain ⟨-, -, ⟨hpos, hr, -⟩ | ⟨-, hnil⟩⟩ := k.transportRead_spec c.bytes c.block
  · by_cases hlate : Late (k.transportRead c.bytes c.block) c.block
    · refine iff_of_false ?_ (not_not_intro hlate)
      rintro ⟨k', hk', -⟩
      rw [readCall, hread, readOf, if_pos hlate] at hk'
      have hret : (-1 : ℤ) = ((k.transportRead c.bytes c.block).bytes.length : ℕ) :=
        congrArg Read.ret (Prod.mk.inj (Except.ok.inj hk')).1
      omega
    · rw [readOf, if_neg hlate, if_pos hpos, hr] at hread
      exact iff_of_true ⟨_, hread, storedAt_filled ..⟩ hlate
  · exact absurd hnil hgot

/-- A row of reads keeps all bytes it is handed if and only if all come in time. -/
theorem reads_kept_iff (k : Kws) (cs : List ReadCall) :
    Along readCall Kept k cs ↔ Along readCall Timely k cs :=
  Along.congr kept_iff_timely

/-- A text arrives after a connection was polled in vain, just while a read is ready to wait
    for it. -/
theorem reads_lost :
    ¬Along readCall Kept
      { world := { reads := List.replicate 99 (.failed .wantRead) ++ [.data [72, 105]] } }
      (List.replicate 99 ⟨.caller, 10, 0⟩ ++ [⟨.caller, 10, wsSoftBlock⟩]) := by
  rw [Along.congr kept_iff_timely]
  decide +kernel

end Kws

end Libks
