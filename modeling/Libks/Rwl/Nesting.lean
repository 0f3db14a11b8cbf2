import Libks.Base.Calls
import Libks.Rwl.State

/-!
# Nested locks

A thread that releases what it has acquired, the last first, should hold the lock
from its first acquisition to the release that matches it, and hold it alone if
one of them is for writing (`Held`). The lock does so except in two cases
(`always_held_iff`):

* a thread that has locked it for writing locks it for reading: the read lock of the
  system fails, but the call succeeds, and its release gives up the lock for
  writing;
* a thread has locked it for writing `2 ^ 32 + 1` times: the counter has wrapped, and
  the next release gives up the lock.
-/

namespace Libks

open Base

namespace RwlSys

/-- A thread that has the lock for writing has it alone, and a thread has the lock from its
    first acquisition to the release of that. -/
structure Held (s : RwlSys) : Prop where
  alone : ∀ t u, .write ∈ s.held t → u ≠ t → s.held u = []
  writer : ∀ t, s.rwl.rwlock.writer = some t ↔ .write ∈ s.held t
  holder : ∀ t, s.rwl.rwlock.writer = some t ∨ t ∈ s.rwl.rwlock.readers ↔ s.held t ≠ []

/-- A release does not give up what has been acquired before: no read lock is released by the
    thread that has the lock for writing, and the counter is 0 only at the last release. -/
def Good (s : RwlSys) : Call → Prop
  | .readUnlock t => s.rwl.rwlock.writer ≠ some t
  | .writeUnlock t => s.rwl.wlc = 0 → .write ∉ (s.held t).tail
  | _ => True

instance (s : RwlSys) : DecidablePred s.Good
  | .readUnlock _ => inferInstanceAs (Decidable (_ ≠ _))
  | .writeUnlock _ => inferInstanceAs (Decidable (_ → _ ∉ _))
  | .readLock _ | .writeLock _ | .tryReadLock _ | .tryWriteLock _ => .isTrue trivial

/-- The lock of the system, the owner and the counter are what the threads have acquired. -/
structure Nested (s : RwlSys) : Prop where
  writer : ∀ t, s.rwl.rwlock.writer = some t ↔ .write ∈ s.held t
  readers : ∀ t, s.rwl.rwlock.readers.count t =
    if .write ∈ s.held t then 0 else (s.held t).length
  excl : s.rwl.rwlock.writer ≠ none → s.rwl.rwlock.readers = []
  first : ∀ t, .write ∈ s.held t → (s.held t).getLast? = some .write
  locker : s.rwl.writeLocker = s.rwl.rwlock.writer
  wlc : ∀ t, s.rwl.rwlock.writer = some t →
    s.rwl.wlc = toUInt32 ((s.held t).count .write - 1)
  wlc_none : s.rwl.rwlock.writer = none → s.rwl.wlc = 0

variable {s s' : RwlSys} {t u : ℕ} {mode : Mode} {a : Call}

/-- Beside a writer nobody has acquired anything. -/
theorem Nested.held_eq_nil (h : s.Nested) (ht : s.rwl.rwlock.writer = some t) (hne : u ≠ t) :
    s.held u = [] := by
  have hreaders := h.readers u
  rw [h.excl (by rw [ht]; exact Option.some_ne_none t), List.count_nil] at hreaders
  have hwrite : .write ∉ s.held u := by
    intro hu
    rw [(h.writer u).2 hu] at ht
    exact hne (Option.some.inj ht)
  rw [if_neg hwrite] at hreaders
  exact List.length_eq_zero_iff.1 hreaders.symm

theorem Nested.isHeld (h : s.Nested) : s.Held := by
  refine ⟨fun t u ht hne => h.held_eq_nil ((h.writer t).2 ht) hne, h.writer, fun t => ?_⟩
  rw [h.writer t, ← List.count_pos_iff (a := t), h.readers t]
  split_ifs with hwrite
  · exact iff_of_true (.inl hwrite) (List.ne_nil_of_mem hwrite)
  · rw [List.length_pos_iff]
    exact or_iff_right hwrite

/-- What a thread has acquired before its last lock. -/
theorem held_eq_cons (h : (s.held t).head? = some mode) : s.held t = mode :: (s.held t).tail := by
  obtain ⟨l, hl⟩ := List.head?_eq_some_iff.1 h
  rw [hl]
  rfl

/-- A thread without the lock for writing locks it for reading, when nobody has it for
    writing. -/
theorem Nested.read (h : s.Nested) (hfree : s.rwl.rwlock.writer = none)
    (hlock : s'.rwl = { s.rwl with
      rwlock := { s.rwl.rwlock with readers := t :: s.rwl.rwlock.readers } })
    (hheld : s'.held = Function.update s.held t (.read :: s.held t)) : s'.Nested := by
  have hnone (u : ℕ) : .write ∉ s.held u := by
    rw [← h.writer u, hfree]
    exact (Option.some_ne_none u).symm
  have hnone' (u : ℕ) : .write ∉ s'.held u := by
    rw [hheld]
    by_cases hu : u = t
    · rw [hu, Function.update_self, List.mem_cons]
      rintro (heq | hmem)
      · cases heq
      · exact hnone t hmem
    · rw [Function.update_of_ne hu]
      exact hnone u
  have hwriter : s'.rwl.rwlock.writer = none := by rw [hlock]; exact hfree
  refine ⟨fun u => ?_, fun u => ?_, fun hw => absurd hwriter hw, fun u hu => absurd hu (hnone' u),
    ?_, fun u hu => ?_, fun _ => ?_⟩
  · rw [hwriter]
    exact iff_of_false (Option.some_ne_none u).symm (hnone' u)
  · have hreaders := h.readers u
    rw [if_neg (hnone u)] at hreaders
    rw [if_neg (hnone' u), hlock, hheld]
    by_cases hu : u = t
    · rw [hu] at hreaders ⊢
      rw [Function.update_self, List.count_cons_self, List.length_cons, hreaders]
    · rw [Function.update_of_ne hu, List.count_cons_of_ne (Ne.symm hu), hreaders]
  · rw [hlock]
    exact h.locker
  · rw [hwriter] at hu
    cases hu
  · rw [hlock]
    exact h.wlc_none hfree

/-- The thread that has the lock for writing locks it again, or for reading as well. -/
theorem Nested.again (h : s.Nested) (ht : s.rwl.rwlock.writer = some t)
    (hlock : s'.rwl.rwlock = s.rwl.rwlock) (hlocker : s'.rwl.writeLocker = s.rwl.writeLocker)
    (hheld : s'.held = Function.update s.held t (mode :: s.held t))
    (hwlc : mode = .read ∧ s'.rwl.wlc = s.rwl.wlc ∨
      mode = .write ∧ s'.rwl.wlc = incr32 s.rwl.wlc) : s'.Nested := by
  have hwrite := (h.writer t).1 ht
  have hmem (u : ℕ) : .write ∈ s'.held u ↔ .write ∈ s.held u := by
    rw [hheld]
    by_cases hu : u = t
    · rw [hu, Function.update_self]
      exact iff_of_true (List.mem_cons_of_mem _ hwrite) hwrite
    · rw [Function.update_of_ne hu]
  refine ⟨fun u => ?_, fun u => ?_, ?_, fun u hu => ?_, ?_, fun u hu => ?_, fun hnone => ?_⟩
  · rw [hlock, hmem, h.writer u]
  · rw [hlock, h.readers u]
    by_cases hu : u = t
    · rw [if_pos (hu ▸ hwrite), if_pos ((hmem u).2 (hu ▸ hwrite))]
    · rw [hheld, Function.update_of_ne hu]
  · rw [hlock]
    exact h.excl
  · have hlast := h.first u ((hmem u).1 hu)
    rw [hheld]
    by_cases hu : u = t
    · subst hu
      obtain ⟨m, l, hl⟩ := List.exists_cons_of_ne_nil (List.ne_nil_of_mem hwrite)
      rw [Function.update_self, hl, List.getLast?_cons_cons, ← hl, hlast]
    · rw [Function.update_of_ne hu, hlast]
  · rw [hlocker, hlock]
    exact h.locker
  · rw [hlock, ht] at hu
    cases hu
    have hcount := h.wlc t ht
    rw [hheld, Function.update_self]
    rcases hwlc with ⟨rfl, hwlc⟩ | ⟨rfl, hwlc⟩
    · rw [hwlc, List.count_cons_of_ne (by decide), hcount]
    · have hpos := List.count_pos_iff.2 hwrite
      rw [hwlc, List.count_cons_self, hcount, incr32_toUInt32]
      congr 1
      omega
  · rw [hlock, ht] at hnone
    cases hnone

/-- A thread locks the free lock for writing. -/
theorem Nested.write (h : s.Nested) (hfree : s.rwl.rwlock.writer = none)
    (hreaders : s.rwl.rwlock.readers = [])
    (hlock : s'.rwl = { s.rwl with
      rwlock := { s.rwl.rwlock with writer := some t }, writeLocker := some t })
    (hheld : s'.held = Function.update s.held t (.write :: s.held t)) : s'.Nested := by
  have hnil (u : ℕ) : s.held u = [] := by
    have hcount := h.readers u
    have hnone : .write ∉ s.held u := by
      rw [← h.writer u, hfree]
      exact (Option.some_ne_none u).symm
    rw [hreaders, List.count_nil, if_neg hnone] at hcount
    exact List.length_eq_zero_iff.1 hcount.symm
  have hself : s'.held t = [.write] := by rw [hheld, Function.update_self, hnil]
  have hother {u : ℕ} (hu : u ≠ t) : s'.held u = [] := by
    rw [hheld, Function.update_of_ne hu, hnil]
  have hwriter : s'.rwl.rwlock.writer = some t := by rw [hlock]
  refine ⟨fun u => ?_, fun u => ?_, fun _ => ?_, fun u hmem => ?_, ?_, fun u hu => ?_,
    fun hnone => ?_⟩
  · rw [hwriter]
    by_cases hu : u = t
    · rw [hu, hself]
      exact iff_of_true rfl (List.mem_singleton_self _)
    · rw [hother hu]
      exact iff_of_false (fun heq => hu (Option.some.inj heq).symm) List.not_mem_nil
  · rw [hlock]
    dsimp only
    rw [hreaders, List.count_nil]
    by_cases hu : u = t
    · rw [hu, hself, if_pos (List.mem_singleton_self _)]
    · rw [hother hu, if_neg List.not_mem_nil, List.length_nil]
  · rw [hlock]
    exact hreaders
  · by_cases hu : u = t
    · rw [hu, hself]
      rfl
    · rw [hother hu] at hmem
      cases hmem
  · rw [hlock]
  · rw [hwriter] at hu
    cases hu
    rw [hself, hlock]
    exact (h.wlc_none hfree).trans toUInt32_zero.symm
  · rw [hwriter] at hnone
    cases hnone

/-- A thread without the lock for writing releases a lock for reading. -/
theorem Nested.readReleased (h : s.Nested) (hne : s.rwl.rwlock.writer ≠ some t)
    (hhead : (s.held t).head? = some .read)
    (hlock : s'.rwl = { s.rwl with
      rwlock := { s.rwl.rwlock with readers := s.rwl.rwlock.readers.erase t } })
    (hheld : s'.held = Function.update s.held t (s.held t).tail) : s'.Nested := by
  have hcons := held_eq_cons hhead
  have hnot : .write ∉ s.held t := fun hmem => hne ((h.writer t).2 hmem)
  have hfree : s.rwl.rwlock.writer = none := by
    rw [Option.eq_none_iff_forall_ne_some]
    intro u hu
    have hnil := h.held_eq_nil hu fun heq : t = u => hne (heq ▸ hu)
    rw [hnil] at hhead
    cases hhead
  have hnone (u : ℕ) : .write ∉ s.held u := by
    rw [← h.writer u, hfree]
    exact (Option.some_ne_none u).symm
  have hnone' (u : ℕ) : .write ∉ s'.held u := by
    rw [hheld]
    by_cases hu : u = t
    · rw [hu, Function.update_self]
      exact fun hmem => hnot (List.mem_of_mem_tail hmem)
    · rw [Function.update_of_ne hu]
      exact hnone u
  have hwriter : s'.rwl.rwlock.writer = none := by rw [hlock]; exact hfree
  refine ⟨fun u => ?_, fun u => ?_, fun hw => absurd hwriter hw, fun u hu => absurd hu (hnone' u),
    ?_, fun u hu => ?_, fun _ => ?_⟩
  · rw [hwriter]
    exact iff_of_false (Option.some_ne_none u).symm (hnone' u)
  · have hreaders := h.readers u
    rw [if_neg (hnone u)] at hreaders
    rw [if_neg (hnone' u), hlock, hheld]
    dsimp only
    by_cases hu : u = t
    · rw [hu] at hreaders ⊢
      rw [Function.update_self, List.count_erase_self, List.length_tail, hreaders]
    · rw [Function.update_of_ne hu, List.count_erase_of_ne hu, hreaders]
  · rw [hlock]
    exact h.locker
  · rw [hwriter] at hu
    cases hu
  · rw [hlock]
    exact h.wlc_none hfree

/-- A thread releases a lock for writing that it has acquired again. -/
theorem Nested.writeReleased (h : s.Nested) (ht : s.rwl.rwlock.writer = some t)
    (hhead : (s.held t).head? = some .write) (hpos : 0 < s.rwl.wlc)
    (hlock : s'.rwl = { s.rwl with wlc := decr32 s.rwl.wlc })
    (hheld : s'.held = Function.update s.held t (s.held t).tail) : s'.Nested := by
  have hcons := held_eq_cons hhead
  have hcount := h.wlc t ht
  rw [hcons, List.count_cons_self, Nat.add_sub_cancel] at hcount
  have hwrite : .write ∈ (s.held t).tail := by
    rw [← List.count_pos_iff, Nat.pos_iff_ne_zero]
    intro hzero
    rw [hcount, hzero, toUInt32_zero] at hpos
    exact lt_irrefl 0 hpos
  have hmem (u : ℕ) : .write ∈ s'.held u ↔ .write ∈ s.held u := by
    rw [hheld]
    by_cases hu : u = t
    · rw [hu, Function.update_self]
      exact iff_of_true hwrite (List.mem_of_mem_tail hwrite)
    · rw [Function.update_of_ne hu]
  have hrwlock : s'.rwl.rwlock = s.rwl.rwlock := by rw [hlock]
  refine ⟨fun u => ?_, fun u => ?_, ?_, fun u hu => ?_, ?_, fun u hu => ?_, fun hnone => ?_⟩
  · rw [hrwlock, hmem, h.writer u]
  · rw [hrwlock, h.readers u]
    by_cases hu : u = t
    · have hold : .write ∈ s.held u := hu ▸ List.mem_of_mem_tail hwrite
      rw [if_pos hold, if_pos ((hmem u).2 hold)]
    · rw [hheld, Function.update_of_ne hu]
  · rw [hrwlock]
    exact h.excl
  · have hlast := h.first u ((hmem u).1 hu)
    rw [hheld]
    by_cases hu : u = t
    · subst hu
      obtain ⟨m, l, hl⟩ := List.exists_cons_of_ne_nil (List.ne_nil_of_mem hwrite)
      rw [hcons, hl, List.getLast?_cons_cons] at hlast
      rw [Function.update_self, hl, hlast]
    · rw [Function.update_of_ne hu, hlast]
  · rw [hrwlock, ← h.locker, hlock]
  · rw [hrwlock, ht] at hu
    cases hu
    obtain ⟨n, hn⟩ := Nat.exists_eq_add_one.2 (List.count_pos_iff.2 hwrite)
    rw [hheld, Function.update_self, hlock]
    dsimp only
    rw [hcount, hn, decr32_toUInt32, Nat.add_sub_cancel]
  · rw [hrwlock, ht] at hnone
    cases hnone

/-- A thread releases the lock for writing. -/
theorem Nested.writeEnded (h : s.Nested) (hhead : (s.held t).head? = some .write)
    (hlast : .write ∉ (s.held t).tail) (hzero : s.rwl.wlc = 0)
    (hlock : s'.rwl = { s.rwl with
      writeLocker := none, rwlock := { s.rwl.rwlock with writer := none } })
    (hheld : s'.held = Function.update s.held t (s.held t).tail) : s'.Nested := by
  have hcons := held_eq_cons hhead
  have hwrite : .write ∈ s.held t := by
    rw [hcons]
    exact List.mem_cons_self ..
  have ht := (h.writer t).2 hwrite
  -- A lock for writing comes first, so that nothing is left.
  have hnil : (s.held t).tail = [] := by
    have hfirst := h.first t hwrite
    by_contra hne
    obtain ⟨m, l, hl⟩ := List.exists_cons_of_ne_nil hne
    rw [hcons, hl, List.getLast?_cons_cons, ← hl] at hfirst
    exact hlast (List.mem_of_getLast? hfirst)
  have hheld' (u : ℕ) : s'.held u = [] := by
    rw [hheld]
    by_cases hu : u = t
    · rw [hu, Function.update_self, hnil]
    · rw [Function.update_of_ne hu, h.held_eq_nil ht hu]
  have hreaders : s.rwl.rwlock.readers = [] := h.excl (by rw [ht]; exact Option.some_ne_none t)
  have hwriter : s'.rwl.rwlock.writer = none := by rw [hlock]
  refine ⟨fun u => ?_, fun u => ?_, fun hw => absurd hwriter hw, fun u hu => ?_, ?_, fun u hu => ?_,
    fun _ => ?_⟩
  · rw [hwriter, hheld']
    exact iff_of_false (Option.some_ne_none u).symm List.not_mem_nil
  · rw [hheld', if_neg List.not_mem_nil, hlock]
    dsimp only
    rw [hreaders]
    rfl
  · rw [hheld'] at hu
    cases hu
  · rw [hlock]
  · rw [hwriter] at hu
    cases hu
  · rw [hlock]
    exact hzero

/-- A good call keeps the lock and its users in step. -/
theorem Nested.call {o : Status} (h : s.Nested) (ha : s.Allows a) (hg : s.Good a)
    (hrun : s.call a = .ok (o, s')) : s'.Nested := by
  cases a with
  | readLock t =>
    rw [RwlSys.call, KsRwl.readLock, RwLock.rdlock] at hrun
    -- The writer locks once more, or the lock can be had, or the thread would block.
    split_ifs at hrun with hme hfree
    · cases hrun
      exact h.again hme rfl rfl rfl (.inl ⟨rfl, rfl⟩)
    · cases hrun
      exact h.read hfree rfl rfl
    · cases hrun
  | writeLock t =>
    rw [RwlSys.call, KsRwl.writeLock, RwLock.wrlock] at hrun
    split_ifs at hrun with hme hdead hfree
    · cases hrun
      exact h.again (h.locker ▸ hme) rfl rfl rfl (.inr ⟨rfl, rfl⟩)
    · exact absurd (h.locker.trans hdead) hme
    · cases hrun
      exact h.write hfree.1 hfree.2 rfl rfl
    · cases hrun
  | tryReadLock t =>
    rw [RwlSys.call, KsRwl.tryReadLock, RwLock.tryrdlock] at hrun
    split_ifs at hrun with hfree
    · cases hrun
      exact h.read hfree rfl rfl
    · cases hrun
      exact h
  | tryWriteLock t =>
    rw [RwlSys.call, KsRwl.tryWriteLock, RwLock.trywrlock] at hrun
    split_ifs at hrun with hme hfree
    · cases hrun
      exact h.again (h.locker ▸ hme) rfl rfl rfl (.inr ⟨rfl, rfl⟩)
    · cases hrun
      exact h.write hfree.1 hfree.2 rfl rfl
    · cases hrun
      exact h
  | readUnlock t =>
    rw [RwlSys.call, KsRwl.readUnlock, RwLock.unlock, if_neg hg] at hrun
    cases hrun
    exact h.readReleased hg ha rfl rfl
  | writeUnlock t =>
    have hwrite : .write ∈ s.held t := List.mem_of_head? ha
    have ht := (h.writer t).2 hwrite
    rw [RwlSys.call, KsRwl.writeUnlock, RwLock.unlock, if_pos ht] at hrun
    -- An inner lock, or the last one.
    split_ifs at hrun with hagain
    · cases hrun
      exact h.writeReleased ht ha hagain.2 rfl rfl
    · cases hrun
      have hzero : s.rwl.wlc = 0 := Nat.eq_zero_of_not_pos fun hpos =>
        hagain ⟨h.locker.trans ht, hpos⟩
      exact h.writeEnded ha (hg hzero) hzero rfl rfl

/-- A bad release gives up a lock that has been acquired before. -/
theorem Nested.not_held (h : s.Nested) (ha : s.Allows a) (hg : ¬s.Good a) :
    ∃ o s', s.call a = .ok (o, s') ∧ ¬s'.Held := by
  cases a with
  | readUnlock t =>
    have ht : s.rwl.rwlock.writer = some t := not_not.1 hg
    have hwrite := (h.writer t).1 ht
    rw [held_eq_cons ha, List.mem_cons] at hwrite
    refine ⟨_, _, rfl, fun hheld => ?_⟩
    have hleft : .write ∈ Function.update s.held t (s.held t).tail t := by
      rw [Function.update_self]
      exact hwrite.resolve_left fun heq => by cases heq
    have hwriter : (s.rwl.rwlock.unlock t).writer = some t := (hheld.writer t).2 hleft
    rw [RwLock.unlock, if_pos ht] at hwriter
    cases hwriter
  | writeUnlock t =>
    obtain ⟨hzero, hwrite⟩ := Classical.not_imp.1 hg
    have ht := (h.writer t).2 (List.mem_of_head? ha)
    refine ⟨_, _, rfl, fun hheld => ?_⟩
    have hleft : .write ∈ Function.update s.held t (s.held t).tail t := by
      rw [Function.update_self]
      exact not_not.1 hwrite
    have hwriter : (s.rwl.writeUnlock t).2.rwlock.writer = some t := (hheld.writer t).2 hleft
    rw [KsRwl.writeUnlock, hzero, if_neg fun hagain => lt_irrefl 0 hagain.2, RwLock.unlock,
      if_pos ht] at hwriter
    cases hwriter
  | _ => exact absurd trivial hg

theorem nested_init : ({} : RwlSys).Nested :=
  ⟨fun t => iff_of_false (Option.some_ne_none t).symm List.not_mem_nil, fun _ => rfl, fun _ => rfl,
    fun _ ht => absurd ht List.not_mem_nil, rfl, fun t ht => absurd ht.symm (Option.some_ne_none t),
    fun _ => rfl⟩

/-- Whatever the threads do, as long as each releases what it has acquired, the last first:
    the lock is held as they expect in every state if and only if every call is a good one. -/
theorem always_held_iff {as : List Call}
    (ha : Along RwlSys.call Allows {} as) :
    Always RwlSys.call Held {} as ↔ Along RwlSys.call Good {} as :=
  always_iff_along (J := Nested) (fun _ h => h.isHeld)
    (fun _ _ _ _ h ha hg hrun => h.call ha hg hrun) (fun _ _ h ha hg => h.not_held ha hg)
    nested_init ha

theorem always_held_iff_shared :
    Always RwlSys.call Held {} [.readLock 1, .tryWriteLock 2, .readLock 2, .readUnlock 1,
        .readUnlock 2, .writeLock 1, .tryReadLock 2, .tryWriteLock 1, .writeUnlock 1, .readLock 1,
        .writeLock 1, .writeUnlock 1, .readUnlock 1] ↔
      Along RwlSys.call Good {} [.readLock 1, .tryWriteLock 2, .readLock 2, .readUnlock 1,
        .readUnlock 2, .writeLock 1, .tryReadLock 2, .tryWriteLock 1, .writeUnlock 1, .readLock 1,
        .writeLock 1, .writeUnlock 1, .readUnlock 1] :=
  always_held_iff (by decide +kernel)

/-- A writer locks for reading and releases that: another thread can lock for writing. -/
theorem not_always_held :
    ¬∀ as, Along RwlSys.call Allows {} as → Always RwlSys.call Held {} as := by
  intro h
  have hrun := h [.writeLock 1, .readLock 1, .readUnlock 1, .writeLock 2] (by decide +kernel)
  have hend : okAnd (fun r => decide (Mode.write ∈ r.2.held 1 ∧ r.2.held 2 ≠ []))
      (calls RwlSys.call {} [.writeLock 1, .readLock 1, .readUnlock 1, .writeLock 2]) = true := by
    decide +kernel
  obtain ⟨⟨os, s⟩, hcalls, hlast⟩ := okAnd_iff.1 hend
  obtain ⟨hwrite, hother⟩ := of_decide_eq_true hlast
  exact hother ((hrun.last hcalls).alone 1 2 hwrite (by decide))

end RwlSys

end Libks
