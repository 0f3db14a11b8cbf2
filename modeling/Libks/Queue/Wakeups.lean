import Libks.Queue.Fifo

/-!
# No lost wakeup

Nobody should sleep on a queue while there is something to do that nobody has been
woken for (`NoLost`): no popper while there are more pointers than woken poppers,
no pusher while there is more room than woken pushers, and nobody at all once the
queue has been terminated. Each step keeps this if and only if it is a `Good` one
(`step_noLost`), and so does a run (`stays_noLost_iff`). Of the steps that are
not good,

* a popper that has been signalled, but times out, leaves without a look at the
  queue, and passes the signal on to nobody;
* between the two parts of `ks_q_term` a waiter that goes on finds the queue
  inactive, neither pushes nor pops, and passes the signal on to nobody;
* a second `ks_q_term` returns before the first one has woken the waiters;
* where the counter of the waiters has wrapped around to zero, no signal is sent.
-/

namespace Libks

open Base

/-- A `ks_q_term` has returned, or is between its two parts. -/
def QThreads.Ended (th : QThreads) : Prop := th.termed = true ∨ th.terms ≠ []

/-- Nobody sleeps while there is something to do that nobody has been woken for. -/
structure QThreads.NoLost (th : QThreads) (len maxlen : ℕ) : Prop where
  poppers : th.popWaiters.Covered len
  pushers : th.pushWaiters.Covered (maxlen - len)
  termed : th.termed = true → th.popWaiters.asleep = 0 ∧ th.pushWaiters.asleep = 0

/-- No wakeup is lost where both conditions have theirs. -/
theorem QThreads.noLost_iff {th : QThreads} {len maxlen : ℕ} : th.NoLost len maxlen ↔
    th.popWaiters.Covered len ∧ th.pushWaiters.Covered (maxlen - len) ∧
      (th.termed = true → th.popWaiters.asleep = 0 ∧ th.pushWaiters.asleep = 0) :=
  ⟨fun h => ⟨h.1, h.2, h.3⟩, fun h => ⟨h.1, h.2.1, h.2.2⟩⟩

instance (th : QThreads) (len maxlen : ℕ) : Decidable (th.NoLost len maxlen) :=
  decidable_of_iff _ QThreads.noLost_iff.symm

/-- What a step asks of the state it is taken in: whether there is room, whether there
    are pointers, what the counters of the waiters are, and whether the queue is active. -/
structure QView where
  full : Bool
  len : ℕ
  maxlen : ℕ
  pushers : ℕ
  poppers : ℕ
  active : Bool

/-- A push may put its pointer into the queue, signal or no signal. -/
def QThreads.GoodStore (th : QThreads) (v : QView) : Prop :=
  v.full = false → v.poppers = 0 → th.popWaiters.Spare v.len

/-- A pop may take a pointer from the queue, signal or no signal. -/
def QThreads.GoodTake (th : QThreads) (v : QView) : Prop :=
  v.len ≠ 0 → v.pushers = 0 → th.pushWaiters.Spare (v.maxlen - v.len)

/-- The steps that lose no wakeup. -/
def QThreads.Good (th : QThreads) (v : QView) : QSys.Act → Prop
  | .push _ _ _ _ | .trypush _ _ _ _ => v.active = true → th.GoodStore v
  | .resumePush t _ _ =>
    if v.active then th.GoodStore v
    else v.full = false → th.pushWaiters.Signalled t → th.pushWaiters.Spare (v.maxlen - v.len)
  | .pop _ _ _ | .trypop _ _ | .flushTurn _ _ => v.active = true → th.GoodTake v
  | .resumePop t _ =>
    if v.active then th.GoodTake v
    else v.len ≠ 0 → th.popWaiters.Signalled t → th.popWaiters.Spare v.len
  | .timeOut t => th.popWaiters.Signalled t → th.popWaiters.Spare v.len
  | .term _ => v.active = false → th.popWaiters.asleep = 0 ∧ th.pushWaiters.asleep = 0
  | .trypeek _ | .flush _ | .setFlushFn _ | .wake _ | .termWake _ => True

instance (th : QThreads) (v : QView) : Decidable (th.GoodStore v) :=
  inferInstanceAs (Decidable (_ → _))

instance (th : QThreads) (v : QView) : Decidable (th.GoodTake v) :=
  inferInstanceAs (Decidable (_ → _))

instance (th : QThreads) (v : QView) : DecidablePred (th.Good v)
  | .push _ _ _ _ | .trypush _ _ _ _ => inferInstanceAs (Decidable (_ → _))
  | .pop _ _ _ | .trypop _ _ | .flushTurn _ _ => inferInstanceAs (Decidable (_ → _))
  | .resumePush _ _ _ | .resumePop _ _ => inferInstanceAs (Decidable (ite _ _ _))
  | .timeOut _ | .term _ => inferInstanceAs (Decidable (_ → _))
  | .trypeek _ | .flush _ | .setFlushFn _ | .wake _ | .termWake _ => .isTrue trivial

/-! ## The steps of the list of pointers -/

namespace QModel

open QSys (Act)

variable {m : QModel} {pick : Option ℕ} {t ptr : ℕ}

def view (m : QModel) : QView where
  full := decide m.Full
  len := m.items.length
  maxlen := m.maxlen
  pushers := toUInt32 m.th.pushWaiters.length
  poppers := toUInt32 m.th.popWaiters.length
  active := m.active

/-- Nobody sleeps while there is something to do that nobody has been woken for. -/
def NoLost (m : QModel) : Prop := m.th.NoLost m.items.length m.maxlen

/-- The step loses no wakeup. -/
def Good (m : QModel) (a : Act) : Prop := m.th.Good m.view a

/-- What every step keeps, wakeups or no wakeups. -/
structure Kept (m : QModel) : Prop where
  le : m.maxlen ≠ 0 → m.items.length ≤ m.maxlen
  bounded : m.maxlen = 0 → m.th.pushWaiters = []
  closed : m.th.Ended → m.active = false
  pushTids : m.th.pushWaiters.tids.Nodup
  popTids : m.th.popWaiters.tids.Nodup

/-- Where its signal is left out, a pointer more is covered only if a popper is to spare. -/
theorem signalPop_covered {th : QThreads} {n k : ℕ} (h : th.popWaiters.Covered n)
    (hnd : th.popWaiters.tids.Nodup) (hpick : th.popWaiters.Picks pick) :
    (th.signalPop k pick).popWaiters.Covered (n + 1) ↔ (k = 0 → th.popWaiters.Spare n) := by
  rw [QThreads.signalPop]
  by_cases hk : k = 0
  · rw [if_neg (not_not.2 hk), imp_iff_right hk, Cond.spare_iff]
  · rw [if_pos hk]
    exact iff_of_true (h.signal hnd hpick) fun h0 => absurd h0 hk

/-- Where its signal is left out, a free place more is covered only if a pusher is to spare. -/
theorem signalPush_covered {th : QThreads} {n k : ℕ} (h : th.pushWaiters.Covered n)
    (hnd : th.pushWaiters.tids.Nodup) (hpick : th.pushWaiters.Picks pick) :
    (th.signalPush k pick).pushWaiters.Covered (n + 1) ↔ (k = 0 → th.pushWaiters.Spare n) := by
  rw [QThreads.signalPush]
  by_cases hk : k = 0
  · rw [if_neg (not_not.2 hk), imp_iff_right hk, Cond.spare_iff]
  · rw [if_pos hk]
    exact iff_of_true (h.signal hnd hpick) fun h0 => absurd h0 hk

/-- A signal to the poppers leaves the pushers alone. -/
theorem signalPop_pushWaiters (th : QThreads) (k : ℕ) :
    (th.signalPop k pick).pushWaiters = th.pushWaiters := by
  rw [QThreads.signalPop]
  split_ifs <;> rfl

/-- A signal to the pushers leaves the poppers alone. -/
theorem signalPush_popWaiters (th : QThreads) (k : ℕ) :
    (th.signalPush k pick).popWaiters = th.popWaiters := by
  rw [QThreads.signalPush]
  split_ifs <;> rfl

theorem signalPop_termed (th : QThreads) (k : ℕ) : (th.signalPop k pick).termed = th.termed := by
  rw [QThreads.signalPop]
  split_ifs <;> rfl

theorem signalPush_termed (th : QThreads) (k : ℕ) : (th.signalPush k pick).termed = th.termed := by
  rw [QThreads.signalPush]
  split_ifs <;> rfl

/-- A signal that is not needed does no harm. -/
theorem signalPop_noLost {th : QThreads} {n k l : ℕ} (h : th.NoLost n l)
    (hnd : th.popWaiters.tids.Nodup) (hpick : th.popWaiters.Picks pick) :
    (th.signalPop k pick).NoLost n l := by
  rw [QThreads.signalPop]
  split_ifs
  · refine ⟨(h.poppers.signal hnd hpick).mono n.le_succ, h.pushers, fun ht => ?_⟩
    dsimp only
    rw [(Cond.signal_spec hnd hpick).1, (h.termed ht).1]
    exact ⟨rfl, (h.termed ht).2⟩
  · exact h

/-- A signal loses no wakeup. -/
theorem signalPush_noLost {th : QThreads} {n k l : ℕ} (h : th.NoLost n l)
    (hnd : th.pushWaiters.tids.Nodup) (hpick : th.pushWaiters.Picks pick) :
    (th.signalPush k pick).NoLost n l := by
  rw [QThreads.signalPush]
  split_ifs
  · refine ⟨h.poppers, (h.pushers.signal hnd hpick).mono (Nat.le_succ _), fun ht => ?_⟩
    dsimp only
    rw [(Cond.signal_spec hnd hpick).1, (h.termed ht).2]
    exact ⟨(h.termed ht).1, rfl⟩
  · exact h

/-- A pointer is put into an active queue. -/
theorem store_active_noLost (hactive : m.active = true) (hopen : m.th.termed = false)
    (hnd : m.th.popWaiters.tids.Nodup) (hpick : m.th.popWaiters.Picks pick)
    (hpop : m.th.popWaiters.Covered m.items.length)
    (hpush : m.th.pushWaiters.Covered (m.maxlen - (m.items.length + 1))) :
    (m.store ptr pick).2.NoLost ↔
      (m.view.poppers = 0 → m.th.popWaiters.Spare m.items.length) := by
  rw [store_active hactive, NoLost, QThreads.noLost_iff]
  dsimp only [signalPop]
  rw [signalPop_pushWaiters, signalPop_termed, hopen, List.length_append, List.length_singleton,
    signalPop_covered hpop hnd hpick]
  exact ⟨fun h => h.1, fun h => ⟨h, hpush, fun ht => absurd ht Bool.false_ne_true⟩⟩

/-- A pointer is taken from an active queue. -/
theorem take_active_noLost (hactive : m.active = true) (hopen : m.th.termed = false)
    (hnd : m.th.pushWaiters.tids.Nodup) (hpick : m.th.pushWaiters.Picks pick)
    (hitems : m.items ≠ []) (hle : m.th.pushWaiters ≠ [] → m.items.length ≤ m.maxlen)
    (hpop : m.th.popWaiters.Covered (m.items.length - 1))
    (hpush : m.th.pushWaiters.Covered (m.maxlen - m.items.length)) :
    (m.take pick).2.NoLost ↔
      (m.view.pushers = 0 → m.th.pushWaiters.Spare (m.maxlen - m.items.length)) := by
  have hpos : 0 < m.items.length := List.length_pos_iff.2 hitems
  rw [take_active hactive, NoLost, QThreads.noLost_iff]
  dsimp only [signalPush]
  rw [signalPush_popWaiters, signalPush_termed, hopen, List.length_tail]
  suffices hcov : (m.th.signalPush (toUInt32 m.th.pushWaiters.length) pick).pushWaiters.Covered
      (m.maxlen - (m.items.length - 1)) ↔
      (m.view.pushers = 0 → m.th.pushWaiters.Spare (m.maxlen - m.items.length)) by
    rw [hcov]
    exact ⟨fun h => h.2.1, fun h => ⟨hpop, h, fun ht => absurd ht Bool.false_ne_true⟩⟩
  by_cases hlen : m.items.length ≤ m.maxlen
  · rw [show m.maxlen - (m.items.length - 1) = m.maxlen - m.items.length + 1 by omega]
    exact signalPush_covered hpush hnd hpick
  · -- With more pointers than the queue may hold, no pusher waits.
    have hnone : m.th.pushWaiters = [] := by
      by_contra hne
      exact hlen (hle hne)
    rw [show m.maxlen - (m.items.length - 1) = 0 by omega]
    exact iff_of_true .zero fun _ => Or.inl (by rw [hnone, Cond.asleep_nil])

/-- Where the queue is not active, a push that goes on does no more than signal. -/
theorem store_inactive_noLost (hactive : m.active = false) (hnd : m.th.popWaiters.tids.Nodup)
    (hpick : m.th.popWaiters.Picks pick) (hpop : m.th.popWaiters.Covered m.items.length)
    (hterm : m.th.termed = true → m.th.popWaiters.asleep = 0 ∧ m.th.pushWaiters.asleep = 0) :
    (m.store ptr pick).2.NoLost ↔ m.th.pushWaiters.Covered (m.maxlen - m.items.length) := by
  rw [store_inactive hactive]
  constructor
  · intro h
    have hpush := h.pushers
    dsimp only [signalPop] at hpush
    rwa [signalPop_pushWaiters] at hpush
  · exact fun h => signalPop_noLost ⟨hpop, h, hterm⟩ hnd hpick

/-- Where the queue is not active, a pop that goes on does no more than signal. -/
theorem take_inactive_noLost (hactive : m.active = false) (hnd : m.th.pushWaiters.tids.Nodup)
    (hpick : m.th.pushWaiters.Picks pick)
    (hpush : m.th.pushWaiters.Covered (m.maxlen - m.items.length))
    (hterm : m.th.termed = true → m.th.popWaiters.asleep = 0 ∧ m.th.pushWaiters.asleep = 0) :
    (m.take pick).2.NoLost ↔ m.th.popWaiters.Covered m.items.length := by
  rw [take_inactive hactive]
  constructor
  · intro h
    have hpop := h.poppers
    dsimp only [signalPush] at hpop
    rwa [signalPush_popWaiters] at hpop
  · exact fun h => signalPush_noLost ⟨h, hpush, hterm⟩ hnd hpick

/-- A pop that does not wait. -/
theorem take_goodTake (hk : m.Kept) (hn : m.NoLost) (hactive : m.active = true)
    (hpick : m.th.pushWaiters.Picks pick) (hitems : m.items ≠ []) :
    (m.take pick).2.NoLost ↔ m.th.GoodTake m.view := by
  have hopen : m.th.termed = false :=
    Bool.eq_false_iff.2 fun ht => by rw [hk.closed (.inl ht)] at hactive; cases hactive
  have hle (hne : m.th.pushWaiters ≠ []) : m.items.length ≤ m.maxlen := hk.le (mt hk.bounded hne)
  rw [take_active_noLost hactive hopen hk.pushTids hpick hitems hle
    (hn.poppers.mono (Nat.sub_le ..)) hn.pushers]
  have hlen : m.view.len ≠ 0 := fun h0 => hitems (List.length_eq_zero_iff.1 h0)
  exact ⟨fun h _ => h, fun h => h hlen⟩

/-- A push that does not wait. -/
theorem store_goodStore (hk : m.Kept) (hn : m.NoLost) (hactive : m.active = true)
    (hpick : m.th.popWaiters.Picks pick) (hfull : ¬m.Full) :
    (m.store ptr pick).2.NoLost ↔ m.th.GoodStore m.view := by
  have hopen : m.th.termed = false :=
    Bool.eq_false_iff.2 fun ht => by rw [hk.closed (.inl ht)] at hactive; cases hactive
  rw [store_active_noLost hactive hopen hk.popTids hpick hn.poppers
    (hn.pushers.mono (Nat.sub_le_sub_left (Nat.le_succ _) _))]
  exact ⟨fun h _ => h, fun h => h (decide_eq_false hfull)⟩

/-- A try to pop loses none if and only if the pop that it makes is good. -/
theorem trypop_noLost (hk : m.Kept) (hn : m.NoLost) (hpick : m.th.pushWaiters.Picks pick) :
    (m.trypop pick).2.NoLost ↔ (m.active = true → m.th.GoodTake m.view) := by
  rw [trypop]
  split_ifs with hactive hitems
  · exact iff_of_true hn fun h => absurd hactive (by rw [h]; exact Bool.false_ne_true)
  · exact iff_of_true hn fun _ h => absurd (congrArg List.length hitems) h
  · rw [Bool.not_eq_true', Bool.not_eq_false] at hactive
    rw [imp_iff_right hactive, take_goodTake hk hn hactive hpick hitems]

theorem goodStore_of_full (h : m.Full) : m.th.GoodStore m.view := fun hfull _ => by
  rw [view, decide_eq_false_iff_not] at hfull
  exact absurd h hfull

theorem goodTake_of_nil (h : m.items = []) : m.th.GoodTake m.view :=
  fun hlen _ => absurd (congrArg List.length h) hlen

theorem Kept.open (hk : m.Kept) (hactive : m.active = true) : m.th.termed = false :=
  Bool.eq_false_iff.2 fun ht => by
    rw [hk.closed (.inl ht)] at hactive
    exact Bool.false_ne_true hactive

/-- A pusher goes on from where it has waited. -/
theorem resumePush_noLost {start : ℕ} (hk : m.Kept) (hn : m.NoLost)
    (ht : t ∈ m.th.pushWaiters.tids) (hpick : m.th.popWaiters.Picks pick) :
    (m.step (.resumePush t start pick)).2.NoLost ↔ m.Good (.resumePush t start pick) := by
  obtain ⟨xs, w, ys, hxs, -, hw⟩ := Cond.exists_waiter hk.pushTids ht
  have hbound : m.maxlen ≠ 0 := fun h0 => by
    rw [hk.bounded h0] at hxs
    exact List.append_ne_nil_of_right_ne_nil xs (List.cons_ne_nil w ys) hxs.symm
  have hasleep := Cond.asleep_leave_le m.th.pushWaiters t
  have hterm (h : m.th.termed = true) :
      m.th.popWaiters.asleep = 0 ∧ (m.th.pushWaiters.leave t).asleep = 0 :=
    ⟨(hn.termed h).1, Nat.le_zero.1 ((hn.termed h).2 ▸ hasleep)⟩
  rw [step, hw, Good, QThreads.Good]
  dsimp only
  by_cases hfull : m.Full
  · have hfull' : Full { m with th := m.th.leavePush t } := hfull
    have hroom : m.maxlen - m.items.length = 0 := by rw [hfull.2, Nat.sub_self]
    rw [if_pos hfull']
    refine iff_of_true ⟨hn.poppers, ?_, hterm⟩ ?_
    · rw [hroom]
      exact .zero
    · split_ifs
      · exact goodStore_of_full hfull
      · exact fun h => absurd hfull (of_decide_eq_false h)
  · have hfull' : ¬Full { m with th := m.th.leavePush t } := hfull
    have hview : m.view.full = false := decide_eq_false hfull
    rw [if_neg hfull']
    rcases Bool.eq_false_or_eq_true m.active with hactive | hactive
    · -- There is room for one, and the pusher fills it.
      have hroom : m.maxlen - m.items.length = m.maxlen - (m.items.length + 1) + 1 := by
        have hle := hk.le hbound
        have hne : m.items.length ≠ m.maxlen := fun h => hfull ⟨hbound, h⟩
        omega
      have hpush := hn.pushers
      rw [hroom] at hpush
      rw [if_pos (show m.view.active = true from hactive)]
      refine (store_active_noLost (m := { m with th := m.th.leavePush t }) hactive
        (hk.open hactive) hk.popTids hpick hn.poppers (hpush.leave hk.pushTids ht)).trans ?_
      exact ⟨fun h _ => h, fun h => h hview⟩
    · rw [if_neg (show ¬m.view.active = true from (Bool.eq_false_iff.1 hactive))]
      refine (store_inactive_noLost (m := { m with th := m.th.leavePush t }) hactive hk.popTids
        hpick hn.poppers hterm).trans ?_
      refine (Cond.covered_leave hn.pushers hk.pushTids ht).trans ?_
      exact ⟨fun h _ => h, fun h => h hview⟩

/-- A popper goes on from where it has waited. -/
theorem resumePop_noLost (hk : m.Kept) (hn : m.NoLost) (ht : t ∈ m.th.popWaiters.tids)
    (hpick : m.th.pushWaiters.Picks pick) :
    (m.step (.resumePop t pick)).2.NoLost ↔ m.Good (.resumePop t pick) := by
  have hasleep := Cond.asleep_leave_le m.th.popWaiters t
  have hterm (h : m.th.termed = true) :
      (m.th.popWaiters.leave t).asleep = 0 ∧ m.th.pushWaiters.asleep = 0 :=
    ⟨Nat.le_zero.1 ((hn.termed h).1 ▸ hasleep), (hn.termed h).2⟩
  rw [step, Good, QThreads.Good]
  dsimp only
  by_cases hitems : m.items = []
  · rw [if_pos hitems]
    refine iff_of_true ⟨?_, hn.pushers, hterm⟩ ?_
    · dsimp only
      rw [hitems]
      exact .zero
    · split_ifs
      · exact goodTake_of_nil hitems
      · exact fun hlen => absurd (congrArg List.length hitems) hlen
  · have hlen : m.view.len ≠ 0 := fun h0 => hitems (List.length_eq_zero_iff.1 h0)
    rw [if_neg hitems]
    rcases Bool.eq_false_or_eq_true m.active with hactive | hactive
    · -- The popper takes its piece of the work with it.
      have hpop := hn.poppers
      have hsucc : m.items.length = m.items.length - 1 + 1 := (Nat.succ_pred_eq_of_ne_zero hlen).symm
      rw [hsucc] at hpop
      rw [if_pos (show m.view.active = true from hactive)]
      have hle (hne : m.th.pushWaiters ≠ []) : m.items.length ≤ m.maxlen := hk.le (mt hk.bounded hne)
      refine (take_active_noLost (m := { m with th := m.th.leavePop t }) hactive
        (hk.open hactive) hk.pushTids hpick hitems hle (hpop.leave hk.popTids ht) hn.pushers).trans ?_
      exact ⟨fun h _ => h, fun h => h hlen⟩
    · rw [if_neg (show ¬m.view.active = true from Bool.eq_false_iff.1 hactive)]
      refine (take_inactive_noLost (m := { m with th := m.th.leavePop t }) hactive hk.pushTids
        hpick hn.pushers hterm).trans ?_
      refine (Cond.covered_leave hn.poppers hk.popTids ht).trans ?_
      exact ⟨fun h _ => h, fun h => h hlen⟩

/-- A wait that times out. -/
theorem timeOut_noLost (hk : m.Kept) (hn : m.NoLost) (ht : t ∈ m.th.popWaiters.tids) :
    (m.step (.timeOut t)).2.NoLost ↔ m.Good (.timeOut t) := by
  have hasleep := Cond.asleep_leave_le m.th.popWaiters t
  refine Iff.trans ?_ (Cond.covered_leave hn.poppers hk.popTids ht)
  refine ⟨fun h => h.poppers, fun h => ⟨h, hn.pushers, fun hter => ?_⟩⟩
  exact ⟨Nat.le_zero.1 ((hn.termed hter).1 ▸ hasleep), (hn.termed hter).2⟩

/-- One step loses no wakeup if and only if it is a good one. -/
theorem step_noLost {a : Act} (hk : m.Kept) (hn : m.NoLost) (ha : m.th.Enabled a) :
    (m.step a).2.NoLost ↔ m.Good a := by
  cases a with
  | push t ptr start pick =>
    rw [step]
    split_ifs with hactive hfull
    · exact iff_of_true hn fun h : m.active = true => absurd h (by simpa using hactive)
    -- A pusher goes to sleep in front of a full queue, where no place is free.
    · rw [Bool.not_eq_true', Bool.not_eq_false] at hactive
      have hroom : m.maxlen - m.items.length = 0 := by rw [hfull.2, Nat.sub_self]
      refine iff_of_true ⟨hn.poppers, ?_, fun ht => ?_⟩ fun _ => goodStore_of_full hfull
      · rw [hroom]
        exact .zero
      · exact absurd ((hk.open hactive).symm.trans ht) Bool.false_ne_true
    · rw [Bool.not_eq_true', Bool.not_eq_false] at hactive
      rw [store_goodStore hk hn hactive ha.2 hfull]
      exact ⟨fun h _ => h, fun h => h hactive⟩
  | trypush t ptr start pick =>
    rw [step]
    split_ifs with hactive hfull
    · exact iff_of_true hn fun h : m.active = true => absurd h (by simpa using hactive)
    · exact iff_of_true hn fun _ => goodStore_of_full hfull
    · rw [Bool.not_eq_true', Bool.not_eq_false] at hactive
      rw [store_goodStore hk hn hactive ha.2 hfull]
      exact ⟨fun h _ => h, fun h => h hactive⟩
  | resumePush t start pick => exact resumePush_noLost hk hn ha.1 ha.2
  | pop t timed pick =>
    rw [step]
    split_ifs with hactive hitems
    · exact iff_of_true hn fun h : m.active = true => absurd h (by simpa using hactive)
    · rw [Bool.not_eq_true', Bool.not_eq_false] at hactive
      -- A popper goes to sleep in front of an empty one.
      refine iff_of_true ⟨?_, hn.pushers, fun ht => ?_⟩ fun _ => goodTake_of_nil hitems
      · dsimp only
        rw [hitems]
        exact .zero
      · exact absurd ((hk.open hactive).symm.trans ht) Bool.false_ne_true
    · rw [Bool.not_eq_true', Bool.not_eq_false] at hactive
      rw [take_goodTake hk hn hactive ha.2 hitems]
      exact ⟨fun h _ => h, fun h => h hactive⟩
  | resumePop t pick => exact resumePop_noLost hk hn ha.1 ha.2
  | timeOut t =>
    obtain ⟨w, hw, rfl, -⟩ := ha
    exact timeOut_noLost hk hn (List.mem_map_of_mem hw)
  | trypop t pick => exact trypop_noLost hk hn ha.2
  | trypeek t =>
    rw [step]
    split_ifs <;> exact iff_of_true hn trivial
  | flush t =>
    rw [step]
    split_ifs <;> exact iff_of_true ⟨hn.1, hn.2, hn.3⟩ trivial
  | flushTurn t pick =>
    refine Iff.trans ?_ (trypop_noLost hk hn ha.2.2)
    rw [step]
    dsimp only
    split_ifs
    · exact Iff.rfl
    · exact ⟨fun h => ⟨h.1, h.2, h.3⟩, fun h => ⟨h.1, h.2, h.3⟩⟩
  | setFlushFn t =>
    rw [step]
    split_ifs <;> exact iff_of_true hn trivial
  -- A broadcast leaves nobody asleep.
  | wake t =>
    refine iff_of_true ⟨Cond.covered_broadcast, Cond.covered_broadcast, fun _ => ?_⟩ trivial
    exact ⟨Cond.asleep_broadcast _, Cond.asleep_broadcast _⟩
  | term t =>
    rw [step]
    split_ifs with hactive
    · refine iff_of_true ⟨hn.poppers, hn.pushers, fun ht => hn.termed ht⟩ fun h => ?_
      exact absurd (hactive.symm.trans h) Bool.noConfusion
    · rw [Bool.not_eq_true] at hactive
      exact ⟨fun h _ => h.termed rfl, fun h => ⟨hn.poppers, hn.pushers, fun _ => h hactive⟩⟩
  | termWake t =>
    refine iff_of_true ⟨Cond.covered_broadcast, Cond.covered_broadcast, fun _ => ?_⟩ trivial
    exact ⟨Cond.asleep_broadcast _, Cond.asleep_broadcast _⟩

/-! ## Runs -/

/-- A step lets nobody wait for room in a queue without a bound, and leaves no queue
    active that is ended. -/
structure Opens (m m' : QModel) : Prop where
  bounded : m.maxlen = 0 → m.th.pushWaiters = [] → m'.th.pushWaiters = []
  closed : (m.th.Ended → m.active = false) → m'.th.Ended → m'.active = false

theorem Opens.refl : m.Opens m := ⟨fun _ h => h, fun h => h⟩

theorem signalPop_ended (th : QThreads) (k : ℕ) : (th.signalPop k pick).Ended ↔ th.Ended := by
  rw [QThreads.signalPop]
  split_ifs <;> rfl

theorem signalPush_ended (th : QThreads) (k : ℕ) : (th.signalPush k pick).Ended ↔ th.Ended := by
  rw [QThreads.signalPush]
  split_ifs <;> rfl

theorem signalPush_nil {th : QThreads} {k : ℕ} (h : th.pushWaiters = []) :
    (th.signalPush k pick).pushWaiters = [] := by
  rw [QThreads.signalPush]
  split_ifs
  · dsimp only
    rw [h]
    cases pick <;> rfl
  · exact h

theorem store_opens (m : QModel) (ptr : ℕ) (pick : Option ℕ) : m.Opens (m.store ptr pick).2 := by
  rw [store]
  split_ifs
  · exact ⟨fun _ h => (signalPop_pushWaiters ..).trans h, fun h he => h ((signalPop_ended ..).1 he)⟩
  · exact ⟨fun _ h => (signalPop_pushWaiters ..).trans h, fun h he => h ((signalPop_ended ..).1 he)⟩

theorem take_opens (m : QModel) (pick : Option ℕ) : m.Opens (m.take pick).2 := by
  rw [take]
  split_ifs
  · exact ⟨fun _ h => signalPush_nil h, fun h he => h ((signalPush_ended ..).1 he)⟩
  · exact ⟨fun _ h => signalPush_nil h, fun h he => h ((signalPush_ended ..).1 he)⟩

theorem trypop_opens (m : QModel) (pick : Option ℕ) : m.Opens (m.trypop pick).2 := by
  rw [trypop]
  split_ifs
  · exact .refl
  · exact .refl
  · exact take_opens m pick

theorem step_opens {a : Act} (ha : m.th.Enabled a) : m.Opens (m.step a).2 := by
  cases a with
  | push t ptr start pick =>
    rw [step]
    split_ifs with hactive hfull
    · exact .refl
    · exact ⟨fun h0 => absurd h0 hfull.1, fun h => h⟩
    · exact store_opens ..
  | trypush t ptr start pick =>
    rw [step]
    split_ifs
    · exact .refl
    · exact .refl
    · exact store_opens ..
  | resumePush t start pick =>
    rw [step]
    split
    · exact .refl
    · rename_i w hw
      have hleave (h : m.th.pushWaiters = []) : (m.th.leavePush t).pushWaiters = [] := by
        rw [QThreads.leavePush, h]
        rfl
      have hstore := store_opens { m with th := m.th.leavePush t } w.arg pick
      dsimp only
      by_cases hfull : Full { m with th := m.th.leavePush t }
      · rw [if_pos hfull]
        exact ⟨fun _ => hleave, fun h => h⟩
      · rw [if_neg hfull]
        exact ⟨fun h0 h => hstore.bounded h0 (hleave h), hstore.closed⟩
  | pop t timed pick =>
    rw [step]
    split_ifs
    · exact .refl
    · exact ⟨fun _ h => h, fun h => h⟩
    · exact take_opens ..
  | resumePop t pick =>
    have htake := take_opens { m with th := m.th.leavePop t } pick
    rw [step]
    dsimp only
    by_cases hitems : m.items = []
    · rw [if_pos hitems]
      exact ⟨fun _ h => h, fun h => h⟩
    · rw [if_neg hitems]
      exact ⟨htake.bounded, htake.closed⟩
  | timeOut t => exact ⟨fun _ h => h, fun h => h⟩
  | trypop t pick => exact trypop_opens ..
  | trypeek t =>
    rw [step]
    split_ifs <;> exact .refl
  | flush t =>
    rw [step]
    split_ifs <;> exact ⟨fun _ h => h, fun h => h⟩
  | flushTurn t pick =>
    have htrypop := trypop_opens m pick
    rw [step]
    dsimp only
    split_ifs
    · exact htrypop
    · exact ⟨htrypop.bounded, htrypop.closed⟩
  | setFlushFn t =>
    rw [step]
    split_ifs <;> exact ⟨fun _ h => h, fun h => h⟩
  | wake t => exact ⟨fun _ h => congrArg Cond.broadcast h, fun h => h⟩
  | term t =>
    rw [step]
    split_ifs with hactive
    · exact ⟨fun _ h => h, fun _ _ => rfl⟩
    · exact ⟨fun _ h => h, fun _ _ => Bool.eq_false_iff.2 hactive⟩
  | termWake t =>
    -- The first part of the call has ended the queue.
    exact ⟨fun _ h => congrArg Cond.broadcast h, fun h _ => h (.inr (List.ne_nil_of_mem ha))⟩

/-- A step keeps what is known of the threads. -/
theorem step_kept {a : Act} (hk : m.Kept) (ha : m.th.Enabled a)
    (hpush : (m.step a).2.th.pushWaiters.tids.Nodup)
    (hpop : (m.step a).2.th.popWaiters.tids.Nodup) : (m.step a).2.Kept := by
  obtain ⟨-, hmaxlen, hle⟩ := step_passes m a
  obtain ⟨hbounded, hclosed⟩ := step_opens ha
  refine ⟨?_, ?_, hclosed hk.closed, hpush, hpop⟩
  · rw [hmaxlen]
    exact hle hk.le
  · rw [hmaxlen]
    exact fun h0 => hbounded h0 (hk.bounded h0)

end QModel

namespace QSys

/-- Nobody sleeps while there is something to do that nobody has been woken for. -/
def NoLost (s : QSys) : Prop := s.th.NoLost s.q.len s.q.maxlen

instance : DecidablePred NoLost := fun _ => inferInstanceAs (Decidable (QThreads.NoLost ..))

def view (s : QSys) : QView where
  full := decide s.q.Full
  len := s.q.len
  maxlen := s.q.maxlen
  pushers := s.q.pushers
  poppers := s.q.poppers
  active := s.q.active

/-- The step loses no wakeup. -/
def Good (s : QSys) (a : Act) : Prop := s.th.Good s.view a

instance (s : QSys) : DecidablePred s.Good :=
  fun _ => inferInstanceAs (Decidable (QThreads.Good ..))

variable {s : QSys} {m : QModel} {a : Act}

/-- A wakeup is lost in the queue if and only if it is in the list. -/
theorem Refines.noLost (h : s.Refines m) : s.NoLost ↔ m.NoLost := by
  rw [NoLost, QModel.NoLost, h.th, h.len, h.maxlen]

/-- A step is good for the queue if and only if it is for the list. -/
theorem Refines.good (h : s.Refines m) : s.Good a ↔ m.Good a := by
  have hview : s.view = m.view := by
    rw [view, QModel.view, h.len, h.maxlen, h.pushers, h.poppers, h.active,
      decide_eq_decide.2 h.full]
  rw [Good, QModel.Good, h.th, hview]

/-- What holds of the states of a run that has lost no wakeup so far. -/
def Sound (s : QSys) : Prop := ∃ m, s.Refines m ∧ m.Kept ∧ m.NoLost

theorem create_sound (maxlen : ℕ) : (create maxlen).Sound := by
  refine ⟨{ maxlen }, create_refines maxlen, ?_, ?_⟩
  · exact ⟨fun _ => Nat.zero_le _, fun _ => rfl, fun h => by simp [QThreads.Ended] at h,
      List.nodup_nil, List.nodup_nil⟩
  · exact ⟨.zero, .of_asleep rfl, fun h => absurd h Bool.false_ne_true⟩

/-- What one step makes of a state that has lost no wakeup. -/
theorem Sound.step (h : s.Sound) (ha : s.Enabled a) :
    ∃ e s', s.step a = .ok (e, s') ∧ (s'.NoLost ↔ s.Good a) ∧ (s.Good a → s'.Sound) := by
  obtain ⟨m, hr, hk, hn⟩ := h
  obtain ⟨s', hrun, hr'⟩ := step_refines hr ha
  have hth : m.th.Enabled a := hr.th ▸ ha.1
  have hiff := QModel.step_noLost hk hn hth
  refine ⟨_, s', hrun, ?_, fun hg => ?_⟩
  · rw [hr'.noLost, hr.good, hiff]
  · exact ⟨_, hr', QModel.step_kept hk hth hr'.pushTids hr'.popTids, hiff.2 (hr.good.1 hg)⟩

/-- Whatever the threads do: no wakeup is lost in any state of a run if and only if
    every step of it is a good one. -/
theorem stays_noLost_iff {maxlen : ℕ} {as : List Act} (h : Along step Enabled (create maxlen) as) :
    Stays step NoLost (create maxlen) as ↔ Along step Good (create maxlen) as := by
  refine stays_iff_along (J := Sound) (P := Enabled) ?_ ?_ ?_ (create_sound maxlen) h
  · rintro s ⟨m, hr, -, hn⟩
    exact hr.noLost.2 hn
  · intro s a hs ha hg
    obtain ⟨e, s', hrun, -, hsound⟩ := hs.step ha
    exact ⟨e, s', hrun, hsound hg⟩
  · intro s a e s' hs ha hg hrun hn
    obtain ⟨e₁, s₁, hrun₁, hiff, -⟩ := hs.step ha
    rw [hrun] at hrun₁
    injection hrun₁ with heq
    injection heq with _ heq
    subst heq
    exact hg (hiff.1 hn)

theorem stays_noLost_iff_handed :
    Stays step NoLost (create 1) [.pop 1 true none, .push 2 7 100 (some 1), .push 3 8 200 none,
        .resumePop 1 (some 3), .resumePush 3 300 none] ↔
      Along step Good (create 1) [.pop 1 true none, .push 2 7 100 (some 1), .push 3 8 200 none,
        .resumePop 1 (some 3), .resumePush 3 300 none] :=
  stays_noLost_iff (by decide +kernel)

/-- A popper is signalled, but times out; the other one sleeps on, with a pointer in the
    queue. -/
theorem not_stays_noLost :
    ¬∀ maxlen as, Along step Enabled (create maxlen) as → Stays step NoLost (create maxlen) as := by
  intro h
  have hrun := h 0 [.pop 1 true none, .pop 2 false none, .push 3 7 100 (some 1), .timeOut 1]
    (by decide +kernel)
  revert hrun
  decide +kernel

end QSys

end Libks
