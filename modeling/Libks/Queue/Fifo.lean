import Libks.Queue.Nodes

/-!
# A queue as a list of pointers

What a queue is for: the pointers it holds, in the order in which they were
pushed, handed from the threads that push to those that pop (`QModel`). The
queue on its nodes takes the same steps (`step_refines`), so that whatever the
threads do, the pointers popped and those still queued are, together, the ones
pushed (`calls_in_order`).
-/

namespace Libks

open Base

/-- A queue as its users see it. -/
structure QModel where
  items : List ℕ := []
  maxlen : ℕ
  flushFn : Bool := false
  active : Bool := true
  th : QThreads := {}

namespace QModel

open QSys (Act)

/-- Whether a push has to wait. -/
def Full (m : QModel) : Prop := m.maxlen ≠ 0 ∧ m.items.length = m.maxlen

instance (m : QModel) : Decidable m.Full := inferInstanceAs (Decidable (_ ∧ _))

/-- A popper is signalled if the number of poppers, as a `uint32_t`, is not zero. -/
def signalPop (m : QModel) (pick : Option ℕ) : QModel :=
  { m with th := m.th.signalPop (toUInt32 m.th.popWaiters.length) pick }

/-- A pusher is signalled if the number of pushers, as a `uint32_t`, is not zero. -/
def signalPush (m : QModel) (pick : Option ℕ) : QModel :=
  { m with th := m.th.signalPush (toUInt32 m.th.pushWaiters.length) pick }

/-- The end of a push. -/
def store (m : QModel) (ptr : ℕ) (pick : Option ℕ) : QEvent × QModel :=
  if !m.active then (.pushed ptr .inactive, m.signalPop pick)
  else (.pushed ptr .success, { m with items := m.items ++ [ptr] }.signalPop pick)

/-- The end of a pop. -/
def take (m : QModel) (pick : Option ℕ) : QEvent × QModel :=
  if !m.active then (.popped .inactive none, m.signalPush pick)
  else (.popped .success m.items.head?, { m with items := m.items.tail }.signalPush pick)

variable {m : QModel} {ptr : ℕ} {pick : Option ℕ}

theorem store_inactive (h : m.active = false) :
    m.store ptr pick = (.pushed ptr .inactive, m.signalPop pick) := by
  rw [store, if_pos (by rw [h]; rfl)]

theorem store_active (h : m.active = true) :
    m.store ptr pick = (.pushed ptr .success, { m with items := m.items ++ [ptr] }.signalPop pick) := by
  rw [store, if_neg (by rw [h]; exact Bool.false_ne_true)]

theorem take_inactive (h : m.active = false) :
    m.take pick = (.popped .inactive none, m.signalPush pick) := by
  rw [take, if_pos (by rw [h]; rfl)]

theorem take_active (h : m.active = true) :
    m.take pick =
      (.popped .success m.items.head?, { m with items := m.items.tail }.signalPush pick) := by
  rw [take, if_neg (by rw [h]; exact Bool.false_ne_true)]

/-- A try to pop. -/
def trypop (m : QModel) (pick : Option ℕ) : QEvent × QModel :=
  if !m.active then (.popped .inactive none, m)
  else if m.items = [] then (.popped .break none, m)
  else m.take pick

/-- The step of a queue that is a list. -/
def step (m : QModel) : Act → QEvent × QModel
  | .push t ptr _ pick =>
    if !m.active then (.pushed ptr .inactive, m)
    else if m.Full then (.pending, { m with th := m.th.waitPush t ptr })
    else m.store ptr pick
  | .resumePush t _ pick =>
    match m.th.pushWaiters.waiter t with
    | none => (.pending, m)
    | some w =>
      let m := { m with th := m.th.leavePush t }
      if m.Full then (.pushed w.arg (if !m.active then .inactive else .break), m)
      else m.store w.arg pick
  | .trypush _ ptr _ pick =>
    if !m.active then (.pushed ptr .inactive, m)
    else if m.Full then (.pushed ptr .break, m)
    else m.store ptr pick
  | .pop t timed pick =>
    if !m.active then (.popped .inactive none, m)
    else if m.items = [] then (.pending, { m with th := m.th.waitPop t timed })
    else m.take pick
  | .resumePop t pick =>
    let m := { m with th := m.th.leavePop t }
    if m.items = [] then (.popped (if !m.active then .inactive else .break) none, m)
    else m.take pick
  | .timeOut t => (.popped .timeout none, { m with th := m.th.leavePop t })
  | .trypop _ pick => m.trypop pick
  | .trypeek _ =>
    if !m.active then (.peeked .inactive none, m)
    else if m.items = [] then (.peeked .break none, m)
    else (.peeked .success m.items.head?, m)
  | .flush t =>
    if !m.active then (.returned .inactive, m)
    else if !m.flushFn then (.returned .fail, m)
    else (.pending, { m with th := { m.th with flushes := t :: m.th.flushes } })
  | .flushTurn t pick =>
    let (e, m) := m.trypop pick
    if e.pops then (e, m)
    else (.returned .success, { m with th := { m.th with flushes := m.th.flushes.erase t } })
  | .setFlushFn _ =>
    if !m.active then (.returned .inactive, m) else (.returned .success, { m with flushFn := true })
  | .wake _ => (.returned .success, { m with th := m.th.wake })
  | .term t =>
    if m.active then
      (.pending, { m with active := false, th := { m.th with terms := t :: m.th.terms } })
    else (.returned .inactive, { m with th := { m.th with termed := true } })
  | .termWake t =>
    (.returned .success, { m with th := { m.th.wake with terms := m.th.terms.erase t, termed := true } })

end QModel

namespace QSys

/-- The queue on its nodes holds what the list holds, and its counters count those
    who wait. -/
structure Refines (s : QSys) (m : QModel) : Prop where
  linked : ∃ cells free, s.q.Linked cells free [] ∧ cells.map Prod.snd = m.items
  maxlen : s.q.maxlen = m.maxlen
  flushFn : s.q.flushFn = m.flushFn
  active : s.q.active = m.active
  th : s.th = m.th
  pushers : s.q.pushers = toUInt32 m.th.pushWaiters.length
  poppers : s.q.poppers = toUInt32 m.th.popWaiters.length
  pushTids : m.th.pushWaiters.tids.Nodup
  popTids : m.th.popWaiters.tids.Nodup

variable {s : QSys} {m : QModel} {pick : Option ℕ}

/-- `ks_q_create` makes an empty queue. -/
theorem create_refines (maxlen : ℕ) : (create maxlen).Refines { maxlen } :=
  ⟨⟨[], [], KsQ.create_linked maxlen, rfl⟩, rfl, rfl, rfl, rfl, toUInt32_zero.symm,
    toUInt32_zero.symm, List.nodup_nil, List.nodup_nil⟩

/-- `len` counts the pointers. -/
theorem Refines.len (h : s.Refines m) : s.q.len = m.items.length := by
  obtain ⟨cells, free, hl, hitems⟩ := h.linked
  rw [hl.len, ← hitems, List.length_map]

/-- The queue is full where the list is. -/
theorem Refines.full (h : s.Refines m) : s.q.Full ↔ m.Full := by
  rw [KsQ.Full, QModel.Full, h.maxlen, h.len]

/-- The threads may change as long as those who wait are the same. -/
theorem Refines.threads {th : QThreads} (h : s.Refines m)
    (hpush : th.pushWaiters.tids = m.th.pushWaiters.tids)
    (hpop : th.popWaiters.tids = m.th.popWaiters.tids) :
    Refines { s with th } { m with th } := by
  refine ⟨h.linked, h.maxlen, h.flushFn, h.active, rfl, ?_, ?_, ?_, ?_⟩
  · dsimp only
    rw [h.pushers, ← Cond.length_tids, ← Cond.length_tids, hpush]
  · dsimp only
    rw [h.poppers, ← Cond.length_tids, ← Cond.length_tids, hpop]
  · dsimp only
    rw [hpush]
    exact h.pushTids
  · dsimp only
    rw [hpop]
    exact h.popTids

/-- The counters of the threads that wait are kept modulo `2 ^ 32`. -/
theorem Refines.pushers_wait (h : s.Refines m) (t ptr : ℕ) :
    incr32 s.q.pushers = toUInt32 (m.th.waitPush t ptr).pushWaiters.length := by
  rw [h.pushers, incr32_toUInt32]
  exact congrArg toUInt32 (Cond.length_wait ..).symm

theorem Refines.poppers_wait (h : s.Refines m) (t : ℕ) (timed : Bool) :
    incr32 s.q.poppers = toUInt32 (m.th.waitPop t timed).popWaiters.length := by
  rw [h.poppers, incr32_toUInt32]
  exact congrArg toUInt32 (Cond.length_wait ..).symm

theorem Refines.pushers_leave {t : ℕ} (h : s.Refines m) (ht : t ∈ m.th.pushWaiters.tids) :
    decr32 s.q.pushers = toUInt32 (m.th.leavePush t).pushWaiters.length := by
  have hcount := decr32_toUInt32 (m.th.pushWaiters.leave t).length
  rwa [Cond.length_leave h.pushTids ht, ← h.pushers] at hcount

theorem Refines.poppers_leave {t : ℕ} (h : s.Refines m) (ht : t ∈ m.th.popWaiters.tids) :
    decr32 s.q.poppers = toUInt32 (m.th.leavePop t).popWaiters.length := by
  have hcount := decr32_toUInt32 (m.th.popWaiters.leave t).length
  rwa [Cond.length_leave h.popTids ht, ← h.poppers] at hcount

/-- The counters do not matter to the nodes. -/
theorem Refines.linked_counters (h : s.Refines m) (pushers poppers : ℕ) :
    ∃ cells free, KsQ.Linked { s.q with pushers, poppers } cells free [] ∧
      cells.map Prod.snd = m.items := by
  obtain ⟨cells, free, hl, hitems⟩ := h.linked
  exact ⟨cells, free, ⟨hl.1, hl.2, hl.3, hl.4, hl.5, hl.6, hl.7, hl.8, hl.9⟩, hitems⟩

/-- A pusher goes to sleep. -/
theorem Refines.waitPush {t : ℕ} (h : s.Refines m) (ht : t ∉ m.th.pushWaiters.tids) (ptr : ℕ) :
    Refines { q := { s.q with pushers := incr32 s.q.pushers }, th := s.th.waitPush t ptr }
      { m with th := m.th.waitPush t ptr } := by
  refine ⟨h.linked_counters _ _, h.maxlen, h.flushFn, h.active, by rw [h.th], h.pushers_wait t ptr, ?_,
    List.nodup_cons.2 ⟨ht, h.pushTids⟩, h.popTids⟩
  dsimp only
  rw [QThreads.waitPush_popWaiters, h.poppers]

/-- A thread is awake again. -/
theorem Refines.awakePush {t : ℕ} (h : s.Refines m) (ht : t ∈ m.th.pushWaiters.tids) :
    (s.awakePush t).Refines { m with th := m.th.leavePush t } := by
  refine ⟨h.linked_counters _ _, h.maxlen, h.flushFn, h.active, by rw [QSys.awakePush, h.th],
    h.pushers_leave ht, ?_, h.pushTids.sublist (Cond.tids_leave_sublist ..), h.popTids⟩
  dsimp only [QSys.awakePush]
  rw [QThreads.leavePush_popWaiters, h.poppers]

/-- A popper goes to sleep. -/
theorem Refines.waitPop {t : ℕ} (h : s.Refines m) (ht : t ∉ m.th.popWaiters.tids) (timed : Bool) :
    Refines { q := { s.q with poppers := incr32 s.q.poppers }, th := s.th.waitPop t timed }
      { m with th := m.th.waitPop t timed } := by
  refine ⟨h.linked_counters _ _, h.maxlen, h.flushFn, h.active, by rw [h.th], ?_,
    h.poppers_wait t timed, h.pushTids, List.nodup_cons.2 ⟨ht, h.popTids⟩⟩
  dsimp only
  rw [QThreads.waitPop_pushWaiters, h.pushers]

/-- A thread is awake again. -/
theorem Refines.awakePop {t : ℕ} (h : s.Refines m) (ht : t ∈ m.th.popWaiters.tids) :
    (s.awakePop t).Refines { m with th := m.th.leavePop t } := by
  refine ⟨h.linked_counters _ _, h.maxlen, h.flushFn, h.active, by rw [QSys.awakePop, h.th], ?_,
    h.poppers_leave ht, h.pushTids, h.popTids.sublist (Cond.tids_leave_sublist ..)⟩
  dsimp only [QSys.awakePop]
  rw [QThreads.leavePop_pushWaiters, h.pushers]

/-- A signal wakes one of the poppers, and adds or removes none. -/
theorem signalPop_tids {th : QThreads} {n : ℕ} (hnd : th.popWaiters.tids.Nodup)
    (hpick : th.popWaiters.Picks pick) :
    (th.signalPop n pick).pushWaiters = th.pushWaiters ∧
      (th.signalPop n pick).popWaiters.tids = th.popWaiters.tids := by
  rw [QThreads.signalPop]
  split_ifs
  · exact ⟨rfl, (Cond.signal_spec hnd hpick).2.2⟩
  · exact ⟨rfl, rfl⟩

/-- A signal wakes one of the pushers, and adds or removes none. -/
theorem signalPush_tids {th : QThreads} {n : ℕ} (hnd : th.pushWaiters.tids.Nodup)
    (hpick : th.pushWaiters.Picks pick) :
    (th.signalPush n pick).pushWaiters.tids = th.pushWaiters.tids ∧
      (th.signalPush n pick).popWaiters = th.popWaiters := by
  rw [QThreads.signalPush]
  split_ifs
  · exact ⟨(Cond.signal_spec hnd hpick).2.2, rfl⟩
  · exact ⟨rfl, rfl⟩

/-- The end of a push. -/
theorem store_refines {ptr start : ℕ} (h : s.Refines m) (hpick : m.th.popWaiters.Picks pick)
    (hstart : start ∉ s.q.heap ∧ 0 < start ∧ start < 2 ^ 64) :
    ∃ s', s.store ptr start pick = .ok ((m.store ptr pick).1, s') ∧
      s'.Refines (m.store ptr pick).2 := by
  obtain ⟨htids₁, htids₂⟩ := signalPop_tids (n := toUInt32 m.th.popWaiters.length) h.popTids hpick
  have hactive := h.active
  rw [QSys.store]
  cases hm : m.active with
  | false =>
    rw [hm] at hactive
    rw [QModel.store_inactive hm, KsQ.doPush, if_pos (by rw [hactive]; rfl), ok_bind]
    refine ⟨_, rfl, ?_⟩
    rw [h.poppers, h.th]
    exact h.threads (by rw [htids₁]) htids₂
  | true =>
    rw [hm] at hactive
    obtain ⟨cells, free, hl, hitems⟩ := h.linked
    obtain ⟨p, q', free', hrun, hl', hk⟩ :=
      KsQ.doPush_spec hl hactive hstart.1 hstart.2.1 hstart.2.2 ptr
    rw [QModel.store_active hm, hrun, ok_bind]
    refine ⟨_, rfl, ?_⟩
    rw [hk.poppers, h.poppers, h.th]
    have hstored : Refines { q := q', th := m.th } { m with items := m.items ++ [ptr] } :=
      ⟨⟨_, free', hl', by rw [List.map_append, hitems]; rfl⟩, hk.maxlen.trans h.maxlen,
        hk.flushFn.trans h.flushFn, hk.active.trans h.active, rfl, hk.pushers.trans h.pushers,
        hk.poppers.trans h.poppers, h.pushTids, h.popTids⟩
    exact hstored.threads (by rw [htids₁]) htids₂

/-- The end of a pop, where there is something to take. -/
theorem take_refines (h : s.Refines m) (hpick : m.th.pushWaiters.Picks pick) (hne : m.items ≠ []) :
    ∃ s', s.take pick = .ok ((m.take pick).1, s') ∧ s'.Refines (m.take pick).2 := by
  obtain ⟨htids₁, htids₂⟩ := signalPush_tids (n := toUInt32 m.th.pushWaiters.length) h.pushTids hpick
  have hactive := h.active
  rw [QSys.take]
  cases hm : m.active with
  | false =>
    rw [hm] at hactive
    rw [QModel.take_inactive hm, KsQ.doPop, if_pos (by rw [hactive]; rfl), ok_bind]
    refine ⟨_, rfl, ?_⟩
    rw [h.pushers, h.th]
    exact h.threads htids₁ (by rw [htids₂])
  | true =>
    rw [hm] at hactive
    obtain ⟨cells, free, hl, hitems⟩ := h.linked
    obtain ⟨⟨p, x⟩, cells, rfl⟩ := List.exists_cons_of_ne_nil (l := cells) (by
      rintro rfl
      exact hne hitems.symm)
    obtain ⟨q', hrun, hl', hk⟩ := KsQ.doPop_spec hl hactive
    rw [QModel.take_active hm, ← hitems, hrun, ok_bind]
    refine ⟨_, rfl, ?_⟩
    rw [hk.pushers, h.pushers, h.th]
    have htaken : Refines { q := q', th := m.th } { m with items := cells.map Prod.snd } :=
      ⟨⟨cells, _, hl', rfl⟩, hk.maxlen.trans h.maxlen, hk.flushFn.trans h.flushFn,
        hk.active.trans h.active, rfl, hk.pushers.trans h.pushers, hk.poppers.trans h.poppers,
        h.pushTids, h.popTids⟩
    exact htaken.threads htids₁ (by rw [htids₂])

theorem Refines.len_eq_zero (h : s.Refines m) : s.q.len = 0 ↔ m.items = [] := by
  rw [h.len, List.length_eq_zero_iff]

/-- `ks_q_trypop`. -/
theorem trypop_refines (h : s.Refines m) (hpick : m.th.pushWaiters.Picks pick) :
    ∃ s', s.trypop pick = .ok ((m.trypop pick).1, s') ∧ s'.Refines (m.trypop pick).2 := by
  rw [QSys.trypop, QModel.trypop, h.active, if_congr h.len_eq_zero rfl rfl]
  split_ifs with hactive hitems
  · exact ⟨s, rfl, h⟩
  · exact ⟨s, rfl, h⟩
  · exact take_refines h hpick hitems

/-- One step. -/
theorem step_refines {a : Act} (h : s.Refines m) (ha : s.Enabled a) :
    ∃ s', s.step a = .ok ((m.step a).1, s') ∧ s'.Refines (m.step a).2 := by
  obtain ⟨hth, hgrants⟩ := ha
  rw [h.th] at hth
  -- The list takes the branch that the queue on its nodes takes.
  cases a with
  | push t ptr start pick =>
    obtain ⟨hready, hpick⟩ := hth
    rw [step, QModel.step, push, h.active, if_congr h.full rfl rfl]
    split_ifs
    · exact ⟨s, rfl, h⟩
    · exact ⟨_, rfl, h.waitPush hready.1 ptr⟩
    · exact store_refines h hpick hgrants
  | resumePush t start pick =>
    obtain ⟨ht, hpick⟩ := hth
    -- The waiter is taken off first, and finds the queue as the others have left it.
    obtain ⟨xs, w, ys, -, -, hw⟩ := Cond.exists_waiter h.pushTids ht
    have hleft := h.awakePush ht
    have hw' : s.th.pushWaiters.waiter t = some w := by rw [h.th, hw]
    rw [step, QModel.step, resumePush, hw, hw']
    dsimp only
    rw [if_congr hleft.full rfl rfl, hleft.active]
    by_cases hfull : QModel.Full { m with th := m.th.leavePush t }
    · rw [if_pos hfull, if_pos hfull]
      exact ⟨_, rfl, hleft⟩
    · rw [if_neg hfull, if_neg hfull]
      exact store_refines hleft hpick hgrants
  | trypush t ptr start pick =>
    obtain ⟨-, hpick⟩ := hth
    rw [step, QModel.step, trypush, h.active, if_congr h.full rfl rfl]
    split_ifs
    · exact ⟨s, rfl, h⟩
    · exact ⟨s, rfl, h⟩
    · exact store_refines h hpick hgrants
  | pop t timed pick =>
    obtain ⟨hready, hpick⟩ := hth
    rw [step, QModel.step, pop, h.active, if_congr h.len_eq_zero rfl rfl]
    split_ifs with hactive hitems
    · exact ⟨s, rfl, h⟩
    · exact ⟨_, rfl, h.waitPop hready.2.1 timed⟩
    · exact take_refines h hpick hitems
  | resumePop t pick =>
    obtain ⟨ht, hpick⟩ := hth
    have hawake := h.awakePop ht
    rw [step, QModel.step, resumePop]
    dsimp only
    rw [if_congr hawake.len_eq_zero rfl rfl, hawake.active]
    by_cases hitems : m.items = []
    · rw [if_pos hitems, if_pos hitems]
      exact ⟨_, rfl, hawake⟩
    · rw [if_neg hitems, if_neg hitems]
      exact take_refines hawake hpick hitems
  | timeOut t =>
    -- A thread that times out looks for a pointer once more.
    obtain ⟨w, hw, rfl, -⟩ := hth
    exact ⟨_, rfl, h.awakePop (List.mem_map_of_mem hw)⟩
  | trypop t pick => exact trypop_refines h hth.2
  | trypeek t =>
    rw [step, QModel.step, trypeek, h.active, if_congr h.len_eq_zero rfl rfl]
    split_ifs with hactive hitems
    · exact ⟨s, rfl, h⟩
    · exact ⟨s, rfl, h⟩
    · obtain ⟨cells, free, hl, hcells⟩ := h.linked
      obtain ⟨⟨p, x⟩, cells, rfl⟩ := List.exists_cons_of_ne_nil (l := cells) (by
        rintro rfl
        exact hitems hcells.symm)
      refine ⟨s, ?_, h⟩
      rw [KsQ.doPeek_spec hl (by simpa [h.active] using hactive), ← hcells]
      rfl
  | flush t =>
    rw [step, QModel.step, flush, h.active, h.flushFn, h.th]
    split_ifs
    · exact ⟨s, rfl, h⟩
    · exact ⟨s, rfl, h⟩
    · exact ⟨_, rfl, h.threads rfl rfl⟩
  | flushTurn t pick =>
    -- One turn of the loop is a try to pop, and the callback.
    obtain ⟨s', hrun, hs'⟩ := trypop_refines h hth.2.2
    rw [step, QModel.step, flushTurn, hrun, ok_bind]
    dsimp only
    split_ifs
    · exact ⟨s', rfl, hs'⟩
    · exact ⟨_, rfl, by rw [hs'.th]; exact hs'.threads rfl rfl⟩
  | setFlushFn t =>
    rw [step, QModel.step, setFlushFn, h.active]
    split_ifs
    · exact ⟨s, rfl, h⟩
    · obtain ⟨cells, free, hl, hitems⟩ := h.linked
      exact ⟨_, rfl, ⟨cells, free, ⟨hl.1, hl.2, hl.3, hl.4, hl.5, hl.6, hl.7, hl.8, hl.9⟩, hitems⟩,
        h.maxlen, rfl, h.active, h.th, h.pushers, h.poppers, h.pushTids, h.popTids⟩
  | wake t =>
    refine ⟨{ s with th := s.th.wake }, rfl, ?_⟩
    rw [h.th]
    exact h.threads (Cond.tids_broadcast _) (Cond.tids_broadcast _)
  | term t =>
    rw [step, QModel.step, term, h.active, h.th]
    split_ifs
    · obtain ⟨cells, free, hl, hitems⟩ := h.linked
      exact ⟨_, rfl, ⟨cells, free, ⟨hl.1, hl.2, hl.3, hl.4, hl.5, hl.6, hl.7, hl.8, hl.9⟩, hitems⟩,
        h.maxlen, h.flushFn, rfl, rfl, h.pushers, h.poppers, h.pushTids, h.popTids⟩
    · exact ⟨_, rfl, h.threads rfl rfl⟩
  | termWake t =>
    refine ⟨{ s with th := { s.th.wake with terms := s.th.terms.erase t, termed := true } }, rfl, ?_⟩
    rw [h.th]
    exact h.threads (Cond.tids_broadcast _) (Cond.tids_broadcast _)

end QSys

/-! ## First in, first out -/

/-- The pointer that a call has pushed. -/
def QEvent.given : QEvent → List ℕ
  | .pushed ptr .success => [ptr]
  | _ => []

/-- The pointer that a call has popped. -/
def QEvent.taken : QEvent → List ℕ
  | .popped .success (some ptr) => [ptr]
  | _ => []

namespace QModel

open QSys (Act)

variable {m : QModel} {ptr : ℕ} {pick : Option ℕ}

/-- A step takes from the front what it pops, puts behind the end what it pushes, and
    keeps to the length that is allowed. -/
structure Passes (m : QModel) (r : QEvent × QModel) : Prop where
  order : r.1.taken ++ r.2.items = m.items ++ r.1.given
  maxlen : r.2.maxlen = m.maxlen
  le : (m.maxlen ≠ 0 → m.items.length ≤ m.maxlen) → m.maxlen ≠ 0 → r.2.items.length ≤ m.maxlen

/-- A step that neither pushes nor pops. -/
theorem Passes.of_items {r : QEvent × QModel} (ht : r.1.taken = []) (hg : r.1.given = [])
    (hi : r.2.items = m.items) (hm : r.2.maxlen = m.maxlen) : m.Passes r := by
  refine ⟨?_, hm, fun h => ?_⟩
  · rw [ht, hg, hi, List.nil_append, List.append_nil]
  · rwa [hi]

/-- The end of a push: the pointer given is the one queued. -/
theorem store_passes (hfull : ¬m.Full) (ptr : ℕ) (pick : Option ℕ) :
    m.Passes (m.store ptr pick) := by
  cases hm : m.active with
  | false =>
    rw [store_inactive hm]
    exact .of_items rfl rfl rfl rfl
  | true =>
    rw [store_active hm]
    refine ⟨rfl, rfl, fun h h0 => ?_⟩
    have hlt : m.items.length ≠ m.maxlen := fun heq => hfull ⟨h0, heq⟩
    have hle := h h0
    dsimp only [signalPop]
    rw [List.length_append, List.length_singleton]
    omega

/-- The end of a pop: the pointer taken is the one unqueued. -/
theorem take_passes (hitems : m.items ≠ []) (pick : Option ℕ) : m.Passes (m.take pick) := by
  cases hm : m.active with
  | false =>
    rw [take_inactive hm]
    exact .of_items rfl rfl rfl rfl
  | true =>
    rw [take_active hm]
    obtain ⟨x, items, hx⟩ := List.exists_cons_of_ne_nil hitems
    refine ⟨?_, rfl, fun h h0 => ?_⟩
    · dsimp only [signalPush]
      rw [hx]
      exact (List.append_nil _).symm
    · have hle := h h0
      rw [hx] at hle
      dsimp only [signalPush]
      rw [hx]
      exact (Nat.le_succ _).trans hle

/-- A try to pop takes one or none. -/
theorem trypop_passes (m : QModel) (pick : Option ℕ) : m.Passes (m.trypop pick) := by
  rw [trypop]
  split_ifs with hactive hitems
  · exact .of_items rfl rfl rfl rfl
  · exact .of_items rfl rfl rfl rfl
  · exact take_passes hitems pick

/-- A pop that does not succeed takes nothing. -/
theorem QEvent.taken_of_not_pops {e : QEvent} (h : ¬e.pops = true) : e.taken = [] := by
  cases e with
  | popped r ptr =>
    cases r with
    | success => exact absurd rfl h
    | _ => rfl
  | _ => rfl

/-- A try to pop gives nothing. -/
theorem trypop_given (m : QModel) (pick : Option ℕ) : (m.trypop pick).1.given = [] := by
  rw [trypop, take]
  split_ifs <;> rfl

/-- One step. -/
theorem step_passes (m : QModel) (a : Act) : m.Passes (m.step a) := by
  -- A step either leaves the pointers alone (`of_items`), or ends in a push or a pop.
  cases a with
  | push t ptr start pick =>
    rw [step]
    split_ifs with hactive hfull
    · exact .of_items rfl rfl rfl rfl
    · exact .of_items rfl rfl rfl rfl
    · exact store_passes hfull ptr pick
  | resumePush t start pick =>
    rw [step]
    split
    · exact .of_items rfl rfl rfl rfl
    · dsimp only
      rename_i w hw
      by_cases hfull : Full { m with th := m.th.leavePush t }
      · rw [if_pos hfull]
        split_ifs
        · exact .of_items rfl rfl rfl rfl
        · exact .of_items rfl rfl rfl rfl
      · rw [if_neg hfull]
        obtain ⟨horder, hmaxlen, hle⟩ := store_passes hfull w.arg pick
        exact ⟨horder, hmaxlen, hle⟩
  | trypush t ptr start pick =>
    rw [step]
    split_ifs with hactive hfull
    · exact .of_items rfl rfl rfl rfl
    · exact .of_items rfl rfl rfl rfl
    · exact store_passes hfull ptr pick
  | pop t timed pick =>
    rw [step]
    split_ifs with hactive hitems
    · exact .of_items rfl rfl rfl rfl
    · exact .of_items rfl rfl rfl rfl
    · exact take_passes hitems pick
  | resumePop t pick =>
    rw [step]
    dsimp only
    by_cases hitems : m.items = []
    · rw [if_pos hitems]
      split_ifs
      · exact .of_items rfl rfl rfl rfl
      · exact .of_items rfl rfl rfl rfl
    · rw [if_neg hitems]
      obtain ⟨horder, hmaxlen, hle⟩ :=
        take_passes (m := { m with th := m.th.leavePop t }) hitems pick
      exact ⟨horder, hmaxlen, hle⟩
  | timeOut t => exact .of_items rfl rfl rfl rfl
  | trypop t pick => exact trypop_passes m pick
  | trypeek t =>
    rw [step]
    split_ifs <;> exact .of_items rfl rfl rfl rfl
  | flush t =>
    rw [step]
    split_ifs <;> exact .of_items rfl rfl rfl rfl
  | flushTurn t pick =>
    have hpass := trypop_passes m pick
    have hgiven := trypop_given m pick
    rw [step]
    dsimp only
    split_ifs with hpops
    · exact hpass
    · have htaken := QEvent.taken_of_not_pops hpops
      refine ⟨?_, hpass.maxlen, hpass.le⟩
      have horder := hpass.order
      rw [htaken, hgiven] at horder
      exact horder
  | setFlushFn t =>
    rw [step]
    split_ifs <;> exact .of_items rfl rfl rfl rfl
  | wake t => exact .of_items rfl rfl rfl rfl
  | term t =>
    rw [step]
    split_ifs <;> exact .of_items rfl rfl rfl rfl
  | termWake t => exact .of_items rfl rfl rfl rfl

/-- Any number of steps. -/
theorem answers_passes (m : QModel) (as : List Act) :
    ((answers step m as).1.flatMap QEvent.taken) ++ (answers step m as).2.items =
        m.items ++ (answers step m as).1.flatMap QEvent.given ∧
      ((m.maxlen ≠ 0 → m.items.length ≤ m.maxlen) →
        m.maxlen ≠ 0 → (answers step m as).2.items.length ≤ m.maxlen) := by
  induction as generalizing m with
  | nil =>
    refine ⟨?_, fun h => h⟩
    rw [answers, List.flatMap_nil, List.flatMap_nil, List.nil_append, List.append_nil]
  | cons a as ih =>
    obtain ⟨horder, hmaxlen, hle⟩ := step_passes m a
    obtain ⟨ih, ihle⟩ := ih (m.step a).2
    rw [hmaxlen] at ihle
    refine ⟨?_, fun h => ihle (hle h)⟩
    rw [answers]
    dsimp only
    rw [List.flatMap_cons, List.flatMap_cons, List.append_assoc, ih, ← List.append_assoc, horder,
      List.append_assoc]

end QModel

namespace QSys

/-- Whatever the threads do: the pointers popped and those still queued are, together,
    the pointers pushed, in their order; and every node stands on one of the two
    lists of the queue, whose length is that of the live one. -/
theorem calls_in_order {maxlen : ℕ} {as : List Act} (h : Along step Enabled (create maxlen) as) :
    ∃ es s cells free, calls step (create maxlen) as = .ok (es, s) ∧ s.q.Lists cells free ∧
      es.flatMap QEvent.taken ++ cells.map Prod.snd = es.flatMap QEvent.given ∧
      s.q.len = cells.length ∧ (maxlen ≠ 0 → s.q.len ≤ maxlen) := by
  have hstep (s : QSys) (m : QModel) (a : Act) (hr : s.Refines m) (ha : s.Enabled a) :
      ∃ s', s.step a = .ok ((m.step a).1, s') ∧ s'.Refines (m.step a).2 :=
    step_refines hr ha
  obtain ⟨s, hrun, hr⟩ := calls_refines hstep (create_refines maxlen) h
  obtain ⟨horder, hle⟩ := QModel.answers_passes { maxlen } as
  obtain ⟨cells, free, hl, hitems⟩ := hr.linked
  refine ⟨_, s, cells, free, hrun, hl.lists, ?_, hl.len, fun h0 => ?_⟩
  · rw [hitems, horder]
    rfl
  · rw [hr.len]
    exact hle (fun _ => Nat.zero_le _) h0

theorem calls_in_order_recycled :
    ∃ es s cells free, calls step (create 1) [.push 1 7 100 none, .push 2 8 200 none,
        .trypop 3 (some 2), .resumePush 2 300 none, .trypeek 1] = .ok (es, s) ∧
      s.q.Lists cells free ∧
      es.flatMap QEvent.taken ++ cells.map Prod.snd = es.flatMap QEvent.given ∧
      s.q.len = cells.length ∧ (1 ≠ 0 → s.q.len ≤ 1) :=
  calls_in_order (by decide +kernel)

end QSys

end Libks
