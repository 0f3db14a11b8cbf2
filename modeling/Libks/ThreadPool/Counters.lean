import Libks.ThreadPool.State

/-!
# The counters of a thread pool

The four counters of a pool count the threads that have come to certain points:
those that have been reserved, and not yet created or given up; those that are about to
start; the workers between their first and their last section, those of them in a
job, and those that are to die. From this it follows that the counters are in order,
and that none of their differences wraps (`always_inOrder`).

There is one exception: `thread_count` may wrap when `check_queue` counts one more
thread. This needs a `thread_count` of `2 ^ 32 - 1`, which it takes as many threads to
come to, or `min`: a difference of `2 ^ 31` or more makes `need`, an `int`, negative, so
that the threads are counted, but not created.
-/

namespace Libks

open Base

/-- The worker among the callers of `check_queue`. -/
def Caller.worker : Caller → ℕ
  | .addJob | .create => 0
  | .popped | .idled _ => 1

namespace Point

/-- A worker between its first and its last section. -/
def running : Point → ℕ
  | .check k | .cleanup k | .reap k | .join k _ | .unhash k _ => k.worker
  | .spawn k _ | .launch k _ | .cancel k _ | .uncount k _ | .hash k _ _ => k.worker
  | .loop _ | .pop _ | .wait _ | .idle _ | .engage | .work | .leave _ => 1
  | _ => 0

/-- A worker in a job. -/
def busy : Point → ℕ
  | .work => 1
  | _ => 0

/-- A worker that is to die. -/
def dying : Point → ℕ
  | .leave true => 1
  | _ => 0

/-- Where a worker takes `mutex` to find out whether it is to die. -/
def idling : Point → Bool
  | .idle _ => true
  | _ => false

/-- A worker that is about to start. -/
def starting : Point → ℕ
  | .start => 1
  | _ => 0

/-- The threads that a loop of `check_queue` has still to create. -/
def reserved : Point → ℕ
  | .spawn _ n | .cancel _ n | .hash _ n _ => n
  | .launch _ n | .uncount _ n => n + 1
  | _ => 0

/-- The threads that `thread_count` counts. -/
def counted (pc : Point) : ℕ := pc.running + (pc.starting + pc.reserved)

theorem busy_add_dying_le (pc : Point) : pc.busy + pc.dying ≤ pc.running := by
  cases pc with
  | leave die => cases die <;> decide
  | _ => simp [busy, dying, running]

theorem running_le (pc : Point) : pc.running ≤ pc.counted := Nat.le_add_right ..

/-- No difference of counters that a step from this point takes wraps below zero. -/
def NoWrap (tp : ThreadPool) : Point → Prop
  | .reap _ =>
    tp.dyingThreadCount ≤ tp.runningThreadCount ∧ tp.dyingThreadCount ≤ tp.threadCount
  | .cancel _ need => need ≤ tp.threadCount
  | .uncount _ _ => 0 < tp.threadCount
  | .idle _ =>
    tp.dyingThreadCount ≤ tp.runningThreadCount ∧
      tp.busyThreadCount ≤ tp.runningThreadCount - tp.dyingThreadCount
  | .work => 0 < tp.busyThreadCount
  | .leave die =>
    0 < tp.runningThreadCount ∧ 0 < tp.threadCount ∧ (die → 0 < tp.dyingThreadCount)
  | _ => True

end Point

namespace TPSys

/-- The counters count threads; `n` threads have been counted and will never be created. -/
structure Counts (s : TPSys) (n : ℕ) : Prop where
  min : s.tp.min < 2 ^ 32
  tids : s.threads.tids.Nodup
  busy : s.tp.busyThreadCount = s.threads.total Point.busy
  running : s.tp.runningThreadCount = s.threads.total Point.running
  dying : s.tp.dyingThreadCount = s.threads.total Point.dying
  count : s.tp.threadCount = n + s.threads.total Point.counted
  lt : s.tp.threadCount < 2 ^ 32
  bound : s.tp.threadCount ≤ Max.max s.tp.min s.tp.max + s.tp.dyingThreadCount

/-- The counters are in order. -/
structure Counted (s : TPSys) : Prop where
  busy : s.tp.busyThreadCount + s.tp.dyingThreadCount ≤ s.tp.runningThreadCount
  running : s.tp.runningThreadCount ≤ s.tp.threadCount
  bound : s.tp.threadCount - s.tp.dyingThreadCount ≤ Max.max s.tp.min s.tp.max

/-- The counters are in order, and stay so whatever thread takes a step. -/
structure InOrder (s : TPSys) : Prop where
  counted : s.Counted
  noWrap : ∀ th ∈ s.threads, th.pc.NoWrap s.tp

variable {s s' : TPSys} {n n' t : ℕ} {pc pc' : Point}

theorem Counts.counted (h : s.Counts n) : s.Counted := by
  have hbusy := Threads.total_mono Point.busy_add_dying_le s.threads
  have hrunning := Threads.total_mono Point.running_le s.threads
  rw [Threads.total_add, ← h.busy, ← h.dying, ← h.running] at hbusy
  rw [← h.running] at hrunning
  have hcount := h.count
  have hbound := h.bound
  exact ⟨hbusy, by omega, by omega⟩

/-- Where the counters count threads, a thread finds its own in them. -/
theorem Counts.inOrder (h : s.Counts n) : s.InOrder := by
  refine ⟨h.counted, fun th hth => ?_⟩
  have hcounted := h.counted
  have hbusyle := hcounted.busy
  have hrunningle := hcounted.running
  have hcount := h.count
  have hb := Threads.le_total hth Point.busy
  have hr := Threads.le_total hth Point.running
  have hd := Threads.le_total hth Point.dying
  have hc := Threads.le_total hth Point.counted
  rw [← h.busy] at hb
  rw [← h.running] at hr
  rw [← h.dying] at hd
  cases hpc : th.pc with
  | reap k => exact ⟨by omega, by omega⟩
  | cancel k need =>
    rw [hpc] at hc
    simp only [Point.counted, Point.running, Point.starting, Point.reserved] at hc
    exact (show need ≤ s.tp.threadCount by omega)
  | uncount k need =>
    rw [hpc] at hc
    simp only [Point.counted, Point.running, Point.starting, Point.reserved] at hc
    exact (show 0 < s.tp.threadCount by omega)
  | idle idleSec => exact ⟨by omega, by omega⟩
  | work =>
    rw [hpc] at hb
    exact hb
  | leave die =>
    rw [hpc] at hr hd
    refine ⟨hr, Nat.lt_of_lt_of_le hr hrunningle, ?_⟩
    rintro rfl
    exact hd
  | _ => trivial

/-- A step of a thread, and what it does to the counters. -/
theorem Counts.step (h : s.Counts n) (hpc : s.threads.pcOf t = some pc)
    (hth : s'.threads = s.threads.goto t pc') (hmin : s'.tp.min = s.tp.min)
    (hbusy : s'.tp.busyThreadCount + pc.busy = s.tp.busyThreadCount + pc'.busy)
    (hrunning : s'.tp.runningThreadCount + pc.running = s.tp.runningThreadCount + pc'.running)
    (hdying : s'.tp.dyingThreadCount + pc.dying = s.tp.dyingThreadCount + pc'.dying)
    (hcount : s'.tp.threadCount + pc.counted + n = s.tp.threadCount + pc'.counted + n')
    (hlt : s'.tp.threadCount < 2 ^ 32)
    (hbound : s'.tp.threadCount ≤ Max.max s'.tp.min s'.tp.max + s'.tp.dyingThreadCount) :
    s'.Counts n' := by
  have htotal (f : Point → ℕ) := Threads.total_goto h.tids hpc f pc'
  have hb := htotal Point.busy
  have hr := htotal Point.running
  have hd := htotal Point.dying
  have hc := htotal Point.counted
  rw [← hth] at hb hr hd hc
  rw [← h.busy] at hb
  rw [← h.running] at hr
  rw [← h.dying] at hd
  have hcount' := h.count
  refine ⟨hmin ▸ h.min, ?_, by omega, by omega, by omega, by omega, hlt, hbound⟩
  rw [hth, Threads.tids_goto h.tids hpc]
  exact h.tids

/-- A step that leaves the counters alone. -/
theorem Counts.move (h : s.Counts n) (hpc : s.threads.pcOf t = some pc)
    (hth : s'.threads = s.threads.goto t pc')
    (htp : ∃ q hash die running, s'.tp =
      { s.tp with q, threadHash := hash, threadDieHash := die, running })
    (hbusy : pc.busy = pc'.busy) (hrunning : pc.running = pc'.running)
    (hdying : pc.dying = pc'.dying) (hcounted : pc.counted = pc'.counted) : s'.Counts n := by
  obtain ⟨q, hash, die, running, htp⟩ := htp
  refine h.step hpc hth ?_ ?_ ?_ ?_ ?_ ?_ ?_
  · rw [htp]
  · rw [htp, hbusy]
  · rw [htp, hrunning]
  · rw [htp, hdying]
  · rw [htp, hcounted]
  · rw [htp]
    exact h.lt
  · rw [htp]
    exact h.bound

/-- A worker's last section takes it out of the counters. -/
theorem Counts.depart (h : s.Counts n) {die : Bool} (hpc : s.threads.pcOf t = some (.leave die))
    (hth : s'.threads = s.threads.goto t .record) (htp : s'.tp = s.tp.depart die) :
    s'.Counts n := by
  have hmem := Threads.mem_of_pcOf hpc
  have hrunning := Threads.le_total hmem Point.running
  have hcounted := Threads.le_total hmem Point.counted
  have hdying := Threads.le_total hmem Point.dying
  rw [← h.running] at hrunning
  rw [← h.dying] at hdying
  have hcount := h.count
  have hlt := h.lt
  have hbound := h.bound
  have hr : Point.running (.leave die) = 1 := rfl
  have hc : Point.counted (.leave die) = 1 := rfl
  dsimp only at hrunning hcounted hdying
  rw [hr] at hrunning
  rw [hc] at hcounted
  -- Each counter is positive, as the thread is counted in it, so none of them wraps.
  have htc : s'.tp.threadCount = s.tp.threadCount - 1 := by
    rw [htp, ThreadPool.depart]
    exact decr32_of_pos (by omega)
  have hrc : s'.tp.runningThreadCount = s.tp.runningThreadCount - 1 := by
    rw [htp, ThreadPool.depart]
    exact decr32_of_pos (by omega)
  have hdc : s'.tp.dyingThreadCount + Point.dying (.leave die) = s.tp.dyingThreadCount := by
    rw [htp, ThreadPool.depart]
    cases die with
    | false => rfl
    | true =>
      have hd : Point.dying (.leave true) = 1 := rfl
      rw [hd] at hdying ⊢
      dsimp only
      rw [if_pos rfl, decr32_of_pos (by omega)]
      omega
  have hdle : Point.dying (.leave die) ≤ 1 := by cases die <;> decide
  have hmin : s'.tp.min = s.tp.min := by rw [htp, ThreadPool.depart]
  have hmax : s'.tp.max = s.tp.max := by rw [htp, ThreadPool.depart]
  refine h.step hpc hth hmin ?_ ?_ ?_ ?_ ?_ ?_
  · rw [htp]
    rfl
  · rw [hr, hrc, show Point.running .record = 0 from rfl]
    omega
  · rw [hdc]
    rfl
  · rw [hc, htc, show Point.counted .record = 0 from rfl]
    omega
  · omega
  · rw [htc, hmin, hmax]
    omega

theorem threadCount_count (tp : ThreadPool) (need : ℤ) :
    (tp.count need).threadCount = add32 tp.threadCount (ofInt32 need) := rfl

/-- What a pool finds to be needed, and what it counts: `m` threads that it will create, and
    `k` that it will not. -/
theorem need_spec {tp : ThreadPool} (adding : Bool) (hmin : tp.min < 2 ^ 32)
    (hlt : tp.threadCount < 2 ^ 32) (hdying : tp.dyingThreadCount ≤ tp.threadCount)
    (hbound : tp.threadCount ≤ Max.max tp.min tp.max + tp.dyingThreadCount)
    (hfull : tp.threadCount = 2 ^ 32 - 1 → tp.need adding ≤ 0) :
    ∃ k, (tp.count (tp.need adding)).threadCount =
        tp.threadCount + k + (tp.need adding).toNat ∧
      tp.threadCount + k + (tp.need adding).toNat < 2 ^ 32 ∧
      tp.threadCount + k + (tp.need adding).toNat ≤
        Max.max tp.min tp.max + tp.dyingThreadCount := by
  rcases Nat.lt_or_ge tp.threadCount tp.min with hfew | hfew
  · have hsub : sub32 tp.min tp.threadCount = tp.min - tp.threadCount :=
      sub32_of_le hfew.le hmin
    have hneed (hne : toInt32 (tp.min - tp.threadCount : ℕ) ≠ 0) :
        tp.need adding = toInt32 (tp.min - tp.threadCount : ℕ) := by
      rw [ThreadPool.need, if_pos hfew, hsub]
      exact if_neg fun h => hne h.2.1
    -- The difference is an `int`; from `2 ^ 31` on it is negative, and no thread is started.
    rcases Nat.lt_or_ge (tp.min - tp.threadCount) (2 ^ 31) with hsmall | hlarge
    · have hint := toInt32_of_lt hsmall
      have heq := hneed (by omega)
      have hof : ofInt32 (tp.need adding) = tp.min - tp.threadCount := by
        rw [ofInt32, heq, hint]
        omega
      refine ⟨0, ?_, by omega, by omega⟩
      rw [threadCount_count, hof, add32_of_lt (by omega)]
      omega
    · have hint : toInt32 (tp.min - tp.threadCount : ℕ) = (tp.min - tp.threadCount : ℕ) - 2 ^ 32 := by
        rw [toInt32, Int.bmod_def]
        omega
      have heq := hneed (by omega)
      have hof : ofInt32 (tp.need adding) = tp.min - tp.threadCount := by
        rw [ofInt32, heq, hint]
        omega
      refine ⟨tp.min - tp.threadCount, ?_, by omega, by omega⟩
      rw [threadCount_count, hof, add32_of_lt (by omega)]
      omega
  · rw [ThreadPool.need, if_neg (Nat.not_lt.2 hfew)] at hfull ⊢
    -- One thread for a job, or none.
    split_ifs at hfull ⊢ with hadd
    · have hroom : tp.threadCount + 1 < 2 ^ 32 := by omega
      have hle := hadd.2.2.2
      rw [sub32_of_le hdying hlt, add32_of_lt (by omega)] at hle
      have hof : ofInt32 (0 + 1) = 1 := by rw [ofInt32]; rfl
      have hnat : (0 + 1 : ℤ).toNat = 1 := rfl
      rw [hnat]
      refine ⟨0, ?_, by omega, by omega⟩
      rw [threadCount_count, hof, add32_of_lt hroom]
    · have hof : ofInt32 0 = 0 := by rw [ofInt32]; rfl
      have hnat : (0 : ℤ).toNat = 0 := rfl
      rw [hnat]
      refine ⟨0, ?_, by omega, by omega⟩
      rw [threadCount_count, hof, add32_of_lt hlt]

/-- A new thread comes to stand for threads that have been counted. -/
theorem Counts.enter (h : s.Counts (n + pc.counted)) (ht : t ∉ s.threads.tids)
    (hth : s'.threads = ⟨t, pc⟩ :: s.threads) (htp : s'.tp = s.tp)
    (hbusy : pc.busy = 0) (hrunning : pc.running = 0) (hdying : pc.dying = 0) : s'.Counts n := by
  refine ⟨?_, ?_, ?_, ?_, ?_, ?_, ?_, ?_⟩
  · rw [htp]
    exact h.min
  · rw [hth]
    exact List.nodup_cons.2 ⟨ht, h.tids⟩
  · rw [hth, htp, Threads.total_cons, hbusy, Nat.zero_add, h.busy]
  · rw [hth, htp, Threads.total_cons, hrunning, Nat.zero_add, h.running]
  · rw [hth, htp, Threads.total_cons, hdying, Nat.zero_add, h.dying]
  · rw [hth, htp, Threads.total_cons, h.count, Nat.add_assoc]
  · rw [htp]
    exact h.lt
  · rw [htp]
    exact h.bound

end TPSys

namespace ThreadPool

variable {tp : ThreadPool} {k : Caller}

theorem busy_back : (tp.back k).busy = 0 := by
  cases k with
  | idled idleSec =>
    rw [back]
    split_ifs <;> rfl
  | _ => rfl

theorem dying_back : (tp.back k).dying = 0 := by
  cases k with
  | idled idleSec =>
    rw [back]
    split_ifs <;> rfl
  | _ => rfl

theorem running_back : (tp.back k).running = k.worker := by
  cases k with
  | idled idleSec =>
    rw [back]
    split_ifs <;> rfl
  | _ => rfl

theorem counted_back : (tp.back k).counted = k.worker := by
  cases k with
  | idled idleSec =>
    rw [back]
    split_ifs <;> rfl
  | _ => rfl

end ThreadPool

namespace TPSys

variable {s s' : TPSys} {n t : ℕ} {pc : Point} {a : Act}

/-- The step does not count a thread when `thread_count` cannot hold one more. -/
def Countable (s : TPSys) : Act → Prop
  | .run t =>
    s.threads.pcOf t = some (.reap .addJob) → s.tp.threadDieHash = [] →
      s.tp.threadCount = 2 ^ 32 - 1 →
        s.tp.busyThreadCount + s.tp.q <
            sub32 s.tp.runningThreadCount s.tp.dyingThreadCount ∨
          s.tp.max < add32 (sub32 s.tp.threadCount s.tp.dyingThreadCount) 1
  | _ => True

instance (s : TPSys) : DecidablePred s.Countable
  | .run _ => inferInstanceAs (Decidable (_ → _ → _ → _ ∨ _))
  | .addJob _ | .destroy _ | .launch _ _ | .fail _ | .timeOut _ => .isTrue trivial

/-- `check_queue` counts the threads that it will create, if there is room for them. -/
theorem Counts.reap {k : Caller} (h : s.Counts n)
    (hpc : s.threads.pcOf t = some (.reap k)) (hdead : s.tp.threadDieHash = [])
    (hroom : s.Countable (.run t)) (hstep : s.advance t (.reap k) = some s') :
    ∃ n', s'.Counts n' := by
  rw [advance, hdead] at hstep
  cases hstep
  have hcounted := h.counted
  have hdying : s.tp.dyingThreadCount ≤ s.tp.threadCount :=
    (Nat.le_add_left ..).trans (hcounted.busy.trans hcounted.running)
  have hfull : s.tp.threadCount = 2 ^ 32 - 1 → s.tp.need k.adding ≤ 0 := by
    intro hfull
    have hmin := h.min
    have hmany : ¬s.tp.threadCount < s.tp.min := by omega
    rw [ThreadPool.need, if_neg hmany]
    refine (if_neg ?_).le
    rintro ⟨hadding, -, hbusy, hmax⟩
    cases k with
    | addJob =>
      rcases hroom hpc hdead hfull with h' | h'
      · exact absurd hbusy (Nat.not_le.2 h')
      · exact absurd hmax (Nat.not_le.2 h')
    | _ => cases hadding
  obtain ⟨m, hcount, hlt, hbound⟩ := need_spec k.adding h.min h.lt hdying h.bound hfull
  refine ⟨n + m, h.step hpc rfl rfl rfl rfl rfl ?_ ?_ ?_⟩
  · dsimp only
    rw [hcount]
    simp only [Point.counted, Point.running, Point.starting, Point.reserved]
    omega
  · dsimp only
    rw [hcount]
    exact hlt
  · dsimp only
    rw [hcount]
    exact hbound

/-- Behind a loop that has still to create threads, `thread_count` counts them. -/
theorem Counts.le_count (h : s.Counts n) (hpc : s.threads.pcOf t = some pc) :
    s.tp.runningThreadCount + pc.counted ≤ s.tp.threadCount + pc.running := by
  have hle := Threads.total_add_le Point.running_le (Threads.mem_of_pcOf hpc)
  have hcount := h.count
  rw [← h.running] at hle
  dsimp only at hle
  omega

theorem Counts.cancel {k : Caller} {need : ℕ} (h : s.Counts n)
    (hpc : s.threads.pcOf t = some (.cancel k need))
    (hth : s'.threads = s.threads.goto t (s.tp.back k))
    (htp : s'.tp = { s.tp with threadCount := sub32 s.tp.threadCount need }) : s'.Counts n := by
  have hle := h.le_count hpc
  have hlt := h.lt
  have hbound := h.bound
  simp only [Point.counted, Point.running, Point.starting, Point.reserved] at hle
  rw [sub32_of_le (by omega) hlt] at htp
  refine h.step hpc hth ?_ ?_ ?_ ?_ ?_ ?_ ?_
  · rw [htp]
  · rw [htp, ThreadPool.busy_back]
    rfl
  · rw [htp, ThreadPool.running_back]
    rfl
  · rw [htp, ThreadPool.dying_back]
    rfl
  · rw [htp, ThreadPool.counted_back]
    simp only [Point.counted, Point.running, Point.starting, Point.reserved]
    omega
  · rw [htp]
    exact (Nat.sub_le ..).trans_lt hlt
  · rw [htp]
    exact (Nat.sub_le ..).trans hbound

theorem Counts.uncount {k : Caller} {need : ℕ} (h : s.Counts n)
    (hpc : s.threads.pcOf t = some (.uncount k need))
    (hth : s'.threads = s.threads.goto t (.spawn k need))
    (htp : s'.tp = { s.tp with threadCount := decr32 s.tp.threadCount }) : s'.Counts n := by
  have hle := h.le_count hpc
  have hlt := h.lt
  have hbound := h.bound
  simp only [Point.counted, Point.running, Point.starting, Point.reserved] at hle
  rw [decr32_of_pos (by omega)] at htp
  refine h.step hpc hth ?_ ?_ ?_ ?_ ?_ ?_ ?_
  · rw [htp]
  · rw [htp]
    rfl
  · rw [htp]
    rfl
  · rw [htp]
    rfl
  · rw [htp]
    simp only [Point.counted, Point.running, Point.starting, Point.reserved]
    omega
  · rw [htp]
    exact (Nat.sub_le ..).trans_lt hlt
  · rw [htp]
    exact (Nat.sub_le ..).trans hbound

/-- A worker starts. -/
theorem Counts.start (h : s.Counts n) (hpc : s.threads.pcOf t = some .start)
    (hth : s'.threads = s.threads.goto t (.loop 0))
    (htp : s'.tp = { s.tp with runningThreadCount := incr32 s.tp.runningThreadCount }) :
    s'.Counts n := by
  have hle := h.le_count hpc
  have hlt := h.lt
  simp only [Point.counted, Point.running, Point.starting, Point.reserved] at hle
  rw [incr32_of_lt (by omega)] at htp
  refine h.step hpc hth ?_ ?_ ?_ ?_ ?_ ?_ ?_
  · rw [htp]
  · rw [htp]
    rfl
  · rw [htp]
    rfl
  · rw [htp]
    rfl
  · rw [htp]
    rfl
  · rw [htp]
    exact hlt
  · rw [htp]
    exact h.bound

/-- An idle worker is to die. -/
theorem Counts.idle {idleSec : ℕ} (h : s.Counts n) (hpc : s.threads.pcOf t = some (.idle idleSec))
    (hth : s'.threads = s.threads.goto t (.leave true))
    (htp : s'.tp = { s.tp with dyingThreadCount := incr32 s.tp.dyingThreadCount }) :
    s'.Counts n := by
  have hle := Threads.total_add_le Point.busy_add_dying_le (Threads.mem_of_pcOf hpc)
  have hcounted := h.counted
  have hlt := h.lt
  have hbound := h.bound
  rw [Threads.total_add, ← h.busy, ← h.dying, ← h.running] at hle
  simp only [Point.busy, Point.dying, Point.running] at hle
  have hrunning := hcounted.running
  rw [incr32_of_lt (by omega)] at htp
  refine h.step hpc hth ?_ ?_ ?_ ?_ ?_ ?_ ?_
  · rw [htp]
  · rw [htp]
    rfl
  · rw [htp]
    rfl
  · rw [htp]
    rfl
  · rw [htp]
    rfl
  · rw [htp]
    exact hlt
  · rw [htp]
    exact Nat.le_succ_of_le hbound

/-- A worker goes into a job. -/
theorem Counts.engage (h : s.Counts n) (hpc : s.threads.pcOf t = some .engage)
    (hth : s'.threads = s.threads.goto t .work)
    (htp : s'.tp = { s.tp with busyThreadCount := incr32 s.tp.busyThreadCount }) :
    s'.Counts n := by
  have hle := Threads.total_add_le Point.busy_add_dying_le (Threads.mem_of_pcOf hpc)
  have hrunning := h.counted.running
  have hlt := h.lt
  rw [Threads.total_add, ← h.busy, ← h.dying, ← h.running] at hle
  simp only [Point.busy, Point.dying, Point.running] at hle
  rw [incr32_of_lt (by omega)] at htp
  refine h.step hpc hth ?_ ?_ ?_ ?_ ?_ ?_ ?_
  · rw [htp]
  · rw [htp]
    rfl
  · rw [htp]
    rfl
  · rw [htp]
    rfl
  · rw [htp]
    rfl
  · rw [htp]
    exact hlt
  · rw [htp]
    exact h.bound

/-- A worker comes out of a job. -/
theorem Counts.work (h : s.Counts n) (hpc : s.threads.pcOf t = some .work)
    (hth : s'.threads = s.threads.goto t (.loop 0))
    (htp : s'.tp = { s.tp with busyThreadCount := decr32 s.tp.busyThreadCount }) :
    s'.Counts n := by
  have hle := Threads.le_total (Threads.mem_of_pcOf hpc) Point.busy
  rw [← h.busy] at hle
  simp only [Point.busy] at hle
  rw [decr32_of_pos (by omega)] at htp
  refine h.step hpc hth ?_ ?_ ?_ ?_ ?_ ?_ ?_
  · rw [htp]
  · rw [htp]
    exact Nat.sub_add_cancel hle
  · rw [htp]
    rfl
  · rw [htp]
    rfl
  · rw [htp]
    rfl
  · rw [htp]
    exact h.lt
  · rw [htp]
    exact h.bound

/-- A step of a thread that takes it by itself. -/
theorem Counts.advance (h : s.Counts n)
    (hpc : s.threads.pcOf t = some pc) (hroom : s.Countable (.run t))
    (hstep : s.advance t pc = some s') :
    ∃ n', s'.Counts n' := by
  have hmem := Threads.mem_of_pcOf hpc
  have hlt := h.lt
  have hbound := h.bound
  -- The points whose step leaves the counters alone.
  have hmove {pc' : Point} (hth : s'.threads = s.threads.goto t pc')
      (htp : ∃ q hash die running, s'.tp =
        { s.tp with q, threadHash := hash, threadDieHash := die, running })
      (hbusy : pc.busy = pc'.busy) (hrunning : pc.running = pc'.running)
      (hdying : pc.dying = pc'.dying) (hcounted : pc.counted = pc'.counted) :
      ∃ n', s'.Counts n' :=
    ⟨n, h.move hpc hth htp hbusy hrunning hdying hcounted⟩
  cases pc with
  | push =>
    rw [TPSys.advance] at hstep
    split_ifs at hstep
    cases hstep
    exact hmove rfl ⟨_, _, _, _, rfl⟩ rfl rfl rfl rfl
  -- `check_queue` up to its loop: threads are counted where `cleanup_threads` is done
  | check k =>
    obtain ⟨-, rfl⟩ := taking_eq_some.1 hstep
    split_ifs at hmove ⊢
    · exact hmove rfl ⟨_, _, _, _, rfl⟩ rfl rfl rfl rfl
    · exact hmove rfl ⟨_, _, _, _, rfl⟩ ThreadPool.busy_back.symm ThreadPool.running_back.symm
        ThreadPool.dying_back.symm ThreadPool.counted_back.symm
  | cleanup k =>
    obtain ⟨-, rfl⟩ := taking_eq_some.1 hstep
    exact hmove rfl ⟨_, _, _, _, rfl⟩ rfl rfl rfl rfl
  | reap k =>
    cases hdead : s.tp.threadDieHash with
    | nil =>
      exact h.reap hpc hdead hroom hstep
    | cons key keys =>
      rw [TPSys.advance, hdead] at hstep
      cases hstep
      exact hmove rfl ⟨_, _, _, _, rfl⟩ rfl rfl rfl rfl
  | join k key =>
    rw [TPSys.advance] at hstep
    split_ifs at hstep
    cases hstep
    exact hmove rfl ⟨_, _, _, _, rfl⟩ rfl rfl rfl rfl
  | unhash k key =>
    obtain ⟨-, rfl⟩ := taking_eq_some.1 hstep
    exact hmove rfl ⟨_, _, _, _, rfl⟩ rfl rfl rfl rfl
  -- Its loop: what has been counted is started, or taken back.
  | spawn k need =>
    cases need with
    | zero =>
      cases hstep
      exact hmove rfl ⟨_, _, _, _, rfl⟩ ThreadPool.busy_back.symm ThreadPool.running_back.symm
        ThreadPool.dying_back.symm ThreadPool.counted_back.symm
    | succ need =>
      obtain ⟨-, rfl⟩ := taking_eq_some.1 hstep
      split_ifs at hmove ⊢
      · exact hmove rfl ⟨_, _, _, _, rfl⟩ rfl rfl rfl rfl
      · exact hmove rfl ⟨_, _, _, _, rfl⟩ rfl rfl rfl rfl
  | launch k need => cases hstep
  | cancel k need =>
    obtain ⟨-, rfl⟩ := taking_eq_some.1 hstep
    exact ⟨n, h.cancel hpc rfl rfl⟩
  | uncount k need =>
    obtain ⟨-, rfl⟩ := taking_eq_some.1 hstep
    exact ⟨n, h.uncount hpc rfl rfl⟩
  | hash k need key =>
    obtain ⟨-, rfl⟩ := taking_eq_some.1 hstep
    exact hmove rfl ⟨_, _, _, _, rfl⟩ rfl rfl rfl rfl
  -- A worker counts itself in, as busy, as dying and out.
  | start =>
    obtain ⟨-, rfl⟩ := taking_eq_some.1 hstep
    exact ⟨n, h.start hpc rfl rfl⟩
  | loop idleSec =>
    rw [TPSys.advance] at hstep
    split_ifs at hstep
    · cases hstep
      exact hmove rfl ⟨_, _, _, _, rfl⟩ rfl rfl rfl rfl
    · cases hstep
      exact hmove rfl ⟨_, _, _, _, rfl⟩ rfl rfl rfl rfl
  | pop idleSec =>
    rw [TPSys.advance] at hstep
    split_ifs at hstep
    · cases hstep
      exact hmove rfl ⟨_, _, _, _, rfl⟩ rfl rfl rfl rfl
    · cases hstep
      exact hmove rfl ⟨_, _, _, _, rfl⟩ rfl rfl rfl rfl
  | wait idleSec =>
    rw [TPSys.advance] at hstep
    split_ifs at hstep
    · cases hstep
      exact hmove rfl ⟨_, _, _, _, rfl⟩ rfl rfl rfl rfl
    · cases hstep
      exact hmove rfl ⟨_, _, _, _, rfl⟩ rfl rfl rfl rfl
    · cases hstep
      exact hmove rfl ⟨_, _, _, _, rfl⟩ rfl rfl rfl rfl
  | idle idleSec =>
    obtain ⟨-, rfl⟩ := taking_eq_some.1 hstep
    split_ifs at hmove ⊢
    · exact ⟨n, h.idle hpc rfl rfl⟩
    · exact hmove rfl ⟨_, _, _, _, rfl⟩ rfl rfl rfl rfl
  | engage =>
    obtain ⟨-, rfl⟩ := taking_eq_some.1 hstep
    exact ⟨n, h.engage hpc rfl rfl⟩
  | work =>
    obtain ⟨-, rfl⟩ := taking_eq_some.1 hstep
    exact ⟨n, h.work hpc rfl rfl⟩
  | leave die =>
    obtain ⟨-, rfl⟩ := taking_eq_some.1 hstep
    exact ⟨n, h.depart hpc rfl rfl⟩
  | record =>
    obtain ⟨-, rfl⟩ := taking_eq_some.1 hstep
    exact hmove rfl ⟨_, _, _, _, rfl⟩ rfl rfl rfl rfl
  | ended => cases hstep
  | returned => cases hstep
  -- `ks_thread_pool_destroy` counts nothing
  | down =>
    obtain ⟨-, rfl⟩ := taking_eq_some.1 hstep
    exact hmove rfl ⟨_, _, _, _, rfl⟩ rfl rfl rfl rfl
  | destroy =>
    obtain ⟨-, rfl⟩ := taking_eq_some.1 hstep
    exact hmove rfl ⟨_, _, _, _, rfl⟩ rfl rfl rfl rfl
  | joinAll =>
    rw [TPSys.advance] at hstep
    cases hkeys : s.tp.threadHash with
    | nil =>
      rw [hkeys] at hstep
      cases hstep
      exact hmove rfl ⟨_, _, _, _, rfl⟩ rfl rfl rfl rfl
    | cons key keys =>
      rw [hkeys] at hstep
      cases hstep
      exact hmove rfl ⟨_, _, _, _, rfl⟩ rfl rfl rfl rfl
  | joinOne key =>
    rw [TPSys.advance] at hstep
    split_ifs at hstep
    cases hstep
    exact hmove rfl ⟨_, _, _, _, rfl⟩ rfl rfl rfl rfl

/-- A call, or a new thread in front of its first section. -/
theorem Counts.call (h : s.Counts n) {s' : TPSys} (hcounted : pc.counted = 0)
    (hbusy : pc.busy = 0) (hdying : pc.dying = 0) (hstep : s.enter t pc = some s') :
    s'.Counts n := by
  rw [TPSys.enter] at hstep
  split_ifs at hstep with ht
  cases hstep
  have hrunning : pc.running = 0 := Nat.eq_zero_of_le_zero (hcounted ▸ pc.running_le)
  have hn : s.Counts (n + pc.counted) := by rwa [hcounted, Nat.add_zero]
  exact hn.enter ht rfl rfl hbusy hrunning hdying

/-- A step of the pool. -/
theorem Counts.next (h : s.Counts n) (hroom : s.Countable a)
    (hstep : s.next a = some s') : ∃ n', s'.Counts n' := by
  cases a with
  | addJob t =>
    rw [TPSys.next] at hstep
    split_ifs at hstep
    exact ⟨n, h.call rfl rfl rfl hstep⟩
  | destroy t =>
    rw [TPSys.next] at hstep
    split_ifs at hstep
    obtain ⟨s₁, hs₁, rfl⟩ := Option.map_eq_some_iff.1 hstep
    have h₁ := h.call rfl rfl rfl hs₁
    exact ⟨n, ⟨h₁.min, h₁.tids, h₁.busy, h₁.running, h₁.dying, h₁.count, h₁.lt, h₁.bound⟩⟩
  | run t =>
    obtain ⟨pc, hpc, hstep⟩ := Option.bind_eq_some_iff.1 hstep
    exact h.advance hpc hroom hstep
  | launch t key =>
    rw [TPSys.next] at hstep
    split at hstep
    · rename_i k need hpc
      obtain ⟨s₁, hs₁, rfl⟩ := Option.map_eq_some_iff.1 hstep
      rw [TPSys.enter] at hs₁
      split_ifs at hs₁ with hkey
      cases hs₁
      refine ⟨n, ?_⟩
      -- The thread gives up what it has reserved, before the new one comes to stand for it.
      have hgoto : (s.goto t (.hash k need key)).Counts (n + Point.counted .start) := by
        refine h.step hpc rfl rfl rfl rfl rfl ?_ h.lt h.bound
        simp only [goto, Point.counted, Point.running, Point.starting, Point.reserved]
        omega
      have hne : key ≠ t := by
        rintro rfl
        exact hkey (List.mem_map_of_mem (Threads.mem_of_pcOf hpc))
      refine hgoto.enter ?_ (Threads.goto_cons hne) rfl rfl rfl rfl
      rwa [goto, Threads.tids_goto h.tids hpc]
    · cases hstep
  | fail t =>
    rw [TPSys.next] at hstep
    split at hstep
    · rename_i k need hpc
      cases hstep
      exact ⟨n, h.move hpc rfl ⟨_, _, _, _, rfl⟩ rfl rfl rfl rfl⟩
    · cases hstep
  | timeOut t =>
    rw [TPSys.next] at hstep
    split at hstep
    · rename_i idleSec hpc
      cases hstep
      exact ⟨n, h.move hpc rfl ⟨_, _, _, _, rfl⟩ rfl rfl rfl rfl⟩
    · cases hstep

theorem create_counts {min max idleSec : ℕ} (hmin : min < 2 ^ 32) :
    (create min max idleSec).Counts 0 :=
  ⟨hmin, by simp [create, Threads.tids], rfl, rfl, rfl, rfl, Nat.two_pow_pos 32, Nat.zero_le _⟩

/-- In a run where no thread is counted when `thread_count` cannot hold one more, the
    counters are in order in every state. -/
theorem always_inOrder {min max idleSec : ℕ} {as : List Act} (hmin : min < 2 ^ 32)
    (hroom : Along (blocking next) Countable (create min max idleSec) as) :
    Always (blocking next) InOrder (create min max idleSec) as := by
  refine Always.of_along (J := fun s => ∃ n, s.Counts n) ?_ ?_ ⟨0, create_counts hmin⟩ hroom
  · rintro s ⟨n, h⟩
    exact h.inOrder
  · rintro s a s' ⟨n, h⟩ hroom hstep
    exact h.next hroom hstep

/-- One thread of two can be created, and does a job. -/
theorem always_inOrder_failed :
    Always (blocking next) InOrder (create 1 2 0) [.run 0, .run 0, .run 0, .run 0, .launch 0 1,
      .run 0, .run 0, .run 1, .addJob 2, .run 2, .run 2, .run 2, .run 2, .run 2, .fail 2, .run 2,
      .run 2, .run 1, .run 1, .run 1, .run 1, .run 1, .run 1, .run 1, .run 1] :=
  always_inOrder (by decide) (by decide +kernel)

/-- With a minimum of `2 ^ 32 - 1`, as many threads are counted, and none is created. The first
    job has one more counted, so that `thread_count` is 0 when that one starts. -/
theorem not_always_inOrder :
    ¬∀ min max idleSec as, min < 2 ^ 32 → max < 2 ^ 32 →
      Always (blocking next) InOrder (create min max idleSec) as := by
  intro h
  have hrun := h (2 ^ 32 - 1) (2 ^ 32 - 1) 0 [.run 0, .run 0, .run 0, .run 0, .addJob 1, .run 1,
    .run 1, .run 1, .run 1, .run 1, .launch 1 2, .run 1, .run 2] (by decide) (by decide)
  have hend : okAnd (fun r => decide (r.2.tp.threadCount < r.2.tp.runningThreadCount))
      (calls (blocking next) (create (2 ^ 32 - 1) (2 ^ 32 - 1) 0) [.run 0, .run 0, .run 0, .run 0,
        .addJob 1, .run 1, .run 1, .run 1, .run 1, .run 1, .launch 1 2, .run 1, .run 2]) = true := by
    decide +kernel
  obtain ⟨⟨os, s⟩, hcalls, hlt⟩ := okAnd_iff.1 hend
  exact absurd (hrun.last hcalls).counted.running (Nat.not_le.2 (of_decide_eq_true hlt))

end TPSys

end Libks
