import Libks.ThreadPool.Counters

/-!
# No job is stranded

A job in the queue of a running pool is served if some thread of the pool is alive,
i.e., has not decided to die, or some call of `ks_thread_pool_add_job` has still to
look whether a thread is needed, or to create one. A worker that decides to die
looks at the counters, and not at the queue: it may be the last one, and go while
there is a job, if the call that has put it there has already found the worker to be
enough. Where no step does this, no job is stranded (`always_served`).

The counters are taken modulo `2 ^ 32` here, as they are in the code: a wrapped
counter does not strand a job.
-/

namespace Libks

open Base

namespace Point

/-- The call of `check_queue` that the thread is in, or about to make. -/
def caller : Point → Option Caller
  | .push => some .addJob
  | .check k | .cleanup k | .reap k | .join k _ | .unhash k _ => some k
  | .spawn k _ | .launch k _ | .cancel k _ | .uncount k _ | .hash k _ _ => some k
  | _ => none

/-- A call of `ks_thread_pool_add_job`. -/
def adding (pc : Point) : ℕ := if pc.caller = some .addJob then 1 else 0

/-- The call of `ks_thread_pool_create`. -/
def creating (pc : Point) : ℕ := if pc.caller = some .create then 1 else 0

/-- A thread of the pool that is started, or about to start, and has not decided to die. -/
def live (pc : Point) : ℕ := pc.starting + (pc.running - pc.dying)

/-- A call of `check_queue` that has looked, and has no thread to create. -/
def settled : Point → Bool
  | .spawn _ 0 | .cancel _ 0 | .hash _ 0 _ => true
  | _ => false

/-- A call of `ks_thread_pool_add_job` that has still to look whether a thread is needed, or
    to create one. -/
def pending (pc : Point) : ℕ := if pc.settled then 0 else pc.adding

/-- What there is to serve a job. -/
def staff (pc : Point) : ℕ := pc.live + pc.pending

/-- A point that is not come to in a running pool whose threads can be created. -/
def shut : Point → ℕ
  | .cancel _ _ | .uncount _ _ | .leave false | .down | .destroy | .joinAll | .joinOne _ => 1
  | _ => 0

theorem live_add_dying (pc : Point) : pc.live + pc.dying = pc.starting + pc.running := by
  have hle := pc.busy_add_dying_le
  rw [live]
  omega

theorem counted_eq (pc : Point) : pc.counted = pc.dying + (pc.live + pc.reserved) := by
  have hlive := pc.live_add_dying
  rw [counted]
  omega

theorem pending_le (pc : Point) : pc.pending ≤ pc.adding := by
  rw [pending]
  split_ifs
  · exact Nat.zero_le _
  · exact le_rfl

theorem not_settled {pc : Point} (h : 0 < pc.reserved) : ¬pc.settled := by
  cases pc with
  | spawn k n => cases n with | zero => cases h | succ n => simp [settled]
  | cancel k n => cases n with | zero => cases h | succ n => simp [settled]
  | hash k n key => cases n with | zero => cases h | succ n => simp [settled]
  | _ => simp [settled]

/-- Who is to create threads serves a job, unless it creates the pool. -/
theorem reserved_pos {pc : Point} (h : 0 < pc.reserved) : 0 < pc.staff + pc.creating := by
  have hcaller {k : Caller} (hk : pc.caller = some k) (hr : pc.running = k.worker)
      (hd : pc.dying = 0) : 0 < pc.staff + pc.creating := by
    rw [staff, live, pending, if_neg (not_settled h), adding, creating, hk, hr, hd]
    cases k <;> simp [Caller.worker]
  cases pc with
  | spawn k n => exact hcaller rfl rfl rfl
  | launch k n => exact hcaller rfl rfl rfl
  | cancel k n => exact hcaller rfl rfl rfl
  | uncount k n => exact hcaller rfl rfl rfl
  | hash k n key => exact hcaller rfl rfl rfl
  | _ => cases h

end Point

namespace TPSys

/-- No job is stranded: with a job in the queue, and no call of `ks_thread_pool_add_job` in
    progress, a thread of the pool is started, or about to start, and has not decided to
    die. -/
def Served (s : TPSys) : Prop :=
  s.threads.total Point.adding = 0 → 0 < s.tp.q → 0 < s.threads.total Point.live

/-- What a worker that decides to die leaves behind: no job, or another thread that is
    alive, or a call that has still to look. -/
def Relieved (s : TPSys) : Act → Prop
  | .run t =>
    (s.threads.pcOf t).any Point.idling → s.tp.Dispensable →
      s.tp.q = 0 ∨ 1 < s.threads.total Point.live ∨ 0 < s.threads.total Point.pending
  | _ => True

instance (s : TPSys) : DecidablePred s.Relieved
  | .run _ => inferInstanceAs (Decidable (_ → _ → _ ∨ _ ∨ _))
  | .addJob _ | .destroy _ | .launch _ _ | .fail _ | .timeOut _ => .isTrue trivial

/-- The pool is not destroyed, and no thread fails to be created. -/
def Act.undisturbed : Act → Bool
  | .destroy _ | .fail _ => false
  | _ => true

/-- The pool runs, its counters count threads, and jobs are served; `m` threads have been
    counted that do not exist yet. -/
structure Staffed (s : TPSys) (m : ℕ) : Prop where
  tids : s.threads.tids.Nodup
  min : s.tp.min < 2 ^ 31
  max : 1 ≤ s.tp.max
  up : s.tp.running = true
  shut : ∀ th ∈ s.threads, th.pc.shut = 0
  running : s.tp.runningThreadCount = toUInt32 (s.threads.total Point.running)
  dying : s.tp.dyingThreadCount = toUInt32 (s.threads.total Point.dying)
  count : s.tp.threadCount = toUInt32 (m + s.threads.total Point.counted)
  creating : s.threads.total Point.creating + s.created.toNat = 1
  opened : s.created = false → s.tp.q = 0 ∧ s.threads.total Point.adding = 0
  staff : 0 < s.tp.q → 0 < m + s.threads.total Point.staff

variable {s s' : TPSys} {m m' t : ℕ} {pc pc' : Point} {a : Act}

theorem Staffed.served (h : s.Staffed 0) : s.Served := by
  intro hadding hq
  have hstaff := h.staff hq
  have hpending := Threads.total_mono Point.pending_le s.threads
  have hadd := Threads.total_add Point.live Point.pending s.threads
  have heq : s.threads.total Point.staff = _ := hadd
  omega

/-- A step of a thread: what it does to the counters, and what it leaves in the pool. -/
theorem Staffed.step (h : s.Staffed m) (hpc : s.threads.pcOf t = some pc)
    (hth : s'.threads = s.threads.goto t pc')
    (hconf : s'.tp.min = s.tp.min ∧ s'.tp.max = s.tp.max ∧ s'.tp.running = s.tp.running)
    (hshut : pc'.shut = 0)
    (hrunning : ∀ n, s.tp.runningThreadCount = toUInt32 (n + pc.running) →
      s'.tp.runningThreadCount = toUInt32 (n + pc'.running))
    (hdying : ∀ n, s.tp.dyingThreadCount = toUInt32 (n + pc.dying) →
      s'.tp.dyingThreadCount = toUInt32 (n + pc'.dying))
    (hcount : ∀ n, s.tp.threadCount = toUInt32 (m + (n + pc.counted)) →
      s'.tp.threadCount = toUInt32 (m' + (n + pc'.counted)))
    (hcreating : pc'.creating + s'.created.toNat = pc.creating + s.created.toNat)
    (hopened : s'.created = false → s.created = false ∧ pc'.adding ≤ pc.adding ∧
      (s'.tp.q ≤ s.tp.q ∨ 0 < pc.adding))
    (hstaff : 0 < s'.tp.q → 0 < m' + s'.threads.total Point.staff) : s'.Staffed m' := by
  obtain ⟨hmin, hmax, hup⟩ := hconf
  have hmem := Threads.mem_of_pcOf hpc
  have htotal (f : Point → ℕ) : s'.threads.total f + f pc = s.threads.total f + f pc' :=
    hth ▸ Threads.total_goto h.tids hpc f pc'
  -- The other threads hold what they held before.
  have hrest (f : Point → ℕ) : ∃ n, s.threads.total f = n + f pc ∧ s'.threads.total f = n + f pc' := by
    have hle := Threads.le_total hmem f
    have heq := htotal f
    dsimp only at hle
    exact ⟨s.threads.total f - f pc, by omega, by omega⟩
  refine ⟨?_, hmin ▸ h.min, hmax ▸ h.max, hup ▸ h.up, ?_, ?_, ?_, ?_, ?_, ?_, hstaff⟩
  · rw [hth, Threads.tids_goto h.tids hpc]
    exact h.tids
  · intro th hmem'
    rw [hth, Threads.mem_goto h.tids hpc] at hmem'
    rcases hmem' with rfl | ⟨hmem', -⟩
    · exact hshut
    · exact h.shut th hmem'
  · obtain ⟨n, hn, hn'⟩ := hrest Point.running
    rw [hn']
    exact hrunning n (hn ▸ h.running)
  · obtain ⟨n, hn, hn'⟩ := hrest Point.dying
    rw [hn']
    exact hdying n (hn ▸ h.dying)
  · obtain ⟨n, hn, hn'⟩ := hrest Point.counted
    rw [hn']
    exact hcount n (hn ▸ h.count)
  · have heq := htotal Point.creating
    have hone := h.creating
    omega
  · intro hclosed
    obtain ⟨hcreated, hadding, hq⟩ := hopened hclosed
    obtain ⟨hempty, hnone⟩ := h.opened hcreated
    have heq := htotal Point.adding
    have hle := Threads.le_total hmem Point.adding
    dsimp only at hle
    exact ⟨by omega, by omega⟩

/-- A step that leaves alone what the counters count. -/
theorem Staffed.move (h : s.Staffed m) (hpc : s.threads.pcOf t = some pc)
    (hth : s'.threads = s.threads.goto t pc')
    (htp : ∃ q busy hash die, s'.tp =
      { s.tp with q, busyThreadCount := busy, threadHash := hash, threadDieHash := die })
    (hcreated : s'.created = s.created) (hshut : pc'.shut = 0)
    (hrunning : pc.running = pc'.running) (hdying : pc.dying = pc'.dying)
    (hcounted : pc.counted = pc'.counted) (hcreating : pc'.creating = pc.creating)
    (hadding : pc'.adding = pc.adding)
    (hstaff : s'.tp.q ≤ s.tp.q ∧ pc.staff ≤ pc'.staff ∨ 0 < pc.adding ∧ 0 < pc'.staff) :
    s'.Staffed m := by
  have htotal := Threads.total_goto h.tids hpc Point.staff pc'
  have hle := Threads.le_total (Threads.mem_of_pcOf hpc) Point.staff
  have hq : s'.tp.q ≤ s.tp.q ∨ 0 < pc.adding := hstaff.imp And.left And.left
  rw [← hth] at htotal
  obtain ⟨q, busy, hash, die, htp⟩ := htp
  refine h.step hpc hth (htp ▸ ⟨rfl, rfl, rfl⟩) hshut ?_ ?_ ?_ ?_ ?_ ?_
  · rw [htp, hrunning]
    exact fun n hn => hn
  · rw [htp, hdying]
    exact fun n hn => hn
  · rw [htp, hcounted]
    exact fun n hn => hn
  · rw [hcreated, hcreating]
  · exact fun hclosed => ⟨hcreated ▸ hclosed, hadding.le, hq⟩
  · intro hpos
    rcases hstaff with ⟨hq, hstaff⟩ | ⟨-, hstaff⟩
    · have hserved := h.staff (hpos.trans_le hq)
      omega
    · dsimp only at hle
      omega

/-- A new thread comes to stand for threads that have been counted. -/
theorem Staffed.enter (h : s.Staffed (m + pc.counted)) (ht : t ∉ s.threads.tids)
    (hth : s'.threads = ⟨t, pc⟩ :: s.threads) (htp : s'.tp = s.tp)
    (hcreated : s'.created = s.created) (hshut : pc.shut = 0) (hrunning : pc.running = 0)
    (hdying : pc.dying = 0) (hcreating : pc.creating = 0)
    (hadding : pc.adding = 0 ∨ s.created = true) (hstaff : pc.counted ≤ pc.staff) :
    s'.Staffed m := by
  refine ⟨?_, htp ▸ h.min, htp ▸ h.max, htp ▸ h.up, ?_, ?_, ?_, ?_, ?_, ?_, ?_⟩
  · rw [hth]
    exact List.nodup_cons.2 ⟨ht, h.tids⟩
  · intro th hmem
    rw [hth, List.mem_cons] at hmem
    rcases hmem with rfl | hmem
    · exact hshut
    · exact h.shut th hmem
  · rw [hth, htp, Threads.total_cons, hrunning, Nat.zero_add, h.running]
  · rw [hth, htp, Threads.total_cons, hdying, Nat.zero_add, h.dying]
  · rw [hth, htp, Threads.total_cons, h.count, Nat.add_assoc]
  · rw [hth, hcreated, Threads.total_cons, hcreating, Nat.zero_add, h.creating]
  · intro hclosed
    rw [hcreated] at hclosed
    obtain ⟨hq, hnone⟩ := h.opened hclosed
    rw [hth, htp, Threads.total_cons]
    rcases hadding with hadding | hadding
    · exact ⟨hq, by rw [hadding, hnone]⟩
    · rw [hclosed] at hadding
      cases hadding
  · intro hq
    rw [hth, Threads.total_cons]
    rw [htp] at hq
    have hserved := h.staff hq
    dsimp only
    omega

/-- A call of `check_queue` returns. -/
theorem Staffed.back {k : Caller} (h : s.Staffed m) (hpc : s.threads.pcOf t = some (.spawn k 0)) :
    (s.back t k).Staffed m := by
  have htotal := Threads.total_goto h.tids hpc Point.staff (s.tp.back k)
  have hone := h.creating
  have hcre := Threads.le_total (Threads.mem_of_pcOf hpc) Point.creating
  have hpoint : (s.tp.back k).caller = none ∧ (s.tp.back k).shut = 0 := by
    cases k with
    | idled idleSec =>
      rw [ThreadPool.back]
      split_ifs <;> exact ⟨rfl, rfl⟩
    | _ => exact ⟨rfl, rfl⟩
  have hspawn : (Point.spawn k 0).staff = k.worker := by
    simp [Point.staff, Point.live, Point.pending, Point.settled, Point.starting, Point.running,
      Point.dying]
  have hback : k.worker ≤ (s.tp.back k).staff := by
    rw [Point.staff, Point.live, ThreadPool.running_back, ThreadPool.dying_back]
    omega
  refine h.step hpc rfl ⟨rfl, rfl, rfl⟩ hpoint.2 ?_ ?_ ?_ ?_ ?_ ?_
  · rw [ThreadPool.running_back]
    exact fun n hn => hn
  · rw [ThreadPool.dying_back]
    exact fun n hn => hn
  · rw [ThreadPool.counted_back]
    exact fun n hn => hn
  · have hnone : (s.tp.back k).creating = 0 := by rw [Point.creating, hpoint.1]; rfl
    rw [hnone]
    by_cases hk : k = .create
    · subst hk
      have hpc : Point.creating (.spawn .create 0) = 1 := rfl
      dsimp only at hcre
      rw [hpc] at hcre ⊢
      have hfalse : s.created.toNat = 0 := by omega
      rw [hfalse, TPSys.back, decide_eq_true rfl, Bool.or_true]
      rfl
    · have hpc : Point.creating (.spawn k 0) = 0 := if_neg fun heq => hk (Option.some.inj heq)
      rw [hpc, TPSys.back, decide_eq_false hk, Bool.or_false]
  · intro hclosed
    have hnone : (s.tp.back k).adding = 0 := by rw [Point.adding, hpoint.1]; rfl
    rw [hnone]
    exact ⟨(Bool.or_eq_false_iff.1 hclosed).1, Nat.zero_le _, .inl le_rfl⟩
  · intro hq
    have hserved := h.staff hq
    exact (show 0 < m + (s.threads.goto t (s.tp.back k)).total Point.staff by omega)

end TPSys

namespace ThreadPool

variable {tp : ThreadPool}

theorem need_nonneg (hmin : tp.min < 2 ^ 31) (adding : Bool) : 0 ≤ tp.need adding := by
  have hzero : 0 ≤ if tp.threadCount < tp.min then toInt32 (sub32 tp.min tp.threadCount) else 0 := by
    split_ifs with hfew
    · rw [sub32_of_le hfew.le (by omega), toInt32_of_lt (by omega)]
      exact Int.natCast_nonneg _
    · exact le_rfl
  rw [need]
  split_ifs at hzero ⊢ <;> omega

/-- If no thread is needed for a new job, the counters differ. -/
theorem need_of_none (hmin : tp.min < 2 ^ 31) (hmax : 1 ≤ tp.max) (h : tp.need true = 0) :
    tp.runningThreadCount ≠ tp.dyingThreadCount ∨ tp.threadCount ≠ tp.dyingThreadCount := by
  have hself (n : ℕ) : sub32 n n = 0 := by
    rw [sub32, Nat.add_sub_cancel_left, Nat.mod_self]
  by_contra hsame
  rw [not_or, not_ne_iff, not_ne_iff] at hsame
  obtain ⟨hrunning, hcount⟩ := hsame
  have hone : add32 0 1 = 1 := add32_of_lt (by decide)
  rw [need, hrunning, hcount, hself, hone] at h
  by_cases hfew : tp.dyingThreadCount < tp.min
  · have hzero : toInt32 (sub32 tp.min tp.dyingThreadCount) ≠ 0 := by
      rw [sub32_of_le hfew.le (by omega), toInt32_of_lt (by omega)]
      omega
    rw [if_pos hfew, if_neg fun hadd => hzero hadd.2.1] at h
    exact hzero h
  · rw [if_neg hfew, if_pos ⟨rfl, rfl, Nat.zero_le _, hmax⟩] at h
    cases h

theorem add32_ofInt32 {n : ℤ} (h : 0 ≤ n) (a : ℕ) :
    add32 (toUInt32 a) (ofInt32 n) = toUInt32 (a + n.toNat) := by
  unfold add32 toUInt32 ofInt32
  omega

end ThreadPool

namespace TPSys

variable {s s' : TPSys} {m m' t : ℕ} {pc pc' : Point} {a : Act}

/-- A pool whose counters differ has a thread that is alive, or one to come. -/
theorem Staffed.live_or_reserved (h : s.Staffed 0)
    (hne : s.tp.runningThreadCount ≠ s.tp.dyingThreadCount ∨
      s.tp.threadCount ≠ s.tp.dyingThreadCount) :
    0 < s.threads.total fun pc => pc.live + pc.reserved := by
  have hcounted : s.threads.total Point.counted =
      s.threads.total Point.dying + s.threads.total fun pc => pc.live + pc.reserved := by
    rw [← Threads.total_add]
    congr 1
    funext pc
    exact pc.counted_eq
  have hlive : s.threads.total Point.live + s.threads.total Point.dying =
      s.threads.total Point.starting + s.threads.total Point.running := by
    rw [← Threads.total_add, ← Threads.total_add]
    congr 1
    funext pc
    exact pc.live_add_dying
  have hsum := Threads.total_add Point.live Point.reserved s.threads
  have hle : s.threads.total Point.dying ≤ s.threads.total Point.running :=
    Threads.total_mono (fun pc => (Nat.le_add_left ..).trans pc.busy_add_dying_le) _
  by_contra hzero
  rcases hne with hne | hne
  · refine hne ?_
    rw [h.running, h.dying]
    congr 1
    omega
  · refine hne ?_
    rw [h.count, h.dying]
    congr 1
    omega

/-- Once the pool is created, a thread that is alive, or to come, is one to serve a job. -/
theorem total_staff_pos (hcreating : s.threads.total Point.creating = 0)
    (hpos : 0 < s.threads.total fun pc => pc.live + pc.reserved) :
    0 < s.threads.total Point.staff := by
  by_contra hnone
  have hstaff := Threads.total_eq_zero_iff.1 (Nat.eq_zero_of_not_pos hnone)
  have hcreate := Threads.total_eq_zero_iff.1 hcreating
  refine Nat.ne_of_gt hpos (Threads.total_eq_zero_iff.2 fun th hth => ?_)
  have hs := hstaff th hth
  have hc := hcreate th hth
  have hreserved : th.pc.reserved = 0 := by
    by_contra hr
    have hp := Point.reserved_pos (Nat.pos_of_ne_zero hr)
    omega
  rw [Point.staff] at hs
  omega

/-- `check_queue` looks whether threads are needed. -/
theorem Staffed.reap {k : Caller} (h : s.Staffed 0)
    (hpc : s.threads.pcOf t = some (.reap k)) (hdead : s.tp.threadDieHash = [])
    (hstep : s.advance t (.reap k) = some s') : s'.Staffed 0 := by
  have hmem := Threads.mem_of_pcOf hpc
  have hnonneg := ThreadPool.need_nonneg h.min k.adding
  have htotal (f : Point → ℕ) :=
    Threads.total_goto h.tids hpc f (.spawn k (s.tp.need k.adding).toNat)
  have hone := h.creating
  have hcreating := Threads.le_total hmem Point.creating
  have hadding := Threads.le_total hmem Point.adding
  rw [TPSys.advance, hdead] at hstep
  cases hstep
  refine h.step hpc rfl ⟨rfl, rfl, rfl⟩ rfl (fun n hn => hn) (fun n hn => hn) ?_ rfl
    (fun hclosed => ⟨hclosed, le_rfl, .inl le_rfl⟩) ?_
  · intro n hn
    rw [threadCount_count, hn, ThreadPool.add32_ofInt32 hnonneg]
    congr 1
    simp only [Point.counted, Point.running, Point.starting, Point.reserved]
    omega
  · intro hq
    rw [Nat.zero_add]
    have hcreated : s.created = true := by
      rw [← Bool.not_eq_false]
      intro hclosed
      exact Nat.ne_of_gt hq (h.opened hclosed).1
    rw [hcreated, Bool.toNat_true] at hone
    have hstays {f : Point → ℕ} (hf : 0 < f (.spawn k (s.tp.need k.adding).toNat)) :
        0 < (s.threads.goto t (.spawn k (s.tp.need k.adding).toNat)).total f := by
      have heq := htotal f
      have hle := Threads.le_total hmem f
      dsimp only at hle
      omega
    -- A worker stays staff itself; `add_job` has counted its job, and either starts a worker or
    -- found one.
    cases k with
    | popped => exact hstays (f := Point.staff) (Nat.add_pos_left Nat.one_pos _)
    | idled idleSec => exact hstays (f := Point.staff) (Nat.add_pos_left Nat.one_pos _)
    | create =>
      have hone' : Point.creating (.reap .create) = 1 := rfl
      dsimp only at hcreating
      omega
    | addJob =>
      rcases hnonneg.eq_or_lt' with hnone | hneed
      · rw [show (s.tp.need Caller.addJob.adding).toNat = 0 by rw [hnone]; rfl] at htotal ⊢
        refine total_staff_pos ?_ ?_
        · have heq : _ + 0 = _ + 0 := htotal Point.creating
          exact (show (s.threads.goto t _).total Point.creating = 0 by omega)
        · have hpos := h.live_or_reserved (ThreadPool.need_of_none h.min h.max hnone)
          have heq : _ + 0 = _ + 0 := htotal fun pc => pc.live + pc.reserved
          exact (show 0 < (s.threads.goto t _).total fun pc => pc.live + pc.reserved by omega)
      · obtain ⟨n, hn⟩ : ∃ n, (s.tp.need Caller.addJob.adding).toNat = n + 1 :=
          Nat.exists_eq_add_one.2 (Int.lt_toNat.2 hneed)
        refine hstays (f := Point.staff) ?_
        rw [hn]
        exact Nat.one_pos

theorem Staffed.start (h : s.Staffed m) (hpc : s.threads.pcOf t = some .start)
    (hth : s'.threads = s.threads.goto t (.loop 0))
    (htp : s'.tp = { s.tp with runningThreadCount := incr32 s.tp.runningThreadCount })
    (hcreated : s'.created = s.created) : s'.Staffed m := by
  have htotal := Threads.total_goto h.tids hpc Point.staff (.loop 0)
  have hstart : Point.staff .start = 1 := rfl
  have hloop : Point.staff (.loop 0) = 1 := rfl
  refine h.step hpc hth (htp ▸ ⟨rfl, rfl, rfl⟩) rfl ?_ ?_ ?_ (hcreated ▸ rfl)
    (fun hclosed => ⟨hcreated ▸ hclosed, le_rfl, .inl (htp ▸ le_rfl)⟩) ?_
  · intro n hn
    rw [htp, hn]
    exact incr32_toUInt32 n
  · rw [htp]
    exact fun n hn => hn
  · rw [htp]
    exact fun n hn => hn
  · intro hq
    rw [htp] at hq
    rw [hth]
    have hserved := h.staff hq
    omega

theorem Staffed.idle {idleSec : ℕ} (h : s.Staffed m)
    (hpc : s.threads.pcOf t = some (.idle idleSec))
    (hrelieved : s.tp.q = 0 ∨ 1 < s.threads.total Point.live ∨ 0 < s.threads.total Point.pending)
    (hth : s'.threads = s.threads.goto t (.leave true))
    (htp : s'.tp = { s.tp with dyingThreadCount := incr32 s.tp.dyingThreadCount })
    (hcreated : s'.created = s.created) : s'.Staffed m := by
  have htotal := Threads.total_goto h.tids hpc Point.staff (.leave true)
  have hidle : Point.staff (.idle idleSec) = 1 := rfl
  have hleave : Point.staff (.leave true) = 0 := rfl
  have hlive := Threads.le_total (Threads.mem_of_pcOf hpc) Point.live
  have hsum : s.threads.total Point.staff = _ := Threads.total_add Point.live Point.pending _
  refine h.step hpc hth (htp ▸ ⟨rfl, rfl, rfl⟩) rfl ?_ ?_ ?_ (hcreated ▸ rfl)
    (fun hclosed => ⟨hcreated ▸ hclosed, le_rfl, .inl (htp ▸ le_rfl)⟩) ?_
  · rw [htp]
    exact fun n hn => hn
  · intro n hn
    rw [htp, hn]
    exact incr32_toUInt32 n
  · rw [htp]
    exact fun n hn => hn
  · intro hq
    rw [htp] at hq
    rw [hth]
    have hone : Point.live (.idle idleSec) = 1 := rfl
    dsimp only at hlive hq
    omega

theorem Staffed.depart (h : s.Staffed m) (hpc : s.threads.pcOf t = some (.leave true))
    (hth : s'.threads = s.threads.goto t .record) (htp : s'.tp = s.tp.depart true)
    (hcreated : s'.created = s.created) : s'.Staffed m := by
  have htotal := Threads.total_goto h.tids hpc Point.staff .record
  have hleave : Point.staff (.leave true) = 0 := rfl
  refine h.step hpc hth (htp ▸ ⟨rfl, rfl, rfl⟩) rfl ?_ ?_ ?_ (hcreated ▸ rfl)
    (fun hclosed => ⟨hcreated ▸ hclosed, le_rfl, .inl (htp ▸ le_rfl)⟩) ?_
  · intro n hn
    rw [htp, ThreadPool.depart, hn]
    exact decr32_toUInt32 n
  · intro n hn
    rw [htp, ThreadPool.depart, if_pos rfl, hn]
    exact decr32_toUInt32 n
  · intro n hn
    rw [htp, ThreadPool.depart, hn]
    exact decr32_toUInt32 (m + n)
  · intro hq
    rw [htp] at hq
    rw [hth]
    have hserved := h.staff hq
    omega

/-- A step of a thread that takes it by itself. -/
theorem Staffed.advance (h : s.Staffed 0) (hpc : s.threads.pcOf t = some pc)
    (hrelieved : s.Relieved (.run t)) (hstep : s.advance t pc = some s') : s'.Staffed 0 := by
  have hup := h.up
  have hshut := h.shut _ (Threads.mem_of_pcOf hpc)
  cases pc with
  -- A job comes with its caller, who is about to look whether it needs a thread.
  | push =>
    rw [TPSys.advance] at hstep
    split_ifs at hstep
    cases hstep
    exact h.move hpc rfl ⟨_, _, _, _, rfl⟩ rfl rfl rfl rfl rfl rfl rfl (.inr (by decide))
  | check k =>
    obtain ⟨-, rfl⟩ := taking_eq_some.1 hstep
    rw [if_pos hup]
    exact h.move hpc rfl ⟨_, _, _, _, rfl⟩ rfl rfl rfl rfl rfl rfl rfl (.inl ⟨le_rfl, le_rfl⟩)
  | cleanup k =>
    obtain ⟨-, rfl⟩ := taking_eq_some.1 hstep
    exact h.move hpc rfl ⟨_, _, _, _, rfl⟩ rfl rfl rfl rfl rfl rfl rfl (.inl ⟨le_rfl, le_rfl⟩)
  -- Where threads are counted, somebody is found to serve the queue.
  | reap k =>
    cases hdead : s.tp.threadDieHash with
    | nil => exact h.reap hpc hdead hstep
    | cons key keys =>
      rw [TPSys.advance, hdead] at hstep
      cases hstep
      exact h.move hpc rfl ⟨_, _, _, _, rfl⟩ rfl rfl rfl rfl rfl rfl rfl (.inl ⟨le_rfl, le_rfl⟩)
  | join k key =>
    rw [TPSys.advance] at hstep
    split_ifs at hstep
    cases hstep
    exact h.move hpc rfl ⟨_, _, _, _, rfl⟩ rfl rfl rfl rfl rfl rfl rfl (.inl ⟨le_rfl, le_rfl⟩)
  | unhash k key =>
    obtain ⟨-, rfl⟩ := taking_eq_some.1 hstep
    exact h.move hpc rfl ⟨_, _, _, _, rfl⟩ rfl rfl rfl rfl rfl rfl rfl (.inl ⟨le_rfl, le_rfl⟩)
  | spawn k need =>
    cases need with
    | zero =>
      cases hstep
      exact h.back hpc
    | succ need =>
      obtain ⟨-, rfl⟩ := taking_eq_some.1 hstep
      rw [if_pos hup]
      exact h.move hpc rfl ⟨_, _, _, _, rfl⟩ rfl rfl rfl rfl rfl rfl rfl (.inl ⟨le_rfl, le_rfl⟩)
  | launch k need => cases hstep
  -- The points of a pool that is shut down, or out of threads, are not come to.
  | cancel k need => cases hshut
  | uncount k need => cases hshut
  | hash k need key =>
    obtain ⟨-, rfl⟩ := taking_eq_some.1 hstep
    have hstaff : (Point.hash k need key).staff ≤ (Point.spawn k need).staff := by
      cases need <;> exact le_rfl
    exact h.move hpc rfl ⟨_, _, _, _, rfl⟩ rfl rfl rfl rfl rfl rfl rfl (.inl ⟨le_rfl, hstaff⟩)
  | start =>
    obtain ⟨-, rfl⟩ := taking_eq_some.1 hstep
    exact h.start hpc rfl rfl rfl
  | loop idleSec =>
    rw [TPSys.advance, if_pos hup] at hstep
    cases hstep
    exact h.move hpc rfl ⟨_, _, _, _, rfl⟩ rfl rfl rfl rfl rfl rfl rfl (.inl ⟨le_rfl, le_rfl⟩)
  | pop idleSec =>
    rw [TPSys.advance] at hstep
    split_ifs at hstep
    · cases hstep
      exact h.move hpc rfl ⟨_, _, _, _, rfl⟩ rfl rfl rfl rfl rfl rfl rfl
        (.inl ⟨Nat.sub_le .., le_rfl⟩)
    · cases hstep
      exact h.move hpc rfl ⟨_, _, _, _, rfl⟩ rfl rfl rfl rfl rfl rfl rfl (.inl ⟨le_rfl, le_rfl⟩)
  | wait idleSec =>
    rw [TPSys.advance, if_pos hup] at hstep
    split_ifs at hstep
    · cases hstep
      exact h.move hpc rfl ⟨_, _, _, _, rfl⟩ rfl rfl rfl rfl rfl rfl rfl
        (.inl ⟨Nat.sub_le .., le_rfl⟩)
    · cases hstep
      exact h.move hpc rfl ⟨_, _, _, _, rfl⟩ rfl rfl rfl rfl rfl rfl rfl (.inl ⟨le_rfl, le_rfl⟩)
  -- A worker dies only if another one is left, by `hrelieved`.
  | idle idleSec =>
    obtain ⟨-, rfl⟩ := taking_eq_some.1 hstep
    have hidling : (s.threads.pcOf t).any Point.idling := by
      rw [hpc]
      rfl
    split_ifs with hdisp
    · exact h.idle hpc (hrelieved hidling hdisp) rfl rfl rfl
    · exact h.move hpc rfl ⟨_, _, _, _, rfl⟩ rfl rfl rfl rfl rfl rfl rfl (.inl ⟨le_rfl, le_rfl⟩)
  | engage =>
    obtain ⟨-, rfl⟩ := taking_eq_some.1 hstep
    exact h.move hpc rfl ⟨_, _, _, _, rfl⟩ rfl rfl rfl rfl rfl rfl rfl (.inl ⟨le_rfl, le_rfl⟩)
  | work =>
    obtain ⟨-, rfl⟩ := taking_eq_some.1 hstep
    exact h.move hpc rfl ⟨_, _, _, _, rfl⟩ rfl rfl rfl rfl rfl rfl rfl (.inl ⟨le_rfl, le_rfl⟩)
  | leave die =>
    obtain ⟨-, rfl⟩ := taking_eq_some.1 hstep
    cases die with
    | false => cases hshut
    | true => exact h.depart hpc rfl rfl rfl
  | record =>
    obtain ⟨-, rfl⟩ := taking_eq_some.1 hstep
    exact h.move hpc rfl ⟨_, _, _, _, rfl⟩ rfl rfl rfl rfl rfl rfl rfl (.inl ⟨le_rfl, le_rfl⟩)
  | ended => cases hstep
  | returned => cases hstep
  | down => cases hshut
  | destroy => cases hshut
  | joinAll => cases hshut
  | joinOne key => cases hshut

/-- A step of a pool that is not disturbed. -/
theorem Staffed.next (h : s.Staffed 0) (hact : a.undisturbed) (hrelieved : s.Relieved a)
    (hstep : s.next a = some s') : s'.Staffed 0 := by
  cases a with
  | addJob t =>
    rw [TPSys.next] at hstep
    split_ifs at hstep with hcreated
    rw [TPSys.enter] at hstep
    split_ifs at hstep with ht
    cases hstep
    exact Staffed.enter h ht (rfl : _ = ⟨t, .push⟩ :: s.threads) rfl rfl rfl rfl rfl rfl
      (.inr hcreated)
      (Nat.zero_le _)
  | destroy t => cases hact
  | run t =>
    obtain ⟨pc, hpc, hstep⟩ := Option.bind_eq_some_iff.1 hstep
    exact h.advance hpc hrelieved hstep
  | launch t key =>
    rw [TPSys.next] at hstep
    split at hstep
    · rename_i k need hpc
      obtain ⟨s₁, hs₁, rfl⟩ := Option.map_eq_some_iff.1 hstep
      rw [TPSys.enter] at hs₁
      split_ifs at hs₁ with hkey
      cases hs₁
      have hne : key ≠ t := by
        rintro rfl
        exact hkey (List.mem_map_of_mem (Threads.mem_of_pcOf hpc))
      -- The thread gives up what it has reserved, before the new one comes to stand for it.
      have hgoto : (s.goto t (.hash k need key)).Staffed (0 + Point.counted .start) := by
        refine h.step hpc rfl ⟨rfl, rfl, rfl⟩ rfl (fun n hn => hn) (fun n hn => hn) ?_ rfl
          (fun hclosed => ⟨hclosed, le_rfl, .inl le_rfl⟩) fun _ => Nat.add_pos_left Nat.one_pos _
        intro n hn
        rw [goto, hn]
        congr 1
        simp only [Point.counted, Point.running, Point.starting, Point.reserved]
        omega
      refine hgoto.enter ?_ (Threads.goto_cons hne) rfl rfl rfl rfl rfl rfl (.inl rfl) le_rfl
      rwa [goto, Threads.tids_goto h.tids hpc]
    · cases hstep
  | fail t => cases hact
  | timeOut t =>
    rw [TPSys.next] at hstep
    split at hstep
    · rename_i idleSec hpc
      cases hstep
      exact h.move hpc rfl ⟨_, _, _, _, rfl⟩ rfl rfl rfl rfl rfl rfl rfl (.inl ⟨le_rfl, le_rfl⟩)
    · cases hstep

theorem create_staffed {min max idleSec : ℕ} (hmin : min < 2 ^ 31) (hmax : 1 ≤ max) :
    (create min max idleSec).Staffed 0 := by
  refine ⟨List.nodup_singleton 0, hmin, hmax, rfl, ?_, ?_, ?_, ?_, rfl, fun _ => ⟨rfl, rfl⟩, ?_⟩
  · intro th hth
    cases List.mem_singleton.1 hth
    rfl
  · exact toUInt32_zero.symm
  · exact toUInt32_zero.symm
  · exact toUInt32_zero.symm
  · exact fun hq => absurd hq (lt_irrefl 0)

/-- In a run of an undisturbed pool where a worker that decides to die leaves no job behind,
    or somebody to serve it, no job is stranded in any state. -/
theorem always_served {min max idleSec : ℕ} {as : List Act} (hmin : min < 2 ^ 31)
    (hmax : 1 ≤ max) (hact : ∀ a ∈ as, a.undisturbed)
    (hrelieved : Along (blocking next) Relieved (create min max idleSec) as) :
    Always (blocking next) Served (create min max idleSec) as := by
  refine Always.of_along (J := fun s => s.Staffed 0) (fun s h => h.served) ?_
    (create_staffed hmin hmax) (hrelieved.and_of_forall hact)
  rintro s a s' h ⟨hact, hrelieved⟩ hstep
  exact h.next hact hrelieved hstep

/-- A worker dies while another one does a job. -/
theorem always_served_relieved :
    Always (blocking next) Served (create 1 2 0) [.run 0, .run 0, .run 0, .run 0, .launch 0 1,
      .run 0, .run 0, .run 1, .addJob 2, .run 2, .run 2, .run 2, .run 2, .run 2, .launch 2 3,
      .run 2, .run 2, .run 1, .run 1, .run 1, .run 1, .run 1, .run 1, .run 1, .run 3, .run 3,
      .run 3, .timeOut 3, .run 3, .run 3, .run 3, .run 3, .run 1, .run 3, .run 3, .run 3] :=
  always_served (by decide) (by decide) (by decide) (by decide +kernel)

/-- The only worker decides to die after a call has found it to be enough for its job. -/
theorem not_always_served :
    ¬∀ min max idleSec as, min ≤ max → 1 ≤ max → max < 2 ^ 32 → (∀ a ∈ as, Act.undisturbed a) →
      Always (blocking next) Served (create min max idleSec) as := by
  intro h
  have hrun := h 0 1 0 [.run 0, .run 0, .run 0, .run 0, .addJob 1, .run 1, .run 1, .run 1, .run 1,
    .run 1, .launch 1 2, .run 1, .run 1, .run 2, .run 2, .run 2, .run 2, .run 2, .run 2, .run 2,
    .run 2, .run 2, .run 2, .run 2, .timeOut 2, .run 2, .run 2, .run 2, .run 2, .addJob 3, .run 3,
    .run 3, .run 3, .run 3, .run 3, .run 2] (by decide) (by decide) (by decide) (by decide)
  have hend : okAnd (fun r => decide (r.2.threads.total Point.adding = 0 ∧ 0 < r.2.tp.q ∧
      r.2.threads.total Point.live = 0))
      (calls (blocking next) (create 0 1 0) [.run 0, .run 0, .run 0, .run 0, .addJob 1, .run 1,
        .run 1, .run 1, .run 1, .run 1, .launch 1 2, .run 1, .run 1, .run 2, .run 2, .run 2,
        .run 2, .run 2, .run 2, .run 2, .run 2, .run 2, .run 2, .run 2, .timeOut 2, .run 2,
        .run 2, .run 2, .run 2, .addJob 3, .run 3, .run 3, .run 3, .run 3, .run 3, .run 2]) =
      true := by
    decide +kernel
  obtain ⟨⟨os, s⟩, hcalls, hlast⟩ := okAnd_iff.1 hend
  obtain ⟨hadding, hq, hlive⟩ := of_decide_eq_true hlast
  exact Nat.ne_of_gt (hrun.last hcalls hadding hq) hlive

end TPSys

end Libks
