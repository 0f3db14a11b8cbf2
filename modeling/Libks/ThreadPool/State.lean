import Libks.Base.Calls
import Libks.Base.Threads
import Libks.Base.Word

/-!
# Thread pools

A `ks_thread_pool_t` and the threads that run in it: its workers, the callers of
`ks_thread_pool_add_job`, the thread that creates it, and the one that destroys it.
Each thread has come to a point of its function, where it takes a lock, joins a
thread, or reads the state of the pool. What it does there, up to the next such
point, is one step: if it gives up the lock again, the whole section is, and if it
takes another lock while it holds the first, the step ends in front of that one. A
thread that waits for a lock that is held, or for a thread that has not ended, can
take no step.

Jobs are counted, and nothing is known of them but that they end. The locks that
protect the queue, and the memory pool, are never held while another one is taken,
and are left out. A wait for a job may end at any time, with or without a job.
-/

namespace Libks

open Base

/-- `TP_MAX_QLEN`. -/
def tpMaxQlen : ℕ := 1024

/-- `struct ks_thread_pool_s`, with the number of jobs in its queue. Threads are named
    by numbers. -/
structure ThreadPool where
  min : ℕ
  max : ℕ
  idleSec : ℕ
  q : ℕ := 0
  threadCount : ℕ := 0
  busyThreadCount : ℕ := 0
  runningThreadCount : ℕ := 0
  dyingThreadCount : ℕ := 0
  threadHash : List ℕ := []
  threadDieHash : List ℕ := []
  /-- Whether the state is `TP_STATE_RUNNING`. -/
  running : Bool := true

/-- Who has called `check_queue`: `ks_thread_pool_add_job`, `ks_thread_pool_create`, or a
    worker that has popped a job, or whose pop has timed out. -/
inductive Caller
  | addJob
  | create
  | popped
  | idled (idleSec : ℕ)
  deriving DecidableEq, Repr

/-- The value of `adding`. -/
def Caller.adding : Caller → Bool
  | .addJob => true
  | _ => false

/-- The points that a thread may have come to. -/
inductive Point
  /-- `ks_q_push`. -/
  | push
  /-- `check_queue`, where it takes `mutex`. -/
  | check (k : Caller)
  /-- `cleanup_threads`, where it takes the lock of `thread_die_hash`. -/
  | cleanup (k : Caller)
  /-- Its loop. -/
  | reap (k : Caller)
  /-- `ks_thread_join` in it. -/
  | join (k : Caller) (key : ℕ)
  /-- Where it takes the lock of `thread_hash`. -/
  | unhash (k : Caller) (key : ℕ)
  /-- The loop of `check_queue`, where it takes `state_mutex`. -/
  | spawn (k : Caller) (need : ℕ)
  /-- `ks_thread_create_ex` in it. -/
  | launch (k : Caller) (need : ℕ)
  /-- Where it takes `mutex` in a pool that does not run any more. -/
  | cancel (k : Caller) (need : ℕ)
  /-- Where it takes `mutex` for a thread that could not be created. -/
  | uncount (k : Caller) (need : ℕ)
  /-- Where it takes the lock of `thread_hash` for a new thread. -/
  | hash (k : Caller) (need key : ℕ)
  /-- `worker_thread`, where it takes `mutex` for the first time. -/
  | start
  /-- Its loop. -/
  | loop (idleSec : ℕ)
  /-- `ks_q_pop_timeout`. -/
  | pop (idleSec : ℕ)
  /-- The wait in it. -/
  | wait (idleSec : ℕ)
  /-- Where the worker takes `mutex` to find out whether it is to die. -/
  | idle (idleSec : ℕ)
  /-- Where it takes `mutex` in front of a job. -/
  | engage
  /-- The job, and where the worker takes `mutex` behind it. -/
  | work
  /-- Where the worker takes `mutex` behind the loop. -/
  | leave (die : Bool)
  /-- Where it takes the lock of `thread_die_hash`. -/
  | record
  /-- The end of a worker. -/
  | ended
  /-- The end of a call. -/
  | returned
  /-- `ks_thread_pool_destroy`, where it takes `state_mutex`. -/
  | down
  /-- Where it takes the lock of `thread_hash`. -/
  | destroy
  /-- Its loop. -/
  | joinAll
  /-- `ks_thread_join` in it. -/
  | joinOne (key : ℕ)
  deriving DecidableEq, Repr

namespace ThreadPool

/-- How many threads `check_queue` finds to be needed, as an `int`. -/
def need (tp : ThreadPool) (adding : Bool) : ℤ :=
  let need := if tp.threadCount < tp.min then toInt32 (sub32 tp.min tp.threadCount) else 0
  if adding = true ∧ need = 0 ∧
      sub32 tp.runningThreadCount tp.dyingThreadCount ≤ tp.busyThreadCount + tp.q ∧
      add32 (sub32 tp.threadCount tp.dyingThreadCount) 1 ≤ tp.max then
    need + 1
  else need

/-- The needed threads are counted. -/
def count (tp : ThreadPool) (need : ℤ) : ThreadPool :=
  { tp with threadCount := add32 tp.threadCount (ofInt32 need) }

/-- Whether a worker that has been idle for long enough is to die. -/
def Dispensable (tp : ThreadPool) : Prop :=
  0 < sub32 (sub32 tp.runningThreadCount tp.dyingThreadCount) tp.busyThreadCount ∧
    tp.min < tp.runningThreadCount

instance (tp : ThreadPool) : Decidable tp.Dispensable := inferInstanceAs (Decidable (_ ∧ _))

/-- Where the caller of `check_queue` goes on: a worker whose pop has timed out counts
    the time it has been idle. -/
def back (tp : ThreadPool) : Caller → Point
  | .addJob | .create => .returned
  | .popped => .engage
  | .idled idleSec =>
    if tp.idleSec ≤ incr32 idleSec / 10 then .idle (incr32 idleSec) else .loop (incr32 idleSec)

/-- The counters at the end of a worker. -/
def depart (tp : ThreadPool) (die : Bool) : ThreadPool :=
  { tp with
    runningThreadCount := decr32 tp.runningThreadCount
    threadCount := decr32 tp.threadCount
    dyingThreadCount := if die then decr32 tp.dyingThreadCount else tp.dyingThreadCount }

end ThreadPool

/-- A pool, the owners of its locks, and the threads that run in it. -/
structure TPSys where
  tp : ThreadPool
  stateMutex : Option ℕ := none
  mutex : Option ℕ := none
  hashLock : Option ℕ := none
  dieHashLock : Option ℕ := none
  threads : Threads Point
  /-- Whether `ks_thread_pool_create` has returned. -/
  created : Bool := false
  /-- Whether `ks_thread_pool_destroy` has been called. -/
  destroyed : Bool := false

namespace TPSys

/-- `ks_thread_pool_create`, up to `check_queue`. -/
def create (min max idleSec : ℕ) : TPSys :=
  { tp := { min, max, idleSec }, threads := [⟨0, .check .create⟩] }

/-- The thread `t` goes to another point. -/
def goto (s : TPSys) (t : ℕ) (pc : Point) : TPSys := { s with threads := s.threads.goto t pc }

/-- The thread `t` returns from `check_queue`. -/
def back (s : TPSys) (t : ℕ) (k : Caller) : TPSys :=
  { s.goto t (s.tp.back k) with created := s.created || k = .create }

/-- The thread `t` has ended. -/
def Ended (s : TPSys) (t : ℕ) : Prop := s.threads.pcOf t = some .ended

instance (s : TPSys) : DecidablePred s.Ended := fun _ => inferInstanceAs (Decidable (_ = _))

/-- A step that takes a lock, if nobody holds it. -/
def taking (lock : Option ℕ) (s : TPSys) : Option TPSys := if lock = none then some s else none

theorem taking_eq_some {lock : Option ℕ} {r s' : TPSys} :
    taking lock r = some s' ↔ lock = none ∧ r = s' := by
  rw [taking]
  split_ifs with h
  · rw [Option.some_inj, and_iff_right h]
  · exact iff_of_false (fun h' => by cases h') fun h' => h h'.1

/-- A step of the thread `t` from the point `pc`, if it can take one by itself.

    The hashes are gone through from the newest thread to the oldest one, and not by the
    hash of a key. All that the loops need is that the thread they take stands in the hash,
    and all that they leave is that it is taken out.

    A push that has been woken and finds the queue full again gives up, with
    `KS_STATUS_BREAK`, and the job is lost; here it waits on. `ks_thread_pool_add_job`
    does not look at the status, and goes on to `check_queue` with the counters and the locks
    as they are behind a push that has succeeded. -/
def advance (s : TPSys) (t : ℕ) : Point → Option TPSys
  | .push =>
    if s.tp.q < tpMaxQlen then
      some { s.goto t (.check .addJob) with tp := { s.tp with q := s.tp.q + 1 } }
    else none
  | .check k =>
    taking s.mutex <|
      if s.tp.running then { s.goto t (.cleanup k) with mutex := some t } else s.back t k
  | .cleanup k => taking s.dieHashLock { s.goto t (.reap k) with dieHashLock := some t }
  | .reap k =>
    match s.tp.threadDieHash with
    | key :: _ => some (s.goto t (.join k key))
    | [] =>
      let need := s.tp.need k.adding
      some { s.goto t (.spawn k need.toNat) with
        tp := s.tp.count need, mutex := none, dieHashLock := none }
  | .join k key =>
    if s.Ended key then
      some { s.goto t (.unhash k key) with
        tp := { s.tp with threadDieHash := s.tp.threadDieHash.erase key } }
    else none
  | .unhash k key =>
    taking s.hashLock
      { s.goto t (.reap k) with tp := { s.tp with threadHash := s.tp.threadHash.erase key } }
  | .spawn k 0 => some (s.back t k)
  | .spawn k (need + 1) =>
    taking s.stateMutex <|
      if s.tp.running then { s.goto t (.launch k need) with stateMutex := some t }
      else { s.goto t (.cancel k (need + 1)) with stateMutex := some t }
  | .launch _ _ => none
  | .cancel k need =>
    taking s.mutex
      { s.back t k with
        tp := { s.tp with threadCount := sub32 s.tp.threadCount need }, stateMutex := none }
  | .uncount k need =>
    taking s.mutex
      { s.goto t (.spawn k need) with
        tp := { s.tp with threadCount := decr32 s.tp.threadCount }, stateMutex := none }
  | .hash k need key =>
    taking s.hashLock
      { s.goto t (.spawn k need) with
        tp := { s.tp with threadHash := key :: s.tp.threadHash }, stateMutex := none }
  | .start =>
    taking s.mutex
      { s.goto t (.loop 0) with
        tp := { s.tp with runningThreadCount := incr32 s.tp.runningThreadCount } }
  | .loop idleSec => some (s.goto t (if s.tp.running then .pop idleSec else .leave false))
  | .pop idleSec =>
    if 0 < s.tp.q then
      some { s.goto t (.check .popped) with tp := { s.tp with q := s.tp.q - 1 } }
    else some (s.goto t (.wait idleSec))
  | .wait idleSec =>
    if 0 < s.tp.q then
      some { s.goto t (.check .popped) with tp := { s.tp with q := s.tp.q - 1 } }
    else some (s.goto t (if s.tp.running then .loop idleSec else .leave false))
  | .idle idleSec =>
    taking s.mutex <|
      if s.tp.Dispensable then
        { s.goto t (.leave true) with
          tp := { s.tp with dyingThreadCount := incr32 s.tp.dyingThreadCount } }
      else s.goto t (.loop idleSec)
  | .engage =>
    taking s.mutex
      { s.goto t .work with
        tp := { s.tp with busyThreadCount := incr32 s.tp.busyThreadCount } }
  | .work =>
    taking s.mutex
      { s.goto t (.loop 0) with
        tp := { s.tp with busyThreadCount := decr32 s.tp.busyThreadCount } }
  | .leave die =>
    taking s.mutex { s.goto t .record with tp := s.tp.depart die, mutex := some t }
  | .record =>
    taking s.dieHashLock
      { s.goto t .ended with
        tp := { s.tp with threadDieHash := t :: s.tp.threadDieHash }, mutex := none }
  | .ended => none
  | .returned => none
  | .down => taking s.stateMutex { s.goto t .destroy with tp := { s.tp with running := false } }
  | .destroy => taking s.hashLock { s.goto t .joinAll with hashLock := some t }
  | .joinAll =>
    match s.tp.threadHash with
    | key :: _ => some (s.goto t (.joinOne key))
    | [] => some { s.goto t .returned with hashLock := none }
  | .joinOne key =>
    if s.Ended key then
      some { s.goto t .joinAll with
        tp := { s.tp with threadHash := s.tp.threadHash.erase key } }
    else none

/-- The steps: a thread calls `ks_thread_pool_add_job` or `ks_thread_pool_destroy`, a thread
    takes a step, a thread is created or cannot be created, a wait times out. -/
inductive Act
  | addJob (t : ℕ)
  | destroy (t : ℕ)
  | run (t : ℕ)
  | launch (t key : ℕ)
  | fail (t : ℕ)
  | timeOut (t : ℕ)
  deriving DecidableEq, Repr

/-- A new thread. -/
def enter (s : TPSys) (t : ℕ) (pc : Point) : Option TPSys :=
  if t ∉ s.threads.tids then some { s with threads := ⟨t, pc⟩ :: s.threads } else none

/-- A step, if it can be taken. -/
def next (s : TPSys) : Act → Option TPSys
  | .addJob t => if s.created then s.enter t .push else none
  | .destroy t =>
    if s.created ∧ ¬s.destroyed then (s.enter t .down).map ({ · with destroyed := true }) else none
  | .run t => (s.threads.pcOf t).bind (s.advance t)
  | .launch t key =>
    match s.threads.pcOf t with
    | some (.launch k need) => (s.enter key .start).map (·.goto t (.hash k need key))
    | _ => none
  | .fail t =>
    match s.threads.pcOf t with
    | some (.launch k need) => some (s.goto t (.uncount k need))
    | _ => none
  | .timeOut t =>
    match s.threads.pcOf t with
    | some (.wait idleSec) => some (s.goto t (.check (.idled idleSec)))
    | _ => none

end TPSys

end Libks
