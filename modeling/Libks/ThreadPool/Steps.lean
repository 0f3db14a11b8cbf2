import Libks.Base.Locks
import Libks.ThreadPool.Counters

/-!
# The steps of a thread pool

What a step that a thread takes by itself does to the locks, to the counters of the running
and of the dying threads, to the hashes and to the state, whatever point it starts from
(`advance_effect`). What a step keeps is proved from this, by the points that matter to it:
those where a lock is held or a worker is at stake are come to from one or two others
only (`Leads`).

The counters count modulo `2 ^ 32`, and so they do in every run (`Moves.total`).
-/

namespace Libks

open Base

/-- The locks of a pool. -/
inductive Lock
  | state
  | mutex
  | hash
  | dieHash
  deriving DecidableEq, Repr

/-- A worker among the callers of `check_queue`. -/
def Caller.ofWorker : Caller → Bool
  | .popped | .idled _ => true
  | _ => false

namespace Point

/-- The locks that a thread holds. -/
def locks : Point → List Lock
  | .cleanup _ | .record => [.mutex]
  | .reap _ | .join _ _ | .unhash _ _ => [.mutex, .dieHash]
  | .launch _ _ | .cancel _ _ | .uncount _ _ | .hash _ _ _ => [.state]
  | .joinAll | .joinOne _ => [.hash]
  | _ => []

/-- A thread of the pool. -/
def ofWorker : Point → Bool
  | .check k | .cleanup k | .reap k | .join k _ | .unhash k _ => k.ofWorker
  | .spawn k _ | .launch k _ | .cancel k _ | .uncount k _ | .hash k _ _ => k.ofWorker
  | .push | .returned | .down | .destroy | .joinAll | .joinOne _ => false
  | _ => true

/-- The call of `ks_thread_pool_destroy`. -/
def destroying : Point → ℕ
  | .down | .destroy | .joinAll | .joinOne _ => 1
  | _ => 0

/-- A point outside of all locks, and of `ks_thread_pool_destroy`. -/
def quiet : Point → Bool
  | .push | .check _ | .spawn _ _ | .start | .loop _ | .pop _ | .wait _ | .idle _ => true
  | .engage | .work | .leave _ | .ended | .returned => true
  | _ => false

/-- A point where no worker is at stake, and which may be come to in any state of the pool. -/
def loose : Point → Bool
  | .cancel _ _ | .uncount _ _ | .record => true
  | pc => pc.quiet

/-- The worker that a thread in `cleanup_threads` is about to join. -/
def joining : Point → Option ℕ
  | .join _ key => some key
  | _ => none

/-- The worker that a thread in `cleanup_threads` is about to take out of `thread_hash`. -/
def unhashing : Point → Option ℕ
  | .unhash _ key => some key
  | _ => none

/-- The worker that a thread has created, and is about to put in `thread_hash`. -/
def hashing : Point → Option ℕ
  | .hash _ _ key => some key
  | _ => none

/-- What a step from this point makes of `thread_hash`. -/
def rehash : Point → List ℕ → List ℕ
  | .unhash _ key, keys => keys.erase key
  | .joinOne key, keys => keys.erase key
  | .hash _ _ key, keys => key :: keys
  | _, keys => keys

/-- What a step of the thread `t` from this point makes of `thread_die_hash`. -/
def redie (t : ℕ) : Point → List ℕ → List ℕ
  | .join _ key, keys => keys.erase key
  | .record, keys => t :: keys
  | _, keys => keys

/-- What a step from this point makes of the state of the pool, running or not. -/
def rerun : Point → Bool → Bool
  | .down, _ => false
  | _, running => running

theorem locks_of_quiet {pc : Point} (h : pc.quiet) : pc.locks = [] := by
  cases pc with
  | cleanup | reap | join | unhash | launch | cancel | uncount | hash | record | joinAll
    | joinOne => cases h
  | _ => rfl

theorem loose_of_quiet {pc : Point} (h : pc.quiet) : pc.loose := by
  cases pc with
  | cancel | uncount | record => rfl
  | _ => exact h

theorem destroying_of_loose {pc : Point} (h : pc.loose) : pc.destroying = 0 := by
  cases pc with
  | down | destroy | joinAll | joinOne => cases h
  | _ => rfl

theorem none_of_loose {pc : Point} (h : pc.loose) :
    pc.joining = none ∧ pc.unhashing = none ∧ pc.hashing = none := by
  cases pc with
  | join | unhash | hash => cases h
  | _ => exact ⟨rfl, rfl, rfl⟩

end Point

/-- What a step does to a counter of what threads hold. -/
def Moves (f : Point → ℕ) (pc pc' : Point) (c c' : ℕ) : Prop :=
  c' = c ∧ f pc' = f pc ∨ c' = incr32 c ∧ f pc' = f pc + 1 ∨ c' = decr32 c ∧ f pc = f pc' + 1

/-- The counter counts what the threads hold, modulo `2 ^ 32`. -/
theorem Moves.total {f : Point → ℕ} {pc pc' : Point} {c c' t : ℕ} {ths : Threads Point}
    (h : Moves f pc pc' c c') (hnd : ths.tids.Nodup) (hpc : ths.pcOf t = some pc)
    (hc : c = toUInt32 (ths.total f)) : c' = toUInt32 ((ths.goto t pc').total f) := by
  have htotal := Threads.total_goto hnd hpc f pc'
  rcases h with ⟨rfl, hf⟩ | ⟨rfl, hf⟩ | ⟨rfl, hf⟩
  · rw [hc]
    congr 1
    omega
  · rw [hc, incr32_toUInt32]
    congr 1
    omega
  · have hle := Threads.le_total (Threads.mem_of_pcOf hpc) f
    dsimp only at hle
    obtain ⟨n, hn⟩ : ∃ n, ths.total f = n + 1 := ⟨ths.total f - 1, by omega⟩
    rw [hc, hn, decr32_toUInt32]
    congr 1
    omega

namespace TPSys

/-- The owner of a lock. -/
def owner (s : TPSys) : Lock → Option ℕ
  | .state => s.stateMutex
  | .mutex => s.mutex
  | .hash => s.hashLock
  | .dieHash => s.dieHashLock

/-- The ways to the points that are not loose, and the states of the pool in which they are
    gone. -/
inductive Leads (s : TPSys) : Point → Point → Prop
  | tidy {k : Caller} : s.tp.running → Leads s (.check k) (.cleanup k)
  | look {k : Caller} : Leads s (.cleanup k) (.reap k)
  | found {k : Caller} {key : ℕ} : key ∈ s.tp.threadDieHash → Leads s (.reap k) (.join k key)
  | joined {k : Caller} {key : ℕ} : s.Ended key → Leads s (.join k key) (.unhash k key)
  | unhashed {k : Caller} {key : ℕ} : Leads s (.unhash k key) (.reap k)
  | launch {k : Caller} {need : ℕ} :
    s.tp.running → Leads s (.spawn k (need + 1)) (.launch k need)
  | launched {k : Caller} {need key : ℕ} : Leads s (.launch k need) (.hash k need key)
  | down : Leads s .down .destroy
  | destroy : Leads s .destroy .joinAll
  | joinOne {key : ℕ} : key ∈ s.tp.threadHash → Leads s .joinAll (.joinOne key)
  | joinedOne {key : ℕ} : Leads s (.joinOne key) .joinAll
  | loose {pc pc' : Point} : pc'.loose → Leads s pc pc'

/-- What a step of the thread `t` from `pc` to `pc'` does. -/
structure Effect (s : TPSys) (t : ℕ) (pc : Point) (s' : TPSys) (pc' : Point) : Prop where
  threads : s'.threads = s.threads.goto t pc'
  leads : s.Leads pc pc'
  owner : ∀ l, s'.owner l = if l ∈ pc'.locks ↔ l ∈ pc.locks then s.owner l
    else if l ∈ pc'.locks then some t else none
  free : ∀ l ∈ pc'.locks, l ∈ pc.locks ∨ s.owner l = none
  min : s'.tp.min = s.tp.min
  running : Moves Point.running pc pc' s.tp.runningThreadCount s'.tp.runningThreadCount
  dying : Moves Point.dying pc pc' s.tp.dyingThreadCount s'.tp.dyingThreadCount
  hash : s'.tp.threadHash = pc.rehash s.tp.threadHash
  die : s'.tp.threadDieHash = pc.redie t s.tp.threadDieHash
  state : s'.tp.running = pc.rerun s.tp.running
  destroyed : s'.destroyed = s.destroyed
  /-- A thread of the pool stays one. -/
  worker : pc.ofWorker → pc'.ofWorker
  /-- A thread that has ended takes no step. -/
  alive : pc ≠ .ended
  /-- A worker that ends has put itself in `thread_die_hash`. -/
  ended : pc' = .ended ↔ pc = .record

variable {s s' : TPSys} {t : ℕ} {pc pc' : Point}

/-- Who is about to be joined has been found in `thread_die_hash`. -/
theorem Effect.joining (h : s.Effect t pc s' pc') (key : ℕ) (hkey : pc'.joining = some key) :
    key ∈ s'.tp.threadDieHash := by
  have hdie := h.die
  cases h.leads with
  | found hmem =>
    cases hkey
    exact hdie ▸ hmem
  | loose hloose =>
    rw [(Point.none_of_loose hloose).1] at hkey
    cases hkey
  | _ => cases hkey

/-- Who is about to be taken out of `thread_hash` has been joined. -/
theorem Effect.unhashing (h : s.Effect t pc s' pc') (key : ℕ) (hkey : pc'.unhashing = some key) :
    pc.joining = some key ∧ s.Ended key := by
  cases h.leads with
  | joined hended =>
    cases hkey
    exact ⟨rfl, hended⟩
  | loose hloose =>
    rw [(Point.none_of_loose hloose).2.1] at hkey
    cases hkey
  | _ => cases hkey

theorem Effect.destroying (h : s.Effect t pc s' pc') : pc'.destroying ≤ pc.destroying := by
  cases h.leads with
  | loose hloose =>
    rw [Point.destroying_of_loose hloose]
    exact Nat.zero_le _
  | _ => exact le_rfl

/-- A step outside of all locks. -/
theorem Effect.of_quiet (hth : s'.threads = s.threads.goto t pc') (hquiet : pc.quiet)
    (hquiet' : pc'.quiet) (howner : s'.owner = s.owner) (hmin : s'.tp.min = s.tp.min)
    (hrunning : Moves Point.running pc pc' s.tp.runningThreadCount s'.tp.runningThreadCount)
    (hdying : Moves Point.dying pc pc' s.tp.dyingThreadCount s'.tp.dyingThreadCount)
    (hhash : s'.tp.threadHash = s.tp.threadHash) (hdie : s'.tp.threadDieHash = s.tp.threadDieHash)
    (hstate : s'.tp.running = s.tp.running) (hdestroyed : s'.destroyed = s.destroyed)
    (hworker : pc.ofWorker → pc'.ofWorker) (halive : pc ≠ .ended) (hended : pc' ≠ .ended) :
    s.Effect t pc s' pc' := by
  refine ⟨hth, .loose (Point.loose_of_quiet hquiet'), fun l => ?_, ?_, hmin, hrunning, hdying, ?_,
    ?_, ?_, hdestroyed, hworker, halive, iff_of_false hended ?_⟩
  · rw [howner, Point.locks_of_quiet hquiet, Point.locks_of_quiet hquiet', if_pos Iff.rfl]
  · rw [Point.locks_of_quiet hquiet']
    exact fun l hl => absurd hl List.not_mem_nil
  · rw [hhash]
    cases pc with
    | unhash | joinOne | hash => cases hquiet
    | _ => rfl
  · rw [hdie]
    cases pc with
    | join | record => cases hquiet
    | _ => rfl
  · rw [hstate]
    cases pc with
    | down => cases hquiet
    | _ => rfl
  · rintro rfl
    cases hquiet

/-- A thread gives up `state_mutex`, and nothing else. -/
theorem Effect.release (hth : s'.threads = s.threads.goto t pc') (hlocks : pc.locks = [.state])
    (hquiet : pc'.quiet) (howner : s'.stateMutex = none ∧ s'.mutex = s.mutex ∧
      s'.hashLock = s.hashLock ∧ s'.dieHashLock = s.dieHashLock)
    (htp : ∃ count, s'.tp = { s.tp with threadCount := count })
    (hrunning : pc'.running = pc.running) (hdying : pc'.dying = pc.dying)
    (hhash : pc.rehash = id) (hdie : pc.redie t = id) (hstate : pc.rerun = id)
    (hdestroyed : s'.destroyed = s.destroyed) (hworker : pc.ofWorker → pc'.ofWorker)
    (halive : pc ≠ .ended) (hended : pc' ≠ .ended) : s.Effect t pc s' pc' := by
  obtain ⟨count, htp⟩ := htp
  obtain ⟨hstateMutex, hmutex, hlock, hdieLock⟩ := howner
  have hnone := Point.locks_of_quiet hquiet
  refine ⟨hth, .loose (Point.loose_of_quiet hquiet), fun l => ?_, ?_, by rw [htp],
    .inl ⟨by rw [htp], hrunning⟩, .inl ⟨by rw [htp], hdying⟩, ?_, ?_, ?_, hdestroyed, hworker,
    halive, iff_of_false hended ?_⟩
  · rw [hnone, hlocks]
    cases l with
    | state => exact hstateMutex
    | mutex => exact hmutex
    | hash => exact hlock
    | dieHash => exact hdieLock
  · rw [hnone]
    exact fun l hl => absurd hl List.not_mem_nil
  · rw [htp, hhash, id]
  · rw [htp, hdie, id]
  · rw [htp, hstate, id]
  · rintro rfl
    cases hlocks

/-- A thread goes to another point, and nothing else happens. -/
theorem Effect.goto (hleads : s.Leads pc pc') (hlocks : pc'.locks = pc.locks)
    (hrunning : pc'.running = pc.running) (hdying : pc'.dying = pc.dying) (hhash : pc.rehash = id)
    (hdie : pc.redie t = id) (hstate : pc.rerun = id) (hworker : pc.ofWorker → pc'.ofWorker)
    (halive : pc ≠ .ended) (hended : pc' = .ended ↔ pc = .record) :
    s.Effect t pc (s.goto t pc') pc' := by
  refine ⟨rfl, hleads, fun l => ?_, ?_, rfl, .inl ⟨rfl, hrunning⟩, .inl ⟨rfl, hdying⟩, ?_, ?_, ?_,
    rfl, hworker, halive, hended⟩
  · rw [hlocks, if_pos Iff.rfl]
    rfl
  · rw [hlocks]
    exact fun l => .inl
  · rw [hhash]
    rfl
  · rw [hdie]
    rfl
  · rw [hstate]
    rfl

theorem mem_locks_singleton {l l' : Lock} (h : s.owner l' = none) (hl : l ∈ [l']) :
    l ∈ pc.locks ∨ s.owner l = none := by
  cases List.mem_singleton.1 hl
  exact .inr h

theorem quiet_back (tp : ThreadPool) (k : Caller) : (tp.back k).quiet := by
  cases k with
  | idled idleSec =>
    rw [ThreadPool.back]
    split_ifs <;> rfl
  | _ => rfl

theorem ofWorker_back (tp : ThreadPool) {k : Caller} (h : k.ofWorker) : (tp.back k).ofWorker := by
  cases k with
  | popped => rfl
  | idled idleSec =>
    rw [ThreadPool.back]
    split_ifs <;> rfl
  | _ => cases h

/-- Where a caller of `check_queue` goes on, no worker is at stake. -/
theorem back_ne_ended (tp : ThreadPool) (k : Caller) : tp.back k ≠ .ended := by
  cases k with
  | idled idleSec =>
    rw [ThreadPool.back]
    split_ifs <;> simp
  | _ => simp [ThreadPool.back]

/-- A thread returns from `check_queue`. -/
theorem Effect.back {k : Caller} (hth : s'.threads = s.threads.goto t (s.tp.back k))
    (hquiet : pc.quiet) (hsame : s'.tp = s.tp ∧ s'.owner = s.owner ∧ s'.destroyed = s.destroyed)
    (hrunning : k.worker = pc.running) (hdying : 0 = pc.dying)
    (hworker : pc.ofWorker → k.ofWorker) (halive : pc ≠ .ended) :
    s.Effect t pc s' (s.tp.back k) := by
  obtain ⟨htp, howner, hdestroyed⟩ := hsame
  refine .of_quiet hth hquiet (quiet_back _ _) howner (by rw [htp]) (.inl ⟨by rw [htp], ?_⟩)
    (.inl ⟨by rw [htp], ?_⟩) (by rw [htp]) (by rw [htp]) (by rw [htp]) hdestroyed
    (fun hw => ofWorker_back _ (hworker hw)) halive (back_ne_ended _ _)
  · exact ThreadPool.running_back.trans hrunning
  · exact ThreadPool.dying_back.trans hdying

theorem hashing_back (tp : ThreadPool) (k : Caller) : (tp.back k).hashing = none :=
  (Point.none_of_loose (Point.loose_of_quiet (quiet_back tp k))).2.2

/-- What a step of a thread does that it takes by itself. -/
theorem advance_effect (hstep : s.advance t pc = some s') :
    ∃ pc', s.Effect t pc s' pc' ∧ pc'.hashing = none := by
  -- A step that leaves the locks, the counters, the hashes and the state alone.
  have hquiet {pc' : Point} (hth : s'.threads = s.threads.goto t pc') (hpc : pc.quiet)
      (hpc' : pc'.quiet) (hsame : s'.owner = s.owner ∧ s'.destroyed = s.destroyed)
      (htp : ∃ q busy, s'.tp = { s.tp with q, busyThreadCount := busy })
      (hrunning : pc'.running = pc.running) (hdying : pc'.dying = pc.dying)
      (hworker : pc.ofWorker → pc'.ofWorker) (halive : pc ≠ .ended) (hended : pc' ≠ .ended) :
      ∃ pc', s.Effect t pc s' pc' ∧ pc'.hashing = none := by
    obtain ⟨q, busy, htp⟩ := htp
    exact ⟨pc', .of_quiet hth hpc hpc' hsame.1 (by rw [htp]) (.inl ⟨by rw [htp], hrunning⟩)
      (.inl ⟨by rw [htp], hdying⟩) (by rw [htp]) (by rw [htp]) (by rw [htp]) hsame.2 hworker
      halive hended, (Point.none_of_loose (Point.loose_of_quiet hpc')).2.2⟩
  -- The locks that are given up and taken can be read off the two points.
  cases pc with
  | push =>
    rw [advance] at hstep
    split_ifs at hstep
    cases hstep
    exact hquiet rfl rfl rfl ⟨rfl, rfl⟩ ⟨_, _, rfl⟩ rfl rfl (fun hw => hw) (by simp) (by simp)
  -- `check_queue`, up to the end of `cleanup_threads`
  | check k =>
    obtain ⟨hfree, rfl⟩ := taking_eq_some.1 hstep
    split_ifs with hrunning
    · exact ⟨.cleanup k, ⟨rfl, .tidy hrunning, fun l => by cases l <;> rfl,
        fun l => mem_locks_singleton hfree, rfl, .inl ⟨rfl, rfl⟩, .inl ⟨rfl, rfl⟩, rfl, rfl, rfl,
        rfl, fun hw => hw, by simp, by simp⟩, rfl⟩
    · exact ⟨_, .back rfl rfl ⟨rfl, rfl, rfl⟩ rfl rfl (fun hw => hw) (by simp), hashing_back _ _⟩
  | cleanup k =>
    obtain ⟨hfree, rfl⟩ := taking_eq_some.1 hstep
    refine ⟨.reap k, ⟨rfl, .look, fun l => by cases l <;> rfl, fun l hl => ?_, rfl,
      .inl ⟨rfl, rfl⟩, .inl ⟨rfl, rfl⟩, rfl, rfl, rfl, rfl, fun hw => hw, by simp, by simp⟩, rfl⟩
    rcases List.mem_cons.1 hl with rfl | hl
    · exact .inl (List.mem_singleton_self _)
    · cases List.mem_singleton.1 hl
      exact .inr hfree
  | reap k =>
    rw [advance] at hstep
    cases hdead : s.tp.threadDieHash with
    | nil =>
      rw [hdead] at hstep
      cases hstep
      exact ⟨.spawn k _, ⟨rfl, .loose rfl, fun l => by cases l <;> rfl,
        fun l hl => absurd hl List.not_mem_nil, rfl, .inl ⟨rfl, rfl⟩, .inl ⟨rfl, rfl⟩, rfl, rfl,
        rfl, rfl, fun hw => hw, by simp, by simp⟩, rfl⟩
    | cons key keys =>
      rw [hdead] at hstep
      cases hstep
      exact ⟨.join k key, .goto (.found (hdead ▸ List.mem_cons_self ..)) rfl rfl rfl rfl rfl rfl
        (fun hw => hw) (by simp) (by simp), rfl⟩
  | join k key =>
    rw [advance] at hstep
    split_ifs at hstep with hended
    cases hstep
    exact ⟨.unhash k key, ⟨rfl, .joined hended, fun l => by cases l <;> rfl, fun l => .inl, rfl,
      .inl ⟨rfl, rfl⟩, .inl ⟨rfl, rfl⟩, rfl, rfl, rfl, rfl, fun hw => hw, by simp, by simp⟩, rfl⟩
  | unhash k key =>
    obtain ⟨-, rfl⟩ := taking_eq_some.1 hstep
    exact ⟨.reap k, ⟨rfl, .unhashed, fun l => by cases l <;> rfl, fun l => .inl, rfl,
      .inl ⟨rfl, rfl⟩, .inl ⟨rfl, rfl⟩, rfl, rfl, rfl, rfl, fun hw => hw, by simp, by simp⟩, rfl⟩
  -- The loop of `check_queue`.
  | spawn k need =>
    cases need with
    | zero =>
      cases hstep
      exact ⟨_, .back rfl rfl ⟨rfl, rfl, rfl⟩ rfl rfl (fun hw => hw) (by simp), hashing_back _ _⟩
    | succ need =>
      obtain ⟨hfree, rfl⟩ := taking_eq_some.1 hstep
      split_ifs with hrunning
      · exact ⟨.launch k need, ⟨rfl, .launch hrunning, fun l => by cases l <;> rfl,
          fun l => mem_locks_singleton hfree, rfl, .inl ⟨rfl, rfl⟩, .inl ⟨rfl, rfl⟩, rfl, rfl, rfl,
          rfl, fun hw => hw, by simp, by simp⟩, rfl⟩
      · exact ⟨.cancel k (need + 1), ⟨rfl, .loose rfl, fun l => by cases l <;> rfl,
          fun l => mem_locks_singleton hfree, rfl, .inl ⟨rfl, rfl⟩, .inl ⟨rfl, rfl⟩, rfl, rfl, rfl,
          rfl, fun hw => hw, by simp, by simp⟩, rfl⟩
  | launch k need => cases hstep
  | cancel k need =>
    obtain ⟨-, rfl⟩ := taking_eq_some.1 hstep
    exact ⟨_, .release rfl rfl (quiet_back s.tp k) ⟨rfl, rfl, rfl, rfl⟩ ⟨_, rfl⟩
      ThreadPool.running_back ThreadPool.dying_back rfl rfl rfl rfl (ofWorker_back _) (by simp)
      (back_ne_ended _ _), hashing_back _ _⟩
  | uncount k need =>
    obtain ⟨-, rfl⟩ := taking_eq_some.1 hstep
    exact ⟨.spawn k need, .release rfl rfl rfl ⟨rfl, rfl, rfl, rfl⟩ ⟨_, rfl⟩ rfl rfl rfl rfl rfl
      rfl (fun hw => hw) (by simp) (by simp), rfl⟩
  | hash k need key =>
    obtain ⟨-, rfl⟩ := taking_eq_some.1 hstep
    exact ⟨.spawn k need, ⟨rfl, .loose rfl, fun l => by cases l <;> rfl,
      fun l hl => absurd hl List.not_mem_nil, rfl, .inl ⟨rfl, rfl⟩, .inl ⟨rfl, rfl⟩, rfl, rfl, rfl,
      rfl, fun hw => hw, by simp, by simp⟩, rfl⟩
  -- A worker.
  | start =>
    obtain ⟨-, rfl⟩ := taking_eq_some.1 hstep
    exact ⟨.loop 0, .of_quiet rfl rfl rfl rfl rfl (.inr (.inl ⟨rfl, rfl⟩)) (.inl ⟨rfl, rfl⟩) rfl rfl
      rfl rfl (fun hw => hw) (by simp) (by simp), rfl⟩
  | loop idleSec =>
    rw [advance] at hstep
    split_ifs at hstep
    · cases hstep
      exact hquiet rfl rfl rfl ⟨rfl, rfl⟩ ⟨_, _, rfl⟩ rfl rfl (fun hw => hw) (by simp) (by simp)
    · cases hstep
      exact hquiet rfl rfl rfl ⟨rfl, rfl⟩ ⟨_, _, rfl⟩ rfl rfl (fun hw => hw) (by simp) (by simp)
  | pop idleSec =>
    rw [advance] at hstep
    split_ifs at hstep
    · cases hstep
      exact hquiet rfl rfl rfl ⟨rfl, rfl⟩ ⟨_, _, rfl⟩ rfl rfl (fun hw => hw) (by simp) (by simp)
    · cases hstep
      exact hquiet rfl rfl rfl ⟨rfl, rfl⟩ ⟨_, _, rfl⟩ rfl rfl (fun hw => hw) (by simp) (by simp)
  | wait idleSec =>
    rw [advance] at hstep
    split_ifs at hstep
    · cases hstep
      exact hquiet rfl rfl rfl ⟨rfl, rfl⟩ ⟨_, _, rfl⟩ rfl rfl (fun hw => hw) (by simp) (by simp)
    · cases hstep
      exact hquiet rfl rfl rfl ⟨rfl, rfl⟩ ⟨_, _, rfl⟩ rfl rfl (fun hw => hw) (by simp) (by simp)
    · cases hstep
      exact hquiet rfl rfl rfl ⟨rfl, rfl⟩ ⟨_, _, rfl⟩ rfl rfl (fun hw => hw) (by simp) (by simp)
  | idle idleSec =>
    obtain ⟨-, rfl⟩ := taking_eq_some.1 hstep
    split_ifs
    · exact ⟨.leave true, .of_quiet rfl rfl rfl rfl rfl (.inl ⟨rfl, rfl⟩) (.inr (.inl ⟨rfl, rfl⟩))
        rfl rfl rfl rfl (fun hw => hw) (by simp) (by simp), rfl⟩
    · exact ⟨.loop idleSec, .of_quiet rfl rfl rfl rfl rfl (.inl ⟨rfl, rfl⟩) (.inl ⟨rfl, rfl⟩)
        rfl rfl rfl rfl (fun hw => hw) (by simp) (by simp), rfl⟩
  | engage =>
    obtain ⟨-, rfl⟩ := taking_eq_some.1 hstep
    exact hquiet rfl rfl rfl ⟨rfl, rfl⟩ ⟨_, _, rfl⟩ rfl rfl (fun hw => hw) (by simp) (by simp)
  | work =>
    obtain ⟨-, rfl⟩ := taking_eq_some.1 hstep
    exact hquiet rfl rfl rfl ⟨rfl, rfl⟩ ⟨_, _, rfl⟩ rfl rfl (fun hw => hw) (by simp) (by simp)
  | leave die =>
    obtain ⟨hfree, rfl⟩ := taking_eq_some.1 hstep
    have hdying : Moves Point.dying (.leave die) .record s.tp.dyingThreadCount
        (s.tp.depart die).dyingThreadCount := by
      cases die with
      | false => exact .inl ⟨rfl, rfl⟩
      | true => exact .inr (.inr ⟨rfl, rfl⟩)
    exact ⟨.record, ⟨rfl, .loose rfl, fun l => by cases l <;> rfl,
      fun l => mem_locks_singleton hfree, rfl, .inr (.inr ⟨rfl, rfl⟩), hdying, rfl, rfl, rfl, rfl,
      fun hw => hw, by simp, by simp⟩, rfl⟩
  | record =>
    obtain ⟨-, rfl⟩ := taking_eq_some.1 hstep
    exact ⟨.ended, ⟨rfl, .loose rfl, fun l => by cases l <;> rfl,
      fun l hl => absurd hl List.not_mem_nil, rfl, .inl ⟨rfl, rfl⟩, .inl ⟨rfl, rfl⟩, rfl, rfl, rfl,
      rfl, fun hw => hw, by simp, by simp⟩, rfl⟩
  | ended => cases hstep
  | returned => cases hstep
  -- `ks_thread_pool_destroy`
  | down =>
    obtain ⟨-, rfl⟩ := taking_eq_some.1 hstep
    exact ⟨.destroy, ⟨rfl, .down, fun l => by cases l <;> rfl,
      fun l hl => absurd hl List.not_mem_nil, rfl, .inl ⟨rfl, rfl⟩, .inl ⟨rfl, rfl⟩, rfl, rfl, rfl,
      rfl, fun hw => hw, by simp, by simp⟩, rfl⟩
  | destroy =>
    obtain ⟨hfree, rfl⟩ := taking_eq_some.1 hstep
    exact ⟨.joinAll, ⟨rfl, .destroy, fun l => by cases l <;> rfl,
      fun l => mem_locks_singleton hfree, rfl, .inl ⟨rfl, rfl⟩, .inl ⟨rfl, rfl⟩, rfl, rfl, rfl,
      rfl, fun hw => hw, by simp, by simp⟩, rfl⟩
  | joinAll =>
    rw [advance] at hstep
    cases hkeys : s.tp.threadHash with
    | nil =>
      rw [hkeys] at hstep
      cases hstep
      exact ⟨.returned, ⟨rfl, .loose rfl, fun l => by cases l <;> rfl,
        fun l hl => absurd hl List.not_mem_nil, rfl, .inl ⟨rfl, rfl⟩, .inl ⟨rfl, rfl⟩, rfl, rfl,
        rfl, rfl, fun hw => hw, by simp, by simp⟩, rfl⟩
    | cons key keys =>
      rw [hkeys] at hstep
      cases hstep
      exact ⟨.joinOne key, .goto (.joinOne (hkeys ▸ List.mem_cons_self ..)) rfl rfl rfl rfl rfl
        rfl (fun hw => hw) (by simp) (by simp), rfl⟩
  | joinOne key =>
    rw [advance] at hstep
    split_ifs at hstep
    cases hstep
    exact ⟨.joinAll, ⟨rfl, .joinedOne, fun l => by cases l <;> rfl, fun l => .inl, rfl,
      .inl ⟨rfl, rfl⟩, .inl ⟨rfl, rfl⟩, rfl, rfl, rfl, rfl, fun hw => hw, by simp, by simp⟩, rfl⟩

/-- Nobody holds a lock of a new pool. -/
theorem create_owned (min max idleSec : ℕ) :
    Threads.Owned Point.locks (create min max idleSec).owner (create min max idleSec).threads := by
  intro l t
  refine iff_of_false (fun hl => by cases l <;> cases hl) ?_
  rintro ⟨pc, hpc, hl⟩
  have hmem := Threads.mem_of_pcOf hpc
  cases List.mem_singleton.1 hmem
  exact List.not_mem_nil hl

/-- A thread fails to be created. -/
theorem fail_effect {k : Caller} {need : ℕ} :
    s.Effect t (.launch k need) (s.goto t (.uncount k need)) (.uncount k need) :=
  .goto (.loose rfl) rfl rfl rfl rfl rfl rfl (fun hw => hw) (by simp) (by simp)

/-- A wait times out. -/
theorem timeOut_effect {idleSec : ℕ} :
    s.Effect t (.wait idleSec) (s.goto t (.check (.idled idleSec))) (.check (.idled idleSec)) :=
  .goto (.loose rfl) rfl rfl rfl rfl rfl rfl (fun hw => hw) (by simp) (by simp)

/-- A thread has been created. -/
theorem launch_effect {k : Caller} {need key : ℕ} :
    s.Effect t (.launch k need) (s.goto t (.hash k need key)) (.hash k need key) :=
  .goto .launched rfl rfl rfl rfl rfl rfl (fun hw => hw) (by simp) (by simp)

end TPSys

end Libks
