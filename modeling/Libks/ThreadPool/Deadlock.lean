import Libks.ThreadPool.Steps
import Mathlib.Logic.Relation

/-!
# Destroying a thread pool

`ks_thread_pool_destroy` holds the lock of `thread_hash` while it joins the workers, and
a worker in `cleanup_threads` takes that lock for every dead thread it has joined. The
`state_mutex` keeps threads from being put in the hash meanwhile, but not from being
taken out of it. So the pool is not deadlocked as long as nobody in `cleanup_threads`
has anything left to do there when the destroyer takes the lock (`always_free`).

A thread waits for the owner of the lock it is about to take, or for the thread it is
about to join (`WaitsFor`); it can take no step then (`WaitsFor.blocked`).
-/

namespace Libks

open Base

namespace Point

/-- The lock that a thread is about to take. -/
def wants : Point → Option Lock
  | .check _ | .cancel _ _ | .uncount _ _ | .start | .idle _ | .engage | .work | .leave _ =>
    some .mutex
  | .cleanup _ | .record => some .dieHash
  | .unhash _ _ | .hash _ _ _ | .destroy => some .hash
  | .spawn _ (_ + 1) | .down => some .state
  | _ => none

/-- The thread that a thread is about to join. -/
def awaits : Point → Option ℕ
  | .join _ key | .joinOne key => some key
  | _ => none

/-- The thread that a thread is about to join, or to put in the hash. -/
def key : Point → Option ℕ
  | .join _ key | .joinOne key | .hash _ _ key => some key
  | _ => none

/-- The call of `ks_thread_pool_destroy`, with the state changed. -/
def downed : Point → Bool
  | .destroy | .joinAll | .joinOne _ => true
  | _ => false

/-- A loop of `check_queue` that is creating a thread. -/
def launching : Point → Bool
  | .launch _ _ | .hash _ _ _ => true
  | _ => false

/-- `cleanup_threads`, about to look for dead threads. -/
def tidying : Point → Bool
  | .cleanup _ | .reap _ => true
  | _ => false

/-- `cleanup_threads`, with a dead thread to take out of the hash. -/
def reaping : Point → Bool
  | .join _ _ | .unhash _ _ => true
  | _ => false

theorem mem_rehash {pc : Point} {keys : List ℕ} {key : ℕ} (h : key ∈ pc.rehash keys) :
    key ∈ keys ∨ pc.key = some key := by
  cases pc with
  | unhash | joinOne => exact .inl (List.mem_of_mem_erase h)
  | hash => exact (List.mem_cons.1 h).symm.imp id fun heq => congrArg some heq.symm
  | _ => exact .inl h

theorem mem_redie {pc : Point} {keys : List ℕ} {t key : ℕ} (h : key ∈ pc.redie t keys) :
    key ∈ keys ∨ key = t ∧ pc.ofWorker := by
  cases pc with
  | join => exact .inl (List.mem_of_mem_erase h)
  | record => exact (List.mem_cons.1 h).symm.imp id fun heq => ⟨heq, rfl⟩
  | _ => exact .inl h

end Point

namespace TPSys

/-- The thread `t` waits for the thread `u`. -/
def WaitsFor (s : TPSys) (t u : ℕ) : Prop :=
  ∃ pc, s.threads.pcOf t = some pc ∧
    ((∃ l, pc.wants = some l ∧ s.owner l = some u) ∨ pc.awaits = some u ∧ ¬s.Ended u)

/-- The destroyer holds the lock of `thread_hash` and joins a worker that waits for it,
    directly or by way of others. -/
def Deadlocked (s : TPSys) : Prop :=
  ∃ d w, s.threads.pcOf d = some (.joinOne w) ∧ s.hashLock = some d ∧
    Relation.TransGen s.WaitsFor w d

/-- The destroyer takes the lock of `thread_hash` only where nobody in `cleanup_threads` has a
    dead thread left. -/
def Clear (s : TPSys) : Act → Prop
  | .run t => s.threads.pcOf t = some .destroy →
      ∀ th ∈ s.threads, ¬th.pc.reaping ∧ (th.pc.tidying → s.tp.threadDieHash = [])
  | _ => True

instance (s : TPSys) : DecidablePred s.Clear
  | .run _ => inferInstanceAs (Decidable (_ → ∀ _ ∈ _, _ ∧ (_ → _)))
  | .addJob _ | .destroy _ | .launch _ _ | .fail _ | .timeOut _ => .isTrue trivial

variable {s s' : TPSys} {t u : ℕ} {pc pc' : Point} {a : Act}

/-- A step that takes a lock is taken when nobody holds it. -/
theorem free_of_wants {l : Lock} (hstep : s.advance t pc = some s') (hwants : pc.wants = some l) :
    s.owner l = none := by
  cases pc with
  | spawn k need =>
    cases need with
    | zero => cases hwants
    | succ need =>
      cases hwants
      exact (taking_eq_some.1 hstep).1
  | check | cancel | uncount | start | idle | engage | work | leave | cleanup | record | unhash
    | hash | destroy | down =>
    cases hwants
    exact (taking_eq_some.1 hstep).1
  | _ => cases hwants

/-- A thread that waits can take no step. -/
theorem WaitsFor.blocked (h : s.WaitsFor t u) : s.next (.run t) = none := by
  obtain ⟨pc, hpc, h⟩ := h
  rw [next, hpc, Option.bind_some, Option.eq_none_iff_forall_ne_some]
  intro s' hstep
  rcases h with ⟨l, hwants, howner⟩ | ⟨hawaits, hended⟩
  · rw [free_of_wants hstep hwants] at howner
    cases howner
  · cases pc with
    | join | joinOne =>
      cases hawaits
      rw [advance, if_neg hended] at hstep
      cases hstep
    | _ => cases hawaits

/-! ## The order of the pool -/

/-- The name of a thread of the pool. -/
def Worker (s : TPSys) (key : ℕ) : Prop := ∃ pc, s.threads.pcOf key = some pc ∧ pc.ofWorker

/-- What holds where a thread has come to a point: the pool does not run once it is being
    destroyed, no thread is created when it does not run, and nobody has anything to
    do in `cleanup_threads` when the destroyer holds the lock of `thread_hash`. -/
structure Fits (s : TPSys) (pc : Point) : Prop where
  key : ∀ key, pc.key = some key → s.Worker key
  down : pc.downed → s.tp.running = false
  launch : s.tp.running = false → ¬pc.launching
  clear : s.hashLock ≠ none → ¬pc.reaping ∧ (pc.tidying → s.tp.threadDieHash = [])

/-- The locks are owned by those who hold them, the hashes have workers in them, and there is
    no more than one destroyer. -/
structure Orderly (s : TPSys) : Prop where
  tids : s.threads.tids.Nodup
  owned : Threads.Owned Point.locks s.owner s.threads
  one : s.threads.total Point.destroying + (!s.destroyed).toNat ≤ 1
  hash : ∀ key ∈ s.tp.threadHash, s.Worker key
  die : ∀ key ∈ s.tp.threadDieHash, s.Worker key
  fits : ∀ th ∈ s.threads, s.Fits th.pc

/-- A point where nothing is at stake but, in `cleanup_threads`, the lock of the hash. -/
theorem Fits.of_unlocked (hkey : pc.key = none) (hdown : pc.downed = false)
    (hlaunch : pc.launching = false)
    (hclear : s.hashLock ≠ none → ¬pc.reaping ∧ (pc.tidying → s.tp.threadDieHash = [])) :
    s.Fits pc := by
  refine ⟨fun key h => ?_, fun h => ?_, fun _ h => ?_, hclear⟩
  · rw [hkey] at h
    cases h
  · rw [hdown] at h
    cases h
  · rw [hlaunch] at h
    cases h

theorem Fits.of_loose (h : pc.loose) : s.Fits pc := by
  cases pc with
  | cleanup | reap | join | unhash | launch | hash | down | destroy | joinAll | joinOne => cases h
  | _ => exact .of_unlocked rfl rfl rfl fun _ => ⟨fun h => (by cases h), fun h => (by cases h)⟩

theorem Fits.mono (h : s.Fits pc) (hworker : ∀ key, s.Worker key → s'.Worker key)
    (hrunning : s'.tp.running = s.tp.running)
    (hclear : s'.hashLock ≠ none → s.hashLock ≠ none ∧ s'.tp.threadDieHash = s.tp.threadDieHash) :
    s'.Fits pc := by
  refine ⟨fun key hkey => hworker key (h.key key hkey), fun hdown => ?_, fun hrun => ?_,
    fun hlock => ?_⟩
  · rw [hrunning]
    exact h.down hdown
  · exact h.launch (hrunning ▸ hrun)
  · obtain ⟨hlock, hdie⟩ := hclear hlock
    rw [hdie]
    exact h.clear hlock

/-- While the destroyer holds the lock, the pool does not run. -/
theorem Orderly.not_running (h : s.Orderly) (hlock : s.hashLock ≠ none) :
    s.tp.running = false := by
  obtain ⟨d, hd⟩ := Option.ne_none_iff_exists'.1 hlock
  obtain ⟨pc, hpc, hheld⟩ := (h.owned .hash d).1 hd
  refine (h.fits _ (Threads.mem_of_pcOf hpc)).down ?_
  cases pc with
  | joinAll | joinOne => rfl
  | _ => simp [Point.locks] at hheld

/-- Nobody waits for a destroyer that joins a worker. -/
theorem Orderly.free (h : s.Orderly) : ¬s.Deadlocked := by
  rintro ⟨d, w, hd, hlock, hwait⟩
  obtain ⟨x, -, pc, hpc, hx⟩ := Relation.TransGen.tail'_iff.1 hwait
  have hfits := h.fits _ (Threads.mem_of_pcOf hpc)
  have hheld : s.hashLock ≠ none := by
    rw [hlock]
    exact Option.some_ne_none d
  rcases hx with ⟨l, hwants, howner⟩ | ⟨hawaits, -⟩
  · -- The destroyer owns no other lock than that of `thread_hash`.
    obtain ⟨pc₁, hpc₁, hl⟩ := (h.owned l d).1 howner
    obtain rfl : .joinOne w = pc₁ := Option.some.inj (hd.symm.trans hpc₁)
    obtain rfl : l = .hash := List.mem_singleton.1 hl
    cases pc with
    | unhash k key => exact (hfits.clear hheld).1 rfl
    | hash k need key => exact hfits.launch (h.not_running hheld) rfl
    | destroy =>
      -- There is only one destroyer.
      have hne : x ≠ d := by
        rintro rfl
        rw [hd] at hpc
        cases hpc
      have htwo := Threads.add_le_total (Threads.mem_of_pcOf hd) (Threads.mem_of_pcOf hpc) hne
        Point.destroying
      have hone := h.one
      simp only [Point.destroying] at htwo
      omega
    | spawn k need => cases need <;> cases hwants
    | _ => cases hwants
  · -- It is not joined itself either.
    have hkey : pc.key = some d := by
      cases pc with
      | join | joinOne => exact hawaits
      | _ => cases hawaits
    obtain ⟨pc₁, hpc₁, hworker⟩ := hfits.key d hkey
    obtain rfl : .joinOne w = pc₁ := Option.some.inj (hd.symm.trans hpc₁)
    cases hworker

/-! ## Steps -/

/-- Only the destroyer comes to hold the lock of `thread_hash`. -/
theorem Leads.destroy_of_hash (h : s.Leads pc pc') (hheld : Lock.hash ∈ pc'.locks)
    (hnot : Lock.hash ∉ pc.locks) : pc = .destroy := by
  cases h with
  | destroy => rfl
  | joinOne | joinedOne => exact absurd (List.mem_singleton_self _) hnot
  | loose hloose =>
    cases pc' with
    | joinAll | joinOne => cases hloose
    | _ => simp [Point.locks] at hheld
  | _ => simp [Point.locks] at hheld

section Effect

/- The thread `t` takes a step from `pc` to `pc'`. -/
variable (h : s.Orderly) (hpc : s.threads.pcOf t = some pc) (heffect : s.Effect t pc s' pc')

include h hpc heffect

/-- Whoever is a worker stays one. -/
theorem Orderly.kept {key : ℕ} (hkey : s.Worker key) : s'.Worker key := by
  obtain ⟨pc₁, hpc₁, hw⟩ := hkey
  rw [Worker, heffect.threads]
  by_cases hne : key = t
  · subst hne
    obtain rfl : pc = pc₁ := Option.some.inj (hpc.symm.trans hpc₁)
    exact ⟨pc', Threads.pcOf_goto_self h.tids hpc, heffect.worker hw⟩
  · exact ⟨pc₁, (Threads.pcOf_goto_of_ne h.tids hpc hne).trans hpc₁, hw⟩

/-- The thread comes to a point that fits. -/
theorem Orderly.fits_self (hfree : ∀ l, pc.wants = some l → s.owner l = none)
    (hnew : ∀ key, pc'.hashing = some key → s.Worker key) : s'.Fits pc' := by
  have hfits := h.fits _ (Threads.mem_of_pcOf hpc)
  have hkept {key : ℕ} (hkey : s.Worker key) : s'.Worker key := h.kept hpc heffect hkey
  have hlock := heffect.owner .hash
  have hstate := heffect.state
  have hdie := heffect.die
  cases heffect.leads with
  | tidy hrun =>
    -- The pool runs, so nobody destroys it.
    refine .of_unlocked rfl rfl rfl fun hheld => ?_
    have hdown := h.not_running (ne_of_eq_of_ne hlock.symm hheld)
    rw [hrun] at hdown
    cases hdown
  | look =>
    refine .of_unlocked rfl rfl rfl fun hheld => ⟨Bool.false_ne_true, fun _ => ?_⟩
    exact hdie.trans ((hfits.clear (ne_of_eq_of_ne hlock.symm hheld)).2 rfl)
  | found hmem =>
    refine ⟨?_, fun hd => (by cases hd), fun _ hl => (by cases hl), fun hheld => ?_⟩
    · rintro _ ⟨⟩
      exact hkept (h.die _ hmem)
    · have hnil := (hfits.clear (ne_of_eq_of_ne hlock.symm hheld)).2 rfl
      rw [hnil] at hmem
      cases hmem
  | joined =>
    exact .of_unlocked rfl rfl rfl fun hheld =>
      absurd rfl (hfits.clear (ne_of_eq_of_ne hlock.symm hheld)).1
  | unhashed =>
    exact .of_unlocked rfl rfl rfl fun hheld => absurd (hlock.trans (hfree .hash rfl)) hheld
  | launch hrun =>
    refine ⟨fun key hkey => (by cases hkey), fun hd => (by cases hd), fun hdown => ?_,
      fun _ => ⟨Bool.false_ne_true, fun ht => (by cases ht)⟩⟩
    rw [hstate.trans hrun] at hdown
    cases hdown
  | launched =>
    refine ⟨?_, fun hd => (by cases hd), fun hdown => ?_,
      fun _ => ⟨Bool.false_ne_true, fun ht => (by cases ht)⟩⟩
    · rintro _ ⟨⟩
      exact hkept (hnew _ rfl)
    · exact absurd rfl (hfits.launch (hstate.symm.trans hdown))
  | down =>
    exact ⟨fun key hkey => (by cases hkey), fun _ => hstate, fun _ hl => (by cases hl),
      fun _ => ⟨Bool.false_ne_true, fun ht => (by cases ht)⟩⟩
  | destroy | joinedOne =>
    exact ⟨fun key hkey => (by cases hkey), fun _ => hstate.trans (hfits.down rfl),
      fun _ hl => (by cases hl), fun _ => ⟨Bool.false_ne_true, fun ht => (by cases ht)⟩⟩
  | joinOne hmem =>
    refine ⟨?_, fun _ => hstate.trans (hfits.down rfl), fun _ hl => (by cases hl),
      fun _ => ⟨Bool.false_ne_true, fun ht => (by cases ht)⟩⟩
    rintro _ ⟨⟩
    exact hkept (h.hash _ hmem)
  | loose hloose => exact .of_loose hloose

/-- The other threads stand where they did, and fit. -/
theorem Orderly.fits_other (hfree : ∀ l, pc.wants = some l → s.owner l = none)
    (hclear : pc = .destroy →
      ∀ th ∈ s.threads, ¬th.pc.reaping ∧ (th.pc.tidying → s.tp.threadDieHash = []))
    {th : Thread Point} (hth : th ∈ s.threads) (hne : th.tid ≠ t) : s'.Fits th.pc := by
  have hf := h.fits th hth
  have hthpc := Threads.pcOf_of_mem h.tids hth
  refine ⟨fun key hkey => h.kept hpc heffect (hf.key key hkey), fun hdown => ?_,
    fun hdown hlaunch => ?_, fun hheld => ?_⟩
  · rw [heffect.state, hf.down hdown]
    cases pc <;> rfl
  · by_cases hrun : s.tp.running = false
    · exact hf.launch hrun hlaunch
    · -- Nobody is creating a thread, as `state_mutex` has no owner.
      have hstate : s.owner .state = none := by
        rw [heffect.state] at hdown
        cases pc with
        | down => exact hfree .state rfl
        | _ => exact absurd hdown hrun
      refine h.owned.not_mem hthpc hstate ?_
      cases hpc' : th.pc with
      | launch | hash => exact List.mem_singleton_self _
      | _ => rw [hpc'] at hlaunch; cases hlaunch
  · by_cases hdestroy : pc = .destroy
    · have hdie := heffect.die
      subst hdestroy
      obtain ⟨hreaping, htidying⟩ := hclear rfl th hth
      exact ⟨hreaping, fun htidy => hdie.trans (htidying htidy)⟩
    have hlock : s.hashLock ≠ none := by
      have howner : s'.hashLock = _ := heffect.owner .hash
      rw [howner] at hheld
      split_ifs at hheld with hsame hmem
      · exact hheld
      · exact absurd (heffect.leads.destroy_of_hash hmem fun hnot => hsame
          (iff_of_true hmem hnot)) hdestroy
      · exact absurd rfl hheld
    obtain ⟨hreaping, htidying⟩ := hf.clear hlock
    refine ⟨hreaping, fun htidy => ?_⟩
    rw [heffect.die, htidying htidy]
    cases pc with
    | record =>
      -- Nobody else is in `cleanup_threads`, as the thread owns `mutex`.
      have hother : Lock.mutex ∈ th.pc.locks := by
        cases hpc' : th.pc with
        | cleanup | reap => simp [Point.locks]
        | _ => rw [hpc'] at htidy; cases htidy
      exact absurd (h.owned.unique hthpc hpc hother (List.mem_singleton_self _)) hne
    | _ => rfl

/-- A step of a thread. -/
theorem Orderly.step (hfree : ∀ l, pc.wants = some l → s.owner l = none)
    (hclear : pc = .destroy →
      ∀ th ∈ s.threads, ¬th.pc.reaping ∧ (th.pc.tidying → s.tp.threadDieHash = []))
    (hnew : ∀ key, pc'.hashing = some key → s.Worker key) : s'.Orderly := by
  have hfits := h.fits _ (Threads.mem_of_pcOf hpc)
  have hkept {key : ℕ} (hkey : s.Worker key) : s'.Worker key := h.kept hpc heffect hkey
  refine ⟨?_, ?_, ?_, fun key hkey => hkept ?_, fun key hkey => hkept ?_, fun th hth => ?_⟩
  · rw [heffect.threads, Threads.tids_goto h.tids hpc]
    exact h.tids
  · rw [heffect.threads]
    exact h.owned.goto h.tids hpc heffect.owner heffect.free
  · have htotal := Threads.total_goto h.tids hpc Point.destroying pc'
    have hone := h.one
    have hle := heffect.destroying
    rw [heffect.threads, heffect.destroyed]
    omega
  · rw [heffect.hash] at hkey
    rcases Point.mem_rehash hkey with hkey | hkey
    · exact h.hash key hkey
    · exact hfits.key key hkey
  · rw [heffect.die] at hkey
    rcases Point.mem_redie hkey with hkey | ⟨rfl, hw⟩
    · exact h.die key hkey
    · exact ⟨pc, hpc, hw⟩
  · rw [heffect.threads, Threads.mem_goto h.tids hpc] at hth
    rcases hth with rfl | ⟨hth, hne⟩
    · exact h.fits_self hpc heffect hfree hnew
    · exact h.fits_other hpc heffect hfree hclear hth hne

end Effect

/-- A step of a thread that takes it by itself. -/
theorem Orderly.advance (h : s.Orderly) (hpc : s.threads.pcOf t = some pc)
    (hclear : s.Clear (.run t)) (hstep : s.advance t pc = some s') : s'.Orderly := by
  obtain ⟨pc', heffect, hnone⟩ := advance_effect hstep
  refine h.step hpc heffect (fun l => free_of_wants hstep) (fun hdestroy => ?_) fun key hkey => ?_
  · subst hdestroy
    exact hclear hpc
  · rw [hnone] at hkey
    cases hkey

/-- A call, or a new thread in front of its first section. -/
theorem Orderly.enter (h : s.Orderly) (ht : t ∉ s.threads.tids)
    (hth : s'.threads = ⟨t, pc⟩ :: s.threads) (htp : s'.tp = s.tp) (howner : s'.owner = s.owner)
    (hlocks : pc.locks = [])
    (hone : pc.destroying + (!s'.destroyed).toNat ≤ (!s.destroyed).toNat)
    (hfits : s'.Fits pc) : s'.Orderly := by
  have hkept (key : ℕ) (hkey : s.Worker key) : s'.Worker key := by
    obtain ⟨pc₁, hpc₁, hw⟩ := hkey
    have hne : key ≠ t := by
      rintro rfl
      rw [Threads.pcOf_eq_none ht] at hpc₁
      cases hpc₁
    refine ⟨pc₁, ?_, hw⟩
    rw [hth, Threads.pcOf_cons_of_ne hne]
    exact hpc₁
  have hlock : s'.hashLock = s.hashLock := congrFun howner .hash
  refine ⟨?_, ?_, ?_, ?_, ?_, ?_⟩
  · rw [hth]
    exact List.nodup_cons.2 ⟨ht, h.tids⟩
  · rw [hth, howner]
    exact h.owned.cons ht hlocks
  · have hle := h.one
    rw [hth, Threads.total_cons]
    dsimp only
    omega
  · rw [htp]
    exact fun key hkey => hkept key (h.hash key hkey)
  · rw [htp]
    exact fun key hkey => hkept key (h.die key hkey)
  · intro th hmem
    rw [hth, List.mem_cons] at hmem
    rcases hmem with rfl | hmem
    · exact hfits
    · exact (h.fits th hmem).mono hkept (by rw [htp]) fun hheld => ⟨hlock ▸ hheld, by rw [htp]⟩

/-- A step of the pool. -/
theorem Orderly.next (h : s.Orderly) (hclear : s.Clear a) (hstep : s.next a = some s') :
    s'.Orderly := by
  cases a with
  | addJob t =>
    rw [TPSys.next] at hstep
    split_ifs at hstep
    rw [TPSys.enter] at hstep
    split_ifs at hstep with ht
    cases hstep
    exact h.enter ht (rfl : _ = ⟨t, .push⟩ :: s.threads) rfl rfl rfl (Nat.zero_add _).le
      (.of_loose rfl)
  | destroy t =>
    rw [TPSys.next] at hstep
    split_ifs at hstep with hdestroyed
    obtain ⟨s₁, hs₁, rfl⟩ := Option.map_eq_some_iff.1 hstep
    rw [TPSys.enter] at hs₁
    split_ifs at hs₁ with ht
    cases hs₁
    refine h.enter ht (rfl : _ = ⟨t, .down⟩ :: s.threads) rfl rfl rfl ?_ ?_
    · rw [Bool.eq_false_iff.2 hdestroyed.2]
      exact le_rfl
    · exact .of_unlocked rfl rfl rfl fun _ => ⟨Bool.false_ne_true, fun ht => (by cases ht)⟩
  | run t =>
    obtain ⟨pc, hpc, hstep⟩ := Option.bind_eq_some_iff.1 hstep
    exact h.advance hpc hclear hstep
  | launch t key =>
    rw [TPSys.next] at hstep
    split at hstep
    · rename_i k need hpc
      obtain ⟨s₁, hs₁, rfl⟩ := Option.map_eq_some_iff.1 hstep
      rw [TPSys.enter] at hs₁
      split_ifs at hs₁ with hkey
      cases hs₁
      -- Two steps in one: the new thread comes in, and its creator goes on.
      have hne : t ≠ key := by
        rintro rfl
        exact hkey (List.mem_map_of_mem (Threads.mem_of_pcOf hpc))
      have hnew : ({ s with threads := ⟨key, .start⟩ :: s.threads } : TPSys).Orderly :=
        h.enter hkey rfl rfl rfl rfl (Nat.zero_add _).le (.of_loose rfl)
      have hpc' : Threads.pcOf (⟨key, .start⟩ :: s.threads) t = some (.launch k need) :=
        (Threads.pcOf_cons_of_ne hne).trans hpc
      exact hnew.step hpc' launch_effect (fun l hl => by cases hl) (fun h => by cases h)
        fun key' hkey => by
          cases hkey
          exact ⟨.start, Threads.pcOf_cons_self, rfl⟩
    · cases hstep
  | fail t =>
    rw [TPSys.next] at hstep
    split at hstep
    · rename_i k need hpc
      cases hstep
      exact h.step hpc fail_effect (fun l hl => by cases hl) (fun h => by cases h)
        fun key hkey => by cases hkey
    · cases hstep
  | timeOut t =>
    rw [TPSys.next] at hstep
    split at hstep
    · rename_i idleSec hpc
      cases hstep
      exact h.step hpc timeOut_effect (fun l hl => by cases hl) (fun h => by cases h)
        fun key hkey => by cases hkey
    · cases hstep

theorem create_orderly (min max idleSec : ℕ) : (create min max idleSec).Orderly := by
  refine ⟨List.nodup_singleton 0, create_owned min max idleSec, le_rfl,
    fun key hkey => absurd hkey List.not_mem_nil, fun key hkey => absurd hkey List.not_mem_nil,
    fun th hth => ?_⟩
  cases List.mem_singleton.1 hth
  exact .of_loose rfl

/-- In a run where the destroyer takes the lock of `thread_hash` only where nobody in
    `cleanup_threads` has a dead thread left, the pool is not deadlocked in any state. -/
theorem always_free {min max idleSec : ℕ} {as : List Act}
    (hclear : Along (blocking next) Clear (create min max idleSec) as) :
    Always (blocking next) (fun s => ¬s.Deadlocked) (create min max idleSec) as :=
  Always.of_along (fun _ h => h.free) (fun _ _ _ h hclear hstep => h.next hclear hstep)
    (create_orderly min max idleSec) hclear

/-- A pool with a dead worker, and one that does a job, is destroyed. -/
theorem always_free_joined :
    Always (blocking next) (fun s => ¬s.Deadlocked) (create 1 2 0) [.run 0, .run 0, .run 0,
      .run 0, .launch 0 1, .run 0, .run 0, .run 1, .addJob 2, .run 2, .run 2, .run 2, .run 2,
      .run 2, .launch 2 3, .run 2, .run 2, .run 1, .run 1, .run 1, .run 1, .run 1, .run 1, .run 1,
      .run 3, .run 3, .run 3, .timeOut 3, .run 3, .run 3, .run 3, .run 3, .run 1, .run 3, .run 3,
      .run 3, .destroy 4, .run 4, .run 4, .run 4, .run 4, .run 1, .run 1, .run 1, .run 4, .run 4,
      .run 4] :=
  always_free (by decide +kernel)

/-- One worker has died, and another one is in `cleanup_threads` when the pool is destroyed:
    it joins the dead one and waits for the lock of `thread_hash`, while the destroyer
    joins it. -/
theorem not_always_free :
    ¬∀ min max idleSec as,
      Always (blocking next) (fun s => ¬s.Deadlocked) (create min max idleSec) as := by
  intro h
  have hrun := h 1 2 0 [.run 0, .run 0, .run 0, .run 0, .launch 0 1, .run 0, .run 0, .run 1,
    .addJob 2, .run 2, .run 2, .run 2, .run 2, .run 2, .launch 2 3, .run 2, .run 2, .run 1, .run 1,
    .run 1, .run 1, .run 1, .run 1, .run 1, .run 3, .run 3, .run 3, .timeOut 3, .run 3, .run 3,
    .run 3, .run 3, .run 1, .run 3, .run 3, .run 3, .run 1, .run 1, .timeOut 1, .run 1, .destroy 4,
    .run 4, .run 4, .run 4, .run 4, .run 4, .run 1, .run 1, .run 1]
  have hend : okAnd (fun r => decide (r.2.threads.pcOf 4 = some (.joinOne 1) ∧
      r.2.hashLock = some 4 ∧ r.2.threads.pcOf 1 = some (.unhash (.idled 0) 3)))
      (calls (blocking next) (create 1 2 0) [.run 0, .run 0, .run 0, .run 0, .launch 0 1, .run 0,
        .run 0, .run 1, .addJob 2, .run 2, .run 2, .run 2, .run 2, .run 2, .launch 2 3, .run 2,
        .run 2, .run 1, .run 1, .run 1, .run 1, .run 1, .run 1, .run 1, .run 3, .run 3, .run 3,
        .timeOut 3, .run 3, .run 3, .run 3, .run 3, .run 1, .run 3, .run 3, .run 3, .run 1, .run 1,
        .timeOut 1, .run 1, .destroy 4, .run 4, .run 4, .run 4, .run 4, .run 4, .run 1, .run 1,
        .run 1]) = true := by
    decide +kernel
  obtain ⟨⟨os, s⟩, hcalls, hlast⟩ := okAnd_iff.1 hend
  obtain ⟨hd, hlock, hw⟩ := of_decide_eq_true hlast
  exact hrun.last hcalls ⟨4, 1, hd, hlock, .single ⟨_, hw, .inl ⟨.hash, rfl, hlock⟩⟩⟩

end TPSys

end Libks
