import Libks.ThreadPool.Steps

/-!
# The end of the workers

A worker that leaves puts itself in `thread_die_hash`. Whoever comes to `cleanup_threads`
next joins it, takes it out of both hashes and destroys it. It is put in `thread_hash` by
the thread that has created it, which may not have come to that yet; then the hash is
left with a worker that does not exist any more. As long as every worker is in
`thread_hash` when it is to be taken out of it, none of them is joined or destroyed
twice, or found in one of the hashes after its end (`always_buried`).

What is done to the workers is noted beside the pool (`watch`).
-/

namespace Libks

open Base

/-- The workers that have been joined, and destroyed, the last ones first. -/
structure Fates where
  joined : List ℕ := []
  destroyed : List ℕ := []

/-- What a step from this point does to a worker. -/
def Point.fate : Point → Fates → Fates
  | .join _ key, f => { f with joined := key :: f.joined }
  | .unhash _ key, f => { f with destroyed := key :: f.destroyed }
  | .joinOne key, f => { joined := key :: f.joined, destroyed := key :: f.destroyed }
  | _, f => f

namespace TPSys

/-- `ks_thread_pool_destroy` is not called. -/
def Act.undestroyed : Act → Bool
  | .destroy _ => false
  | _ => true

/-- A pool, and what has been done to its workers. -/
abbrev Watched := TPSys × Fates

/-- What a step does to the workers. -/
def fates (s : TPSys) (f : Fates) : Act → Fates
  | .run t => (s.threads.pcOf t).elim f (·.fate f)
  | _ => f

/-- A step, with what it does to the workers. -/
def watch (r : Watched) (a : Act) : Option Watched :=
  (r.1.next a).map fun s => (s, r.1.fates r.2 a)

/-- No worker has been joined or destroyed twice, and none that has been destroyed is in one of
    the hashes. -/
structure Buried (r : Watched) : Prop where
  joined : r.2.joined.Nodup
  destroyed : r.2.destroyed.Nodup
  gone : ∀ key ∈ r.2.destroyed, key ∉ r.1.tp.threadHash ∧ key ∉ r.1.tp.threadDieHash

/-- A worker about to be taken out of `thread_hash` is not about to be put in it. -/
def Registered (r : Watched) : Act → Prop
  | .run t => ∀ pc ∈ r.1.threads.pcOf t, ∀ key ∈ pc.unhashing,
      ∀ th ∈ r.1.threads, th.pc.hashing ≠ some key
  | _ => True

instance (r : Watched) : DecidablePred (Registered r)
  | .run _ => inferInstanceAs (Decidable (∀ _ ∈ _, ∀ _ ∈ _, ∀ _ ∈ _, _))
  | .addJob _ | .destroy _ | .launch _ _ | .fail _ | .timeOut _ => .isTrue trivial

/-- What holds where a thread has come to a point: `ks_thread_pool_destroy` has not been called,
    and the worker that it has in hand is where it is about to be looked for. -/
structure Minds (s : TPSys) (f : Fates) (pc : Point) : Prop where
  calm : pc.destroying = 0
  joining : ∀ key, pc.joining = some key → key ∈ s.tp.threadDieHash
  unhashing : ∀ key, pc.unhashing = some key → key ∈ f.joined ∧ key ∉ f.destroyed
  hashing : ∀ key, pc.hashing = some key →
    key ∈ s.threads.tids ∧ key ∉ s.tp.threadHash ∧ key ∉ f.destroyed

/-- Every worker in `thread_die_hash` has ended, and waits to be joined; who has been destroyed
    has been joined before; and the workers in `thread_hash` have not been destroyed. -/
structure Traced (s : TPSys) (f : Fates) : Prop where
  tids : s.threads.tids.Nodup
  owned : Threads.Owned Point.locks s.owner s.threads
  joined : f.joined.Nodup
  destroyed : f.destroyed.Nodup
  dieNodup : s.tp.threadDieHash.Nodup
  hashNodup : s.tp.threadHash.Nodup
  die : ∀ key ∈ s.tp.threadDieHash, s.Ended key ∧ key ∉ f.joined
  ended : ∀ key ∈ f.joined, s.Ended key
  order : ∀ key ∈ f.destroyed, key ∈ f.joined
  hash : ∀ key ∈ s.tp.threadHash, key ∈ s.threads.tids ∧ key ∉ f.destroyed
  minds : ∀ th ∈ s.threads, s.Minds f th.pc

variable {s s' : TPSys} {f : Fates} {t : ℕ} {pc pc' : Point} {a : Act}

theorem Traced.buried (h : s.Traced f) : Buried (s, f) := by
  refine ⟨h.joined, h.destroyed, fun key hkey => ⟨fun hin => ?_, fun hin => ?_⟩⟩
  · exact (h.hash key hin).2 hkey
  · exact (h.die key hin).2 (h.order key hkey)

theorem Minds.of_quiet (h : pc.quiet) : s.Minds f pc := by
  have hloose := Point.loose_of_quiet h
  obtain ⟨hjoining, hunhashing, hhashing⟩ := Point.none_of_loose hloose
  refine ⟨Point.destroying_of_loose hloose, fun key hkey => ?_, fun key hkey => ?_,
    fun key hkey => ?_⟩
  · rw [hjoining] at hkey
    cases hkey
  · rw [hunhashing] at hkey
    cases hkey
  · rw [hhashing] at hkey
    cases hkey

theorem mem_tids_of_ended {key : ℕ} (h : s.Ended key) : key ∈ s.threads.tids :=
  List.mem_map_of_mem (Threads.mem_of_pcOf h)

/-- A thread that has ended stays where it is. -/
theorem Effect.kept (heffect : s.Effect t pc s' pc') (hnd : s.threads.tids.Nodup)
    (hpc : s.threads.pcOf t = some pc) {key : ℕ} (h : s.Ended key) : s'.Ended key := by
  have hne : key ≠ t := by
    rintro rfl
    exact heffect.alive (Option.some.inj (hpc.symm.trans h))
  rw [Ended, heffect.threads, Threads.pcOf_goto_of_ne hnd hpc hne]
  exact h

/-! ## A step of a thread -/

/-- No worker is twice in one of the hashes, nor joined or destroyed twice. -/
theorem Traced.nodup (h : s.Traced f) (hpc : s.threads.pcOf t = some pc)
    (heffect : s.Effect t pc s' pc') :
    s'.tp.threadDieHash.Nodup ∧ s'.tp.threadHash.Nodup ∧ (pc.fate f).joined.Nodup ∧
      (pc.fate f).destroyed.Nodup := by
  have hminds : s.Minds f pc := h.minds _ (Threads.mem_of_pcOf hpc)
  rw [heffect.hash, heffect.die]
  refine ⟨?_, ?_, ?_, ?_⟩
  · cases pc with
    | join k key => exact h.dieNodup.erase key
    | record =>
      refine List.nodup_cons.2 ⟨fun hin => ?_, h.dieNodup⟩
      cases hpc.symm.trans (h.die t hin).1
    | _ => exact h.dieNodup
  · cases pc with
    | unhash k key => exact h.hashNodup.erase key
    | joinOne key => exact h.hashNodup.erase key
    | hash k need key => exact List.nodup_cons.2 ⟨(hminds.hashing key rfl).2.1, h.hashNodup⟩
    | _ => exact h.hashNodup
  · cases pc with
    | join k key =>
      exact List.nodup_cons.2 ⟨(h.die key (hminds.joining key rfl)).2, h.joined⟩
    | joinOne key => cases hminds.calm
    | _ => exact h.joined
  · cases pc with
    | unhash k key => exact List.nodup_cons.2 ⟨(hminds.unhashing key rfl).2, h.destroyed⟩
    | joinOne key => cases hminds.calm
    | _ => exact h.destroyed

/-- Who is in `thread_die_hash` has ended, and has not been joined. -/
theorem Traced.die_of_effect (h : s.Traced f) (hpc : s.threads.pcOf t = some pc)
    (heffect : s.Effect t pc s' pc') {key : ℕ} (hkey : key ∈ s'.tp.threadDieHash) :
    s'.Ended key ∧ key ∉ (pc.fate f).joined := by
  have hminds : s.Minds f pc := h.minds _ (Threads.mem_of_pcOf hpc)
  rw [heffect.die] at hkey
  have hkept (hin : key ∈ s.tp.threadDieHash) : s'.Ended key ∧ key ∉ f.joined :=
    ⟨heffect.kept h.tids hpc (h.die key hin).1, (h.die key hin).2⟩
  cases pc with
  | join k key' =>
    obtain ⟨hne, hin⟩ := (h.dieNodup.mem_erase_iff).1 hkey
    refine ⟨(hkept hin).1, fun hjoined => ?_⟩
    exact (List.mem_cons.1 hjoined).elim hne (hkept hin).2
  | record =>
    rcases List.mem_cons.1 hkey with rfl | hin
    · refine ⟨?_, fun hjoined => ?_⟩
      · rw [Ended, heffect.threads, Threads.pcOf_goto_self h.tids hpc, heffect.ended.2 rfl]
      · cases hpc.symm.trans (h.ended key hjoined)
    · exact hkept hin
  | joinOne key' => cases hminds.calm
  | _ => exact hkept hkey

/-- Who has been joined has ended, and who has been destroyed has been joined. -/
theorem Traced.ended_of_effect (h : s.Traced f) (hpc : s.threads.pcOf t = some pc)
    (heffect : s.Effect t pc s' pc') :
    (∀ key ∈ (pc.fate f).joined, s'.Ended key) ∧
      ∀ key ∈ (pc.fate f).destroyed, key ∈ (pc.fate f).joined := by
  have hminds : s.Minds f pc := h.minds _ (Threads.mem_of_pcOf hpc)
  have hkept (key : ℕ) (hkey : key ∈ f.joined) : s'.Ended key :=
    heffect.kept h.tids hpc (h.ended key hkey)
  cases pc with
  | join k key =>
    refine ⟨fun key' hkey => ?_, fun key' hkey => List.mem_cons_of_mem _ (h.order key' hkey)⟩
    rcases List.mem_cons.1 hkey with rfl | hkey
    · exact heffect.kept h.tids hpc (h.die key' (hminds.joining key' rfl)).1
    · exact hkept key' hkey
  | unhash k key =>
    refine ⟨hkept, fun key' hkey => ?_⟩
    rcases List.mem_cons.1 hkey with rfl | hkey
    · exact (hminds.unhashing key' rfl).1
    · exact h.order key' hkey
  | joinOne key => cases hminds.calm
  | _ => exact ⟨hkept, h.order⟩

/-- Who is in `thread_hash` has not been destroyed. -/
theorem Traced.hash_of_effect (h : s.Traced f) (hpc : s.threads.pcOf t = some pc)
    (heffect : s.Effect t pc s' pc') {key : ℕ} (hkey : key ∈ s'.tp.threadHash) :
    key ∈ s.threads.tids ∧ key ∉ (pc.fate f).destroyed := by
  have hminds : s.Minds f pc := h.minds _ (Threads.mem_of_pcOf hpc)
  rw [heffect.hash] at hkey
  cases pc with
  | unhash k key' =>
    obtain ⟨hne, hin⟩ := (h.hashNodup.mem_erase_iff).1 hkey
    refine ⟨(h.hash key hin).1, fun hdestroyed => ?_⟩
    exact (List.mem_cons.1 hdestroyed).elim hne (h.hash key hin).2
  | hash k need key' =>
    rcases List.mem_cons.1 hkey with rfl | hin
    · obtain ⟨htids, -, hnot⟩ := hminds.hashing key rfl
      exact ⟨htids, hnot⟩
    · exact h.hash key hin
  | joinOne key' => cases hminds.calm
  | _ => exact h.hash key hkey

/-- A thread that has a dead worker in hand owns the lock of `thread_die_hash`. -/
theorem mem_locks_of_reaping (h : pc.joining ≠ none ∨ pc.unhashing ≠ none) :
    Lock.dieHash ∈ pc.locks := by
  cases pc with
  | join | unhash => simp [Point.locks]
  | _ => exact absurd rfl (h.elim id id)

/-- A thread that has a new worker in hand owns `state_mutex`. -/
theorem mem_locks_of_hashing (h : pc.hashing ≠ none) : Lock.state ∈ pc.locks := by
  cases pc with
  | hash => simp [Point.locks]
  | _ => exact absurd rfl h

/-- What holds where the thread that has taken the step has come to. -/
theorem Traced.minds_self (h : s.Traced f) (hpc : s.threads.pcOf t = some pc)
    (heffect : s.Effect t pc s' pc')
    (hhashing : ∀ key, pc'.hashing = some key →
      key ∈ s'.threads.tids ∧ key ∉ s'.tp.threadHash ∧ key ∉ (pc.fate f).destroyed) :
    s'.Minds (pc.fate f) pc' := by
  have hminds : s.Minds f pc := h.minds _ (Threads.mem_of_pcOf hpc)
  refine ⟨?_, heffect.joining, fun key hkey => ?_, hhashing⟩
  · exact Nat.le_zero.1 (hminds.calm ▸ heffect.destroying)
  · obtain ⟨hjoining, -⟩ := heffect.unhashing key hkey
    have hnot := (h.die key (hminds.joining key hjoining)).2
    cases pc with
    | join k key' =>
      cases hjoining
      exact ⟨List.mem_cons_self .., fun hdestroyed => hnot (h.order key hdestroyed)⟩
    | _ => cases hjoining

/-- What holds where another thread is: it does not have the same worker in hand. -/
theorem Traced.minds_other (h : s.Traced f) (hpc : s.threads.pcOf t = some pc)
    (heffect : s.Effect t pc s' pc')
    (hreg : ∀ key ∈ pc.unhashing, ∀ th ∈ s.threads, th.pc.hashing ≠ some key) {th : Thread Point}
    (hmem : th ∈ s.threads) (hne : th.tid ≠ t) : s'.Minds (pc.fate f) th.pc := by
  have hminds : s.Minds f pc := h.minds _ (Threads.mem_of_pcOf hpc)
  have hth := h.minds th hmem
  have hthpc := Threads.pcOf_of_mem h.tids hmem
  have hunique (l : Lock) (hl : l ∈ th.pc.locks) (hl' : l ∈ pc.locks) : False :=
    hne (h.owned.unique hthpc hpc hl hl')
  have htids : s'.threads.tids = s.threads.tids := by
    rw [heffect.threads, Threads.tids_goto h.tids hpc]
  refine ⟨hth.calm, fun key hkey => ?_, fun key hkey => ?_, fun key hkey => ?_⟩
  · have hin := hth.joining key hkey
    have hlock := mem_locks_of_reaping (.inl (Option.ne_none_iff_exists'.2 ⟨key, hkey⟩))
    rw [heffect.die]
    cases pc with
    | join k key' => exact (hunique .dieHash hlock (by simp [Point.locks])).elim
    | record => exact List.mem_cons_of_mem _ hin
    | _ => exact hin
  · obtain ⟨hin, hnot⟩ := hth.unhashing key hkey
    have hlock := mem_locks_of_reaping (.inr (Option.ne_none_iff_exists'.2 ⟨key, hkey⟩))
    cases pc with
    | join k key' => exact (hunique .dieHash hlock (by simp [Point.locks])).elim
    | unhash k key' => exact (hunique .dieHash hlock (by simp [Point.locks])).elim
    | joinOne key' => cases hminds.calm
    | _ => exact ⟨hin, hnot⟩
  · obtain ⟨hin, hhash, hnot⟩ := hth.hashing key hkey
    rw [htids, heffect.hash]
    cases pc with
    | unhash k key' =>
      refine ⟨hin, fun herase => hhash (List.mem_of_mem_erase herase), fun hdestroyed => ?_⟩
      rcases List.mem_cons.1 hdestroyed with rfl | hdestroyed
      · exact hreg key rfl th hmem hkey
      · exact hnot hdestroyed
    | hash k need key' =>
      have hlock := mem_locks_of_hashing (Option.ne_none_iff_exists'.2 ⟨key, hkey⟩)
      exact (hunique .state hlock (by simp [Point.locks])).elim
    | joinOne key' => cases hminds.calm
    | _ => exact ⟨hin, hhash, hnot⟩

/-- A step of a thread. -/
theorem Traced.step (h : s.Traced f) (hpc : s.threads.pcOf t = some pc)
    (heffect : s.Effect t pc s' pc')
    (hreg : ∀ key ∈ pc.unhashing, ∀ th ∈ s.threads, th.pc.hashing ≠ some key)
    (hhashing : ∀ key, pc'.hashing = some key →
      key ∈ s'.threads.tids ∧ key ∉ s'.tp.threadHash ∧ key ∉ (pc.fate f).destroyed) :
    s'.Traced (pc.fate f) := by
  have htids : s'.threads.tids = s.threads.tids := by
    rw [heffect.threads, Threads.tids_goto h.tids hpc]
  obtain ⟨hdie, hhash, hjoined, hdestroyed⟩ := h.nodup hpc heffect
  obtain ⟨hended, horder⟩ := h.ended_of_effect hpc heffect
  refine ⟨htids ▸ h.tids, ?_, hjoined, hdestroyed, hdie, hhash,
    fun key => h.die_of_effect hpc heffect, hended, horder,
    fun key => htids ▸ h.hash_of_effect hpc heffect, fun th hmem => ?_⟩
  · rw [heffect.threads]
    exact h.owned.goto h.tids hpc heffect.owner heffect.free
  · rw [heffect.threads, Threads.mem_goto h.tids hpc] at hmem
    rcases hmem with rfl | ⟨hmem, hne⟩
    · exact h.minds_self hpc heffect hhashing
    · exact h.minds_other hpc heffect hreg hmem hne

/-! ## A step of the pool -/

/-- A new thread. -/
theorem Traced.enter (h : s.Traced f) (hquiet : pc.quiet) (hstep : s.enter t pc = some s') :
    s'.Traced f := by
  rw [TPSys.enter] at hstep
  split_ifs at hstep with ht
  cases hstep
  have hended {key : ℕ} (hkey : s.Ended key) :
      Threads.pcOf (⟨t, pc⟩ :: s.threads) key = some .ended := by
    have hne : key ≠ t := by
      rintro rfl
      exact ht (mem_tids_of_ended hkey)
    exact (Threads.pcOf_cons_of_ne hne).trans hkey
  refine ⟨List.nodup_cons.2 ⟨ht, h.tids⟩, h.owned.cons ht (Point.locks_of_quiet hquiet), h.joined,
    h.destroyed, h.dieNodup, h.hashNodup, fun key hkey => ?_, fun key hkey => ?_, h.order,
    fun key hkey => ?_, fun th hmem => ?_⟩
  · exact ⟨hended (h.die key hkey).1, (h.die key hkey).2⟩
  · exact hended (h.ended key hkey)
  · exact ⟨List.mem_cons_of_mem _ (h.hash key hkey).1, (h.hash key hkey).2⟩
  · rcases List.mem_cons.1 hmem with rfl | hmem
    · exact .of_quiet hquiet
    · have hth := h.minds th hmem
      refine ⟨hth.calm, hth.joining, hth.unhashing, fun key hkey => ?_⟩
      obtain ⟨hin, hrest⟩ := hth.hashing key hkey
      exact ⟨List.mem_cons_of_mem _ hin, hrest⟩

/-- A step of a pool that is not destroyed. -/
theorem Traced.next (h : s.Traced f) (hact : a.undestroyed) (hreg : Registered (s, f) a)
    (hstep : s.next a = some s') : s'.Traced (s.fates f a) := by
  cases a with
  | addJob t =>
    rw [TPSys.next] at hstep
    split_ifs at hstep
    exact h.enter rfl hstep
  | destroy t => cases hact
  | run t =>
    obtain ⟨pc, hpc, hstep⟩ := Option.bind_eq_some_iff.1 hstep
    obtain ⟨pc', heffect, hnone⟩ := advance_effect hstep
    rw [fates, hpc]
    refine h.step hpc heffect (hreg pc hpc) fun key hkey => ?_
    rw [hnone] at hkey
    cases hkey
  | launch t key =>
    rw [TPSys.next] at hstep
    split at hstep
    · rename_i k need hpc
      obtain ⟨s₁, hs₁, rfl⟩ := Option.map_eq_some_iff.1 hstep
      have h₁ := h.enter rfl hs₁
      rw [TPSys.enter] at hs₁
      split_ifs at hs₁ with hkey
      cases hs₁
      have hne : t ≠ key := by
        rintro rfl
        exact hkey (List.mem_map_of_mem (Threads.mem_of_pcOf hpc))
      have hpc₁ : Threads.pcOf (⟨key, .start⟩ :: s.threads) t = some (.launch k need) :=
        (Threads.pcOf_cons_of_ne hne).trans hpc
      refine h₁.step hpc₁ launch_effect (fun key hkey => by cases hkey) fun key' hkey' => ?_
      cases hkey'
      -- The name is new.
      refine ⟨?_, fun hin => hkey (h.hash key hin).1,
        fun hin => hkey (mem_tids_of_ended (h.ended key (h.order key hin)))⟩
      rw [goto, Threads.tids_goto h₁.tids hpc₁]
      exact List.mem_cons_self ..
    · cases hstep
  | fail t =>
    rw [TPSys.next] at hstep
    split at hstep
    · rename_i k need hpc
      cases hstep
      exact h.step hpc fail_effect (fun key hkey => by cases hkey) fun key hkey => by cases hkey
    · cases hstep
  | timeOut t =>
    rw [TPSys.next] at hstep
    split at hstep
    · rename_i idleSec hpc
      cases hstep
      exact h.step hpc timeOut_effect (fun key hkey => by cases hkey) fun key hkey => by cases hkey
    · cases hstep

theorem create_traced (min max idleSec : ℕ) : (create min max idleSec).Traced {} := by
  refine ⟨List.nodup_singleton 0, create_owned min max idleSec, .nil, .nil, .nil, .nil,
    fun key hkey => absurd hkey List.not_mem_nil, fun key hkey => absurd hkey List.not_mem_nil,
    fun key hkey => absurd hkey List.not_mem_nil, fun key hkey => absurd hkey List.not_mem_nil,
    fun th hth => ?_⟩
  cases List.mem_singleton.1 hth
  exact .of_quiet rfl

/-- In a run of a pool that is not destroyed where every worker is in `thread_hash` when it is
    to be taken out of it, no worker is joined or destroyed twice, and none that has been
    destroyed is in one of the hashes, in any state. -/
theorem always_buried {min max idleSec : ℕ} {as : List Act} (hact : ∀ a ∈ as, a.undestroyed)
    (hreg : Along (blocking watch) Registered (create min max idleSec, {}) as) :
    Always (blocking watch) Buried (create min max idleSec, {}) as := by
  refine Always.of_along (J := fun r => r.1.Traced r.2) (fun r h => h.buried) ?_
    (create_traced min max idleSec) (hreg.and_of_forall hact)
  rintro ⟨s, f⟩ a r' h ⟨hact, hreg⟩ hstep
  obtain ⟨s', hnext, rfl⟩ := Option.map_eq_some_iff.1 hstep
  exact h.next hact hreg hnext

/-- A worker that its creator has put in `thread_hash` is destroyed by another one. -/
theorem always_buried_one :
    Always (blocking watch) Buried (create 1 2 0, {})
      [.run 0, .run 0, .run 0, .run 0, .launch 0 1, .run 0, .run 0, .run 1, .addJob 2, .run 2,
      .run 2, .run 2, .run 2, .run 2, .launch 2 3, .run 2, .run 2, .run 1, .run 1, .run 1, .run 1,
      .run 1, .run 1, .run 1, .run 1, .run 3, .run 3, .run 3, .timeOut 3, .run 3, .run 3, .run 3,
      .run 3, .run 3, .run 3, .run 3, .run 1, .run 1, .timeOut 1, .run 1, .run 1, .run 1, .run 1,
      .run 1] :=
  always_buried (by decide) (by decide +kernel)

/-- A worker leaves, and is destroyed, before its creator has put it in `thread_hash`. -/
theorem not_always_buried :
    ¬∀ min max idleSec as, min ≤ max → (∀ a ∈ as, a.undestroyed) →
      Always (blocking watch) Buried (create min max idleSec, {}) as := by
  intro h
  have hrun := h 1 2 0 [.run 0, .run 0, .run 0, .run 0, .launch 0 1, .run 0, .run 0, .run 1,
    .addJob 2, .run 2, .run 2, .run 2, .run 2, .run 2, .launch 2 3, .run 1, .run 1, .run 1, .run 1,
    .run 1, .run 1, .run 1, .run 1, .run 3, .run 3, .run 3, .timeOut 3, .run 3, .run 3, .run 3,
    .run 3, .run 3, .run 3, .run 3, .run 1, .run 1, .timeOut 1, .run 1, .run 1, .run 1, .run 1,
    .run 1, .run 2] (by decide) (by decide)
  have hend : okAnd (fun r => decide (3 ∈ r.2.2.destroyed ∧ 3 ∈ r.2.1.tp.threadHash))
      (calls (blocking watch) (create 1 2 0, {})
        [.run 0, .run 0, .run 0, .run 0, .launch 0 1, .run 0, .run 0, .run 1, .addJob 2, .run 2,
        .run 2, .run 2, .run 2, .run 2, .launch 2 3, .run 1, .run 1, .run 1, .run 1, .run 1,
        .run 1, .run 1, .run 1, .run 3, .run 3, .run 3, .timeOut 3, .run 3, .run 3, .run 3, .run 3,
        .run 3, .run 3, .run 3, .run 1, .run 1, .timeOut 1, .run 1, .run 1, .run 1, .run 1, .run 1,
        .run 2]) = true := by
    decide +kernel
  obtain ⟨⟨os, r⟩, hcalls, hlast⟩ := okAnd_iff.1 hend
  obtain ⟨hdestroyed, hin⟩ := of_decide_eq_true hlast
  exact ((hrun.last hcalls).gone 3 hdestroyed).1 hin

end TPSys

end Libks
