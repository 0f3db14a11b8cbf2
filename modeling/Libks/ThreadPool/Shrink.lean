import Libks.ThreadPool.Steps

/-!
# The workers that an idle pool keeps

A worker that has been idle for long enough decides to die where `running_thread_count` is
above `min`. The threads that have decided to die are counted there until they have left,
so that several of them may decide one after the other, and leave fewer than `min`
behind. None does as long as the pool has more than `min` running threads besides those
that are dying when one decides (`keeps_of_spares`); where no counter wraps, this is also
necessary (`spares_of_keeps`).
-/

namespace Libks

open Base

namespace Point

/-- A worker between its first and its last section that has not decided to die. -/
def staying : Point → ℕ
  | .leave true => 0
  | pc => pc.running

theorem staying_add_dying (pc : Point) : pc.staying + pc.dying = pc.running := by
  cases pc with
  | leave die => cases die <;> rfl
  | _ => rfl

end Point

namespace TPSys

/-- The thread `t` decides to die. -/
def Decides (s s' : TPSys) (t : ℕ) : Prop :=
  (∃ pc ∈ s.threads.pcOf t, pc.idling) ∧ s'.threads.pcOf t = some (.leave true)

/-- Who decides to die leaves `min` running threads behind that have not decided to. -/
def Keeps (s : TPSys) (a : Act) : Prop :=
  ∀ s' t, s.next a = some s' → s.Decides s' t → s.tp.min ≤ s'.threads.total Point.staying

/-- A worker that finds that it is to die does so where more than `min` running threads are
    not dying. -/
def Spares (s : TPSys) : Act → Prop
  | .run t => (∃ pc ∈ s.threads.pcOf t, pc.idling) → s.mutex = none → s.tp.Dispensable →
      s.tp.min < sub32 s.tp.runningThreadCount s.tp.dyingThreadCount
  | _ => True

instance (s s' : TPSys) (t : ℕ) : Decidable (s.Decides s' t) :=
  inferInstanceAs (Decidable ((∃ _ ∈ _, _) ∧ _))

instance (s : TPSys) : DecidablePred s.Spares
  | .run _ => inferInstanceAs (Decidable ((∃ _ ∈ _, _) → _ → _ → _))
  | .addJob _ | .destroy _ | .launch _ _ | .fail _ | .timeOut _ => .isTrue trivial

/-- The counters count the running threads and those that are dying, modulo `2 ^ 32`. -/
structure Tallied (s : TPSys) : Prop where
  tids : s.threads.tids.Nodup
  running : s.tp.runningThreadCount = toUInt32 (s.threads.total Point.running)
  dying : s.tp.dyingThreadCount = toUInt32 (s.threads.total Point.dying)

variable {s s' : TPSys} {n t : ℕ} {pc pc' : Point} {a : Act}

theorem Tallied.step (h : s.Tallied) (hpc : s.threads.pcOf t = some pc)
    (heffect : s.Effect t pc s' pc') : s'.Tallied := by
  refine ⟨?_, ?_, ?_⟩
  · rw [heffect.threads, Threads.tids_goto h.tids hpc]
    exact h.tids
  · rw [heffect.threads]
    exact heffect.running.total h.tids hpc h.running
  · rw [heffect.threads]
    exact heffect.dying.total h.tids hpc h.dying

theorem Tallied.enter (h : s.Tallied) (hrunning : pc.running = 0) (hdying : pc.dying = 0)
    (hstep : s.enter t pc = some s') : s'.Tallied := by
  rw [TPSys.enter] at hstep
  split_ifs at hstep with ht
  cases hstep
  refine ⟨List.nodup_cons.2 ⟨ht, h.tids⟩, ?_, ?_⟩
  · rw [Threads.total_cons, hrunning, Nat.zero_add]
    exact h.running
  · rw [Threads.total_cons, hdying, Nat.zero_add]
    exact h.dying

/-- Every step keeps the tally. -/
theorem Tallied.next (h : s.Tallied) (hstep : s.next a = some s') : s'.Tallied := by
  cases a with
  | addJob t =>
    rw [TPSys.next] at hstep
    split_ifs at hstep
    exact h.enter rfl rfl hstep
  | destroy t =>
    rw [TPSys.next] at hstep
    split_ifs at hstep
    obtain ⟨s₁, hs₁, rfl⟩ := Option.map_eq_some_iff.1 hstep
    have h₁ := h.enter rfl rfl hs₁
    exact ⟨h₁.tids, h₁.running, h₁.dying⟩
  | run t =>
    obtain ⟨pc, hpc, hstep⟩ := Option.bind_eq_some_iff.1 hstep
    obtain ⟨pc', heffect, -⟩ := advance_effect hstep
    exact h.step hpc heffect
  | launch t key =>
    rw [TPSys.next] at hstep
    split at hstep
    · rename_i k need hpc
      obtain ⟨s₁, hs₁, rfl⟩ := Option.map_eq_some_iff.1 hstep
      have h₁ := h.enter rfl rfl hs₁
      rw [TPSys.enter] at hs₁
      split_ifs at hs₁ with hkey
      cases hs₁
      have hne : t ≠ key := by
        rintro rfl
        exact hkey (List.mem_map_of_mem (Threads.mem_of_pcOf hpc))
      have hpc₁ : Threads.pcOf (⟨key, .start⟩ :: s.threads) t = some (.launch k need) :=
        (Threads.pcOf_cons_of_ne hne).trans hpc
      exact h₁.step hpc₁ launch_effect
    · cases hstep
  | fail t =>
    rw [TPSys.next] at hstep
    split at hstep
    · rename_i k need hpc
      cases hstep
      exact h.step hpc fail_effect
    · cases hstep
  | timeOut t =>
    rw [TPSys.next] at hstep
    split at hstep
    · rename_i idleSec hpc
      cases hstep
      exact h.step hpc timeOut_effect
    · cases hstep

theorem create_tallied (min max idleSec : ℕ) : (create min max idleSec).Tallied :=
  ⟨by simp [create, Threads.tids], toUInt32_zero.symm, toUInt32_zero.symm⟩

/-! ## Decisions -/

theorem pcOf_enter (hpc : s.threads.pcOf t = some pc) {u : ℕ} (hstep : s.enter u pc' = some s') :
    s'.threads.pcOf t = some pc := by
  rw [TPSys.enter] at hstep
  split_ifs at hstep with hu
  cases hstep
  have hne : t ≠ u := by
    rintro rfl
    exact hu (List.mem_map_of_mem (Threads.mem_of_pcOf hpc))
  exact (Threads.pcOf_cons_of_ne hne).trans hpc

/-- A worker about to find out whether it is to die goes on by a step of its own only. -/
theorem run_of_idling (hnd : s.threads.tids.Nodup) (hpc : s.threads.pcOf t = some pc)
    (hidle : pc.idling) (hstep : s.next a = some s') :
    a = .run t ∨ s'.threads.pcOf t = some pc := by
  -- The steps of another thread.
  have hother {u : ℕ} {pc₁ pc₂ : Point} (hpc₁ : s.threads.pcOf u = some pc₁) (hne : t ≠ u) :
      (s.threads.goto u pc₂).pcOf t = some pc :=
    (Threads.pcOf_goto_of_ne hnd hpc₁ hne).trans hpc
  cases a with
  | addJob u =>
    rw [TPSys.next] at hstep
    split_ifs at hstep
    exact .inr (pcOf_enter hpc hstep)
  | destroy u =>
    rw [TPSys.next] at hstep
    split_ifs at hstep
    obtain ⟨s₁, hs₁, rfl⟩ := Option.map_eq_some_iff.1 hstep
    have hpc₁ := pcOf_enter hpc hs₁
    exact .inr hpc₁
  | run u =>
    by_cases hne : t = u
    · exact .inl (congrArg Act.run hne.symm)
    · obtain ⟨pc₁, hpc₁, hstep⟩ := Option.bind_eq_some_iff.1 hstep
      obtain ⟨pc₂, heffect, -⟩ := advance_effect hstep
      rw [heffect.threads]
      exact .inr (hother hpc₁ hne)
  | launch u key =>
    rw [TPSys.next] at hstep
    split at hstep
    · rename_i k need hpc₁
      obtain ⟨s₁, hs₁, rfl⟩ := Option.map_eq_some_iff.1 hstep
      have hne : t ≠ u := by
        rintro rfl
        cases hpc₁.symm.trans hpc
        cases hidle
      have hnd₁ : s₁.threads.tids.Nodup := by
        rw [TPSys.enter] at hs₁
        split_ifs at hs₁ with hkey
        cases hs₁
        exact List.nodup_cons.2 ⟨hkey, hnd⟩
      exact .inr ((Threads.pcOf_goto_of_ne hnd₁ (pcOf_enter hpc₁ hs₁) hne).trans
        (pcOf_enter hpc hs₁))
    · cases hstep
  | fail u =>
    rw [TPSys.next] at hstep
    split at hstep
    · rename_i k need hpc₁
      cases hstep
      refine .inr (hother hpc₁ ?_)
      rintro rfl
      cases hpc₁.symm.trans hpc
      cases hidle
    · cases hstep
  | timeOut u =>
    rw [TPSys.next] at hstep
    split at hstep
    · rename_i idleSec hpc₁
      cases hstep
      refine .inr (hother hpc₁ ?_)
      rintro rfl
      cases hpc₁.symm.trans hpc
      cases hidle
    · cases hstep

/-- The running threads that have not decided to die are those that the counters leave. -/
theorem total_staying (s : TPSys) :
    s.threads.total Point.staying + s.threads.total Point.dying = s.threads.total Point.running := by
  rw [← Threads.total_add]
  exact congrArg (s.threads.total ·) (funext Point.staying_add_dying)

/-- A decision takes one thread from those that stay. -/
theorem Decides.step (hnd : s.threads.tids.Nodup) (hstep : s.next a = some s')
    (h : s.Decides s' t) :
    a = .run t ∧ s.mutex = none ∧ s.tp.Dispensable ∧
      s'.threads.total Point.staying + 1 = s.threads.total Point.staying := by
  obtain ⟨⟨pc, hpc, hidle⟩, hdone⟩ := h
  cases pc with
  | idle idleSec =>
    rcases run_of_idling hnd hpc hidle hstep with rfl | hsame
    · obtain ⟨pc, hpc', hstep⟩ := Option.bind_eq_some_iff.1 hstep
      cases hpc.symm.trans hpc'
      obtain ⟨hfree, rfl⟩ := taking_eq_some.1 hstep
      by_cases hdie : s.tp.Dispensable
      · rw [if_pos hdie]
        have htotal := Threads.total_goto hnd hpc Point.staying (.leave true)
        exact ⟨rfl, hfree, hdie, htotal⟩
      · rw [if_neg hdie] at hdone
        rw [goto, Threads.pcOf_goto_self hnd hpc] at hdone
        cases hdone
    · cases hsame.symm.trans hdone
  | _ => cases hidle

/-- A worker that is spared is kept. -/
theorem Tallied.keeps (h : s.Tallied) (hspares : s.Spares a) : s.Keeps a := by
  intro s' t hstep hdecides
  obtain ⟨rfl, hfree, hdie, htotal⟩ := hdecides.step h.tids hstep
  have hlt := hspares hdecides.1 hfree hdie
  have hsum := s.total_staying
  have hsub : sub32 (toUInt32 (s.threads.total Point.running))
      (toUInt32 (s.threads.total Point.dying)) = toUInt32 (s.threads.total Point.staying) := by
    rw [sub32_toUInt32 (by omega)]
    congr 1
    omega
  rw [h.running, h.dying, hsub] at hlt
  have hle := toUInt32_le (s.threads.total Point.staying)
  omega

/-- Whatever the threads do, in whatever order: where every worker that decides to die is
    spared, none of them takes the threads that stay below the minimum. -/
theorem keeps_of_spares {min max idleSec : ℕ} {as : List Act}
    (h : Along (blocking next) Spares (create min max idleSec) as) :
    Along (blocking next) Keeps (create min max idleSec) as := by
  refine h.imp_of_kept (J := Tallied) ?_ (fun s a hs hspares => hs.keeps hspares)
    (create_tallied min max idleSec)
  intro s a o s' hs _ hstep
  exact hs.next (blocking_eq_ok.1 hstep)

/-- One of two workers decides to die, and the other one stays. -/
theorem keeps_of_spares_one :
    Along (blocking next) Keeps (create 1 2 0) [.run 0, .run 0, .run 0, .run 0, .launch 0 1,
      .run 0, .run 0, .addJob 2, .run 2, .run 2, .run 2, .run 2, .run 2, .launch 2 3, .run 2,
      .run 2, .run 1, .run 1, .run 1, .run 1, .run 1, .run 1, .run 1, .run 1, .run 1, .run 3,
      .run 3, .run 3, .run 1, .run 1, .timeOut 1, .timeOut 3, .run 1, .run 1, .run 1, .run 1,
      .run 1, .run 1, .run 1, .run 3, .run 3, .run 3, .run 3, .run 3, .run 3, .run 3, .run 3] :=
  keeps_of_spares (by decide +kernel)

/-- With a minimum of 1, both of two workers decide to die, the second one before the first
    has left. -/
theorem not_keeps :
    ¬∀ min max idleSec as, min ≤ max → Along (blocking next) Keeps (create min max idleSec) as := by
  intro h
  have hrun := h 1 2 0 ([.run 0, .run 0, .run 0, .run 0, .launch 0 1, .run 0, .run 0, .addJob 2,
    .run 2, .run 2, .run 2, .run 2, .run 2, .launch 2 3, .run 2, .run 2, .run 1, .run 1, .run 1,
    .run 1, .run 1, .run 1, .run 1, .run 1, .run 1, .run 3, .run 3, .run 3, .run 1, .run 1,
    .timeOut 1, .timeOut 3, .run 1, .run 1, .run 1, .run 1, .run 3, .run 3, .run 3, .run 3,
    .run 1] ++ [.run 3]) (by decide)
  have hend : okAnd (fun r => (r.2.next (.run 3)).any fun s' =>
      decide (r.2.Decides s' 3 ∧ s'.threads.total Point.staying < r.2.tp.min))
      (calls (blocking next) (create 1 2 0) [.run 0, .run 0, .run 0, .run 0, .launch 0 1, .run 0,
      .run 0, .addJob 2, .run 2, .run 2, .run 2, .run 2, .run 2, .launch 2 3, .run 2, .run 2,
      .run 1, .run 1, .run 1, .run 1, .run 1, .run 1, .run 1, .run 1, .run 1, .run 3, .run 3,
      .run 3, .run 1, .run 1, .timeOut 1, .timeOut 3, .run 1, .run 1, .run 1, .run 1, .run 3,
      .run 3, .run 3, .run 3, .run 1]) = true := by
    decide +kernel
  obtain ⟨⟨os, s⟩, hcalls, hany⟩ := okAnd_iff.1 hend
  obtain ⟨s', hstep, hlt⟩ := (Option.any_eq_true _ _).1 hany
  obtain ⟨hdecides, hlt⟩ := of_decide_eq_true hlt
  exact absurd (hrun.last hcalls s' 3 hstep hdecides) (Nat.not_le.2 hlt)

/-- Where the counters count threads, a worker that is not spared takes too many away. -/
theorem Counts.spares (h : s.Counts n) (hkeeps : s.Keeps a) : s.Spares a := by
  cases a with
  | run t =>
    rintro ⟨pc, hpc, hidle⟩ hfree hdie
    cases pc with
    | idle idleSec =>
      have hstep : s.next (.run t) = some { s.goto t (.leave true) with
          tp := { s.tp with dyingThreadCount := incr32 s.tp.dyingThreadCount } } := by
        rw [TPSys.next, hpc, Option.bind_some, TPSys.advance, if_pos hdie]
        exact taking_eq_some.2 ⟨hfree, rfl⟩
      have hdecides : s.Decides { s.goto t (.leave true) with
          tp := { s.tp with dyingThreadCount := incr32 s.tp.dyingThreadCount } } t :=
        ⟨⟨_, hpc, rfl⟩, Threads.pcOf_goto_self h.tids hpc⟩
      have hle := hkeeps _ t hstep hdecides
      obtain ⟨-, -, -, htotal⟩ := hdecides.step h.tids hstep
      have hsum := s.total_staying
      have hcounted := h.counted
      have hlt := h.lt
      rw [← h.running, ← h.dying] at hsum
      rw [sub32_of_le (by have := hcounted.busy; omega) (by have := hcounted.running; omega)]
      omega
    | _ => cases hidle
  | _ => trivial

/-- Where no thread is counted when `thread_count` cannot hold one more, every worker that
    decides to die has to be spared. -/
theorem spares_of_keeps {min max idleSec : ℕ} {as : List Act} (hmin : min < 2 ^ 32)
    (hroom : Along (blocking next) Countable (create min max idleSec) as)
    (h : Along (blocking next) Keeps (create min max idleSec) as) :
    Along (blocking next) Spares (create min max idleSec) as := by
  refine (hroom.and h).imp_of_kept (J := fun s => ∃ n, s.Counts n) ?_ ?_ ⟨0, create_counts hmin⟩
  · rintro s a o s' ⟨n, hs⟩ ⟨hroom, -⟩ hstep
    exact hs.next hroom (blocking_eq_ok.1 hstep)
  · rintro s a ⟨n, hs⟩ ⟨-, hkeeps⟩
    exact hs.spares hkeeps

end TPSys

end Libks
