import Libks.Base.Threads

/-!
# Locks

The locks that threads hold at the points they have come to. A lock has one owner,
if any: the thread that has come to a point where it is held (`Owned`). A thread
that takes a step gives up the locks it does not hold at the next point, and
becomes the owner of those it holds there and has not held before, which
nobody may own (`Owned.goto`).
-/

namespace Base

namespace Threads

variable {π Λ : Type} {ths : Threads π} {t u : ℕ} {pc pc' : π}

theorem pcOf_of_mem (hnd : ths.tids.Nodup) (h : ⟨t, pc⟩ ∈ ths) : ths.pcOf t = some pc := by
  obtain ⟨xs, ys, rfl⟩ := List.append_of_mem h
  rw [tids] at hnd
  have hfind : (xs ++ ⟨t, pc⟩ :: ys).find? (Thread.tid · = t) = some ⟨t, pc⟩ :=
    find_of_nodup hnd
  rw [pcOf, hfind]
  rfl

theorem pcOf_goto_self (hnd : ths.tids.Nodup) (h : ths.pcOf t = some pc) :
    (ths.goto t pc').pcOf t = some pc' := by
  refine pcOf_of_mem (by rwa [tids_goto hnd h]) ?_
  exact (mem_goto hnd h).2 (.inl rfl)

theorem pcOf_goto_of_ne (hnd : ths.tids.Nodup) (h : ths.pcOf t = some pc) (hne : u ≠ t) :
    (ths.goto t pc').pcOf u = ths.pcOf u := by
  obtain ⟨xs, ys, rfl, hgoto⟩ := split_of_pcOf hnd h
  rw [hgoto]
  simp [pcOf, List.find?_append, hne.symm]

theorem pcOf_cons_self : pcOf (⟨t, pc⟩ :: ths) t = some pc := by
  simp [pcOf]

theorem pcOf_cons_of_ne (hne : u ≠ t) : pcOf (⟨t, pc⟩ :: ths) u = ths.pcOf u := by
  simp [pcOf, hne.symm]

theorem pcOf_eq_none (h : t ∉ ths.tids) : ths.pcOf t = none := by
  rw [pcOf, Option.map_eq_none_iff, List.find?_eq_none]
  intro th hth heq
  exact h (of_decide_eq_true heq ▸ List.mem_map_of_mem hth)

/-- The owner of a lock is the thread that holds it at its point. -/
def Owned (held : π → List Λ) (owner : Λ → Option ℕ) (ths : Threads π) : Prop :=
  ∀ l t, owner l = some t ↔ ∃ pc, ths.pcOf t = some pc ∧ l ∈ held pc

variable {held : π → List Λ} {owner owner' : Λ → Option ℕ} {l : Λ}

/-- Who holds a lock at its point is its owner. -/
theorem Owned.eq_some (h : Owned held owner ths) (hpc : ths.pcOf t = some pc) (hl : l ∈ held pc) :
    owner l = some t := (h l t).2 ⟨pc, hpc, hl⟩

/-- Two threads do not hold the same lock. -/
theorem Owned.unique (h : Owned held owner ths) (hpc : ths.pcOf t = some pc)
    (hpc' : ths.pcOf u = some pc') (hl : l ∈ held pc) (hl' : l ∈ held pc') : t = u :=
  Option.some.inj ((h.eq_some hpc hl).symm.trans (h.eq_some hpc' hl'))

/-- A lock that nobody owns is not held. -/
theorem Owned.not_mem (h : Owned held owner ths) (hpc : ths.pcOf t = some pc)
    (hnone : owner l = none) : l ∉ held pc := by
  intro hl
  rw [h.eq_some hpc hl] at hnone
  cases hnone

/-- A step of a thread, and what it does to the locks. -/
theorem Owned.goto [DecidableEq Λ] (h : Owned held owner ths) (hnd : ths.tids.Nodup)
    (hpc : ths.pcOf t = some pc)
    (howner : ∀ l, owner' l = if l ∈ held pc' ↔ l ∈ held pc then owner l
      else if l ∈ held pc' then some t else none)
    (hfree : ∀ l ∈ held pc', l ∈ held pc ∨ owner l = none) :
    Owned held owner' (ths.goto t pc') := by
  intro l u
  rw [howner]
  by_cases hu : u = t
  · subst hu
    have hold := h l u
    rw [pcOf_goto_self hnd hpc]
    rw [hpc] at hold
    simp only [Option.some_inj, exists_eq_left'] at hold ⊢
    split_ifs with hsame hnew
    · rw [hold, hsame]
    · exact iff_of_true rfl hnew
    · exact iff_of_false (fun heq => by cases heq) hnew
  · rw [pcOf_goto_of_ne hnd hpc hu]
    have hold := h l u
    split_ifs with hsame hnew
    · exact hold
    · have hnone := (hfree l hnew).resolve_left fun hl => hsame (iff_of_true hnew hl)
      rw [hnone] at hold
      refine iff_of_false (fun heq => hu (Option.some.inj heq).symm) fun hother => ?_
      cases hold.2 hother
    · have hl : l ∈ held pc := by
        by_contra hl
        exact hsame (iff_of_false hnew hl)
      refine iff_of_false (fun heq => by cases heq) ?_
      rintro ⟨pc₁, hpc₁, hl₁⟩
      exact hu (h.unique hpc₁ hpc hl₁ hl)

/-- A new thread holds no locks. -/
theorem Owned.cons (h : Owned held owner ths) (ht : t ∉ ths.tids) (hnone : held pc = []) :
    Owned held owner (⟨t, pc⟩ :: ths) := by
  intro l u
  rw [h l u]
  by_cases hu : u = t
  · subst hu
    rw [pcOf_cons_self, pcOf_eq_none ht]
    simp [hnone]
  · rw [pcOf_cons_of_ne hu]

end Threads

end Base
