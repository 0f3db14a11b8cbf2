import Libks.Base.Keyed

/-!
# Threads with program counters

The threads of a program, each with the point it has come to. A thread that takes
a step goes to another point (`goto`). What the threads hold together, as the sum
of what each holds at its point, changes with that thread alone (`total_goto`).
-/

namespace Base

/-- A thread, and the point it has come to. -/
structure Thread (π : Type) where
  tid : ℕ
  pc : π
  deriving DecidableEq, Repr

/-- The threads of a program. -/
abbrev Threads (π : Type) := List (Thread π)

namespace Threads

variable {π : Type} {ths : Threads π} {th : Thread π} {t : ℕ} {pc pc' : π} {f g : π → ℕ}

/-- The names of the threads. -/
def tids (ths : Threads π) : List ℕ := ths.map Thread.tid

/-- The point that the thread `t` has come to. -/
def pcOf (ths : Threads π) (t : ℕ) : Option π := (ths.find? (Thread.tid · = t)).map Thread.pc

/-- The thread `t` goes to another point. -/
def goto (ths : Threads π) (t : ℕ) (pc : π) : Threads π := edit Thread.tid t (fun _ => [⟨t, pc⟩]) ths

/-- What the threads hold together. -/
def total (f : π → ℕ) : Threads π → ℕ
  | [] => 0
  | th :: ths => f th.pc + total f ths

theorem split_of_pcOf (hnd : ths.tids.Nodup) (h : ths.pcOf t = some pc) :
    ∃ xs ys, ths = xs ++ ⟨t, pc⟩ :: ys ∧ ∀ pc', ths.goto t pc' = xs ++ ⟨t, pc'⟩ :: ys := by
  obtain ⟨th, hfind, rfl⟩ := Option.map_eq_some_iff.1 h
  obtain rfl : th.tid = t := by simpa using List.find?_some hfind
  obtain ⟨xs, ys, rfl⟩ := List.append_of_mem (List.mem_of_find?_eq_some hfind)
  exact ⟨xs, ys, rfl, fun pc' => edit_of_nodup hnd⟩

theorem mem_of_pcOf (h : ths.pcOf t = some pc) : ⟨t, pc⟩ ∈ ths := by
  obtain ⟨th, hfind, rfl⟩ := Option.map_eq_some_iff.1 h
  obtain rfl : th.tid = t := by simpa using List.find?_some hfind
  exact List.mem_of_find?_eq_some hfind

/-- The other threads stay where they are. -/
theorem mem_goto (hnd : ths.tids.Nodup) (h : ths.pcOf t = some pc) :
    th ∈ ths.goto t pc' ↔ th = ⟨t, pc'⟩ ∨ th ∈ ths ∧ th.tid ≠ t := by
  obtain ⟨xs, ys, rfl, hgoto⟩ := split_of_pcOf hnd h
  rw [tids, List.map_append, List.map_cons, List.nodup_middle, List.nodup_cons,
    ← List.map_append] at hnd
  have hne (hth : th ∈ xs ++ ys) : th.tid ≠ t := by
    rintro rfl
    exact hnd.1 (List.mem_map.2 ⟨th, hth, rfl⟩)
  rw [hgoto]
  simp only [List.mem_append, List.mem_cons] at hne ⊢
  constructor
  · rintro (hth | rfl | hth)
    · exact .inr ⟨.inl hth, hne (.inl hth)⟩
    · exact .inl rfl
    · exact .inr ⟨.inr (.inr hth), hne (.inr hth)⟩
  · rintro (rfl | ⟨hth | rfl | hth, ht⟩)
    · exact .inr (.inl rfl)
    · exact .inl hth
    · exact absurd rfl ht
    · exact .inr (.inr hth)

theorem tids_goto (hnd : ths.tids.Nodup) (h : ths.pcOf t = some pc) :
    (ths.goto t pc').tids = ths.tids := by
  obtain ⟨xs, ys, rfl, hgoto⟩ := split_of_pcOf hnd h
  rw [hgoto, tids, tids, List.map_append, List.map_append]
  rfl

/-- A step of one thread leaves a new one alone. -/
theorem goto_cons (h : th.tid ≠ t) : goto (th :: ths) t pc = th :: goto ths t pc := by
  rw [goto, edit, List.flatMap_cons, if_neg h]
  rfl

theorem total_cons : total f (th :: ths) = f th.pc + total f ths := rfl

theorem total_append (f : π → ℕ) (xs ys : Threads π) :
    total f (xs ++ ys) = total f xs + total f ys := by
  induction xs with
  | nil => exact (Nat.zero_add _).symm
  | cons th xs ih => rw [List.cons_append, total_cons, total_cons, ih, Nat.add_assoc]

/-- A step changes what its own thread holds. -/
theorem total_goto (hnd : ths.tids.Nodup) (h : ths.pcOf t = some pc) (f : π → ℕ) (pc' : π) :
    total f (ths.goto t pc') + f pc = total f ths + f pc' := by
  obtain ⟨xs, ys, rfl, hgoto⟩ := split_of_pcOf hnd h
  rw [hgoto, total_append, total_append, total_cons, total_cons]
  dsimp only
  omega

/-- A thread holds no more than all of them. -/
theorem le_total (h : th ∈ ths) (f : π → ℕ) : f th.pc ≤ total f ths := by
  obtain ⟨xs, ys, rfl⟩ := List.append_of_mem h
  rw [total_append, total_cons]
  omega

/-- Two threads hold no more than all of them. -/
theorem add_le_total {u : ℕ} (h : ⟨t, pc⟩ ∈ ths) (h' : ⟨u, pc'⟩ ∈ ths) (hne : u ≠ t) (f : π → ℕ) :
    f pc + f pc' ≤ total f ths := by
  obtain ⟨xs, ys, rfl⟩ := List.append_of_mem h
  have hmem : ⟨u, pc'⟩ ∈ xs ++ ys := by
    rcases List.mem_append.1 h' with h' | h'
    · exact List.mem_append_left _ h'
    · rcases List.mem_cons.1 h' with h' | h'
      · exact absurd (congrArg Thread.tid h') hne
      · exact List.mem_append_right _ h'
  have hle := le_total hmem f
  rw [total_append] at hle
  rw [total_append, total_cons]
  dsimp only at hle ⊢
  omega

theorem total_mono (h : ∀ pc, f pc ≤ g pc) (ths : Threads π) : total f ths ≤ total g ths := by
  induction ths with
  | nil => exact Nat.le_refl _
  | cons th ths ih => exact Nat.add_le_add (h th.pc) ih

/-- Where each thread holds no more of one thing than of another, all of them do not
    either, and the difference is at least that of each. -/
theorem total_add_le (h : ∀ pc, f pc ≤ g pc) (hth : th ∈ ths) :
    total f ths + g th.pc ≤ total g ths + f th.pc := by
  obtain ⟨xs, ys, rfl⟩ := List.append_of_mem hth
  have hxs := total_mono h xs
  have hys := total_mono h ys
  rw [total_append, total_append, total_cons, total_cons]
  omega

theorem total_add (f g : π → ℕ) (ths : Threads π) :
    total (fun pc => f pc + g pc) ths = total f ths + total g ths := by
  induction ths with
  | nil => rfl
  | cons th ths ih =>
    rw [total_cons, total_cons, total_cons, ih]
    omega

/-- Something is held if and only if some thread holds it. -/
theorem total_eq_zero_iff : total f ths = 0 ↔ ∀ th ∈ ths, f th.pc = 0 := by
  induction ths with
  | nil => exact iff_of_true rfl fun th hth => absurd hth List.not_mem_nil
  | cons th ths ih => rw [total_cons, Nat.add_eq_zero_iff, ih, List.forall_mem_cons]

end Threads

end Base
