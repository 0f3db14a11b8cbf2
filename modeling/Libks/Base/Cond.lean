import Libks.Base.Keyed

/-!
# Condition variables

The threads that wait on a condition variable, each with what it holds on to
while it waits. A signal marks one waiter that has not been signalled before, if
there is any, and a broadcast marks all of them; a waiter that goes on, marked or
not, leaves. What counts is how many waiters are `asleep`, and how many `woken`
ones are yet to go on.
-/

namespace Base

/-- A thread that waits. -/
structure Waiter (α : Type) where
  tid : ℕ
  arg : α
  signalled : Bool := false

/-- The threads that wait on a condition variable. -/
abbrev Cond (α : Type) := List (Waiter α)

namespace Cond

variable {α : Type} {c xs ys : Cond α} {w : Waiter α} {t : ℕ} {o : Option ℕ}

/-- The threads that wait. -/
def tids (c : Cond α) : List ℕ := c.map Waiter.tid

@[simp] theorem length_tids (c : Cond α) : c.tids.length = c.length := List.length_map _

/-- How many waiters have not been signalled. -/
def asleep (c : Cond α) : ℕ := c.countP fun w => !w.signalled

/-- How many waiters have been signalled, and have not gone on. -/
def woken (c : Cond α) : ℕ := c.countP Waiter.signalled

/-- The waiter `t`. -/
def waiter (c : Cond α) (t : ℕ) : Option (Waiter α) := c.find? (Waiter.tid · = t)

/-- The thread `t` starts to wait. -/
def wait (c : Cond α) (t : ℕ) (a : α) : Cond α := ⟨t, a, false⟩ :: c

/-- The waiter `t`, if there is one to mark, is marked. -/
def signal (c : Cond α) : Option ℕ → Cond α
  | none => c
  | some t => edit Waiter.tid t (fun w => [{ w with signalled := true }]) c

/-- All waiters are marked. -/
def broadcast (c : Cond α) : Cond α := c.map fun w => { w with signalled := true }

/-- The waiter `t` goes on. -/
def leave (c : Cond α) (t : ℕ) : Cond α := edit Waiter.tid t (fun _ => []) c

/-- A signal may mark this waiter, or none if all are marked. -/
def Picks (c : Cond α) : Option ℕ → Prop
  | none => c.asleep = 0
  | some t => ∃ w ∈ c, w.tid = t ∧ w.signalled = false

instance (c : Cond α) : DecidablePred c.Picks
  | none => inferInstanceAs (Decidable (_ = _))
  | some _ => inferInstanceAs (Decidable (∃ _ ∈ _, _))

/-- The waiter `t` has been signalled. -/
def Signalled (c : Cond α) (t : ℕ) : Prop := ∃ w ∈ c, w.tid = t ∧ w.signalled = true

instance (c : Cond α) : DecidablePred c.Signalled :=
  fun _ => inferInstanceAs (Decidable (∃ _ ∈ _, _))

@[simp] theorem asleep_nil : asleep ([] : Cond α) = 0 := rfl

/-- One waiter among the others is asleep or not. -/
theorem asleep_append_cons : asleep (xs ++ w :: ys) =
    asleep (xs ++ ys) + if w.signalled then 0 else 1 := by
  rw [asleep, asleep, List.countP_append, List.countP_append, List.countP_cons, ← Nat.add_assoc]
  cases w.signalled <;> rfl

/-- One waiter among the others is woken or not. -/
theorem woken_append_cons : woken (xs ++ w :: ys) =
    woken (xs ++ ys) + if w.signalled then 1 else 0 := by
  rw [woken, woken, List.countP_append, List.countP_append, List.countP_cons, ← Nat.add_assoc]

@[simp] theorem length_wait (c : Cond α) (t : ℕ) (a : α) : (c.wait t a).length = c.length + 1 := rfl

/-- A broadcast leaves nobody asleep. -/
@[simp] theorem asleep_broadcast (c : Cond α) : c.broadcast.asleep = 0 := by
  rw [asleep, broadcast, List.countP_map, List.countP_eq_zero]
  exact fun _ _ => Bool.false_ne_true

/-- A broadcast leaves everybody where they are. -/
@[simp] theorem tids_broadcast (c : Cond α) : c.broadcast.tids = c.tids := by
  rw [tids, tids, broadcast, List.map_map]
  rfl

/-- Where a waiter stands. -/
theorem exists_waiter (hnd : c.tids.Nodup) (ht : t ∈ c.tids) :
    ∃ xs w ys, c = xs ++ w :: ys ∧ w.tid = t ∧ c.waiter t = some w := by
  obtain ⟨xs, w, ys, rfl, rfl⟩ := exists_of_mem_keys ht
  exact ⟨xs, w, ys, rfl, rfl, find_of_nodup hnd⟩

/-- A waiter that leaves is taken out of its place. -/
theorem leave_eq (hnd : (tids (xs ++ w :: ys)).Nodup) : leave (xs ++ w :: ys) w.tid = xs ++ ys :=
  edit_of_nodup hnd

/-- The others stay in their order. -/
theorem leave_sublist (c : Cond α) (t : ℕ) : (c.leave t).Sublist c := by
  induction c with
  | nil => exact List.nil_sublist _
  | cons w c ih =>
    rw [leave, edit, List.flatMap_cons, ← edit, ← leave]
    split_ifs
    · exact ih.cons w
    · exact ih.cons_cons w

theorem tids_leave_sublist (c : Cond α) (t : ℕ) : (c.leave t).tids.Sublist c.tids :=
  (leave_sublist c t).map _

/-- A waiter that leaves makes the list shorter by one. -/
theorem length_leave (hnd : c.tids.Nodup) (ht : t ∈ c.tids) :
    (c.leave t).length + 1 = c.length := by
  obtain ⟨xs, w, ys, rfl, rfl, -⟩ := exists_waiter hnd ht
  rw [leave_eq hnd, List.length_append, List.length_append, List.length_cons, Nat.add_assoc]

/-- A signal puts one sleeper, if there is any, among the woken. -/
theorem signal_spec (hnd : c.tids.Nodup) (ho : c.Picks o) :
    (c.signal o).asleep = c.asleep - 1 ∧
      (c.signal o).asleep + (c.signal o).woken = c.asleep + c.woken ∧
      (c.signal o).tids = c.tids := by
  cases o with
  | none =>
    have ho : c.asleep = 0 := ho
    rw [signal, ho]
    exact ⟨rfl, rfl, rfl⟩
  | some t =>
    obtain ⟨w, hw, rfl, hs⟩ := ho
    obtain ⟨xs, ys, rfl⟩ := List.append_of_mem hw
    rw [signal, edit_of_nodup hnd, List.singleton_append, asleep_append_cons, asleep_append_cons,
      woken_append_cons, woken_append_cons, hs]
    refine ⟨rfl, ?_, ?_⟩
    · simp only [reduceIte, Bool.false_eq_true]
      omega
    · rw [tids, tids, List.map_append, List.map_append]
      rfl

/-! ## Work for the waiters -/

/-- No waiter sleeps if there is work, `n` in number, for which nobody has been
    woken. -/
def Covered (n : ℕ) (c : Cond α) : Prop := 0 < c.asleep → n ≤ c.woken

/-- No waiter would sleep if there were more work by one. -/
def Spare (n : ℕ) (c : Cond α) : Prop := c.asleep = 0 ∨ n < c.woken

instance (n : ℕ) (c : Cond α) : Decidable (c.Covered n) := inferInstanceAs (Decidable (_ → _))

instance (n : ℕ) (c : Cond α) : Decidable (c.Spare n) := inferInstanceAs (Decidable (_ ∨ _))

variable {n k : ℕ}

/-- To be spare is to cover one more piece of work. -/
theorem spare_iff : c.Spare n ↔ c.Covered (n + 1) := by
  rw [Spare, Covered, Nat.succ_le_iff, Nat.pos_iff_ne_zero, or_iff_not_imp_left]

/-- What covers more pieces of work covers fewer. -/
theorem Covered.mono (h : c.Covered n) (hk : k ≤ n) : c.Covered k := fun ha => Nat.le_trans hk (h ha)

/-- No work needs no waiter. -/
theorem Covered.zero : c.Covered 0 := fun _ => Nat.zero_le _

/-- Where nobody is asleep, nobody has to be woken. -/
theorem Covered.of_asleep (h : c.asleep = 0) : c.Covered n := by
  rw [Covered, h]
  exact fun ha => absurd ha (Nat.lt_irrefl 0)

theorem covered_broadcast : c.broadcast.Covered n := .of_asleep (asleep_broadcast c)

/-- A signal does for one piece of work more. -/
theorem Covered.signal (h : c.Covered n) (hnd : c.tids.Nodup) (ho : c.Picks o) :
    (c.signal o).Covered (n + 1) := by
  obtain ⟨hasleep, hsum, -⟩ := signal_spec hnd ho
  intro ha
  have hn : n ≤ c.woken := h (by omega)
  omega

/-- With a waiter that has been signalled, the others are as many sleepers, and one
    less of the woken. -/
theorem leave_signalled (hnd : c.tids.Nodup) (h : c.Signalled t) :
    (c.leave t).asleep = c.asleep ∧ (c.leave t).woken + 1 = c.woken := by
  obtain ⟨w, hw, rfl, hs⟩ := h
  obtain ⟨xs, ys, rfl⟩ := List.append_of_mem hw
  rw [leave_eq hnd, asleep_append_cons, woken_append_cons, hs]
  exact ⟨rfl, rfl⟩

/-- Without it, they are one sleeper less. -/
theorem leave_asleep (hnd : c.tids.Nodup) (ht : t ∈ c.tids) (h : ¬c.Signalled t) :
    (c.leave t).asleep + 1 = c.asleep ∧ (c.leave t).woken = c.woken := by
  obtain ⟨xs, w, ys, rfl, rfl, -⟩ := exists_waiter hnd ht
  have hs : w.signalled = false :=
    Bool.eq_false_iff.2 fun hs => h ⟨w, List.mem_append_right _ (List.mem_cons_self ..), rfl, hs⟩
  rw [leave_eq hnd, asleep_append_cons, woken_append_cons, hs]
  exact ⟨rfl, rfl⟩

/-- A waiter may leave the work to the others if it has not been signalled, or one of
    the woken is spare. -/
theorem covered_leave (h : c.Covered n) (hnd : c.tids.Nodup) (ht : t ∈ c.tids) :
    (c.leave t).Covered n ↔ (c.Signalled t → c.Spare n) := by
  by_cases hs : c.Signalled t
  · obtain ⟨hasleep, hwoken⟩ := leave_signalled hnd hs
    rw [spare_iff, imp_iff_right hs, Covered, Covered, hasleep, ← hwoken, Nat.add_le_add_iff_right]
  · obtain ⟨hasleep, hwoken⟩ := leave_asleep hnd ht hs
    refine iff_of_true (fun ha => ?_) fun hs' => absurd hs' hs
    rw [hwoken]
    exact h (by omega)

/-- A waiter may leave with a piece of the work. -/
theorem Covered.leave (h : c.Covered (n + 1)) (hnd : c.tids.Nodup) (ht : t ∈ c.tids) :
    (c.leave t).Covered n :=
  (covered_leave (h.mono (Nat.le_succ n)) hnd ht).2 fun _ => spare_iff.2 h

/-- Nobody falls asleep because another one leaves. -/
theorem asleep_leave_le (c : Cond α) (t : ℕ) : (c.leave t).asleep ≤ c.asleep :=
  (leave_sublist c t).countP_le

end Cond

end Base
