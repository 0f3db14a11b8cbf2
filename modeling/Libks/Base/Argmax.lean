import Mathlib.Data.List.MinMax
import Mathlib.Tactic.Common

/-!
# The first element of the largest value

`List.argmax` gives the first of the elements with the largest value. It is the
first one of its class of equal values, so that a rearrangement that keeps the order
in each class does not change it (`argmax_congr`). One of elements of distinct values
keeps it (`filter_eq_of_perm`).
-/

namespace Base

variable {α β : Type} [LinearOrder β] {f : α → β} {l l' : List α} {a m : α}

/-- It is the first one of its class. -/
theorem head?_filter_of_argmax (h : l.argmax f = some m) :
    (l.filter (f · = f m)).head? = some m := by
  induction l with
  | nil => cases h
  | cons a l ih =>
    rw [List.argmax_cons] at h
    cases hl : l.argmax f with
    | none =>
      rw [hl] at h
      obtain rfl : a = m := Option.some.inj h
      rw [List.filter_cons_of_pos (by simp), List.head?_cons]
    | some c =>
      rw [hl] at h
      dsimp only at h
      split_ifs at h with hlt
      · obtain rfl : c = m := Option.some.inj h
        rw [List.filter_cons_of_neg (by simpa using hlt.ne), ih hl]
      · obtain rfl : a = m := Option.some.inj h
        rw [List.filter_cons_of_pos (by simp), List.head?_cons]

/-- The elements of one list with the order of their classes are those of the other. -/
theorem mem_of_filter_eq (h : ∀ b, l.filter (f · = b) = l'.filter (f · = b)) (ha : a ∈ l) :
    a ∈ l' := by
  have hmem : a ∈ l.filter (f · = f a) := List.mem_filter.2 ⟨ha, by simp⟩
  rw [h] at hmem
  exact List.mem_of_mem_filter hmem

/-- A rearrangement that keeps the order in each class. -/
theorem argmax_congr (h : ∀ b, l.filter (f · = b) = l'.filter (f · = b)) :
    l.argmax f = l'.argmax f := by
  have hmem {a : α} (ha : a ∈ l') : a ∈ l := mem_of_filter_eq (fun b => (h b).symm) ha
  cases hm : l.argmax f with
  | none =>
    rw [List.argmax_eq_none] at hm
    subst hm
    have hnil : l' = [] := List.eq_nil_iff_forall_not_mem.2 fun a ha => List.not_mem_nil (hmem ha)
    rw [hnil, List.argmax_nil]
  | some m =>
    cases hm' : l'.argmax f with
    | none =>
      rw [List.argmax_eq_none] at hm'
      subst hm'
      exact absurd (mem_of_filter_eq h (List.argmax_mem hm)) List.not_mem_nil
    | some m' =>
      have hle : f m' ≤ f m := List.le_of_mem_argmax (hmem (List.argmax_mem hm')) hm
      have hge : f m ≤ f m' := List.le_of_mem_argmax (mem_of_filter_eq h (List.argmax_mem hm)) hm'
      have hhead := head?_filter_of_argmax hm
      rw [h, le_antisymm hge hle, head?_filter_of_argmax hm'] at hhead
      exact hhead.symm

/-- Elements of distinct values may stand in any order. -/
theorem filter_eq_of_perm (h : l.Perm l') (hd : l.Pairwise fun a b => f a ≠ f b) (b : β) :
    l.filter (f · = b) = l'.filter (f · = b) := by
  have hp := h.filter (f · = b)
  cases hl : l.filter (f · = b) with
  | nil =>
    rw [hl] at hp
    exact hp.nil_eq
  | cons a s =>
    have hs : s = [] := by
      refine List.eq_nil_iff_forall_not_mem.2 fun c hc => ?_
      have hdf := hd.filter (f · = b)
      rw [hl] at hdf
      have hmem {x : α} (hx : x ∈ a :: s) : f x = b := by
        rw [← hl] at hx
        exact of_decide_eq_true (List.mem_filter.1 hx).2
      refine List.rel_of_pairwise_cons hdf hc ?_
      rw [hmem (List.mem_cons_self ..), hmem (List.mem_cons_of_mem a hc)]
    rw [hl, hs] at hp
    rw [hs]
    exact List.singleton_perm.1 hp

end Base
