import Mathlib.Data.List.Nodup
import Mathlib.Tactic.Common

/-!
# Lists with keys

Where no two elements of a list have the same key, an element is named by its
key. `edit` puts other elements, or none, in its place.
-/

namespace Base

variable {α κ : Type} [DecidableEq κ] {key : α → κ} {k : κ} {f : α → List α} {a : α}
  {l xs ys : List α}

/-- The list `l` with what `f` makes of the elements with the key `k` in their place. -/
def edit (key : α → κ) (k : κ) (f : α → List α) (l : List α) : List α :=
  l.flatMap fun a => if key a = k then f a else [a]

theorem edit_of_notMem (h : k ∉ l.map key) : edit key k f l = l := by
  induction l with
  | nil => rfl
  | cons a l ih =>
    rw [List.map_cons, List.mem_cons, not_or] at h
    rw [edit, List.flatMap_cons, if_neg (Ne.symm h.1), ← edit, ih h.2]
    rfl

theorem edit_append (key : α → κ) (k : κ) (f : α → List α) (xs ys : List α) :
    edit key k f (xs ++ ys) = edit key k f xs ++ edit key k f ys := List.flatMap_append

/-- If what stands in its place has the key, the keys are the same. -/
theorem map_edit (hf : ∀ a, (f a).map key = [key a]) (l : List α) :
    (edit key k f l).map key = l.map key := by
  induction l with
  | nil => rfl
  | cons a l ih =>
    have hhead : (if key a = k then f a else [a]).map key = [key a] := by
      split_ifs
      · exact hf a
      · rfl
    rw [edit, List.flatMap_cons, ← edit, List.map_append, ih, hhead]
    rfl

/-- If what stands in its place has no other key, some of the keys are left. -/
theorem map_edit_sublist (hf : ∀ a, ((f a).map key).Sublist [key a]) (l : List α) :
    ((edit key k f l).map key).Sublist (l.map key) := by
  induction l with
  | nil => exact .slnil
  | cons a l ih =>
    have hhead : ((if key a = k then f a else [a]).map key).Sublist [key a] := by
      split_ifs
      · exact hf a
      · exact .refl _
    rw [edit, List.flatMap_cons, ← edit, List.map_append]
    exact hhead.append ih

/-- What stands before and behind the element is left as it is. -/
theorem edit_of_nodup (hnd : ((xs ++ a :: ys).map key).Nodup) :
    edit key (key a) f (xs ++ a :: ys) = xs ++ (f a ++ ys) := by
  rw [List.map_append, List.map_cons] at hnd
  obtain ⟨-, hndys, hdisj⟩ := List.nodup_append'.1 hnd
  have hxs : edit key (key a) f xs = xs :=
    edit_of_notMem fun hk => hdisj hk (List.mem_cons_self ..)
  have hys : edit key (key a) f ys = ys := edit_of_notMem (List.nodup_cons.1 hndys).1
  rw [edit, List.flatMap_append, List.flatMap_cons, if_pos rfl, ← edit, ← edit, hxs, hys]

/-- There is one element with a key. -/
theorem any_of_nodup {P : α → Prop} [DecidablePred P] (hnd : ((xs ++ a :: ys).map key).Nodup) :
    ((xs ++ a :: ys).any fun c => key c = key a ∧ P c) = decide (P a) := by
  rw [Bool.eq_iff_iff, List.any_eq_true, decide_eq_true_iff]
  constructor
  · rintro ⟨c, hc, hcp⟩
    obtain ⟨hca, hp⟩ := of_decide_eq_true hcp
    rwa [List.inj_on_of_nodup_map hnd hc (by simp) hca] at hp
  · exact fun hp => ⟨a, by simp, by simpa using hp⟩

omit [DecidableEq κ] in
/-- What comes from elements with one key comes from the one that has it. -/
theorem flatMap_of_nodup {β : Type} {g : α → List β} (hnd : ((xs ++ a :: ys).map key).Nodup)
    (hg : ∀ c, key c ≠ key a → g c = []) : (xs ++ a :: ys).flatMap g = g a := by
  rw [List.map_append, List.map_cons] at hnd
  obtain ⟨-, hndys, hdisj⟩ := List.nodup_append'.1 hnd
  have hxs : xs.flatMap g = [] := List.flatMap_eq_nil_iff.2 fun c hc =>
    hg c fun heq => hdisj (List.mem_map_of_mem hc) (heq ▸ List.mem_cons_self ..)
  have hys : ys.flatMap g = [] := List.flatMap_eq_nil_iff.2 fun c hc =>
    hg c fun heq => (List.nodup_cons.1 hndys).1 (heq ▸ List.mem_map_of_mem hc)
  rw [List.flatMap_append, List.flatMap_cons, hxs, hys, List.append_nil]
  rfl

/-- Of what comes from elements, what has a key comes from the element with that key. -/
theorem filter_flatMap_of_nodup {β : Type} {g : α → List β} {mark : β → κ}
    (hg : ∀ a, ∀ b ∈ g a, mark b = key a) (hnd : ((xs ++ a :: ys).map key).Nodup) :
    ((xs ++ a :: ys).flatMap g).filter (mark · = key a) = g a := by
  rw [List.filter_flatMap, flatMap_of_nodup hnd]
  · exact List.filter_eq_self.2 fun b hb => decide_eq_true (hg a b hb)
  · intro c hc
    refine List.filter_eq_nil_iff.2 fun b hb => ?_
    rw [decide_eq_true_iff, hg c b hb]
    exact hc

theorem filter_flatMap_of_notMem {β : Type} {g : α → List β} {mark : β → κ}
    (hg : ∀ a, ∀ b ∈ g a, mark b = key a) (hk : k ∉ l.map key) :
    (l.flatMap g).filter (mark · = k) = [] := by
  refine List.filter_eq_nil_iff.2 fun b hb => ?_
  obtain ⟨a, ha, hb⟩ := List.mem_flatMap.1 hb
  rw [decide_eq_true_iff, hg a b hb]
  exact fun heq => hk (heq ▸ List.mem_map_of_mem ha)

omit [DecidableEq κ] in
/-- The element with a key, and what stands before and behind it. -/
theorem exists_of_mem_keys (h : k ∈ l.map key) : ∃ xs a ys, l = xs ++ a :: ys ∧ key a = k := by
  obtain ⟨a, ha, hk⟩ := List.mem_map.1 h
  obtain ⟨xs, ys, hl⟩ := List.append_of_mem ha
  exact ⟨xs, a, ys, hl, hk⟩

/-- The search for a key finds its element. -/
theorem find_of_nodup (hnd : ((xs ++ a :: ys).map key).Nodup) :
    (xs ++ a :: ys).find? (key · = key a) = some a := by
  rw [List.map_append, List.map_cons] at hnd
  have hxs : xs.find? (key · = key a) = none := by
    refine List.find?_eq_none.2 fun c hc => ?_
    rw [decide_eq_true_iff]
    exact fun heq => (List.nodup_append'.1 hnd).2.2 (List.mem_map_of_mem hc)
      (heq ▸ List.mem_cons_self ..)
  rw [List.find?_append, hxs, Option.none_or]
  exact List.find?_cons_of_pos (decide_eq_true rfl)

end Base
