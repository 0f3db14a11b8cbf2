import Mathlib.Data.List.Nodup
import Mathlib.Data.List.Pairwise
import Mathlib.Data.List.Perm.Basic
import Mathlib.Logic.Function.Basic
import Mathlib.Tactic.Common

/-!
# Buckets

The elements of a hash table are in buckets, each in the one of its hash. A table
with another number of buckets is filled by moving the elements over one by one.

* `contents_eq`, `contents_update`: a bucket, or another one, in its place among the others;
* `perm_update`: a change of one bucket is that change of the contents;
* `perm_rehash`, `placed_rehash`: moving over keeps the contents, and puts each
  element in its bucket.
-/

namespace Base.Buckets

open scoped List

variable {α : Type*} {n n' i k : ℕ} {t : ℕ → List α} {a : α} {l xs ys : List α} {place : α → ℕ}

/-- The elements in the first `n` buckets. -/
def contents (n : ℕ) (t : ℕ → List α) : List α := (List.range n).flatMap t

/-- Every element is in the bucket of its hash. -/
def Placed (place : α → ℕ) (n : ℕ) (t : ℕ → List α) : Prop :=
  ∀ i < n, ∀ a ∈ t i, place a % n = i

instance : Decidable (Placed place n t) :=
  inferInstanceAs (Decidable (∀ i < n, ∀ a ∈ t i, place a % n = i))

/-- An element is put in front of its bucket. -/
def put (place : α → ℕ) (n : ℕ) (t : ℕ → List α) (a : α) : ℕ → List α :=
  Function.update t (place a % n) (a :: t (place a % n))

/-- The elements of `n` buckets are moved over to `n'` ones. -/
def rehash (place : α → ℕ) (n' n : ℕ) (t : ℕ → List α) : ℕ → List α :=
  (List.range n).foldl (fun t' i => (t i).foldl (put place n') t') fun _ => []

/-- What is in the table is in one of its buckets. -/
theorem mem_contents : a ∈ contents n t ↔ ∃ i < n, a ∈ t i := by
  simp only [contents, List.mem_flatMap, List.mem_range]

/-- An element is looked for in its bucket only. -/
theorem Placed.mem_iff (h : Placed place n t) (hn : 0 < n) :
    a ∈ contents n t ↔ a ∈ t (place a % n) := by
  rw [mem_contents]
  constructor
  · rintro ⟨i, hi, ha⟩
    rwa [h i hi a ha]
  · exact fun ha => ⟨_, Nat.mod_lt _ hn, ha⟩

/-- The contents with one more bucket. -/
theorem contents_succ (n : ℕ) (t : ℕ → List α) : contents (n + 1) t = contents n t ++ t n := by
  rw [contents, List.range_succ, List.flatMap_append, List.flatMap_singleton]
  rfl

/-- A bucket behind those that count does not matter. -/
theorem contents_update_of_le (h : n ≤ i) : contents n (Function.update t i l) = contents n t := by
  refine List.flatMap_congr fun j hj => Function.update_of_ne ?_ _ _
  exact Nat.ne_of_lt (Nat.lt_of_lt_of_le (List.mem_range.1 hj) h)

/-! ## The buckets in their order -/

/-- The elements in the buckets from `i` on. -/
def behind (n i : ℕ) (t : ℕ → List α) : List α := ((List.range n).drop i).flatMap t

/-- From a bucket on: the bucket, and what is behind it. -/
theorem behind_of_lt (hi : i < n) (t : ℕ → List α) : behind n i t = t i ++ behind n (i + 1) t := by
  rw [behind, List.drop_eq_getElem_cons (by rwa [List.length_range]), List.getElem_range,
    List.flatMap_cons]
  rfl

/-- There is nothing behind the last bucket. -/
theorem behind_of_le (hi : n ≤ i) (t : ℕ → List α) : behind n i t = [] := by
  rw [behind, List.drop_eq_nil_of_le (by rwa [List.length_range]), List.flatMap_nil]

/-- What stands in front of a bucket, in it, and behind it. -/
theorem contents_eq (hi : i < n) (t : ℕ → List α) :
    contents n t = contents i t ++ (t i ++ behind n (i + 1) t) := by
  rw [← behind_of_lt hi, contents, contents, behind, ← List.flatMap_append]
  congr 1
  conv_lhs => rw [← List.take_append_drop i (List.range n)]
  rw [List.take_range, Nat.min_eq_left (Nat.le_of_lt hi)]

/-- A change in a bucket is not seen behind it. -/
theorem behind_update (hi : i < k) (t : ℕ → List α) (l : List α) :
    behind n k (Function.update t i l) = behind n k t := by
  refine List.flatMap_congr fun j hj => Function.update_of_ne ?_ _ _
  obtain ⟨m, hm, rfl⟩ := List.mem_drop_iff_getElem.1 hj
  rw [List.getElem_range]
  omega

/-- A change in a bucket leaves what is before it and behind it. -/
theorem contents_update (hi : i < n) (t : ℕ → List α) (l : List α) :
    contents n (Function.update t i l) = contents i t ++ (l ++ behind n (i + 1) t) := by
  rw [contents_eq hi, contents_update_of_le (Nat.le_refl i), Function.update_self,
    behind_update (Nat.lt_succ_self i)]

theorem mem_behind (hi : i ≤ k) (hk : k < n) (ha : a ∈ t k) : a ∈ behind n i t := by
  refine List.mem_flatMap.2 ⟨k, ?_, ha⟩
  rw [List.mem_drop_iff_getElem]
  refine ⟨k - i, by rwa [List.length_range, Nat.sub_add_cancel hi], ?_⟩
  rw [List.getElem_range, Nat.add_sub_cancel' hi]

/-- What is made of the elements, bucket by bucket. -/
theorem map_contents {β : Type*} (f : α → β) (n : ℕ) (t : ℕ → List α) :
    (contents n t).map f = contents n fun i => (t i).map f := List.map_flatMap

/-- No element is in two buckets. -/
theorem disjoint_of_nodup (h : (contents n t).Nodup) (hi : i < n) (hk : k < n) (hne : i ≠ k) :
    (t i).Disjoint (t k) := by
  obtain ⟨-, hpair⟩ := List.nodup_flatMap.1 h
  have : Std.Symm (Function.onFun List.Disjoint t) := ⟨fun _ _ hd => List.disjoint_symm hd⟩
  exact hpair.forall (List.mem_range.2 hi) (List.mem_range.2 hk) hne

/-! ## Changes of a bucket -/

/-- Another bucket is other contents in its place. -/
theorem perm_update (hi : i < n) (t : ℕ → List α) (l : List α) :
    (contents n (Function.update t i l) ++ t i).Perm (contents n t ++ l) := by
  induction n with
  | zero => exact absurd hi (Nat.not_lt_zero i)
  | succ n ih =>
    rw [contents_succ, contents_succ, List.append_assoc, List.append_assoc]
    rcases Nat.lt_succ_iff_lt_or_eq.1 hi with hlt | rfl
    · rw [Function.update_of_ne (Nat.ne_of_gt hlt)]
      calc
        contents n (Function.update t i l) ++ (t n ++ t i)
        _ ~ contents n (Function.update t i l) ++ (t i ++ t n) :=
          List.perm_append_comm.append_left _
        _ = contents n (Function.update t i l) ++ t i ++ t n := (List.append_assoc ..).symm
        _ ~ contents n t ++ l ++ t n := (ih hlt).append_right _
        _ = contents n t ++ (l ++ t n) := List.append_assoc ..
        _ ~ contents n t ++ (t n ++ l) := List.perm_append_comm.append_left _
    · rw [contents_update_of_le (Nat.le_refl _), Function.update_self]
      exact List.perm_append_comm.append_left _

/-- An entry that is put in is added to the contents. -/
theorem perm_put (hn : 0 < n) (t : ℕ → List α) (a : α) :
    (contents n (put place n t a)).Perm (a :: contents n t) := by
  have h := perm_update (Nat.mod_lt (place a) hn) t (a :: t (place a % n))
  rw [← List.perm_append_right_iff (t (place a % n))]
  exact h.trans (List.perm_middle)

/-- An element is taken out of its bucket. -/
theorem perm_of_split (hi : i < n) (h : t i = xs ++ a :: ys) :
    (contents n t).Perm (a :: contents n (Function.update t i (xs ++ ys))) := by
  have hp := perm_update hi t (xs ++ ys)
  rw [h] at hp
  rw [← List.perm_append_right_iff (xs ++ ys)]
  calc
    contents n t ++ (xs ++ ys)
    _ ~ contents n (Function.update t i (xs ++ ys)) ++ (xs ++ a :: ys) := hp.symm
    _ ~ contents n (Function.update t i (xs ++ ys)) ++ (a :: (xs ++ ys)) :=
      List.perm_middle.append_left _
    _ ~ a :: (contents n (Function.update t i (xs ++ ys)) ++ (xs ++ ys)) := List.perm_middle

/-- It is put in its place. -/
theorem Placed.put (h : Placed place n t) (a : α) : Placed place n (put place n t a) := by
  intro i hi b hb
  by_cases heq : i = place a % n
  · rw [heq, Buckets.put, Function.update_self] at hb
    rcases List.mem_cons.1 hb with rfl | hb
    · exact heq.symm
    · exact heq ▸ h _ (heq ▸ hi) b hb
  · rw [Buckets.put, Function.update_of_ne heq] at hb
    exact h i hi b hb

/-- Entries that are taken out leave the others in their places. -/
theorem Placed.sublist (h : Placed place n t) (hl : l.Sublist (t i)) :
    Placed place n (Function.update t i l) := by
  intro j hj b hb
  by_cases heq : j = i
  · rw [heq, Function.update_self] at hb
    exact h j hj b (heq ▸ hl.subset hb)
  · rw [Function.update_of_ne heq] at hb
    exact h j hj b hb

/-- Entries that are put in one after the other are all added. -/
theorem perm_foldl_put (hn : 0 < n) (l : List α) (t : ℕ → List α) :
    (contents n (l.foldl (put place n) t)).Perm (l ++ contents n t) := by
  induction l generalizing t with
  | nil => exact .refl _
  | cons a l ih =>
    calc
      contents n ((a :: l).foldl (put place n) t)
      _ ~ l ++ contents n (put place n t a) := ih _
      _ ~ l ++ a :: contents n t := (perm_put hn t a).append_left _
      _ ~ a :: l ++ contents n t := List.perm_middle

/-- They are all put in their places. -/
theorem placed_foldl_put (l : List α) (h : Placed place n t) :
    Placed place n (l.foldl (put place n) t) := by
  induction l generalizing t with
  | nil => exact h
  | cons a l ih => exact ih (h.put a)

/-- To rehash is to put all entries into empty buckets. -/
theorem rehash_eq (place : α → ℕ) (n' n : ℕ) (t : ℕ → List α) :
    rehash place n' n t = (contents n t).foldl (put place n') fun _ => [] :=
  List.foldl_flatMap.symm

theorem contents_nil (n : ℕ) : contents n (fun _ => ([] : List α)) = [] :=
  List.flatMap_eq_nil_iff.2 fun _ _ => rfl

/-- Moving over loses no element and makes none. -/
theorem perm_rehash (hn' : 0 < n') (n : ℕ) (t : ℕ → List α) :
    (contents n' (rehash place n' n t)).Perm (contents n t) := by
  have h := @perm_foldl_put _ _ place hn' (contents n t) fun _ => []
  rwa [contents_nil, List.append_nil, ← rehash_eq] at h

/-- Behind a rehash every entry is in its new place. -/
theorem placed_rehash (n' n : ℕ) (t : ℕ → List α) : Placed place n' (rehash place n' n t) := by
  rw [rehash_eq]
  exact placed_foldl_put _ fun _ _ _ h => absurd h List.not_mem_nil

end Base.Buckets
