import Mathlib.Data.List.Induction
import Mathlib.Data.List.Perm.Basic
import Mathlib.Tactic.Common

/-!
# Finite maps

A finite map as the list of its pairs, up to their order. What is the same key is
up to an equivalence (`Keys`), and no two pairs have the same key (`Apart`).

* `lookup_perm`: what a map has for a key does not depend on the order;
* `run`, `lookup_run`: a map after a history of calls has for a key what the last
  call for it says.
-/

namespace Base

open scoped List

/-- When two keys are the same. -/
structure Keys (κ : Type*) where
  same : κ → κ → Bool
  refl : ∀ k, same k k
  symm : ∀ {k l}, same k l → same l k
  trans : ∀ {k l m}, same k l → same l m → same k m

namespace Keys

variable {κ ν : Type*} (K : Keys κ) {k k' : κ} {v : ν} {m m' : List (κ × ν)}

/-- The value of a key. -/
def lookup (k : κ) (m : List (κ × ν)) : Option ν := (m.find? fun p => K.same k p.1).map Prod.snd

/-- The map without a key. -/
def erase (k : κ) (m : List (κ × ν)) : List (κ × ν) := m.filter fun p => !K.same k p.1

/-- No two pairs have the same key. -/
def Apart (m : List (κ × ν)) : Prop := m.Pairwise fun p q => ¬K.same p.1 q.1

variable {K}

theorem same_comm : K.same k k' ↔ K.same k' k := ⟨K.symm, K.symm⟩

theorem Apart.perm (h : K.Apart m) (hp : m ~ m') : K.Apart m' :=
  (hp.pairwise_iff fun {_ _} h hs => h (K.symm hs)).1 h

theorem Apart.erase (h : K.Apart m) (k : κ) : K.Apart (K.erase k m) :=
  h.sublist List.filter_sublist

theorem Apart.cons_erase (h : K.Apart m) (k : κ) (v : ν) : K.Apart ((k, v) :: K.erase k m) := by
  refine List.pairwise_cons.2 ⟨fun p hp => ?_, h.erase k⟩
  simpa using (List.mem_filter.1 hp).2

theorem lookup_eq_none_iff : K.lookup k m = none ↔ ∀ p ∈ m, ¬K.same k p.1 := by
  rw [lookup, Option.map_eq_none_iff, List.find?_eq_none]

/-- The value of a key is the one of the pair that has it. -/
theorem lookup_eq_some_iff (h : K.Apart m) :
    K.lookup k m = some v ↔ ∃ l, (l, v) ∈ m ∧ K.same k l := by
  constructor
  · intro hv
    obtain ⟨⟨l, w⟩, hfind, rfl⟩ := Option.map_eq_some_iff.1 hv
    exact ⟨l, List.mem_of_find?_eq_some hfind, by simpa using List.find?_some hfind⟩
  · rintro ⟨l, hmem, hs⟩
    obtain ⟨xs, ys, rfl⟩ := List.append_of_mem hmem
    have hxs : ∀ p ∈ xs, ¬K.same k p.1 := fun p hp hkp =>
      (List.pairwise_append.1 h).2.2 p hp _ List.mem_cons_self (K.trans (K.symm hkp) hs)
    rw [lookup, List.find?_append, List.find?_eq_none.2 hxs, Option.none_or,
      List.find?_cons, hs]
    rfl

theorem lookup_perm (h : K.Apart m) (hp : m ~ m') (k : κ) : K.lookup k m = K.lookup k m' := by
  ext v
  rw [lookup_eq_some_iff h, lookup_eq_some_iff (h.perm hp)]
  simp only [hp.mem_iff]

theorem lookup_cons (k : κ) (p : κ × ν) (m : List (κ × ν)) :
    K.lookup k (p :: m) = if K.same k p.1 then some p.2 else K.lookup k m := by
  rw [lookup, List.find?_cons]
  cases K.same k p.1 <;> rfl

theorem lookup_erase (k l : κ) (m : List (κ × ν)) :
    K.lookup k (K.erase l m) = if K.same l k then none else K.lookup k m := by
  induction m with
  | nil => split_ifs <;> rfl
  | cons p m ih =>
    rw [erase, List.filter_cons, lookup_cons]
    by_cases hl : K.same l p.1 = true
    · rw [hl, if_neg (by decide), ← erase, ih]
      split_ifs with hlk hkp
      · rfl
      · exact absurd (K.trans hl (K.symm hkp)) hlk
      · rfl
    · rw [if_pos (by simpa using hl), ← erase, lookup_cons, ih]
      split_ifs with hkp hlk hlk
      · exact absurd (K.trans hlk hkp) hl
      · rfl
      · rfl
      · rfl

theorem perm_erase (hp : m ~ m') (k : κ) : K.erase k m ~ K.erase k m' := hp.filter _

/-- The pair that has a key, and the others. -/
theorem erase_perm {p : κ × ν} (h : K.Apart m) (hp : m ~ p :: m') (hk : K.same k p.1) :
    K.erase k m ~ m' := by
  have hsub : ∀ q ∈ m', !K.same k q.1 := by
    intro q hq
    have := (List.pairwise_cons.1 (h.perm hp)).1 q hq
    simpa using fun hkq => this (K.trans (K.symm hk) hkq)
  calc
    K.erase k m ~ K.erase k (p :: m') := perm_erase hp k
    _ = m' := by
      rw [erase, List.filter_cons_of_neg (by simpa using hk), List.filter_eq_self.2 hsub]

theorem erase_of_none (h : K.lookup k m = none) : K.erase k m = m :=
  List.filter_eq_self.2 fun p hp => by simpa using lookup_eq_none_iff.1 h p hp

/-! ## Histories -/

/-- A call that changes a map, or asks it. -/
inductive Call (κ ν : Type*)
  | insert (k : κ) (v : ν)
  | remove (k : κ)
  | search (k : κ)
  deriving DecidableEq, Repr

/-- The key that a call is about. -/
def Call.key : Call κ ν → κ
  | .insert k _ | .remove k | .search k => k

variable (K)

/-- The map after a call. -/
def apply (m : List (κ × ν)) : Call κ ν → List (κ × ν)
  | .insert k v => (k, v) :: K.erase k m
  | .remove k => K.erase k m
  | .search _ => m

/-- The map after a history of calls. -/
def run (calls : List (Call κ ν)) : List (κ × ν) := calls.foldl K.apply []

/-- What the last call in a history that is about a key leaves as its value. The last
    call comes first. -/
def latest (k : κ) : List (Call κ ν) → Option ν
  | [] => none
  | .insert l v :: past => if K.same l k then some v else latest k past
  | .remove l :: past => if K.same l k then none else latest k past
  | .search _ :: past => latest k past

variable {K}

theorem run_concat (calls : List (Call κ ν)) (c : Call κ ν) :
    K.run (calls ++ [c]) = K.apply (K.run calls) c := List.foldl_concat ..

theorem apart_run (calls : List (Call κ ν)) : K.Apart (K.run calls) := by
  induction calls using List.reverseRecOn with
  | nil => exact List.Pairwise.nil
  | append_singleton calls c ih =>
    rw [run_concat]
    cases c with
    | insert k v => exact ih.cons_erase k v
    | remove k => exact ih.erase k
    | search k => exact ih

theorem lookup_run (k : κ) (calls : List (Call κ ν)) :
    K.lookup k (K.run calls) = K.latest k calls.reverse := by
  induction calls using List.reverseRecOn with
  | nil => rfl
  | append_singleton calls c ih =>
    rw [run_concat, List.reverse_concat]
    cases c with
    | insert l v =>
      rw [apply, lookup_cons, lookup_erase, ih, latest]
      simp only [@same_comm _ K k l]
      split_ifs <;> rfl
    | remove l => rw [apply, lookup_erase, ih, latest]
    | search l => exact ih

/-- The keys in a map are keys of the calls. -/
theorem exists_of_mem_run {p : κ × ν} {calls : List (Call κ ν)} (hp : p ∈ K.run calls) :
    ∃ c ∈ calls, c.key = p.1 := by
  induction calls using List.reverseRecOn with
  | nil => exact absurd hp List.not_mem_nil
  | append_singleton calls c ih =>
    have hpast (hp : p ∈ K.run calls) : ∃ c' ∈ calls ++ [c], c'.key = p.1 := by
      obtain ⟨c', hc', hkey⟩ := ih hp
      exact ⟨c', List.mem_append_left _ hc', hkey⟩
    rw [run_concat] at hp
    cases c with
    | insert k v =>
      rcases List.mem_cons.1 hp with rfl | hp
      · exact ⟨_, List.mem_concat_self, rfl⟩
      · exact hpast (List.mem_of_mem_filter hp)
    | remove k => exact hpast (List.mem_of_mem_filter hp)
    | search k => exact hpast hp

/-- What is left for a key depends on which calls are about the same key. -/
theorem latest_congr {K' : Keys κ} {past : List (Call κ ν)}
    (h : ∀ c ∈ past, K.same c.key k = K'.same c.key k) : K.latest k past = K'.latest k past := by
  induction past with
  | nil => rfl
  | cons c past ih =>
    obtain ⟨hc, hpast⟩ := List.forall_mem_cons.1 h
    cases c with
    | insert l v =>
      have hc : K.same l k = K'.same l k := hc
      rw [latest, latest, hc, ih hpast]
    | remove l =>
      have hc : K.same l k = K'.same l k := hc
      rw [latest, latest, hc, ih hpast]
    | search l => exact ih hpast

/-- Keys that are not the same, inserted in a row, are all in the map. -/
theorem run_inserts {ks : List κ} (h : ks.Pairwise fun k l => ¬K.same k l) (v : ν) :
    K.run (ks.map fun k => .insert k v) = (ks.map fun k => (k, v)).reverse := by
  induction ks using List.reverseRecOn with
  | nil => rfl
  | append_singleton ks k ih =>
    obtain ⟨hks, -, hk⟩ := List.pairwise_append.1 h
    rw [List.map_append, List.map_singleton, run_concat, ih hks, List.map_append,
      List.map_singleton, List.reverse_concat, apply, erase_of_none]
    refine lookup_eq_none_iff.2 fun p hp hkp => ?_
    obtain ⟨l, hl, rfl⟩ := List.mem_map.1 (List.mem_reverse.1 hp)
    exact hk l hl k (List.mem_singleton.2 rfl) (K.symm hkp)

end Keys

end Base
