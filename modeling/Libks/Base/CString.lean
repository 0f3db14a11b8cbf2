import Mathlib.Data.List.Basic
import Mathlib.Tactic.Common

/-!
# C strings as lists

The functions of `<string.h>` on the bytes of a string without its terminator.
A pointer into the string is the suffix it points to, or an offset.
-/

namespace Base

/-- The bytes of an ASCII literal. -/
def ascii (s : String) : List UInt8 := s.toList.map fun c => UInt8.ofNat c.toNat

/-- `tolower` in the C locale. -/
def toLower (c : UInt8) : UInt8 := if 65 ≤ c ∧ c ≤ 90 then c + 32 else c

/-- `strstr`: the offset of the first occurrence of `pat`. -/
def strstr (pat : List UInt8) : List UInt8 → Option ℕ
  | [] => if pat = [] then some 0 else none
  | c :: s => if pat.isPrefixOf (c :: s) then some 0 else (strstr pat s).map (· + 1)

/-- `strchr`: the offset of the first `c`. -/
def strchr (c : UInt8) (s : List UInt8) : Option ℕ := s.findIdx? (· == c)

/-- `strncasecmp (s, pat, strlen (pat)) == 0`: whether `s` starts with `pat`,
    ignoring case. -/
def startsWithNoCase (pat s : List UInt8) : Bool :=
  (s.take pat.length).map toLower = pat.map toLower

/-- The bytes without the spaces at the end. -/
def trimEnd : List UInt8 → List UInt8
  | [] => []
  | c :: s => if trimEnd s = [] ∧ c = 32 then [] else c :: trimEnd s

/-- The bytes without the spaces at both ends. -/
def trimSpaces (s : List UInt8) : List UInt8 := trimEnd (s.dropWhile (· = 32))

/-- A byte below the letters is no other byte's lower case. -/
theorem toLower_eq_iff {c d : UInt8} (hd : d < 65) : toLower c = d ↔ c = d := by
  rw [toLower]
  split_ifs with hc
  · rw [UInt8.le_iff_toNat_le, UInt8.le_iff_toNat_le] at hc
    rw [UInt8.lt_iff_toNat_lt] at hd
    rw [← UInt8.toNat_inj, ← UInt8.toNat_inj, UInt8.toNat_add]
    have h65 : UInt8.toNat 65 = 65 := rfl
    have h90 : UInt8.toNat 90 = 90 := rfl
    have h32 : UInt8.toNat 32 = 32 := rfl
    omega
  · exact Iff.rfl

/-! ## Searching -/

theorem strstr_eq_none_iff {pat s : List UInt8} (hp : pat ≠ []) :
    strstr pat s = none ↔ ¬pat <:+: s := by
  induction s with
  | nil => simp [strstr, hp]
  | cons c s ih =>
    rw [strstr, List.infix_cons_iff, not_or, ← ih]
    by_cases h : pat.isPrefixOf (c :: s)
    · simp [h, List.isPrefixOf_iff_prefix.1 h]
    · rw [if_neg h, Option.map_eq_none_iff, List.isPrefixOf_iff_prefix] at *
      simp [h]

/-- The first occurrence of `pat`: it stands there, and nowhere before. -/
theorem strstr_eq_some_iff {pat s : List UInt8} {i : ℕ} (hp : pat ≠ []) :
    strstr pat s = some i ↔ pat <+: s.drop i ∧ ∀ j < i, ¬pat <+: s.drop j := by
  induction s generalizing i with
  | nil => simp [strstr, hp]
  | cons c s ih =>
    rw [strstr]
    by_cases h : pat.isPrefixOf (c :: s)
    · rw [if_pos h, Option.some_inj]
      constructor
      · rintro rfl
        exact ⟨List.isPrefixOf_iff_prefix.1 h, fun j hj => absurd hj (Nat.not_lt_zero j)⟩
      · rintro ⟨-, hj⟩
        by_contra hi
        exact hj 0 (by omega) (List.isPrefixOf_iff_prefix.1 h)
    · rw [if_neg h, Option.map_eq_some_iff]
      rw [List.isPrefixOf_iff_prefix] at h
      constructor
      · rintro ⟨i, hi, rfl⟩
        obtain ⟨h₁, h₂⟩ := ih.1 hi
        refine ⟨h₁, fun j hj => ?_⟩
        cases j with
        | zero => exact h
        | succ j => exact h₂ j (by omega)
      · rintro ⟨h₁, h₂⟩
        cases i with
        | zero => exact absurd h₁ h
        | succ i => exact ⟨i, ih.2 ⟨h₁, fun j hj => h₂ (j + 1) (by omega)⟩, rfl⟩

/-- A match stays where it is when the text goes on. -/
theorem strstr_append_left {pat s t : List UInt8} {i : ℕ} (hp : pat ≠ [])
    (h : strstr pat s = some i) : strstr pat (s ++ t) = some i := by
  rw [strstr_eq_some_iff hp] at h ⊢
  have hi : i + pat.length ≤ s.length := by
    have := h.1.length_le
    rw [List.length_drop] at this
    have : pat.length ≠ 0 := fun h0 => hp (List.length_eq_zero_iff.1 h0)
    omega
  refine ⟨?_, fun j hj hc => h.2 j hj ?_⟩
  · rw [List.drop_append_of_le_length (by omega)]
    exact h.1.trans (List.prefix_append _ _)
  · rw [List.drop_append_of_le_length (by omega)] at hc
    refine List.prefix_of_prefix_length_le hc (List.prefix_append _ _) ?_
    rw [List.length_drop]
    omega

/-- A byte that is not in `pat` keeps apart what is searched in front of it and behind
    it. -/
theorem strstr_append_cons {pat s t : List UInt8} {c : UInt8} (hp : pat ≠ []) (hc : c ∉ pat)
    (h : strstr pat s = none) :
    strstr pat (s ++ c :: t) = (strstr pat t).map (· + (s.length + 1)) := by
  induction s with
  | nil =>
    have hnot : ¬pat.isPrefixOf (c :: t) := by
      rw [List.isPrefixOf_iff_prefix]
      intro hpre
      obtain ⟨d, pat, rfl⟩ := List.exists_cons_of_ne_nil hp
      exact hc ((List.cons_prefix_cons.1 hpre).1 ▸ List.mem_cons_self)
    rw [List.nil_append, strstr, if_neg hnot]
    rfl
  | cons d s ih =>
    have hnone := (strstr_eq_none_iff hp).1 h
    rw [List.infix_cons_iff, not_or, ← strstr_eq_none_iff hp] at hnone
    have hnot : ¬pat.isPrefixOf (d :: (s ++ c :: t)) := by
      rw [List.isPrefixOf_iff_prefix]
      intro hpre
      rw [← List.cons_append] at hpre
      rcases List.prefix_or_prefix_of_prefix hpre (List.prefix_append (d :: s) (c :: t)) with h' | h'
      · exact hnone.1 h'
      · obtain ⟨u, rfl⟩ := h'
        rw [List.prefix_append_right_inj] at hpre
        cases u with
        | nil =>
          rw [List.append_nil] at hnone
          exact hnone.1 (List.prefix_refl _)
        | cons e u =>
          obtain rfl := (List.cons_prefix_cons.1 hpre).1
          exact hc (List.mem_append_right _ List.mem_cons_self)
    rw [List.cons_append, strstr, if_neg hnot, ih hnone.2, Option.map_map]
    refine congrFun (congrArg Option.map (funext fun i => ?_)) _
    rw [Function.comp_apply, List.length_cons]
    omega

/-- A character that is not found is not there. -/
theorem strchr_eq_none_iff {c : UInt8} {s : List UInt8} : strchr c s = none ↔ c ∉ s := by
  simp only [strchr, List.findIdx?_eq_none_iff, beq_eq_false_iff_ne]
  exact ⟨fun h hc => h c hc rfl, fun h x hx hc => h (hc ▸ hx)⟩

/-- The first one is found. -/
theorem strchr_append_cons {c : UInt8} {s t : List UInt8} (h : c ∉ s) :
    strchr c (s ++ c :: t) = some s.length := by
  induction s with
  | nil => simp [strchr, List.findIdx?_cons]
  | cons d s ih =>
    rw [List.mem_cons, not_or] at h
    have := ih h.2
    rw [strchr] at this ⊢
    rw [List.cons_append, List.findIdx?_cons, if_neg (by simpa using Ne.symm h.1), this]
    rfl

theorem strchr_cons (c d : UInt8) (s : List UInt8) :
    strchr c (d :: s) = if d = c then some 0 else (strchr c s).map (· + 1) := by
  rw [strchr, List.findIdx?_cons]
  by_cases h : d = c
  · rw [if_pos (by simpa using h), if_pos h]
  · rw [if_neg (by simpa using h), if_neg h, strchr]

/-- What is behind the byte that cuts a string in two. -/
theorem drop_cut (s t : List UInt8) (c : UInt8) : (s ++ c :: t).drop (s.length + 1) = t := by
  rw [List.drop_append, List.drop_eq_nil_of_le (Nat.le_succ _), Nat.add_sub_cancel_left]
  rfl

/-- In front of the byte that is found, there is none. -/
theorem notMem_take_of_strchr {c : UInt8} {s : List UInt8} {i : ℕ} (h : strchr c s = some i) :
    c ∉ s.take i := by
  induction s generalizing i with
  | nil => simp
  | cons d s ih =>
    rw [strchr_cons] at h
    split_ifs at h with hd
    · rw [← Option.some.inj h]
      exact List.not_mem_nil
    · obtain ⟨j, hj, rfl⟩ := Option.map_eq_some_iff.1 h
      rw [List.take_succ_cons, List.mem_cons, not_or]
      exact ⟨Ne.symm hd, ih hj⟩

/-! ## Spaces -/

theorem trimEnd_initial (s : List UInt8) : trimEnd s <+: s := by
  induction s with
  | nil => exact List.prefix_refl _
  | cons c s ih =>
    rw [trimEnd]
    split_ifs
    · exact List.nil_prefix
    · exact List.cons_prefix_cons.2 ⟨rfl, ih⟩

/-- Without a space there is nothing to trim. -/
theorem trimEnd_of_notMem {s : List UInt8} (h : 32 ∉ s) : trimEnd s = s := by
  induction s with
  | nil => rfl
  | cons c s ih =>
    rw [List.mem_cons, not_or] at h
    rw [trimEnd, if_neg fun h' => h.1 h'.2.symm, ih h.2]

theorem trimSpaces_of_notMem {s : List UInt8} (h : 32 ∉ s) : trimSpaces s = s := by
  have hdrop : s.dropWhile (· = 32) = s := by
    cases s with
    | nil => rfl
    | cons c s =>
      rw [List.dropWhile_cons, if_neg]
      simpa using fun hc : c = 32 => h (hc ▸ List.mem_cons_self)
  rw [trimSpaces, hdrop, trimEnd_of_notMem h]

/-- What is trimmed already stays in front of more. -/
theorem trimEnd_append {s : List UInt8} (hs : trimEnd s = s) (t : List UInt8) :
    trimEnd (s ++ t) = s ++ trimEnd t := by
  induction s with
  | nil => rfl
  | cons c s ih =>
    rw [trimEnd] at hs
    split_ifs at hs with hnil
    have hs' : trimEnd s = s := (List.cons.inj hs).2
    rw [List.cons_append, trimEnd, ih hs', if_neg, List.cons_append]
    rintro ⟨happ, hc⟩
    exact hnil ⟨by rw [hs', (List.append_eq_nil_iff.1 happ).1], hc⟩

theorem trimEnd_concat {c : UInt8} (hc : c ≠ 32) (s : List UInt8) :
    trimEnd (s ++ [c]) = s ++ [c] := by
  induction s with
  | nil => exact if_neg fun h => hc h.2
  | cons b s ih =>
    rw [List.cons_append, trimEnd, ih, if_neg]
    exact fun h => List.append_ne_nil_of_right_ne_nil s (List.cons_ne_nil c []) h.1

/-- Behind a character in front, only the end is trimmed. -/
theorem trimSpaces_cons_of_ne {c : UInt8} (hc : c ≠ 32) (s : List UInt8) :
    trimSpaces (c :: s) = trimEnd (c :: s) := by
  rw [trimSpaces, List.dropWhile_cons_of_neg (by simpa using hc)]

/-- A space in front is trimmed. -/
theorem trimSpaces_space (s : List UInt8) : trimSpaces (32 :: s) = trimSpaces s := by
  rw [trimSpaces, List.dropWhile_cons_of_pos (by simp), trimSpaces]

/-- To trim twice is to trim once. -/
theorem trimEnd_trimEnd (s : List UInt8) : trimEnd (trimEnd s) = trimEnd s := by
  induction s with
  | nil => rfl
  | cons c s ih =>
    rw [trimEnd]
    split_ifs with hnil
    · rfl
    · rw [trimEnd, ih, if_neg hnil]

/-- The end may be trimmed first. -/
theorem trimSpaces_trimEnd (s : List UInt8) : trimSpaces (trimEnd s) = trimSpaces s := by
  induction s with
  | nil => rfl
  | cons c s ih =>
    by_cases hc : c = 32
    · rw [hc, trimSpaces_space, ← ih, trimEnd]
      split_ifs with hnil
      · rw [hnil.1]
      · rw [trimSpaces_space]
    · rw [trimEnd, if_neg fun h => hc h.2, trimSpaces_cons_of_ne hc, trimSpaces_cons_of_ne hc,
        trimEnd, trimEnd, trimEnd_trimEnd]

theorem trimSpaces_eq_nil_iff {s : List UInt8} : trimSpaces s = [] ↔ trimEnd s = [] := by
  constructor
  · intro h
    induction s with
    | nil => rfl
    | cons c s ih =>
      by_cases hc : c = 32
      · rw [hc, trimSpaces_space] at h
        rw [trimEnd, if_pos ⟨ih h, hc⟩]
      · rwa [trimSpaces_cons_of_ne hc] at h
  · intro h
    rw [← trimSpaces_trimEnd, h]
    rfl

/-- Nothing is left of spaces. -/
theorem trimSpaces_of_forall {s : List UInt8} (h : ∀ c ∈ s, c = 32) : trimSpaces s = [] := by
  induction s with
  | nil => rfl
  | cons c s ih =>
    rw [List.forall_mem_cons] at h
    rw [h.1, trimSpaces_space, ih h.2]

theorem mem_of_mem_trimSpaces {c : UInt8} {s : List UInt8} (h : c ∈ trimSpaces s) : c ∈ s :=
  (List.dropWhile_suffix _).subset ((trimEnd_initial _).subset h)

/-- There are no spaces in front of what has been trimmed. -/
theorem dropWhile_trimSpaces (s : List UInt8) :
    (trimSpaces s).dropWhile (· = 32) = trimSpaces s := by
  rw [trimSpaces]
  have hhead := List.head?_dropWhile_not (fun c : UInt8 => decide (c = 32)) s
  cases hs : s.dropWhile (· = 32) with
  | nil => rfl
  | cons c t =>
    rw [hs] at hhead
    have hc : c ≠ 32 := by simpa using hhead
    rw [trimEnd, if_neg fun h => hc h.2, List.dropWhile_cons_of_neg (by simpa using hc)]

end Base
