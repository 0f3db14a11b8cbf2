import Libks.Base.CString

/-!
# Checks of JSON values

`string_matches` looks for a value among the comma-separated names of a rule. It
searches the rule for the bytes of the value, and goes on behind an occurrence
that is not a whole name; but the place where it goes on counts as the start of a
name. So a value is also taken for a name in which it is left alone behind an
occurrence that the search has come to (`Trails`): `a` matches `aa`. It is among
the names if it is found, if and only if no name is such a one
(`stringMatches_eq_listed_iff`), and the keys of an object with them
(`ks_json_check_object`).
-/

namespace Libks

open Base

/-- `ks_json_type_t`. -/
inductive JsonType
  | invalid
  | false
  | true
  | null
  | number
  | string
  | array
  | object
  | raw
  deriving DecidableEq, Repr

/-- `ks_json_t`: the type of an item, its `valuestring`, and the `string` of each of its
    children, the name it has in an object. -/
structure JsonItem where
  type : JsonType
  valuestring : Option (List UInt8) := none
  names : List (Option (List UInt8)) := []
  deriving DecidableEq, Repr

/-- `zstr`. -/
def zstr (s : Option (List UInt8)) : Bool := s.getD [] = []

/-- `ks_json_type_get`. -/
def ksJsonTypeGet (item : Option JsonItem) : JsonType := item.elim .invalid JsonItem.type

/-- `ks_json_type_is`. -/
def ksJsonTypeIs (item : Option JsonItem) (type : JsonType) : Bool := ksJsonTypeGet item = type

/-- `string_matches`. A null pointer is as good as an empty string. -/
def stringMatches (value rule : List UInt8) : Bool :=
  if rule ≠ [] ∧ value ≠ [] ∧ strchr 44 value = none then
    match strstr value rule with
    | none => false
    | some i =>
      let rest := rule.drop (i + value.length)
      if (i = 0 ∨ rule[i - 1]? = some 44) ∧ (rest.head? = some 44 ∨ rest = []) then true
      -- The substring matched: farther down the string.
      else stringMatches value rest
  else false
termination_by rule.length
decreasing_by
  obtain ⟨hrule, hvalue, -⟩ : rule ≠ [] ∧ value ≠ [] ∧ strchr 44 value = none := ‹_›
  have hvaluePos := List.length_pos_iff.2 hvalue
  have hrulePos := List.length_pos_iff.2 hrule
  rw [List.length_drop]
  omega

/-- `ks_json_check_string_matches`. -/
def ksJsonCheckStringMatches (item : Option JsonItem) (rule : Option (List UInt8)) : Bool :=
  let valuestring := item.bind JsonItem.valuestring
  if !ksJsonTypeIs item .string || zstr valuestring then false
  else stringMatches (valuestring.getD []) (rule.getD [])

/-- `ks_json_check_object`. -/
def ksJsonCheckObject (json : Option JsonItem) (itemNames : Option (List UInt8)) : Bool :=
  if !ksJsonTypeIs json .object then false
  else if zstr itemNames then true
  else (json.elim [] JsonItem.names).all fun s =>
    !zstr s && stringMatches (s.getD []) (itemNames.getD [])

/-! ## The search -/

section Search

variable {v r t : List UInt8} {i : ℕ}

theorem stringMatches_none (h : strstr v r = none) : stringMatches v r = false := by
  rw [stringMatches]
  split_ifs
  · rw [h]
  · rfl

theorem stringMatches_some (hv : v ≠ []) (hc : 44 ∉ v) (h : strstr v r = some i) :
    stringMatches v r = true ↔
      (i = 0 ∨ r[i - 1]? = some 44) ∧ ((r.drop (i + v.length)).head? = some 44 ∨
        r.drop (i + v.length) = []) ∨ stringMatches v (r.drop (i + v.length)) = true := by
  have hr : r ≠ [] := by
    rintro rfl
    rw [strstr, if_neg hv] at h
    cases h
  rw [stringMatches, if_pos ⟨hr, hv, strchr_eq_none_iff.2 hc⟩, h]
  dsimp only
  split_ifs with hwhole
  · exact iff_of_true rfl (.inl hwhole)
  · exact ⟨.inr, fun h => h.resolve_left hwhole⟩

/-- What is left behind an occurrence that a search for `v` comes to, occurrence behind
    occurrence, is `v` itself. -/
inductive Trails (v : List UInt8) : List UInt8 → Prop
  | here {t : List UInt8} {i : ℕ} : strstr v t = some i → t.drop (i + v.length) = v → Trails v t
  | later {t : List UInt8} {i : ℕ} :
    strstr v t = some i → Trails v (t.drop (i + v.length)) → Trails v t

/-- Names in front of a comma are searched apart from those behind it. -/
theorem stringMatches_append (hv : v ≠ []) (hc : 44 ∉ v) (ht : 44 ∉ t) :
    stringMatches v (t ++ 44 :: r) = (stringMatches v t || stringMatches v r) := by
  induction hn : t.length using Nat.strongRecOn generalizing t with
  | ind n ih =>
    cases h : strstr v t with
    | none =>
      rw [stringMatches_none h, Bool.false_or]
      have hcut := strstr_append_cons (t := r) hv hc h
      cases hr : strstr v r with
      | none =>
        rw [hr] at hcut
        rw [stringMatches_none hcut, stringMatches_none hr]
      | some i =>
        -- It is found behind the comma, and so is what comes after it.
        rw [hr] at hcut
        have hbefore : (t ++ 44 :: r)[i + (t.length + 1) - 1]? = some 44 ↔
            i = 0 ∨ r[i - 1]? = some 44 := by
          rw [List.getElem?_append_right (by omega)]
          cases i with
          | zero => simp
          | succ i =>
            rw [show i + 1 + (t.length + 1) - 1 - t.length = i + 1 by omega]
            simp
        have hbehind : (t ++ 44 :: r).drop (i + (t.length + 1) + v.length) =
            r.drop (i + v.length) := by
          rw [show i + (t.length + 1) + v.length = t.length + 1 + (i + v.length) by omega,
            ← List.drop_drop, drop_cut]
        rw [Bool.eq_iff_iff, stringMatches_some hv hc hcut, stringMatches_some hv hc hr, hbehind,
          hbefore]
        simp
    | some i =>
      have hle : i + v.length ≤ t.length := by
        have hpre := ((strstr_eq_some_iff hv).1 h).1.length_le
        have hpos := List.length_pos_iff.2 hv
        rw [List.length_drop] at hpre
        omega
      have hpos := List.length_pos_iff.2 hv
      have hbehind : (t ++ 44 :: r).drop (i + v.length) = t.drop (i + v.length) ++ 44 :: r :=
        List.drop_append_of_le_length hle
      have hbefore : (t ++ 44 :: r)[i - 1]? = t[i - 1]? :=
        List.getElem?_append_left (by omega)
      have hrest : 44 ∉ t.drop (i + v.length) := fun hmem => ht (List.mem_of_mem_drop hmem)
      have hend : (t.drop (i + v.length) ++ 44 :: r).head? = some 44 ∨
          t.drop (i + v.length) ++ 44 :: r = [] ↔
          (t.drop (i + v.length)).head? = some 44 ∨ t.drop (i + v.length) = [] := by
        cases t.drop (i + v.length) <;> simp
      have hih := ih (t.drop (i + v.length)).length (by rw [List.length_drop]; omega) hrest rfl
      rw [Bool.eq_iff_iff, Bool.or_eq_true, stringMatches_some hv hc h,
        stringMatches_some hv hc (strstr_append_left hv h), hbehind, hbefore, hend, hih,
        Bool.or_eq_true, or_assoc]

theorem trails_iff (h : strstr v t = some i) :
    Trails v t ↔ t.drop (i + v.length) = v ∨ Trails v (t.drop (i + v.length)) := by
  constructor
  · intro ht
    cases ht with
    | here h' hrest =>
      obtain rfl := Option.some.inj (h.symm.trans h')
      exact .inl hrest
    | later h' hrest =>
      obtain rfl := Option.some.inj (h.symm.trans h')
      exact .inr hrest
  · rintro (hrest | hrest)
    · exact .here h hrest
    · exact .later h hrest

/-- The occurrence is the whole name. -/
theorem eq_of_strstr (hv : v ≠ []) (h : strstr v t = some i) :
    i = 0 ∧ t.drop (i + v.length) = [] ↔ t = v := by
  have hpre := ((strstr_eq_some_iff hv).1 h).1
  constructor
  · rintro ⟨rfl, hrest⟩
    rw [List.drop_zero] at hpre
    rw [Nat.zero_add, List.drop_eq_nil_iff] at hrest
    exact (hpre.eq_of_length_le hrest).symm
  · rintro rfl
    have hlen := hpre.length_le
    have hpos := List.length_pos_iff.2 hv
    rw [List.length_drop] at hlen
    obtain rfl : i = 0 := by omega
    exact ⟨rfl, by rw [Nat.zero_add, List.drop_length]⟩

/-- One name is searched. -/
theorem stringMatches_name (hv : v ≠ []) (hc : 44 ∉ v) (ht : 44 ∉ t) :
    stringMatches v t = true ↔ t = v ∨ Trails v t := by
  induction hn : t.length using Nat.strongRecOn generalizing t with
  | ind n ih =>
    cases h : strstr v t with
    | none =>
      rw [stringMatches_none h]
      refine iff_of_false Bool.false_ne_true ?_
      rintro (rfl | htrails)
      · exact (strstr_eq_none_iff hv).1 h (List.infix_refl _)
      · cases htrails with
        | here h' => cases h.symm.trans h'
        | later h' => cases h.symm.trans h'
    | some i =>
      have hrest : 44 ∉ t.drop (i + v.length) := fun hmem => ht (List.mem_of_mem_drop hmem)
      have hshorter : (t.drop (i + v.length)).length < n := by
        have hpre := ((strstr_eq_some_iff hv).1 h).1.length_le
        have hpos := List.length_pos_iff.2 hv
        rw [List.length_drop] at hpre ⊢
        omega
      have hbefore : t[i - 1]? ≠ some 44 := fun h' => ht (List.mem_of_getElem? h')
      have hbehind : (t.drop (i + v.length)).head? ≠ some 44 := fun h' =>
        hrest (List.mem_of_head? h')
      rw [stringMatches_some hv hc h, ih _ hshorter hrest rfl, ← trails_iff h, or_iff_left hbefore,
        or_iff_right hbehind, eq_of_strstr hv h]

/-- The value is one of the names of a rule. -/
def IsListed (value rule : List UInt8) : Prop :=
  value ≠ [] ∧ 44 ∉ value ∧ value ∈ rule.splitOn 44

/-- The value is left alone in one of the names of a rule. -/
def Trailing (value rule : List UInt8) : Prop :=
  value ≠ [] ∧ 44 ∉ value ∧ ∃ name ∈ rule.splitOn 44, Trails value name

theorem stringMatches_iff (value rule : List UInt8) :
    stringMatches value rule = true ↔ IsListed value rule ∨ Trailing value rule := by
  by_cases hv : value = []
  · rw [stringMatches, if_neg fun h => h.2.1 hv]
    exact iff_of_false Bool.false_ne_true (not_or.2 ⟨fun h => h.1 hv, fun h => h.1 hv⟩)
  by_cases hc : 44 ∈ value
  · rw [stringMatches, if_neg fun h => strchr_eq_none_iff.1 h.2.2 hc]
    exact iff_of_false Bool.false_ne_true (not_or.2 ⟨fun h => h.2.1 hc, fun h => h.2.1 hc⟩)
  have hsearch : stringMatches value rule = true ↔
      ∃ name ∈ rule.splitOn 44, name = value ∨ Trails value name := by
    induction hn : rule.length using Nat.strongRecOn generalizing rule with
    | ind n ih =>
      by_cases hrule : 44 ∈ rule
      · obtain ⟨name, rest, rfl, hname⟩ := List.eq_append_cons_of_mem hrule
        have hrest := ih rest.length (by rw [← hn]; simp; omega) rest rfl
        rw [stringMatches_append hv hc hname, Bool.or_eq_true, stringMatches_name hv hc hname, hrest,
          List.splitOn_append_cons_self_of_not_mem hname, List.exists_mem_cons_iff]
      · rw [stringMatches_name hv hc hrule, List.splitOn_eq_singleton hrule]
        simp
  rw [hsearch, IsListed, Trailing]
  constructor
  · rintro ⟨name, hmem, rfl | htrails⟩
    · exact .inl ⟨hv, hc, hmem⟩
    · exact .inr ⟨hv, hc, name, hmem, htrails⟩
  · rintro (⟨-, -, hmem⟩ | ⟨-, -, name, hmem, htrails⟩)
    · exact ⟨value, hmem, .inl rfl⟩
    · exact ⟨name, hmem, .inr htrails⟩

/-- A search finds the listed values, and no others, if and only if a value that it is
    left with is listed as well. -/
theorem stringMatches_eq_listed_iff (value rule : List UInt8) :
    (stringMatches value rule = true ↔ IsListed value rule) ↔
      (Trailing value rule → IsListed value rule) := by
  rw [stringMatches_iff]
  constructor
  · exact fun h htrailing => h.1 (.inr htrailing)
  · exact fun h => ⟨fun hfound => hfound.elim id h, .inl⟩

end Search

/-! ## The keys of an object -/

/-- An object is accepted if all of its keys are found. -/
theorem ksJsonCheckObject_iff (v : Option (List UInt8)) (keys : List (Option (List UInt8)))
    {itemNames : List UInt8} (h : itemNames ≠ []) :
    ksJsonCheckObject (some { type := .object, valuestring := v, names := keys }) (some itemNames) =
        true ↔
      ∀ key ∈ keys, IsListed (key.getD []) itemNames ∨ Trailing (key.getD []) itemNames := by
  have hnames : zstr (some itemNames) = false := decide_eq_false h
  rw [ksJsonCheckObject, hnames, if_neg (by simp [ksJsonTypeIs, ksJsonTypeGet]),
    if_neg Bool.false_ne_true, List.all_eq_true]
  refine forall₂_congr fun key _ => ?_
  rw [Bool.and_eq_true, ← stringMatches_iff]
  refine and_iff_right_of_imp fun hfound => ?_
  have hne : key.getD [] ≠ [] := by
    rcases (stringMatches_iff _ _).1 hfound with hl | ht
    · exact hl.1
    · exact ht.1
  rw [zstr, decide_eq_false hne]
  rfl

/-- `string_matches` finds the listed values, and `ks_json_check_object` accepts the objects
    with listed keys, if and only if no value, or no object, gets through because a name
    is searched on behind an occurrence. -/
theorem ksJsonCheck_listed_iff (value rule : List UInt8) (v : Option (List UInt8))
    (keys : List (Option (List UInt8))) (c : UInt8) (names : List UInt8) :
    ((stringMatches value rule = true ↔ IsListed value rule) ↔
      (Trailing value rule → IsListed value rule)) ∧
    ((ksJsonCheckObject (some { type := .object, valuestring := v, names := keys })
        (some (c :: names)) = true ↔ ∀ key ∈ keys, IsListed (key.getD []) (c :: names)) ↔
      ((∀ key ∈ keys,
          IsListed (key.getD []) (c :: names) ∨ Trailing (key.getD []) (c :: names)) →
        ∀ key ∈ keys, IsListed (key.getD []) (c :: names))) := by
  refine ⟨stringMatches_eq_listed_iff value rule, ?_⟩
  rw [ksJsonCheckObject_iff v keys (List.cons_ne_nil c names)]
  exact ⟨fun h => h.1, fun h => ⟨h, fun hlisted key hkey => .inl (hlisted key hkey)⟩⟩

/-- `a` matches `aa`. -/
theorem not_stringMatches_listed :
    ¬∀ value rule, stringMatches value rule = true ↔ IsListed value rule := by
  intro h
  have htrails : Trails (ascii "a") (ascii "aa") := .here (i := 0) (by decide) (by decide)
  have hfound : stringMatches (ascii "a") (ascii "aa") = true :=
    (stringMatches_iff _ _).2 (.inr ⟨by decide, by decide, _, by decide +kernel, htrails⟩)
  exact absurd ((h _ _).1 hfound).2.2 (by decide +kernel)

end Libks
