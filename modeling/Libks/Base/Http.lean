import Mathlib.Data.List.TakeWhile
import Libks.Base.CString

/-!
# Heads of HTTP messages

The lines of a head, and the value of a field in it, as the specification of
HTTP has them: lines end with CR LF, a field line is a name and a value with a
colon between them, white space around the value is not part of it, and names
are compared without case.
-/

namespace Base.Http

/-- The lines of a head, without their CR LF. -/
def lines : List UInt8 → List (List UInt8)
  | [] => [[]]
  | 13 :: 10 :: s => [] :: lines s
  | c :: s =>
    match lines s with
    | [] => [[c]]
    | l :: ls => (c :: l) :: ls

/-- White space in a line. -/
def isSpace (c : UInt8) : Bool := c = 32 ∨ c = 9

/-- The bytes without the white space around them. -/
def trim (s : List UInt8) : List UInt8 :=
  ((s.dropWhile isSpace).reverse.dropWhile isSpace).reverse

/-- The value on a line of the field `name`. -/
def valueOn (name line : List UInt8) : Option (List UInt8) := do
  let i ← strchr 58 line
  if (line.take i).map toLower = name.map toLower then some (trim (line.drop (i + 1))) else none

/-- The value of the first field `name` behind the first line of a head. -/
def fieldValue (name head : List UInt8) : Option (List UInt8) :=
  (lines head).tail.findSome? (valueOn name)

/-! ## Lines that end with CR LF or LF -/

/-- The first line of a text, up to its CR LF or LF. -/
def firstLine : List UInt8 → List UInt8
  | [] => []
  | c :: s => if c = 10 ∨ (c = 13 ∧ s.head? = some 10) then [] else c :: firstLine s

/-- The text behind the end of each of its lines. -/
def afterLines : List UInt8 → List (List UInt8)
  | [] => []
  | c :: s => if c = 10 then s :: afterLines s else afterLines s

/-- The text from the start of each of its lines. -/
def fromLines (s : List UInt8) : List (List UInt8) := s :: afterLines s

/-- The text before the first CR or LF. -/
def plain (s : List UInt8) : List UInt8 := s.takeWhile fun c => c ≠ 10 ∧ c ≠ 13

/-- The text from the first CR or LF on. -/
def plainEnd (s : List UInt8) : List UInt8 := s.dropWhile fun c => c ≠ 10 ∧ c ≠ 13

variable {as s : List UInt8} {c : UInt8}

/-- The first of the lines stands at the start of the text. -/
theorem lines_initial {l : List UInt8} (h : (lines s).head? = some l) : l <+: s := by
  induction s using lines.induct generalizing l with
  | case1 => exact Option.some.inj h ▸ List.prefix_refl _
  | case2 s ih => exact Option.some.inj h ▸ List.nil_prefix
  | case3 c s hne hnil ih =>
    rw [lines.eq_3 _ _ hne, hnil] at h
    exact Option.some.inj h ▸ List.cons_prefix_cons.2 ⟨rfl, List.nil_prefix⟩
  | case4 c s hne l' ls hcons ih =>
    rw [lines.eq_3 _ _ hne, hcons] at h
    rw [hcons] at ih
    exact Option.some.inj h ▸ List.cons_prefix_cons.2 ⟨rfl, ih rfl⟩

/-- A text without LF, and CR LF behind it, is a line. -/
theorem lines_append (h : 10 ∉ as) : lines (as ++ 13 :: 10 :: s) = as :: lines s := by
  induction as with
  | nil => rfl
  | cons a as ih =>
    rw [List.mem_cons, not_or] at h
    have hne : ∀ t, a = 13 → as ++ 13 :: 10 :: s = 10 :: t → False := by
      intro t _ heq
      cases as with
      | nil =>
        injection heq with h13
        exact absurd h13 (by decide)
      | cons b as =>
        injection heq with hb
        exact h.2 (hb ▸ List.mem_cons_self)
    rw [List.cons_append, lines.eq_3 _ _ hne, ih h.2]

theorem lines_flatMap {ls : List (List UInt8)} (h : ∀ l ∈ ls, 10 ∉ l) :
    lines (ls.flatMap (· ++ [13, 10]) ++ s) = ls ++ lines s := by
  induction ls with
  | nil => rfl
  | cons l ls ih =>
    rw [List.flatMap_cons, List.append_assoc, List.append_assoc, List.cons_append, List.cons_append,
      List.nil_append, lines_append (h l List.mem_cons_self),
      ih fun x hx => h x (List.mem_cons_of_mem _ hx), List.cons_append]

theorem firstLine_append (h : 10 ∉ as) (hc : c ≠ 10) :
    firstLine (as ++ c :: s) = as ++ firstLine (c :: s) := by
  induction as with
  | nil => rfl
  | cons a as ih =>
    rw [List.mem_cons, not_or] at h
    have hend : ¬(a = 10 ∨ (a = 13 ∧ (as ++ c :: s).head? = some 10)) := by
      rintro (ha | ⟨-, ha⟩)
      · exact h.1 ha.symm
      · cases as with
        | nil => exact hc (Option.some.inj ha)
        | cons b as => exact h.2 (by rw [← Option.some.inj ha]; exact List.mem_cons_self)
    rw [List.cons_append, firstLine, if_neg hend, ih h.2, List.cons_append]

theorem firstLine_cons (hc : c ≠ 10) (hc' : c ≠ 13) : firstLine (c :: s) = c :: firstLine s := by
  rw [firstLine, if_neg]
  exact not_or.2 ⟨hc, fun h => hc' h.1⟩

/-- A text without CR and LF is on the first line. -/
theorem firstLine_plain (h : 10 ∉ as) (h' : 13 ∉ as) : firstLine (as ++ s) = as ++ firstLine s := by
  induction as with
  | nil => rfl
  | cons a as ih =>
    rw [List.mem_cons, not_or] at h h'
    rw [List.cons_append, firstLine_cons (Ne.symm h.1) (Ne.symm h'.1), ih h.2 h'.2, List.cons_append]

theorem firstLine_newline (h : 10 ∉ as) (h' : 13 ∉ as) : firstLine (as ++ 10 :: s) = as := by
  rw [firstLine_plain h h', firstLine, if_pos (.inl rfl), List.append_nil]

theorem firstLine_return (h : 10 ∉ as) (h' : 13 ∉ as) :
    firstLine (as ++ 13 :: s) = if s.head? = some 10 then as else as ++ 13 :: firstLine s := by
  rw [firstLine_plain h h', firstLine]
  by_cases hs : s.head? = some 10
  · rw [if_pos (.inr ⟨rfl, hs⟩), if_pos hs, List.append_nil]
  · rw [if_neg (by simp [hs]), if_neg hs]

/-- The first line is a part of the text, from its start. -/
theorem firstLine_initial (s : List UInt8) : firstLine s <+: s := by
  induction s with
  | nil => exact List.prefix_refl _
  | cons c s ih =>
    rw [firstLine]
    split_ifs
    · exact List.nil_prefix
    · exact List.cons_prefix_cons.2 ⟨rfl, ih⟩

/-- Blanks at the start of the line are blanks at the start of the text. -/
theorem dropWhile_firstLine (s : List UInt8) :
    (firstLine s).dropWhile (· = 32) = firstLine (s.dropWhile (· = 32)) := by
  induction s with
  | nil => rfl
  | cons c s ih =>
    by_cases hc : c = 32
    · rw [hc, firstLine_cons (by decide) (by decide), List.dropWhile_cons_of_pos (by decide),
        List.dropWhile_cons_of_pos (by decide), ih]
    · rw [List.dropWhile_cons_of_neg (by simpa using hc), firstLine]
      split_ifs
      · rfl
      · rw [List.dropWhile_cons_of_neg (by simpa using hc)]

theorem plain_append_plainEnd (s : List UInt8) : plain s ++ plainEnd s = s :=
  List.takeWhile_append_dropWhile

theorem notMem_plain (s : List UInt8) : 10 ∉ plain s ∧ 13 ∉ plain s := by
  constructor
  · intro h
    simpa using List.mem_takeWhile_imp h
  · intro h
    simpa using List.mem_takeWhile_imp h

/-- What follows the part without CR and LF starts with one of them. -/
theorem plainEnd_cons (h : plainEnd s = c :: as) : c = 10 ∨ c = 13 := by
  have hhead : (s.dropWhile fun c => c ≠ 10 ∧ c ≠ 13).head? = some c := by
    rw [plainEnd] at h
    rw [h]
    rfl
  have hc := List.head?_dropWhile_not (fun c : UInt8 => decide (c ≠ 10 ∧ c ≠ 13)) s
  rw [hhead] at hc
  by_contra hne
  rw [not_or] at hne
  simp [hne.1, hne.2] at hc

/-! ## Heads made of lines -/

/-- A text that is one line, and not an empty one. -/
structure IsLine (l : List UInt8) : Prop where
  ne : l ≠ []
  newline : 10 ∉ l
  carriage : 13 ∉ l

instance : DecidablePred IsLine := fun _ =>
  decidable_of_iff (_ ∧ _ ∧ _) ⟨fun h => ⟨h.1, h.2.1, h.2.2⟩, fun h => ⟨h.1, h.2, h.3⟩⟩

/-- The head with some lines. -/
def headOf (ls : List (List UInt8)) : List UInt8 := ls.flatMap (· ++ [13, 10]) ++ [13, 10]

variable {l t b : List UInt8} {ls : List (List UInt8)}

theorem headOf_cons (l : List UInt8) (ls : List (List UInt8)) :
    headOf (l :: ls) = l ++ 13 :: 10 :: headOf ls := by
  simp [headOf]

theorem lines_headOf (h : ∀ l ∈ ls, 10 ∉ l) : lines (headOf ls) = ls ++ [[], []] :=
  lines_flatMap h

/-- What ends a text and starts with a byte that is not in the first part ends
    the second part. -/
theorem suffix_of_notMem (hc : c ∉ l) (h : c :: b <:+ l ++ t) : c :: b <:+ t := by
  induction l with
  | nil => exact h
  | cons d l ih =>
    rw [List.mem_cons, not_or] at hc
    rcases List.suffix_cons_iff.1 h with heq | h
    · exact absurd (List.cons.inj heq).1 hc.1
    · exact ih hc.2 h

/-- The end of a line is not the end of an empty one, but for the last. -/
theorem headOf_start (h : ∀ l ∈ ls, IsLine l) :
    (headOf ls).head? ≠ some 10 ∧ ((headOf ls).head? = some 13 → ls = []) := by
  cases ls with
  | nil => exact ⟨by decide, fun _ => rfl⟩
  | cons l ls =>
    have hl := h l List.mem_cons_self
    obtain ⟨c, l, rfl⟩ := List.exists_cons_of_ne_nil hl.ne
    rw [headOf_cons, List.cons_append, List.head?_cons]
    constructor
    · rintro ⟨⟩
      exact hl.newline List.mem_cons_self
    · rintro ⟨⟩
      exact absurd List.mem_cons_self hl.carriage

/-- The only empty line of a head is at its end. -/
theorem eq_nil_of_blank_suffix (h : ∀ l ∈ ls, IsLine l)
    (hb : 13 :: 10 :: 13 :: 10 :: b <:+ headOf ls) : b = [] := by
  induction ls with
  | nil =>
    have hlen := hb.length_le
    simp [headOf] at hlen
  | cons l ls ih =>
    have hls : ∀ l ∈ ls, IsLine l := fun l hl => h l (List.mem_cons_of_mem _ hl)
    rw [headOf_cons] at hb
    rcases List.suffix_cons_iff.1 (suffix_of_notMem (h l List.mem_cons_self).carriage hb) with heq | hb
    · injection heq with _ heq
      injection heq with _ heq
      obtain rfl := (headOf_start hls).2 (by rw [← heq]; rfl)
      simpa [headOf] using heq
    · rcases List.suffix_cons_iff.1 hb with heq | hb
      · exact absurd (List.cons.inj heq).1 (by decide)
      · exact ih hls hb

theorem not_newlines_suffix (h : ∀ l ∈ ls, IsLine l) : ¬10 :: 10 :: b <:+ headOf ls := by
  induction ls with
  | nil =>
    intro hb
    have hlen := hb.length_le
    obtain ⟨rfl⟩ : b = [] := by simpa [headOf] using hlen
    exact absurd hb (by decide)
  | cons l ls ih =>
    have hls : ∀ l ∈ ls, IsLine l := fun l hl => h l (List.mem_cons_of_mem _ hl)
    intro hb
    rw [headOf_cons] at hb
    rcases List.suffix_cons_iff.1 (suffix_of_notMem (h l List.mem_cons_self).newline hb) with heq | hb
    · exact absurd (List.cons.inj heq).1 (by decide)
    · rcases List.suffix_cons_iff.1 hb with heq | hb
      · injection heq with _ heq
        exact (headOf_start hls).1 (by rw [← heq]; rfl)
      · exact ih hls hb

/-- The text from the start of each line, where the first one is known. -/
theorem fromLines_append (h : 10 ∉ l) :
    fromLines (l ++ 13 :: 10 :: s) = (l ++ 13 :: 10 :: s) :: fromLines s := by
  have hafter : afterLines (l ++ 13 :: 10 :: s) = fromLines s := by
    induction l with
    | nil => rfl
    | cons c l ih =>
      rw [List.mem_cons, not_or] at h
      rw [List.cons_append, afterLines, if_neg (Ne.symm h.1), ih h.2]
  rw [fromLines, hafter]

end Base.Http
