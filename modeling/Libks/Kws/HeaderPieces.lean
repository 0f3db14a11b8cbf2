import Libks.Text.Cleanup

/-!
# The pieces of header lines

The lines of a head, with a CR and a LF between them, are separated at their LFs. The
pieces are the lines, each but the last with its CR (`pieces`), if there is room for all
of them and at most one apostrophe in them (`rawTokens_linesText`): of two apostrophes in
different lines, the first one hides the LFs up to the second.
-/

namespace Libks

open Base

/-- Lines with a CR and a LF between them. -/
def linesText (ls : List (List UInt8)) : List UInt8 := [13, 10].intercalate ls

/-- The lines, each but the last one with its CR. -/
def pieces : List (List UInt8) → List (List UInt8)
  | [] => []
  | [l] => [l]
  | l :: l' :: ls => (l ++ [13]) :: pieces (l' :: ls)

variable {l u v w rest s : List UInt8} {ls : List (List UInt8)} {skip : Bool} {delim : UInt8}
  {i n : ℕ}

theorem linesText_singleton (l : List UInt8) : linesText [l] = l := List.intercalate_singleton

theorem linesText_cons (l : List UInt8) (hls : ls ≠ []) :
    linesText (l :: ls) = (l ++ [13]) ++ 10 :: linesText ls := by
  obtain ⟨l', ls, rfl⟩ := List.exists_cons_of_ne_nil hls
  rw [linesText, List.intercalate_cons_cons, linesText]
  simp

theorem length_pieces (ls : List (List UInt8)) : (pieces ls).length = ls.length := by
  induction ls using pieces.induct with
  | case1 => rfl
  | case2 l => rfl
  | case3 l l' ls ih => exact congrArg Nat.succ ih

theorem pieces_cons (l : List UInt8) (hls : ls ≠ []) : pieces (l :: ls) = (l ++ [13]) :: pieces ls := by
  obtain ⟨l', ls, rfl⟩ := List.exists_cons_of_ne_nil hls
  rfl

theorem mem_linesText {c : UInt8} (h : c ∈ linesText ls) : (c = 13 ∨ c = 10) ∨ ∃ l ∈ ls, c ∈ l := by
  induction ls with
  | nil => exact absurd h List.not_mem_nil
  | cons l ls ih =>
    by_cases hnil : ls = []
    · rw [hnil, linesText_singleton] at h
      exact .inr ⟨l, List.mem_cons_self, h⟩
    · rw [linesText_cons l hnil, List.mem_append, List.mem_append, List.mem_singleton,
        List.mem_cons] at h
      rcases h with (h | h) | h | h
      · exact .inr ⟨l, List.mem_cons_self, h⟩
      · exact .inl (.inl h)
      · exact .inl (.inr h)
      · exact (ih h).imp_right fun ⟨l', hl', hc⟩ => ⟨l', List.mem_cons_of_mem _ hl', hc⟩

/-- A LF of the text is the end of a line. -/
theorem cut_of_linesText (hls : ∀ l ∈ ls, 10 ∉ l) (h : linesText ls = u ++ 10 :: v) :
    ∃ as bs, ls = as ++ bs ∧ as ≠ [] ∧ bs ≠ [] ∧ u = linesText as ++ [13] ∧ v = linesText bs := by
  induction ls generalizing u with
  | nil => exact absurd h.symm (List.append_ne_nil_of_right_ne_nil _ (List.cons_ne_nil _ _))
  | cons l ls ih =>
    rw [List.forall_mem_cons] at hls
    by_cases hnil : ls = []
    · rw [hnil, linesText_singleton] at h
      exact absurd (h ▸ List.mem_append_right u List.mem_cons_self) hls.1
    rw [linesText_cons l hnil] at h
    have hl : 10 ∉ l ++ [13] := by simpa using hls.1
    rcases List.append_eq_append_iff.1 h with ⟨t, hu, ht⟩ | ⟨t, hu, ht⟩
    · cases t with
      | nil =>
        -- It is the end of the first one.
        rw [List.append_nil] at hu
        obtain ⟨-, rfl⟩ := List.cons.inj ht
        exact ⟨[l], ls, rfl, List.cons_ne_nil _ _, hnil, by rw [hu, linesText_singleton], rfl⟩
      | cons c t =>
        have hc : 10 = c := (List.cons.inj ht).1
        have ht : linesText ls = t ++ 10 :: v := (List.cons.inj ht).2
        obtain ⟨as, bs, rfl, has, hbs, rfl, rfl⟩ := ih hls.2 ht
        refine ⟨l :: as, bs, rfl, List.cons_ne_nil _ _, hbs, ?_, rfl⟩
        rw [hu, linesText_cons l has, ← hc, List.append_assoc (l ++ [13])]
        rfl
    · cases t with
      | nil =>
        rw [List.append_nil] at hu
        obtain ⟨-, rfl⟩ := List.cons.inj ht
        exact ⟨[l], ls, rfl, List.cons_ne_nil _ _, hnil, by rw [← hu, linesText_singleton], rfl⟩
      | cons c t =>
        obtain ⟨rfl, -⟩ := List.cons.inj ht
        exact absurd (hu ▸ List.mem_append_right u List.mem_cons_self) hl

/-- The text of lines of which none is empty is not empty either. -/
theorem linesText_ne_nil (hls : ls ≠ []) (h : ∀ l ∈ ls, l ≠ []) : linesText ls ≠ [] := by
  obtain ⟨l, ls, rfl⟩ := List.exists_cons_of_ne_nil hls
  by_cases hnil : ls = []
  · rw [hnil, linesText_singleton]
    exact h l List.mem_cons_self
  · rw [linesText_cons l hnil]
    simp

/-- Every piece of the text begins with a line. Behind it stands its CR, unless it is the
    last one. -/
theorem exists_line_of_mem_rawTokens (hls : ∀ l ∈ ls, 10 ∉ l) {t : List UInt8}
    (ht : t ∈ rawTokens 10 n (linesText ls)) :
    ∃ l ∈ ls, ∃ w, t = l ++ w ∧ (w.head? = some 13 ∨ w = [] ∧ ls.getLast? = some l) := by
  induction n generalizing ls with
  | zero => exact absurd ht List.not_mem_nil
  | succ n ih =>
    -- A text begins with its first line.
    have hfirst {ls : List (List UInt8)} (hls : ls ≠ []) :
        ∃ l ∈ ls, ∃ w, linesText ls = l ++ w ∧
          (w.head? = some 13 ∨ w = [] ∧ ls.getLast? = some l) := by
      obtain ⟨l, ls, rfl⟩ := List.exists_cons_of_ne_nil hls
      by_cases hnil : ls = []
      · rw [hnil, linesText_singleton]
        exact ⟨l, List.mem_cons_self, [], (List.append_nil l).symm, .inr ⟨rfl, rfl⟩⟩
      · rw [linesText_cons l hnil, List.append_assoc]
        exact ⟨l, List.mem_cons_self, _, rfl, .inl rfl⟩
    by_cases hnil : linesText ls = []
    · rw [hnil] at ht
      exact absurd ht List.not_mem_nil
    by_cases hnone : n = 0 ∨ delimAt 10 false false (linesText ls) = none
    · rw [rawTokens_of_none hnil hnone, List.mem_singleton] at ht
      rw [ht]
      exact hfirst fun hls => hnil (by rw [hls]; rfl)
    · rw [not_or] at hnone
      obtain ⟨i, hat⟩ := Option.ne_none_iff_exists'.1 hnone.2
      obtain ⟨u, v, htext, rfl, -⟩ := delimAt_eq_some hat
      obtain ⟨as, bs, rfl, has, hbs, rfl, rfl⟩ := cut_of_linesText hls htext
      rw [rawTokens_of_delimAt hnone.1 hat, htext, List.take_left, drop_cut, List.mem_cons] at ht
      rcases ht with rfl | ht
      · obtain ⟨l, hl, w, hw, hor⟩ := hfirst has
        refine ⟨l, List.mem_append_left _ hl, w ++ [13], by rw [hw, List.append_assoc], .inl ?_⟩
        rcases hor with hhead | ⟨rfl, -⟩
        · obtain ⟨w, rfl⟩ := List.head?_eq_some_iff.1 hhead
          rfl
        · rfl
      · obtain ⟨l, hl, w, hw, hor⟩ := ih (fun l hl => hls l (List.mem_append_right _ hl)) ht
        refine ⟨l, List.mem_append_right _ hl, w, hw, hor.imp_right fun h => ⟨h.1, ?_⟩⟩
        rw [List.getLast?_append, h.2]
        rfl

/-- There are no more pieces than lines. -/
theorem length_rawTokens_le (hls : ∀ l ∈ ls, 10 ∉ l) :
    (rawTokens 10 n (linesText ls)).length ≤ ls.length := by
  induction n generalizing ls with
  | zero => exact Nat.zero_le _
  | succ n ih =>
    by_cases hnil : linesText ls = []
    · rw [hnil]
      exact Nat.zero_le _
    have hpos : 0 < ls.length := by
      rw [List.length_pos_iff]
      rintro rfl
      exact hnil rfl
    by_cases hnone : n = 0 ∨ delimAt 10 false false (linesText ls) = none
    · rw [rawTokens_of_none hnil hnone]
      exact hpos
    · rw [not_or] at hnone
      obtain ⟨i, hat⟩ := Option.ne_none_iff_exists'.1 hnone.2
      obtain ⟨u, v, htext, rfl, -⟩ := delimAt_eq_some hat
      obtain ⟨as, bs, rfl, has, hbs, rfl, rfl⟩ := cut_of_linesText hls htext
      have hle := ih fun l hl => hls l (List.mem_append_right as hl)
      have has := List.length_pos_iff.2 has
      rw [rawTokens_of_delimAt hnone.1 hat, htext, List.take_left, drop_cut, List.length_cons,
        List.length_append]
      omega

/-- If no piece has a LF in it, they are the lines. -/
theorem rawTokens_eq_pieces (hls : ∀ l ∈ ls, 10 ∉ l ∧ l ≠ []) (hn : ls.length ≤ n)
    (h : ∀ t ∈ rawTokens 10 n (linesText ls), 10 ∉ t) :
    rawTokens 10 n (linesText ls) = pieces ls := by
  induction n generalizing ls with
  | zero =>
    rw [List.length_eq_zero_iff.1 (Nat.le_zero.1 hn)]
    rfl
  | succ n ih =>
    cases ls with
    | nil => rfl
    | cons l ls =>
      have htext := linesText_ne_nil (List.cons_ne_nil l ls) fun l hl => (hls l hl).2
      have hlf : ls ≠ [] → 10 ∈ linesText (l :: ls) := fun hnil => by
        rw [linesText_cons l hnil]
        simp
      by_cases hnone : n = 0 ∨ delimAt 10 false false (linesText (l :: ls)) = none
      · rw [rawTokens_of_none htext hnone] at h ⊢
        have hnil : ls = [] := by
          by_contra hnil
          exact h _ List.mem_cons_self (hlf hnil)
        rw [hnil, linesText_singleton]
        rfl
      · rw [not_or] at hnone
        obtain ⟨i, hat⟩ := Option.ne_none_iff_exists'.1 hnone.2
        obtain ⟨u, v, hcut, rfl, -⟩ := delimAt_eq_some hat
        obtain ⟨as, bs, heq, has, hbs, rfl, rfl⟩ := cut_of_linesText (fun l hl => (hls l hl).1) hcut
        rw [rawTokens_of_delimAt hnone.1 hat, hcut, List.take_left, drop_cut] at h ⊢
        rw [List.forall_mem_cons] at h
        -- The first piece is one line, as there is no LF in it.
        obtain ⟨a, as, rfl⟩ := List.exists_cons_of_ne_nil has
        have hsingle : as = [] := by
          by_contra hnil
          refine h.1 (List.mem_append_left _ ?_)
          rw [linesText_cons a hnil]
          simp
        subst hsingle
        obtain ⟨rfl, rfl⟩ := List.cons.inj heq
        rw [pieces_cons l hbs, linesText_singleton]
        rw [List.length_cons] at hn
        exact congrArg _ (ih (fun l hl => hls l (List.mem_cons_of_mem _ hl)) (by omega) h.2)

theorem closed_concat {c : UInt8} (s : List UInt8) (hc : c ≠ 92) : closed skip (s ++ [c]) := by
  induction s generalizing skip with
  | nil =>
    cases skip with
    | true => rfl
    | false => simpa [closed] using hc
  | cons b s ih =>
    cases skip with
    | true => exact ih
    | false => exact ih

theorem closed_append (hu : closed skip u) : closed skip (u ++ v) = closed false v := by
  induction u generalizing skip with
  | nil =>
    cases skip with
    | true => exact absurd hu Bool.false_ne_true
    | false => rfl
  | cons c u ih =>
    cases skip with
    | true => exact ih hu
    | false => exact ih hu

/-- A backslash can only lead out of the last line. -/
theorem closed_linesText (ls : List (List UInt8)) (l : List UInt8) :
    closed false (linesText (ls ++ [l])) = closed false l := by
  induction ls with
  | nil => rw [List.nil_append, linesText_singleton]
  | cons a ls ih =>
    rw [List.cons_append, linesText_cons a (List.append_ne_nil_of_right_ne_nil _ (List.cons_ne_nil _ _)),
      closed_append (closed_concat a (by decide)), ← ih]
    rfl

theorem count_linesText_cons (l : List UInt8) (hls : ls ≠ []) :
    (linesText (l :: ls)).count 39 = (l ++ [13]).count 39 + (linesText ls).count 39 := by
  rw [linesText_cons l hls, List.count_append]
  rfl

/-- With at most one apostrophe in the lines, the pieces are the lines. -/
theorem rawTokens_linesText (hls : ∀ l ∈ ls, 10 ∉ l ∧ l ≠ []) (hn : ls.length ≤ n)
    (hq : (linesText ls).count 39 ≤ 1) : rawTokens 10 n (linesText ls) = pieces ls := by
  induction ls generalizing n with
  | nil => cases n <;> rfl
  | cons l ls ih =>
    obtain ⟨n, rfl⟩ : ∃ k, n = k + 1 := Nat.exists_eq_succ_of_ne_zero (by
      rw [List.length_cons] at hn
      omega)
    rw [List.length_cons] at hn
    rw [List.forall_mem_cons] at hls
    by_cases hnil : ls = []
    · have hnone : delimAt 10 false false l = none := by
        cases hat : delimAt 10 false false l with
        | none => rfl
        | some i =>
          obtain ⟨u, v, rfl, -, -⟩ := delimAt_eq_some hat
          exact absurd (List.mem_append_right u List.mem_cons_self) hls.1.1
      rw [hnil, linesText_singleton, rawTokens_of_none hls.1.2 (.inr hnone)]
      rfl
    · have hpos := List.length_pos_iff.2 hnil
      have hl : 10 ∉ l ++ [13] := by simpa using hls.1.1
      have hq' : (linesText ls).count 39 ≤ 1 := by
        rw [count_linesText_cons l hnil] at hq
        omega
      rw [linesText_cons l hnil] at hq ⊢
      have hat := @delimAt_cut 10 false _ _ (by decide) (by decide) hl (closed_concat l (by decide)) hq
      rw [rawTokens_of_delimAt (by omega) hat, List.take_left, drop_cut,
        ih hls.2 (by omega) hq', pieces_cons l hnil]

/-- If the pieces are the lines, and no line holds two apostrophes, there is one in all of
    them at most. -/
theorem count_linesText_le (hls : ∀ l ∈ ls, l ≠ []) (hn : ls.length ≤ n)
    (h : rawTokens 10 n (linesText ls) = pieces ls) (ht : ∀ t ∈ pieces ls, Tame 10 t) :
    (linesText ls).count 39 ≤ 1 := by
  induction ls generalizing n with
  | nil => exact Nat.zero_le 1
  | cons l ls ih =>
    by_cases hnil : ls = []
    · rw [hnil] at ht ⊢
      rw [linesText_singleton]
      exact (ht l List.mem_cons_self).quotes
    obtain ⟨n, rfl⟩ : ∃ k, n = k + 1 := Nat.exists_eq_succ_of_ne_zero (by
      rw [List.length_cons] at hn
      omega)
    have htext := linesText_ne_nil (List.cons_ne_nil l ls) hls
    rw [List.length_cons] at hn
    rw [pieces_cons l hnil] at h ht
    rw [List.forall_mem_cons] at hls ht
    have hpos := List.length_pos_iff.2 hnil
    have hlen := length_pieces ls
    by_cases hnone : n = 0 ∨ delimAt 10 false false (linesText (l :: ls)) = none
    · rw [rawTokens_of_none htext hnone] at h
      have hpieces := (List.cons.inj h).2
      rw [← hpieces, List.length_nil] at hlen
      omega
    rw [not_or] at hnone
    obtain ⟨i, hat⟩ := Option.ne_none_iff_exists'.1 hnone.2
    rw [rawTokens_of_delimAt hnone.1 hat] at h
    obtain ⟨u, v, hcut, rfl, -⟩ := delimAt_eq_some hat
    rw [hcut, List.take_left, drop_cut] at h
    obtain ⟨rfl, hrest⟩ := List.cons.inj h
    obtain rfl : linesText ls = v := by
      rw [linesText_cons l hnil] at hcut
      exact (List.cons.inj (List.append_cancel_left hcut)).2
    have hle := ih hls.2 (by omega) hrest ht.2
    rw [count_linesText_cons l hnil]
    by_cases hmem : 39 ∈ l ++ [13]
    · rw [linesText_cons l hnil] at hat
      have hnot := notMem_of_delimAt hat (fun h => absurd h Bool.false_ne_true) ht.1.escapes hmem
        ht.1.quotes
      rw [List.count_eq_zero_of_not_mem hnot]
      exact ht.1.quotes
    · rw [List.count_eq_zero_of_not_mem hmem, Nat.zero_add]
      exact hle

end Libks
