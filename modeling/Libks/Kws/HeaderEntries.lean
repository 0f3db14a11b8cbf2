import Libks.Kws.HeaderLines

/-!
# The entries of well-formed lines

A line with a name and a value becomes an entry with just these, but for outer spaces, if
nothing in it is an escape or a quote (`entryOf_line`); where something is, the value of
the entry has lost a byte (`tame_of_entryOf`). Spaces at the end of a value stay if there
is a CR behind them (`entryOf_line_cr`).
-/

namespace Libks

open Base

/-- `Name: value`. -/
def Header.line (h : Header) : List UInt8 := h.k ++ 58 :: 32 :: h.v

/-- A name that is one word without a `:`, and a value that is on one line. -/
structure Header.WellFormed (h : Header) : Prop where
  nonempty : h.k ≠ []
  name : ∀ c ∈ h.k, c ≠ 0 ∧ c ≠ 10 ∧ c ≠ 13 ∧ c ≠ 32 ∧ c ≠ 58
  value : ∀ c ∈ h.v, c ≠ 0 ∧ c ≠ 10 ∧ c ≠ 13

/-- A name in which nothing means anything to the functions that separate strings. -/
structure Header.Ordinary (h : Header) : Prop where
  unquoted : 39 ∉ h.k
  unescaped : 92 ∉ h.k
  unnamed : ¬[94, 94] <+: h.k

variable {h e : Header} {t w cr rest s : List UInt8} {c : UInt8}

/-! ## Lines -/

namespace Header.WellFormed

theorem colon (hw : h.WellFormed) : 58 ∉ h.k := fun hc => (hw.name 58 hc).2.2.2.2 rfl

theorem space (hw : h.WellFormed) : 32 ∉ h.k := fun hc => (hw.name 32 hc).2.2.2.1 rfl

theorem notMem_line (hw : h.WellFormed) (hc : c = 0 ∨ c = 10 ∨ c = 13) : c ∉ h.line := by
  intro hmem
  rw [Header.line, List.mem_append, List.mem_cons, List.mem_cons] at hmem
  rcases hmem with hmem | rfl | rfl | hmem
  · obtain ⟨h0, h10, h13, -⟩ := hw.name c hmem
    tauto
  · exact absurd hc (by decide)
  · exact absurd hc (by decide)
  · obtain ⟨h0, h10, h13⟩ := hw.value c hmem
    tauto

/-- The spaces at the end of a line are behind its `:`. -/
theorem trimSpaces_line (hw : h.WellFormed) (cr : List UInt8) :
    trimSpaces (h.line ++ cr) = h.k ++ 58 :: trimEnd (32 :: h.v ++ cr) := by
  have hline : h.line ++ cr = (h.k ++ [58]) ++ (32 :: h.v ++ cr) := by simp [Header.line]
  have hname : trimEnd (h.k ++ [58]) = h.k ++ [58] := trimEnd_concat (by decide) _
  have htrim : trimSpaces (h.line ++ cr) = trimEnd (h.line ++ cr) := by
    obtain ⟨c, k, hk⟩ := List.exists_cons_of_ne_nil hw.nonempty
    have hc : c ≠ 32 := fun heq => hw.space (by rw [hk, heq]; exact List.mem_cons_self)
    rw [Header.line, hk, List.cons_append, List.cons_append]
    exact trimSpaces_cons_of_ne hc _
  rw [htrim, hline, trimEnd_append hname, List.append_assoc]
  rfl

end Header.WellFormed

theorem weight_line (h : Header) (cr : List UInt8) :
    weight (h.line ++ cr) = weight h.k + 1 + (weight h.v + weight cr) := by
  rw [Header.line, weight_append, weight_append, weight_cons, weight_cons]
  simp
  omega

/-- In a name and what is in front of the colon of another one the same is an escape. -/
theorem escapeless_of_notMem {delim delim' : UInt8} (hs : delim' ∉ s) (h : escapeless delim s) :
    escapeless delim' s := by
  induction s with
  | nil => rfl
  | cons b s ih =>
    rw [List.mem_cons, not_or] at hs
    rw [escapeless_cons] at h
    refine escapeless_cons.2 ⟨?_, ih hs.2 h.2⟩
    have hhead := h.1
    split_ifs at hhead ⊢
    · cases s with
      | nil => rfl
      | cons a s =>
        rw [List.head?_cons, Option.bind_some, unescaped_eq_none_iff] at hhead ⊢
        obtain ⟨h39, h34, -, h92, hsame⟩ := hhead
        exact ⟨h39, h34, .inr fun ha => hs.2 (ha ▸ List.mem_cons_self), h92, hsame⟩
    · rfl

/-- What a tame line gives for the separation of the lines, and of the line. -/
theorem tame_line (hw : h.WellFormed) (ht : Tame 58 h.line) (hcr : cr = [] ∨ cr = [13]) :
    Tame 10 (h.line ++ cr) ∧ Tame 58 h.k ∧ Tame 58 (32 :: h.v ++ cr) := by
  have hconcat {delim : UInt8} {s : List UInt8} (hd : unescaped delim 13 = none)
      (hs : Tame delim s) : Tame delim (s ++ cr) := by
    rcases hcr with rfl | rfl
    · rwa [List.append_nil]
    · exact hs.concat hd (by decide)
  refine ⟨hconcat rfl ⟨escapeless_of_notMem (hw.notMem_line (.inr (.inl rfl))) ht.escapes, ht.quotes⟩,
    ht.initial, hconcat rfl (ht.suffix ?_)⟩
  exact (List.suffix_cons _ _).trans (List.suffix_append _ _)

/-! ## The entry of a line -/

/-- A delimiter is found behind a part that is no part of an escape or a quote. -/
theorem delimAt_of_notMem {delim : UInt8} (hd : delim ≠ 39) (hd' : delim ≠ 92)
    (h : ∀ c ∈ s, c ≠ 39 ∧ c ≠ 92 ∧ c ≠ delim) :
    delimAt delim false false (s ++ delim :: t) = some s.length := by
  induction s with
  | nil =>
    rw [List.nil_append, delimAt_cons, if_neg hd', if_neg fun h => hd h.1,
      if_pos ⟨rfl, Bool.false_ne_true⟩]
    rfl
  | cons c s ih =>
    obtain ⟨h39, h92, hne⟩ := h c List.mem_cons_self
    rw [List.cons_append, delimAt_cons, if_neg h92, if_neg fun h => h39 h.1, if_neg fun h => hne h.1,
      ih fun b hb => h b (List.mem_cons_of_mem _ hb)]
    rfl

/-- A name in front of a `:` that does not begin with the mark for a delimiter. -/
theorem not_named (hn : ¬[94, 94] <+: t) : ¬[94, 94] <+: t ++ 58 :: rest := by
  intro hpre
  match t, hn with
  | [], _ => exact absurd (List.cons_prefix_cons.1 hpre).1 (by decide)
  | [_], _ =>
    have hpre := (List.cons_prefix_cons.1 hpre).2
    exact absurd (List.cons_prefix_cons.1 hpre).1 (by decide)
  | c :: d :: t, hn =>
    obtain ⟨hc, hpre⟩ := List.cons_prefix_cons.1 hpre
    obtain ⟨hd, -⟩ := List.cons_prefix_cons.1 hpre
    exact hn ⟨t, by rw [← hc, ← hd]; rfl⟩

/-- No backslash leads over a delimiter that is no part of an escape. -/
theorem closed_of_escapeless {delim : UInt8} {skip : Bool} (hd : delim ≠ 0)
    (h : escapeless delim (s ++ delim :: t))
    (hs : skip → (s ++ delim :: t).head?.bind (unescaped delim) = none) : closed skip s := by
  induction s generalizing skip with
  | nil =>
    cases skip with
    | true =>
      have hnone := hs rfl
      rw [List.nil_append, List.head?_cons, Option.bind_some, unescaped_eq_none_iff] at hnone
      exact absurd rfl (hnone.2.2.1.resolve_left hd)
    | false => rfl
  | cons c s ih =>
    rw [List.cons_append, escapeless_cons] at h
    cases skip with
    | true => exact ih h.2 fun hs => absurd hs Bool.false_ne_true
    | false =>
      rw [closed]
      refine ih h.2 fun hc => ?_
      have hhead := h.1
      rwa [if_pos (by simpa using hc)] at hhead

/-- A tame line, as the separation of the lines leaves it. -/
theorem splitsFirst_line (hw : h.WellFormed) (hn : ¬[94, 94] <+: h.k) (ht : Tame 58 h.line)
    (hcr : cr = [] ∨ cr = [13]) : SplitsFirst (cleaned 10 (h.line ++ cr)) := by
  obtain ⟨htame, -, -⟩ := tame_line hw ht hcr
  rw [cleaned_tame htame, hw.trimSpaces_line]
  refine ⟨not_named hn, h.k, _, rfl, hw.colon, delimAt_cut (by decide) (by decide) hw.colon ?_ ?_⟩
  · exact closed_of_escapeless (by decide) ht.escapes fun hs => absurd hs Bool.false_ne_true
  · have hquotes := htame.quotes
    rw [Header.line, List.append_assoc, List.count_append] at hquotes
    rw [List.count_append, List.count_cons_of_ne (by decide), count_trimEnd (by decide)]
    rw [List.cons_append, List.count_cons_of_ne (by decide)] at hquotes
    exact hquotes

/-- A line with its CR keeps the spaces at the end of its value. -/
theorem entryOf_line_cr (hw : h.WellFormed) (ht : Tame 58 h.line) :
    entryOf (cleaned 10 (h.line ++ [13])) = some ⟨h.k, h.v.dropWhile (· = 32)⟩ := by
  obtain ⟨htame, hk, hv⟩ := tame_line hw ht (.inr rfl)
  have hend (s : List UInt8) : trimEnd (s ++ [13]) = s ++ [13] := trimEnd_concat (by decide) s
  have hdrop : (32 :: h.v ++ [13]).dropWhile (· = 32) = h.v.dropWhile (· = 32) ++ [13] := by
    rw [List.cons_append, List.dropWhile_cons_of_pos (by simp), List.dropWhile_append]
    split_ifs with hnil
    · rw [List.isEmpty_iff] at hnil
      rw [hnil]
      rfl
    · rfl
  rw [cleaned_tame htame, hw.trimSpaces_line, hend, entryOf_append hw.colon,
    if_neg (List.append_ne_nil_of_right_ne_nil _ (List.cons_ne_nil _ _)), cleaned_tame hk,
    trimSpaces_of_notMem hw.space, cleaned_tame hv, dropWhile_trimSpaces, trimSpaces, hdrop, hend,
    withoutCr, if_pos (List.getLast?_concat ..), List.dropLast_concat]

/-- The last line loses the spaces on both sides of its value, and has to have one. -/
theorem entryOf_line (hw : h.WellFormed) (ht : Tame 58 h.line) :
    entryOf (cleaned 10 h.line) =
      if trimSpaces h.v = [] then none else some ⟨h.k, trimSpaces h.v⟩ := by
  obtain ⟨htame, hk, hv⟩ := tame_line hw ht (.inl rfl)
  rw [List.append_nil] at htame hv
  have htrim := hw.trimSpaces_line []
  rw [List.append_nil, List.append_nil] at htrim
  have hv' := hv
  obtain ⟨u, hu⟩ := trimEnd_initial (32 :: h.v)
  rw [← hu] at hv'
  have hnil : trimEnd (32 :: h.v) = [] ↔ trimSpaces h.v = [] := by
    rw [← trimSpaces_space, trimSpaces_eq_nil_iff]
  rw [cleaned_tame htame, htrim, entryOf_append hw.colon]
  simp only [hnil, cleaned_tame hk, trimSpaces_of_notMem hw.space, cleaned_tame hv'.initial,
    trimSpaces_trimEnd, trimSpaces_space, dropWhile_trimSpaces]
  rw [withoutCr_of_notMem]
  exact fun h13 => (hw.value 13 (mem_of_mem_trimSpaces h13)).2.2 rfl

/-! ## Lines with something to take out -/

/-- The name of an ordinary header stays in front of the `:`, whatever is in its value and
    behind its line. -/
theorem cleaned_line (hw : h.WellFormed) (ho : h.Ordinary) (w : List UInt8) :
    ∃ rest, cleaned 10 (h.line ++ w) = h.k ++ 58 :: rest ∧
      ((∃ c ∈ h.v ++ w, c ≠ 32) → rest ≠ []) ∧ SplitsFirst (cleaned 10 (h.line ++ w)) := by
  have hname : ∀ c ∈ h.k, c ≠ 39 ∧ c ≠ 92 ∧ c ≠ 58 := fun c hc =>
    ⟨fun h39 => ho.unquoted (h39 ▸ hc), fun h92 => ho.unescaped (h92 ▸ hc),
      (hw.name c hc).2.2.2.2⟩
  have hplain : ∀ c ∈ h.k ++ [58], c ≠ 32 ∧ c ≠ 39 ∧ c ≠ 92 := by
    intro c hc
    rcases List.mem_append.1 hc with hc | hc
    · exact ⟨(hw.name c hc).2.2.2.1, (hname c hc).1, (hname c hc).2.1⟩
    · rw [List.mem_singleton.1 hc]
      decide
  obtain ⟨rest, hclean, hrest⟩ := @cleaned_append 10 _ (32 :: h.v ++ w)
    (List.append_ne_nil_of_right_ne_nil h.k (List.cons_ne_nil 58 [])) hplain
  have hline : h.line ++ w = (h.k ++ [58]) ++ (32 :: h.v ++ w) := by simp [Header.line]
  have heq : cleaned 10 (h.line ++ w) = h.k ++ 58 :: rest := by
    rw [hline, hclean, List.append_assoc]
    rfl
  refine ⟨rest, heq, fun ⟨c, hc, hne⟩ => hrest ⟨c, List.mem_cons_of_mem _ hc, hne⟩ rfl, ?_⟩
  rw [heq]
  exact ⟨not_named ho.unnamed, h.k, rest, rfl, hw.colon,
    delimAt_of_notMem (by decide) (by decide) hname⟩

/-- There is an entry for every line but one that ends behind its `:`. -/
theorem exists_entryOf (hw : h.WellFormed) (ho : h.Ordinary) (hne : ∃ c ∈ h.v ++ w, c ≠ 32) :
    ∃ e, entryOf (cleaned 10 (h.line ++ w)) = some e := by
  obtain ⟨rest, heq, hrest, -⟩ := cleaned_line hw ho w
  rw [heq, entryOf_append hw.colon, if_neg (hrest hne)]
  exact ⟨_, rfl⟩

/-- A lasting byte of the value, or behind it, is in the entry. -/
theorem count_entryOf (hw : h.WellFormed) (ho : h.Ordinary) (hc : Lasting 10 c) (hc' : Lasting 58 c)
    (h13 : c ≠ 13) (he : entryOf (cleaned 10 (h.line ++ w)) = some e) :
    (h.v ++ w).count c ≤ e.v.count c := by
  obtain ⟨rest, heq, -, -⟩ := cleaned_line hw ho w
  have hle := @count_cleaned 10 c (h.line ++ w) hc
  rw [heq, entryOf_append hw.colon] at he
  split_ifs at he
  rw [← Option.some.inj he, count_withoutCr h13, count_dropWhile hc.1]
  refine Nat.le_trans ?_ (count_cleaned hc')
  rw [heq, Header.line, List.count_append, List.count_append, List.count_append, List.count_cons,
    List.count_cons_of_ne (Ne.symm hc.1), List.count_cons] at hle
  rw [List.count_append]
  omega

/-- If the entry has all bytes of the value that are no spaces, there is nothing to take
    out of the line. -/
theorem tame_of_entryOf (hw : h.WellFormed) (ho : h.Ordinary) (hcr : cr = [] ∨ cr = [13])
    (he : entryOf (cleaned 10 (h.line ++ cr)) = some e) (hweight : weight h.v ≤ weight e.v)
    (h13 : 13 ∉ e.v) : Tame 10 (h.line ++ cr) ∧ Tame 58 h.line := by
  obtain ⟨rest, heq, -, -⟩ := cleaned_line hw ho cr
  have hmem := @count_cleaned 10 13 (h.line ++ cr) (by decide +kernel)
  have htrim := hw.trimSpaces_line cr
  rw [heq, entryOf_append hw.colon] at he
  split_ifs at he
  -- What is left of the value weighs as much as the value and the CR.
  have hrest : weight h.v + weight cr ≤ weight (cleaned 58 rest) := by
    rw [← Option.some.inj he] at hweight h13
    dsimp only at hweight h13
    have hle := weight_withoutCr_le ((cleaned 58 rest).dropWhile (· = 32))
    rw [weight_dropWhile] at hle
    rcases hcr with rfl | rfl
    · exact Nat.le_trans hweight hle
    · have hcount : 1 ≤ rest.count 13 := by
        rw [heq, Header.line, List.count_append, List.count_append, List.count_append,
          List.count_cons_of_ne (by decide), List.count_cons_of_ne (by decide)] at hmem
        have hcons : (58 :: rest).count 13 = rest.count 13 := List.count_cons_of_ne (by decide)
        change _ + 1 ≤ _ at hmem
        omega
      have hlt := weight_withoutCr_lt (s := (cleaned 58 rest).dropWhile (· = 32)) ?_ h13
      · rw [weight_dropWhile] at hlt
        change weight h.v + 1 ≤ _
        omega
      · rw [← List.count_pos_iff, count_dropWhile (by decide)]
        exact Nat.lt_of_lt_of_le hcount (count_cleaned (by decide +kernel))
  have hle := weight_cleaned_le 58 rest
  rcases tame_or_lighter 10 (h.line ++ cr) with htame | hlight
  · rw [cleaned_tame htame, htrim] at heq
    obtain rfl : trimEnd (32 :: h.v ++ cr) = rest := (List.cons.inj (List.append_cancel_left heq)).2
    rw [weight_trimEnd] at hle
    rcases tame_or_lighter 58 (trimEnd (32 :: h.v ++ cr)) with htame' | hlight
    · have hv : Tame 58 (32 :: h.v) := (Tame.of_trimEnd (by decide) htame').initial
      refine ⟨htame, ?_, htame.initial.quotes⟩
      have hsplit : h.line = (h.k ++ [58]) ++ 32 :: h.v := by simp [Header.line]
      rw [hsplit]
      refine escapeless_append_of_notMem (fun hmem => ?_) hv.escapes
      rcases List.mem_append.1 hmem with hmem | hmem
      · exact ho.unescaped hmem
      · exact absurd (List.mem_singleton.1 hmem) (by decide)
    · rw [weight_trimEnd, weight_append, weight_cons, if_pos rfl] at hlight
      omega
  · rw [heq, weight_line, weight_append, weight_cons, if_neg (by decide)] at hlight
    omega

end Libks
