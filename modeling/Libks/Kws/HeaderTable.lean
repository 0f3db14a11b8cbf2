import Mathlib.Data.List.Forall2
import Libks.Base.Decimal
import Libks.Kws.HeaderEntries
import Libks.Kws.HeaderFields
import Libks.Kws.HeaderPieces

/-!
# The table of header lines

The table of a head has the name and the value of every line, in order. It comes out of
the lines if nothing in them means anything to the code that separates them, and no
spaces stand where they would stay (`Literal.table`); of lines with ordinary names it
comes out only then (`literal_of_table`).
-/

namespace Libks

open Base

/-- The entry of the table for a header. The host has its port there: it is cut off behind
    the copy that goes into the table. -/
def Header.entry (h : Header) : Header :=
  ⟨h.k, trimSpaces h.v⟩

/-- Headers in whose lines nothing means anything to the code that separates them: there is
    room for all of them; at most one apostrophe is in all of their lines, no escape is in
    one of them, and no name begins with the mark for a delimiter; spaces at the end of a
    value are only on the last line, which has a value, and does not end with a backslash
    unless it is the last one there is room for. -/
structure Literal (hs : List Header) : Prop where
  room : hs.length ≤ kwsMaxHeaders
  quotes : (hs.flatMap Header.line).count 39 ≤ 1
  escapes : ∀ h ∈ hs, escapeless 58 h.line
  names : ∀ h ∈ hs, ¬[94, 94] <+: h.k
  spaces : ∀ h ∈ hs.dropLast, h.v.dropWhile (· = 32) = trimSpaces h.v
  last : ∀ h ∈ hs.getLast?,
    trimSpaces h.v ≠ [] ∧ (hs.length = kwsMaxHeaders ∨ closed false h.line)

variable {h e : Header} {hs es : List Header} {t s cr : List UInt8} {n : ℕ}

/-! ## One line -/

theorem mem_of_mem_entry {c : UInt8} (hc : c ∈ h.entry.v) : c ∈ h.v :=
  mem_of_mem_trimSpaces hc

/-- If the entry of an ordinary line is the one of the table, the line is tame. -/
theorem tame_of_entry (hw : h.WellFormed) (ho : h.Ordinary) (hcr : cr = [] ∨ cr = [13])
    (he : entryOf (cleaned 10 (h.line ++ cr)) = some h.entry) :
    Tame 10 (h.line ++ cr) ∧ Tame 58 h.line :=
  tame_of_entryOf hw ho hcr he (Nat.le_of_eq (weight_trimSpaces _).symm)
    fun h13 => (hw.value 13 (mem_of_mem_entry h13)).2.2 rfl

/-! ## A row of lines -/

/-- A result for each. -/
theorem mapM_eq_some_iff {α β : Type} {f : α → Option β} {l : List α} {bs : List β} :
    l.mapM f = some bs ↔ List.Forall₂ (fun a b => f a = some b) l bs := by
  induction l generalizing bs with
  | nil =>
    rw [List.mapM_nil, List.forall₂_nil_left_iff]
    exact ⟨fun h => (Option.some.inj h).symm, fun h => congrArg some h.symm⟩
  | cons a l ih =>
    rw [List.mapM_cons, List.forall₂_cons_left_iff]
    constructor
    · intro h
      obtain ⟨b, hb, h⟩ := Option.bind_eq_some_iff.1 h
      obtain ⟨bs', hbs, h⟩ := Option.bind_eq_some_iff.1 h
      exact ⟨b, bs', hb, ih.1 hbs, (Option.some.inj h).symm⟩
    · rintro ⟨b, bs', hb, hbs, rfl⟩
      rw [hb, ih.2 hbs]
      rfl

theorem exists_mapM {α β : Type} {f : α → Option β} {l : List α}
    (h : ∀ a ∈ l, ∃ b, f a = some b) : ∃ bs, l.mapM f = some bs := by
  induction l with
  | nil => exact ⟨[], rfl⟩
  | cons a l ih =>
    rw [List.forall_mem_cons] at h
    obtain ⟨b, hb⟩ := h.1
    obtain ⟨bs, hbs⟩ := ih h.2
    exact ⟨b :: bs, by rw [List.mapM_cons, hb, hbs]; rfl⟩

/-- The pieces of some lines, each with its header. -/
theorem forall₂_pieces_iff {R : List UInt8 → Header → Prop} :
    List.Forall₂ R (pieces (hs.map Header.line)) hs ↔
      (∀ h ∈ hs.dropLast, R (h.line ++ [13]) h) ∧ ∀ h ∈ hs.getLast?, R h.line h := by
  induction hs with
  | nil => simp [pieces]
  | cons h hs ih =>
    cases hs with
    | nil => simp [pieces]
    | cons h' hs =>
      rw [List.dropLast_cons_cons, List.forall_mem_cons, List.getLast?_cons_cons, and_assoc, ← ih]
      exact List.forall₂_cons

/-- The lines and the text have the same apostrophes. -/
theorem count_linesText (ls : List (List UInt8)) : (linesText ls).count 39 = ls.flatten.count 39 := by
  induction ls with
  | nil => rfl
  | cons l ls ih =>
    by_cases hnil : ls = []
    · rw [hnil, linesText_singleton, List.flatten_singleton]
    · rw [count_linesText_cons l hnil, ih, List.flatten_cons, List.count_append, List.count_append]
      rfl

theorem Literal.tame (hl : Literal hs) (hh : h ∈ hs) : Tame 58 h.line := by
  refine ⟨hl.escapes h hh, Nat.le_trans ?_ hl.quotes⟩
  rw [List.flatMap]
  exact (List.sublist_flatten_of_mem (List.mem_map_of_mem hh)).count_le 39

theorem mem_lines (hw : ∀ h ∈ hs, h.WellFormed) : ∀ l ∈ hs.map Header.line, 10 ∉ l ∧ l ≠ [] := by
  intro l hl
  obtain ⟨h, hh, rfl⟩ := List.mem_map.1 hl
  exact ⟨(hw h hh).notMem_line (.inr (.inl rfl)),
    List.append_ne_nil_of_right_ne_nil _ (List.cons_ne_nil _ _)⟩

/-- The text of literal headers is separated into their lines, and these into the entries
    of the table. -/
theorem Literal.table (hw : ∀ h ∈ hs, h.WellFormed) (hl : Literal hs) :
    Scanned 10 kwsMaxHeaders (linesText (hs.map Header.line)) ∧
      (∀ t ∈ tokens 10 kwsMaxHeaders (linesText (hs.map Header.line)), SplitsFirst t) ∧
      (tokens 10 kwsMaxHeaders (linesText (hs.map Header.line))).mapM entryOf =
        some (hs.map Header.entry) := by
  have hraw : rawTokens 10 kwsMaxHeaders (linesText (hs.map Header.line)) =
      pieces (hs.map Header.line) :=
    rawTokens_linesText (mem_lines hw) (by rw [List.length_map]; exact hl.room)
      (by rw [count_linesText]; exact hl.quotes)
  have hscan : Scanned 10 kwsMaxHeaders (linesText (hs.map Header.line)) := by
    rw [Scanned, hraw, length_pieces, List.length_map]
    rcases List.eq_nil_or_concat hs with rfl | ⟨l, h, rfl⟩
    · exact .inl rfl
    · rw [List.concat_eq_append] at hl ⊢
      rw [List.map_append, List.map_singleton, closed_linesText]
      exact (hl.last h (by simp)).2.symm
  have hrow : List.Forall₂ (fun t h => SplitsFirst (cleaned 10 t) ∧
      entryOf (cleaned 10 t) = some h.entry) (pieces (hs.map Header.line)) hs := by
    rw [forall₂_pieces_iff]
    refine ⟨fun h hh => ?_, fun h hh => ?_⟩
    · have hmem := List.dropLast_subset _ hh
      refine ⟨splitsFirst_line (hw h hmem) (hl.names h hmem) (hl.tame hmem) (.inr rfl), ?_⟩
      rw [entryOf_line_cr (hw h hmem) (hl.tame hmem), hl.spaces h hh, Header.entry]
    · have hmem := List.mem_of_getLast? hh
      have hsplits := splitsFirst_line (hw h hmem) (hl.names h hmem) (hl.tame hmem) (.inl rfl)
      rw [List.append_nil] at hsplits
      refine ⟨hsplits, ?_⟩
      rw [entryOf_line (hw h hmem) (hl.tame hmem), if_neg (hl.last h hh).1, Header.entry]
  rw [List.forall₂_and_left] at hrow
  refine ⟨hscan, ?_, ?_⟩
  · rw [tokens, hraw, List.forall_mem_map]
    exact hrow.1
  · rw [tokens, hraw, mapM_eq_some_iff, List.forall₂_map_left_iff, List.forall₂_map_right_iff]
    exact hrow.2

/-! ## What a table says of its lines -/

theorem exists_of_forall₂ {α β : Type} {R : α → β → Prop} {l : List α} {bs : List β} {a : α}
    (h : List.Forall₂ R l bs) (ha : a ∈ l) : ∃ b ∈ bs, R a b := by
  induction h with
  | nil => exact absurd ha List.not_mem_nil
  | @cons a' b l bs hab _ ih =>
    rcases List.mem_cons.1 ha with rfl | ha
    · exact ⟨b, List.mem_cons_self, hab⟩
    · obtain ⟨b', hb', hr⟩ := ih ha
      exact ⟨b', List.mem_cons_of_mem _ hb', hr⟩

/-- Every piece begins with the line of a header. -/
theorem exists_header_of_mem_rawTokens (hw : ∀ h ∈ hs, h.WellFormed)
    (ht : t ∈ rawTokens 10 n (linesText (hs.map Header.line))) :
    ∃ h ∈ hs, ∃ w, t = h.line ++ w ∧ (w.head? = some 13 ∨ w = [] ∧ h ∈ hs.getLast?) := by
  obtain ⟨l, hl, w, rfl, hor⟩ := exists_line_of_mem_rawTokens (fun l hl => (mem_lines hw l hl).1) ht
  rcases hor with hcr | ⟨rfl, hlast⟩
  · obtain ⟨h, hh, rfl⟩ := List.mem_map.1 hl
    exact ⟨h, hh, w, rfl, .inl hcr⟩
  · rw [List.getLast?_map] at hlast
    obtain ⟨h, hh, rfl⟩ := Option.map_eq_some_iff.1 hlast
    exact ⟨h, List.mem_of_getLast? hh, [], rfl, .inr ⟨rfl, hh⟩⟩

/-- If there is no LF in the values of the entries, there is none in the pieces. -/
theorem notMem_of_entries (hw : ∀ h ∈ hs, h.WellFormed) (ho : ∀ h ∈ hs, h.Ordinary)
    (hmap : (tokens 10 n (linesText (hs.map Header.line))).mapM entryOf = some es)
    (hes : ∀ e ∈ es, 10 ∉ e.v) (ht : t ∈ rawTokens 10 n (linesText (hs.map Header.line))) :
    10 ∉ t := by
  obtain ⟨h, hh, w, rfl, -⟩ := exists_header_of_mem_rawTokens hw ht
  rw [mapM_eq_some_iff, tokens, List.forall₂_map_left_iff] at hmap
  obtain ⟨e, he, hentry⟩ := exists_of_forall₂ hmap ht
  have hle := count_entryOf (hw h hh) (ho h hh) (c := 10) (by decide +kernel) (by decide +kernel)
    (by decide) hentry
  rw [List.count_eq_zero_of_not_mem (hes e he), Nat.le_zero, List.count_eq_zero] at hle
  rw [List.mem_append, not_or]
  exact ⟨(hw h hh).notMem_line (.inr (.inl rfl)), fun hmem => hle (List.mem_append_right _ hmem)⟩

theorem mem_dropLast_or (hh : h ∈ hs) : h ∈ hs.dropLast ∨ h ∈ hs.getLast? := by
  rcases List.eq_nil_or_concat hs with rfl | ⟨l, h', rfl⟩
  · exact absurd hh List.not_mem_nil
  · rw [List.concat_eq_append] at hh ⊢
    rw [List.dropLast_concat, List.getLast?_concat]
    exact (List.mem_append.1 hh).imp_right fun hh => congrArg some (List.mem_singleton.1 hh).symm

/-- If the entries are the first ones of the table, the headers are literal. -/
theorem literal_of_table (hw : ∀ h ∈ hs, h.WellFormed) (ho : ∀ h ∈ hs, h.Ordinary)
    (hn : hs.length ≤ kwsMaxHeaders)
    (hscan : Scanned 10 kwsMaxHeaders (linesText (hs.map Header.line)))
    (hmap : (tokens 10 kwsMaxHeaders (linesText (hs.map Header.line))).mapM entryOf = some es)
    (hpre : es <+: hs.map Header.entry) : Literal hs := by
  have hraw : rawTokens 10 kwsMaxHeaders (linesText (hs.map Header.line)) =
      pieces (hs.map Header.line) := by
    refine rawTokens_eq_pieces (mem_lines hw) (by rw [List.length_map]; exact hn) fun t ht =>
      notMem_of_entries hw ho hmap (fun e he h10 => ?_) ht
    obtain ⟨h, hh, rfl⟩ := List.mem_map.1 (hpre.subset he)
    exact (hw h hh).value 10 (mem_of_mem_entry h10) |>.2.1 rfl
  rw [mapM_eq_some_iff, tokens, List.forall₂_map_left_iff, hraw] at hmap
  have hlen := hmap.length_eq
  rw [length_pieces, List.length_map] at hlen
  obtain rfl : es = hs.map Header.entry :=
    hpre.eq_of_length (by rw [List.length_map]; exact hlen.symm)
  rw [List.forall₂_map_right_iff] at hmap
  rw [forall₂_pieces_iff] at hmap
  -- What the entry of each line says of it.
  have hrest : ∀ h ∈ hs.dropLast, Tame 10 (h.line ++ [13]) ∧ Tame 58 h.line := fun h hh =>
    tame_of_entry (hw h (List.dropLast_subset _ hh)) (ho h (List.dropLast_subset _ hh)) (.inr rfl)
      (hmap.1 h hh)
  have hlast : ∀ h ∈ hs.getLast?, Tame 10 h.line ∧ Tame 58 h.line := by
    intro h hh
    have hmem := List.mem_of_getLast? hh
    have he : entryOf (cleaned 10 (h.line ++ [])) = some h.entry := by
      rw [List.append_nil]
      exact hmap.2 h hh
    have htame := tame_of_entry (hw h hmem) (ho h hmem) (.inl rfl) he
    rwa [List.append_nil] at htame
  have hone : ∀ h ∈ hs, Tame 58 h.line := by
    intro h hh
    rcases mem_dropLast_or hh with hh | hh
    · exact (hrest h hh).2
    · exact (hlast h hh).2
  have hpieces : ∀ t ∈ pieces (hs.map Header.line), Tame 10 t := by
    intro t ht
    have hrow := (forall₂_pieces_iff (R := fun t _ => Tame 10 t)).2
      ⟨fun h hh => (hrest h hh).1, fun h hh => (hlast h hh).1⟩
    obtain ⟨-, -, htame⟩ := exists_of_forall₂ hrow ht
    exact htame
  refine ⟨hn, ?_, fun h hh => (hone h hh).escapes, fun h hh => (ho h hh).unnamed,
    fun h hh => ?_, fun h hh => ⟨fun hnil => ?_, ?_⟩⟩
  · have hcount := count_linesText_le (fun l hl => (mem_lines hw l hl).2)
      (by rw [List.length_map]; exact hn) hraw hpieces
    rwa [count_linesText] at hcount
  · have hmem := List.dropLast_subset _ hh
    have hentry := hmap.1 h hh
    rw [entryOf_line_cr (hw h hmem) (hone h hmem)] at hentry
    exact congrArg Header.v (Option.some.inj hentry)
  · have hmem := List.mem_of_getLast? hh
    have hentry := hmap.2 h hh
    rw [entryOf_line (hw h hmem) (hone h hmem), if_pos hnil] at hentry
    cases hentry
  · rw [Scanned, hraw, length_pieces, List.length_map] at hscan
    refine hscan.symm.imp_right fun hclosed => ?_
    obtain ⟨l, rfl⟩ := List.getLast?_eq_some_iff.1 hh
    rwa [List.map_append, List.map_singleton, closed_linesText] at hclosed

/-- Every line has an entry, if the last one has a value. -/
theorem exists_table (hw : ∀ h ∈ hs, h.WellFormed) (ho : ∀ h ∈ hs, h.Ordinary)
    (hlast : ∀ h ∈ hs.getLast?, trimSpaces h.v ≠ []) :
    ∃ es, (tokens 10 n (linesText (hs.map Header.line))).mapM entryOf = some es := by
  refine exists_mapM ?_
  rw [tokens, List.forall_mem_map]
  intro t ht
  obtain ⟨h, hh, w, rfl, hor⟩ := exists_header_of_mem_rawTokens hw ht
  refine exists_entryOf (hw h hh) (ho h hh) ?_
  rcases hor with hcr | ⟨-, hh⟩
  · obtain ⟨w, rfl⟩ := List.head?_eq_some_iff.1 hcr
    exact ⟨13, by simp, by decide⟩
  · by_contra hspaces
    refine hlast h hh (trimSpaces_of_forall fun c hc => ?_)
    by_contra hne
    exact hspaces ⟨c, List.mem_append_left _ hc, hne⟩

/-- The pieces of ordinary lines split at their first `:`. -/
theorem splitsFirst_tokens (hw : ∀ h ∈ hs, h.WellFormed) (ho : ∀ h ∈ hs, h.Ordinary) :
    ∀ t ∈ tokens 10 n (linesText (hs.map Header.line)), SplitsFirst t := by
  rw [tokens, List.forall_mem_map]
  intro t ht
  obtain ⟨h, hh, w, rfl, -⟩ := exists_header_of_mem_rawTokens hw ht
  obtain ⟨-, -, -, hsplits⟩ := cleaned_line (hw h hh) (ho h hh) w
  exact hsplits

end Libks
