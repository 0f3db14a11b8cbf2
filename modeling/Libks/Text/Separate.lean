import Libks.Base.CString
import Libks.Base.Memory
import Libks.Fault

/-!
# Separating strings

`ks_separate_string` cuts a string into tokens, in place: it stores NULs over
the delimiters, and then takes quotes, escapes and outer spaces out of every
token. The string stands in a block of memory, and what the functions do past
its terminator, where a backslash at its end takes them, is up to the block.

* `delimAt`, `cleaned`, `tokens`: the tokens of a string, as lists;
* `separateCharDelim_str`: these are the tokens the code leaves in memory, one
  behind the other (`Laid`), if no backslash takes it past the terminator
  (`Closed`);
* `delimAt_plain`, `cleaned_plain`: the tokens of a string without quotes and
  escapes are what is between the delimiters, without outer spaces.
-/

namespace Libks

open Base

/-! ## The tokenizer -/

/-- `unescape_char`. -/
def unescapeChar (escaped : UInt8) : UInt8 :=
  if escaped = 110 then 10
  else if escaped = 114 then 13
  else if escaped = 116 then 9
  else if escaped = 115 then 32
  else escaped

/-- What a backslash before `e` is replaced by, together with `e`, if it is an
    escape. -/
def unescaped (delim e : UInt8) : Option UInt8 :=
  if e = 39 ∨ e = 34 ∨ (delim ≠ 0 ∧ e = delim) ∨ e = 92 then some e
  else if unescapeChar e ≠ e then some (unescapeChar e)
  else none

/-- The loop of `cleanup_separated_string`: the bytes stored up to `dest`, and
    the offset of `end` among them. `skip` is set where the loop has already
    moved on to the next byte, the one behind the backslash of an escape. -/
def cleanupLoop (delim : UInt8) :
    Bool → Bool → List UInt8 → Option ℕ → List UInt8 → List UInt8 × Option ℕ
  | _, _, dest, fin, [] => (dest, fin)
  | true, quoted, dest, fin, _ :: s => cleanupLoop delim false quoted dest fin s
  | false, quoted, dest, fin, c :: s =>
    match if c = 92 then s.head?.bind (unescaped delim) else none with
    | some e => cleanupLoop delim true quoted (dest ++ [e]) (some (dest.length + 1)) s
    | none =>
      if c = 39 ∧ (quoted ∨ 39 ∈ s) then
        cleanupLoop delim false (!quoted) dest (if quoted then fin else some dest.length) s
      else
        cleanupLoop delim false quoted (dest ++ [c])
          (if c ≠ 32 ∨ quoted then some (dest.length + 1) else fin) s

/-- `cleanup_separated_string`, on the string at `str` in a block of `size`
    bytes. The loop stores behind the byte it reads, so that it can as well
    store all bytes in the end. -/
def cleanupSeparatedString (size : ℕ) (delim : UInt8) (m : Mem) (str : ℕ) : Mem × ℕ :=
  let s := m.strAt (size - str) str
  let start := str + (s.takeWhile (· = 32)).length
  let (dest, fin) := cleanupLoop delim false false [] none (s.dropWhile (· = 32))
  let m := m.write start dest
  match fin with
  | some n => (m.write (start + n) [0], start)
  | none => (m, start)

/-- The result of a scan that starts one byte further on. -/
def onward (r : Except Fault (Option ℕ)) : Except Fault (Option ℕ) := r.map (Option.map (· + 1))

/-- The state `FIND_DELIM` of the tokenizers, on what is left of the block: the
    offset of the next delimiter. A `'` starts a quote where another one is
    left in the string, or `always`; `skip` is set behind a backslash. -/
def findDelim (always : Bool) (delim : UInt8) : Bool → Bool → List UInt8 → Except Fault (Option ℕ)
  | _, _, [] => .error .outOfBounds
  | true, quoted, _ :: s => onward (findDelim always delim false quoted s)
  | false, quoted, c :: s =>
    if c = 0 then .ok none
    else if c = 92 then onward (findDelim always delim true quoted s)
    else if c = 39 ∧ (quoted ∨ always ∨ 39 ∈ s.takeWhile (· ≠ 0)) then
      onward (findDelim always delim false (!quoted) s)
    else if c = delim ∧ ¬quoted then .ok (some 0)
    else onward (findDelim always delim false quoted s)

/-- The loop of `separate_string_char_delim`, with room for `n` more pointers. -/
def separateCharLoop (size : ℕ) (delim : UInt8) : ℕ → Mem → ℕ → Except Fault (Mem × List ℕ)
  | 0, m, _ => .ok (m, [])
  | n + 1, m, ptr =>
    if size ≤ ptr then .error .outOfBounds
    else if m ptr = 0 then .ok (m, [])
    -- The array is full before the end of the last token is looked for.
    else if n = 0 then .ok (m, [ptr])
    else do
      match ← findDelim false delim false false (m.read ptr (size - ptr)) with
      | none => return (m, [ptr])
      | some i =>
        let (m, array) ← separateCharLoop size delim n (m.write (ptr + i) [0]) (ptr + i + 1)
        return (m, ptr :: array)

/-- The number of spaces at `ptr`. -/
def spacesAt (size : ℕ) (m : Mem) (ptr : ℕ) : ℕ :=
  ((m.read ptr (size - ptr)).takeWhile (· = 32)).length

/-- The loop of `separate_string_blank_delim`. -/
def separateBlankLoop (size : ℕ) : ℕ → Mem → ℕ → Except Fault (Mem × List ℕ)
  | 0, m, _ => .ok (m, [])
  | n + 1, m, ptr =>
    if size ≤ ptr then .error .outOfBounds
    else if m ptr = 0 then .ok (m, [])
    else if n = 0 then .ok (m, [ptr])
    else do
      let first := ptr + spacesAt size m ptr
      match ← findDelim true 32 false false (m.read first (size - first)) with
      | none => return (m, [ptr])
      | some i =>
        let m := m.write (first + i) [0]
        let next := first + i + 1
        let (m, array) ← separateBlankLoop size n m (next + spacesAt size m next)
        return (m, ptr :: array)

/-- The loop at the end of both, over the tokens found. -/
def cleanupTokens (size : ℕ) (delim : UInt8) : Mem → List ℕ → Mem × List ℕ
  | m, [] => (m, [])
  | m, str :: array =>
    let (m, start) := cleanupSeparatedString size delim m str
    let (m, array) := cleanupTokens size delim m array
    (m, start :: array)

/-- `separate_string_char_delim`. -/
def separateStringCharDelim (size : ℕ) (m : Mem) (buf : ℕ) (delim : UInt8) (arraylen : ℕ) :
    Except Fault (Mem × List ℕ) := do
  let (m, array) ← separateCharLoop size delim arraylen m buf
  return cleanupTokens size delim m array

/-- `separate_string_blank_delim`. -/
def separateStringBlankDelim (size : ℕ) (m : Mem) (buf arraylen : ℕ) :
    Except Fault (Mem × List ℕ) := do
  let (m, array) ← separateBlankLoop size arraylen m buf
  return cleanupTokens size 0 m array

/-- `ks_separate_string`. A string that starts with `^^` names its delimiter. -/
def ksSeparateString (size : ℕ) (m : Mem) (buf : ℕ) (delim : UInt8) (arraylen : ℕ) :
    Except Fault (Mem × List ℕ) :=
  let named := m buf = 94 ∧ m (buf + 1) = 94 ∧ m (buf + 2) ≠ 0 ∧ m (buf + 3) ≠ 0
  let delim := if named then m (buf + 2) else delim
  let buf := if named then buf + 3 else buf
  if delim = 32 then separateStringBlankDelim size m buf arraylen
  else separateStringCharDelim size m buf delim arraylen

/-! ## The tokens as lists -/

/-- Whether no backslash takes the scan of a string past its end: it does not
    end with an odd number of them. -/
def closed : Bool → List UInt8 → Bool
  | skip, [] => !skip
  | true, _ :: s => closed false s
  | false, c :: s => closed (c = 92) s

/-- The offset of the next delimiter in a string, where a `'` starts a quote if
    another one follows, or `always`. -/
def scanAt (always : Bool) (delim : UInt8) : Bool → Bool → List UInt8 → Option ℕ
  | _, _, [] => none
  | true, quoted, _ :: s => (scanAt always delim false quoted s).map (· + 1)
  | false, quoted, c :: s =>
    if c = 92 then (scanAt always delim true quoted s).map (· + 1)
    else if c = 39 ∧ (quoted ∨ always ∨ 39 ∈ s) then
      (scanAt always delim false (!quoted) s).map (· + 1)
    else if c = delim ∧ ¬quoted then some 0
    else (scanAt always delim false quoted s).map (· + 1)

/-- The offset of the next delimiter that is no space. -/
def delimAt (delim : UInt8) (skip quoted : Bool) (s : List UInt8) : Option ℕ :=
  scanAt false delim skip quoted s

/-- A token without its quotes, escapes and outer spaces. -/
def cleaned (delim : UInt8) (s : List UInt8) : List UInt8 :=
  let (dest, fin) := cleanupLoop delim false false [] none (s.dropWhile (· = 32))
  dest.take (fin.getD 0)

/-- What is between the delimiters of a string, in at most `n` pieces. -/
def rawTokens (delim : UInt8) : ℕ → List UInt8 → List (List UInt8)
  | 0, _ => []
  | _ + 1, [] => []
  | n + 1, c :: s =>
    match if n = 0 then none else delimAt delim false false (c :: s) with
    | none => [c :: s]
    | some i => (c :: s).take i :: rawTokens delim n ((c :: s).drop (i + 1))

/-- The tokens of a string. -/
def tokens (delim : UInt8) (n : ℕ) (s : List UInt8) : List (List UInt8) :=
  (rawTokens delim n s).map (cleaned delim)

variable {delim c : UInt8} {always skip quoted : Bool} {s rest : List UInt8} {i n : ℕ}

theorem delimAt_skip : delimAt delim true quoted (c :: s) =
    (delimAt delim false quoted s).map (· + 1) := rfl

theorem delimAt_cons : delimAt delim false quoted (c :: s) =
    if c = 92 then (delimAt delim true quoted s).map (· + 1)
    else if c = 39 ∧ (quoted ∨ 39 ∈ s) then (delimAt delim false (!quoted) s).map (· + 1)
    else if c = delim ∧ ¬quoted then some 0
    else (delimAt delim false quoted s).map (· + 1) := by
  simp only [delimAt, scanAt, Bool.false_eq_true, false_or]

theorem takeWhile_string (h : 0 ∉ s) : (s ++ 0 :: rest).takeWhile (· ≠ 0) = s := by
  rw [List.takeWhile_append_of_pos]
  · simp
  · intro c hc
    simpa using fun h0 : c = 0 => h (h0 ▸ hc)

/-- The scan of a block finds the delimiter of its string. -/
theorem findDelim_str (h : 0 ∉ s) (hc : closed skip s) :
    findDelim always delim skip quoted (s ++ 0 :: rest) =
      .ok (scanAt always delim skip quoted s) := by
  induction s generalizing skip quoted with
  | nil =>
    cases skip with
    | true => exact absurd hc Bool.false_ne_true
    | false => rfl
  | cons c s ih =>
    rw [List.mem_cons, not_or] at h
    have hc0 : c ≠ 0 := Ne.symm h.1
    cases skip with
    | true => rw [List.cons_append, findDelim, ih h.2 hc]; rfl
    | false =>
      rw [closed] at hc
      rw [List.cons_append, findDelim, if_neg hc0, scanAt, takeWhile_string h.2]
      by_cases h92 : c = 92
      · rw [if_pos h92, if_pos h92, ih h.2 (by simpa [h92] using hc)]
        rfl
      · have hc' : closed false s := by simpa [h92] using hc
        rw [if_neg h92, if_neg h92]
        simp only [ih h.2 hc']
        split_ifs <;> rfl

/-- A delimiter of the string is found whatever stands behind the string. -/
theorem findDelim_of_scanAt (h : 0 ∉ s) (hat : scanAt always delim skip quoted s = some i) :
    findDelim always delim skip quoted (s ++ 0 :: rest) = .ok (some i) := by
  induction s generalizing skip quoted i with
  | nil => cases skip <;> cases hat
  | cons c s ih =>
    rw [List.mem_cons, not_or] at h
    have hc0 : c ≠ 0 := Ne.symm h.1
    -- One byte further on, and behind it the induction hypothesis.
    have hstep {skip' quoted' : Bool}
        (h' : (scanAt always delim skip' quoted' s).map (· + 1) = some i) :
        onward (findDelim always delim skip' quoted' (s ++ 0 :: rest)) = .ok (some i) := by
      obtain ⟨j, hj, rfl⟩ := Option.map_eq_some_iff.1 h'
      rw [ih h.2 hj]
      rfl
    cases skip with
    | true => exact hstep hat
    | false =>
      rw [scanAt] at hat
      rw [List.cons_append, findDelim, if_neg hc0, takeWhile_string h.2]
      split_ifs at hat ⊢ with h92 hq hd
      · exact hstep hat
      · exact hstep hat
      · rw [← Option.some.inj hat]
      · exact hstep hat

/-- Where none is found, a backslash at the end takes the scan past the end of the block. -/
theorem findDelim_open (h : 0 ∉ s) (hat : scanAt always delim skip quoted s = none)
    (hc : ¬closed skip s) :
    findDelim always delim skip quoted (s ++ [0]) = .error .outOfBounds := by
  induction s generalizing skip quoted with
  | nil =>
    cases skip with
    | true => rfl
    | false => exact absurd rfl hc
  | cons c s ih =>
    rw [List.mem_cons, not_or] at h
    have hc0 : c ≠ 0 := Ne.symm h.1
    cases skip with
    | true => rw [List.cons_append, findDelim, ih h.2 (Option.map_eq_none_iff.1 hat) hc]; rfl
    | false =>
      rw [closed] at hc
      rw [scanAt] at hat
      rw [List.cons_append, findDelim, if_neg hc0, takeWhile_string h.2]
      by_cases h92 : c = 92
      · rw [if_pos h92] at hat ⊢
        rw [ih h.2 (Option.map_eq_none_iff.1 hat) (by simpa [h92] using hc)]
        rfl
      · have hc' : ¬closed false s := by simpa [h92] using hc
        rw [if_neg h92] at hat ⊢
        split_ifs at hat ⊢ with hq hd
        · rw [ih h.2 (Option.map_eq_none_iff.1 hat) hc']
          rfl
        · rw [ih h.2 (Option.map_eq_none_iff.1 hat) hc']
          rfl

/-- A delimiter that is found cuts the string in two, and what is behind it ends as the
    string does. -/
theorem scanAt_eq_some (h : scanAt always delim skip quoted s = some i) :
    ∃ u v, s = u ++ delim :: v ∧ u.length = i ∧ closed false v = closed skip s := by
  induction s generalizing skip quoted i with
  | nil => cases skip <;> exact absurd h (Option.some_ne_none i).symm
  | cons c s ih =>
    -- One byte further on, and behind it the induction hypothesis.
    have hstep {skip' quoted' : Bool}
        (h' : (scanAt always delim skip' quoted' s).map (· + 1) = some i) :
        ∃ u v, c :: s = u ++ delim :: v ∧ u.length = i ∧ closed false v = closed skip' s := by
      obtain ⟨j, hj, rfl⟩ := Option.map_eq_some_iff.1 h'
      obtain ⟨u, v, rfl, rfl, hv⟩ := ih hj
      exact ⟨c :: u, v, rfl, rfl, hv⟩
    cases skip with
    | true => exact hstep h
    | false =>
      rw [scanAt] at h
      rw [closed]
      by_cases h92 : c = 92
      · rw [if_pos h92] at h
        rw [decide_eq_true h92]
        exact hstep h
      rw [if_neg h92] at h
      rw [decide_eq_false h92]
      split_ifs at h with hq hd
      · exact hstep h
      · exact ⟨[], s, by rw [hd.1]; rfl, Option.some.inj h, rfl⟩
      · exact hstep h

/-- The text up to a delimiter that is found, and behind it. -/
theorem delimAt_eq_some (h : delimAt delim skip quoted s = some i) :
    ∃ u v, s = u ++ delim :: v ∧ u.length = i ∧ closed false v = closed skip s :=
  scanAt_eq_some h

/-! ## Tokens in memory -/

/-- Strings in memory one behind the other, from `lo` on, the last with its
    terminator at `hi` at the latest. -/
inductive Laid (m : Mem) (hi : ℕ) : ℕ → List (ℕ × List UInt8) → Prop
  | nil {lo : ℕ} : Laid m hi lo []
  | cons {lo p : ℕ} {s : List UInt8} {l : List (ℕ × List UInt8)} (hlo : lo ≤ p) (h : m.IsStr p s)
      (hhi : p + s.length ≤ hi) (hl : Laid m hi (p + s.length + 1) l) : Laid m hi lo ((p, s) :: l)

variable {m m' : Mem} {p lo lo' hi size : ℕ} {l l' : List (ℕ × List UInt8)}

/-- Strings that lie in a part of the buffer lie in the buffer. -/
theorem Laid.mono (h : Laid m hi lo l) (hlo : lo' ≤ lo) : Laid m hi lo' l := by
  cases h with
  | nil => exact .nil
  | cons hlo' h hhi hl => exact .cons (Nat.le_trans hlo hlo') h hhi hl

/-- Strings stay where the memory under them stays. -/
theorem Laid.congr (h : Laid m hi lo l) (hm : ∀ i, lo ≤ i → i ≤ hi → m' i = m i) :
    Laid m' hi lo l := by
  induction h with
  | nil => exact .nil
  | cons hlo h hhi hl ih =>
    refine .cons hlo (h.congr fun i hi hn => hm i (by omega) (by omega)) hhi ?_
    exact ih fun i hi hn => hm i (by omega) hn

/-- Some of the strings are laid as all of them are. -/
theorem Laid.sublist (h : Laid m hi lo l) (hl : l'.Sublist l) : Laid m hi lo l' := by
  induction hl generalizing lo with
  | slnil => exact h
  | cons a _ ih =>
    cases h with
    | cons hlo h hhi hl => exact (ih hl).mono (by omega)
  | cons_cons a _ ih =>
    cases h with
    | cons hlo h hhi hl => exact .cons hlo h hhi (ih hl)

/-- The block behind the start of a string. -/
theorem read_string (h : m.IsStr p s) (hp : p + s.length < size) :
    ∃ rest, m.read p (size - p) = s ++ 0 :: rest := by
  refine ⟨m.read (p + s.length + 1) (size - p - (s.length + 1)), ?_⟩
  have hn : size - p = s.length + (1 + (size - p - (s.length + 1))) := by omega
  rw [hn, Mem.read_add, h.read, Mem.read_add, Mem.read_one, h.terminator, ← hn]
  rfl

/-- The scan for `n` tokens stays in the string: no backslash takes it past the end, or
    the tokens are found before it gets there. -/
def Scanned (delim : UInt8) (n : ℕ) (s : List UInt8) : Prop :=
  closed false s ∨ (rawTokens delim n s).length = n

/-- The first of several pieces. -/
theorem rawTokens_of_delimAt (hn : n ≠ 0) (hat : delimAt delim false false s = some i) :
    rawTokens delim (n + 1) s = s.take i :: rawTokens delim n (s.drop (i + 1)) := by
  cases s with
  | nil => cases hat
  | cons c s => rw [rawTokens, if_neg hn, hat]

/-- The last piece. -/
theorem rawTokens_of_none (hs : s ≠ []) (h : n = 0 ∨ delimAt delim false false s = none) :
    rawTokens delim (n + 1) s = [s] := by
  cases s with
  | nil => exact absurd rfl hs
  | cons c s =>
    have hat : (if n = 0 then none else delimAt delim false false (c :: s)) = none := by
      split_ifs with hn
      · rfl
      · exact h.resolve_left hn
    rw [rawTokens, hat]

/-- The loop leaves the pieces of the string in memory. -/
theorem separateCharLoop_scanned (h : m.IsStr p s) (hc : Scanned delim n s)
    (hp : p + s.length < size) :
    ∃ m' l, separateCharLoop size delim n m p = .ok (m', l.map Prod.fst) ∧
      l.map Prod.snd = rawTokens delim n s ∧ Laid m' (p + s.length) p l ∧
      ∀ i, i < p ∨ p + s.length ≤ i → m' i = m i := by
  induction n generalizing m p s with
  | zero => exact ⟨m, [], rfl, rfl, .nil, fun _ _ => rfl⟩
  | succ n ih =>
    rw [separateCharLoop, if_neg (by omega)]
    cases s with
    | nil => exact ⟨m, [], by rw [if_pos (Mem.isStr_nil_iff.1 h)]; rfl, rfl, .nil, fun _ _ => rfl⟩
    | cons c s =>
      have hne : ¬m p = 0 := by
        rw [h.head]
        exact (Mem.isStr_cons_iff.1 h).2.1
      rw [if_neg hne]
      have hone : Laid m (p + (c :: s).length) p [(p, c :: s)] :=
        .cons (Nat.le_refl _) h (Nat.le_refl _) .nil
      -- The last place of the array takes the rest.
      by_cases hn : n = 0
      · rw [if_pos hn, rawTokens_of_none (List.cons_ne_nil _ _) (.inl hn)]
        exact ⟨m, [(p, c :: s)], rfl, rfl, hone, fun _ _ => rfl⟩
      obtain ⟨rest, hread⟩ := read_string h hp
      rw [if_neg hn, hread]
      -- Without a delimiter the rest is one token, with one it is cut there.
      cases hat : delimAt delim false false (c :: s) with
      | none =>
        rw [Scanned, rawTokens_of_none (List.cons_ne_nil _ _) (.inr hat)] at hc
        rw [rawTokens_of_none (List.cons_ne_nil _ _) (.inr hat),
          findDelim_str h.notMem (hc.resolve_right fun h1 => hn (Nat.succ.inj h1).symm),
          show scanAt false delim false false (c :: s) = none from hat]
        exact ⟨m, [(p, c :: s)], rfl, rfl, hone, fun _ _ => rfl⟩
      | some i =>
        rw [findDelim_of_scanAt h.notMem hat, rawTokens_of_delimAt hn hat]
        rw [Scanned, rawTokens_of_delimAt hn hat] at hc
        obtain ⟨u, v, hs, rfl, hv⟩ := delimAt_eq_some hat
        have hv : Scanned delim n v := by
          rw [← hv, hs, drop_cut] at hc
          exact hc.imp_right Nat.succ.inj
        rw [hs] at h hp ⊢
        obtain ⟨hu, hv'⟩ := h.cut
        rw [List.length_append, List.length_cons] at hp ⊢
        obtain ⟨m', l, hloop, htok, hl, hframe⟩ := ih hv' hv (by omega)
        refine ⟨m', (p, u) :: l, ?_, ?_, .cons (Nat.le_refl _) (hu.congr fun i _ _ => ?_) (by omega) ?_,
          fun i hi => ?_⟩
        · simp only [bind, Except.bind, hloop]
          rfl
        · simp only [List.map_cons, htok, List.take_left, drop_cut]
        · exact hframe i (by omega)
        · rwa [show p + (u.length + (v.length + 1)) = p + u.length + 1 + v.length by omega]
        · rw [hframe i (by omega), Mem.write_apply_of_not_mem (by simp; omega)]

/-- A scan that does not stay in its string leaves the block that the string ends. -/
theorem separateCharLoop_open (h : m.IsStr p s) (hc : ¬Scanned delim n s)
    (hp : p + s.length + 1 = size) : separateCharLoop size delim n m p = .error .outOfBounds := by
  induction n generalizing m p s with
  | zero => exact absurd (.inr rfl) hc
  | succ n ih =>
    rw [separateCharLoop, if_neg (by omega)]
    cases s with
    | nil => exact absurd (.inl rfl) hc
    | cons c s =>
      have hne : ¬m p = 0 := by
        rw [h.head]
        exact (Mem.isStr_cons_iff.1 h).2.1
      rw [if_neg hne]
      by_cases hn : n = 0
      · refine absurd (.inr ?_) hc
        rw [rawTokens_of_none (List.cons_ne_nil _ _) (.inl hn), hn]
        rfl
      have hread : m.read p (size - p) = (c :: s) ++ [0] := by
        rw [show size - p = (c :: s).length + 1 by omega, Mem.read_add, h.read, Mem.read_one,
          h.terminator]
      rw [if_neg hn, hread]
      cases hat : delimAt delim false false (c :: s) with
      | none =>
        rw [findDelim_open h.notMem hat fun h => hc (.inl h)]
        rfl
      | some i =>
        rw [findDelim_of_scanAt h.notMem hat]
        rw [Scanned, rawTokens_of_delimAt hn hat] at hc
        obtain ⟨u, v, hs, rfl, hv⟩ := delimAt_eq_some hat
        have hv : ¬Scanned delim n v := by
          rw [← hv, hs, drop_cut] at hc
          exact mt (Or.imp_right (congrArg Nat.succ)) hc
        rw [hs] at h hp
        rw [List.length_append, List.length_cons] at hp
        change (separateCharLoop size delim n _ (p + u.length + 1) >>= _) = _
        rw [ih h.cut.2 hv (by omega)]
        rfl

/-- No escape stands for a NUL. -/
theorem unescaped_ne_zero {e x : UInt8} (h : unescaped delim e = some x) (he : e ≠ 0) : x ≠ 0 := by
  rw [unescaped] at h
  split_ifs at h with h₁ h₂
  · exact Option.some.inj h ▸ he
  · rw [← Option.some.inj h, unescapeChar]
    split_ifs <;> first | decide | exact he

/-- What the loop of the clean-up stores: no more bytes than it reads, among
    them no NUL, and `end` among them, if the first byte is no space. -/
theorem cleanupLoop_spec (delim : UInt8) (skip quoted : Bool) {dest : List UInt8} {fin : Option ℕ}
    (hs : 0 ∉ s) (hd : 0 ∉ dest) (hfin : ∀ n ∈ fin, n ≤ dest.length) :
    ∃ dest' fin', cleanupLoop delim skip quoted dest fin s = (dest', fin') ∧ 0 ∉ dest' ∧
      dest'.length ≤ dest.length + s.length ∧ (∀ n ∈ fin', n ≤ dest'.length) ∧
      (fin.isSome ∨ ((skip || quoted) = false ∧ ∃ c ∈ s.head?, c ≠ 32) → fin'.isSome) := by
  induction s generalizing skip quoted dest fin with
  | nil =>
    refine ⟨dest, fin, by cases skip <;> rfl, hd, Nat.le_refl _, hfin, ?_⟩
    rintro (h | ⟨-, c, hc, -⟩)
    · exact h
    · exact absurd hc (Option.not_mem_none c)
  | cons c s ih =>
    rw [List.mem_cons, not_or] at hs
    -- The loop goes on with at most one more byte stored.
    have hstep (b q : Bool) {x : List UInt8} {fin' : Option ℕ} (hx : 0 ∉ x)
        (hxn : x.length ≤ 1) (hf : ∀ n ∈ fin', n ≤ (dest ++ x).length)
        (hsome : fin.isSome ∨ ((skip || quoted) = false ∧ c ≠ 32) → fin'.isSome) :
        ∃ d f, cleanupLoop delim b q (dest ++ x) fin' s = (d, f) ∧ 0 ∉ d ∧
          d.length ≤ dest.length + (c :: s).length ∧ (∀ n ∈ f, n ≤ d.length) ∧
          (fin.isSome ∨ ((skip || quoted) = false ∧ ∃ b ∈ (c :: s).head?, b ≠ 32) → f.isSome) := by
      obtain ⟨d, f, hrun, h0, hlen, hle, hf'⟩ := ih b q hs.2
        (fun h => (List.mem_append.1 h).elim hd hx) hf
      refine ⟨d, f, hrun, h0, ?_, hle, fun h => hf' (.inl (hsome ?_))⟩
      · rw [List.length_append] at hlen
        rw [List.length_cons]
        omega
      · simpa using h
    have hkeep : ∀ n ∈ fin, n ≤ (dest ++ []).length := by rwa [List.append_nil]
    have hlast {x : UInt8} : ∀ n ∈ some (dest.length + 1), n ≤ (dest ++ [x]).length := by simp
    cases skip with
    | true =>
      have := hstep false quoted List.not_mem_nil (Nat.zero_le _) hkeep
        (by simp)
      rwa [List.append_nil] at this
    | false =>
      rw [cleanupLoop]
      cases hesc : (if c = 92 then s.head?.bind (unescaped delim) else none) with
      | some e =>
        have he : e ≠ 0 := by
          split_ifs at hesc
          obtain ⟨b, hb, hbe⟩ := Option.bind_eq_some_iff.1 hesc
          refine unescaped_ne_zero hbe fun h0 => hs.2 ?_
          exact h0 ▸ List.mem_of_mem_head? hb
        exact hstep true quoted (by simpa using Ne.symm he) (Nat.le_refl _) hlast fun _ => rfl
      | none =>
        dsimp only
        by_cases hq : c = 39 ∧ (quoted = true ∨ 39 ∈ s)
        · rw [if_pos hq]
          have := hstep false (!quoted) List.not_mem_nil (Nat.zero_le _)
            (show ∀ n ∈ if quoted then fin else some dest.length, n ≤ _ by
              rw [List.append_nil]
              cases quoted <;> [simp; exact hfin])
            (by cases quoted <;> simp)
          rwa [List.append_nil] at this
        · rw [if_neg hq]
          refine hstep false quoted (by simpa using hs.1) (Nat.le_refl _) ?_ ?_
          · split_ifs
            · exact hlast
            · exact fun n hn => Nat.le_trans (hfin n hn) (by simp)
          · split_ifs with h32
            · exact fun _ => rfl
            · exact fun h => h.elim id fun h => absurd (.inl h.2) h32

/-- The clean-up of one token, in its place. -/
theorem cleanupSeparatedString_str (delim : UInt8) (h : m.IsStr p s) (hp : p + s.length < size) :
    ∃ m' q, cleanupSeparatedString size delim m p = (m', q) ∧ p ≤ q ∧
      q + (cleaned delim s).length ≤ p + s.length ∧ m'.IsStr q (cleaned delim s) ∧
      ∀ i, i < p ∨ p + s.length < i → m' i = m i := by
  have hstr : m.strAt (size - p) p = s := Mem.strAt_eq h (by omega)
  have hsplit := List.takeWhile_append_dropWhile (p := fun c : UInt8 => decide (c = 32)) (l := s)
  have hlen := congrArg List.length hsplit
  rw [List.length_append] at hlen
  have h0 : 0 ∉ s.dropWhile (· = 32) := fun h0 => h.notMem ((List.dropWhile_suffix _).mem h0)
  rw [cleanupSeparatedString, cleaned, hstr]
  generalize (s.takeWhile (· = 32)).length = lead at hlen
  obtain ⟨dest, fin, hrun, hd, hdlen, hfin, hsome⟩ := cleanupLoop_spec delim false
    false h0 List.not_mem_nil
    (fun n hn => absurd hn (Option.not_mem_none n))
  rw [List.length_nil, Nat.zero_add] at hdlen
  dsimp only
  rw [hrun]
  cases fin with
  -- Nothing but spaces: the loop stores nothing.
  | none =>
    have hnil : s.dropWhile (· = 32) = [] := by
      cases hs' : s.dropWhile (· = 32) with
      | nil => rfl
      | cons c t =>
        refine absurd (hsome (.inr ⟨rfl, c, by rw [hs']; rfl, ?_⟩)) Bool.false_ne_true
        have := List.head?_dropWhile_not (fun c : UInt8 => decide (c = 32)) s
        rw [hs'] at this
        simpa using this
    have hdest : dest = [] := by
      rw [hnil] at hdlen
      exact List.length_eq_zero_iff.1 (Nat.le_zero.1 hdlen)
    rw [hnil, List.length_nil, Nat.add_zero] at hlen
    subst hdest
    rw [Mem.write_nil]
    refine ⟨m, p + lead, rfl, Nat.le_add_right _ _, ?_, ?_, fun _ _ => rfl⟩
    · simp [hlen]
    · rw [List.take_nil, Mem.isStr_nil_iff, hlen]
      exact h.terminator
  -- The terminator is stored behind the last byte that is no space.
  | some n =>
    have hn := hfin n rfl
    refine ⟨_, p + lead, rfl, Nat.le_add_right _ _, ?_, ⟨?_, ?_, ?_⟩, fun i hi => ?_⟩
    · rw [Option.getD_some, List.length_take]
      omega
    · rw [Option.getD_some, List.length_take, Nat.min_eq_left hn,
        Mem.read_write_of_disjoint (.inl (Nat.le_refl _)), ← Mem.take_read _ _ _ _ hn,
        Mem.read_write_self]
    · rw [Option.getD_some, List.length_take, Nat.min_eq_left hn,
        Mem.write_apply_of_mem (Nat.le_refl _) (by simp), List.getElem_singleton]
    · exact fun h => hd (List.mem_of_mem_take h)
    · rw [Mem.write_apply_of_not_mem (by simp; omega),
        Mem.write_apply_of_not_mem (by dsimp only; omega)]

/-- Each token is cleaned where it lies, and the others stay as they are. -/
theorem cleanupTokens_laid (delim : UInt8) (h : Laid m hi lo l) (hhi : hi < size) :
    ∃ m' l', cleanupTokens size delim m (l.map Prod.fst) = (m', l'.map Prod.fst) ∧
      l'.map Prod.snd = (l.map Prod.snd).map (cleaned delim) ∧ Laid m' hi lo l' ∧
      ∀ i, i < lo ∨ hi < i → m' i = m i := by
  induction l generalizing m lo with
  | nil => exact ⟨m, [], rfl, rfl, .nil, fun _ _ => rfl⟩
  | cons a l ih =>
    cases h with
    | @cons _ p s _ hlo h hle hl =>
      obtain ⟨m₁, q, hclean, hpq, hq, hstr, hframe⟩ :=
        cleanupSeparatedString_str delim h (Nat.lt_of_le_of_lt hle hhi)
      obtain ⟨m', l', hrun, htok, hl', hframe'⟩ :=
        ih (hl.congr fun i hi _ => hframe i (.inr hi))
      refine ⟨m', (q, cleaned delim s) :: l', ?_, by rw [List.map_cons, htok]; rfl,
        .cons (by omega) (hstr.congr fun i _ _ => hframe' i (by omega)) (by omega)
          (hl'.mono (by omega)), fun i hi => ?_⟩
      · rw [List.map_cons, cleanupTokens, hclean]
        simp only [hrun, List.map_cons]
      · rw [hframe' i (by omega), hframe i (by omega)]

/-- The code leaves the tokens of the string in memory, and all else as it was. -/
theorem separateCharDelim_str (h : m.IsStr p s) (hc : Scanned delim n s)
    (hp : p + s.length < size) :
    ∃ m' l, separateStringCharDelim size m p delim n = .ok (m', l.map Prod.fst) ∧
      l.map Prod.snd = tokens delim n s ∧ Laid m' (p + s.length) p l ∧
      ∀ i, i < p ∨ p + s.length < i → m' i = m i := by
  obtain ⟨m₁, l₁, hloop, htok, hl, hframe⟩ := separateCharLoop_scanned h hc hp
  obtain ⟨m', l, hclean, htok', hl', hframe'⟩ := cleanupTokens_laid delim hl hp
  refine ⟨m', l, ?_, by rw [htok', htok, tokens], hl', fun i hi => ?_⟩
  · simp only [separateStringCharDelim, bind, Except.bind, hloop, hclean]
    rfl
  · rw [hframe' i (by omega), hframe i (by omega)]

/-- Two carets at the start of a string are in memory only where they are in the string. -/
theorem prefix_of_carets (h : m.IsStr p s) (h₀ : m p = 94) (h₁ : m (p + 1) = 94) :
    [94, 94] <+: s := by
  cases s with
  | nil => exact absurd (h₀.symm.trans (Mem.isStr_nil_iff.1 h)) (by decide)
  | cons c s =>
    obtain rfl := h.head.symm.trans h₀
    have ht := h.tail
    cases s with
    | nil => exact absurd (h₁.symm.trans (Mem.isStr_nil_iff.1 ht)) (by decide)
    | cons d s =>
      obtain rfl := ht.head.symm.trans h₁
      exact ⟨s, rfl⟩

/-- A string that does not name its delimiter. -/
theorem ksSeparateString_eq (h : m.IsStr p s) (hnamed : ¬[94, 94] <+: s) (h32 : delim ≠ 32) :
    ksSeparateString size m p delim n = separateStringCharDelim size m p delim n := by
  have hn : ¬(m p = 94 ∧ m (p + 1) = 94 ∧ m (p + 2) ≠ 0 ∧ m (p + 3) ≠ 0) := fun hn =>
    hnamed (prefix_of_carets h hn.1 hn.2.1)
  rw [ksSeparateString]
  simp only [if_neg hn]
  rw [if_neg h32]

/-- `ks_separate_string` leaves the tokens of the string in its buffer. -/
theorem ksSeparateString_str (h : m.IsStr p s) (hc : closed false s) (hp : p + s.length < size)
    (hnamed : ¬[94, 94] <+: s) (h32 : delim ≠ 32) :
    ∃ m' l, ksSeparateString size m p delim n = .ok (m', l.map Prod.fst) ∧
      l.map Prod.snd = tokens delim n s ∧ Laid m' (p + s.length) p l := by
  obtain ⟨m', l, hrun, htok, hl, -⟩ := @separateCharDelim_str delim s n m p size h (.inl hc) hp
  exact ⟨m', l, (ksSeparateString_eq h hnamed h32).trans hrun, htok, hl⟩

/-! ## Plain strings -/

/-- No backslash of the string is an escape, or its last byte. -/
def noEscape (delim : UInt8) : List UInt8 → Bool
  | [] => true
  | c :: s => (c ≠ 92 ∨ ∃ e ∈ s.head?, unescaped delim e = none) ∧ noEscape delim s

/-- A string without escapes and quotes: of backslashes only such as stand for
    themselves, and at most one apostrophe. -/
structure Plain (delim : UInt8) (s : List UInt8) : Prop where
  escapes : noEscape delim s
  quotes : s.count 39 ≤ 1

instance (delim : UInt8) : DecidablePred (Plain delim) := fun _ =>
  decidable_of_iff (_ ∧ _) ⟨fun h => ⟨h.1, h.2⟩, fun h => ⟨h.1, h.2⟩⟩

theorem unescaped_eq_none_iff {e : UInt8} :
    unescaped delim e = none ↔
      e ≠ 39 ∧ e ≠ 34 ∧ (delim = 0 ∨ e ≠ delim) ∧ e ≠ 92 ∧ unescapeChar e = e := by
  rw [unescaped]
  split_ifs with h₁ h₂
  · refine iff_of_false id ?_
    tauto
  · exact iff_of_false id fun h => h₂ h.2.2.2.2
  · refine iff_of_true rfl ?_
    tauto

/-- A string has no escape if neither its start nor its rest has one. -/
theorem noEscape_cons {c : UInt8} :
    noEscape delim (c :: s) ↔
      (c = 92 → ∃ e t, s = e :: t ∧ unescaped delim e = none) ∧ noEscape delim s := by
  rw [noEscape, decide_eq_true_eq]
  refine and_congr_left fun _ => ?_
  cases s with
  | nil => simp
  | cons e t => simp [imp_iff_not_or]

theorem Plain.tail {c : UInt8} (h : Plain delim (c :: s)) : Plain delim s :=
  ⟨(noEscape_cons.1 h.escapes).2, Nat.le_trans (List.count_le_count_cons) h.quotes⟩

/-- At the byte behind a backslash, no escape has to be looked for. -/
def Skippable (delim : UInt8) (skip : Bool) (s : List UInt8) : Prop :=
  skip → ∃ e t, s = e :: t ∧ unescaped delim e = none

theorem Plain.skippable {c : UInt8} (h : Plain delim (c :: s)) : Skippable delim (c = 92) s :=
  fun hc => (noEscape_cons.1 h.escapes).1 (by simpa using hc)

/-- A plain string closes its quotes. -/
theorem closed_of_plain (h : Plain delim s) (hs : Skippable delim skip s) : closed skip s := by
  induction s generalizing skip with
  | nil =>
    cases skip with
    | true => obtain ⟨e, t, hs, -⟩ := hs rfl; exact absurd hs.symm (List.cons_ne_nil _ _)
    | false => rfl
  | cons c s ih =>
    cases skip with
    | true =>
      rw [closed]
      exact ih h.tail fun h => absurd h Bool.false_ne_true
    | false =>
      rw [closed]
      exact ih h.tail h.skippable

theorem Plain.closed (h : Plain delim s) : closed false s :=
  closed_of_plain h fun h => absurd h Bool.false_ne_true

/-- The first apostrophe of the string is its last one. -/
theorem notMem_of_count_le_one {c : UInt8} (h : (c :: s).count 39 ≤ 1) (hc : c = 39) : 39 ∉ s := by
  intro hmem
  have h₂ := List.one_le_count_iff.2 hmem
  rw [hc, List.count_cons_self] at h
  omega

/-- The next delimiter of a plain string is the next byte that is one. -/
theorem delimAt_plain (hd : delim ≠ 0) (hd' : delim ≠ 92) (h : Plain delim s)
    (hs : Skippable delim skip s) : delimAt delim skip false s = strchr delim s := by
  induction s generalizing skip with
  | nil => cases skip <;> rfl
  | cons c s ih =>
    rw [strchr_cons]
    cases skip with
    | true =>
      obtain ⟨e, t, hs, he⟩ := hs rfl
      injection hs with hc
      have hcd : ¬c = delim := by
        rw [hc]
        exact (unescaped_eq_none_iff.1 he).2.2.1.resolve_left hd
      rw [delimAt_skip, if_neg hcd, ih h.tail fun h => absurd h Bool.false_ne_true]
    | false =>
      have ih' := ih h.tail h.skippable
      rw [delimAt_cons]
      by_cases h92 : c = 92
      · rw [decide_eq_true h92] at ih'
        rw [if_pos h92, ih', if_neg fun hc => hd' (hc.symm.trans h92)]
      · rw [decide_eq_false h92] at ih'
        have hq : ¬(c = 39 ∧ (false = true ∨ 39 ∈ s)) := by
          rintro ⟨hc, hmem⟩
          exact notMem_of_count_le_one h.quotes hc (hmem.resolve_left Bool.false_ne_true)
        rw [if_neg h92, if_neg hq, ih']
        simp

/-- No backslash of the string is an escape; the last byte may be one. -/
def escapeless (delim : UInt8) : List UInt8 → Bool
  | [] => true
  | c :: s =>
    (if c = 92 then s.head?.bind (unescaped delim) else none).isNone && escapeless delim s

/-- A string in which the clean-up finds no escapes and no quotes. -/
structure Tame (delim : UInt8) (s : List UInt8) : Prop where
  escapes : escapeless delim s
  quotes : s.count 39 ≤ 1

theorem escapeless_cons {c : UInt8} :
    escapeless delim (c :: s) ↔
      (if c = 92 then s.head?.bind (unescaped delim) else none) = none ∧ escapeless delim s := by
  rw [escapeless, Bool.and_eq_true, Option.isNone_iff_eq_none]

/-- The clean-up finds nothing in a plain string. -/
theorem Plain.tame (h : Plain delim s) : Tame delim s := by
  refine ⟨?_, h.quotes⟩
  have hesc := h.escapes
  clear h
  induction s with
  | nil => rfl
  | cons c s ih =>
    rw [noEscape_cons] at hesc
    refine escapeless_cons.2 ⟨?_, ih hesc.2⟩
    split_ifs with h92
    · obtain ⟨e, t, rfl, he⟩ := hesc.1 h92
      exact he
    · rfl

theorem Tame.tail {c : UInt8} (h : Tame delim (c :: s)) : Tame delim s :=
  ⟨(escapeless_cons.1 h.escapes).2, Nat.le_trans (List.count_le_count_cons) h.quotes⟩

theorem Tame.suffix {t : List UInt8} (h : Tame delim s) (ht : t <:+ s) : Tame delim t := by
  obtain ⟨u, rfl⟩ := ht
  induction u with
  | nil => exact h
  | cons c u ih => exact ih h.tail

/-- The clean-up of a tame string copies it, and notes where its spaces end. -/
theorem cleanupLoop_tame {dest : List UInt8} {fin : Option ℕ} (h : Tame delim s) :
    cleanupLoop delim false false dest fin s =
      (dest ++ s, if trimEnd s = [] then fin else some (dest.length + (trimEnd s).length)) := by
  induction s generalizing dest fin with
  | nil => simp [cleanupLoop, trimEnd]
  | cons c s ih =>
    have hq : ¬(c = 39 ∧ (false = true ∨ 39 ∈ s)) := by
      rintro ⟨hc, hmem⟩
      exact notMem_of_count_le_one h.quotes hc (hmem.resolve_left Bool.false_ne_true)
    rw [cleanupLoop, (escapeless_cons.1 h.escapes).1]
    dsimp only
    rw [if_neg hq, ih h.tail, List.append_assoc, List.singleton_append, List.length_append]
    refine Prod.ext rfl ?_
    dsimp only
    rw [trimEnd]
    by_cases hnil : trimEnd s = []
    · by_cases h32 : c = 32
      · simp [hnil, h32]
      · simp [hnil, h32]
    · have hcons : (if trimEnd s = [] ∧ c = 32 then [] else c :: trimEnd s) = c :: trimEnd s :=
        if_neg fun h => hnil h.1
      rw [hcons, if_neg hnil, if_neg (List.cons_ne_nil _ _), List.length_singleton,
        List.length_cons, Nat.add_assoc, Nat.add_comm 1]

theorem Plain.suffix {t : List UInt8} (h : Plain delim s) (ht : t <:+ s) : Plain delim t := by
  obtain ⟨u, rfl⟩ := ht
  induction u with
  | nil => exact h
  | cons c u ih => exact ih h.tail

/-- The clean-up of a tame string takes the outer spaces away. -/
theorem cleaned_tame (h : Tame delim s) : cleaned delim s = trimSpaces s := by
  rw [cleaned, cleanupLoop_tame (h.suffix (List.dropWhile_suffix _)), trimSpaces]
  dsimp only
  rw [List.nil_append, List.length_nil, Nat.zero_add]
  split_ifs with hnil
  · rw [hnil]
    rfl
  · exact (List.prefix_iff_eq_take.1 (trimEnd_initial _)).symm

/-- A plain token is cleaned by trimming its spaces. -/
theorem cleaned_plain (h : Plain delim s) : cleaned delim s = trimSpaces s := cleaned_tame h.tame

/-! ## Pieces -/

/-- What is in front of a delimiter of a plain string is plain. -/
theorem Plain.of_cut {u v : List UInt8} (hd : delim ≠ 0) (h : Plain delim (u ++ delim :: v)) :
    Plain delim u := by
  refine ⟨?_, Nat.le_trans ?_ h.quotes⟩
  · have hesc := h.escapes
    clear h
    induction u with
    | nil => rfl
    | cons c u ih =>
      rw [List.cons_append, noEscape_cons] at hesc
      refine noEscape_cons.2 ⟨fun hc => ?_, ih hesc.2⟩
      obtain ⟨e, t, hs, he⟩ := hesc.1 hc
      cases u with
      | nil =>
        obtain ⟨rfl, -⟩ := List.cons.inj hs
        exact absurd rfl ((unescaped_eq_none_iff.1 he).2.2.1.resolve_left hd)
      | cons b u =>
        obtain ⟨rfl, -⟩ := List.cons.inj hs
        exact ⟨b, u, rfl, he⟩
  · rw [List.count_append]
    exact Nat.le_add_right _ _

/-- The first of several tokens. -/
theorem tokens_cut {u v : List UInt8} (hd : delim ≠ 0) (hd' : delim ≠ 92)
    (h : Plain delim (u ++ delim :: v)) (hu : delim ∉ u) (hn : n ≠ 0) :
    tokens delim (n + 1) (u ++ delim :: v) = trimSpaces u :: tokens delim n v := by
  have hat : delimAt delim false false (u ++ delim :: v) = some u.length := by
    rw [delimAt_plain hd hd' h fun h => absurd h Bool.false_ne_true, strchr_append_cons hu]
  rw [tokens, rawTokens_of_delimAt hn hat, List.take_left, drop_cut, List.map_cons,
    cleaned_plain (h.of_cut hd), tokens]

/-- The last token. -/
theorem tokens_last (hd : delim ≠ 0) (hd' : delim ≠ 92) (h : Plain delim s)
    (hs : n = 0 ∨ delim ∉ s) (hne : s ≠ []) :
    tokens delim (n + 1) s = [trimSpaces s] := by
  have hat : n = 0 ∨ delimAt delim false false s = none := by
    rwa [delimAt_plain hd hd' h fun h => absurd h Bool.false_ne_true, strchr_eq_none_iff]
  rw [tokens, rawTokens_of_none hne hat, List.map_singleton, cleaned_plain h]

theorem tokens_nil : tokens delim n [] = [] := by
  cases n with
  | zero => rfl
  | succ n => rfl

variable {ps : List (List UInt8)}

/-- An array that is large enough takes all pieces, but for an empty one at the end. -/
theorem tokens_intercalate_le (hd : delim ≠ 0) (hd' : delim ≠ 92)
    (h : Plain delim ([delim].intercalate ps)) (hps : ∀ p ∈ ps, delim ∉ p) (hn : ps.length ≤ n) :
    tokens delim n ([delim].intercalate ps) =
      (if ps.getLast? = some [] then ps.dropLast else ps).map trimSpaces := by
  induction ps generalizing n with
  | nil => exact tokens_nil
  | cons p ps ih =>
    obtain ⟨hp, hps⟩ := List.forall_mem_cons.1 hps
    obtain ⟨n, rfl⟩ : ∃ k, n = k + 1 := Nat.exists_eq_succ_of_ne_zero (by
      rw [List.length_cons] at hn
      omega)
    cases ps with
    | nil =>
      rw [List.intercalate_singleton] at h ⊢
      by_cases hnil : p = []
      · rw [if_pos (by rw [hnil]; rfl), hnil, tokens_nil]
        rfl
      · rw [if_neg (by simpa using hnil), tokens_last hd hd' h (.inr hp) hnil, List.map_singleton]
    | cons q ps =>
      rw [List.intercalate_cons_cons, List.append_assoc, List.singleton_append] at h ⊢
      have hsuf : [delim].intercalate (q :: ps) <:+ p ++ delim :: [delim].intercalate (q :: ps) :=
        (List.suffix_cons ..).trans (List.suffix_append ..)
      rw [List.length_cons, List.length_cons] at hn
      rw [tokens_cut hd hd' h hp (by omega),
        ih (h.suffix hsuf) hps (by rw [List.length_cons]; omega), List.getLast?_cons_cons,
        List.dropLast_cons_cons]
      split_ifs
      · rfl
      · rfl

/-- A smaller one takes the rest for the last of them. -/
theorem tokens_intercalate_lt (hd : delim ≠ 0) (hd' : delim ≠ 92)
    (h : Plain delim ([delim].intercalate ps)) (hps : ∀ p ∈ ps, delim ∉ p)
    (hn : n + 1 < ps.length) :
    tokens delim (n + 1) ([delim].intercalate ps) =
      (ps.take n).map trimSpaces ++ [trimSpaces ([delim].intercalate (ps.drop n))] := by
  induction n generalizing ps with
  | zero =>
    refine tokens_last hd hd' h (.inl rfl) ?_
    match ps, hn with
    | p :: q :: ps, _ =>
      rw [List.intercalate_cons_cons]
      simp
  | succ n ih =>
    match ps, hn with
    | p :: q :: ps, hn =>
      obtain ⟨hp, hps⟩ := List.forall_mem_cons.1 hps
      rw [List.intercalate_cons_cons, List.append_assoc, List.singleton_append] at h ⊢
      have hsuf : [delim].intercalate (q :: ps) <:+ p ++ delim :: [delim].intercalate (q :: ps) :=
        (List.suffix_cons ..).trans (List.suffix_append ..)
      rw [tokens_cut hd hd' h hp (Nat.succ_ne_zero n), ih (h.suffix hsuf) hps (by
        rw [List.length_cons] at hn
        omega), List.take_succ_cons, List.map_cons, List.drop_succ_cons, List.cons_append]

end Libks
