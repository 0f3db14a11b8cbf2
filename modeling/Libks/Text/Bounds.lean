import Libks.Text.Separate

/-!
# Separating strings in bounds

The tokenizers pass a backslash together with the byte behind it, which at the
end of the string is its terminator, and then go on in what is behind the
string. Here the string stands in a block that ends with its terminator, so
that every step further on is a fault.

* `separateLoop`: both tokenizers as one;
* `separateLoop_str`: a run of it stays in the block, and leaves strings there,
  or it faults, which one it is being a matter of the string (`Fits`);
* `ksSeparateString_confined_iff`: so does `ks_separate_string`.
-/

namespace Libks

open Base

variable {always skip quoted blank : Bool} {delim : UInt8} {s t : List UInt8} {i n p size : ℕ}
  {m : Mem}

/-! ## The scan for a delimiter -/

/-- What comes of a scan that finds `r` in `s`. -/
def scanned (skip : Bool) (s : List UInt8) (r : Option ℕ) : Except Fault (Option ℕ) :=
  if r.isSome ∨ closed skip s then .ok r else .error .outOfBounds

/-- The scan leaves the block if it finds no delimiter, and steps over the
    terminator. -/
theorem findDelim_scanned (h : 0 ∉ s) :
    findDelim always delim skip quoted (s ++ [0]) =
      scanned skip s (scanAt always delim skip quoted s) := by
  rw [scanned]
  cases hat : scanAt always delim skip quoted s with
  | some i => rw [if_pos (.inl rfl), findDelim_of_scanAt h hat]
  | none =>
    by_cases hc : closed skip s
    · rw [if_pos (.inr hc), findDelim_str h hc, hat]
    · rw [if_neg (by simp [hc]), findDelim_open h hat hc]

/-! ## Both tokenizers -/

/-- How many bytes at `ptr` are passed before a delimiter is looked for. -/
def leadAt (blank : Bool) (size : ℕ) (m : Mem) (ptr : ℕ) : ℕ :=
  if blank then spacesAt size m ptr else 0

/-- The loops of both tokenizers: the one for spaces, if `blank`, passes those
    around a token. -/
def separateLoop (blank : Bool) (size : ℕ) (delim : UInt8) :
    ℕ → Mem → ℕ → Except Fault (Mem × List ℕ)
  | 0, m, _ => .ok (m, [])
  | n + 1, m, ptr =>
    if size ≤ ptr then .error .outOfBounds
    else if m ptr = 0 then .ok (m, [])
    else if n = 0 then .ok (m, [ptr])
    else do
      let first := ptr + leadAt blank size m ptr
      match ← findDelim blank delim false false (m.read first (size - first)) with
      | none => return (m, [ptr])
      | some i =>
        let m := m.write (first + i) [0]
        let next := first + i + 1
        let (m, array) ← separateLoop blank size delim n m (next + leadAt blank size m next)
        return (m, ptr :: array)

theorem separateLoop_false :
    separateLoop false size delim n m p = separateCharLoop size delim n m p := by
  induction n generalizing m p with
  | zero => rfl
  | succ n ih => simp only [separateLoop, separateCharLoop, leadAt, ih]; rfl

theorem separateLoop_true : separateLoop true size 32 n m p = separateBlankLoop size n m p := by
  induction n generalizing m p with
  | zero => rfl
  | succ n ih => simp only [separateLoop, separateBlankLoop, leadAt, ih]; rfl

/-- A string without the spaces that are passed. -/
def lead (blank : Bool) (s : List UInt8) : List UInt8 := if blank then s.dropWhile (· = 32) else s

/-- Whether the tokenizer finds a token for each of `n` places in the array. It
    does not look for the end of the last one then. -/
def fills (blank : Bool) (delim : UInt8) : ℕ → List UInt8 → Bool
  | 0, _ => true
  | _ + 1, [] => false
  | 1, _ :: _ => true
  | n + 2, c :: s =>
    match scanAt blank delim false false (lead blank (c :: s)) with
    | none => false
    | some i => fills blank delim (n + 1) (lead blank ((lead blank (c :: s)).drop (i + 1)))

/-- No backslash takes the tokenizer out of the string: there is none at its end
    that is not itself behind one, or the array is full before the last token is
    scanned. -/
def Fits (blank : Bool) (delim : UInt8) (n : ℕ) (s : List UInt8) : Prop :=
  closed false s ∨ fills blank delim n s

instance : Decidable (Fits blank delim n s) := inferInstanceAs (Decidable (_ ∨ _))

theorem closed_dropWhile (s : List UInt8) :
    closed false (s.dropWhile (· = 32)) = closed false s := by
  induction s with
  | nil => rfl
  | cons c s ih =>
    rw [List.dropWhile_cons]
    split_ifs with h
    · rw [ih, of_decide_eq_true h]
      rfl
    · rfl

theorem closed_lead (blank : Bool) (s : List UInt8) :
    closed false (lead blank s) = closed false s := by
  cases blank with
  | true => exact closed_dropWhile s
  | false => rfl

theorem takeWhile_terminated (s : List UInt8) :
    (s ++ [0]).takeWhile (· = 32) = s.takeWhile (· = 32) := by
  induction s with
  | nil => rfl
  | cons c s ih => rw [List.cons_append, List.takeWhile_cons, List.takeWhile_cons, ih]

/-- The spaces that are passed at a string in memory. -/
theorem leadAt_str (blank : Bool) (h : m.IsStr p s) (hsize : p + s.length + 1 = size) :
    ∃ a, s = a ++ lead blank s ∧ leadAt blank size m p = a.length := by
  cases blank with
  | false => exact ⟨[], rfl, rfl⟩
  | true =>
    refine ⟨s.takeWhile (· = 32), List.takeWhile_append_dropWhile.symm, ?_⟩
    rw [leadAt, if_pos rfl, spacesAt, show size - p = s.length + 1 by omega, h.block,
      takeWhile_terminated]

/-- A run of the loop that leaves strings in the block, one behind the other. -/
def Splits (m : Mem) (p : ℕ) (s : List UInt8) (n : ℕ) (r : Except Fault (Mem × List ℕ)) : Prop :=
  ∃ m' l, r = .ok (m', l.map Prod.fst) ∧ l.length ≤ n ∧ Laid m' (p + s.length) p l ∧
    ∀ i, i < p ∨ p + s.length < i → m' i = m i

theorem Laid.inside {lo hi q : ℕ} {l : List (ℕ × List UInt8)} (h : Laid m hi lo l)
    (hq : (q, t) ∈ l) : m.IsStr q t ∧ lo ≤ q ∧ q + t.length ≤ hi := by
  induction h with
  | nil => exact absurd hq List.not_mem_nil
  | cons hlo h hhi _ ih =>
    rcases List.mem_cons.1 hq with heq | hq
    · obtain ⟨rfl, rfl⟩ := Prod.ext_iff.1 heq
      exact ⟨h, hlo, hhi⟩
    · obtain ⟨hstr, hle, hend⟩ := ih hq
      exact ⟨hstr, by omega, hend⟩

theorem splits_nil : Splits m p s n (.ok (m, [])) :=
  ⟨m, [], rfl, Nat.zero_le _, .nil, fun _ _ => rfl⟩

theorem splits_one (h : m.IsStr p s) (hn : n ≠ 0) : Splits m p s n (.ok (m, [p])) :=
  ⟨m, [(p, s)], rfl, Nat.one_le_iff_ne_zero.2 hn, .cons (Nat.le_refl _) h (Nat.le_refl _) .nil,
    fun _ _ => rfl⟩

/-- A token in front of the run on what is behind its delimiter. -/
theorem Splits.cons {a b u v : List UInt8} {r : Except Fault (Mem × List ℕ)}
    (h : m.IsStr p (a ++ u ++ delim :: (b ++ v)))
    (hr : Splits (m.write (p + (a ++ u).length) [0]) (p + (a ++ u).length + 1 + b.length) v n r) :
    Splits m p (a ++ u ++ delim :: (b ++ v)) (n + 1)
      (r.bind fun (m', array) => .ok (m', p :: array)) := by
  obtain ⟨m', l, rfl, hlen, hl, hframe⟩ := hr
  have hfirst := h.cut.1
  generalize a ++ u = w at *
  have hend : p + (w ++ delim :: (b ++ v)).length = p + w.length + 1 + b.length + v.length := by
    rw [List.length_append, List.length_cons, List.length_append]
    omega
  refine ⟨m', (p, w) :: l, rfl, Nat.succ_le_succ hlen, ?_, fun i hi => ?_⟩
  · rw [hend]
    exact .cons (Nat.le_refl _) (hfirst.congr fun i _ _ => hframe i (by omega)) (by omega)
      (hl.mono (by omega))
  · rw [hframe i (by omega), Mem.write_apply_of_not_mem (by simp; omega)]

/-- The loop at a token that is not the last one in the array. -/
theorem separateLoop_next (hp : p < size) (hne : m p ≠ 0) :
    separateLoop blank size delim (n + 2) m p =
      let first := p + leadAt blank size m p
      (findDelim blank delim false false (m.read first (size - first))).bind fun
        | none => .ok (m, [p])
        | some i =>
          let m := m.write (first + i) [0]
          let next := first + i + 1
          (separateLoop blank size delim (n + 1) m (next + leadAt blank size m next)).bind
            fun (m', array) => .ok (m', p :: array) := by
  rw [separateLoop, if_neg (Nat.not_le.2 hp), if_neg hne, if_neg (Nat.succ_ne_zero n)]
  rfl

theorem fits_of_none (h : scanAt blank delim false false (lead blank s) = none) (hne : s ≠ []) :
    Fits blank delim (n + 2) s ↔ closed false s := by
  cases s with
  | nil => exact absurd rfl hne
  | cons c s =>
    rw [Fits, fills, h]
    exact or_iff_left Bool.false_ne_true

theorem fits_of_some {u v : List UInt8} (hs : lead blank s = u ++ delim :: v)
    (h : scanAt blank delim false false (lead blank s) = some u.length)
    (hv : closed false s = closed false v) :
    Fits blank delim (n + 2) s ↔ Fits blank delim (n + 1) (lead blank v) := by
  cases s with
  | nil => cases blank <;> exact absurd h (Option.some_ne_none _).symm
  | cons c s =>
    rw [Fits, Fits, fills, h, hv, closed_lead]
    dsimp only
    rw [hs, drop_cut]

/-- The run of the loop on a string whose terminator is the end of the block. -/
theorem separateLoop_str (h : m.IsStr p s) (hsize : p + s.length + 1 = size) :
    Fits blank delim n s ∧ Splits m p s n (separateLoop blank size delim n m p) ∨
      ¬Fits blank delim n s ∧ separateLoop blank size delim n m p = .error .outOfBounds := by
  induction n generalizing m p s with
  | zero => exact .inl ⟨.inr rfl, splits_nil⟩
  | succ n ih =>
    have hp : p < size := by omega
    -- The end of the string.
    rcases eq_or_ne s [] with rfl | hs
    · rw [separateLoop, if_neg (Nat.not_le.2 hp), if_pos (Mem.isStr_nil_iff.1 h)]
      exact .inl ⟨.inl rfl, splits_nil⟩
    have hne : m p ≠ 0 := by
      obtain ⟨c, t, rfl⟩ := List.exists_cons_of_ne_nil hs
      rw [h.head]
      exact (Mem.isStr_cons_iff.1 h).2.1
    -- The last place of the array takes all that is left.
    cases n with
    | zero =>
      rw [separateLoop, if_neg (Nat.not_le.2 hp), if_neg hne, if_pos rfl]
      obtain ⟨c, t, rfl⟩ := List.exists_cons_of_ne_nil hs
      exact .inl ⟨.inr rfl, splits_one h (Nat.succ_ne_zero _)⟩
    | succ n =>
      obtain ⟨a, hsplit, ha⟩ := leadAt_str blank h hsize
      have hw : m.IsStr (p + a.length) (lead blank s) := (hsplit ▸ h : m.IsStr p (a ++ _)).right
      have hlen := congrArg List.length hsplit
      rw [List.length_append] at hlen
      rw [separateLoop_next hp hne]
      dsimp only
      rw [ha, show size - (p + a.length) = (lead blank s).length + 1 by omega, hw.block,
        findDelim_scanned hw.notMem]
      -- No delimiter is left, or the text is cut at the next one.
      cases hat : scanAt blank delim false false (lead blank s) with
      | none =>
        rw [fits_of_none hat hs, scanned, closed_lead]
        by_cases hc : closed false s = true
        · rw [if_pos (.inr hc)]
          exact .inl ⟨hc, splits_one h (Nat.succ_ne_zero _)⟩
        · rw [if_neg fun h => h.elim (fun h => Bool.false_ne_true h) hc]
          exact .inr ⟨hc, rfl⟩
      | some i =>
        obtain ⟨u, v, huv, rfl, hv⟩ := scanAt_eq_some hat
        rw [closed_lead] at hv
        rw [fits_of_some huv hat hv.symm, scanned, if_pos (.inl rfl)]
        rw [huv, ← List.append_assoc] at hsplit
        rw [hsplit] at h
        have hnext := h.cut.2
        have hend : p + (a ++ u).length + 1 + v.length + 1 = size := by
          rw [← hsize, hsplit]
          simp only [List.length_append, List.length_cons]
          omega
        have hpos : p + a.length + u.length = p + (a ++ u).length := by
          rw [List.length_append, Nat.add_assoc]
        obtain ⟨b, hb, hlead⟩ := leadAt_str blank hnext hend
        have hrest := (hb ▸ hnext : Mem.IsStr _ _ (b ++ lead blank v)).right
        have hlen' := congrArg List.length hb
        rw [List.length_append] at hlen'
        have hrun := ih hrest (by omega)
        rw [Except.bind]
        dsimp only
        rw [hpos, hlead]
        rcases hrun with ⟨hfits, hsplits⟩ | ⟨hfits, herr⟩
        · refine .inl ⟨hfits, ?_⟩
          rw [hb] at hsplit h
          rw [hsplit]
          exact .cons h hsplits
        · exact .inr ⟨hfits, by rw [herr]; rfl⟩

/-! ## A full array -/

/-- The array is full if it is as long as there are pieces for. -/
theorem fills_iff : fills false delim n s ↔ (rawTokens delim n s).length = n := by
  induction n generalizing s with
  | zero => exact iff_of_true rfl rfl
  | succ n ih =>
    cases s with
    | nil => exact iff_of_false Bool.false_ne_true (Nat.succ_ne_zero n).symm
    | cons c s =>
      cases n with
      | zero => exact iff_of_true rfl rfl
      | succ n =>
        have hlead : lead false (c :: s) = c :: s := rfl
        rw [fills, rawTokens, if_neg (Nat.succ_ne_zero n), hlead, ← delimAt]
        cases delimAt delim false false (c :: s) with
        | none => exact iff_of_false Bool.false_ne_true (by simp)
        | some i =>
          rw [List.length_cons, Nat.add_right_cancel_iff]
          exact ih

/-- With a token for every place of the array, the code does not look for the
    end of the string, and so not behind it. -/
theorem separateCharLoop_full (h : m.IsStr p s) (hp : p + s.length < size)
    (hn : (rawTokens delim n s).length = n) :
    ∃ m' array, separateCharLoop size delim n m p = .ok (m', array) ∧ array.length = n := by
  induction n generalizing m p s with
  | zero => exact ⟨m, [], rfl, rfl⟩
  | succ n ih =>
    cases s with
    | nil => exact absurd hn (Nat.succ_ne_zero n).symm
    | cons c s =>
      have hne : ¬m p = 0 := by
        rw [h.head]
        exact (Mem.isStr_cons_iff.1 h).2.1
      rw [separateCharLoop, if_neg (by omega), if_neg hne]
      rw [rawTokens] at hn
      by_cases h1 : n = 0
      · exact ⟨m, [p], by rw [if_pos h1], by rw [h1]; rfl⟩
      rw [if_neg h1] at hn ⊢
      cases hat : delimAt delim false false (c :: s) with
      | none =>
        rw [hat] at hn
        exact absurd (Nat.succ.inj hn).symm h1
      | some i =>
        obtain ⟨rest, hread⟩ := read_string h hp
        obtain ⟨u, v, hs, rfl, -⟩ := delimAt_eq_some hat
        rw [hat, List.length_cons, Nat.add_right_cancel_iff] at hn
        rw [hread, findDelim_of_scanAt h.notMem hat]
        rw [hs] at h hp hn
        rw [drop_cut] at hn
        rw [List.length_append, List.length_cons] at hp
        obtain ⟨m', array, hrun, hlen⟩ := ih h.cut.2 (by omega) hn
        refine ⟨m', p :: array, ?_, by rw [List.length_cons, hlen]⟩
        simp only [bind, Except.bind, hrun]
        rfl

/-! ## The whole function -/

/-- The delimiter that a string names, and the text behind its name, or the
    given one, and the whole string. -/
def named (delim : UInt8) : List UInt8 → UInt8 × List UInt8
  | 94 :: 94 :: d :: c :: s => (d, c :: s)
  | s => (delim, s)

/-- A call that keeps to the bytes of the string `s` at `p` and its terminator,
    in a block that ends there, and leaves at most `n` strings, all of them
    inside. -/
def Confined (m : Mem) (p : ℕ) (s : List UInt8) (delim : UInt8) (n : ℕ) : Prop :=
  ∃ m' array, ksSeparateString (p + s.length + 1) m p delim n = .ok (m', array) ∧
    array.length ≤ n ∧
    (∀ q ∈ array, ∃ t, m'.IsStr q t ∧ p ≤ q ∧ q + t.length ≤ p + s.length) ∧
    ∀ i, i < p ∨ p + s.length < i → m' i = m i

/-- The code looks for a named delimiter as long as the string goes on, and so
    finds it in the string, if it is there. -/
theorem ksSeparateString_named (h : m.IsStr p s) :
    ∃ k ≤ s.length, (named delim s).2 = s.drop k ∧
      ksSeparateString size m p delim n =
        if (named delim s).1 = 32 then separateStringBlankDelim size m (p + k) n
        else separateStringCharDelim size m (p + k) (named delim s).1 n := by
  by_cases hn : m p = 94 ∧ m (p + 1) = 94 ∧ m (p + 2) ≠ 0 ∧ m (p + 3) ≠ 0
  · obtain ⟨d, c, t, rfl⟩ : ∃ d c t, s = 94 :: 94 :: d :: c :: t := by
      obtain ⟨h₀, h₁, h₂, h₃⟩ := hn
      match s, h with
      | [], h => exact absurd (h₀.symm.trans (Mem.isStr_nil_iff.1 h)) (by decide)
      | [_], h => exact absurd (h₁.symm.trans (Mem.isStr_nil_iff.1 h.tail)) (by decide)
      | [_, _], h => exact absurd (Mem.isStr_nil_iff.1 h.tail.tail) h₂
      | [_, _, _], h => exact absurd (Mem.isStr_nil_iff.1 h.tail.tail.tail) h₃
      | a :: b :: d :: c :: t, h =>
        obtain rfl := h.head.symm.trans h₀
        obtain rfl := h.tail.head.symm.trans h₁
        exact ⟨d, c, t, rfl⟩
    refine ⟨3, by simp, rfl, ?_⟩
    have hd : m (p + 2) = d := h.tail.tail.head
    simp only [ksSeparateString, if_pos hn]
    rw [hd]
    rfl
  · have hplain : named delim s = (delim, s) := by
      rw [named.eq_def]
      split
      · rename_i d c t
        have hd := (Mem.isStr_cons_iff.1 h.tail.tail).2.1
        have hc := (Mem.isStr_cons_iff.1 h.tail.tail.tail).2.1
        rw [← h.tail.tail.head] at hd
        rw [← h.tail.tail.tail.head] at hc
        exact absurd ⟨h.head, h.tail.head, hd, hc⟩ hn
      · rfl
    refine ⟨0, Nat.zero_le _, by rw [hplain]; rfl, ?_⟩
    simp only [ksSeparateString, if_neg hn, hplain, Nat.add_zero]

/-- The clean-up keeps inside of the tokens. -/
theorem Splits.cleanup {r : Except Fault (Mem × List ℕ)} (h : Splits m p s n r) (d : UInt8)
    (hsize : p + s.length < size) :
    ∃ m' array, r.bind (fun (m, array) => .ok (cleanupTokens size d m array)) = .ok (m', array) ∧
      array.length ≤ n ∧ (∀ q ∈ array, ∃ t, m'.IsStr q t ∧ p ≤ q ∧ q + t.length ≤ p + s.length) ∧
      ∀ i, i < p ∨ p + s.length < i → m' i = m i := by
  obtain ⟨m₁, l, rfl, hlen, hl, hframe⟩ := h
  obtain ⟨m', l', hrun, htok, hl', hframe'⟩ := cleanupTokens_laid d hl hsize
  refine ⟨m', l'.map Prod.fst, congrArg Except.ok hrun, ?_, ?_, fun i hi => ?_⟩
  · have := congrArg List.length htok
    simp only [List.length_map] at this
    rwa [List.length_map, this]
  · intro q hq
    obtain ⟨⟨q, t⟩, hmem, rfl⟩ := List.mem_map.1 hq
    exact ⟨t, hl'.inside hmem⟩
  · rw [hframe' i hi, hframe i hi]

/-- `ks_separate_string` keeps to the string if and only if no backslash takes
    it out of the string. -/
theorem ksSeparateString_confined_iff (h : m.IsStr p s) :
    Confined m p s delim n ↔
      Fits ((named delim s).1 = 32) (named delim s).1 n (named delim s).2 := by
  obtain ⟨k, hk, hdrop, hcall⟩ :=
    @ksSeparateString_named delim s n p (p + s.length + 1) m h
  rw [Confined, hcall]
  have ht := h.drop hk
  rw [← hdrop] at ht
  have hlen := congrArg List.length hdrop
  rw [List.length_drop] at hlen
  have hend : p + k + (named delim s).2.length = p + s.length := by omega
  generalize named delim s = named at ht hend ⊢
  obtain ⟨d, t⟩ := named
  dsimp only at ht hend ⊢
  -- Whatever the loop, the clean-up has the same delimiter or none.
  have hconfined (blank : Bool) (d' : UInt8) :
      (∃ m' array, (separateLoop blank (p + s.length + 1) d n m (p + k)).bind
          (fun (m, array) => .ok (cleanupTokens (p + s.length + 1) d' m array)) = .ok (m', array) ∧
        array.length ≤ n ∧
        (∀ q ∈ array, ∃ t, m'.IsStr q t ∧ p ≤ q ∧ q + t.length ≤ p + s.length) ∧
        ∀ i, i < p ∨ p + s.length < i → m' i = m i) ↔ Fits blank d n t := by
    rcases @separateLoop_str blank d t n _ _ m ht (by rw [hend]) with
      ⟨hfits, hsplits⟩ | ⟨hfits, herr⟩
    · refine iff_of_true ?_ hfits
      have hlt : p + k + t.length < p + s.length + 1 := by omega
      obtain ⟨m', array, hrun, hle, hin, hframe⟩ := hsplits.cleanup d' hlt
      rw [hend] at hin hframe
      refine ⟨m', array, hrun, hle, fun q hq => ?_, fun i hi => hframe i (by omega)⟩
      obtain ⟨u, hu, hlo, hhi⟩ := hin q hq
      exact ⟨u, hu, by omega, hhi⟩
    · refine iff_of_false ?_ hfits
      rintro ⟨m', array, hrun, -⟩
      rw [herr] at hrun
      cases hrun
  by_cases hd : d = 32
  · rw [if_pos hd, decide_eq_true hd, separateStringBlankDelim, ← separateLoop_true, ← hd]
    exact hconfined true 0
  · rw [if_neg hd, decide_eq_false hd, separateStringCharDelim, ← separateLoop_false]
    exact hconfined false d

/-- A list of two tokens, in a buffer with just the room for it, and the array
    full before the backslash at its end is reached. -/
theorem ksSeparateString_confined_full :
    Confined (Mem.write (fun _ => 0) 3 (ascii "a,b\\" ++ [0])) 3 (ascii "a,b\\") 44 2 ↔
      Fits ((named 44 (ascii "a,b\\")).1 = 32) (named 44 (ascii "a,b\\")).1 2
        (named 44 (ascii "a,b\\")).2 :=
  ksSeparateString_confined_iff (Mem.isStr_write _ _ (by decide +kernel))

/-- With room for a third token, the second one is scanned to its end, and the
    backslash there takes the code out of the buffer. -/
theorem ksSeparateString_not_confined :
    ¬∀ (m : Mem) (p : ℕ) (s : List UInt8) (delim : UInt8) (n : ℕ),
      m.IsStr p s → Confined m p s delim n := by
  intro h
  obtain ⟨m', array, hrun, -⟩ := h (Mem.write (fun _ => 0) 0 (ascii "a,b\\" ++ [0])) 0
    (ascii "a,b\\") 44 3 (Mem.isStr_write _ _ (by decide +kernel))
  have herr : ksSeparateString 5 (Mem.write (fun _ => 0) 0 (ascii "a,b\\" ++ [0])) 0 44 3 =
      .error .outOfBounds := rfl
  cases herr.symm.trans hrun

end Libks
