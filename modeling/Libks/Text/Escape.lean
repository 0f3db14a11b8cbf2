import Libks.Text.Separate

/-!
# Escaped tokens

The inverse of `ks_separate_string`, which the library leaves to its callers: a
list of tokens is written with a backslash before every byte of them that means
something (`escapeToken`), and joined with the delimiter (`joinTokens`).

* `delimAt_escapeToken`, `cleanupLoop_escapeToken`: the two passes of the
  tokenizer agree on what is escaped;
* `tokens_joinTokens`: the tokens of a joined string are the ones joined;
* `ksSeparateString_joinTokens`: the code leaves them in memory.
-/

namespace Libks

open Base

/-- A byte of a token, as it is written in a list that `delim` separates. -/
def escapeByte (delim c : UInt8) : List UInt8 :=
  if c = 32 then [92, 115]
  else if c = 39 ∨ c = 92 ∨ c = delim then [92, c]
  else [c]

/-- A token, as it is written in a list that `delim` separates. -/
def escapeToken (delim : UInt8) (t : List UInt8) : List UInt8 := t.flatMap (escapeByte delim)

/-- A list of tokens in one string. -/
def joinTokens (delim : UInt8) (ts : List (List UInt8)) : List UInt8 :=
  List.intercalate [delim] (ts.map (escapeToken delim))

variable {delim : UInt8} {t r : List UInt8} {ts : List (List UInt8)} {n : ℕ}

@[simp] theorem escapeToken_nil : escapeToken delim [] = [] := rfl

theorem escapeToken_cons (c : UInt8) (t : List UInt8) :
    escapeToken delim (c :: t) = escapeByte delim c ++ escapeToken delim t := rfl

theorem escapeByte_ne_nil (delim c : UInt8) : escapeByte delim c ≠ [] := by
  rw [escapeByte]
  split_ifs <;> exact List.cons_ne_nil _ _

theorem escapeToken_eq_nil_iff : escapeToken delim t = [] ↔ t = [] := by
  cases t with
  | nil => exact iff_of_true rfl rfl
  | cons c t =>
    refine iff_of_false (fun h => escapeByte_ne_nil delim c ?_) (List.cons_ne_nil _ _)
    exact (List.append_eq_nil_iff.1 h).1

theorem joinTokens_singleton (t : List UInt8) : joinTokens delim [t] = escapeToken delim t :=
  List.intercalate_singleton

theorem joinTokens_cons_cons (t u : List UInt8) (ts : List (List UInt8)) :
    joinTokens delim (t :: u :: ts) =
      escapeToken delim t ++ delim :: joinTokens delim (u :: ts) := by
  rw [joinTokens, List.map_cons, List.map_cons, List.intercalate_cons_cons, List.append_assoc,
    List.singleton_append]
  rfl

/-! ## The two passes -/

/-- The scan for a delimiter passes every escaped byte. -/
theorem delimAt_escapeByte (c : UInt8) (r : List UInt8) :
    delimAt delim false false (escapeByte delim c ++ r) =
      (delimAt delim false false r).map (· + (escapeByte delim c).length) := by
  rw [escapeByte]
  split_ifs with h32 hc
  · exact Option.map_map ..
  · exact Option.map_map ..
  · rw [not_or, not_or] at hc
    rw [List.singleton_append, delimAt_cons, if_neg hc.2.1, if_neg fun h => hc.1 h.1,
      if_neg fun h => hc.2.2 h.1]
    rfl

theorem delimAt_escapeToken (t r : List UInt8) :
    delimAt delim false false (escapeToken delim t ++ r) =
      (delimAt delim false false r).map (· + (escapeToken delim t).length) := by
  induction t with
  | nil => exact Option.map_id'.symm
  | cons c t ih =>
    rw [escapeToken_cons, List.append_assoc, delimAt_escapeByte, ih, Option.map_map,
      List.length_append]
    congr 1
    funext i
    rw [Function.comp_apply, Nat.add_assoc, Nat.add_comm (escapeToken delim t).length]

theorem closed_escapeToken (t r : List UInt8) :
    closed false (escapeToken delim t ++ r) = closed false r := by
  induction t with
  | nil => rfl
  | cons c t ih =>
    rw [escapeToken_cons, List.append_assoc, ← ih, escapeByte]
    split_ifs with h32 hc
    · rfl
    · rfl
    · rw [not_or, not_or] at hc
      rw [List.singleton_append, closed, decide_eq_false hc.2.1]

theorem notMem_escapeByte {c b : UInt8} (hb : b ≠ 92) (hb' : b ≠ 115) (hc : b ≠ c ∨ b = 32) :
    b ∉ escapeByte delim c := by
  rw [escapeByte]
  split_ifs with h32 hm
  · simp [hb, hb']
  · rcases hc with hc | rfl
    · simp [hb, hc]
    · simpa using Ne.symm h32
  · rcases hc with hc | rfl
    · simp [hc]
    · simpa using Ne.symm h32

/-- An escaped token has no spaces. -/
theorem space_notMem_escapeToken (t : List UInt8) : 32 ∉ escapeToken delim t := by
  intro h
  obtain ⟨c, -, hc⟩ := List.mem_flatMap.1 h
  exact notMem_escapeByte (by decide) (by decide) (.inr rfl) hc

theorem unescaped_of_special {c : UInt8} (hd : delim ≠ 0) (hc : c = 39 ∨ c = 92 ∨ c = delim) :
    unescaped delim c = some c := by
  rw [unescaped, if_pos]
  rcases hc with hc | hc | hc
  · exact .inl hc
  · exact .inr (.inr (.inr hc))
  · exact .inr (.inr (.inl ⟨hd, hc⟩))

theorem unescaped_s (hs : delim ≠ 115) : unescaped delim 115 = some 32 := by
  rw [unescaped, if_neg]
  · rfl
  · rintro (h | h | ⟨-, h⟩ | h)
    · exact absurd h (by decide)
    · exact absurd h (by decide)
    · exact hs h.symm
    · exact absurd h (by decide)

/-- The clean-up of an escaped byte stores the byte. -/
theorem cleanupLoop_escapeByte (hd : delim ≠ 0) (hs : delim ≠ 115) (c : UInt8) (r : List UInt8)
    (dest : List UInt8) (fin : Option ℕ) :
    cleanupLoop delim false false dest fin (escapeByte delim c ++ r) =
      cleanupLoop delim false false (dest ++ [c]) (some (dest.length + 1)) r := by
  rw [escapeByte]
  split_ifs with h32 hc
  · rw [List.cons_append, cleanupLoop, if_pos rfl, List.singleton_append, List.head?_cons,
      Option.bind_some, unescaped_s hs, h32]
    rfl
  · rw [List.cons_append, cleanupLoop, if_pos rfl, List.singleton_append, List.head?_cons,
      Option.bind_some, unescaped_of_special hd hc]
    rfl
  · rw [not_or, not_or] at hc
    rw [List.singleton_append, cleanupLoop, if_neg hc.2.1]
    dsimp only
    rw [if_neg fun h => hc.1 h.1, if_pos (.inl h32)]

theorem cleanupLoop_escapeToken (hd : delim ≠ 0) (hs : delim ≠ 115) (t dest : List UInt8)
    (fin : Option ℕ) :
    cleanupLoop delim false false dest fin (escapeToken delim t) =
      (dest ++ t, if t = [] then fin else some (dest.length + t.length)) := by
  induction t generalizing dest fin with
  | nil => rw [escapeToken_nil, cleanupLoop, List.append_nil, if_pos rfl]
  | cons c t ih =>
    rw [escapeToken_cons, cleanupLoop_escapeByte hd hs, ih, List.append_assoc,
      List.singleton_append, if_neg (List.cons_ne_nil c t)]
    refine Prod.ext rfl ?_
    cases t with
    | nil => rfl
    | cons d t =>
      rw [if_neg (List.cons_ne_nil d t), List.length_append, List.length_singleton, Nat.add_assoc,
        Nat.add_comm 1]
      rfl

/-- The clean-up undoes the escapes of a token. -/
theorem cleaned_escapeToken (hd : delim ≠ 0) (hs : delim ≠ 115) (t : List UInt8) :
    cleaned delim (escapeToken delim t) = t := by
  have hdrop : (escapeToken delim t).dropWhile (· = 32) = escapeToken delim t := by
    cases he : escapeToken delim t with
    | nil => rfl
    | cons b u =>
      have hb : b ≠ 32 := by
        rintro rfl
        exact space_notMem_escapeToken t (he ▸ List.mem_cons_self)
      rw [List.dropWhile_cons, if_neg (by simpa using hb)]
  rw [cleaned, hdrop, cleanupLoop_escapeToken hd hs]
  cases t with
  | nil => rfl
  | cons c t =>
    dsimp only
    rw [if_neg (List.cons_ne_nil c t), List.nil_append, List.length_nil, Nat.zero_add,
      Option.getD_some, List.take_length]

/-! ## Joined tokens -/

theorem closed_joinTokens (h92 : delim ≠ 92) (ts : List (List UInt8)) :
    closed false (joinTokens delim ts) := by
  induction ts with
  | nil => rfl
  | cons t ts ih =>
    cases ts with
    | nil =>
      rw [joinTokens_singleton, ← List.append_nil (escapeToken delim t), closed_escapeToken]
      rfl
    | cons u ts => rwa [joinTokens_cons_cons, closed_escapeToken, closed, decide_eq_false h92]

theorem notMem_joinTokens (hd : delim ≠ 0) (h : ∀ t ∈ ts, 0 ∉ t) : 0 ∉ joinTokens delim ts := by
  have hone {t : List UInt8} (ht : 0 ∉ t) : 0 ∉ escapeToken delim t := by
    intro h0
    obtain ⟨c, hc, hmem⟩ := List.mem_flatMap.1 h0
    refine notMem_escapeByte (by decide) (by decide) (.inl fun h => ?_) hmem
    exact ht (h ▸ hc)
  induction ts with
  | nil => exact List.not_mem_nil
  | cons t ts ih =>
    have ht := hone (h t List.mem_cons_self)
    cases ts with
    | nil => rwa [joinTokens_singleton]
    | cons u ts =>
      rw [joinTokens_cons_cons, List.mem_append, List.mem_cons, not_or, not_or]
      exact ⟨ht, hd.symm, ih fun x hx => h x (List.mem_cons_of_mem _ hx)⟩

/-- The pieces of a joined string. Where the array gets full, the last token is
    the whole rest of the string, in which no delimiter is looked for. -/
theorem rawTokens_joinTokens (h39 : delim ≠ 39) (h92 : delim ≠ 92) (hne : ts ≠ [])
    (hlast : ts.getLast? ≠ some []) (hn : ts.length ≤ n) :
    rawTokens delim n (joinTokens delim ts) = ts.map (escapeToken delim) := by
  induction ts generalizing n with
  | nil => exact absurd rfl hne
  | cons t ts ih =>
    obtain ⟨n, rfl⟩ : ∃ k, n = k + 1 := Nat.exists_eq_succ_of_ne_zero (by
      rw [List.length_cons] at hn
      omega)
    cases ts with
    | nil =>
      have hnone : delimAt delim false false (escapeToken delim t) = none := by
        rw [← List.append_nil (escapeToken delim t), delimAt_escapeToken]
        rfl
      rw [joinTokens_singleton]
      cases he : escapeToken delim t with
      | nil => exact absurd (congrArg some (escapeToken_eq_nil_iff.1 he)) hlast
      | cons c s =>
        rw [he] at hnone
        rw [rawTokens, hnone, ite_self, List.map_singleton, he]
    | cons u ts =>
      have hn0 : n ≠ 0 := by
        rw [List.length_cons, List.length_cons] at hn
        omega
      have hat (r : List UInt8) : delimAt delim false false (escapeToken delim t ++ delim :: r) =
          some (escapeToken delim t).length := by
        rw [delimAt_escapeToken, delimAt_cons, if_neg h92, if_neg fun h => h39 h.1,
          if_pos ⟨rfl, Bool.false_ne_true⟩, Option.map_some, Nat.zero_add]
      have ih' := ih (List.cons_ne_nil u ts) (by rwa [List.getLast?_cons_cons] at hlast)
        (Nat.le_of_succ_le_succ hn)
      rw [joinTokens_cons_cons, List.map_cons, ← ih']
      have hat' := hat (joinTokens delim (u :: ts))
      revert hat'
      cases hs : escapeToken delim t ++ delim :: joinTokens delim (u :: ts) with
      | nil => exact absurd (List.append_eq_nil_iff.1 hs).2 (List.cons_ne_nil _ _)
      | cons c s =>
        intro hat'
        rw [rawTokens, if_neg hn0, hat']
        dsimp only
        rw [← hs, List.take_left, drop_cut]

theorem tokens_joinTokens (h39 : delim ≠ 39) (h92 : delim ≠ 92) (hd : delim ≠ 0) (hs : delim ≠ 115)
    (hne : ts ≠ []) (hlast : ts.getLast? ≠ some []) (hn : ts.length ≤ n) :
    tokens delim n (joinTokens delim ts) = ts := by
  rw [tokens, rawTokens_joinTokens h39 h92 hne hlast hn, List.map_map]
  calc
    ts.map (cleaned delim ∘ escapeToken delim) = ts.map id :=
      List.map_congr_left fun t _ => cleaned_escapeToken hd hs t
    _ = ts := List.map_id ts

/-! ## In memory -/

variable {m : Mem} {lo hi size buf arraylen : ℕ} {l : List (ℕ × List UInt8)}

theorem Laid.forall₂ (h : Laid m hi lo l) :
    List.Forall₂ m.IsStr (l.map Prod.fst) (l.map Prod.snd) := by
  induction h with
  | nil => exact .nil
  | cons _ h _ _ ih => exact .cons h ih

/-- `ks_separate_string` gets back the tokens that were escaped and joined. -/
theorem ksSeparateString_joinTokens (hdelim : delim ∉ [32, 39, 92, 115, 0]) (hne : ts ≠ [])
    (h0 : ∀ t ∈ ts, 0 ∉ t) (hlast : ts.getLast? ≠ some []) (hlen : ts.length ≤ arraylen)
    (hnamed : ¬[94, 94] <+: joinTokens delim ts)
    (hm : m.read buf ((joinTokens delim ts).length + 1) = joinTokens delim ts ++ [0])
    (hsize : buf + (joinTokens delim ts).length < size) :
    ∃ m' array, ksSeparateString size m buf delim arraylen = .ok (m', array) ∧
      array.length = ts.length ∧ List.Forall₂ m'.IsStr array ts := by
  simp only [List.mem_cons, List.not_mem_nil, or_false, not_or] at hdelim
  obtain ⟨h32, h39, h92, hs, hd⟩ := hdelim
  have h : m.IsStr buf (joinTokens delim ts) := by
    rw [Mem.read_add, Mem.read_one] at hm
    obtain ⟨hread, hend⟩ := List.append_inj hm (Mem.length_read ..)
    exact ⟨hread, List.singleton_inj.1 hend, notMem_joinTokens hd h0⟩
  obtain ⟨m', l, hrun, htok, hl⟩ := @ksSeparateString_str delim (joinTokens delim ts) arraylen m
    buf size h (closed_joinTokens h92 ts) hsize hnamed h32
  rw [tokens_joinTokens h39 h92 hd hs hne hlast hlen] at htok
  refine ⟨m', l.map Prod.fst, hrun, ?_, ?_⟩
  · rw [← htok, List.length_map, List.length_map]
  · rw [← htok]
    exact hl.forall₂

/-- Two tokens with everything in them that is escaped, and room for just two. -/
theorem ksSeparateString_joinTokens_two :
    ∃ m' array,
      ksSeparateString 20 (Mem.write (fun _ => 0) 3 (ascii "it\\'s,a\\,\\sb\\\\")) 3 44 2 =
        .ok (m', array) ∧
      array.length = [ascii "it's", ascii "a, b\\"].length ∧
      List.Forall₂ m'.IsStr array [ascii "it's", ascii "a, b\\"] :=
  ksSeparateString_joinTokens (by decide) (by decide) (by decide +kernel) (by decide +kernel)
    (by decide) (by decide +kernel) (by decide +kernel) (by decide +kernel)

end Libks
