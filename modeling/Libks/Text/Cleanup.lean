import Mathlib.Algebra.Ring.Nat
import Mathlib.Data.List.TakeWhile
import Libks.Text.Separate

/-!
# What the clean-up of a token takes away

A token in which there is nothing to take out but outer spaces stays as it is. Any
other one gets lighter: of its bytes other than spaces fewer are left
(`tame_or_lighter`), and so are fewer of its quotes and backslashes (`tame_or_fewer`). A
byte that is no part of a quote or an escape is still there (`count_cleaned`). A string
whose pieces are all tame is plain (`plain_of_tame`).
-/

namespace Libks

open Base

/-- The number of bytes other than spaces. -/
def weight (s : List UInt8) : ℕ := s.countP (· ≠ 32)

variable {delim c : UInt8} {skip quoted : Bool} {s t : List UInt8}

theorem weight_append (s t : List UInt8) : weight (s ++ t) = weight s + weight t :=
  List.countP_append

theorem weight_cons (c : UInt8) (s : List UInt8) :
    weight (c :: s) = weight s + if c = 32 then 0 else 1 := by
  rw [weight, List.countP_cons, ← weight]
  by_cases hc : c = 32
  · simp [hc]
  · simp [hc]

theorem weight_dropWhile (s : List UInt8) : weight (s.dropWhile (· = 32)) = weight s := by
  induction s with
  | nil => rfl
  | cons c s ih =>
    by_cases hc : c = 32
    · rw [List.dropWhile_cons_of_pos (by simpa using hc), ih, weight_cons, if_pos hc,
        Nat.add_zero]
    · rw [List.dropWhile_cons_of_neg (by simpa using hc)]

theorem weight_trimEnd (s : List UInt8) : weight (trimEnd s) = weight s := by
  induction s with
  | nil => rfl
  | cons c s ih =>
    rw [trimEnd, weight_cons, ← ih]
    split_ifs with hnil hc hc
    · rw [hnil.1]
      rfl
    · exact absurd hnil.2 hc
    · rw [weight_cons, if_pos hc]
    · rw [weight_cons, if_neg hc]

theorem weight_trimSpaces (s : List UInt8) : weight (trimSpaces s) = weight s := by
  rw [trimSpaces, weight_trimEnd, weight_dropWhile]

theorem weight_le_of_sublist (h : s.Sublist t) : weight s ≤ weight t := h.countP_le

/-- Bytes, the apostrophe and the backslash among them, that an escape does not make of
    others. -/
structure Marked (delim : UInt8) (p : UInt8 → Bool) : Prop where
  quote : p 39
  escape : p 92
  kept : ∀ e x, unescaped delim e = some x → p x → p e

variable {p : UInt8 → Bool}

/-- Only a space is an escape for a space. -/
theorem marked_weight (delim : UInt8) : Marked delim (· ≠ 32) := by
  refine ⟨by decide, by decide, fun e x h hx => ?_⟩
  rw [decide_eq_true_eq] at hx ⊢
  rintro rfl
  rw [unescaped] at h
  split_ifs at h with h₁ h₂
  · exact hx (Option.some.inj h).symm
  · exact h₂ rfl

/-- The bytes that are taken out: only they are escapes for themselves. -/
theorem marked_taken (delim : UInt8) : Marked delim fun c => c = 39 ∨ c = 92 := by
  refine ⟨by decide, by decide, fun e x h hx => ?_⟩
  rw [unescaped] at h
  split_ifs at h with h₁ h₂
  · rwa [← Option.some.inj h] at hx
  · rw [← Option.some.inj h, unescapeChar] at hx
    split_ifs at hx <;> first | exact absurd hx (by decide) | exact hx

/-- The loop of the clean-up stores no more marked bytes than it reads, and fewer unless
    there is nothing to take out. -/
theorem countP_cleanupLoop (hp : Marked delim p) (dest : List UInt8) (fin : Option ℕ) :
    ∃ d, (cleanupLoop delim skip quoted dest fin s).1 = dest ++ d ∧
      d.countP p ≤ (if skip then s.tail else s).countP p ∧
      (skip = false → quoted = false → Tame delim s ∨ d.countP p < s.countP p) := by
  induction s generalizing skip quoted dest fin with
  | nil =>
    refine ⟨[], by cases skip <;> exact (List.append_nil _).symm, ?_, fun _ _ =>
      .inl ⟨rfl, Nat.zero_le 1⟩⟩
    cases skip <;> exact Nat.le_refl _
  | cons c s ih =>
    cases skip with
    | true =>
      obtain ⟨d, hd, hle, -⟩ := @ih false quoted dest fin
      exact ⟨d, hd, hle, fun h => absurd h.symm Bool.false_ne_true⟩
    | false =>
      rw [cleanupLoop]
      cases hesc : (if c = 92 then s.head?.bind (unescaped delim) else none) with
      | some x =>
        -- An escape: two bytes have been read, and one is stored.
        have h92 : c = 92 := by
          by_contra h92
          rw [if_neg h92] at hesc
          cases hesc
        rw [if_pos h92] at hesc
        obtain ⟨e, he, hx⟩ := Option.bind_eq_some_iff.1 hesc
        obtain ⟨s, rfl⟩ := List.head?_eq_some_iff.1 he
        obtain ⟨d, hd, hle, -⟩ := @ih true quoted (dest ++ [x]) (some (dest.length + 1))
        have hfewer : (x :: d).countP p < (c :: e :: s).countP p := by
          have hle : d.countP p ≤ s.countP p := hle
          rw [List.countP_cons, List.countP_cons, List.countP_cons, h92, if_pos hp.escape]
          split_ifs with hmark hmark'
          · omega
          · exact absurd (hp.kept e x hx hmark) hmark'
          · omega
          · omega
        refine ⟨x :: d, hd.trans ?_, Nat.le_of_lt hfewer, fun _ _ => .inr hfewer⟩
        rw [List.append_assoc, List.singleton_append]
      | none =>
        dsimp only
        by_cases hq : c = 39 ∧ (quoted = true ∨ 39 ∈ s)
        · -- A quote: nothing is stored for it.
          rw [if_pos hq]
          obtain ⟨d, hd, hle, -⟩ := @ih false (!quoted) dest
            (if quoted then fin else some dest.length)
          have hfewer : d.countP p < (c :: s).countP p := by
            have hle : d.countP p ≤ s.countP p := hle
            rw [List.countP_cons, hq.1, if_pos hp.quote]
            omega
          exact ⟨d, hd, Nat.le_of_lt hfewer, fun _ _ => .inr hfewer⟩
        · rw [if_neg hq]
          obtain ⟨d, hd, hle, hor⟩ := @ih false quoted (dest ++ [c])
            (if c ≠ 32 ∨ quoted then some (dest.length + 1) else fin)
          have hle : d.countP p ≤ s.countP p := hle
          refine ⟨c :: d, hd.trans ?_, ?_, fun _ hquoted => ?_⟩
          · rw [List.append_assoc, List.singleton_append]
          · change (c :: d).countP p ≤ (c :: s).countP p
            rw [List.countP_cons, List.countP_cons]
            omega
          · rcases hor rfl hquoted with htame | hfewer
            · refine .inl ⟨escapeless_cons.2 ⟨hesc, htame.escapes⟩, ?_⟩
              rw [List.count_cons]
              by_cases hc : c = 39
              · have hnot : 39 ∉ s := fun hmem => hq ⟨hc, .inr hmem⟩
                rw [List.count_eq_zero_of_not_mem hnot, Nat.zero_add]
                split_ifs <;> decide
              · rw [if_neg (by simpa using hc)]
                exact htame.quotes
            · right
              rw [List.countP_cons, List.countP_cons]
              omega

theorem Tame.of_dropWhile (h : Tame delim (s.dropWhile (· = 32))) : Tame delim s := by
  induction s with
  | nil => exact h
  | cons c s ih =>
    by_cases hc : c = 32
    · rw [List.dropWhile_cons_of_pos (by simpa using hc)] at h
      have ih := ih h
      subst hc
      refine ⟨escapeless_cons.2 ⟨if_neg (by decide), ih.escapes⟩, ?_⟩
      rw [List.count_cons_of_ne (by decide)]
      exact ih.quotes
    · rwa [List.dropWhile_cons_of_neg (by simpa using hc)] at h

/-- The clean-up of a token that is not tame takes away a marked byte. -/
theorem tame_or_fewer (hp : Marked delim p) (s : List UInt8) :
    Tame delim s ∨ (cleaned delim s).countP p < s.countP p := by
  obtain ⟨d, hd, -, hor⟩ := @countP_cleanupLoop delim false false (s.dropWhile (· = 32)) p hp [] none
  refine (hor rfl rfl).imp Tame.of_dropWhile fun hfewer => ?_
  have hstored : (cleaned delim s).Sublist d := by
    change (List.take _ (cleanupLoop delim false false [] none _).1).Sublist d
    rw [hd]
    exact List.take_sublist _ _
  calc
    (cleaned delim s).countP p ≤ d.countP p := hstored.countP_le
    _ < (s.dropWhile (· = 32)).countP p := hfewer
    _ ≤ s.countP p := (List.dropWhile_sublist _).countP_le

theorem countP_cleaned_le (hp : Marked delim p) (s : List UInt8) :
    (cleaned delim s).countP p ≤ s.countP p := by
  rcases tame_or_fewer hp s with htame | hfewer
  · rw [cleaned_tame htame, trimSpaces]
    exact ((trimEnd_initial _).sublist.trans (List.dropWhile_sublist _)).countP_le
  · exact Nat.le_of_lt hfewer

/-- The clean-up of a token that is not tame takes away a byte that is no space. -/
theorem tame_or_lighter (delim : UInt8) (s : List UInt8) :
    Tame delim s ∨ weight (cleaned delim s) < weight s :=
  tame_or_fewer (marked_weight delim) s

theorem weight_cleaned_le (delim : UInt8) (s : List UInt8) :
    weight (cleaned delim s) ≤ weight s :=
  countP_cleaned_le (marked_weight delim) s

/-- A byte that only stands for itself, in quotes, behind a backslash, or elsewhere. -/
def Lasting (delim c : UInt8) : Prop :=
  c ≠ 32 ∧ c ≠ 39 ∧ c ≠ 92 ∧ ∀ x ∈ unescaped delim c, x = c

instance (delim : UInt8) : DecidablePred (Lasting delim) :=
  fun _ => inferInstanceAs (Decidable (_ ∧ _))

/-- Such a byte is stored wherever it stands, in front of `end`. -/
theorem count_cleanupLoop (hc : Lasting delim c) {dest : List UInt8} {fin : Option ℕ}
    (hfin : ∀ n ∈ fin, n ≤ dest.length) :
    (dest.take (fin.getD 0)).count c + (if skip then s.tail else s).count c ≤
      ((cleanupLoop delim skip quoted dest fin s).1.take
        ((cleanupLoop delim skip quoted dest fin s).2.getD 0)).count c := by
  obtain ⟨h32, h39, h92, hself⟩ := hc
  induction s generalizing skip quoted dest fin with
  | nil => cases skip <;> exact Nat.le_refl _
  | cons b s ih =>
    have htake (x : UInt8) : (dest ++ [x]).take ((some (dest.length + 1)).getD 0) = dest ++ [x] :=
      List.take_of_length_le (by simp)
    have hlast (x : UInt8) : ∀ n ∈ some (dest.length + 1), n ≤ (dest ++ [x]).length := by simp
    have hle : (dest.take (fin.getD 0)).count c ≤ dest.count c := (List.take_sublist _ _).count_le c
    cases skip with
    | true => exact @ih false quoted dest fin hfin
    | false =>
      rw [cleanupLoop]
      cases hesc : (if b = 92 then s.head?.bind (unescaped delim) else none) with
      | some x =>
        -- The byte is not the backslash, but it may be the one behind it.
        refine Nat.le_trans ?_ (@ih true quoted _ _ (hlast x))
        split_ifs at hesc with hb
        obtain ⟨e, he, hx⟩ := Option.bind_eq_some_iff.1 hesc
        obtain ⟨s, rfl⟩ := List.head?_eq_some_iff.1 he
        have hxe : [e].count c ≤ [x].count c := by
          by_cases hec : e = c
          · rw [hself x (hec ▸ hx), hec]
          · rw [List.count_singleton, if_neg (by simpa using hec)]
            exact Nat.zero_le _
        rw [htake, List.count_append]
        change _ + (b :: e :: s).count c ≤ _ + s.count c
        rw [hb, List.count_cons_of_ne (Ne.symm h92), List.count_cons, ← List.count_singleton]
        omega
      | none =>
        dsimp only
        change _ + (b :: s).count c ≤ _
        by_cases hq : b = 39 ∧ (quoted = true ∨ 39 ∈ s)
        · rw [if_pos hq, hq.1, List.count_cons_of_ne (Ne.symm h39)]
          cases quoted with
          | true => exact @ih false false dest fin hfin
          | false =>
            refine Nat.le_trans (Nat.add_le_add_right ?_ _)
              (@ih false true dest (some dest.length) fun n hn => Nat.le_of_eq (Option.some.inj hn).symm)
            rw [Option.getD_some, List.take_length]
            exact hle
        · rw [if_neg hq]
          by_cases hb : b ≠ 32 ∨ quoted = true
          · rw [if_pos hb]
            refine Nat.le_trans ?_ (@ih false quoted _ _ (hlast b))
            rw [htake, List.count_append, List.count_cons, List.count_singleton]
            change _ ≤ _ + s.count c
            omega
          · rw [if_neg hb]
            rw [not_or, not_not] at hb
            refine Nat.le_trans ?_
              (@ih false quoted (dest ++ [b]) fin fun n hn => Nat.le_trans (hfin n hn) (by simp))
            rw [hb.1, List.count_cons_of_ne (Ne.symm h32)]
            refine Nat.add_le_add_right (List.Sublist.count_le c ?_) _
            rw [List.take_append]
            exact List.sublist_append_left _ _

theorem count_dropWhile (hc : c ≠ 32) (s : List UInt8) :
    (s.dropWhile (· = 32)).count c = s.count c := by
  induction s with
  | nil => rfl
  | cons b s ih =>
    by_cases hb : b = 32
    · rw [List.dropWhile_cons_of_pos (by simpa using hb), ih, hb, List.count_cons_of_ne (Ne.symm hc)]
    · rw [List.dropWhile_cons_of_neg (by simpa using hb)]

theorem count_cleaned (hc : Lasting delim c) : s.count c ≤ (cleaned delim s).count c := by
  have hle := @count_cleanupLoop delim c false false (s.dropWhile (· = 32)) hc [] none
    fun n hn => absurd hn (Option.not_mem_none n)
  rw [← count_dropWhile hc.1]
  exact Nat.le_trans (Nat.le_add_left _ _) hle

/-! ## Parts of a token -/

theorem count_trimEnd (hc : c ≠ 32) (s : List UInt8) : (trimEnd s).count c = s.count c := by
  induction s with
  | nil => rfl
  | cons b s ih =>
    rw [trimEnd]
    by_cases hnil : trimEnd s = [] ∧ b = 32
    · rw [if_pos hnil, hnil.2, List.count_cons_of_ne (Ne.symm hc), ← ih, hnil.1]
    · rw [if_neg hnil, List.count_cons, List.count_cons, ih]

theorem Tame.initial (h : Tame delim (s ++ t)) : Tame delim s := by
  refine ⟨?_, Nat.le_trans ?_ h.quotes⟩
  · have hesc := h.escapes
    clear h
    induction s with
    | nil => rfl
    | cons c s ih =>
      rw [List.cons_append, escapeless_cons] at hesc
      refine escapeless_cons.2 ⟨?_, ih hesc.2⟩
      cases s with
      | nil => split_ifs <;> rfl
      | cons b s => exact hesc.1
  · rw [List.count_append]
    exact Nat.le_add_right _ _

/-- Behind a part without backslashes the escapes are what they are without it. -/
theorem escapeless_append_of_notMem (hs : 92 ∉ s) (ht : escapeless delim t) :
    escapeless delim (s ++ t) := by
  induction s with
  | nil => exact ht
  | cons c s ih =>
    rw [List.mem_cons, not_or] at hs
    exact escapeless_cons.2 ⟨if_neg (Ne.symm hs.1), ih hs.2⟩

/-- A byte at the end that is no part of an escape or a quote. -/
theorem Tame.concat (h : Tame delim s) (hc : unescaped delim c = none) (hc' : c ≠ 39) :
    Tame delim (s ++ [c]) := by
  refine ⟨?_, ?_⟩
  · have hesc := h.escapes
    clear h
    induction s with
    | nil =>
      refine escapeless_cons.2 ⟨?_, rfl⟩
      split_ifs <;> rfl
    | cons b s ih =>
      rw [escapeless_cons] at hesc
      refine escapeless_cons.2 ⟨?_, ih hesc.2⟩
      cases s with
      | nil =>
        split_ifs
        · exact hc
        · rfl
      | cons a s => exact hesc.1
  · rw [List.count_append, List.count_singleton, if_neg (by simpa using hc')]
    exact h.quotes

theorem Tame.of_trimEnd (hd : delim ≠ 32) (h : Tame delim (trimEnd s)) : Tame delim s := by
  induction s with
  | nil => exact h
  | cons c s ih =>
    rw [trimEnd] at h
    split_ifs at h with hnil
    · -- Only spaces are left.
      have ih := ih (hnil.1 ▸ h)
      refine ⟨escapeless_cons.2 ⟨if_neg (by rw [hnil.2]; decide), ih.escapes⟩, ?_⟩
      rw [hnil.2, List.count_cons_of_ne (by decide)]
      exact ih.quotes
    · have ih := ih h.tail
      refine ⟨escapeless_cons.2 ⟨?_, ih.escapes⟩, ?_⟩
      · have hhead := (escapeless_cons.1 h.escapes).1
        split_ifs at hhead ⊢ with h92
        · cases s with
          | nil => rfl
          | cons b s =>
            rw [trimEnd] at hhead
            split_ifs at hhead with hspace
            · rw [List.head?_cons, Option.bind_some, unescaped_eq_none_iff, hspace.2]
              exact ⟨by decide, by decide, .inr (Ne.symm hd), by decide, rfl⟩
            · exact hhead
        · rfl
      · have hq := h.quotes
        rw [List.count_cons, count_trimEnd (by decide)] at hq
        rwa [List.count_cons]

/-- The loop moves `end` on, and never back. -/
theorem end_cleanupLoop {dest : List UInt8} {fin : Option ℕ} (hfin : ∀ n ∈ fin, n ≤ dest.length) :
    fin.getD 0 ≤ (cleanupLoop delim skip quoted dest fin s).2.getD 0 := by
  have hle : fin.getD 0 ≤ dest.length := by
    cases fin with
    | none => exact Nat.zero_le _
    | some n => exact hfin n rfl
  induction s generalizing skip quoted dest fin with
  | nil => cases skip <;> exact Nat.le_refl _
  | cons c s ih =>
    have hlast (x : UInt8) : ∀ n ∈ some (dest.length + 1), n ≤ (dest ++ [x]).length := by simp
    have hnext (x : UInt8) (b : Bool) :
        fin.getD 0 ≤
          (cleanupLoop delim b quoted (dest ++ [x]) (some (dest.length + 1)) s).2.getD 0 :=
      Nat.le_trans (Nat.le_succ_of_le hle) (ih (hlast x) (by simp))
    cases skip with
    | true => exact ih hfin hle
    | false =>
      rw [cleanupLoop]
      cases hesc : (if c = 92 then s.head?.bind (unescaped delim) else none) with
      | some x => exact hnext x true
      | none =>
        dsimp only
        split_ifs with hq hquoted hkeep
        · exact ih hfin hle
        · exact Nat.le_trans hle (ih (fun n hn => Nat.le_of_eq (Option.some.inj hn).symm)
            (Nat.le_refl _))
        · exact hnext c false
        · exact ih (fun n hn => Nat.le_trans (hfin n hn) (by simp)) (Nat.le_trans hle (by simp))

/-- It leaves spaces in front of another byte. -/
theorem end_cleanupLoop_of_ne {dest : List UInt8} {fin : Option ℕ}
    (hfin : ∀ n ∈ fin, n ≤ dest.length) (h : ∃ c ∈ s, c ≠ 32) :
    dest.length + (s.takeWhile (· = 32)).length ≤
      (cleanupLoop delim false false dest fin s).2.getD 0 := by
  induction s generalizing dest fin with
  | nil =>
    obtain ⟨c, hc, -⟩ := h
    exact absurd hc List.not_mem_nil
  | cons c s ih =>
    rw [cleanupLoop]
    by_cases h32 : c = 32
    · subst h32
      have hs : ∃ c ∈ s, c ≠ 32 := by
        obtain ⟨b, hb, hne⟩ := h
        exact ⟨b, (List.mem_cons.1 hb).resolve_left hne, hne⟩
      have hfin' : ∀ n ∈ fin, n ≤ (dest ++ [32]).length := fun n hn =>
        Nat.le_trans (hfin n hn) (by simp)
      have hstep := ih hfin' hs
      rw [List.takeWhile_cons_of_pos (by simp), List.length_cons]
      rw [List.length_append, List.length_singleton] at hstep
      have hplain : ¬((32 : UInt8) ≠ 32 ∨ false = true) := by decide
      rw [if_neg (by decide)]
      dsimp only
      rw [if_neg (fun h => absurd h.1 (by decide)), if_neg hplain]
      omega
    · rw [List.takeWhile_cons_of_neg (by simpa using h32), List.length_nil, Nat.add_zero]
      have hlast (x : UInt8) : ∀ n ∈ some (dest.length + 1), n ≤ (dest ++ [x]).length := by simp
      cases hesc : (if c = 92 then s.head?.bind (unescaped delim) else none) with
      | some x => exact Nat.le_trans (Nat.le_succ _) (end_cleanupLoop (hlast x))
      | none =>
        dsimp only
        by_cases hq : c = 39 ∧ (false = true ∨ 39 ∈ s)
        · rw [if_pos hq]
          exact @end_cleanupLoop delim false true s dest (some dest.length)
            fun n hn => Nat.le_of_eq (Option.some.inj hn).symm
        · rw [if_neg hq, if_pos (.inl h32)]
          exact Nat.le_trans (Nat.le_succ _) (end_cleanupLoop (hlast c))

/-- A part with nothing to take out stays in front of what becomes of the rest. -/
theorem cleanupLoop_append {dest : List UInt8} {fin : Option ℕ}
    (h : ∀ c ∈ s, c ≠ 32 ∧ c ≠ 39 ∧ c ≠ 92) :
    cleanupLoop delim false false dest fin (s ++ t) =
      cleanupLoop delim false false (dest ++ s)
        (if s = [] then fin else some (dest.length + s.length)) t := by
  induction s generalizing dest fin with
  | nil => rw [List.nil_append, List.append_nil, if_pos rfl]
  | cons c s ih =>
    obtain ⟨h32, h39, h92⟩ := h c List.mem_cons_self
    rw [List.cons_append, cleanupLoop, if_neg h92]
    dsimp only
    rw [if_neg fun h => h39 h.1, if_pos (.inl h32), ih fun b hb => h b (List.mem_cons_of_mem _ hb),
      List.append_assoc, List.singleton_append, if_neg (List.cons_ne_nil c s)]
    congr 1
    split_ifs with hnil
    · rw [hnil]
      rfl
    · rw [List.length_append, List.length_singleton, List.length_cons, Nat.add_assoc,
        Nat.add_comm 1]

/-- The same for a token: what is left of the rest is not empty if the rest has spaces in
    front of another byte. -/
theorem cleaned_append (hs : s ≠ []) (h : ∀ c ∈ s, c ≠ 32 ∧ c ≠ 39 ∧ c ≠ 92) :
    ∃ t', cleaned delim (s ++ t) = s ++ t' ∧
      ((∃ c ∈ t, c ≠ 32) → t.head? = some 32 → t' ≠ []) := by
  have hdrop : (s ++ t).dropWhile (· = 32) = s ++ t := by
    obtain ⟨c, s, rfl⟩ := List.exists_cons_of_ne_nil hs
    rw [List.cons_append, List.dropWhile_cons_of_neg (by simpa using (h c List.mem_cons_self).1)]
  have hfin : ∀ n ∈ some s.length, n ≤ s.length := fun n hn => Nat.le_of_eq (Option.some.inj hn).symm
  have hloop : cleanupLoop delim false false [] none (s ++ t) =
      cleanupLoop delim false false s (some s.length) t := by
    rw [cleanupLoop_append h, List.nil_append, if_neg hs, List.length_nil, Nat.zero_add]
  obtain ⟨d, hd, -, -⟩ := @countP_cleanupLoop delim false false t _ (marked_weight delim) s (some s.length)
  have hend := @end_cleanupLoop delim false false t s (some s.length) hfin
  refine ⟨d.take ((cleanupLoop delim false false s (some s.length) t).2.getD 0 - s.length), ?_,
    fun hne hhead hnil => ?_⟩
  · rw [cleaned, hdrop, hloop]
    change (cleanupLoop delim false false s (some s.length) t).1.take _ = _
    rw [hd, List.take_append, List.take_of_length_le hend]
  · -- The first space is stored, and `end` is behind it.
    have hlt := @end_cleanupLoop_of_ne delim t s (some s.length) hfin hne
    obtain ⟨t, rfl⟩ := List.head?_eq_some_iff.1 hhead
    rw [List.takeWhile_cons_of_pos (by simp), List.length_cons] at hlt
    have hspace : cleanupLoop delim false false s (some s.length) (32 :: t) =
        cleanupLoop delim false false (s ++ [32]) (some s.length) t := by
      rw [cleanupLoop, if_neg (by decide)]
      dsimp only
      rw [if_neg (fun h => absurd h.1 (by decide)), if_neg (by decide)]
    obtain ⟨d', hd', -, -⟩ := @countP_cleanupLoop delim false false t _ (marked_weight delim) (s ++ [32])
      (some s.length)
    rw [hspace, hd', List.append_assoc] at hd
    rw [← List.append_cancel_left hd] at hnil
    rw [List.take_eq_nil_iff] at hnil
    rcases hnil with hnil | hnil
    · omega
    · exact absurd hnil (List.cons_ne_nil _ _)

/-! ## Delimiters and quotes -/

variable {u v : List UInt8} {i : ℕ}

/-- A delimiter is found behind a part without one, if no backslash skips it and no quote
    hides it. -/
theorem delimAt_cut (hd : delim ≠ 39) (hd' : delim ≠ 92) (hu : delim ∉ u) (hc : closed skip u)
    (hq : (u ++ delim :: v).count 39 ≤ 1) :
    delimAt delim skip false (u ++ delim :: v) = some u.length := by
  induction u generalizing skip with
  | nil =>
    cases skip with
    | true => exact absurd hc Bool.false_ne_true
    | false =>
      rw [List.nil_append, delimAt_cons, if_neg hd', if_neg fun h => hd h.1,
        if_pos ⟨rfl, Bool.false_ne_true⟩]
      rfl
  | cons c u ih =>
    rw [List.mem_cons, not_or] at hu
    have hq' : (u ++ delim :: v).count 39 ≤ 1 := Nat.le_trans List.count_le_count_cons hq
    cases skip with
    | true =>
      rw [List.cons_append, delimAt_skip, ih hu.2 hc hq']
      rfl
    | false =>
      rw [closed] at hc
      have hquote : ¬(c = 39 ∧ (false = true ∨ 39 ∈ u ++ delim :: v)) := by
        rintro ⟨h39, hmem⟩
        exact notMem_of_count_le_one hq h39 (hmem.resolve_left Bool.false_ne_true)
      rw [List.cons_append, delimAt_cons]
      by_cases h92 : c = 92
      · rw [decide_eq_true h92] at hc
        rw [if_pos h92, ih hu.2 hc hq']
        rfl
      · rw [decide_eq_false h92] at hc
        rw [if_neg h92, if_neg hquote, if_neg fun h => hu.1 h.1.symm, ih hu.2 hc hq']
        rfl

/-- In quotes a delimiter is found only behind the apostrophe that ends them. -/
theorem mem_take_of_delimAt_quoted (h : delimAt delim skip true s = some i) : 39 ∈ s.take i := by
  induction s generalizing skip i with
  | nil => cases skip <;> cases h
  | cons c s ih =>
    have hstep {skip' : Bool} (h' : (delimAt delim skip' true s).map (· + 1) = some i) :
        39 ∈ (c :: s).take i := by
      obtain ⟨j, hj, rfl⟩ := Option.map_eq_some_iff.1 h'
      exact List.mem_cons_of_mem _ (ih hj)
    cases skip with
    | true => exact hstep h
    | false =>
      rw [delimAt_cons] at h
      split_ifs at h with h92 hq hd
      · exact hstep h
      · obtain ⟨j, -, rfl⟩ := Option.map_eq_some_iff.1 h
        rw [hq.1]
        exact List.mem_cons_self
      · exact absurd rfl hd.2
      · exact hstep h

/-- Behind a delimiter that is found there is no apostrophe, if there is one in front of
    it. -/
theorem notMem_of_delimAt
    (hat : delimAt delim skip false (u ++ delim :: v) = some u.length)
    (hskip : skip → ∀ e ∈ u.head?, unescaped delim e = none) (hesc : escapeless delim u)
    (hmem : 39 ∈ u) (hq : u.count 39 ≤ 1) : 39 ∉ v := by
  induction u generalizing skip with
  | nil => exact absurd hmem List.not_mem_nil
  | cons c u ih =>
    obtain ⟨hesc, hesc'⟩ := escapeless_cons.1 hesc
    have hq' : u.count 39 ≤ 1 := Nat.le_trans List.count_le_count_cons hq
    -- The byte is not the apostrophe, and the scan goes on behind it.
    have hstep {skip' : Bool} (hc : c ≠ 39)
        (hskip' : skip' → ∀ e ∈ u.head?, unescaped delim e = none)
        (h' : (delimAt delim skip' false (u ++ delim :: v)).map (· + 1) = some (c :: u).length) :
        39 ∉ v := by
      obtain ⟨j, hj, hlen⟩ := Option.map_eq_some_iff.1 h'
      obtain rfl : j = u.length := Nat.succ.inj hlen
      exact ih hj hskip' hesc' ((List.mem_cons.1 hmem).resolve_left (Ne.symm hc)) hq'
    cases skip with
    | true =>
      refine hstep ?_ (fun h => absurd h Bool.false_ne_true) hat
      rintro rfl
      have hnone := hskip rfl 39 rfl
      rw [unescaped, if_pos (.inl rfl)] at hnone
      cases hnone
    | false =>
      rw [List.cons_append, delimAt_cons] at hat
      by_cases h92 : c = 92
      · rw [if_pos h92] at hat
        rw [if_pos h92] at hesc
        refine hstep (by rw [h92]; decide) (fun _ e he => ?_) hat
        rw [he, Option.bind_some] at hesc
        exact hesc
      rw [if_neg h92] at hat
      by_cases h39 : c = 39
      · have hnot := notMem_of_count_le_one hq h39
        intro hv
        rw [if_pos ⟨h39, .inr (List.mem_append_right _ (List.mem_cons_of_mem _ hv))⟩] at hat
        obtain ⟨j, hj, hlen⟩ := Option.map_eq_some_iff.1 hat
        obtain rfl : j = u.length := Nat.succ.inj hlen
        have htake := mem_take_of_delimAt_quoted hj
        rw [List.take_left] at htake
        exact hnot htake
      · rw [if_neg fun h => h39 h.1] at hat
        by_cases hdelim : c = delim ∧ ¬(false = true)
        · rw [if_pos hdelim] at hat
          cases hat
        · rw [if_neg hdelim] at hat
          exact hstep h39 (fun h => absurd h Bool.false_ne_true) hat

/-- A backslash in front of a delimiter hides it. -/
theorem closed_of_delimAt (hat : delimAt delim skip quoted (u ++ delim :: v) = some u.length) :
    closed skip u := by
  induction u generalizing skip quoted with
  | nil =>
    cases skip with
    | true =>
      rw [List.nil_append, delimAt_skip] at hat
      obtain ⟨j, -, hj⟩ := Option.map_eq_some_iff.1 hat
      exact absurd hj (Nat.succ_ne_zero j)
    | false => rfl
  | cons c u ih =>
    have hstep {skip' quoted' : Bool}
        (h : (delimAt delim skip' quoted' (u ++ delim :: v)).map (· + 1) = some (c :: u).length) :
        closed skip' u := by
      obtain ⟨j, hj, hlen⟩ := Option.map_eq_some_iff.1 h
      obtain rfl : j = u.length := Nat.succ.inj hlen
      exact ih hj
    cases skip with
    | true => exact hstep hat
    | false =>
      rw [List.cons_append, delimAt_cons] at hat
      rw [closed]
      by_cases h92 : c = 92
      · rw [if_pos h92] at hat
        rw [decide_eq_true h92]
        exact hstep hat
      rw [if_neg h92] at hat
      rw [decide_eq_false h92]
      split_ifs at hat
      · exact hstep hat
      · cases hat
      · exact hstep hat

/-- A tame string that no backslash ends is plain. -/
theorem Tame.plain (h : Tame delim s) (hc : closed false s) : Plain delim s := by
  refine ⟨?_, h.quotes⟩
  have hesc := h.escapes
  clear h
  induction s with
  | nil => rfl
  | cons c s ih =>
    rw [escapeless_cons] at hesc
    rw [closed] at hc
    by_cases h92 : c = 92
    · rw [if_pos h92] at hesc
      rw [decide_eq_true h92] at hc
      cases s with
      | nil => exact absurd hc Bool.false_ne_true
      | cons e s =>
        have he : unescaped delim e = none := hesc.1
        have he92 : e ≠ 92 := (unescaped_eq_none_iff.1 he).2.2.2.1
        refine noEscape_cons.2 ⟨fun _ => ⟨e, s, rfl, he⟩, ih ?_ hesc.2⟩
        rw [closed, decide_eq_false he92]
        exact hc
    · rw [decide_eq_false h92] at hc
      exact noEscape_cons.2 ⟨fun h => absurd h h92, ih hc hesc.2⟩

/-- Plain strings with a delimiter between them are plain, if there is an apostrophe in one
    of them at most. -/
theorem Plain.cut (hd : delim ≠ 39) (hd' : delim ≠ 92) (hu : Plain delim u) (hv : Plain delim v)
    (hq : 39 ∈ u → 39 ∉ v) : Plain delim (u ++ delim :: v) := by
  refine ⟨?_, ?_⟩
  · have hesc := hu.escapes
    clear hu hq
    induction u with
    | nil => exact noEscape_cons.2 ⟨fun h => absurd h hd', hv.escapes⟩
    | cons c u ih =>
      rw [noEscape_cons] at hesc
      refine noEscape_cons.2 ⟨fun h92 => ?_, ih hesc.2⟩
      obtain ⟨e, t, rfl, he⟩ := hesc.1 h92
      exact ⟨e, t ++ delim :: v, rfl, he⟩
  · rw [List.count_append, List.count_cons_of_ne hd]
    by_cases hmem : 39 ∈ u
    · rw [List.count_eq_zero_of_not_mem (hq hmem)]
      exact hu.quotes
    · rw [List.count_eq_zero_of_not_mem hmem, Nat.zero_add]
      exact hv.quotes

/-- A string is plain if its pieces are tame, no backslash ends it, and the array has more
    room than there are pieces. -/
theorem plain_of_tame {n : ℕ} (hd : delim ≠ 39) (hd' : delim ≠ 92)
    (ht : ∀ t ∈ rawTokens delim n s, Tame delim t) (hc : closed false s)
    (hn : (rawTokens delim n s).length ≠ n) : Plain delim s := by
  induction n generalizing s with
  | zero => exact absurd rfl hn
  | succ n ih =>
    rcases eq_or_ne s [] with rfl | hs
    · exact ⟨rfl, Nat.zero_le 1⟩
    by_cases hlast : n = 0 ∨ delimAt delim false false s = none
    · rw [rawTokens_of_none hs hlast] at ht
      exact (ht s List.mem_cons_self).plain hc
    rw [not_or] at hlast
    obtain ⟨i, hat⟩ := Option.ne_none_iff_exists'.1 hlast.2
    rw [rawTokens_of_delimAt hlast.1 hat] at ht hn
    obtain ⟨u, v, rfl, rfl, hv⟩ := delimAt_eq_some hat
    rw [List.take_left, drop_cut] at ht
    rw [drop_cut, List.length_cons] at hn
    rw [List.forall_mem_cons] at ht
    have hplain := ih ht.2 (hv.trans hc) fun h => hn (congrArg Nat.succ h)
    refine (ht.1.plain (closed_of_delimAt hat)).cut hd hd' hplain fun hmem => ?_
    exact notMem_of_delimAt hat (fun h => absurd h Bool.false_ne_true) ht.1.escapes hmem
      ht.1.quotes

/-- No marked byte is lost in the pieces, if the delimiter is not marked. -/
theorem sum_countP_rawTokens {n : ℕ} (hp : ¬p delim) (hn : n ≠ 0) (s : List UInt8) :
    ((rawTokens delim n s).map (List.countP p)).sum = s.countP p := by
  induction n generalizing s with
  | zero => exact absurd rfl hn
  | succ n ih =>
    rcases eq_or_ne s [] with rfl | hs
    · rfl
    by_cases hlast : n = 0 ∨ delimAt delim false false s = none
    · rw [rawTokens_of_none hs hlast, List.map_singleton, List.sum_singleton]
    rw [not_or] at hlast
    obtain ⟨i, hat⟩ := Option.ne_none_iff_exists'.1 hlast.2
    rw [rawTokens_of_delimAt hlast.1 hat]
    obtain ⟨u, v, rfl, rfl, -⟩ := delimAt_eq_some hat
    rw [List.take_left, drop_cut, List.map_cons, List.sum_cons, ih hlast.1, List.countP_append,
      List.countP_cons, if_neg hp, Nat.add_zero]

end Libks
