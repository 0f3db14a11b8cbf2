import Mathlib.Algebra.Order.BigOperators.Group.List
import Libks.Kws.Request
import Libks.Text.Bounds
import Libks.Text.Cleanup

/-!
# The path of a request

`clean_uri` is to keep a request from climbing out of the root: it takes the
target apart at its slashes, drops empty segments and `.`, lets every `..` take
the segment before it back, and prints what is left over the target. For the
first part it has `ks_separate_string`, which leaves a slash alone that is
quoted or behind a backslash, and then takes quotes and escapes out.

* `resolve`: what the dots leave of some segments;
* `cleanUri_str`: what `clean_uri` prints is the resolved *tokens* of the target;
* `path_ne_of_not_plain`: these are not its resolved *segments* if there are quotes or
  escapes in the target, as some of their bytes are missing, unless a `..` has taken the
  segment back that they stand in;
* `cleansUri_plain`: so `clean_uri` does what it is to do with targets without quotes and
  escapes, and with those only, among the targets without a `..`.
-/

namespace Libks

open Base

/-! ## Segments -/

/-- What is left of segments, behind those that are kept so far. -/
def resolve : List (List UInt8) → List (List UInt8) → List (List UInt8)
  | kept, [] => kept
  | kept, s :: segs =>
    if s = [] ∨ s = ascii "." then resolve kept segs
    else if s = ascii ".." then resolve kept.dropLast segs
    else resolve (kept ++ [s]) segs

/-- The path of some segments. -/
def pathOf (segs : List (List UInt8)) : List UInt8 := 47 :: [47].intercalate (resolve [] segs)

/-- A segment that names something below the root. -/
def Named (s : List UInt8) : Prop := s ≠ [] ∧ s ≠ ascii "." ∧ s ≠ ascii ".." ∧ 47 ∉ s

/-- What `clean_uri` is to do with a target, in any block: if it succeeds, it
    leaves the path of what is between its slashes. -/
def CleansUri (target : List UInt8) : Prop :=
  ∀ (m : Mem) (uri size : ℕ), m.IsStr uri target → uri + target.length < size →
    ∃ status m', cleanUri size m uri = .ok (status, m') ∧
      (status = .success → m'.IsStr uri (pathOf (target.splitOn 47)) ∧
        ∀ s ∈ resolve [] (target.splitOn 47), Named s)

variable {kept segs : List (List UInt8)} {s t : List UInt8} {n p q uri lo hi size : ℕ} {m : Mem}
  {l k : List (ℕ × List UInt8)}

theorem resolve_nil_cons : resolve kept ([] :: segs) = resolve kept segs := by
  rw [resolve, if_pos (.inl rfl)]

/-- An empty segment at the end does not matter. -/
theorem resolve_append_nil : resolve kept (segs ++ [[]]) = resolve kept segs := by
  induction segs generalizing kept with
  | nil => exact resolve_nil_cons
  | cons s segs ih => simp only [List.cons_append, resolve, ih]

theorem named_resolve (hk : ∀ s ∈ kept, Named s) (hs : ∀ s ∈ segs, 47 ∉ s) :
    ∀ s ∈ resolve kept segs, Named s := by
  induction segs generalizing kept with
  | nil => exact hk
  | cons s segs ih =>
    obtain ⟨h47, hs⟩ := List.forall_mem_cons.1 hs
    rw [resolve]
    split_ifs with h₁ h₂
    · exact ih hk hs
    · exact ih (fun s h => hk s (List.dropLast_subset _ h)) hs
    · refine ih (fun u hu => ?_) hs
      rcases List.mem_append.1 hu with hu | hu
      · exact hk u hu
      · obtain rfl := List.mem_singleton.1 hu
        exact ⟨fun h => h₁ (.inl h), fun h => h₁ (.inr h), h₂, h47⟩

/-- A path is one slash and one segment after the other. -/
theorem pathOf_eq (segs : List (List UInt8)) :
    pathOf segs = if resolve [] segs = [] then [47] else (resolve [] segs).flatMap (47 :: ·) := by
  rw [pathOf]
  generalize resolve [] segs = segs
  cases segs with
  | nil => rfl
  | cons s segs =>
    rw [if_neg (List.cons_ne_nil _ _)]
    induction segs generalizing s with
    | nil => simp
    | cons t segs ih =>
      rw [List.intercalate_cons_cons, List.append_assoc, List.singleton_append, ih t,
        @List.flatMap_cons _ _ s, List.cons_append]

/-! ## The loops -/

/-- The loop over the segments keeps what their strings resolve to. -/
theorem keepSegments_laid (h : Laid m hi lo l) (hhi : hi < size) :
    ∃ k' : List (ℕ × List UInt8),
      keepSegments size m (k.map Prod.fst) (l.map Prod.fst) = .ok (k'.map Prod.fst) ∧
      k'.map Prod.snd = resolve (k.map Prod.snd) (l.map Prod.snd) ∧ k'.Sublist (k ++ l) := by
  induction l generalizing lo k with
  | nil => exact ⟨k, rfl, rfl, (List.append_nil k).symm ▸ List.Sublist.refl k⟩
  | cons a l ih =>
    obtain ⟨p, s⟩ := a
    cases h with
    | cons hlo hstr hle hl =>
      have hload : loadStr size m p = .ok s := loadStr_str hstr (by omega)
      simp only [List.map_cons, keepSegments, resolve, hload, bind, Except.bind]
      split_ifs with h₁ h₂
      · obtain ⟨k', hrun, hres, hsub⟩ := ih (k := k) hl
        exact ⟨k', hrun, hres, hsub.trans (List.Sublist.append_left (List.sublist_cons_self _ _) _)⟩
      · obtain ⟨k', hrun, hres, hsub⟩ := ih (k := k.dropLast) hl
        rw [← List.map_dropLast, ← List.map_dropLast]
        exact ⟨k', hrun, hres, hsub.trans
          ((List.dropLast_sublist k).append (List.sublist_cons_self _ _))⟩
      · obtain ⟨k', hrun, hres, hsub⟩ := ih (k := k ++ [(p, s)]) hl
        rw [List.map_append] at hrun hres
        rw [List.append_assoc, List.singleton_append] at hsub
        exact ⟨k', hrun, hres, hsub⟩

/-- The segments are printed one behind the other, each in front of where the
    next one is read. -/
theorem printSegments_laid (h : Laid m hi (uri + 1) l) (hhi : hi < size) (h0 : m uri = 0) :
    ∃ m', printSegments size m uri (l.map Prod.fst) = .ok m' ∧
      m'.IsStr uri (l.flatMap fun a => 47 :: a.2) ∧ ∀ i, i < uri ∨ hi < i → m' i = m i := by
  induction l generalizing m uri with
  | nil => exact ⟨m, rfl, Mem.isStr_nil_iff.2 h0, fun _ _ => rfl⟩
  | cons a l ih =>
    obtain ⟨p, s⟩ := a
    cases h with
    | cons hlo hstr hle hl =>
      have hload : loadStr size m p = .ok s := loadStr_str hstr (by omega)
      -- The NUL behind the segment is written where its own is, at the latest.
      have hend (i : ℕ) (hi : p + s.length + 1 ≤ i) : m.write uri (47 :: s ++ [0]) i = m i :=
        Mem.write_apply_of_ge (by simp; omega)
      have hprint : (m.write uri (47 :: s ++ [0])).IsStr uri (47 :: s) :=
        Mem.isStr_write _ _ (by simpa using hstr.notMem)
      obtain ⟨m', hrun, hstr', hframe⟩ := @ih (uri + (s.length + 1)) (m.write uri (47 :: s ++ [0]))
        ((hl.congr fun i hi _ => hend i hi).mono (by omega)) hprint.terminator
      refine ⟨m', ?_, ?_, fun i hout => ?_⟩
      · simp only [List.map_cons, printSegments, hload, bind, Except.bind]
        rw [if_neg (by omega), hrun]
      · rw [List.flatMap_cons]
        refine Mem.IsStr.append ?_ hprint.notMem (by simpa using hstr')
        exact (Mem.read_congr fun i hi hn => hframe i (.inl (by simpa using hn))).trans
          hprint.read
      · rw [hframe i (by omega), Mem.write_apply_of_not_mem (by simp; omega)]

/-! ## Targets -/

/-- Whether `n` slashes of a target stand neither in quotes nor behind a backslash, and
    something stands behind the last of them. -/
def hasSlashes : ℕ → Bool → Bool → List UInt8 → Bool
  | _, _, _, [] => false
  | 0, _, _, _ :: _ => true
  | n + 1, true, quoted, _ :: s => hasSlashes (n + 1) false quoted s
  | n + 1, false, quoted, c :: s =>
    if c = 92 then hasSlashes (n + 1) true quoted s
    else if c = 39 ∧ (quoted ∨ 39 ∈ s) then hasSlashes (n + 1) false (!quoted) s
    else if c = 47 ∧ ¬quoted then hasSlashes n false false s
    else hasSlashes (n + 1) false quoted s

/-- A target that goes down too far: its slashes fill the array. -/
def TooDeep (target : List UInt8) : Prop := hasSlashes 63 false false target

instance : DecidablePred TooDeep := fun _ => inferInstanceAs (Decidable (_ = true))

/-- The first of the slashes is the first delimiter. -/
theorem hasSlashes_succ {skip quoted : Bool} : hasSlashes (n + 1) skip quoted s =
    (delimAt 47 skip quoted s).any fun i => hasSlashes n false false (s.drop (i + 1)) := by
  -- What is behind the delimiter is the same one byte further on.
  have hmap (c : UInt8) (s : List UInt8) (o : Option ℕ) :
      (o.any fun i => hasSlashes n false false (s.drop (i + 1))) =
        (o.map (· + 1)).any fun i => hasSlashes n false false ((c :: s).drop (i + 1)) := by
    cases o <;> rfl
  induction s generalizing skip quoted with
  | nil => cases skip <;> rfl
  | cons c s ih =>
    cases skip with
    | true => rw [hasSlashes, delimAt_skip, ih, ← hmap]
    | false =>
      rw [hasSlashes, delimAt_cons]
      split_ifs
      · rw [ih, ← hmap]
      · rw [ih, ← hmap]
      · rfl
      · rw [ih, ← hmap]

theorem hasSlashes_iff : hasSlashes n false false s ↔ (rawTokens 47 (n + 1) s).length = n + 1 := by
  induction n generalizing s with
  | zero =>
    cases s with
    | nil => exact iff_of_false Bool.false_ne_true (by decide)
    | cons c s => exact iff_of_true rfl rfl
  | succ n ih =>
    rw [hasSlashes_succ]
    rcases eq_or_ne s [] with rfl | hs
    · exact iff_of_false Bool.false_ne_true (Nat.succ_ne_zero _).symm
    cases hat : delimAt 47 false false s with
    | none =>
      rw [rawTokens_of_none hs (.inr hat)]
      exact iff_of_false Bool.false_ne_true (by simp)
    | some i =>
      rw [rawTokens_of_delimAt (Nat.succ_ne_zero n) hat, List.length_cons,
        Nat.add_right_cancel_iff]
      exact ih

/-- A target is too deep if there is a token in it for every place of the array. -/
theorem tooDeep_iff : TooDeep t ↔ (tokens 47 64 t).length = 64 := by
  rw [TooDeep, hasSlashes_iff, tokens, List.length_map]

/-- The first slash ends the first token, an empty one. -/
theorem separateCharLoop_target (h : m.IsStr uri (47 :: t)) (hsize : uri < size) :
    separateCharLoop size 47 (n + 2) m uri =
      (separateCharLoop size 47 (n + 1) (m.write uri [0]) (uri + 1)).bind
        fun (m, array) => .ok (m, uri :: array) := by
  have hne : ¬m uri = 0 := by
    rw [h.head]
    decide
  have hread : m.read uri (size - uri) = 47 :: m.read (uri + 1) (size - uri - 1) := by
    obtain ⟨k, hk⟩ : ∃ k, size - uri = k + 1 := ⟨size - uri - 1, by omega⟩
    rw [hk, Mem.read, h.head, Nat.add_sub_cancel]
  have hfind (rest : List UInt8) : findDelim false 47 false false (47 :: rest) = .ok (some 0) := rfl
  rw [separateCharLoop, if_neg (by omega), if_neg hne, if_neg (Nat.succ_ne_zero n), hread, hfind]
  rfl

theorem tokens_target : tokens 47 64 (47 :: t) = [] :: tokens 47 63 t := rfl

theorem ksSeparateString_target (h : m.IsStr uri (47 :: t)) :
    ksSeparateString size m uri 47 n = separateStringCharDelim size m uri 47 n := by
  have hn : ¬(m uri = 94 ∧ m (uri + 1) = 94 ∧ m (uri + 2) ≠ 0 ∧ m (uri + 3) ≠ 0) := by
    rw [h.head]
    exact fun hn => absurd hn.1 (by decide)
  simp only [ksSeparateString, if_neg hn]
  rfl

/-- A target that is too deep is refused. -/
theorem cleanUri_tooDeep (h : m.IsStr uri (47 :: t)) (hsize : uri + (47 :: t).length < size)
    (hdeep : TooDeep (47 :: t)) : ∃ m', cleanUri size m uri = .ok (.fail, m') := by
  rw [tooDeep_iff, tokens, List.length_map] at hdeep
  obtain ⟨m₁, array, hrun, hlen⟩ := separateCharLoop_full h hsize hdeep
  have hclean (m : Mem) : (cleanupTokens size 47 m array).2.length = array.length := by
    clear hrun hlen
    induction array generalizing m with
    | nil => rfl
    | cons p array ih => rw [cleanupTokens, List.length_cons, List.length_cons, ih]
  refine ⟨(cleanupTokens size 47 m₁ array).1, ?_⟩
  rw [cleanUri, ksSeparateString_target h, separateStringCharDelim, hrun]
  simp only [bind, Except.bind, pure, Except.pure, hclean, hlen, if_true]

/-- What `clean_uri` leaves of another one is the path of its tokens. -/
theorem cleanUri_str (h : m.IsStr uri (47 :: t)) (hsize : uri + (47 :: t).length < size)
    (hc : closed false (47 :: t)) (hdeep : ¬TooDeep (47 :: t)) :
    ∃ m', cleanUri size m uri = .ok (.success, m') ∧
      m'.IsStr uri (pathOf (tokens 47 64 (47 :: t))) ∧
      ∀ i, i < uri ∨ uri + (47 :: t).length < i → m' i = m i := by
  rw [List.length_cons] at hsize ⊢
  have hend : uri + 1 + t.length < size := by omega
  have ht : (m.write uri [0]).IsStr (uri + 1) t := h.tail.write_of_disjoint (.inl (by simp))
  obtain ⟨m₁, l₁, hloop, htok₁, hl₁, hframe₁⟩ :=
    @separateCharLoop_scanned 47 t 63 (m.write uri [0]) (uri + 1) size ht (.inl hc) hend
  obtain ⟨m₂, l₂, hclean, htok₂, hl₂, hframe₂⟩ := cleanupTokens_laid 47 hl₁ hend
  have h0₁ : m₁ uri = 0 := by
    rw [hframe₁ uri (by omega), Mem.write_apply_of_mem (Nat.le_refl _) (by simp)]
    simp
  have h0 : m₂ uri = 0 := by rw [hframe₂ uri (by omega), h0₁]
  have htok : l₂.map Prod.snd = tokens 47 63 t := by rw [htok₂, htok₁, tokens]
  -- There is nothing to clean up in the empty token.
  have hempty : cleanupSeparatedString size 47 m₁ uri = (m₁, uri) := by
    have hstr : m₁.strAt (size - uri) uri = [] :=
      Mem.strAt_eq (Mem.isStr_nil_iff.2 h0₁) (by rw [List.length_nil]; omega)
    rw [cleanupSeparatedString, hstr]
    simp [cleanupLoop]
  have hsep : ksSeparateString size m uri 47 64 = .ok (m₂, uri :: l₂.map Prod.fst) := by
    rw [ksSeparateString_target h, separateStringCharDelim,
      separateCharLoop_target h (by omega), hloop]
    simp only [Except.bind, bind, pure, Except.pure, cleanupTokens, hempty, hclean]
  have hlen : ¬(uri :: l₂.map Prod.fst).length = 64 := by
    rw [tooDeep_iff, tokens_target, List.length_cons, ← htok, List.length_map] at hdeep
    rwa [List.length_cons, List.length_map]
  obtain ⟨k, hkeep, hres, hsub⟩ := @keepSegments_laid _ _ size m₂ l₂ [] hl₂ hend
  obtain ⟨m₃, hprint, hstr, hframe₃⟩ := printSegments_laid (hl₂.sublist hsub) hend h0
  rw [List.map_nil, htok] at hres
  have hpath : pathOf (tokens 47 64 (47 :: t)) =
      if k = [] then [47] else k.flatMap fun a => 47 :: a.2 := by
    rw [pathOf_eq, tokens_target, resolve_nil_cons, ← hres, List.flatMap_map]
    simp only [List.map_eq_nil_iff]
  rw [hpath, cleanUri, hsep]
  simp only [bind, Except.bind, if_neg hlen, List.tail_cons]
  rw [List.map_nil] at hkeep
  rw [hkeep]
  simp only [hprint]
  have hout (i : ℕ) (hi : i < uri ∨ uri + (t.length + 1) < i) : m₃ i = m i := by
    rw [hframe₃ i (by omega), hframe₂ i (by omega), hframe₁ i (by omega),
      Mem.write_apply_of_not_mem (by simp; omega)]
  by_cases hk : k = []
  · subst hk
    have hframe (i : ℕ) (hi : i < uri ∨ uri + (t.length + 1) < i) :
        m₃.write uri [47, 0] i = m i := by
      rw [Mem.write_apply_of_not_mem (by simp; omega), hout i hi]
    have h0₃ : m₃ uri = 0 := Mem.isStr_nil_iff.1 hstr
    rw [if_pos h0₃, if_neg (by omega), if_pos rfl]
    exact ⟨_, rfl, Mem.isStr_write (s := [47]) m₃ uri (by decide), hframe⟩
  · have h0₃ : ¬m₃ uri = 0 := by
      obtain ⟨a, k, rfl⟩ := List.exists_cons_of_ne_nil hk
      rw [List.flatMap_cons, List.cons_append] at hstr
      rw [hstr.head]
      decide
    rw [if_neg h0₃, if_neg hk]
    exact ⟨_, rfl, hstr, hout⟩

/-- A backslash at the end takes the code out of a block that ends there. -/
theorem cleanUri_open (h : m.IsStr uri (47 :: t)) (hsize : uri + (47 :: t).length + 1 = size)
    (hc : ¬closed false (47 :: t)) (hdeep : ¬TooDeep (47 :: t)) :
    cleanUri size m uri = .error .outOfBounds := by
  have hfits : ¬Fits false 47 64 (47 :: t) := by
    rw [tooDeep_iff, tokens, List.length_map] at hdeep
    rintro (h | h)
    · exact hc h
    · exact hdeep (fills_iff.1 h)
  have hrun := ((separateLoop_str h hsize).resolve_left fun h => hfits h.1).2
  rw [separateLoop_false] at hrun
  rw [cleanUri, ksSeparateString_target h, separateStringCharDelim, hrun]
  rfl

/-- What is between the delimiters of a string is of its bytes, but for them. -/
theorem of_mem_splitOn {c : UInt8} : s ∈ t.splitOn c → c ∉ s ∧ s ⊆ t := by
  rw [List.splitOn_eq_splitOnP]
  induction t generalizing s with
  | nil =>
    intro h
    obtain rfl := List.mem_singleton.1 h
    exact ⟨List.not_mem_nil, List.Subset.refl _⟩
  | cons b t ih =>
    rw [List.splitOnP_cons_eq_if_modifyHead]
    obtain ⟨u, us, hu⟩ := List.exists_cons_of_ne_nil (List.splitOnP_ne_nil (· == c) t)
    rw [hu] at ih ⊢
    split_ifs with hb
    · rintro (_ | ⟨_, h⟩)
      · exact ⟨List.not_mem_nil, List.nil_subset _⟩
      · exact ⟨(ih h).1, List.subset_cons_of_subset b (ih h).2⟩
    · rintro (_ | ⟨_, h⟩)
      · obtain ⟨hc, hsub⟩ := ih (.head us)
        refine ⟨fun h => ?_, List.cons_subset_cons b hsub⟩
        exact (List.mem_cons.1 h).elim (fun h => hb (by simp [h])) hc
      · exact ⟨(ih (.tail u h)).1, List.subset_cons_of_subset b (ih (.tail u h)).2⟩

/-- The tokens of a plain target are its segments. -/
theorem pathOf_tokens (h : Plain 47 t) (h32 : 32 ∉ t) (hdeep : ¬TooDeep t) :
    pathOf (tokens 47 64 t) = pathOf (t.splitOn 47) := by
  have hnot : ∀ s ∈ t.splitOn 47, 47 ∉ s := fun s hs => (of_mem_splitOn hs).1
  have htrim {ps : List (List UInt8)} (hps : ps ⊆ t.splitOn 47) : ps.map trimSpaces = ps := by
    rw [List.map_congr_left fun s hs =>
      trimSpaces_of_notMem fun h => h32 ((of_mem_splitOn (hps hs)).2 h), List.map_id']
  rw [← @List.intercalate_splitOn _ t _ _ 47] at h
  rw [tooDeep_iff, ← @List.intercalate_splitOn _ t _ _ 47] at hdeep
  rcases Nat.lt_or_ge 64 (t.splitOn 47).length with hlt | hle
  · rw [tokens_intercalate_lt (by decide) (by decide) h hnot hlt] at hdeep
    refine absurd ?_ hdeep
    rw [List.length_append, List.length_map, List.length_take]
    simp
    omega
  · have htok := tokens_intercalate_le (by decide) (by decide) h hnot hle
    rw [List.intercalate_splitOn] at htok
    rw [htok]
    split_ifs with hlast
    · have hsplit := List.dropLast_append_getLast? _ hlast
      rw [htrim (List.dropLast_subset _), pathOf, pathOf]
      nth_rewrite 2 [← hsplit]
      rw [resolve_append_nil]
    · rw [htrim (List.Subset.refl _)]

/-! ## Quotes and escapes -/

/-- The bytes that the clean-up of a token may take out. -/
def taken (s : List UInt8) : ℕ := s.countP fun c => c = 39 ∨ c = 92

theorem taken_intercalate (segs : List (List UInt8)) :
    taken ([47].intercalate segs) = (segs.map taken).sum := by
  induction segs with
  | nil => rfl
  | cons s segs ih =>
    cases segs with
    | nil => rw [List.intercalate_singleton, List.map_singleton, List.sum_singleton]
    | cons u segs =>
      rw [List.intercalate_cons_cons, taken, List.countP_append, List.countP_append, ← taken,
        ← taken, ← taken, ih, List.map_cons, List.sum_cons]
      rfl

theorem taken_pathOf (segs : List (List UInt8)) :
    taken (pathOf segs) = ((resolve [] segs).map taken).sum :=
  taken_intercalate _

/-- The dots do not bring any in. -/
theorem sum_resolve_le (kept segs : List (List UInt8)) :
    ((resolve kept segs).map taken).sum ≤ (kept.map taken).sum + (segs.map taken).sum := by
  induction segs generalizing kept with
  | nil => exact Nat.le_refl _
  | cons s segs ih =>
    rw [resolve, List.map_cons, List.sum_cons]
    split_ifs
    · have hle := ih kept
      omega
    · have hle := ih kept.dropLast
      have hdrop := ((List.dropLast_sublist kept).map taken).sum_le_sum fun _ _ => Nat.zero_le _
      omega
    · have hle := ih (kept ++ [s])
      rw [List.map_append, List.sum_append, List.map_singleton, List.sum_singleton] at hle
      omega

/-- Without a `..` none gets lost either. -/
theorem sum_resolve (h : ascii ".." ∉ segs) :
    ((resolve kept segs).map taken).sum = (kept.map taken).sum + (segs.map taken).sum := by
  induction segs generalizing kept with
  | nil => rfl
  | cons s segs ih =>
    rw [List.mem_cons, not_or] at h
    rw [resolve, List.map_cons, List.sum_cons]
    split_ifs with hdot hdots
    · have hs : taken s = 0 := by rcases hdot with rfl | rfl <;> decide
      rw [ih h.2, hs, Nat.zero_add]
    · exact absurd hdots.symm h.1
    · rw [ih h.2, List.map_append, List.sum_append, List.map_singleton, List.sum_singleton,
        Nat.add_assoc]

theorem sum_taken_splitOn (t : List UInt8) : ((t.splitOn 47).map taken).sum = taken t := by
  rw [← taken_intercalate, List.intercalate_splitOn]

/-- A target with quotes or escapes has lost some of their bytes, and not by a `..`. -/
theorem path_ne_of_not_plain (hc : closed false t) (hdeep : ¬TooDeep t) (hplain : ¬Plain 47 t)
    (hdots : ascii ".." ∉ t.splitOn 47) : pathOf (tokens 47 64 t) ≠ pathOf (t.splitOn 47) := by
  have hmarked := marked_taken 47
  obtain ⟨u, hu, htame⟩ : ∃ u ∈ rawTokens 47 64 t, ¬Tame 47 u := by
    by_contra hall
    rw [not_exists] at hall
    refine hplain (plain_of_tame (n := 64) (by decide) (by decide) (fun u hu => ?_) hc ?_)
    · exact not_not.1 fun h => hall u ⟨hu, h⟩
    · rwa [tooDeep_iff, tokens, List.length_map] at hdeep
  have hfewer : ((rawTokens 47 64 t).map fun u => taken (cleaned 47 u)).sum <
      ((rawTokens 47 64 t).map taken).sum :=
    List.sum_lt_sum _ _ (fun v _ => countP_cleaned_le hmarked v)
      ⟨u, hu, (tame_or_fewer hmarked u).resolve_left htame⟩
  intro heq
  refine absurd (congrArg taken heq) (Nat.ne_of_lt ?_)
  calc
    taken (pathOf (tokens 47 64 t))
    _ = ((resolve [] (tokens 47 64 t)).map taken).sum := taken_pathOf _
    _ ≤ ((tokens 47 64 t).map taken).sum := (sum_resolve_le [] _).trans_eq (Nat.zero_add _)
    _ = ((rawTokens 47 64 t).map fun u => taken (cleaned 47 u)).sum := by
      rw [tokens, List.map_map]
      rfl
    _ < ((rawTokens 47 64 t).map taken).sum := hfewer
    _ = taken t := sum_countP_rawTokens (by decide) (by decide) t
    _ = ((t.splitOn 47).map taken).sum := (sum_taken_splitOn t).symm
    _ = ((resolve [] (t.splitOn 47)).map taken).sum := by
      rw [sum_resolve hdots]
      exact (Nat.zero_add _).symm
    _ = taken (pathOf (t.splitOn 47)) := (taken_pathOf _).symm

/-- What `clean_uri` does to a target is what it is to do, if the target is too deep, or
    without quotes and escapes. Of the targets without a `..` between the slashes it is so
    for these only. -/
theorem cleansUri_plain (t : List UInt8) (h0 : 0 ∉ t) (h32 : 32 ∉ t) :
    (TooDeep (47 :: t) ∨ Plain 47 (47 :: t) → CleansUri (47 :: t)) ∧
      (ascii ".." ∉ (47 :: t).splitOn 47 → CleansUri (47 :: t) →
        TooDeep (47 :: t) ∨ Plain 47 (47 :: t)) := by
  have h0' : 0 ∉ 47 :: t := by simpa using h0
  have h32' : 32 ∉ 47 :: t := by simpa using h32
  constructor
  · intro h m uri size hstr hsize
    by_cases hdeep : TooDeep (47 :: t)
    · obtain ⟨m', hrun⟩ := cleanUri_tooDeep hstr hsize hdeep
      exact ⟨.fail, m', hrun, fun h => absurd h (by decide)⟩
    have hplain := h.resolve_left hdeep
    obtain ⟨m', hrun, hpath, -⟩ := cleanUri_str hstr hsize hplain.closed hdeep
    rw [pathOf_tokens hplain h32' hdeep] at hpath
    refine ⟨.success, m', hrun, fun _ => ⟨hpath, ?_⟩⟩
    exact named_resolve (fun s hs => absurd hs List.not_mem_nil) fun s hs =>
      (of_mem_splitOn hs).1
  · intro hdots h
    by_contra hnot
    obtain ⟨hdeep, hplain⟩ := not_or.1 hnot
    obtain ⟨status, m', hrun, hpath⟩ :=
      h (Mem.write (fun _ => 0) 0 (47 :: t ++ [0])) 0 _ (Mem.isStr_write _ _ h0')
        (Nat.lt_succ_self _)
    by_cases hc : closed false (47 :: t)
    · obtain ⟨m'', hrun', hstr, -⟩ := cleanUri_str (Mem.isStr_write (fun _ => 0) 0 h0')
        (Nat.lt_succ_self _) hc hdeep
      obtain ⟨rfl, rfl⟩ := Prod.ext_iff.1 (Except.ok.inj (hrun'.symm.trans hrun))
      exact path_ne_of_not_plain hc hdeep hplain hdots (hstr.unique (hpath rfl).1)
    · rw [cleanUri_open (Mem.isStr_write _ _ h0') rfl hc hdeep] at hrun
      cases hrun

/-- A target that climbs out of the root and is kept from it. -/
theorem cleansUri_plain_dots :
    (TooDeep (ascii "/foo/../../bar") ∨ Plain 47 (ascii "/foo/../../bar") →
        CleansUri (ascii "/foo/../../bar")) ∧
      (ascii ".." ∉ (ascii "/foo/../../bar").splitOn 47 → CleansUri (ascii "/foo/../../bar") →
        TooDeep (ascii "/foo/../../bar") ∨ Plain 47 (ascii "/foo/../../bar")) :=
  cleansUri_plain (ascii "foo/../../bar") (by decide +kernel) (by decide +kernel)

/-- A slash behind a backslash does not end its token, and the clean-up takes
    the backslash away: what is printed climbs out of the root. -/
theorem not_cleansUri_escape :
    ¬∀ t : List UInt8, 0 ∉ t → 32 ∉ t → 63 ∉ t → CleansUri (47 :: t) := by
  intro h
  have hdeep : ¬TooDeep (47 :: ascii "\\/../etc/passwd") := by decide +kernel
  have hstr :=
    Mem.isStr_write (s := 47 :: ascii "\\/../etc/passwd") (fun _ => 0) 0 (by decide +kernel)
  obtain ⟨status, m', hrun, hpath⟩ := h (ascii "\\/../etc/passwd") (by decide +kernel)
    (by decide +kernel) (by decide +kernel) _ 0 18 hstr (by decide +kernel)
  obtain ⟨m'', hrun', hstr', -⟩ :=
    @cleanUri_str _ 0 18 _ hstr (by decide +kernel) (by decide +kernel) hdeep
  obtain ⟨rfl, rfl⟩ := Prod.ext_iff.1 (Except.ok.inj (hrun'.symm.trans hrun))
  have hclimbs :
      pathOf (tokens 47 64 (47 :: ascii "\\/../etc/passwd")) = ascii "//../etc/passwd" := by
    decide +kernel
  exact absurd (hclimbs.symm.trans (hstr'.unique (hpath rfl).1)) (by decide +kernel)

end Libks
