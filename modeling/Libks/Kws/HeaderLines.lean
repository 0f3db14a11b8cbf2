import Libks.Kws.RequestLine
import Libks.Text.Cleanup

/-!
# Header lines

`kws_parse_header` takes each piece of the lines behind the request line apart at its
first `:`, and fails on a piece that has none, or nothing behind it.

* `entryOf`: the entry of the header table that a piece becomes;
* `splitLine_str`, `headerLoop_laid`: these are the entries of a piece, and of a row of
  pieces, which stay inside the memory of the pieces, if each of them splits at its
  first `:` (`SplitsFirst`).
-/

namespace Libks

open Base

/-! ## One line -/

/-- The bytes without a CR at their end. -/
def withoutCr (s : List UInt8) : List UInt8 := if s.getLast? = some 13 then s.dropLast else s

/-- The entry of the header table that a piece becomes. -/
def entryOf (t : List UInt8) : Option Header :=
  (strchr 58 t).bind fun i =>
    if t.drop (i + 1) = [] then none
    else some ⟨cleaned 58 (t.take i),
      withoutCr ((cleaned 58 (t.drop (i + 1))).dropWhile (· = 32))⟩

theorem length_withoutCr_le (s : List UInt8) : (withoutCr s).length ≤ s.length := by
  rw [withoutCr]
  split_ifs
  · rw [List.length_dropLast]
    omega
  · exact Nat.le_refl _

theorem count_withoutCr {c : UInt8} (hc : c ≠ 13) (s : List UInt8) :
    (withoutCr s).count c = s.count c := by
  rw [withoutCr]
  split_ifs with hcr
  · obtain ⟨w, rfl⟩ := List.getLast?_eq_some_iff.1 hcr
    rw [List.dropLast_concat, List.count_append, List.count_singleton, if_neg (by simpa using Ne.symm hc)]
    rfl
  · rfl

theorem weight_withoutCr_le (s : List UInt8) : weight (withoutCr s) ≤ weight s := by
  rw [withoutCr]
  split_ifs
  · exact weight_le_of_sublist (List.dropLast_sublist s)
  · exact Nat.le_refl _

/-- If there is no CR left, the one that there was is gone. -/
theorem weight_withoutCr_lt {s : List UInt8} (h : 13 ∈ s) (h' : 13 ∉ withoutCr s) :
    weight (withoutCr s) < weight s := by
  rw [withoutCr] at h' ⊢
  split_ifs at h' ⊢ with hcr
  · obtain ⟨w, rfl⟩ := List.getLast?_eq_some_iff.1 hcr
    rw [List.dropLast_concat, weight_append]
    exact Nat.lt_succ_self _
  · exact absurd h h'

theorem withoutCr_of_notMem {s : List UInt8} (h : 13 ∉ s) : withoutCr s = s :=
  if_neg fun hlast => h (List.mem_of_getLast? hlast)

/-- A piece that does not name its delimiter, and is split at its first `:`. -/
structure SplitsFirst (t : List UInt8) : Prop where
  unnamed : ¬[94, 94] <+: t
  colon : ∃ name rest, t = name ++ 58 :: rest ∧ 58 ∉ name ∧
    delimAt 58 false false t = some name.length

variable {m : Mem} {size p lo hi i : ℕ} {t name rest s : List UInt8}

theorem entryOf_append (hname : 58 ∉ name) :
    entryOf (name ++ 58 :: rest) =
      if rest = [] then none
      else some ⟨cleaned 58 name, withoutCr ((cleaned 58 rest).dropWhile (· = 32))⟩ := by
  rw [entryOf, strchr_append_cons hname, Option.bind_some, drop_cut, List.take_left]

/-- The memory without the CR at the end of a value. -/
def cutCr (m : Mem) (value : ℕ) (v : List UInt8) : Mem :=
  if v.getLast? = some 13 then m.write (value + (v.length - 1)) [0] else m

theorem cutCr_str (h : m.IsStr p s) :
    (cutCr m p s).IsStr p (withoutCr s) ∧ ∀ j, j < p ∨ p + s.length < j → cutCr m p s j = m j := by
  rw [cutCr, withoutCr]
  split_ifs with hcr
  · obtain ⟨w, rfl⟩ := List.getLast?_eq_some_iff.1 hcr
    rw [List.dropLast_concat, List.length_append, List.length_singleton, Nat.add_sub_cancel]
    refine ⟨h.cut.1, fun j hj => Mem.write_apply_of_not_mem ?_⟩
    rw [List.length_singleton]
    omega
  · exact ⟨h, fun _ _ => rfl⟩

/-- A line becomes its entry, and nothing changes but its own bytes. -/
theorem splitLine_str (h : m.IsStr p t) (hp : p + t.length < size) (ht : SplitsFirst t) :
    ∃ o, splitLine size m p = .ok o ∧ o.map (fun x => (⟨x.2.1, x.2.2.2⟩ : Header)) = entryOf t ∧
      ∀ m' k value v, o = some (m', k, value, v) →
        (∀ j, j < p ∨ p + t.length < j → m' j = m j) ∧
        p ≤ value ∧ value + v.length ≤ p + t.length := by
  obtain ⟨name, rest, rfl, hname, hat⟩ := ht.colon
  have hraw : rawTokens 58 2 (name ++ 58 :: rest) = name :: rawTokens 58 1 rest := by
    rw [rawTokens_of_delimAt Nat.one_ne_zero hat, List.take_left, drop_cut]
  have hlast (hrest : rest ≠ []) : rawTokens 58 1 rest = [rest] := rawTokens_of_none hrest (.inl rfl)
  -- The tokenizer ends in the line: it has two tokens, or all quotes are closed.
  have hscan : Scanned 58 2 (name ++ 58 :: rest) := by
    by_cases hrest : rest = []
    · obtain ⟨u, v, heq, hlen, hclosed⟩ := delimAt_eq_some hat
      obtain ⟨-, heq⟩ := List.append_inj heq hlen.symm
      refine .inl (hclosed ▸ ?_)
      rw [← (List.cons.inj heq).2, hrest]
      rfl
    · refine .inr ?_
      rw [hraw, hlast hrest]
      rfl
  obtain ⟨m₁, l, hsep, htok, hl, hframe⟩ := separateCharDelim_str h hscan hp
  rw [← ksSeparateString_eq h ht.unnamed (by decide)] at hsep
  rw [tokens, hraw, List.map_cons] at htok
  rw [entryOf_append hname, splitLine, hsep, ok_bind]
  by_cases hrest : rest = []
  · -- Behind the `:` there is nothing.
    have hl : l.length = 1 := by
      have hlen : (l.map Prod.snd).length = 1 := by
        rw [htok, hrest]
        rfl
      rwa [List.length_map] at hlen
    obtain ⟨a, rfl⟩ := List.length_eq_one_iff.1 hl
    refine ⟨none, rfl, ?_, fun _ _ _ _ hnone => by cases hnone⟩
    rw [if_pos hrest]
    rfl
  · rw [hlast hrest, List.map_singleton] at htok
    obtain ⟨⟨a, k⟩, l', rfl, rfl, htail⟩ := List.map_eq_cons_iff.1 htok
    obtain ⟨⟨b, v⟩, rfl, rfl⟩ := List.map_eq_singleton_iff.1 htail
    cases hl with
    | cons ha hk hkhi hl =>
      cases hl with
      | cons hb hv hvhi _ =>
        -- Of the value, the leading spaces are skipped and a CR is cut.
        have hsplit : (cleaned 58 rest).takeWhile (· = 32) ++ (cleaned 58 rest).dropWhile (· = 32) =
          cleaned 58 rest := List.takeWhile_append_dropWhile
        have hlen := congrArg List.length hsplit
        rw [List.length_append] at hlen
        have hval := hv
        rw [← hsplit] at hval
        obtain ⟨hval, hkeep⟩ := cutCr_str hval.right
        have hle := length_withoutCr_le ((cleaned 58 rest).dropWhile (· = 32))
        rw [if_neg hrest]
        let value := b + ((cleaned 58 rest).takeWhile (· = 32)).length
        refine ⟨some (cutCr m₁ value ((cleaned 58 rest).dropWhile (· = 32)), cleaned 58 name,
          value, withoutCr ((cleaned 58 rest).dropWhile (· = 32))), ?_, rfl, ?_⟩
        · change (loadStr size m₁ b >>= _) = _
          rw [loadStr_str hv (by omega), ok_bind]
          change (loadStr size (cutCr m₁ value ((cleaned 58 rest).dropWhile (· = 32))) a >>= _) = _
          rw [loadStr_str (hk.congr fun j _ _ => hkeep j (.inl (by omega))) (by omega), ok_bind]
          change (loadStr size (cutCr m₁ value ((cleaned 58 rest).dropWhile (· = 32))) value >>= _) = _
          rw [loadStr_str hval (by omega), ok_bind]
          rfl
        · rintro m' k value v ⟨⟩
          refine ⟨fun j hj => ?_, by omega, by omega⟩
          rw [hkeep j (by omega), hframe j hj]

/-! ## A row of lines -/

/-- What a header changes is inside its value, and no other string of the request. -/
theorem dispatch_keeps (r : KwsRequest) (i value : ℕ) (name s : List UInt8) :
    (r.dispatch i name value s).qs = r.qs ∧ (r.dispatch i name value s).size = r.size ∧
      ∀ j, j < value ∨ value + s.length ≤ j →
        (r.dispatch i name value s).buffer j = r.buffer j := by
  rw [KwsRequest.dispatch]
  split_ifs
  · exact ⟨rfl, rfl, fun _ _ => rfl⟩
  · cases hat : strchr 58 s with
    | none => exact ⟨rfl, rfl, fun _ _ => rfl⟩
    | some n =>
      have hn : n < s.length := (List.findIdx?_eq_some_iff_getElem.1 hat).1
      refine ⟨rfl, rfl, fun j hj => Mem.write_apply_of_not_mem ?_⟩
      rw [List.length_singleton]
      omega
  all_goals exact ⟨rfl, rfl, fun _ _ => rfl⟩

/-- The pieces become their entries, one after the other. -/
theorem headerLoop_laid {r : KwsRequest} {l : List (ℕ × List UInt8)} (h : Laid r.buffer hi lo l)
    (hhi : hi < r.size) (hs : ∀ t ∈ l.map Prod.snd, SplitsFirst t) :
    ∃ o, r.headerLoop i (l.map Prod.fst) = .ok o ∧
      o.map KwsRequest.headers = ((l.map Prod.snd).mapM entryOf).map (r.headers ++ ·) ∧
      ∀ r', o = some r' → r'.qs = r.qs ∧ r'.size = r.size ∧ ∀ j < lo, r'.buffer j = r.buffer j := by
  induction l generalizing r i lo with
  | nil =>
    refine ⟨some r, rfl, ?_, fun r' hr' => ?_⟩
    · exact congrArg some (List.append_nil _).symm
    · obtain rfl := Option.some.inj hr'
      exact ⟨rfl, rfl, fun _ _ => rfl⟩
  | cons a l ih =>
    obtain ⟨p, t⟩ := a
    rw [List.map_cons, List.forall_mem_cons] at hs
    cases h with
    | cons hlo hstr hle hl =>
      obtain ⟨o, hsplit, hentry, hkeep⟩ := splitLine_str hstr (Nat.lt_of_le_of_lt hle hhi) hs.1
      rw [List.map_cons, List.map_cons, List.mapM_cons, ← hentry, KwsRequest.headerLoop, hsplit,
        ok_bind]
      cases o with
      | none => exact ⟨none, rfl, rfl, fun r' hr' => by cases hr'⟩
      | some x =>
        obtain ⟨m', k, value, v⟩ := x
        obtain ⟨hframe, hvalue, hv⟩ := hkeep m' k value v rfl
        -- The rest of the pieces stands behind what this one has changed.
        let r₁ : KwsRequest := { r with buffer := m', headers := r.headers ++ [⟨k, v⟩] }
        obtain ⟨hqs, hsize, hbuffer⟩ := dispatch_keeps r₁ i value k v
        have hl' : Laid (r₁.dispatch i k value v).buffer hi (p + t.length + 1) l :=
          hl.congr fun j hj _ => by
            rw [hbuffer j (.inr (by omega))]
            exact hframe j (.inr (by omega))
        obtain ⟨o, hloop, hheaders, hkept⟩ := ih hl' (by rw [hsize]; exact hhi) hs.2
        refine ⟨o, hloop, ?_, fun r' hr' => ?_⟩
        · rw [hheaders, headers_dispatch]
          change Option.map (fun es => (r.headers ++ [⟨k, v⟩]) ++ es) _ = _
          cases (l.map Prod.snd).mapM entryOf with
          | none => rfl
          | some es => simp
        · obtain ⟨hqs', hsize', hbuffer'⟩ := hkept r' hr'
          refine ⟨hqs'.trans hqs, hsize'.trans hsize, fun j hj => ?_⟩
          rw [hbuffer' j (by omega), hbuffer j (.inl (by omega))]
          exact hframe j (.inl (by omega))

theorem length_rawTokens_le_room {n : ℕ} {delim : UInt8} : (rawTokens delim n s).length ≤ n := by
  induction n generalizing s with
  | zero => exact Nat.le_refl _
  | succ n ih =>
    by_cases hs : s = []
    · rw [hs]
      exact Nat.zero_le _
    by_cases hnone : n = 0 ∨ delimAt delim false false s = none
    · rw [rawTokens_of_none hs hnone]
      exact Nat.succ_le_succ (Nat.zero_le n)
    · rw [not_or] at hnone
      obtain ⟨i, hat⟩ := Option.ne_none_iff_exists'.1 hnone.2
      rw [rawTokens_of_delimAt hnone.1 hat]
      exact Nat.succ_le_succ ih

theorem length_rawTokens_pos {n : ℕ} (hn : n ≠ 0) (hs : s ≠ []) (delim : UInt8) :
    0 < (rawTokens delim n s).length := by
  obtain ⟨n, rfl⟩ := Nat.exists_eq_succ_of_ne_zero hn
  by_cases hnone : n = 0 ∨ delimAt delim false false s = none
  · rw [rawTokens_of_none hs hnone]
    exact Nat.one_pos
  · rw [not_or] at hnone
    obtain ⟨i, hat⟩ := Option.ne_none_iff_exists'.1 hnone.2
    rw [rawTokens_of_delimAt hnone.1 hat]
    exact Nat.succ_pos _

/-- The lines behind a request line: a scan that does not stay in them leaves the block;
    otherwise their pieces become the entries. -/
theorem parseLines_str {q : KwsRequest} {http : ℕ} {u : List UInt8}
    (h : q.buffer.IsStr http (u ++ 10 :: s)) (hu : 10 ∉ u)
    (hsize : http + (u ++ 10 :: s).length + 1 = q.size) (hs : s ≠ []) (hnamed : ¬[94, 94] <+: s) :
    (¬Scanned 10 kwsMaxHeaders s → q.parseLines http = .error .outOfBounds) ∧
    (Scanned 10 kwsMaxHeaders s → (∀ t ∈ tokens 10 kwsMaxHeaders s, SplitsFirst t) →
      ∃ o, q.parseLines http = .ok (o.map (·, true)) ∧
        o.map KwsRequest.headers =
          ((tokens 10 kwsMaxHeaders s).mapM entryOf).map (q.headers ++ ·) ∧
        ∀ q', o = some q' → q'.qs = q.qs ∧ q'.size = q.size ∧
          ∀ j < http, q'.buffer j = q.buffer j) := by
  rw [List.length_append, List.length_cons] at hsize
  have hstr : (q.buffer.write (http + u.length) [0]).IsStr (http + u.length + 1) s := h.cut.2
  have hlines : q.parseLines http =
      separateStringCharDelim q.size (q.buffer.write (http + u.length) [0]) (http + u.length + 1) 10
        kwsMaxHeaders >>= fun x =>
      if x.2.length < 1 then .ok none
      else KwsRequest.headerLoop { q with buffer := x.1 } 0 x.2 >>= fun r =>
        .ok (r.map (·, true)) := by
    rw [KwsRequest.parseLines, cutAt_str h (by rw [List.length_append, List.length_cons]; omega),
      strchr_append_cons hu, Option.map_some, ok_bind]
    change (ksSeparateString q.size _ _ 10 kwsMaxHeaders >>= _) = _
    rw [ksSeparateString_eq hstr hnamed (by decide)]
    rfl
  rw [hlines]
  constructor
  · intro hscan
    rw [separateStringCharDelim, separateCharLoop_open hstr hscan (by omega)]
    rfl
  · intro hscan hsplits
    obtain ⟨m, l, hsep, htok, hl, hframe⟩ := separateCharDelim_str hstr hscan
      (show http + u.length + 1 + s.length < q.size by omega)
    have hpos : ¬(l.map Prod.fst).length < 1 := by
      have hlen := congrArg List.length htok
      have htokens := length_rawTokens_pos (show kwsMaxHeaders ≠ 0 by decide) hs 10
      rw [tokens, List.length_map, List.length_map] at hlen
      rw [List.length_map]
      omega
    obtain ⟨o, hloop, hheaders, hkept⟩ := @headerLoop_laid _ _ 0 { q with buffer := m } l hl
      (show _ < q.size by omega) (htok ▸ hsplits)
    refine ⟨o, ?_, ?_, fun q' hq' => ?_⟩
    · rw [hsep, ok_bind, if_neg hpos, hloop, ok_bind]
    · rw [hheaders, htok]
    · obtain ⟨hqs, hsize', hbuffer⟩ := hkept q' hq'
      refine ⟨hqs, hsize', fun j hj => ?_⟩
      rw [hbuffer j (by omega)]
      change m j = _
      rw [hframe j (.inl (by omega)), Mem.write_apply_of_lt (by omega)]

end Libks
