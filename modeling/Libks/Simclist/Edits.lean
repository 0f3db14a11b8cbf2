import Libks.Simclist.Entries

/-!
# Changes of a list

What the functions that put entries in and take them out do to the entries of a list: the
one at a position is put in (`Linked.insertAt`) or taken out (`Linked.dropElem`), or a range
of them (`Linked.deleteRange`), or all of them (`Linked.clear`). The middle stays the middle,
so that the assertion at the end holds, and an entry that is taken out is a spare one or
freed: none is lost.
-/

namespace Libks

open Base

namespace KsList

variable {l l' : KsList} {cells xs ys ms : List (ℕ × ℕ)} {lost rest : List ℕ} {a b c : ℕ × ℕ}
  {p pos data start : ℕ}

/-- What the changes of the entries leave as it is. -/
structure Keeps (l l' : KsList) : Prop where
  headSentinel : l'.headSentinel = l.headSentinel
  tailSentinel : l'.tailSentinel = l.tailSentinel
  iterActive : l'.iterActive = l.iterActive
  iterPos : l'.iterPos = l.iterPos
  iterCurentry : l'.iterCurentry = l.iterCurentry
  comparator : l'.comparator = l.comparator
  seeker : l'.seeker = l.seeker

/-! ## Entries put in -/

theorem toInt32_sub32 {m n : ℕ} (hm : m < 2 ^ 31) (hn : n < 2 ^ 31) :
    toInt32 (sub32 m n) = (m : ℤ) - n := by
  rw [toInt32, sub32, Int.bmod_def]
  omega

/-- The entries around those that come between `xs` and `ys`. -/
theorem exists_framed (l : KsList) (xs ys : List (ℕ × ℕ)) :
    ∃ us b c vs, us.length = xs.length ∧ (0 < xs.length → (l.headSentinel, 0) ∈ us) ∧
      ∀ zs, l.framed (xs ++ (zs ++ ys)) = us ++ b :: (zs ++ c :: vs) := by
  obtain ⟨us, b, hus⟩ :=
    (List.eq_nil_or_concat' ((l.headSentinel, 0) :: xs)).resolve_left (by simp)
  obtain ⟨c, vs, hvs⟩ := List.exists_cons_of_ne_nil
    (show ys ++ [(l.tailSentinel, 0)] ≠ [] by simp)
  refine ⟨us, b, c, vs, ?_, fun hpos => ?_, fun zs => ?_⟩
  · have hlen := congrArg List.length hus
    rw [List.length_cons, List.length_append, List.length_singleton] at hlen
    omega
  · cases us with
    | nil => simp [(List.cons.inj hus).2] at hpos
    | cons u us =>
      rw [(List.cons.inj hus).1]
      exact List.mem_cons_self ..
  · rw [framed, List.append_assoc, List.append_assoc, hvs, ← List.cons_append, hus,
      List.append_assoc, List.singleton_append]

theorem newEntry_spec (h : l.Linked cells lost) (hstart : start ∉ l.heap) :
    ∃ p l', l.newEntry start = (p, l') ∧ l'.Linked cells (p :: lost) ∧ l.Keeps l' := by
  rw [newEntry]
  rcases List.eq_nil_or_concat' l.spareels with hnil | ⟨spares, p, hspares⟩
  · rw [hnil]
    refine ⟨start, _, rfl, ⟨?_, h.numels, h.mid, by simp⟩, ⟨rfl, rfl, rfl, rfl, rfl, rfl, rfl⟩⟩
    have w := h.wired.alloc hstart {}
    rw [hnil] at w
    exact w
  · have hlen := h.spares
    rw [hspares, List.length_append, List.length_singleton] at hlen
    rw [hspares, List.getLast?_concat, List.dropLast_concat]
    refine ⟨p, _, rfl, ⟨?_, h.numels, h.mid, by simp only; omega⟩,
      ⟨rfl, rfl, rfl, rfl, rfl, rfl, rfl⟩⟩
    have w := h.wired
    rw [hspares, List.append_assoc] at w
    exact w

/-- Where the cells are after one has been put in. -/
theorem getElem?_insert (hpos : pos ≤ cells.length) (i : ℕ) :
    (cells.take pos ++ ([a] ++ cells.drop pos))[i]? =
      if i < pos then cells[i]? else if i = pos then some a else cells[i - 1]? := by
  have hlen : (cells.take pos).length = pos := by rw [List.length_take, Nat.min_eq_left hpos]
  split_ifs with h₁ h₂
  · rw [List.getElem?_append_left (by omega), List.getElem?_take_of_lt h₁]
  · rw [List.getElem?_append_right (by omega), hlen, h₂, Nat.sub_self]
    rfl
  · obtain ⟨j, rfl⟩ : ∃ j, i = pos + 1 + j := ⟨i - pos - 1, by omega⟩
    rw [List.getElem?_append_right (by omega), hlen, List.singleton_append,
      show pos + 1 + j - pos = j + 1 by omega, List.getElem?_cons_succ, List.getElem?_drop,
      show pos + 1 + j - 1 = pos + j by omega]

/-- The middle after an entry has been put in. -/
theorem mid_insert (w : Wired l.heap (l.framed (cells.take pos ++ ([a] ++ cells.drop pos))) rest)
    (hmid : l.mid = cells[(cells.length - 1) / 2]?.map Prod.fst) (hpos : pos ≤ cells.length)
    (hn : cells.length + 1 < 2 ^ 32) :
    l.midInserted a.1 (cells.length + 1) pos =
      .ok ((cells.take pos ++ ([a] ++ cells.drop pos))[cells.length / 2]?.map Prod.fst) := by
  have hlen : (cells.take pos ++ ([a] ++ cells.drop pos)).length = cells.length + 1 := by
    simp only [List.length_append, List.length_take, List.length_drop, List.length_singleton]
    omega
  have hget := getElem?_insert (a := a) hpos
  rw [midInserted, sub32_of_le (by omega) hn, Nat.add_sub_cancel]
  split_ifs with h₁ h₂ h₃ h₃
  · obtain rfl : cells = [] := List.length_eq_zero_iff.1 (by omega)
    obtain rfl : pos = 0 := by simpa using hpos
    rfl
  · -- The old middle has stayed where it was, and the new one is behind it.
    have hold : l.mid =
        (cells.take pos ++ ([a] ++ cells.drop pos))[cells.length / 2 - 1]?.map Prod.fst := by
      rw [hmid, hget, if_pos (by omega),
        show (cells.length - 1) / 2 = cells.length / 2 - 1 by omega]
    rw [hold, entry_next w (by omega), Nat.sub_add_cancel (by omega)]
  · -- The old middle has moved to the place of the new one.
    rw [hmid, hget, if_neg (by omega), if_neg (by omega),
      show (cells.length - 1) / 2 = cells.length / 2 - 1 by omega]
  · have hold : l.mid =
        (cells.take pos ++ ([a] ++ cells.drop pos))[cells.length / 2 + 1]?.map Prod.fst := by
      rw [hmid, hget, if_neg (by omega), if_neg (by omega), Nat.add_sub_cancel,
        show (cells.length - 1) / 2 = cells.length / 2 by omega]
    rw [hold, entry_prev w (by omega)]
  · rw [hmid, hget, if_pos (by omega), show (cells.length - 1) / 2 = cells.length / 2 by omega]

/-- `ks_list_insert_at` puts an entry in. -/
theorem Linked.insertAt (data : ℕ) (h : l.Linked cells lost) (hiter : l.iterActive = false)
    (hpos : pos ≤ cells.length) (hlen : cells.length + 1 < 2 ^ 24) (hstart : start ∉ l.heap) :
    ∃ p l', l.insertAt data pos start = .ok (1, l') ∧
      l'.Linked (cells.take pos ++ ([(p, data)] ++ cells.drop pos)) lost ∧ l.Keeps l' := by
  obtain ⟨p, l₁, hnew, h₁, hk⟩ := newEntry_spec h hstart
  have hnot : ¬(l.iterActive = true ∨ l.numels < pos) := by
    rw [hiter, h.numels]
    simpa using hpos
  rw [KsList.insertAt, if_neg hnot, hnew]
  dsimp only
  -- The data is stored.
  obtain ⟨g₁, hu₁, w₁, hdata⟩ := (h₁.wired.perm List.perm_middle).setRest data
  rw [modify_eq hu₁, ok_bind]
  have h₂ : Linked { l₁ with heap := g₁ } cells (p :: lost) :=
    ⟨w₁.perm List.perm_middle.symm, h₁.numels, h₁.mid, h₁.spares⟩
  -- The entry is put in between its neighbours.
  obtain ⟨us, b, c, vs, hus, -, hins⟩ := exists_framed l₁ (cells.take pos) (cells.drop pos)
  rw [List.length_take, Nat.min_eq_left hpos] at hus
  have hframed : l₁.framed cells = us ++ b :: c :: vs := by
    have := hins []
    rwa [List.nil_append, List.nil_append, List.take_append_drop] at this
  have hfind := h₂.findpos (by omega) (show pos ≤ cells.length + 1 by omega)
  have hb : (KsList.framed { l₁ with heap := g₁ } cells)[pos]? = some b := by
    rw [show KsList.framed { l₁ with heap := g₁ } cells = us ++ b :: c :: vs from hframed, ← hus]
    simp
  have hc : (KsList.framed { l₁ with heap := g₁ } cells)[pos + 1]? = some c := by
    rw [show KsList.framed { l₁ with heap := g₁ } cells = us ++ b :: c :: vs from hframed, ← hus]
    simp
  rw [hb, Option.map_some] at hfind
  obtain ⟨n, hn, -, hnext, -⟩ := h₂.wired.lookup hb
  rw [hc, Option.map_some] at hnext
  rw [toInt32_sub32 (by omega) (by omega), Nat.cast_one, hfind, ok_bind, entry_eq hn,
    ok_bind, hnext]
  have w₁ := w₁
  rw [hframed] at w₁
  obtain ⟨g₂, g₃, g₄, g₅, hu₂, hu₃, hu₄, hu₅, w₅⟩ := w₁.link hdata
  rw [modify_eq (l := { l₁ with heap := g₁ }) hu₂, ok_bind,
    modify_eq (l := { l₁ with heap := g₂ }) hu₃, ok_bind,
    modify_eq (l := { l₁ with heap := g₃ }) hu₄, ok_bind,
    modify_eq (l := { l₁ with heap := g₄ }) hu₅, ok_bind]
  -- The middle is where it is to be.
  have hw : Wired g₅ (KsList.framed { l₁ with heap := g₅ }
      (cells.take pos ++ ([(p, data)] ++ cells.drop pos))) (l₁.spareels ++ lost) := by
    rw [show KsList.framed { l₁ with heap := g₅ } _ = us ++ b :: ([(p, data)] ++ c :: vs) from
      hins [(p, data)]]
    exact w₅
  have hnum : incr32 l₁.numels = cells.length + 1 := by
    rw [h₁.numels, incr32_of_lt (by omega)]
  have hmid := mid_insert (l := { l₁ with heap := g₅ }) hw h₁.mid hpos (by omega)
  have hlen' : (cells.take pos ++ ([(p, data)] ++ cells.drop pos)).length = cells.length + 1 := by
    simp only [List.length_append, List.length_take, List.length_drop, List.length_singleton]
    omega
  dsimp only
  rw [hnum, hmid, ok_bind]
  have hl' : Linked { l₁ with heap := g₅, numels := cells.length + 1, mid := _ }
      (cells.take pos ++ ([(p, data)] ++ cells.drop pos)) lost :=
    ⟨hw, hlen'.symm, by rw [hlen', Nat.add_sub_cancel], h₁.spares⟩
  refine ⟨p, _, ?_, hl', ⟨hk.headSentinel, hk.tailSentinel, hk.iterActive, hk.iterPos,
    hk.iterCurentry, hk.comparator, hk.seeker⟩⟩
  rw [hl'.checked (by omega)]
  rfl

/-! ## Entries taken out -/

/-- Where the cells are after one has been taken out. -/
theorem getElem?_remove (i : ℕ) :
    (xs ++ ys)[i]? = if i < xs.length then (xs ++ a :: ys)[i]? else (xs ++ a :: ys)[i + 1]? := by
  split_ifs with h
  · rw [List.getElem?_append_left h, List.getElem?_append_left h]
  · rw [List.getElem?_append_right (by omega), List.getElem?_append_right (by omega),
      show i + 1 - xs.length = i - xs.length + 1 by omega, List.getElem?_cons_succ]

/-- The middle for when an entry has been taken out. -/
theorem Linked.midDropped (h : l.Linked (xs ++ a :: ys) lost) :
    l.midDropped xs.length = .ok ((xs ++ ys)[((xs ++ ys).length - 1) / 2]?.map Prod.fst) := by
  have hnum := h.numels
  have hmid := h.mid
  have hlen : (xs ++ a :: ys).length = xs.length + ys.length + 1 := by
    rw [List.length_append, List.length_cons]
    omega
  rw [hlen] at hnum hmid
  rw [KsList.midDropped, hnum, List.length_append, getElem?_remove (a := a)]
  by_cases hodd : (xs.length + ys.length + 1) % 2 = 1
  · rw [if_pos hodd]
    by_cases hone : xs.length + ys.length + 1 = 1
    · obtain rfl : xs = [] := List.length_eq_zero_iff.1 (by omega)
      obtain rfl : ys = [] := List.length_eq_zero_iff.1 (by omega)
      rfl
    · rw [if_neg hone]
      by_cases hle : (xs.length + ys.length + 1) / 2 ≤ xs.length
      · -- The new middle is in front of the old one.
        have hold : l.mid =
            (xs ++ a :: ys)[(xs.length + ys.length - 1) / 2 + 1]?.map Prod.fst := by
          rw [hmid, show (xs.length + ys.length + 1 - 1) / 2 =
            (xs.length + ys.length - 1) / 2 + 1 by omega]
        rw [if_pos hle, if_pos (by omega), hold, entry_prev h.wired (by omega)]
      · rw [if_neg hle, if_neg (by omega), hmid, show (xs.length + ys.length + 1 - 1) / 2 =
          (xs.length + ys.length - 1) / 2 + 1 by omega]
  · rw [if_neg hodd]
    have hold : l.mid = (xs ++ a :: ys)[(xs.length + ys.length - 1) / 2]?.map Prod.fst := by
      rw [hmid, show (xs.length + ys.length + 1 - 1) / 2 =
        (xs.length + ys.length - 1) / 2 by omega]
    by_cases hlt : xs.length < (xs.length + ys.length + 1) / 2
    · rw [if_pos hlt, if_neg (by omega), hold, entry_next h.wired (by omega)]
    · rw [if_neg hlt, if_pos (by omega), hold]

/-- A spare entry is one more, or is freed. -/
theorem retire_spec (w : Wired l.heap cells (p :: (l.spareels ++ lost)))
    (hspares : l.spareels.length ≤ maxSpareElems) :
    ∃ spares heap, l.retire (some p) = .ok { l with spareels := spares, heap } ∧
      Wired heap cells (spares ++ lost) ∧ spares.length ≤ maxSpareElems := by
  rw [retire]
  split_ifs with hlt
  · refine ⟨l.spareels ++ [p], l.heap, rfl, ?_, ?_⟩
    · rw [List.append_assoc]
      exact w.perm List.perm_middle.symm
    · rw [List.length_append, List.length_singleton]
      exact hlt
  · refine ⟨l.spareels, l.heap.erase p, ?_, w.erase, hspares⟩
    rw [KsList.free, if_pos ((w.mem p).2 (by simp))]

/-- `ks_list_drop_elem` takes an entry out. -/
theorem Linked.dropElem (h : l.Linked (xs ++ a :: ys) lost) :
    ∃ l', l.dropElem (some a.1) xs.length = .ok l' ∧ l'.numels = l.numels ∧
      l.Keeps l' ∧ Linked { l' with numels := decr32 l.numels } (xs ++ ys) lost := by
  obtain ⟨us, b, c, vs, hlen, -, hframed⟩ := exists_framed l xs ys
  have w := h.wired
  rw [show l.framed (xs ++ a :: ys) = us ++ b :: ([a] ++ c :: vs) from hframed [a]] at w
  -- The entry leads to its neighbours.
  have ha : (us ++ b :: ([a] ++ c :: vs))[us.length + 1]? = some a := by simp
  obtain ⟨n, hn, -, hnext, hprev⟩ := w.lookup ha
  have hc : (us ++ b :: ([a] ++ c :: vs))[us.length + 1 + 1]? = some c := by
    rw [List.getElem?_append_right (by omega), show us.length + 1 + 1 - us.length = 2 by omega]
    rfl
  have hb : (us ++ b :: ([a] ++ c :: vs))[us.length]? = some b := by simp
  rw [hc, Option.map_some] at hnext
  have hprev := hprev us.length rfl
  rw [hb, Option.map_some] at hprev
  obtain ⟨h₁, h₂, hu₁, hu₂, w₂⟩ := w.cut .rfl (.inl rfl) (show ([a].map Prod.fst ++
    (l.spareels ++ lost)).Perm ([] ++ (a.1 :: (l.spareels ++ lost))) by simp)
  have hn₁ : h₁.lookup a.1 = some n := by
    have w := w
    rw [Heap.lookup_of_update hu₁, if_neg, hn]
    exact (w.ne a.1 (by simp))
  have hdropped := h.midDropped
  generalize hmid : (xs ++ ys)[((xs ++ ys).length - 1) / 2]?.map Prod.fst = mid at hdropped
  rw [KsList.dropElem, if_neg (by simp), hdropped, ok_bind, entry_eq hn, ok_bind, hprev, hnext,
    modify_eq (l := { l with mid }) hu₁, ok_bind, entry_eq (l := { l with mid, heap := h₁ }) hn₁,
    ok_bind, hprev, hnext, modify_eq (l := { l with mid, heap := h₁ }) hu₂, ok_bind]
  obtain ⟨spares, heap, hret, w₃, hle⟩ :=
    retire_spec (l := { l with mid, heap := h₂ }) w₂ h.spares
  have hw : Wired heap (l.framed (xs ++ ys)) (spares ++ lost) := by
    rw [show l.framed (xs ++ ys) = us ++ b :: ([] ++ c :: vs) from hframed []]
    exact w₃
  have hnum : decr32 l.numels = (xs ++ ys).length := by
    rw [h.numels, decr32_of_pos (by simp), List.length_append, List.length_append,
      List.length_cons]
    omega
  exact ⟨_, hret, rfl, ⟨rfl, rfl, rfl, rfl, rfl, rfl, rfl⟩, ⟨hw, hnum, hmid.symm, hle⟩⟩

theorem Linked.findpos_at (h : l.Linked (xs ++ a :: ys) lost)
    (hlen : (xs ++ a :: ys).length < 2 ^ 24) :
    l.findpos (toInt32 xs.length) = .ok (some a.1) := by
  have hlt : xs.length < (xs ++ a :: ys).length := by simp
  have hfind := h.findpos hlen (show xs.length + 1 ≤ (xs ++ a :: ys).length + 1 by omega)
  rw [toInt32_of_lt (by omega)]
  rwa [framed_succ hlt, List.getElem?_append_right (Nat.le_refl _), Nat.sub_self,
    List.getElem?_cons_zero, Option.map_some, Nat.cast_succ,
    Int.add_sub_cancel] at hfind

/-- The end of a function that has taken an entry out. -/
theorem Linked.dropped (h : l.Linked (xs ++ a :: ys) lost)
    (hlen : (xs ++ a :: ys).length < 2 ^ 24) :
    ∃ l' l'', l.dropElem (some a.1) xs.length = .ok l' ∧
      KsList.checked { l' with numels := decr32 l'.numels } = .ok l'' ∧
      l''.Linked (xs ++ ys) lost ∧ l.Keeps l'' := by
  obtain ⟨l', hdrop, hnum, hk, hl'⟩ := h.dropElem
  rw [← hnum] at hl'
  rw [List.length_append, List.length_cons] at hlen
  have hcheck := hl'.checked (by rw [List.length_append]; omega)
  exact ⟨l', _, hdrop, hcheck, hl', ⟨hk.headSentinel, hk.tailSentinel, hk.iterActive, hk.iterPos,
    hk.iterCurentry, hk.comparator, hk.seeker⟩⟩

/-- `ks_list_delete_at` takes out the entry at a position. -/
theorem Linked.deleteAt (h : l.Linked (xs ++ a :: ys) lost) (hiter : l.iterActive = false)
    (hlen : (xs ++ a :: ys).length < 2 ^ 24) :
    ∃ l', l.deleteAt xs.length = .ok (0, l') ∧ l'.Linked (xs ++ ys) lost ∧ l.Keeps l' := by
  obtain ⟨l', l'', hdrop, hcheck, hl'', hk⟩ := h.dropped hlen
  have hnot : ¬(l.iterActive = true ∨ l.numels ≤ xs.length) := by
    rw [hiter, h.numels]
    simp
  refine ⟨l'', ?_, hl'', hk⟩
  rw [KsList.deleteAt, if_neg hnot, h.findpos_at hlen, ok_bind, hdrop, ok_bind, hcheck]
  rfl

/-- `ks_list_extract_at` takes out the entry at a position, and gives its data. -/
theorem Linked.extractAt (h : l.Linked (xs ++ a :: ys) lost) (hiter : l.iterActive = false)
    (hlen : (xs ++ a :: ys).length < 2 ^ 24) :
    ∃ l', l.extractAt xs.length = .ok (a.2, l') ∧ l'.Linked (xs ++ ys) lost ∧ l.Keeps l' := by
  have hnot : ¬(l.iterActive = true ∨ l.numels ≤ xs.length) := by
    rw [hiter, h.numels]
    simp
  have hcell : (l.framed (xs ++ a :: ys))[xs.length + 1]? = some a := by
    rw [framed_succ (by simp), List.getElem?_append_right (Nat.le_refl _), Nat.sub_self,
    List.getElem?_cons_zero]
  obtain ⟨n, hn, hdata, -⟩ := h.wired.lookup hcell
  -- The data is taken out of the entry first.
  have hframed (d : ℕ) : l.framed (xs ++ (a.1, d) :: ys) =
      ((l.headSentinel, 0) :: xs) ++ (a.1, d) :: (ys ++ [(l.tailSentinel, 0)]) := by
    rw [framed, List.append_assoc]
    rfl
  have w := h.wired
  rw [show l.framed (xs ++ a :: ys) = _ from hframed a.2] at w
  obtain ⟨h', hu, w'⟩ := w.setData 0
  rw [← hframed 0] at w'
  have h₁ : Linked { l with heap := h' } (xs ++ (a.1, 0) :: ys) lost := by
    refine ⟨w', ?_, ?_, h.spares⟩
    · rw [List.length_append, List.length_cons]
      have := h.numels
      rwa [List.length_append, List.length_cons] at this
    · have := h.mid
      rw [← List.getElem?_map, List.map_append, List.length_append] at this ⊢
      exact this
  obtain ⟨l', l'', hdrop, hcheck, hl'', hk⟩ := h₁.dropped (by simpa using hlen)
  refine ⟨l'', ?_, hl'', ⟨hk.headSentinel, hk.tailSentinel, hk.iterActive, hk.iterPos,
    hk.iterCurentry, hk.comparator, hk.seeker⟩⟩
  rw [KsList.extractAt, if_neg hnot, h.findpos_at hlen, ok_bind, entry_eq hn, ok_bind, modify_eq hu,
    ok_bind, hdrop, ok_bind, hcheck, hdata]
  rfl

/-- `ks_list_delete_iterator` takes out the entry in front of `iter_pos`. -/
theorem Linked.deleteIterator (h : l.Linked (xs ++ a :: ys) lost) (hiter : l.iterActive = true)
    (hpos : l.iterPos = xs.length + 1) (hlen : (xs ++ a :: ys).length < 2 ^ 24) :
    ∃ l', l.deleteIterator = .ok (0, l') ∧ l'.Linked (xs ++ ys) lost ∧ l.Keeps l' := by
  obtain ⟨l', l'', hdrop, hcheck, hl'', hk⟩ := h.dropped hlen
  rw [List.length_append, List.length_cons] at hlen
  have hnot : ¬((!l.iterActive) = true ∨ l.numels < l.iterPos) := by
    rw [hiter, h.numels, hpos]
    simp
  refine ⟨l'', ?_, hl'', hk⟩
  rw [KsList.deleteIterator, if_neg hnot, hpos, sub32_of_le (by omega) (by omega),
    Nat.add_sub_cancel]
  dsimp only
  rw [h.findpos_at (by simpa using hlen), ok_bind, hdrop, ok_bind, hcheck]
  rfl

/-! ## Ranges -/

variable {h₀ : Heap ListEntry} {gone : List ℕ} {o : Option ℕ}

/-- The entry of a cell that has not been freed. -/
theorem lookup_of_shed (w : Wired h₀ cells rest) (s : Shed h₀ l.heap gone o) {i : ℕ}
    (ha : cells[i]? = some a) (hg : a.1 ∉ gone) :
    ∃ n, l.heap.lookup a.1 = some n ∧ n.next = cells[i + 1]?.map Prod.fst ∧
      (o ≠ some a.1 → ∀ j, i = j + 1 → n.prev = cells[j]?.map Prod.fst) := by
  obtain ⟨n₀, hn₀, -, hnext, hprev⟩ := w.lookup ha
  have hin : a.1 ∈ l.heap := (s.mem a.1).2 ⟨Finmap.mem_iff.2 ⟨n₀, hn₀⟩, hg⟩
  obtain ⟨n, hn⟩ := Finmap.mem_iff.1 hin
  have hnext' := s.next a.1 hg
  rw [Heap.link_eq hn, Heap.link_eq hn₀, hnext] at hnext'
  refine ⟨n, hn, hnext', fun ho j hj => ?_⟩
  have hprev' := s.prev a.1 hg ho
  rwa [Heap.link_eq hn, Heap.link_eq hn₀, hprev j hj] at hprev'

/-- The loop of `ks_list_delete_range` takes the entries `ms` out. -/
theorem retireFrom_spec (w : Wired h₀ (xs ++ (ms ++ c :: ys)) rest) (s : Shed h₀ l.heap gone none)
    (hg : ∀ m ∈ ms, m.1 ∉ gone) (hspares : l.spareels.length ≤ maxSpareElems) :
    ∃ heap spares gone',
      l.retireFrom ms.length ((ms ++ c :: ys).head?.map Prod.fst) =
        .ok (some c.1, { l with heap, spareels := spares }) ∧
      Shed h₀ heap gone' none ∧ spares.length ≤ maxSpareElems ∧
      (ms.map Prod.fst ++ (l.spareels ++ gone)).Perm (spares ++ gone') := by
  induction ms generalizing xs l gone with
  | nil => exact ⟨l.heap, l.spareels, gone, rfl, s, hspares, .rfl⟩
  | cons m ms ih =>
    obtain ⟨n, hn, hnext, -⟩ := lookup_of_shed (i := xs.length) w s (a := m) (by simp)
      (hg m (by simp))
    have hhead : n.next = (ms ++ c :: ys).head?.map Prod.fst := by
      rw [hnext, List.getElem?_append_right (by omega), Nat.add_sub_cancel_left]
      simp [List.head?_eq_getElem?]
    rw [List.length_cons, retireFrom, List.cons_append, List.head?_cons, Option.map_some,
      entry_eq hn, ok_bind, hhead, retire]
    have w' := w
    rw [List.cons_append, List.append_cons] at w'
    by_cases hlt : l.spareels.length < maxSpareElems
    · -- The entry is a spare one.
      obtain ⟨heap, spares, gone', hrun, s', hle, hperm⟩ :=
        ih (l := { l with spareels := l.spareels ++ [m.1] }) w' s
          (fun x hx => hg x (List.mem_cons_of_mem m hx))
          (by rw [List.length_append, List.length_singleton]; exact hlt)
      refine ⟨heap, spares, gone', ?_, s', hle, ?_⟩
      · rw [if_pos hlt, spare, ok_bind, hrun]
      · refine .trans ?_ hperm
        rw [List.map_cons, List.append_assoc, List.singleton_append]
        exact List.perm_middle.symm.trans (.append_left _ List.perm_middle.symm)
    · -- It is freed.
      have hin : m.1 ∈ l.heap := Finmap.mem_iff.2 ⟨n, hn⟩
      have hne : ∀ x ∈ ms, x.1 ≠ m.1 := fun x hx =>
        w.ne x.1 (List.mem_append_left _ (List.mem_map_of_mem (by simp [hx])))
      obtain ⟨heap, spares, gone', hrun, s', hle, hperm⟩ :=
        ih (l := { l with heap := l.heap.erase m.1 }) w' s.erase
          (fun x hx => by simp [hne x hx, hg x (List.mem_cons_of_mem m hx)]) hspares
      refine ⟨heap, spares, gone', ?_, s', hle, ?_⟩
      · rw [if_neg hlt, free, if_pos hin, ok_bind, hrun]
      · refine .trans ?_ hperm
        rw [List.map_cons]
        exact List.perm_middle.symm.trans (.append_left _ List.perm_middle.symm)

/-- The first loop of `ks_list_clear` keeps the entries `ks`. -/
theorem spareFrom_spec {k : ℕ} (w : Wired l.heap (xs ++ (ms ++ c :: ys)) rest)
    (hc : c.1 = l.tailSentinel) (hspares : l.spareels.length ≤ maxSpareElems)
    (hfuel : ms.length < k) :
    ∃ ks rs, ms = ks ++ rs ∧ l.spareFrom k ((ms ++ c :: ys).head?.map Prod.fst) =
        .ok ((rs ++ c :: ys).head?.map Prod.fst,
          { l with spareels := l.spareels ++ ks.map Prod.fst }) ∧
      (l.spareels ++ ks.map Prod.fst).length ≤ maxSpareElems := by
  induction k generalizing xs ms l with
  | zero => omega
  | succ k ih =>
    rw [spareFrom]
    cases ms with
    | nil =>
      refine ⟨[], [], rfl, ?_, by simpa using hspares⟩
      rw [if_neg (by simp [hc]), List.map_nil, List.append_nil]
    | cons m ms =>
      have hne : m.1 ≠ c.1 := by
        have hnd := w.nodup
        grind
      by_cases hlt : l.spareels.length < maxSpareElems
      · obtain ⟨n, hn, -, hnext, -⟩ := w.lookup (i := xs.length) (a := m) (by simp)
        have hhead : n.next = (ms ++ c :: ys).head?.map Prod.fst := by
          rw [hnext, List.getElem?_append_right (by omega), Nat.add_sub_cancel_left]
          simp [List.head?_eq_getElem?]
        have w' := w
        rw [List.cons_append, List.append_cons] at w'
        obtain ⟨ks, rs, hms, hrun, hle⟩ :=
          ih (l := { l with spareels := l.spareels ++ [m.1] }) w' hc
            (by rw [List.length_append, List.length_singleton]; exact hlt)
            (Nat.lt_of_succ_lt_succ hfuel)
        refine ⟨m :: ks, rs, by rw [hms, List.cons_append], ?_, by simpa using hle⟩
        rw [List.cons_append, List.head?_cons, Option.map_some,
          if_pos ⟨hlt, fun heq => hne (by rw [hc]; exact Option.some.inj heq)⟩, entry_eq hn,
          ok_bind, spare, ok_bind, hhead, hrun]
        simp
      · refine ⟨[], m :: ms, rfl, ?_, by simpa using hspares⟩
        rw [if_neg (fun hand => hlt hand.1), List.map_nil, List.append_nil]

/-- Its second loop frees the entries `ms`. -/
theorem freeFrom_spec {k : ℕ} (w : Wired h₀ (xs ++ (ms ++ c :: ys)) rest)
    (s : Shed h₀ l.heap gone o) (hc : c.1 = l.tailSentinel)
    (ho : o = none ∨ o = (ms ++ c :: ys).head?.map Prod.fst)
    (hg : ∀ m ∈ ms ++ [c], m.1 ∉ gone) (hfuel : ms.length < k) :
    ∃ heap gone' o', l.freeFrom k ((ms ++ c :: ys).head?.map Prod.fst) =
        .ok { l with heap } ∧ Shed h₀ heap gone' o' ∧ (o' = none ∨ o' = some c.1) ∧
      (ms.map Prod.fst ++ gone).Perm gone' := by
  induction k generalizing xs ms l gone o with
  | zero => omega
  | succ k ih =>
    rw [freeFrom]
    cases ms with
    | nil => exact ⟨l.heap, gone, o, by rw [if_neg (by simp [hc])], s, ho, .rfl⟩
    | cons m ms =>
      obtain ⟨m', hm', hhead⟩ : ∃ m' ∈ ms ++ [c], (ms ++ c :: ys).head? = some m' := by
        cases ms <;> exact ⟨_, by simp, rfl⟩
      have hne (x : ℕ × ℕ) (hx : x ∈ ms ++ [c]) : x.1 ≠ m.1 := by
        have hsub : x ∈ xs ++ (ms ++ c :: ys) := by grind
        exact w.ne x.1 (List.mem_append_left _ (List.mem_map_of_mem hsub))
      have hcell : (xs ++ (m :: ms ++ c :: ys))[xs.length]? = some m := by simp
      have hcell' : (xs ++ (m :: ms ++ c :: ys))[xs.length + 1]? = some m' := by
        rw [List.getElem?_append_right (by omega), Nat.add_sub_cancel_left, ← hhead]
        simp [List.head?_eq_getElem?]
      -- The next entry leads back to this one.
      obtain ⟨n, hn, hnext, -⟩ := lookup_of_shed w s hcell (hg m (by simp))
      obtain ⟨n', hn', -, hprev⟩ := lookup_of_shed w s hcell' (hg m' (by grind))
      have ho' : o ≠ some m'.1 := by
        rcases ho with rfl | rfl
        · simp
        · exact fun heq => hne m' hm' (Option.some.inj heq).symm
      have hprev := hprev ho' xs.length rfl
      rw [hcell', Option.map_some] at hnext
      rw [hcell, Option.map_some] at hprev
      -- It is freed, and the link back cut.
      have hin : m'.1 ∈ l.heap.erase m.1 :=
        Finmap.mem_erase.2 ⟨hne m' hm', Finmap.mem_iff.2 ⟨n', hn'⟩⟩
      obtain ⟨h', hu, s'⟩ := (s.erase (p := m.1)).exists_setPrev (fun q hq => by
        rcases ho with rfl | rfl
        · nomatch hq
        · rw [← Option.some.inj hq]
          simp) hin
      have w' := w
      rw [List.cons_append, List.append_cons] at w'
      obtain ⟨heap, gone', o', hrun, s'', ho'', hperm⟩ := ih (l := { l with heap := h' }) w' s' hc
        (.inr (by rw [hhead, Option.map_some]))
        (fun x hx => by simp [hne x hx, hg x (by simp at hx ⊢; tauto)])
        (Nat.lt_of_succ_lt_succ hfuel)
      refine ⟨heap, gone', o', ?_, s'', ho'', ?_⟩
      · rw [List.cons_append, List.head?_cons, Option.map_some,
          if_pos (fun heq => hne c (by simp) (by rw [hc]; exact (Option.some.inj heq).symm)),
          entry_eq hn, ok_bind, hnext]
        dsimp only
        rw [entry_eq hn', ok_bind, hprev, free, if_pos (Finmap.mem_iff.2 ⟨n, hn⟩), ok_bind,
          modify_eq (l := { l with heap := l.heap.erase m.1 }) hu, ok_bind]
        rwa [hhead, Option.map_some] at hrun
      · exact List.perm_middle.symm.trans hperm

/-- `ks_list_clear` takes all the entries out. -/
theorem Linked.clear (h : l.Linked cells lost) (hiter : l.iterActive = false)
    (hlen : cells.length < 2 ^ 31) :
    ∃ l', l.clear = .ok (cells.length, l') ∧ l'.Linked [] lost ∧ l.Keeps l' := by
  have hfuel := h.length_lt_fuel
  obtain ⟨hd, hhd, -, hnext, -⟩ := h.wired.lookup (framed_zero (l := l))
  have hhead : hd.next = (cells ++ (l.tailSentinel, 0) :: []).head?.map Prod.fst := by
    rw [hnext, framed, List.getElem?_cons_succ, List.head?_eq_getElem?]
  -- Some of the entries are kept as spare ones.
  have hall : Wired l.heap ([(l.headSentinel, 0)] ++ (cells ++ (l.tailSentinel, 0) :: []))
      (l.spareels ++ lost) := h.wired
  obtain ⟨ks, rs, rfl, hspare, hle⟩ := spareFrom_spec (k := l.fuel) hall rfl h.spares (by omega)
  rw [List.length_append] at hfuel
  -- The others are freed.
  have w : Wired l.heap ([] ++ (l.headSentinel, 0) :: (ks ++ rs ++ (l.tailSentinel, 0) :: []))
      (l.spareels ++ lost) := h.wired
  have hw : Wired l.heap ((l.headSentinel, 0) :: ks ++ (rs ++ (l.tailSentinel, 0) :: []))
      (l.spareels ++ lost) := by
    rwa [List.append_assoc] at w
  obtain ⟨heap, gone, o, hfree, s, ho, hperm⟩ := freeFrom_spec
    (l := { l with spareels := l.spareels ++ ks.map Prod.fst }) (k := l.fuel) hw
    .rfl rfl (.inl rfl) (fun _ _ => List.not_mem_nil) (by omega)
  rw [List.append_nil] at hperm
  -- The sentinels are linked.
  have hrest : ((ks ++ rs).map Prod.fst ++ (l.spareels ++ lost)).Perm
      (gone ++ (l.spareels ++ ks.map Prod.fst ++ lost)) := by
    rw [List.perm_iff_count]
    intro q
    have := hperm.count_eq q
    simp only [List.map_append, List.count_append]
    omega
  obtain ⟨h₁, h₂, hu₁, hu₂, w₂⟩ := w.cut s ho hrest
  have h' : KsList.Linked
      { l with
        spareels := l.spareels ++ ks.map Prod.fst
        heap := h₂
        numels := 0
        mid := none } [] lost := ⟨w₂, rfl, rfl, hle⟩
  refine ⟨_, ?_, h', ⟨rfl, rfl, rfl, rfl, rfl, rfl, rfl⟩⟩
  rw [KsList.clear, if_neg (by simp [hiter]), h.toInt32_numels hlen]
  dsimp only
  rw [entry_eq hhd, ok_bind, hhead, hspare, ok_bind]
  dsimp only
  rw [show KsList.fuel { l with spareels := l.spareels ++ ks.map Prod.fst } = l.fuel from rfl,
    hfree, ok_bind, modify_eq hu₁, ok_bind, modify_eq hu₂, ok_bind, h'.checked (by simp)]
  rfl

/-- `ks_list_delete_range` moves the middle to where it is to be. -/
theorem Linked.midMoved (h : l.Linked (xs ++ (ms ++ ys)) lost)
    (hlen : (xs ++ (ms ++ ys)).length < 2 ^ 31) (hne : xs ++ ys ≠ []) {k : ℕ}
    (hk : k = (xs.length + ys.length - 1) / 2) :
    l.midMoved (toInt32 (sub32 (if k < xs.length then k else k + ms.length)
        (((xs ++ (ms ++ ys)).length - 1) / 2))) =
      .ok ((xs ++ ys)[((xs ++ ys).length - 1) / 2]?.map Prod.fst) := by
  have hpos : 0 < xs.length + ys.length := by
    rw [← List.length_append]
    exact List.length_pos_iff.2 hne
  have hall : (xs ++ (ms ++ ys)).length = xs.length + ms.length + ys.length := by
    rw [List.length_append, List.length_append]
    omega
  -- The new middle is one of the entries that are left.
  have hto : (xs ++ ys)[k]? =
      (xs ++ (ms ++ ys))[if k < xs.length then k else k + ms.length]? := by
    split_ifs with hlt
    · rw [List.getElem?_append_left hlt, List.getElem?_append_left hlt]
    · rw [List.getElem?_append_right (by omega), List.getElem?_append_right (by omega),
        List.getElem?_append_right (by omega)]
      congr 1
      omega
  have hto' : (if k < xs.length then k else k + ms.length) < xs.length + ms.length + ys.length := by
    split_ifs <;> omega
  rw [show ((xs ++ ys).length - 1) / 2 = k by rw [hk, List.length_append], hto]
  generalize (if k < xs.length then k else k + ms.length) = j at hto'
  rw [toInt32_sub32 (by omega) (by omega), KsList.midMoved, h.mid]
  generalize hi : ((xs ++ (ms ++ ys)).length - 1) / 2 = i
  have hi' : i < (xs ++ (ms ++ ys)).length := by omega
  have hj : j < (xs ++ (ms ++ ys)).length := by omega
  rw [← framed_succ (l := l) hi', ← framed_succ (l := l) hj]
  split_ifs with hlt
  · rw [h.wired.walk_next (by rw [length_framed]; omega),
      show i + 1 + ((j : ℤ) - i).toNat = j + 1 by omega]
  · rw [h.wired.walk_prev (by rw [length_framed]; omega) (by omega),
      show i + 1 - (-((j : ℤ) - i)).toNat = j + 1 by omega]

/-- `ks_list_delete_range` takes out the entries of a range. -/
theorem Linked.deleteRange (h : l.Linked (xs ++ (ms ++ ys)) lost) (hiter : l.iterActive = false)
    (hlen : (xs ++ (ms ++ ys)).length < 2 ^ 24) (hms : ms ≠ []) :
    ∃ l', l.deleteRange xs.length (xs.length + ms.length - 1) = .ok (ms.length, l') ∧
      l'.Linked (xs ++ ys) lost ∧ l.Keeps l' := by
  have hpos := List.length_pos_iff.2 hms
  have hall : (xs ++ (ms ++ ys)).length = xs.length + ms.length + ys.length := by
    rw [List.length_append, List.length_append]
    omega
  have hnot : ¬(l.iterActive = true ∨ xs.length + ms.length - 1 < xs.length ∨
      l.numels ≤ xs.length + ms.length - 1) := by
    rw [hiter, h.numels, hall]
    simp only [Bool.false_eq_true, false_or, not_or]
    omega
  rw [KsList.deleteRange, if_neg hnot,
    show xs.length + ms.length - 1 - xs.length + 1 = ms.length by omega]
  dsimp only
  by_cases hwhole : ms.length = l.numels
  · -- The range is the whole list.
    rw [h.numels, hall] at hwhole
    obtain rfl : xs = [] := List.length_eq_zero_iff.1 (by omega)
    obtain rfl : ys = [] := List.length_eq_zero_iff.1 (by omega)
    rw [if_pos (by rw [h.numels]; simp)]
    rw [List.append_nil, List.nil_append] at h
    exact h.clear hiter (by simp at hlen; omega)
  · rw [if_neg hwhole]
    have hne : xs ++ ys ≠ [] := by
      intro hnil
      obtain ⟨rfl, rfl⟩ := List.append_eq_nil_iff.1 hnil
      exact hwhole (by rw [h.numels]; simp)
    obtain ⟨us, b, c, vs, hus, hhead, hframed⟩ := exists_framed l xs ys
    have w := h.wired
    rw [hframed ms] at w
    obtain ⟨m, ms', rfl⟩ := List.exists_cons_of_ne_nil hms
    -- The first entry of the range, and the last one in front of it.
    obtain ⟨n, hn, -, -, hprev⟩ := w.lookup (i := us.length + 1) (a := m) (by simp)
    have hprev := hprev us.length rfl
    rw [List.getElem?_append_right (Nat.le_refl _), Nat.sub_self, List.getElem?_cons_zero,
      Option.map_some] at hprev
    have hlast : xs.length = 0 ∨ some b.1 ≠ some l.headSentinel := by
      refine or_iff_not_imp_left.2 fun hxs heq => ?_
      have hmem := hhead (Nat.pos_of_ne_zero hxs)
      exact w.ne l.headSentinel (List.mem_append_left _
        (List.mem_map.2 ⟨_, List.mem_append_left _ hmem, rfl⟩)) (Option.some.inj heq).symm
    have hmid := h.midMoved (by omega) hne rfl
    rw [← h.numels] at hmid
    generalize hm : (xs ++ ys)[((xs ++ ys).length - 1) / 2]?.map Prod.fst = mid at hmid
    -- The entries are taken out.
    have w' := w
    rw [List.append_cons] at w'
    obtain ⟨heap, spares, gone, hrun, s, hle, hperm⟩ :=
      retireFrom_spec (l := { l with mid }) w' .rfl (fun _ _ => List.not_mem_nil) h.spares
    have hrest : ((m :: ms').map Prod.fst ++ (l.spareels ++ lost)).Perm
        (gone ++ (spares ++ lost)) := by
      rw [List.perm_iff_count]
      intro q
      have := hperm.count_eq q
      simp only [List.count_append, List.count_nil] at this ⊢
      omega
    obtain ⟨h₁, h₂, hu₁, hu₂, w₂⟩ := w.cut s (.inl rfl) hrest
    have hnum : sub32 l.numels (m :: ms').length = (xs ++ ys).length := by
      rw [h.numels, hall, sub32_of_le (by omega) (by omega), List.length_append]
      omega
    have h' : KsList.Linked
        { l with
          mid
          heap := h₂
          spareels := spares
          numels := sub32 l.numels (m :: ms').length } (xs ++ ys) lost := by
      refine ⟨?_, hnum, hm.symm, hle⟩
      have := hframed []
      rw [List.nil_append, List.nil_append] at this
      rw [← this] at w₂
      exact w₂
    refine ⟨_, ?_, h', ⟨rfl, rfl, rfl, rfl, rfl, rfl, rfl⟩⟩
    have hfind : l.findpos (toInt32 xs.length) = .ok (some m.1) := by
      rw [List.cons_append] at h
      exact h.findpos_at (by simpa using hlen)
    have hk : (l.numels - 1 - (m :: ms').length) / 2 = (xs.length + ys.length - 1) / 2 := by
      rw [h.numels, hall]
      omega
    rw [hfind, ok_bind, entry_eq hn, ok_bind, hprev, hk, hmid, ok_bind,
      if_neg (not_not.2 hlast)]
    rw [List.cons_append, List.head?_cons, Option.map_some] at hrun
    rw [hrun, ok_bind]
    dsimp only
    rw [modify_eq (l := { l with mid, heap, spareels := spares }) hu₁, ok_bind]
    dsimp only
    rw [modify_eq (l := { l with mid, heap := h₁, spareels := spares }) hu₂, ok_bind]
    dsimp only
    rw [h'.checked (by rw [← hnum, h.numels, hall, sub32_of_le (by omega) (by omega)]; omega)]
    rfl

end KsList

end Libks
