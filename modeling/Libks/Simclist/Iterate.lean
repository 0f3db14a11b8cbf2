import Libks.Simclist.Store
import Mathlib.Data.Finset.Range

/-!
# Deletions in an iteration

A caller goes through a list and deletes the elements that it does not want
(`KsList.deleteWhere`), with `ks_list_iterator_next` and `ks_list_delete_iterator`. The
latter leaves `iter_pos` as it is, although there is one element less in front of the
iteration. From then on `iter_pos` is one too high: the last element is not visited, and a
second deletion takes out the element behind the one that is meant, or fails to find where
the iteration goes on.

So the loop deletes what it is to delete if and only if that is no more than one element
(`KsList.deleteWhere_iff`). This holds of lists with fewer than `2 ^ 24` elements (`Holds.few`),
where the quotients of `ks_list_findpos`, which are `float`s, say which half a place is in.
-/

namespace Libks

open Base

namespace KsList

variable {l l' : KsList} {m : ListModel} {cells cells' : List (ℕ × ℕ)} {p : ℕ → Bool} {c k : ℕ}
  {lost lost' : List ℕ}

/-- The element that has been visited is deleted if it has `p`. -/
def deleteIf (l : KsList) (p : ℕ → Bool) (d : ℕ) : Except Fault KsList :=
  if p d then Prod.snd <$> l.deleteIterator else .ok l

/-- The loop of a caller that deletes the elements with `p`. -/
def deleteLoop (p : ℕ → Bool) : ℕ → KsList → Except Fault KsList
  | 0, _ => .error .outOfFuel
  | fuel + 1, l =>
    if l.iteratorHasnext then do
      let (d, l) ← l.iteratorNext
      let l ← l.deleteIf p d
      deleteLoop p fuel l
    else .ok l

/-- A caller goes through the list, and deletes the elements with `p`. -/
def deleteWhere (l : KsList) (p : ℕ → Bool) : Except Fault KsList := do
  let (_, l) ← l.iteratorStart
  let l ← deleteLoop p (l.numels + 1) l
  return l.iteratorStop.2

/-! ## One element at most -/

/-- The loop goes on as long as there are elements behind `iter_pos`. -/
theorem Holds.hasnext_iff (h : l.Holds cells m) (hc : m.cursor = some c) :
    l.iteratorHasnext ↔ m.iterPos c < m.items.length := by
  rw [iteratorHasnext, h.active, h.numels, (h.cursor c hc).2.2, hc]
  simp

theorem le_iterPos (m : ListModel) (c : ℕ) : c ≤ m.iterPos c := by
  rw [ListModel.iterPos]
  split_ifs <;> omega

/-- A round of the loop. -/
theorem deleteLoop_succ {d : ℕ} {l₁ l₂ : KsList} (hhas : l.iteratorHasnext)
    (hvisit : l.iteratorNext = .ok (d, l₁)) (hdelete : l₁.deleteIf p d = .ok l₂) :
    deleteLoop p (k + 1) l = deleteLoop p k l₂ := by
  rw [deleteLoop, if_pos hhas, hvisit, ok_bind]
  dsimp only
  rw [hdelete, ok_bind]

theorem deleteIf_false {d : ℕ} (hp : p d = false) : l.deleteIf p d = .ok l := by
  rw [deleteIf, if_neg (by simp [hp])]

theorem deleteIf_true {d : ℕ} {r : ℤ} (hp : p d = true) (hrun : l.deleteIterator = .ok (r, l')) :
    l.deleteIf p d = .ok l' := by
  rw [deleteIf, if_pos hp, hrun]
  rfl

/-- The element to visit is the first of those that are left. -/
theorem drop_eq_cons {items : List ℕ} (hlt : c < items.length) :
    items.drop c = items.getD c 0 :: items.drop (c + 1) := by
  rw [List.drop_eq_getElem_cons hlt, List.getD_eq_getElem?_getD, List.getElem?_eq_getElem hlt]
  rfl

/-- Where an element has been deleted is the one behind it. -/
theorem drop_eraseIdx {items : List ℕ} (hlt : c < items.length) :
    (items.eraseIdx c).drop c = items.drop (c + 1) := by
  rw [List.eraseIdx_eq_take_drop_succ, List.drop_left' (by rw [List.length_take]; omega)]

/-- Elements without `p` are left. -/
theorem Holds.deleteLoop_none (h : l.Holds cells m) (hc : m.cursor = some c)
    (hle : c ≤ m.items.length) (hk : m.items.length < c + k)
    (hp : ∀ d ∈ m.items.drop c, p d = false) :
    ∃ l' c', deleteLoop p k l = .ok l' ∧ l'.Holds cells { m with cursor := some c' } := by
  induction k generalizing l m c with
  | zero => omega
  | succ k ih =>
    by_cases hhas : l.iteratorHasnext
    · have hlt := (le_iterPos m c).trans_lt ((h.hasnext_iff hc).1 hhas)
      rw [drop_eq_cons hlt] at hp
      obtain ⟨l₁, hvisit, h₁⟩ := h.visit hc (by rw [← h.length]; exact hle)
      rw [deleteLoop_succ hhas hvisit (deleteIf_false (hp _ (List.mem_cons_self ..)))]
      obtain ⟨l', c', hrun, hl'⟩ := ih h₁ rfl hlt (show m.items.length < c + 1 + k by omega)
        fun d hd => hp d (List.mem_cons_of_mem _ hd)
      exact ⟨l', c', hrun, hl'⟩
    · exact ⟨l, c, by rw [deleteLoop, if_neg hhas], by rw [← hc]; exact h⟩

/-- An element with `p` is deleted, if it is the only one. -/
theorem Holds.deleteLoop_one (h : l.Holds cells m) (hc : m.cursor = some c)
    (hbehind : m.behind = false) (hle : c ≤ m.items.length) (hk : m.items.length < c + k)
    (hp : (m.items.drop c).countP p ≤ 1) :
    ∃ l' cells' c' b, deleteLoop p k l = .ok l' ∧ l'.Holds cells'
      { m with
        items := m.items.take c ++ (m.items.drop c).filter (!p ·)
        cursor := some c'
        behind := b } := by
  induction k generalizing l m c with
  | zero => omega
  | succ k ih =>
    have hpos : m.iterPos c = c := by rw [ListModel.iterPos, hbehind]; rfl
    -- `hasnext` still tells the truth, as nothing was deleted so far
    by_cases hhas : l.iteratorHasnext
    · have hlt := (le_iterPos m c).trans_lt ((h.hasnext_iff hc).1 hhas)
      obtain ⟨l₁, hvisit, h₁⟩ := h.visit hc (by rw [← h.length]; exact hle)
      rw [drop_eq_cons hlt, List.countP_cons] at hp
      rw [drop_eq_cons hlt]
      by_cases hd : p (m.items.getD c 0) = true
      · -- There are no others behind it.
        rw [if_pos hd] at hp
        have hnone : ∀ d ∈ m.items.drop (c + 1), p d = false := by
          have hzero : (m.items.drop (c + 1)).countP p = 0 := by omega
          simpa using List.countP_eq_zero.1 hzero
        obtain ⟨l₂, cells₂, hdelete, h₂⟩ :=
          h₁.deleteVisited rfl hbehind (by rw [← h.length]; exact hlt)
        have hlen : (m.items.eraseIdx c).length = m.items.length - 1 :=
          List.length_eraseIdx_of_lt hlt
        obtain ⟨l', c', hrun, hl'⟩ := h₂.deleteLoop_none (p := p) (k := k) rfl
          (show c ≤ (m.items.eraseIdx c).length by omega)
          (show (m.items.eraseIdx c).length < c + k by omega)
          (show ∀ d ∈ (m.items.eraseIdx c).drop c, p d = false by rwa [drop_eraseIdx hlt])
        refine ⟨l', cells₂, c', true,
          (deleteLoop_succ hhas hvisit (deleteIf_true hd hdelete)).trans hrun, ?_⟩
        have hkeep : (m.items.drop (c + 1)).filter (!p ·) = m.items.drop (c + 1) :=
          List.filter_eq_self.2 fun d hd => by rw [hnone d hd]; rfl
        rw [List.filter_cons_of_neg (by rw [hd]; exact Bool.false_ne_true), hkeep,
          ← List.eraseIdx_eq_take_drop_succ]
        exact hl'
      · rw [if_neg hd] at hp
        obtain ⟨l', cells', c', b, hrun, hl'⟩ := ih h₁ rfl hbehind hlt
          (show m.items.length < c + 1 + k by omega) hp
        refine ⟨l', cells', c', b,
          (deleteLoop_succ hhas hvisit (deleteIf_false (by simpa using hd))).trans hrun, ?_⟩
        have htake : m.items.take (c + 1) = m.items.take c ++ [m.items.getD c 0] := by
          rw [List.take_add_one, List.getD_eq_getElem?_getD, List.getElem?_eq_getElem hlt]
          rfl
        rw [List.filter_cons_of_pos (by simpa using hd), List.append_cons, ← htake]
        exact hl'
    · have hend : c = m.items.length := by
        rw [h.hasnext_iff hc, hpos] at hhas
        omega
      refine ⟨l, cells, c, m.behind, by rw [deleteLoop, if_neg hhas], ?_⟩
      rw [← hc, hend, List.take_length, List.drop_length, List.filter_nil, List.append_nil]
      exact h

/-! ## More than one -/

/-- An element with `p` that the iteration is past stays in the list. -/
theorem Linked.deleteLoop_past (h : l.Linked cells lost) (hiter : l.iterActive = true)
    (hlen : cells.length < 2 ^ 24) {i : ℕ} {a : ℕ × ℕ} (ha : cells[i]? = some a) (hp : p a.2)
    (hi : i + 1 < l.iterPos) (hrun : deleteLoop p k l = .ok l') :
    ∃ cells', l'.Linked cells' lost ∧ ∃ a ∈ cells', p a.2 := by
  induction k generalizing l cells with
  | zero => nomatch hrun
  | succ k ih =>
    by_cases hhas : l.iteratorHasnext
    · rw [deleteLoop, if_pos hhas] at hrun
      obtain ⟨⟨d, l₁⟩, hvisit, hrun⟩ := bind_eq_ok.1 hrun
      obtain ⟨l₂, hdelete, hrun⟩ := bind_eq_ok.1 hrun
      -- A visit leaves the entries as they are.
      have hpos : l.iterPos < cells.length := by
        rw [iteratorHasnext, hiter, h.numels] at hhas
        simpa using hhas
      have h₁ : l₁.Linked cells lost ∧ l₁.iterActive = true ∧ l₁.iterPos = l.iterPos + 1 := by
        rw [iteratorNext, if_neg (by simp [hiter])] at hvisit
        obtain ⟨n, -, hvisit⟩ := bind_eq_ok.1 hvisit
        cases hvisit
        exact ⟨⟨h.wired, h.numels, h.mid, h.spares⟩, hiter, incr32_of_lt (by omega)⟩
      obtain ⟨h₁, hiter₁, hpos₁⟩ := h₁
      rw [deleteIf] at hdelete
      split_ifs at hdelete
      · -- The element that is deleted is behind it.
        obtain ⟨xs, b, ys, rfl, hxs⟩ := exists_split hpos
        obtain ⟨l₂', hrun₂, h₂, hk⟩ := h₁.deleteIterator hiter₁ (by omega) hlen
        rw [hrun₂] at hdelete
        obtain rfl := Except.ok.inj hdelete
        rw [List.length_append, List.length_cons] at hlen
        refine ih h₂ (hk.iterActive.trans hiter₁) (by rw [List.length_append]; omega) ?_
          (by rw [hk.iterPos]; omega) hrun
        rw [List.getElem?_append_left (by omega)] at ha ⊢
        exact ha
      · obtain rfl := Except.ok.inj hdelete
        exact ih h₁ hiter₁ hlen ha (by omega) hrun
    · rw [deleteLoop, if_neg hhas] at hrun
      obtain rfl := Except.ok.inj hrun
      exact ⟨cells, h, a, List.mem_of_getElem? ha, hp⟩

/-- One element has been deleted, and there is another one. -/
theorem Holds.deleteLoop_behind (h : l.Holds cells m) (hc : m.cursor = some c)
    (hbehind : m.behind = true) (hp : ∃ d ∈ m.items.drop c, p d)
    (hrun : deleteLoop p k l = .ok l') :
    ∃ cells', l'.Linked cells' [] ∧ ∃ a ∈ cells', p a.2 := by
  induction k generalizing l m c with
  | zero => nomatch hrun
  | succ k ih =>
    have hpos : m.iterPos c = c + 1 := by rw [ListModel.iterPos, hbehind]; rfl
    by_cases hhas : l.iteratorHasnext
    · have hlt := (h.hasnext_iff hc).1 hhas
      rw [hpos] at hlt
      obtain ⟨l₁, hvisit, h₁⟩ := h.visit hc (by rw [← h.length]; omega)
      rw [drop_eq_cons (by omega)] at hp
      by_cases hd : p (m.items.getD c 0) = true
      · -- The element behind it is deleted.
        have hlen : c + 1 < cells.length := by rwa [← h.length]
        have hpos₁ := (h₁.cursor (c + 1) rfl).2.2
        rw [ListModel.iterPos, if_pos hbehind] at hpos₁
        obtain ⟨xs, b, ys, rfl, hxs⟩ := exists_split hlen
        obtain ⟨l₂, hdelete, h₂, hk⟩ := h₁.linked.deleteIterator h₁.active (by omega) h₁.few
        rw [deleteLoop_succ hhas hvisit (deleteIf_true hd hdelete)] at hrun
        have ha : xs[c]? = some xs[c] := List.getElem?_eq_getElem (by omega)
        refine h₂.deleteLoop_past (hk.iterActive.trans h₁.active) h₁.few_erase
          ((List.getElem?_append_left (by omega)).trans ha) ?_ (by rw [hk.iterPos]; omega) hrun
        rw [← h.items, List.getD_eq_getElem?_getD, List.getElem?_map,
          List.getElem?_append_left (by omega), ha] at hd
        exact hd
      · rw [deleteLoop_succ hhas hvisit (deleteIf_false (by simpa using hd))] at hrun
        refine ih h₁ rfl hbehind ?_ hrun
        obtain ⟨d, hmem, hpd⟩ := hp
        rcases List.mem_cons.1 hmem with rfl | hmem
        · exact absurd hpd hd
        · exact ⟨d, hmem, hpd⟩
    · rw [deleteLoop, if_neg hhas] at hrun
      obtain rfl := Except.ok.inj hrun
      obtain ⟨d, hmem, hpd⟩ := hp
      have hmem := List.mem_of_mem_drop hmem
      rw [← h.items] at hmem
      obtain ⟨a, ha, rfl⟩ := List.mem_map.1 hmem
      exact ⟨cells, h.linked, a, ha, hpd⟩

/-- There is more than one element to delete. -/
theorem Holds.deleteLoop_two (h : l.Holds cells m) (hc : m.cursor = some c)
    (hbehind : m.behind = false) (hp : 1 < (m.items.drop c).countP p)
    (hrun : deleteLoop p k l = .ok l') :
    ∃ cells', l'.Linked cells' [] ∧ ∃ a ∈ cells', p a.2 := by
  induction k generalizing l m c with
  | zero => nomatch hrun
  | succ k ih =>
    have hpos : m.iterPos c = c := by rw [ListModel.iterPos, hbehind]; rfl
    have hlt : c < m.items.length := by
      by_contra hge
      rw [List.drop_eq_nil_of_le (Nat.not_lt.1 hge)] at hp
      simp at hp
    have hhas : l.iteratorHasnext := by rwa [h.hasnext_iff hc, hpos]
    obtain ⟨l₁, hvisit, h₁⟩ := h.visit hc (by rw [← h.length]; exact hlt.le)
    rw [drop_eq_cons hlt, List.countP_cons] at hp
    by_cases hd : p (m.items.getD c 0) = true
    · obtain ⟨l₂, cells₂, hdelete, h₂⟩ :=
        h₁.deleteVisited rfl hbehind (by rw [← h.length]; exact hlt)
      rw [deleteLoop_succ hhas hvisit (deleteIf_true hd hdelete)] at hrun
      rw [if_pos hd] at hp
      refine h₂.deleteLoop_behind rfl rfl ?_ hrun
      rw [← List.countP_pos_iff]
      change 0 < ((m.items.eraseIdx c).drop c).countP p
      rw [drop_eraseIdx hlt]
      omega
    · rw [deleteLoop_succ hhas hvisit (deleteIf_false (by simpa using hd))] at hrun
      rw [if_neg hd] at hp
      exact ih h₁ rfl hbehind hp hrun

theorem Linked.stop (h : l.Linked cells lost) : l.iteratorStop.2.Linked cells lost := by
  rw [iteratorStop]
  split_ifs
  · exact h
  · exact ⟨h.wired, h.numels, h.mid, h.spares⟩

/-- A list has one sequence of entries. -/
theorem Linked.unique (h : l.Linked cells lost) (h' : l.Linked cells' lost') : cells = cells' := by
  have hfst : (l.framed cells).map Prod.fst = (l.framed cells').map Prod.fst :=
    h.wired.seg.follows_next.unique h'.wired.seg.follows_next
  -- An address determines the data there.
  have hcell {cells : List (ℕ × ℕ)} {lost : List ℕ} (h : l.Linked cells lost) :
      ((l.framed cells).map Prod.fst).map (fun a => (a, (dataOf l.heap a).getD 0)) =
        l.framed cells := by
    rw [List.map_map]
    refine (List.map_congr_left fun c hc => ?_).trans (List.map_id _)
    rw [Function.comp_apply, h.wired.data c hc]
    rfl
  have hframed : l.framed cells = l.framed cells' := by rw [← hcell h, ← hcell h', hfst]
  exact List.append_cancel_right (List.cons.inj hframed).2

/-- A caller deletes the elements that it is to delete if and only if there is no more than
    one. -/
theorem deleteWhere_iff (h : l.Holds cells m) (hcursor : m.cursor = none) :
    (∃ l' cells', l.deleteWhere p = .ok l' ∧
      l'.Holds cells' { m with items := m.items.filter (!p ·) }) ↔ m.items.countP p ≤ 1 := by
  obtain ⟨l₁, hstart, h₁⟩ := h.started (by simp [hcursor])
  constructor
  · rintro ⟨l', cells', hrun, hl'⟩
    by_contra htwo
    rw [deleteWhere, hstart, ok_bind] at hrun
    obtain ⟨l₂, hloop, hrun⟩ := bind_eq_ok.1 hrun
    obtain ⟨cells₂, h₂, a, ha, hp⟩ :=
      h₁.deleteLoop_two (p := p) rfl rfl (by simpa using htwo) hloop
    cases hrun
    -- An element that was to be deleted is still there.
    obtain rfl := hl'.linked.unique h₂.stop
    have hmem := List.mem_map_of_mem (f := Prod.snd) ha
    rw [hl'.items, List.mem_filter, hp] at hmem
    exact Bool.false_ne_true hmem.2
  · intro hone
    obtain ⟨l₂, cells₂, c, b, hloop, h₂⟩ := h₁.deleteLoop_one (p := p) (k := l₁.numels + 1) rfl rfl
      (Nat.zero_le _) (by rw [h₁.numels]; omega) hone
    obtain ⟨l', hstop, hl'⟩ := h₂.stopped rfl
    refine ⟨l', cells₂, ?_, ?_⟩
    · rw [deleteWhere, hstart, ok_bind]
      dsimp only
      rw [hloop, ok_bind, hstop]
      rfl
    · exact ⟨hl'.linked, hl'.items, hl'.few, by rw [hl'.active, hcursor], by simp [hcursor],
        hl'.comparator, hl'.seeker⟩

/-- There is an address that is not in use. -/
theorem exists_free (l : KsList) : ∃ start, start ∉ l.heap := by
  obtain ⟨start, hsub⟩ := l.heap.keys.exists_nat_subset_range
  exact ⟨start, mt Finmap.mem_keys.2 fun hin => absurd (hsub hin) Finset.notMem_range_self⟩

/-- One of two elements is deleted. -/
theorem deleteWhere_iff_pair :
    ∃ l cells, Holds l cells { items := [7, 5] } ∧
      ((∃ l' cells', l.deleteWhere (· = 7) = .ok l' ∧ l'.Holds cells' { items := [5] }) ↔
        [7, 5].countP (· = 7) ≤ 1) := by
  obtain ⟨l₀, -, h₀⟩ := create_spec (show 1 ≠ 2 by decide)
  obtain ⟨p, hp⟩ := l₀.exists_free
  obtain ⟨l₁, cells₁, -, h₁⟩ := h₀.insertAt 7 0 hp (by rw [h₀.numels]; decide)
  obtain ⟨q, hq⟩ := l₁.exists_free
  obtain ⟨l₂, cells₂, -, h₂⟩ := h₁.insertAt 5 1 hq (by rw [h₁.numels]; decide)
  exact ⟨l₂, cells₂, h₂, deleteWhere_iff h₂ rfl⟩

end KsList

end Libks
