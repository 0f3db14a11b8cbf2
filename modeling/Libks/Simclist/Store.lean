import Libks.Base.Calls
import Libks.Simclist.Sort

/-!
# Lists as sequences

What a list is for: a sequence of pointers, with one cursor for an iteration (`ListModel`).
Every row of calls, but for what the caller has to see to (`KsList.Ready`), does what this
model allows, trips over no assertion and uses no entry that has been freed
(`KsList.calls_allowed`). A sort may leave the elements in any order that the comparator
allows.

The caller has to see to it that there are fewer than 2 ^ 24 elements, that an iteration
does not go on behind its end, and that it deletes one element at most, which it has given
out: `ks_list_delete_iterator` leaves `iter_pos` one too high, so that the end of the
iteration seems to be reached one element early as well (`behind`). It also sees to it that
what the comparator gives fits an `int` when it is multiplied (`KsList.Fitting`).
-/

namespace Libks

open Base

/-- The calls. `start` is the address that the pool gives for a new entry. -/
inductive ListAct
  | append (data start : ℕ)
  | prepend (data start : ℕ)
  | insertAt (data pos start : ℕ)
  | fetch
  | extractAt (pos : ℕ)
  | deleteAt (pos : ℕ)
  | delete (data : ℕ)
  | deleteRange (posstart posend : ℕ)
  | clear
  | getAt (pos : ℕ)
  | getMax
  | getMin
  | size
  | empty
  | locate (data : ℕ)
  | contains (data : ℕ)
  | seek (indicator : ℕ)
  | sort (versus : ℤ) (rand : ℕ → ℕ → ℕ)
  | iteratorStart
  | iteratorNext
  | iteratorHasnext
  | iteratorStop
  | deleteIterator
  | comparator (cmp : Option (ℕ → ℕ → ℤ))
  | seeker (seeker : Option (ℕ → ℕ → ℤ))

/-- An answer. -/
inductive ListAnswer
  | int (n : ℤ)
  | ptr (p : ℕ)
  | bool (b : Bool)
  deriving DecidableEq, Repr

/-- An answer and the list, as those of a call. -/
def ListAnswer.with {α σ : Type} (f : α → ListAnswer) (r : α × σ) : ListAnswer × σ := (f r.1, r.2)

/-- A call. -/
def KsList.step (l : KsList) : ListAct → Except Fault (ListAnswer × KsList)
  | .append data start => (ListAnswer.with .int) <$> l.append data start
  | .prepend data start => (ListAnswer.with .int) <$> l.prepend data start
  | .insertAt data pos start => (ListAnswer.with .int) <$> l.insertAt data pos start
  | .fetch => (ListAnswer.with .ptr) <$> l.fetch
  | .extractAt pos => (ListAnswer.with .ptr) <$> l.extractAt pos
  | .deleteAt pos => (ListAnswer.with .int) <$> l.deleteAt pos
  | .delete data => (ListAnswer.with .int) <$> l.delete data
  | .deleteRange posstart posend => (ListAnswer.with .int) <$> l.deleteRange posstart posend
  | .clear => (ListAnswer.with .int) <$> l.clear
  | .getAt pos => (fun p => (.ptr p, l)) <$> l.getAt pos
  | .getMax => (fun p => (.ptr p, l)) <$> l.getMax
  | .getMin => (fun p => (.ptr p, l)) <$> l.getMin
  | .size => .ok (.int l.numels, l)
  | .empty => .ok (.bool (l.numels = 0), l)
  | .locate data => (fun n => (.int n, l)) <$> l.locate data
  | .contains data => (fun b => (.bool b, l)) <$> l.contains data
  | .seek indicator => (fun p => (.ptr p, l)) <$> l.seek indicator
  | .sort versus rand => (ListAnswer.with .int) <$> l.sort versus rand
  | .iteratorStart => (ListAnswer.with .int) <$> l.iteratorStart
  | .iteratorNext => (ListAnswer.with .ptr) <$> l.iteratorNext
  | .iteratorHasnext => .ok (.bool l.iteratorHasnext, l)
  | .iteratorStop => .ok (ListAnswer.with .int l.iteratorStop)
  | .deleteIterator => (ListAnswer.with .int) <$> l.deleteIterator
  | .comparator cmp => .ok (.int 0, { l with comparator := cmp })
  | .seeker seeker => .ok (.int 0, { l with seeker })

/-- What the caller and the pool see to: a new entry is at an address that is not in use, and
    there are few enough elements; positions are of 32 bits; an iteration does not go on
    behind its end, and an element is deleted in it only while `iter_pos` is where the
    iteration is. -/
def KsList.Ready (l : KsList) : ListAct → Prop
  | .append _ start | .prepend _ start | .insertAt _ _ start =>
    start ∉ l.heap ∧ l.numels + 1 < 2 ^ 24
  | .getAt pos => pos < 2 ^ 32
  | .iteratorNext => l.iterActive → l.iterCurentry ≠ none
  | .deleteIterator => l.iterActive →
    0 < l.iterPos ∧ (l.numels < l.iterPos ∨ l.findpos (toInt32 l.iterPos) = .ok l.iterCurentry)
  | _ => True

instance decidableReady (l : KsList) : ∀ a, Decidable (l.Ready a)
  | .append _ start | .prepend _ start | .insertAt _ _ start =>
    inferInstanceAs (Decidable (start ∉ l.heap ∧ l.numels + 1 < 2 ^ 24))
  | .getAt pos => inferInstanceAs (Decidable (pos < 2 ^ 32))
  | .iteratorNext => inferInstanceAs (Decidable (l.iterActive → l.iterCurentry ≠ none))
  | .deleteIterator => inferInstanceAs (Decidable (l.iterActive → 0 < l.iterPos ∧
      (l.numels < l.iterPos ∨ l.findpos (toInt32 l.iterPos) = .ok l.iterCurentry)))
  | .fetch | .extractAt _ | .deleteAt _ | .delete _ | .deleteRange .. | .clear | .getMax | .getMin
  | .size | .empty | .locate _ | .contains _ | .seek _ | .sort .. | .iteratorStart
  | .iteratorHasnext | .iteratorStop | .comparator _ | .seeker _ => .isTrue trivial

/-- A result of the comparator fits an `int` when it is multiplied by `versus`. -/
def KsList.Scales (l : KsList) (versus : ℤ) : Prop :=
  IsInt32 versus ∧ ∀ cmp ∈ l.comparator, ∀ a b, IsInt32 (cmp a b * versus)

/-- The products that a call makes of what the comparator gives do not overflow. -/
def KsList.Fitting (l : KsList) : ListAct → Prop
  | .getMax => l.Scales 1
  | .getMin => l.Scales (-1)
  | .sort versus _ => l.Scales (-versus)
  | _ => True

/-! ## The model -/

/-- A sequence of pointers, and where the iteration in it stands. -/
structure ListModel where
  items : List ℕ := []
  /-- The position of the next element of the iteration, if one is active. -/
  cursor : Option ℕ := none
  /-- Whether it has deleted an element, so that it seems to be one element further on. -/
  behind : Bool := false
  comparator : Option (ℕ → ℕ → ℤ) := none
  seeker : Option (ℕ → ℕ → ℤ) := none

namespace ListModel

/-- `iter_pos`, for a cursor. -/
def iterPos (m : ListModel) (c : ℕ) : ℕ := if m.behind then c + 1 else c

/-- The element put in at a position. -/
def insertAt (m : ListModel) (data pos : ℕ) : ListAnswer × ListModel :=
  if m.cursor.isSome ∨ m.items.length < pos then (.int (-1), m)
  else (.int 1, { m with items := m.items.take pos ++ data :: m.items.drop pos })

/-- The element at a position taken out. -/
def extractAt (m : ListModel) (pos : ℕ) : ListAnswer × ListModel :=
  if m.cursor.isSome ∨ m.items.length ≤ pos then (.ptr 0, m)
  else (.ptr (m.items.getD pos 0), { m with items := m.items.eraseIdx pos })

/-- The element at a position deleted. -/
def deleteAt (m : ListModel) (pos : ℕ) : ListAnswer × ListModel :=
  if m.cursor.isSome ∨ m.items.length ≤ pos then (.int (-1), m)
  else (.int 0, { m with items := m.items.eraseIdx pos })

/-- What is sought in a list: an element that is equal by the comparator, or the pointer. -/
def sought (m : ListModel) (data d : ℕ) : Bool :=
  match m.comparator with
  | some cmp => cmp data d = 0
  | none => d = data

/-- The position of the first element that is sought. -/
def locate (m : ListModel) (data : ℕ) : Option ℕ := m.items.findIdx? (m.sought data)

/-- The first element that the seeker takes. -/
def seek (m : ListModel) (indicator : ℕ) : ℕ :=
  match m.seeker with
  | some seeker => (m.items.find? fun d => seeker d indicator ≠ 0).getD 0
  | none => 0

/-- The last of the elements that are ahead of all before them, by the comparator. -/
def extreme (m : ListModel) (versus : ℤ) : ℕ :=
  match m.comparator, m.items with
  | some cmp, d :: ds => ds.foldl (fun cur x => if 0 < cmp cur x * versus then x else cur) d
  | _, _ => 0

/-- The answer to a call other than a sort, and what becomes of the sequence. -/
def reply (m : ListModel) : ListAct → ListAnswer × ListModel
  | .append data _ => m.insertAt data m.items.length
  | .prepend data _ => m.insertAt data 0
  | .insertAt data pos _ => m.insertAt data pos
  | .fetch => m.extractAt 0
  | .extractAt pos => m.extractAt pos
  | .deleteAt pos => m.deleteAt pos
  | .delete data =>
    match m.locate data with
    | none => (.int (-1), m)
    | some pos => m.deleteAt pos
  | .deleteRange posstart posend =>
    if m.cursor.isSome ∨ posend < posstart ∨ m.items.length ≤ posend then (.int (-1), m)
    else (.int (posend - posstart + 1 : ℕ),
      { m with items := m.items.take posstart ++ m.items.drop (posend + 1) })
  | .clear =>
    if m.cursor.isSome then (.int (-1), m) else (.int m.items.length, { m with items := [] })
  | .getAt pos => (.ptr (m.items.getD pos 0), m)
  | .getMax => (.ptr (m.extreme 1), m)
  | .getMin => (.ptr (m.extreme (-1)), m)
  | .size => (.int m.items.length, m)
  | .empty => (.bool (m.items = []), m)
  | .locate data => (.int (((m.locate data).map Int.ofNat).getD (-1)), m)
  | .contains data => (.bool (m.locate data).isSome, m)
  | .seek indicator => (.ptr (m.seek indicator), m)
  | .sort _ _ => (.int 0, m)
  | .iteratorStart =>
    if m.cursor.isSome then (.int 0, m) else (.int 1, { m with cursor := some 0, behind := false })
  | .iteratorNext =>
    match m.cursor with
    | none => (.ptr 0, m)
    | some c => (.ptr (m.items.getD c 0), { m with cursor := some (c + 1) })
  | .iteratorHasnext => (.bool (m.cursor.any fun c => m.iterPos c < m.items.length), m)
  | .iteratorStop => if m.cursor.isSome then (.int 1, { m with cursor := none }) else (.int 0, m)
  | .deleteIterator =>
    match m.cursor with
    | none => (.int (-1), m)
    | some c =>
      if m.items.length < m.iterPos c then (.int (-1), m)
      else (.int 0,
        { m with items := m.items.eraseIdx (c - 1), cursor := some (c - 1), behind := true })
  | .comparator cmp => (.int 0, { m with comparator := cmp })
  | .seeker seeker => (.int 0, { m with seeker })

/-- A call may do this: a sort leaves the elements in an order that the comparator allows,
    and every other call has one answer. -/
def Does (m : ListModel) (a : ListAct) (o : ListAnswer) (m' : ListModel) : Prop :=
  match a with
  | .sort versus _ =>
    match m.comparator with
    | none => o = .int (-1) ∧ m' = m
    | some cmp =>
      if m.cursor.isSome then o = .int (-1) ∧ m' = m
      else o = .int 0 ∧ ∃ items, m' = { m with items } ∧ items.Perm m.items ∧
        (SignOrder cmp → items.Pairwise fun a b => cmp a b * -versus ≤ 0)
  | a => (o, m') = m.reply a

/-- What a call other than a sort does. -/
theorem does_reply (m : ListModel) {a : ListAct} (hsort : ∀ versus rand, a ≠ .sort versus rand) :
    m.Does a (m.reply a).1 (m.reply a).2 := by
  cases a with
  | sort versus rand => exact absurd rfl (hsort versus rand)
  | _ => rfl

end ListModel

/-! ## Lists and their models -/

namespace KsList

variable {l l' : KsList} {m : ListModel} {cells cells' xs ms ys : List (ℕ × ℕ)} {a c : ℕ × ℕ}
  {rest : List ℕ} {data pos start k : ℕ} {wanted : ℕ → Bool} {i : ℤ}

/-- The list holds the elements of the sequence, and its iteration stands where that of the
    sequence does. -/
structure Holds (l : KsList) (cells : List (ℕ × ℕ)) (m : ListModel) : Prop where
  linked : l.Linked cells []
  items : cells.map Prod.snd = m.items
  few : cells.length < 2 ^ 24
  active : l.iterActive = m.cursor.isSome
  cursor : ∀ c ∈ m.cursor, c ≤ cells.length + 1 ∧
    l.iterCurentry = (l.framed cells)[c + 1]?.map Prod.fst ∧ l.iterPos = m.iterPos c
  comparator : l.comparator = m.comparator
  seeker : l.seeker = m.seeker

/-- There is one element for each cell. -/
theorem Holds.length (h : l.Holds cells m) : m.items.length = cells.length := by
  rw [← h.items, List.length_map]

/-- `numels` counts the elements. -/
theorem Holds.numels (h : l.Holds cells m) : l.numels = m.items.length := by
  rw [h.length, h.linked.numels]

/-- The list after a change outside of iterations. -/
theorem Holds.edit (h : l.Holds cells m) (hcursor : m.cursor = none) (hl' : l'.Linked cells' [])
    (hk : l.Keeps l') (hfew : cells'.length < 2 ^ 24) {items : List ℕ}
    (hitems : cells'.map Prod.snd = items) : l'.Holds cells' { m with items } where
  linked := hl'
  items := hitems
  few := hfew
  active := hk.iterActive.trans h.active
  cursor := fun c hc => by rw [hcursor] at hc; nomatch hc
  comparator := hk.comparator.trans h.comparator
  seeker := hk.seeker.trans h.seeker

/-- The cell at a position, with those around it. -/
theorem exists_split (hpos : pos < cells.length) :
    ∃ xs a ys, cells = xs ++ a :: ys ∧ xs.length = pos :=
  ⟨cells.take pos, cells[pos], cells.drop (pos + 1), by
    rw [List.getElem_cons_drop, List.take_append_drop], by
    rw [List.length_take, Nat.min_eq_left hpos.le]⟩

theorem Holds.inactive (h : l.Holds cells m) (hnot : ¬m.cursor.isSome) : l.iterActive = false := by
  rw [h.active]
  simpa using hnot

/-- `ks_list_insert_at`. -/
theorem Holds.insertAt (h : l.Holds cells m) (data pos : ℕ) (hstart : start ∉ l.heap)
    (hfew : l.numels + 1 < 2 ^ 24) :
    ∃ l' cells', (ListAnswer.with .int) <$> l.insertAt data pos start =
        .ok ((m.insertAt data pos).1, l') ∧ l'.Holds cells' (m.insertAt data pos).2 := by
  rw [ListModel.insertAt]
  by_cases hnot : m.cursor.isSome ∨ m.items.length < pos
  · rw [if_pos hnot, KsList.insertAt, h.active, h.numels, if_pos hnot]
    exact ⟨l, cells, rfl, h⟩
  · rw [if_neg hnot]
    rw [not_or] at hnot
    have hpos : pos ≤ cells.length := by
      rw [← h.length]
      omega
    rw [h.linked.numels] at hfew
    obtain ⟨p, l', hrun, hl', hk⟩ :=
      h.linked.insertAt data (h.inactive hnot.1) hpos hfew hstart
    rw [hrun]
    refine ⟨l', _, rfl, h.edit (by simpa using hnot.1) hl' hk ?_ ?_⟩
    · simp only [List.length_append, List.length_take, List.length_drop, List.length_singleton]
      omega
    · rw [← h.items, List.map_append, List.map_append, List.map_take, List.map_drop]
      rfl

/-- The cells around a position. -/
theorem Holds.split (h : l.Holds cells m) (hpos : ¬(m.cursor.isSome ∨ m.items.length ≤ pos)) :
    ∃ xs a ys, cells = xs ++ a :: ys ∧ xs.length = pos ∧ l.iterActive = false ∧
      m.cursor = none ∧ m.items.getD pos 0 = a.2 ∧
      m.items.eraseIdx pos = (xs ++ ys).map Prod.snd := by
  rw [not_or, h.length, Nat.not_le] at hpos
  obtain ⟨xs, a, ys, rfl, rfl⟩ := exists_split hpos.2
  refine ⟨xs, a, ys, rfl, rfl, h.inactive hpos.1, by simpa using hpos.1, ?_, ?_⟩
  · rw [← h.items, List.getD_eq_getElem?_getD, List.getElem?_map,
      List.getElem?_append_right (Nat.le_refl _), Nat.sub_self]
    rfl
  · rw [← h.items, List.map_append, List.map_append, List.map_cons,
      List.eraseIdx_append_of_length_le (by rw [List.length_map]), List.length_map, Nat.sub_self,
      List.eraseIdx_cons_zero]

theorem Holds.few_erase (h : l.Holds (xs ++ a :: ys) m) : (xs ++ ys).length < 2 ^ 24 := by
  have hfew := h.few
  rw [List.length_append, List.length_cons] at hfew
  rw [List.length_append]
  omega

/-- `ks_list_extract_at`. -/
theorem Holds.extractAt (h : l.Holds cells m) :
    ∃ l' cells', (ListAnswer.with .ptr) <$> l.extractAt pos = .ok ((m.extractAt pos).1, l') ∧
      l'.Holds cells' (m.extractAt pos).2 := by
  rw [ListModel.extractAt]
  by_cases hnot : m.cursor.isSome ∨ m.items.length ≤ pos
  · rw [if_pos hnot, KsList.extractAt, h.active, h.numels, if_pos hnot]
    exact ⟨l, cells, rfl, h⟩
  · obtain ⟨xs, a, ys, rfl, rfl, hiter, hcursor, hdata, hitems⟩ := h.split hnot
    obtain ⟨l', hrun, hl', hk⟩ := h.linked.extractAt hiter h.few
    rw [if_neg hnot, hrun, hdata]
    exact ⟨l', _, rfl, h.edit hcursor hl' hk h.few_erase hitems.symm⟩

/-- `ks_list_delete_at`. -/
theorem Holds.deleteAt (h : l.Holds cells m) (pos : ℕ) :
    ∃ r l' cells', l.deleteAt pos = .ok (r, l') ∧ (m.deleteAt pos).1 = .int r ∧ (r = 0 ∨ r = -1) ∧
      l'.Holds cells' (m.deleteAt pos).2 := by
  rw [ListModel.deleteAt]
  by_cases hnot : m.cursor.isSome ∨ m.items.length ≤ pos
  · rw [if_pos hnot, KsList.deleteAt, h.active, h.numels, if_pos hnot]
    exact ⟨-1, l, cells, rfl, rfl, .inr rfl, h⟩
  · obtain ⟨xs, a, ys, rfl, rfl, hiter, hcursor, -, hitems⟩ := h.split hnot
    obtain ⟨l', hrun, hl', hk⟩ := h.linked.deleteAt hiter h.few
    rw [if_neg hnot]
    exact ⟨0, l', _, hrun, rfl, .inl rfl, h.edit hcursor hl' hk h.few_erase hitems.symm⟩

/-- `ks_list_clear`. -/
theorem Holds.clear (h : l.Holds cells m) :
    ∃ l' cells', (ListAnswer.with .int) <$> l.clear = .ok ((m.reply .clear).1, l') ∧
      l'.Holds cells' (m.reply .clear).2 := by
  have hfew := h.few
  rw [ListModel.reply]
  by_cases hcursor : m.cursor.isSome
  · rw [if_pos hcursor, KsList.clear, h.active, if_pos hcursor, h.linked.checked (by omega)]
    exact ⟨l, cells, rfl, h⟩
  · obtain ⟨l', hrun, hl', hk⟩ := h.linked.clear (h.inactive hcursor) (by omega)
    rw [if_neg hcursor, hrun, h.length]
    exact ⟨l', [], rfl, h.edit (by simpa using hcursor) hl' hk (by simp) rfl⟩

/-- `ks_list_delete_range`. -/
theorem Holds.deleteRange {posstart posend : ℕ} (h : l.Holds cells m) :
    ∃ l' cells', (ListAnswer.with .int) <$> l.deleteRange posstart posend =
        .ok ((m.reply (.deleteRange posstart posend)).1, l') ∧
      l'.Holds cells' (m.reply (.deleteRange posstart posend)).2 := by
  have hfew := h.few
  rw [ListModel.reply]
  by_cases hnot : m.cursor.isSome ∨ posend < posstart ∨ m.items.length ≤ posend
  · rw [if_pos hnot, KsList.deleteRange, h.active, h.numels, if_pos hnot]
    exact ⟨l, cells, rfl, h⟩
  · rw [if_neg hnot]
    rw [not_or, not_or, h.length, Nat.not_lt, Nat.not_le] at hnot
    obtain ⟨hcursor, hle, hlt⟩ := hnot
    -- The range, and what is around it.
    have hcells : cells = cells.take posstart ++
        ((cells.drop posstart).take (posend - posstart + 1) ++ cells.drop (posend + 1)) := by
      rw [show posend + 1 = posstart + (posend - posstart + 1) by omega, ← List.drop_drop,
        List.take_append_drop, List.take_append_drop]
    have hlen : (cells.take posstart).length = posstart := by
      rw [List.length_take]
      omega
    have hmid : ((cells.drop posstart).take (posend - posstart + 1)).length =
        posend - posstart + 1 := by
      rw [List.length_take, List.length_drop]
      omega
    have hlinked := h.linked
    rw [hcells] at hlinked
    obtain ⟨l', hrun, hl', hk⟩ := hlinked.deleteRange (h.inactive hcursor) (by rwa [← hcells])
      (List.ne_nil_of_length_pos (by omega))
    rw [hlen, hmid, show posstart + (posend - posstart + 1) - 1 = posend by omega] at hrun
    rw [hrun]
    refine ⟨l', _, rfl, h.edit (by simpa using hcursor) hl' hk ?_ ?_⟩
    · rw [List.length_append, hlen, List.length_drop]
      omega
    · rw [← h.items, List.map_append, List.map_take, List.map_drop]

/-! ### Searches -/

variable (xs) in
/-- The entry that a walk has come to. -/
theorem entry_head (w : Wired l.heap (xs ++ a :: (ys ++ [c])) rest) :
    a.1 ≠ c.1 ∧ ∃ n, l.entry (some a.1) = .ok n ∧ n.data = a.2 ∧
      n.next = (ys ++ [c]).head?.map Prod.fst := by
  obtain ⟨n, hn, hdata, hnext, -⟩ := w.lookup (i := xs.length) (a := a) (by simp)
  refine ⟨(w.ne c.1 (by simp)).symm, n, entry_eq hn, hdata, ?_⟩
  rw [hnext, List.getElem?_append_right (by omega), Nat.add_sub_cancel_left,
    List.getElem?_cons_succ, List.head?_eq_getElem?]

variable (xs wanted) in
/-- A search finds the first entry whose data is wanted. -/
theorem search_spec (hc : c.1 = l.tailSentinel) (w : Wired l.heap (xs ++ (ys ++ [c])) rest)
    (hk : ys.length < k) :
    ∃ r, l.search wanted k ((ys ++ [c]).head?.map Prod.fst) i = .ok r ∧
      r.map Prod.fst = ((ys.map Prod.snd).findIdx? wanted).map (i + Nat.cast ·) ∧
      r.map Prod.snd = (ys.map Prod.snd).find? wanted := by
  induction ys generalizing xs k i with
  | nil =>
    obtain ⟨k, rfl⟩ : ∃ j, k = j + 1 := ⟨k - 1, by omega⟩
    refine ⟨none, ?_, rfl, rfl⟩
    rw [search, List.nil_append, List.head?_cons, Option.map_some, if_pos (by rw [hc])]
  | cons y ys ih =>
    obtain ⟨k, rfl⟩ : ∃ j, k = j + 1 := ⟨k - 1, by omega⟩
    obtain ⟨hne, n, hn, hdata, hnext⟩ := entry_head xs w
    rw [search, List.cons_append, List.head?_cons, Option.map_some,
      if_neg (fun heq => hne (by rw [hc]; exact Option.some.inj heq)), hn, ok_bind, hdata]
    rw [List.map_cons, List.findIdx?_cons, List.find?_cons]
    cases hw : wanted y.2 with
    | true => exact ⟨some (i, y.2), rfl, by simp, rfl⟩
    | false =>
      rw [List.cons_append, List.append_cons] at w
      obtain ⟨r, hrun, hfst, hsnd⟩ := ih (i := i + 1) _ w (Nat.lt_of_succ_lt_succ hk)
      rw [hnext]
      refine ⟨r, hrun, ?_, hsnd⟩
      rw [hfst, if_neg Bool.false_ne_true, Option.map_map]
      congr 1
      ext j
      simp only [Function.comp_apply, Nat.cast_add, Nat.cast_one]
      omega

/-- The loop that looks for an element finds the first one. -/
theorem Holds.search (h : l.Holds cells m) (wanted : ℕ → Bool) :
    ∃ hd r, l.entry (some l.headSentinel) = .ok hd ∧ l.search wanted l.fuel hd.next 0 = .ok r ∧
      r.map Prod.fst = (m.items.findIdx? wanted).map Nat.cast ∧
      r.map Prod.snd = m.items.find? wanted := by
  have hfuel := h.linked.length_lt_fuel
  obtain ⟨-, hd, hhd, -, hnext⟩ := entry_head [] h.linked.wired
  obtain ⟨r, hrun, hfst, hsnd⟩ := search_spec [(l.headSentinel, 0)] wanted (k := l.fuel) (i := 0)
    rfl h.linked.wired (by omega)
  rw [h.items] at hfst hsnd
  refine ⟨hd, r, hhd, by rw [hnext, hrun], ?_, hsnd⟩
  rw [hfst]
  congr 1
  ext j
  exact Int.zero_add _

/-- `ks_list_locate`. -/
theorem Holds.locate (h : l.Holds cells m) :
    l.locate data = .ok (((m.locate data).map Nat.cast).getD (-1)) := by
  obtain ⟨hd, r, hhd, hrun, hfst, -⟩ := h.search (l.sought data)
  have hsought : l.sought data = m.sought data := by
    ext d
    cases hcmp : m.comparator with
    | none => simp only [KsList.sought, ListModel.sought, h.comparator, hcmp]
    | some cmp => simp only [KsList.sought, ListModel.sought, h.comparator, hcmp]
  rw [KsList.locate, hhd, ok_bind, hrun, ok_bind, hfst, hsought]
  rfl

/-- `ks_list_contains`. -/
theorem Holds.contains (h : l.Holds cells m) :
    l.contains data = .ok (m.locate data).isSome := by
  rw [KsList.contains, h.locate, ok_bind]
  cases m.locate data with
  | none => rfl
  | some j => simp [pure, Except.pure]

/-- `ks_list_seek`. -/
theorem Holds.seek (h : l.Holds cells m) : l.seek data = .ok (m.seek data) := by
  rw [KsList.seek, ListModel.seek, h.seeker]
  cases m.seeker with
  | none => rfl
  | some seeker =>
    obtain ⟨hd, r, hhd, hrun, -, hsnd⟩ := h.search fun d => seeker d data ≠ 0
    dsimp only
    rw [hhd, ok_bind, hrun, ok_bind, hsnd]
    rfl

/-- What fits is not wrapped. -/
theorem Scales.scaled_eq {cmp : ℕ → ℕ → ℤ} {versus : ℤ} (h : l.Scales versus)
    (hcmp : l.comparator = some cmp) :
    scaled cmp versus = fun a b => cmp a b * versus := by
  funext a b
  exact mulInt32_eq (h.2 cmp hcmp a b)

variable (xs) in
/-- The loop of `ks_list_get_minmax` goes through the rest of the entries. -/
theorem minmaxLoop_eq {cmp : ℕ → ℕ → ℤ} {versus : ℤ} {cur : ℕ} (hc : c.1 = l.tailSentinel)
    (w : Wired l.heap (xs ++ (ys ++ [c])) rest) (hk : ys.length < k) :
    l.minmaxLoop cmp versus k ((ys ++ [c]).head?.map Prod.fst) cur =
      .ok ((ys.map Prod.snd).foldl (fun cur x => if 0 < scaled cmp versus cur x then x else cur)
        cur) := by
  induction ys generalizing xs k cur with
  | nil =>
    obtain ⟨k, rfl⟩ : ∃ j, k = j + 1 := ⟨k - 1, by omega⟩
    rw [minmaxLoop, List.nil_append, List.head?_cons, Option.map_some, if_pos (by rw [hc])]
    rfl
  | cons y ys ih =>
    obtain ⟨k, rfl⟩ : ∃ j, k = j + 1 := ⟨k - 1, by omega⟩
    obtain ⟨hne, n, hn, hdata, hnext⟩ := entry_head xs w
    rw [List.cons_append, List.append_cons] at w
    rw [minmaxLoop, List.cons_append, List.head?_cons, Option.map_some,
      if_neg (fun heq => hne (by rw [hc]; exact Option.some.inj heq)), hn, ok_bind, hdata, hnext,
      ih _ w (Nat.lt_of_succ_lt_succ hk)]
    rfl

/-- `ks_list_get_minmax`, as long as no product of the comparator overflows. -/
theorem Holds.getMinmax {versus : ℤ} (h : l.Holds cells m) (hfit : l.Scales versus) :
    l.getMinmax versus = .ok (m.extreme versus) := by
  have hfuel := h.linked.length_lt_fuel
  rw [KsList.getMinmax, ListModel.extreme, h.comparator, h.numels, ← h.items]
  cases hcmp : m.comparator with
  | none => rfl
  | some cmp =>
    have hscaled (cur x : ℕ) : cmp cur x * versus = scaled cmp versus cur x := by
      rw [hfit.scaled_eq (h.comparator.trans hcmp)]
    dsimp only
    cases cells with
    | nil => rfl
    | cons y ys =>
      obtain ⟨-, hd, hhd, -, hnext⟩ := entry_head [] h.linked.wired
      obtain ⟨-, n, hn, hdata, hnext'⟩ := entry_head [(l.headSentinel, 0)] h.linked.wired
      rw [if_neg (by simp), hhd, ok_bind, hnext, List.cons_append, List.head?_cons, Option.map_some,
        hn, ok_bind, hdata, hnext']
      rw [List.length_cons] at hfuel
      simp only [List.map_cons, hscaled]
      exact minmaxLoop_eq [(l.headSentinel, 0), y] rfl h.linked.wired (by omega)

/-- `ks_list_delete`. -/
theorem Holds.delete (h : l.Holds cells m) :
    ∃ l' cells', (ListAnswer.with .int) <$> l.delete data =
        .ok ((m.reply (.delete data)).1, l') ∧ l'.Holds cells' (m.reply (.delete data)).2 := by
  have hfew := h.few
  rw [KsList.delete, h.locate, ok_bind, ListModel.reply]
  cases hlocate : m.locate data with
  | none =>
    refine ⟨l, cells, ?_, h⟩
    rw [Option.map_none, Option.getD_none, deleteLocated, if_pos (by omega), ok_bind]
    dsimp only
    rw [h.linked.checked (by omega)]
    rfl
  | some pos =>
    have hpos : pos < cells.length := by
      rw [← h.length]
      exact (List.findIdx?_eq_some_iff_getElem.1 hlocate).1
    obtain ⟨r, l', cells', hrun, hans, hr, hl'⟩ := h.deleteAt pos
    refine ⟨l', cells', ?_, hl'⟩
    have hfew' := hl'.few
    have hof : ofInt32 (pos : ℕ) = pos := by
      rw [ofInt32]
      omega
    have hret : (if r < 0 then -1 else 0) = r := by
      rcases hr with rfl | rfl <;> rfl
    rw [Option.map_some, Option.getD_some, deleteLocated, if_neg (by omega), hof, hrun, ok_bind]
    dsimp only
    rw [hret, hans]
    change (ListAnswer.with .int) <$> (do let l ← l'.checked; return (r, l)) = _
    rw [hl'.linked.checked (by omega)]
    rfl

/-- The data at a position, `0` at that of the sentinel behind the list. -/
theorem Holds.data_eq (h : l.Holds cells m) (ha : (l.framed cells)[pos + 1]? = some a) :
    a.2 = m.items.getD pos 0 := by
  rw [← h.items, List.getD_eq_getElem?_getD, List.getElem?_map]
  rcases Nat.lt_or_ge pos cells.length with hlt | hge
  · rw [framed_succ hlt] at ha
    rw [ha]
    rfl
  · have hpos := (List.getElem?_eq_some_iff.1 ha).1
    rw [length_framed] at hpos
    obtain rfl : pos = cells.length := by omega
    rw [framed_last] at ha
    rw [← Option.some.inj ha, List.getElem?_eq_none (Nat.le_refl _)]
    rfl

/-- `ks_list_get_at`. -/
theorem Holds.getAt (h : l.Holds cells m) (hpos : pos < 2 ^ 32) :
    l.getAt pos = .ok (m.items.getD pos 0) := by
  have hfew := h.few
  have hnum := h.linked.toInt32_numels (by omega)
  -- The answer is the data of the entry that is found.
  have hentry {j : ℕ} {x : ℕ × ℕ} (hx : (l.framed cells)[j]? = some x)
      (hj : toInt32 pos = (j : ℤ) - 1) : l.getAt pos = .ok x.2 := by
    obtain ⟨n, hn, hdata, -⟩ := h.linked.wired.lookup hx
    have hlt := (List.getElem?_eq_some_iff.1 hx).1
    rw [length_framed] at hlt
    rw [KsList.getAt, hj, h.linked.findpos hfew (by omega), hx, ok_bind, Option.map_some]
    dsimp only
    rw [entry_eq hn, ok_bind, hdata]
    rfl
  have hnone (hout : toInt32 pos < -1 ∨ toInt32 l.numels < toInt32 pos) : l.getAt pos = .ok 0 := by
    rw [KsList.getAt, KsList.findpos, if_pos hout]
    rfl
  rcases Nat.lt_or_ge cells.length pos with hgt | hle
  · have hout : m.items.getD pos 0 = 0 := by
      rw [List.getD_eq_getElem?_getD, List.getElem?_eq_none (by rw [h.length]; exact hgt.le)]
      rfl
    rw [hout]
    rcases Nat.lt_or_ge pos (2 ^ 31) with hlow | hhigh
    · exact hnone (.inr (by rw [hnum, toInt32_of_lt hlow]; omega))
    · -- As an `int`, the position is a negative one.
      have hneg : toInt32 pos = (pos : ℤ) - 2 ^ 32 := by
        rw [toInt32, Int.bmod_def]
        omega
      rcases Nat.lt_or_ge (pos + 1) (2 ^ 32) with hlt | hlast
      · exact hnone (.inl (by omega))
      · exact hentry framed_zero (by omega)
  · have hlt : pos + 1 < (l.framed cells).length := by rw [length_framed]; omega
    rw [hentry (List.getElem?_eq_getElem hlt) (by rw [toInt32_of_lt (by omega)]; omega),
      h.data_eq (List.getElem?_eq_getElem hlt)]

/-! ### Iterations -/

theorem Holds.started (h : l.Holds cells m) (hcursor : ¬m.cursor.isSome) :
    ∃ l', l.iteratorStart = .ok (1, l') ∧
      l'.Holds cells { m with cursor := some 0, behind := false } := by
  obtain ⟨hd, hhd, -, hnext, -⟩ := h.linked.wired.lookup (framed_zero (l := l))
  rw [KsList.iteratorStart, h.active, if_neg hcursor, entry_eq hhd, ok_bind]
  refine ⟨_, rfl, ⟨h.linked.wired, h.linked.numels, h.linked.mid, h.linked.spares⟩, h.items,
    h.few, rfl, fun c hc => ?_, h.comparator, h.seeker⟩
  obtain rfl := Option.some.inj hc
  exact ⟨Nat.zero_le _, hnext, rfl⟩

/-- `ks_list_iterator_start`. -/
theorem Holds.iteratorStart (h : l.Holds cells m) :
    ∃ l', (ListAnswer.with .int) <$> l.iteratorStart = .ok ((m.reply .iteratorStart).1, l') ∧
      l'.Holds cells (m.reply .iteratorStart).2 := by
  rw [ListModel.reply]
  by_cases hcursor : m.cursor.isSome
  · rw [if_pos hcursor, KsList.iteratorStart, h.active, if_pos hcursor]
    exact ⟨l, rfl, h⟩
  · obtain ⟨l', hrun, hl'⟩ := h.started hcursor
    rw [if_neg hcursor]
    exact ⟨l', by rw [hrun]; rfl, hl'⟩

theorem Holds.stopped (h : l.Holds cells m) (hcursor : m.cursor.isSome) :
    ∃ l', l.iteratorStop = (1, l') ∧ l'.Holds cells { m with cursor := none } := by
  rw [KsList.iteratorStop, h.active, hcursor]
  exact ⟨_, rfl, ⟨h.linked.wired, h.linked.numels, h.linked.mid, h.linked.spares⟩,
    h.items, h.few, rfl, nofun, h.comparator, h.seeker⟩

/-- The iteration goes on by an element, or to behind the sentinel at the end. -/
theorem Holds.visit (h : l.Holds cells m) (hcursor : m.cursor = some k) (hk : k ≤ cells.length) :
    ∃ l', l.iteratorNext = .ok (m.items.getD k 0, l') ∧
      l'.Holds cells { m with cursor := some (k + 1) } := by
  have hfew := h.few
  obtain ⟨-, hcur, hiter⟩ := h.cursor k hcursor
  have hlt : k + 1 < (l.framed cells).length := by rw [length_framed]; omega
  rw [List.getElem?_eq_getElem hlt, Option.map_some] at hcur
  obtain ⟨n, hn, hdata, hnext, -⟩ := h.linked.wired.lookup (List.getElem?_eq_getElem hlt)
  have hstep : incr32 (m.iterPos k) = m.iterPos (k + 1) := by
    rw [ListModel.iterPos, ListModel.iterPos, incr32_of_lt (by split_ifs <;> omega)]
    split_ifs <;> rfl
  rw [KsList.iteratorNext, h.active, hcursor, if_neg (by simp), hcur, entry_eq hn, ok_bind, hdata,
    hnext, hiter, h.data_eq (List.getElem?_eq_getElem hlt), hstep]
  refine ⟨_, rfl, ⟨h.linked.wired, h.linked.numels, h.linked.mid, h.linked.spares⟩, h.items,
    h.few, rfl, fun c hc => ?_, h.comparator, h.seeker⟩
  obtain rfl := Option.some.inj hc
  exact ⟨by omega, rfl, rfl⟩

/-- `ks_list_iterator_next`. -/
theorem Holds.iteratorNext (h : l.Holds cells m) (hr : l.Ready .iteratorNext) :
    ∃ l', (ListAnswer.with .ptr) <$> l.iteratorNext = .ok ((m.reply .iteratorNext).1, l') ∧
      l'.Holds cells (m.reply .iteratorNext).2 := by
  rw [ListModel.reply]
  cases hcursor : m.cursor with
  | none =>
    refine ⟨l, ?_, h⟩
    rw [KsList.iteratorNext, h.active, hcursor]
    rfl
  | some c =>
    obtain ⟨hc, hcur, -⟩ := h.cursor c hcursor
    have hle : c ≤ cells.length := by
      by_contra hgt
      rw [List.getElem?_eq_none (by rw [length_framed]; omega)] at hcur
      exact hr (by rw [h.active, hcursor]; rfl) hcur
    obtain ⟨l', hrun, hl'⟩ := h.visit hcursor hle
    exact ⟨l', by rw [hrun]; rfl, hl'⟩

theorem Keeps.framed (hk : l.Keeps l') : l'.framed cells = l.framed cells := by
  rw [KsList.framed, KsList.framed, hk.headSentinel, hk.tailSentinel]

/-- What comes behind an entry that has been taken out. -/
theorem framed_remove :
    (l.framed (xs ++ ys))[xs.length + 1]? = (l.framed (xs ++ a :: ys))[xs.length + 2]? := by
  have hremove : ((l.headSentinel, 0) :: xs ++ (ys ++ [(l.tailSentinel, 0)]))[xs.length + 1]? = _ :=
    getElem?_remove (a := a) (xs.length + 1)
  rw [if_neg (by simp)] at hremove
  simpa only [framed, List.append_assoc, List.cons_append] using hremove

/-- The element that has been visited last is deleted, the first one of the iteration. -/
theorem Holds.deleteVisited (h : l.Holds cells m) (hcursor : m.cursor = some (k + 1))
    (hbehind : m.behind = false) (hk : k < cells.length) :
    ∃ l' cells', l.deleteIterator = .ok (0, l') ∧ l'.Holds cells'
      { m with items := m.items.eraseIdx k, cursor := some k, behind := true } := by
  obtain ⟨hle, hcur, hpos⟩ := h.cursor (k + 1) hcursor
  rw [ListModel.iterPos, hbehind, if_neg Bool.false_ne_true] at hpos
  obtain ⟨xs, a, ys, rfl, rfl⟩ := exists_split hk
  have hiter : l.iterActive = true := by rw [h.active, hcursor]; rfl
  obtain ⟨l', hrun, hl', hk⟩ := h.linked.deleteIterator hiter hpos h.few
  refine ⟨l', xs ++ ys, hrun, hl', ?_, h.few_erase, hk.iterActive.trans hiter, fun c hc => ?_,
    hk.comparator.trans h.comparator, hk.seeker.trans h.seeker⟩
  · rw [← h.items, List.map_append, List.map_append, List.map_cons,
      List.eraseIdx_append_of_length_le (by rw [List.length_map]), List.length_map, Nat.sub_self,
      List.eraseIdx_cons_zero]
  · obtain rfl := Option.some.inj hc
    refine ⟨by rw [List.length_append]; omega, ?_, ?_⟩
    · rw [hk.iterCurentry, hcur, hk.framed, framed_remove (a := a)]
    · rw [hk.iterPos, hpos, ListModel.iterPos, if_pos rfl]

/-- `ks_list_delete_iterator`. -/
theorem Holds.deleteIterator (h : l.Holds cells m) (hr : l.Ready .deleteIterator) :
    ∃ l' cells', (ListAnswer.with .int) <$> l.deleteIterator =
        .ok ((m.reply .deleteIterator).1, l') ∧ l'.Holds cells' (m.reply .deleteIterator).2 := by
  have hfew := h.few
  rw [ListModel.reply]
  cases hcursor : m.cursor with
  | none =>
    have hiter : l.iterActive = false := by rw [h.active, hcursor]; rfl
    rw [KsList.deleteIterator, if_pos (.inl (by rw [hiter]; rfl))]
    exact ⟨l, cells, rfl, h⟩
  | some c =>
    obtain ⟨hle, hcur, hpos⟩ := h.cursor c hcursor
    obtain ⟨hpos0, hstep⟩ := hr (by rw [h.active, hcursor]; rfl)
    dsimp only
    by_cases hend : m.items.length < m.iterPos c
    · rw [if_pos hend, KsList.deleteIterator,
        if_pos (.inr (by rw [h.numels, hpos]; exact hend))]
      exact ⟨l, cells, rfl, h⟩
    · rw [if_neg hend]
      rw [h.length] at hend
      have hbehind : m.behind = false := by
        by_contra hbehind
        -- The position is behind the entry that the iteration is at.
        rw [ListModel.iterPos, if_pos (by simpa using hbehind)] at hpos hend
        have hfind := h.linked.findpos hfew (k := c + 2) (by omega)
        rw [hpos, h.numels, h.length, toInt32_of_lt (by omega), hcur,
          show ((c + 1 : ℕ) : ℤ) = (c + 2 : ℕ) - 1 by omega, hfind, ← List.getElem?_map,
          ← List.getElem?_map] at hstep
        have heq := (List.getElem?_inj (by rw [List.length_map, length_framed]; omega)
          (List.nodup_append'.1 h.linked.wired.nodup).1).1
          (Except.ok.inj (hstep.resolve_left hend))
        omega
      rw [ListModel.iterPos, hbehind, if_neg Bool.false_ne_true] at hpos hend
      obtain ⟨c, rfl⟩ : ∃ j, c = j + 1 := ⟨c - 1, by omega⟩
      obtain ⟨l', cells', hrun, hl'⟩ := h.deleteVisited hcursor hbehind (by omega)
      exact ⟨l', cells', by rw [hrun]; rfl, hl'⟩

/-! ### Calls -/

theorem Holds.sort {versus : ℤ} (h : l.Holds cells m) (hfit : l.Scales (-versus))
    (rand : ℕ → ℕ → ℕ) :
    ∃ o l' cells' m', l.step (.sort versus rand) = .ok (o, l') ∧
      m.Does (.sort versus rand) o m' ∧ l'.Holds cells' m' := by
  have hfew := h.few
  simp only [step, ListModel.Does]
  cases hcmp : m.comparator with
  | none =>
    refine ⟨.int (-1), l, cells, m, ?_, ⟨rfl, rfl⟩, h⟩
    rw [KsList.sort, h.comparator, hcmp]
    rfl
  | some cmp =>
    dsimp only
    by_cases hcursor : m.cursor.isSome
    · refine ⟨.int (-1), l, cells, m, ?_, by rw [if_pos hcursor]; exact ⟨rfl, rfl⟩, h⟩
      rw [KsList.sort, h.comparator, hcmp]
      dsimp only
      rw [h.active, if_pos hcursor]
      rfl
    · obtain ⟨l', cells', hrun, hl', hk, hperm, hsorted⟩ := h.linked.sort versus rand
        (h.comparator.trans hcmp) (h.inactive hcursor) (by omega) (by
          rw [toInt32_eq hfit.1]
          exact hfit.scaled_eq (h.comparator.trans hcmp))
      have hlen := hperm.length_eq
      rw [List.length_map, List.length_map] at hlen
      refine ⟨.int 0, l', cells', { m with items := cells'.map Prod.snd }, by rw [hrun]; rfl, ?_,
        h.edit (by simpa using hcursor) hl' hk (by omega) rfl⟩
      rw [if_neg hcursor]
      exact ⟨rfl, _, by rw [hcmp], h.items ▸ hperm, hsorted⟩

/-- A call other than a sort. -/
theorem Holds.reply {a : ListAct} (h : l.Holds cells m) (hr : l.Ready a) (hfit : l.Fitting a)
    (hsort : ∀ versus rand, a ≠ .sort versus rand) :
    ∃ l' cells', l.step a = .ok ((m.reply a).1, l') ∧ l'.Holds cells' (m.reply a).2 := by
  cases a with
  | append data start =>
    obtain ⟨l', cells', hrun, hl'⟩ := h.insertAt data l.numels hr.1 hr.2
    rw [h.numels] at hrun hl'
    exact ⟨l', cells', by rw [step, KsList.append, h.numels, hrun]; rfl, hl'⟩
  | prepend data start => exact h.insertAt data 0 hr.1 hr.2
  | insertAt data pos start => exact h.insertAt data pos hr.1 hr.2
  | fetch => exact h.extractAt
  | extractAt pos => exact h.extractAt
  | deleteAt pos =>
    obtain ⟨r, l', cells', hrun, hans, -, hl'⟩ := h.deleteAt pos
    exact ⟨l', cells', by rw [step, hrun, ListModel.reply, hans]; rfl, hl'⟩
  | delete data => exact h.delete
  | deleteRange posstart posend => exact h.deleteRange
  | clear => exact h.clear
  | getAt pos => exact ⟨l, cells, by rw [step, h.getAt hr]; rfl, h⟩
  | getMax => exact ⟨l, cells, by rw [step, getMax, h.getMinmax hfit]; rfl, h⟩
  | getMin => exact ⟨l, cells, by rw [step, getMin, h.getMinmax hfit]; rfl, h⟩
  | size => exact ⟨l, cells, by rw [step, h.numels]; rfl, h⟩
  | empty =>
    refine ⟨l, cells, ?_, h⟩
    rw [step, h.numels, ListModel.reply]
    simp only [List.length_eq_zero_iff]
  | locate data => exact ⟨l, cells, by rw [step, h.locate]; rfl, h⟩
  | contains data => exact ⟨l, cells, by rw [step, h.contains]; rfl, h⟩
  | seek indicator => exact ⟨l, cells, by rw [step, h.seek]; rfl, h⟩
  | sort versus rand => exact absurd rfl (hsort versus rand)
  | iteratorStart =>
    obtain ⟨l', hrun, hl'⟩ := h.iteratorStart
    exact ⟨l', cells, hrun, hl'⟩
  | iteratorNext =>
    obtain ⟨l', hrun, hl'⟩ := h.iteratorNext hr
    exact ⟨l', cells, hrun, hl'⟩
  | iteratorHasnext =>
    refine ⟨l, cells, ?_, h⟩
    rw [step, KsList.iteratorHasnext, h.active, h.numels, ListModel.reply]
    cases hcursor : m.cursor with
    | none => rfl
    | some c =>
      rw [(h.cursor c hcursor).2.2]
      rfl
  | iteratorStop =>
    rw [step, ListModel.reply]
    by_cases hcursor : m.cursor.isSome
    · obtain ⟨l', hrun, hl'⟩ := h.stopped hcursor
      rw [if_pos hcursor, hrun]
      exact ⟨l', cells, rfl, hl'⟩
    · rw [if_neg hcursor, KsList.iteratorStop, h.inactive hcursor]
      exact ⟨l, cells, rfl, h⟩
  | deleteIterator => exact h.deleteIterator hr
  | comparator cmp =>
    exact ⟨_, cells, rfl, ⟨h.linked.wired, h.linked.numels, h.linked.mid, h.linked.spares⟩, h.items,
      h.few, h.active, h.cursor, rfl, h.seeker⟩
  | seeker seeker =>
    exact ⟨_, cells, rfl, ⟨h.linked.wired, h.linked.numels, h.linked.mid, h.linked.spares⟩, h.items,
      h.few, h.active, h.cursor, h.comparator, rfl⟩

/-- A list that has been created is empty. -/
theorem create_spec {hd tl : ℕ} (hne : hd ≠ tl) :
    ∃ l, create hd tl = .ok l ∧ l.Holds [] {} := by
  set l : KsList :=
    { headSentinel := hd
      tailSentinel := tl
      heap := ((∅ : Heap ListEntry).insert tl { prev := some hd }).insert hd { next := some tl } }
    with hl
  have hwired : Wired l.heap (l.framed []) [] := by
    refine ⟨⟨?_, ?_, ?_, ?_, trivial⟩, by simp [framed, hl, hne], fun p => ?_, fun c hc => ?_⟩
    · exact Heap.link_insert_self
    · exact Heap.link_insert_self
    · exact (Heap.link_insert_of_ne hne.symm).trans Heap.link_insert_self
    · exact (Heap.link_insert_of_ne hne.symm).trans Heap.link_insert_self
    · simp [framed, hl, Finmap.mem_insert, Finmap.notMem_empty]
    · simp only [framed, hl, List.nil_append, List.mem_cons, List.not_mem_nil, or_false] at hc
      rcases hc with rfl | rfl
      · rw [dataOf, Finmap.lookup_insert]
        rfl
      · rw [dataOf, Finmap.lookup_insert_of_ne _ hne.symm, Finmap.lookup_insert]
        rfl
  have h : l.Linked [] [] := ⟨hwired, rfl, rfl, by simp [hl]⟩
  exact ⟨l, h.checked (by simp), h, rfl, by simp, rfl, fun c hc => absurd hc (Option.not_mem_none c),
    rfl, rfl⟩

/-- Every row of calls that the caller may make does what the model allows. -/
theorem calls_allowed {hd tl : ℕ} {as : List ListAct} (hne : hd ≠ tl)
    (hcreate : create hd tl = .ok l) (hready : Along step Ready l as)
    (hfit : Along step Fitting l as) :
    ∃ os l' m', calls step l as = .ok (os, l') ∧ Allows ListModel.Does {} as os m' ∧
      ∃ cells, l'.Holds cells m' := by
  obtain ⟨l₀, hrun, h₀⟩ := create_spec hne
  obtain rfl := Except.ok.inj (hcreate.symm.trans hrun)
  refine calls_simulates (R := fun l m => ∃ cells, Holds l cells m) ?_ ⟨[], h₀⟩ (hready.and hfit)
  rintro l m a ⟨cells, h⟩ ⟨hr, hfit⟩
  by_cases hsort : ∃ versus rand, a = .sort versus rand
  · obtain ⟨versus, rand, rfl⟩ := hsort
    obtain ⟨o, l', cells', m', hrun, hdoes, hl'⟩ := h.sort hfit rand
    exact ⟨o, l', m', hrun, hdoes, cells', hl'⟩
  · obtain ⟨l', cells', hrun, hl'⟩ := h.reply hr hfit fun versus rand heq =>
      hsort ⟨versus, rand, heq⟩
    exact ⟨_, l', _, hrun, m.does_reply fun versus rand heq => hsort ⟨versus, rand, heq⟩,
      cells', hl'⟩

/-- One of two elements is deleted in an iteration. -/
theorem calls_allowed_iteration :
    ∃ l, create 1 2 = .ok l ∧ ∃ os l' m',
      calls step l [.append 7 3, .append 5 4, .iteratorStart, .iteratorNext, .deleteIterator] =
        .ok (os, l') ∧
      Allows ListModel.Does {}
        [.append 7 3, .append 5 4, .iteratorStart, .iteratorNext, .deleteIterator] os m' ∧
      ∃ cells, l'.Holds cells m' :=
  ⟨_, rfl, calls_allowed (show 1 ≠ 2 by decide) rfl (by decide +kernel)
    ⟨trivial, fun _ _ _ => ⟨trivial, fun _ _ _ => ⟨trivial, fun _ _ _ => ⟨trivial, fun _ _ _ =>
      ⟨trivial, fun _ _ _ => trivial⟩⟩⟩⟩⟩⟩

end KsList

end Libks
