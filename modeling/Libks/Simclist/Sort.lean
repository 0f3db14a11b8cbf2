import Libks.Base.Rearrange
import Libks.Simclist.Edits

/-!
# Sorting a list

`ks_list_sort` moves the data of the entries, never the entries. It is a quicksort with a
random pivot: two cursors come in from the ends and exchange what is on the wrong side,
until one of them is at the pivot, and then the pivot moves through what is left. Ranges of
up to 24 elements are sorted by selection.

Every step exchanges elements of its range, whatever the comparator (`Rearranges`), and the
range is in order at the end if the comparator gives the sign of an order
(`Linked.quicksort`).
-/

namespace Libks

open Base

namespace KsList

/-! ## The functions -/

/-- `SIMCLIST_MINQUICKSORTELS`. -/
def minQuicksortEls : ℕ := 24

/-- The data of an entry is set. -/
def setData (l : KsList) (o : Option ℕ) (data : ℕ) : Except Fault KsList :=
  l.modify o fun n => { n with data }

/-- The data of two entries is exchanged. -/
def swapData (l : KsList) (a b : Option ℕ) : Except Fault KsList := do
  let tmpdata := (← l.entry a).data
  let l ← l.setData a (← l.entry b).data
  l.setData b tmpdata

/-- The pivot moves to the entry `near` beside it, and what is at `o` takes its place. -/
def rotateData (l : KsList) (o near pivot : Option ℕ) : Except Fault KsList := do
  let tmpdata := (← l.entry o).data
  let l ← l.setData o (← l.entry near).data
  let l ← l.setData near (← l.entry pivot).data
  l.setData pivot tmpdata

variable (ord : ℕ → ℕ → ℤ)

/-- The inner loop of `ks_list_sort_selectionsort`: the entry with the least element up to
    `lel`. -/
def selectLoop (l : KsList) (lel : Option ℕ) : ℕ → Option ℕ → Option ℕ → Except Fault (Option ℕ)
  | 0, _, _ => .error .outOfFuel
  | fuel + 1, toswap, cursor => do
    let stop := (← l.entry lel).next
    if cursor = stop then return toswap
    else do
      let t ← l.entry toswap
      let c ← l.entry cursor
      l.selectLoop lel fuel (if 0 < ord t.data c.data then cursor else toswap) c.next

/-- Its exchange of the two entries, if they are not the same. -/
def swapOther (l : KsList) (a b : Option ℕ) : Except Fault KsList :=
  if b ≠ a then l.swapData a b else .ok l

/-- Its outer loop. -/
def selectionLoop (l : KsList) (lel : Option ℕ) : ℕ → Option ℕ → Except Fault KsList
  | 0, _ => .error .outOfFuel
  | fuel + 1, firstunsorted =>
    if firstunsorted = lel then .ok l
    else do
      let n ← l.entry firstunsorted
      let toswap ← l.selectLoop ord lel l.fuel firstunsorted n.next
      let l ← l.swapOther firstunsorted toswap
      let n ← l.entry firstunsorted
      l.selectionLoop lel fuel n.next

/-- `ks_list_sort_selectionsort`. -/
def sortSelectionsort (l : KsList) (first : ℕ) (fel : Option ℕ) (last : ℕ) (lel : Option ℕ) :
    Except Fault KsList :=
  if last ≤ first then .ok l else l.selectionLoop ord lel l.fuel fel

/-- The entry of the pivot, from the nearer end of the range. -/
def findPivot (l : KsList) (pivotid span : ℕ) (fel lel : Option ℕ) : Except Fault (Option ℕ) :=
  if pivotid < span / 2 then l.heap.walk .outOfBounds ListEntry.next pivotid fel
  else l.heap.walk .outOfBounds ListEntry.prev (span - 1 - pivotid) lel

/-- A cursor moves on along the links `g` up to the pivot, while what it meets fits. -/
def scan (l : KsList) (g : ListEntry → Option ℕ) (fits : ℤ → Bool) (pivot : Option ℕ) :
    ℕ → Option ℕ → Except Fault (Option ℕ)
  | 0, _ => .error .outOfFuel
  | fuel + 1, o =>
    if o = pivot then .ok o
    else do
      let n ← l.entry o
      let p ← l.entry pivot
      if fits (ord n.data p.data) then l.scan g fits pivot fuel (g n) else return o

/-- The loop of `ks_list_sort_quicksort` in which two cursors come in from the ends. -/
def partitionLoop (l : KsList) (pivot : Option ℕ) :
    ℕ → Option ℕ → Option ℕ → Except Fault (KsList × Option ℕ × Option ℕ)
  | 0, _, _ => .error .outOfFuel
  | fuel + 1, left, right =>
    if left ≠ pivot ∧ right ≠ pivot then do
      let left ← l.scan ord ListEntry.next (· ≤ 0) pivot l.fuel left
      let right ← l.scan ord ListEntry.prev (0 ≤ ·) pivot l.fuel right
      if left ≠ pivot ∧ right ≠ pivot then do
        let l ← l.swapData left right
        let n ← l.entry left
        let m ← l.entry right
        l.partitionLoop pivot fuel n.next m.prev
      else l.partitionLoop pivot fuel left right
    else .ok (l, left, right)

/-- The loops that follow: a cursor moves on along the links `ahead` up to the pivot, which
    moves to meet it, along the links `back`, whenever something is on the wrong side. -/
def settleLoop (ahead back : ListEntry → Option ℕ) (wrong : ℤ → Bool) (shift : ℕ → ℕ)
    (l : KsList) : ℕ → Option ℕ → Option ℕ → ℕ → Except Fault (KsList × Option ℕ × ℕ)
  | 0, _, _, _ => .error .outOfFuel
  | fuel + 1, o, pivot, pivotid =>
    if o = pivot then .ok (l, pivot, pivotid)
    else do
      let n ← l.entry o
      let p ← l.entry pivot
      if wrong (ord n.data p.data) then do
        let l ← l.rotateData o (back p) pivot
        let p ← l.entry pivot
        settleLoop ahead back wrong shift l fuel o (back p) (shift pivotid)
      else settleLoop ahead back wrong shift l fuel (ahead n) pivot pivotid

/-- The loop for when the left part is longer. -/
def settleLeft (l : KsList) : ℕ → Option ℕ → Option ℕ → ℕ → Except Fault (KsList × Option ℕ × ℕ) :=
  settleLoop ord ListEntry.next ListEntry.prev (0 < ·) decr32 l

/-- The loop for when the right part is longer. -/
def settleRight (l : KsList) : ℕ → Option ℕ → Option ℕ → ℕ → Except Fault (KsList × Option ℕ × ℕ) :=
  settleLoop ord ListEntry.prev ListEntry.next (· < 0) incr32 l

/-- The pivot comes to its place. -/
def settle (l : KsList) (left right pivot : Option ℕ) (pivotid : ℕ) :
    Except Fault (KsList × Option ℕ × ℕ) :=
  if right = pivot then l.settleLeft ord l.fuel left pivot pivotid
  else l.settleRight ord l.fuel right pivot pivotid

/-- `ks_list_sort_quicksort`. No two calls of one sort have the same range, so that the
    numbers of `rand` are given by it. -/
def sortQuicksort (rand : ℕ → ℕ → ℕ) :
    ℕ → KsList → ℕ → Option ℕ → ℕ → Option ℕ → Except Fault KsList
  | 0, _, _, _, _, _ => .error .outOfFuel
  | fuel + 1, l, first, fel, last, lel =>
    if last ≤ first then .ok l
    else if last - first + 1 ≤ minQuicksortEls then l.sortSelectionsort ord first fel last lel
    else do
      let pivotid := rand first last % (last - first + 1)
      let pivot ← l.findPivot pivotid (last - first + 1) fel lel
      let (l, left, right) ← l.partitionLoop ord pivot l.fuel fel lel
      let (l, pivot, pivotid) ← l.settle ord left right pivot pivotid
      let p ← l.entry pivot
      let l ← (if 0 < pivotid then
        sortQuicksort rand fuel l first fel (first + pivotid - 1) p.prev else .ok l)
      let p ← l.entry pivot
      if first + pivotid < last then
        sortQuicksort rand fuel l (first + pivotid + 1) p.next last lel
      else .ok l

/-- `ks_list_sort`. -/
def sort (l : KsList) (versus : ℤ) (rand : ℕ → ℕ → ℕ) : Except Fault (ℤ × KsList) :=
  match l.comparator with
  | none => .ok (-1, l)
  | some cmp =>
    if l.iterActive then .ok (-1, l)
    else if l.numels ≤ 1 then .ok (0, l)
    else do
      let hd ← l.entry (some l.headSentinel)
      let tl ← l.entry (some l.tailSentinel)
      let l ← sortQuicksort (scaled cmp (toInt32 (-versus))) rand l.numels l 0 hd.next
        (l.numels - 1) tl.prev
      let l ← l.checked
      return (0, l)

/-! ## Entries by their positions -/

variable {ord} {l : KsList} {addrs : List ℕ} {f : ℕ → ℕ} {lost : List ℕ} {i j k p d : ℕ}

/-- The cells at the addresses, with the data `f i` at the position `i`. -/
def cellsOf (addrs : List ℕ) (f : ℕ → ℕ) : List (ℕ × ℕ) := addrs.mapIdx fun i a => (a, f i)

/-- The address at a position; the last one is that of the sentinel. -/
def adr (l : KsList) (addrs : List ℕ) (i : ℕ) : Option ℕ := (addrs ++ [l.tailSentinel])[i]?

@[simp] theorem length_cellsOf : (cellsOf addrs f).length = addrs.length := List.length_mapIdx

theorem getElem?_cellsOf : (cellsOf addrs f)[i]? = addrs[i]?.map fun a => (a, f i) :=
  List.getElem?_mapIdx

/-- The address of a cell in the frame. -/
theorem framed_cellsOf (hi : i ≤ addrs.length) :
    (l.framed (cellsOf addrs f))[i + 1]?.map Prod.fst = l.adr addrs i := by
  rw [adr]
  rcases Nat.lt_or_eq_of_le hi with hlt | rfl
  · rw [framed_succ (by rwa [length_cellsOf]), getElem?_cellsOf, List.getElem?_append_left hlt,
      Option.map_map, List.getElem?_eq_getElem hlt]
    rfl
  · have : (l.framed (cellsOf addrs f))[(cellsOf addrs f).length + 1]? = _ := framed_last
    rw [length_cellsOf] at this
    rw [this, List.getElem?_concat_length]
    rfl

/-- Different positions have different addresses. -/
theorem adr_inj (h : l.Linked (cellsOf addrs f) lost) (hi : i ≤ addrs.length)
    (hj : j ≤ addrs.length) : l.adr addrs i = l.adr addrs j ↔ i = j := by
  refine ⟨fun heq => ?_, fun heq => heq ▸ rfl⟩
  have hnd := (List.nodup_append'.1 h.wired.nodup).1
  rw [← framed_cellsOf (f := f) hi, ← framed_cellsOf (f := f) hj, ← List.getElem?_map,
    ← List.getElem?_map] at heq
  have hlen : i + 1 < ((l.framed (cellsOf addrs f)).map Prod.fst).length := by
    rw [List.length_map, length_framed, length_cellsOf]
    omega
  have := (List.getElem?_inj hlen hnd).1 heq
  omega

/-- The entry at a position. -/
theorem entry_adr (h : l.Linked (cellsOf addrs f) lost) (hi : i < addrs.length) :
    ∃ n, l.entry (l.adr addrs i) = .ok n ∧ n.data = f i ∧ n.next = l.adr addrs (i + 1) ∧
      ∀ j, i = j + 1 → n.prev = l.adr addrs j := by
  have hcell : (l.framed (cellsOf addrs f))[i + 1]? = some (addrs[i], f i) := by
    rw [framed_succ (by rwa [length_cellsOf]), getElem?_cellsOf, List.getElem?_eq_getElem hi]
    rfl
  obtain ⟨n, hn, hdata, hnext, hprev⟩ := h.wired.lookup hcell
  rw [framed_cellsOf hi] at hnext
  refine ⟨n, ?_, hdata, hnext, fun j hj => ?_⟩
  · rw [adr, List.getElem?_append_left hi, List.getElem?_eq_getElem hi, entry_eq hn]
  · rw [hprev (j + 1) (by omega), framed_cellsOf (by omega)]

/-- The data at a position is set. -/
theorem setData_adr (h : l.Linked (cellsOf addrs f) lost) (hi : i < addrs.length) (d : ℕ) :
    ∃ heap, l.setData (l.adr addrs i) d = .ok { l with heap } ∧
      Linked { l with heap } (cellsOf addrs (Function.update f i d)) lost := by
  have hsplit (g : ℕ → ℕ) : l.framed (cellsOf addrs g) =
      (l.framed (cellsOf addrs g)).take (i + 1) ++ (addrs[i], g i) ::
        (l.framed (cellsOf addrs g)).drop (i + 2) := by
    have hlt : i + 1 < (l.framed (cellsOf addrs g)).length := by
      rw [length_framed, length_cellsOf]
      omega
    have hcell : (l.framed (cellsOf addrs g))[i + 1]? = some (addrs[i], g i) := by
      rw [framed_succ (by rwa [length_cellsOf]), getElem?_cellsOf, List.getElem?_eq_getElem hi]
      rfl
    rw [List.getElem?_eq_getElem hlt] at hcell
    rw [← Option.some.inj hcell, List.getElem_cons_drop, List.take_append_drop]
  have w := h.wired
  rw [hsplit f] at w
  obtain ⟨heap, hu, w'⟩ := w.setData d
  -- The other cells are the same.
  have hcells : l.framed (cellsOf addrs (Function.update f i d)) =
      (l.framed (cellsOf addrs f)).take (i + 1) ++ (addrs[i], d) ::
        (l.framed (cellsOf addrs f)).drop (i + 2) := by
    have hother (m : ℕ) (hm : m ≠ i + 1) : (l.framed (cellsOf addrs (Function.update f i d)))[m]? =
        (l.framed (cellsOf addrs f))[m]? := by
      rw [framed, framed]
      cases m with
      | zero => rfl
      | succ m =>
        rw [List.getElem?_cons_succ, List.getElem?_cons_succ, List.getElem?_append,
          List.getElem?_append, length_cellsOf, length_cellsOf, getElem?_cellsOf, getElem?_cellsOf,
          Function.update_of_ne (by omega)]
    rw [hsplit, Function.update_self]
    congr 1
    · refine List.ext_getElem? fun m => ?_
      rw [List.getElem?_take, List.getElem?_take]
      split_ifs with hm
      · exact hother m (by omega)
      · rfl
    · congr 1
      refine List.ext_getElem? fun m => ?_
      rw [List.getElem?_drop, List.getElem?_drop]
      exact hother _ (by omega)
  rw [← hcells] at w'
  refine ⟨heap, ?_, w', ?_, ?_, h.spares⟩
  · rw [setData, adr, List.getElem?_append_left hi, List.getElem?_eq_getElem hi, modify_eq hu]
  · exact h.numels.trans (by rw [length_cellsOf, length_cellsOf])
  · refine h.mid.trans ?_
    rw [getElem?_cellsOf, getElem?_cellsOf, length_cellsOf, length_cellsOf, Option.map_map,
      Option.map_map]
    rfl

/-! ## Exchanges -/

/-- Two elements are exchanged. -/
theorem swapData_adr (h : l.Linked (cellsOf addrs f) lost) (hi : i < addrs.length)
    (hj : j < addrs.length) :
    ∃ heap, l.swapData (l.adr addrs i) (l.adr addrs j) = .ok { l with heap } ∧
      Linked { l with heap } (cellsOf addrs (f ∘ Equiv.swap i j)) lost := by
  obtain ⟨n, hn, hndata, -⟩ := entry_adr h hi
  obtain ⟨m, hm, hmdata, -⟩ := entry_adr h hj
  obtain ⟨h₁, hu₁, hl₁⟩ := setData_adr h hi (f j)
  obtain ⟨h₂, hu₂, hl₂⟩ := setData_adr hl₁ hj (f i)
  refine ⟨h₂, ?_, ?_⟩
  · rw [swapData, hn, ok_bind, hm, ok_bind, hndata, hmdata, hu₁, ok_bind]
    exact hu₂
  · have heq : f ∘ Equiv.swap i j = Function.update (Function.update f i (f j)) j (f i) := by
      funext k
      rw [Function.comp_apply, Equiv.swap_apply_def, Function.update_apply, Function.update_apply]
      split_ifs <;> simp_all
    rw [heq]
    exact hl₂

/-- The pivot at `p` moves to `k`, and what is at `i` takes its place. -/
theorem rotateData_adr (h : l.Linked (cellsOf addrs f) lost) (hi : i < addrs.length)
    (hk : k < addrs.length) (hp : p < addrs.length) (hip : i ≠ p) (hkp : k ≠ p) :
    ∃ heap, l.rotateData (l.adr addrs i) (l.adr addrs k) (l.adr addrs p) = .ok { l with heap } ∧
      Linked { l with heap } (cellsOf addrs ((f ∘ Equiv.swap i k) ∘ Equiv.swap k p)) lost := by
  obtain ⟨n, hn, hndata, -⟩ := entry_adr h hi
  obtain ⟨m, hm, hmdata, -⟩ := entry_adr h hk
  obtain ⟨h₁, hu₁, hl₁⟩ := setData_adr h hi (f k)
  obtain ⟨n₁, hn₁, hndata₁, -⟩ := entry_adr hl₁ hp
  obtain ⟨h₂, hu₂, hl₂⟩ := setData_adr hl₁ hk (f p)
  obtain ⟨h₃, hu₃, hl₃⟩ := setData_adr hl₂ hp (f i)
  have hpivot : Function.update f i (f k) p = f p := Function.update_of_ne hip.symm ..
  refine ⟨h₃, ?_, ?_⟩
  · rw [rotateData, hn, ok_bind, hm, ok_bind, hndata, hmdata, hu₁, ok_bind]
    rw [show l.adr addrs p = KsList.adr { l with heap := h₁ } addrs p from rfl, hn₁, ok_bind,
      hndata₁, hpivot]
    rw [show l.adr addrs k = KsList.adr { l with heap := h₁ } addrs k from rfl, hu₂, ok_bind]
    exact hu₃
  · have heq : (f ∘ Equiv.swap i k) ∘ Equiv.swap k p =
        Function.update (Function.update (Function.update f i (f k)) k (f p)) p (f i) := by
      funext m
      simp only [Function.comp_apply, Equiv.swap_apply_def, Function.update_apply]
      split_ifs <;> simp_all
    rw [heq]
    exact hl₃

/-! ## Selection -/

/-- The inner loop finds an element that none of those it has met is less than. -/
theorem selectLoop_adr (h : l.Linked (cellsOf addrs f) lost) {last t c m : ℕ}
    (hlast : last < addrs.length) (hi : i ≤ t) (ht : t ≤ last) (hic : i ≤ c) (hc : c ≤ last + 1)
    (hfuel : last + 1 - c < m)
    (hleast : SignOrder ord → ∀ k, i ≤ k → k < c → ord (f t) (f k) ≤ 0) :
    ∃ j, l.selectLoop ord (l.adr addrs last) m (l.adr addrs t) (l.adr addrs c) =
        .ok (l.adr addrs j) ∧ i ≤ j ∧ j ≤ last ∧
      (SignOrder ord → ∀ k, i ≤ k → k ≤ last → ord (f j) (f k) ≤ 0) := by
  induction m generalizing t c with
  | zero => omega
  | succ m ih =>
    obtain ⟨n, hn, -, hnext, -⟩ := entry_adr h hlast
    rw [selectLoop, hn, ok_bind, hnext]
    dsimp only
    rcases Nat.lt_or_eq_of_le hc with hlt | rfl
    · have hstop : l.adr addrs c ≠ l.adr addrs (last + 1) := fun heq => by
        have := (adr_inj h (by omega) (by omega)).1 heq
        omega
      obtain ⟨nt, hnt, htdata, -⟩ := entry_adr h (show t < addrs.length by omega)
      obtain ⟨nc, hnc, hcdata, hcnext, -⟩ := entry_adr h (show c < addrs.length by omega)
      rw [if_neg hstop, hnt, ok_bind, hnc, ok_bind, htdata, hcdata, hcnext]
      split_ifs with hpos
      · -- The element at the cursor is less.
        refine ih hic (by omega) (by omega) (by omega) (by omega) fun ho k hik hkc => ?_
        have hlt : ord (f c) (f t) ≤ 0 := (ho.symm _ _).1 (Int.le_of_lt hpos)
        rcases Nat.lt_or_eq_of_le (Nat.le_of_lt_succ hkc) with hk | rfl
        · exact ho.trans _ _ _ hlt (hleast ho k hik hk)
        · exact ho.refl _
      · refine ih hi ht (by omega) (by omega) (by omega) fun ho k hik hkc => ?_
        rcases Nat.lt_or_eq_of_le (Nat.le_of_lt_succ hkc) with hk | rfl
        · exact hleast ho k hik hk
        · exact Int.not_lt.1 hpos
    · rw [if_pos rfl]
      exact ⟨t, rfl, hi, ht, fun ho k hik hk => hleast ho k hik (by omega)⟩

/-- The exchange of the two elements. -/
theorem swapOther_adr (h : l.Linked (cellsOf addrs f) lost) (hi : i < addrs.length)
    (hj : j < addrs.length) :
    ∃ heap, l.swapOther (l.adr addrs i) (l.adr addrs j) = .ok { l with heap } ∧
      Linked { l with heap } (cellsOf addrs (f ∘ Equiv.swap i j)) lost := by
  rw [swapOther]
  split_ifs with hne
  · exact swapData_adr h hi hj
  · obtain rfl := (adr_inj h (by omega) (by omega)).1 (not_not.1 hne)
    rw [Equiv.swap_self]
    exact ⟨l.heap, rfl, h⟩

/-- The outer loop puts one element after the other at its place. -/
theorem selectionLoop_adr {first last fuel : ℕ} (h : l.Linked (cellsOf addrs f) lost)
    (hlast : last < addrs.length) (hi₁ : first ≤ i) (hi₂ : i ≤ last) (hfuel : last - i < fuel) :
    ∃ heap f', l.selectionLoop ord (l.adr addrs last) fuel (l.adr addrs i) = .ok { l with heap } ∧
      Linked { l with heap } (cellsOf addrs f') lost ∧ Rearranges i last f f' ∧
      (SignOrder ord → SortedOn ord f' i last) := by
  induction fuel generalizing l f i with
  | zero => omega
  | succ fuel ih =>
    have hlen := h.length_lt_fuel
    rw [length_cellsOf] at hlen
    rw [selectionLoop]
    rcases Nat.lt_or_eq_of_le hi₂ with hlt | rfl
    · have hne : l.adr addrs i ≠ l.adr addrs last := fun heq => by
        have := (adr_inj h (by omega) (by omega)).1 heq
        omega
      obtain ⟨n, hn, -, hnext, -⟩ := entry_adr h (show i < addrs.length by omega)
      obtain ⟨j, hsel, hij, hj, hleast⟩ := selectLoop_adr (m := l.fuel) (c := i + 1) h
        hlast (Nat.le_refl i) hi₂ (by omega) (by omega) (by omega)
        (fun (ho : SignOrder ord) k hik hk => by
          obtain rfl : k = i := by omega
          exact ho.refl _)
      obtain ⟨h₁, hswap, hl₁⟩ := swapOther_adr h (show i < addrs.length by omega)
        (show j < addrs.length by omega)
      obtain ⟨n₁, hn₁, -, hnext₁, -⟩ := entry_adr hl₁ (show i < addrs.length by omega)
      obtain ⟨h₂, f', hrun, hl₂, hre, hsorted⟩ :=
        ih (i := i + 1) hl₁ (by omega) (by omega) (by omega)
      have hre₁ : Rearranges i last f (f ∘ Equiv.swap i j) :=
        .swap f (Nat.le_refl _) hi₂ hij hj
      refine ⟨h₂, f', ?_, hl₂, hre₁.trans (hre.mono (by omega) (Nat.le_refl _)), fun ho => ?_⟩
      · rw [if_neg hne, hn, ok_bind, hnext, hsel, ok_bind, hswap, ok_bind]
        rw [show l.adr addrs i = KsList.adr { l with heap := h₁ } addrs i from rfl, hn₁, ok_bind,
          hnext₁]
        exact hrun
      · -- The element put at its place is the least one, and the others are what follows.
        refine (hsorted ho).cons fun k hik hk => ?_
        have hhead : f' i = f j := by
          rw [hre.eq_of_notMem (.inl (by omega)), Function.comp_apply, Equiv.swap_apply_left]
        have hrest : ∀ m, i ≤ m → m ≤ last → ord (f j) ((f ∘ Equiv.swap i j) m) ≤ 0 :=
          hre₁.forall (P := fun x => ord (f j) x ≤ 0) (hleast ho)
        rw [hhead]
        exact hre.forall (P := fun x => ord (f j) x ≤ 0) (fun m hm => hrest m (by omega)) k
          (by omega) hk
    · rw [if_pos rfl]
      exact ⟨l.heap, f, rfl, h, .refl .., fun _ => .of_le (Nat.le_refl _)⟩

/-! ## Partition -/

variable {first last m : ℕ}

variable (ord) in
/-- The left cursor moves on to the first element that does not fit. -/
theorem scan_next (h : l.Linked (cellsOf addrs f) lost) (hp : p < addrs.length) (hi : i ≤ p)
    (hm : p - i < m) :
    ∃ j, l.scan ord ListEntry.next (· ≤ 0) (l.adr addrs p) m (l.adr addrs i) =
        .ok (l.adr addrs j) ∧ i ≤ j ∧ j ≤ p ∧
      (∀ k, i ≤ k → k < j → ord (f k) (f p) ≤ 0) ∧ (j = p ∨ 0 < ord (f j) (f p)) := by
  induction m generalizing i with
  | zero => omega
  | succ m ih =>
    rw [scan]
    rcases Nat.lt_or_eq_of_le hi with hlt | rfl
    · have hne : l.adr addrs i ≠ l.adr addrs p := fun heq => by
        have := (adr_inj h (by omega) (by omega)).1 heq
        omega
      obtain ⟨n, hn, hndata, hnext, -⟩ := entry_adr h (show i < addrs.length by omega)
      obtain ⟨np, hnp, hpdata, -⟩ := entry_adr h hp
      rw [if_neg hne, hn, ok_bind, hnp, ok_bind, hndata, hpdata, hnext]
      by_cases hfit : ord (f i) (f p) ≤ 0
      · obtain ⟨j, hrun, hij, hj, hfits, hstop⟩ := ih hlt (by omega)
        rw [if_pos (by simpa using hfit), hrun]
        refine ⟨j, rfl, by omega, hj, fun k hik hkj => ?_, hstop⟩
        rcases Nat.lt_or_eq_of_le hik with hk | rfl
        · exact hfits k hk hkj
        · exact hfit
      · rw [if_neg (by simpa using hfit)]
        exact ⟨i, rfl, Nat.le_refl _, hi, fun k _ _ => by omega, .inr (Int.not_le.1 hfit)⟩
    · rw [if_pos rfl]
      exact ⟨i, rfl, Nat.le_refl _, Nat.le_refl _, fun k _ _ => by omega, .inl rfl⟩

variable (ord) in
/-- The right cursor does so from the other end. -/
theorem scan_prev (h : l.Linked (cellsOf addrs f) lost) (hj : j < addrs.length) (hp : p ≤ j)
    (hm : j - p < m) :
    ∃ i, l.scan ord ListEntry.prev (0 ≤ ·) (l.adr addrs p) m (l.adr addrs j) =
        .ok (l.adr addrs i) ∧ p ≤ i ∧ i ≤ j ∧
      (∀ k, i < k → k ≤ j → 0 ≤ ord (f k) (f p)) ∧ (i = p ∨ ord (f i) (f p) < 0) := by
  induction m generalizing j with
  | zero => omega
  | succ m ih =>
    rw [scan]
    rcases Nat.lt_or_eq_of_le hp with hlt | rfl
    · obtain ⟨j, rfl⟩ : ∃ j', j = j' + 1 := ⟨j - 1, by omega⟩
      have hne : l.adr addrs (j + 1) ≠ l.adr addrs p := fun heq => by
        have := (adr_inj h (by omega) (by omega)).1 heq
        omega
      obtain ⟨n, hn, hndata, -, hprev⟩ := entry_adr h hj
      obtain ⟨np, hnp, hpdata, -⟩ := entry_adr h (show p < addrs.length by omega)
      rw [if_neg hne, hn, ok_bind, hnp, ok_bind, hndata, hpdata, hprev j rfl]
      by_cases hfit : 0 ≤ ord (f (j + 1)) (f p)
      · obtain ⟨i, hrun, hpi, hij, hfits, hstop⟩ := ih (j := j) (by omega) (by omega) (by omega)
        rw [if_pos (by simpa using hfit), hrun]
        refine ⟨i, rfl, hpi, by omega, fun k hik hkj => ?_, hstop⟩
        rcases Nat.lt_or_eq_of_le hkj with hk | rfl
        · exact hfits k hik (by omega)
        · exact hfit
      · rw [if_neg (by simpa using hfit)]
        exact ⟨j + 1, rfl, hp, Nat.le_refl _, fun k _ _ => by omega, .inr (Int.not_le.1 hfit)⟩
    · rw [if_pos rfl]
      exact ⟨p, rfl, Nat.le_refl _, Nat.le_refl _, fun k _ _ => by omega, .inl rfl⟩

/-- What the cursors at `i` and `j` have left behind is on its side of the pivot at `p`. -/
structure Parted (ord : ℕ → ℕ → ℤ) (f : ℕ → ℕ) (first i p j last : ℕ) : Prop where
  bounds : first ≤ i ∧ i ≤ p ∧ p ≤ j ∧ j ≤ last
  before : ∀ k, first ≤ k → k < i → ord (f k) (f p) ≤ 0
  behind : ∀ k, j < k → k ≤ last → 0 ≤ ord (f k) (f p)

/-- The two cursors come in, until one of them is at the pivot. -/
theorem partitionLoop_adr (h : l.Linked (cellsOf addrs f) lost) (hlast : last < addrs.length)
    (hparted : Parted ord f first i p j last) (hm : j - i + 2 ≤ m) :
    ∃ heap f' i' j', l.partitionLoop ord (l.adr addrs p) m (l.adr addrs i) (l.adr addrs j) =
        .ok ({ l with heap }, l.adr addrs i', l.adr addrs j') ∧
      Linked { l with heap } (cellsOf addrs f') lost ∧ Rearranges first last f f' ∧
      Parted ord f' first i' p j' last ∧ (i' = p ∨ j' = p) := by
  induction m generalizing l f i j with
  | zero => omega
  | succ m ih =>
    obtain ⟨⟨hfi, hip, hpj, hjl⟩, hbefore, hbehind⟩ := hparted
    have hfuel := h.length_lt_fuel
    rw [length_cellsOf] at hfuel
    have hends {a : ℕ} (ha : a < addrs.length) : l.adr addrs a ≠ l.adr addrs p ↔ a ≠ p :=
      not_congr (adr_inj h (by omega) (by omega))
    rw [partitionLoop]
    by_cases hrun : i ≠ p ∧ j ≠ p
    · rw [if_pos ⟨(hends (by omega)).2 hrun.1, (hends (by omega)).2 hrun.2⟩]
      obtain ⟨i', hleft, hii', hi'p, hfits, hstop⟩ := scan_next ord (m := l.fuel) h
        (show p < addrs.length by omega) hip (by omega)
      obtain ⟨j', hright, hpj', hj'j, hfits', hstop'⟩ := scan_prev ord (m := l.fuel) h
        (show j < addrs.length by omega) hpj (by omega)
      have hbefore' : ∀ k, first ≤ k → k < i' → ord (f k) (f p) ≤ 0 := fun k hk hki' => by
        rcases Nat.lt_or_ge k i with hki | hki
        · exact hbefore k hk hki
        · exact hfits k hki hki'
      have hbehind' : ∀ k, j' < k → k ≤ last → 0 ≤ ord (f k) (f p) := fun k hj'k hk => by
        rcases Nat.lt_or_ge j k with hjk | hjk
        · exact hbehind k hjk hk
        · exact hfits' k hj'k hjk
      rw [hleft, ok_bind, hright, ok_bind]
      by_cases hswap : i' ≠ p ∧ j' ≠ p
      · rw [if_pos ⟨(hends (by omega)).2 hswap.1, (hends (by omega)).2 hswap.2⟩]
        obtain ⟨h₁, hrun₁, hl₁⟩ := swapData_adr h (show i' < addrs.length by omega)
          (show j' < addrs.length by omega)
        obtain ⟨n, hn, -, hnext, -⟩ := entry_adr hl₁ (show i' < addrs.length by omega)
        obtain ⟨n', hn', -, -, hprev⟩ := entry_adr hl₁ (show j' < addrs.length by omega)
        have hpivot : (f ∘ Equiv.swap i' j') p = f p :=
          congrArg f (Equiv.swap_apply_of_ne_of_ne (by omega) (by omega))
        have hother (k : ℕ) (hki : k ≠ i') (hkj : k ≠ j') : (f ∘ Equiv.swap i' j') k = f k :=
          congrArg f (Equiv.swap_apply_of_ne_of_ne hki hkj)
        -- What has been exchanged is on its side now.
        have hparted : Parted ord (f ∘ Equiv.swap i' j') first (i' + 1) p (j' - 1) last := by
          refine ⟨⟨by omega, by omega, by omega, by omega⟩, fun k hk hki => ?_, fun k hjk hk => ?_⟩
          · rw [hpivot]
            rcases Nat.lt_or_eq_of_le (Nat.le_of_lt_succ hki) with hlt | rfl
            · rw [hother k (by omega) (by omega)]
              exact hbefore' k hk hlt
            · rw [Function.comp_apply, Equiv.swap_apply_left]
              exact Int.le_of_lt (hstop'.resolve_left hswap.2)
          · rw [hpivot]
            rcases Nat.lt_or_eq_of_le (show j' ≤ k by omega) with hlt | rfl
            · rw [hother k (by omega) (by omega)]
              exact hbehind' k hlt hk
            · rw [Function.comp_apply, Equiv.swap_apply_right]
              exact Int.le_of_lt (hstop.resolve_left hswap.1)
        obtain ⟨h₂, f', i'', j'', hrun₂, hl₂, hre, hparted₂, hend⟩ :=
          ih hl₁ hparted (by omega)
        refine ⟨h₂, f', i'', j'', ?_, hl₂, ?_, hparted₂, hend⟩
        · rw [hrun₁, ok_bind]
          rw [show l.adr addrs i' = KsList.adr { l with heap := h₁ } addrs i' from rfl, hn, ok_bind,
            show l.adr addrs j' = KsList.adr { l with heap := h₁ } addrs j' from rfl, hn', ok_bind,
            hnext, hprev (j' - 1) (by omega)]
          exact hrun₂
        · exact (Rearranges.swap f (by omega) (by omega) (by omega) (by omega)).trans hre
      · -- One of the cursors has come to the pivot.
        rw [if_neg fun hboth =>
          hswap ⟨(hends (by omega)).1 hboth.1, (hends (by omega)).1 hboth.2⟩]
        obtain ⟨h₂, f', i'', j'', hrun₂, hl₂, hre, hparted₂, hend⟩ :=
          ih h ⟨⟨by omega, hi'p, hpj', by omega⟩, hbefore', hbehind'⟩ (by omega)
        exact ⟨h₂, f', i'', j'', hrun₂, hl₂, hre, hparted₂, hend⟩
    · rw [if_neg (fun hboth => hrun ⟨(hends (by omega)).1 hboth.1, (hends (by omega)).1 hboth.2⟩)]
      exact ⟨l.heap, f, i, j, rfl, h, .refl .., ⟨⟨hfi, hip, hpj, hjl⟩, hbefore, hbehind⟩, by omega⟩

/-- The pivot comes down to meet the left cursor. -/
theorem settleLeft_adr (h : l.Linked (cellsOf addrs f) lost) (hlast : last < addrs.length)
    (hparted : Parted ord f first i p p last) (hm : p - i < m) :
    ∃ heap f' p', l.settleLeft ord m (l.adr addrs i) (l.adr addrs p) (p - first) =
        .ok ({ l with heap }, l.adr addrs p', p' - first) ∧
      Linked { l with heap } (cellsOf addrs f') lost ∧ Rearranges first last f f' ∧
      Parted ord f' first p' p' p' last := by
  rw [settleLeft]
  induction m generalizing l f i p with
  | zero => omega
  | succ m ih =>
    obtain ⟨⟨hfi, hip, -, hpl⟩, hbefore, hbehind⟩ := hparted
    rw [settleLoop]
    rcases Nat.lt_or_eq_of_le hip with hlt | rfl
    · obtain ⟨q, rfl⟩ : ∃ q, p = q + 1 := ⟨p - 1, by omega⟩
      have hne : l.adr addrs i ≠ l.adr addrs (q + 1) := fun heq => by
        have := (adr_inj h (by omega) (by omega)).1 heq
        omega
      obtain ⟨n, hn, hndata, hnext, -⟩ := entry_adr h (show i < addrs.length by omega)
      obtain ⟨np, hnp, hpdata, -, hprev⟩ := entry_adr h (show q + 1 < addrs.length by omega)
      rw [if_neg hne, hn, ok_bind, hnp, ok_bind, hndata, hpdata, hnext, hprev q rfl]
      -- An entry on the wrong side goes behind the pivot, which moves down by one.
      by_cases hwrong : 0 < ord (f i) (f (q + 1))
      · rw [if_pos (by simpa using hwrong)]
        obtain ⟨h₁, hrun₁, hl₁⟩ := rotateData_adr h (show i < addrs.length by omega)
          (show q < addrs.length by omega) (show q + 1 < addrs.length by omega) (by omega)
          (by omega)
        obtain ⟨np₁, hnp₁, -, -, hprev₁⟩ := entry_adr hl₁ (show q + 1 < addrs.length by omega)
        obtain ⟨hpivot, hmoved, hother⟩ :=
          rotate_apply f (show i ≠ q + 1 by omega) (show q ≠ q + 1 by omega)
        have hre := Rearranges.rotate f (show first ≤ i ∧ i ≤ last by omega)
          (show first ≤ q ∧ q ≤ last by omega) (show first ≤ q + 1 ∧ q + 1 ≤ last by omega)
        generalize (f ∘ Equiv.swap i q) ∘ Equiv.swap q (q + 1) = g at hl₁ hpivot hmoved hother hre
        have hparted₁ : Parted ord g first i q q last := by
          refine ⟨⟨hfi, by omega, Nat.le_refl _, by omega⟩, fun k hk hki => ?_, fun k hqk hk => ?_⟩
          · rw [hpivot, hother k (by omega) (by omega) (by omega)]
            exact hbefore k hk hki
          · rw [hpivot]
            rcases Nat.lt_or_eq_of_le (Nat.succ_le_of_lt hqk) with hlt' | rfl
            · rw [hother k (by omega) (by omega) (by omega)]
              exact hbehind k hlt' hk
            · rw [hmoved]
              exact Int.le_of_lt hwrong
        obtain ⟨h₂, f', p', hrun₂, hl₂, hre₂, hparted₂⟩ := ih hl₁ hparted₁ (by omega)
        refine ⟨h₂, f', p', ?_, hl₂, hre.trans hre₂, hparted₂⟩
        rw [hrun₁, ok_bind,
          show l.adr addrs (q + 1) = KsList.adr { l with heap := h₁ } addrs (q + 1) from rfl, hnp₁,
          ok_bind, hprev₁ q rfl, decr32_of_pos (by omega),
          show q + 1 - first - 1 = q - first by omega]
        exact hrun₂
      · rw [if_neg (by simpa using hwrong)]
        refine ih h ⟨⟨by omega, hlt, Nat.le_refl _, hpl⟩, fun k hk hki => ?_, hbehind⟩ (by omega)
        rcases Nat.lt_or_eq_of_le (Nat.le_of_lt_succ hki) with hlt' | rfl
        · exact hbefore k hk hlt'
        · exact Int.not_lt.1 hwrong
    · rw [if_pos rfl]
      exact ⟨l.heap, f, i, rfl, h, .refl .., ⟨⟨hfi, Nat.le_refl _, Nat.le_refl _, hpl⟩, hbefore,
        hbehind⟩⟩

/-- The pivot comes up to meet the right cursor. -/
theorem settleRight_adr (h : l.Linked (cellsOf addrs f) lost) (hlast : last < addrs.length)
    (hparted : Parted ord f first p p j last) (hm : j - p < m) (hlen : addrs.length < 2 ^ 32) :
    ∃ heap f' p', l.settleRight ord m (l.adr addrs j) (l.adr addrs p) (p - first) =
        .ok ({ l with heap }, l.adr addrs p', p' - first) ∧
      Linked { l with heap } (cellsOf addrs f') lost ∧ Rearranges first last f f' ∧
      Parted ord f' first p' p' p' last := by
  rw [settleRight]
  induction m generalizing l f j p with
  | zero => omega
  | succ m ih =>
    obtain ⟨⟨hfp, -, hpj, hjl⟩, hbefore, hbehind⟩ := hparted
    rw [settleLoop]
    rcases Nat.lt_or_eq_of_le hpj with hlt | rfl
    · have hne : l.adr addrs j ≠ l.adr addrs p := fun heq => by
        have := (adr_inj h (by omega) (by omega)).1 heq
        omega
      obtain ⟨n, hn, hndata, -, hprev⟩ := entry_adr h (show j < addrs.length by omega)
      obtain ⟨np, hnp, hpdata, hnext, -⟩ := entry_adr h (show p < addrs.length by omega)
      rw [if_neg hne, hn, ok_bind, hnp, ok_bind, hndata, hpdata, hnext,
        hprev (j - 1) (by omega)]
      -- An entry on the wrong side goes before the pivot, which moves up by one.
      by_cases hwrong : ord (f j) (f p) < 0
      · rw [if_pos (by simpa using hwrong)]
        obtain ⟨h₁, hrun₁, hl₁⟩ := rotateData_adr h (show j < addrs.length by omega)
          (show p + 1 < addrs.length by omega) (show p < addrs.length by omega) (by omega)
          (by omega)
        obtain ⟨np₁, hnp₁, -, hnext₁, -⟩ := entry_adr hl₁ (show p < addrs.length by omega)
        obtain ⟨hpivot, hmoved, hother⟩ :=
          rotate_apply f (show j ≠ p by omega) (show p + 1 ≠ p by omega)
        have hre := Rearranges.rotate f (show first ≤ j ∧ j ≤ last by omega)
          (show first ≤ p + 1 ∧ p + 1 ≤ last by omega) (show first ≤ p ∧ p ≤ last by omega)
        generalize (f ∘ Equiv.swap j (p + 1)) ∘ Equiv.swap (p + 1) p = g
          at hl₁ hpivot hmoved hother hre
        have hparted₁ : Parted ord g first (p + 1) (p + 1) j last := by
          refine ⟨⟨by omega, Nat.le_refl _, hlt, hjl⟩, fun k hk hkp => ?_, fun k hjk hk => ?_⟩
          · rw [hpivot]
            rcases Nat.lt_or_eq_of_le (Nat.le_of_lt_succ hkp) with hlt' | rfl
            · rw [hother k (by omega) (by omega) (by omega)]
              exact hbefore k hk hlt'
            · rw [hmoved]
              exact Int.le_of_lt hwrong
          · rw [hpivot, hother k (by omega) (by omega) (by omega)]
            exact hbehind k hjk hk
        obtain ⟨h₂, f', p', hrun₂, hl₂, hre₂, hparted₂⟩ := ih hl₁ hparted₁ (by omega)
        refine ⟨h₂, f', p', ?_, hl₂, hre.trans hre₂, hparted₂⟩
        rw [hrun₁, ok_bind,
          show l.adr addrs p = KsList.adr { l with heap := h₁ } addrs p from rfl, hnp₁,
          ok_bind, hnext₁, incr32_of_lt (by omega), show p - first + 1 = p + 1 - first by omega]
        exact hrun₂
      · rw [if_neg (by simpa using hwrong)]
        refine ih h ⟨⟨hfp, Nat.le_refl _, by omega, by omega⟩, hbefore, fun k hjk hk => ?_⟩
          (by omega)
        rcases Nat.lt_or_eq_of_le (show j ≤ k by omega) with hlt' | rfl
        · exact hbehind k hlt' hk
        · exact Int.not_lt.1 hwrong
    · rw [if_pos rfl]
      exact ⟨l.heap, f, p, rfl, h, .refl .., ⟨⟨hfp, Nat.le_refl _, Nat.le_refl _, hjl⟩, hbefore,
        hbehind⟩⟩

theorem settle_adr (h : l.Linked (cellsOf addrs f) lost) (hlast : last < addrs.length)
    (hparted : Parted ord f first i p j last) (hend : i = p ∨ j = p)
    (hlen : addrs.length < 2 ^ 32) :
    ∃ heap f' p',
      l.settle ord (l.adr addrs i) (l.adr addrs j) (l.adr addrs p) (p - first) =
        .ok ({ l with heap }, l.adr addrs p', p' - first) ∧
      Linked { l with heap } (cellsOf addrs f') lost ∧ Rearranges first last f f' ∧
      Parted ord f' first p' p' p' last := by
  obtain ⟨hfi, hip, hpj, hjl⟩ := hparted.bounds
  have hfuel := h.length_lt_fuel
  rw [length_cellsOf] at hfuel
  rw [settle]
  by_cases hj : j = p
  · subst hj
    rw [if_pos rfl]
    exact settleLeft_adr h hlast hparted (by omega)
  · obtain rfl := hend.resolve_right hj
    rw [if_neg fun heq => hj ((adr_inj h (by omega) (by omega)).1 heq)]
    exact settleRight_adr h hlast hparted (by omega) hlen

/-! ## The sort -/

theorem findPivot_adr {pivotid span : ℕ} (h : l.Linked (cellsOf addrs f) lost)
    (hlast : last < addrs.length) (hspan : span = last - first + 1) (hfirst : first ≤ last)
    (hpivot : pivotid < span) :
    l.findPivot pivotid span (l.adr addrs first) (l.adr addrs last) =
      .ok (l.adr addrs (first + pivotid)) := by
  have hlen : (l.framed (cellsOf addrs f)).length = addrs.length + 2 := by
    rw [length_framed, length_cellsOf]
  rw [findPivot, ← framed_cellsOf (f := f) (show first ≤ addrs.length by omega),
    ← framed_cellsOf (f := f) (show last ≤ addrs.length by omega),
    ← framed_cellsOf (f := f) (show first + pivotid ≤ addrs.length by omega)]
  split_ifs
  · rw [h.wired.walk_next (by omega), show first + 1 + pivotid = first + pivotid + 1 by omega]
  · rw [h.wired.walk_prev (by omega) (by omega),
      show last + 1 - (span - 1 - pivotid) = first + pivotid + 1 by omega]

variable (ord first) in
/-- The range is rearranged, and in order at the end. -/
theorem Linked.sortQuicksort (rand : ℕ → ℕ → ℕ) (h : l.Linked (cellsOf addrs f) lost)
    (hlast : last < addrs.length) (hm : last - first < m) (hlen : addrs.length < 2 ^ 32) :
    ∃ heap f', sortQuicksort ord rand m l first (l.adr addrs first) last (l.adr addrs last) =
        .ok { l with heap } ∧
      Linked { l with heap } (cellsOf addrs f') lost ∧ Rearranges first last f f' ∧
      (SignOrder ord → SortedOn ord f' first last) := by
  induction m generalizing l f first last with
  | zero => omega
  | succ m ih =>
    have hfuel := h.length_lt_fuel
    rw [length_cellsOf] at hfuel
    rw [KsList.sortQuicksort]
    by_cases hle : last ≤ first
    · rw [if_pos hle]
      exact ⟨l.heap, f, rfl, h, .refl .., fun _ => .of_le hle⟩
    rw [if_neg hle]
    by_cases hfew : last - first + 1 ≤ minQuicksortEls
    · rw [if_pos hfew, sortSelectionsort, if_neg hle]
      exact selectionLoop_adr h hlast (Nat.le_refl first) (by omega) (by omega)
    rw [if_neg hfew]
    dsimp only
    generalize hid : rand first last % (last - first + 1) = pivotid
    have hpivotid : pivotid < last - first + 1 := by
      rw [← hid]
      exact Nat.mod_lt _ (by omega)
    rw [findPivot_adr h hlast rfl (by omega) hpivotid, ok_bind]
    -- The cursors come in, and the pivot settles.
    have hparted : Parted ord f first first (first + pivotid) last last :=
      ⟨⟨Nat.le_refl first, by omega, by omega, Nat.le_refl last⟩, fun k _ _ => by omega,
        fun k _ _ => by omega⟩
    obtain ⟨h₁, f₁, i, j, hrun₁, hl₁, hre₁, hparted₁, hend₁⟩ :=
      partitionLoop_adr (m := l.fuel) h hlast hparted (by omega)
    obtain ⟨h₂, f₂, p, hrun₂, hl₂, hre₂, hparted₂⟩ := settle_adr hl₁ hlast hparted₁ hend₁ hlen
    rw [Nat.add_sub_cancel_left] at hrun₂
    have hrun₂ : KsList.settle ord { l with heap := h₁ } (l.adr addrs i) (l.adr addrs j)
        (l.adr addrs (first + pivotid)) pivotid =
          .ok ({ l with heap := h₂ }, l.adr addrs p, p - first) := hrun₂
    obtain ⟨⟨hfp, -, -, hpl⟩, hbefore, hbehind⟩ := hparted₂
    obtain ⟨n, hn, -, -, hprev⟩ := entry_adr hl₂ (show p < addrs.length by omega)
    -- The left part is sorted.
    obtain ⟨h₃, f₃, hrun₃, hl₃, hre₃, hkept₃, hbefore₃, hsorted₃⟩ :
        ∃ heap f', (if 0 < p - first then
            KsList.sortQuicksort ord rand m { l with heap := h₂ } first (l.adr addrs first)
              (first + (p - first) - 1) n.prev
          else .ok { l with heap := h₂ }) = .ok { l with heap } ∧
        Linked { l with heap } (cellsOf addrs f') lost ∧ Rearranges first last f₂ f' ∧
        (∀ k, p ≤ k → f' k = f₂ k) ∧ (∀ k, first ≤ k → k < p → ord (f' k) (f₂ p) ≤ 0) ∧
        (SignOrder ord → SortedOn ord f' first (p - 1)) := by
      split_ifs with hpos
      · obtain ⟨h₃, f₃, hrun₃, hl₃, hre₃, hsorted₃⟩ :=
          ih first hl₂ (show p - 1 < addrs.length by omega) (show p - 1 - first < m by omega)
        refine ⟨h₃, f₃, ?_, hl₃, hre₃.mono (Nat.le_refl _) (by omega),
          fun k hk => hre₃.eq_of_notMem (.inr (by omega)), fun k hk hkp => ?_, hsorted₃⟩
        · rw [show first + (p - first) - 1 = p - 1 by omega, hprev (p - 1) (by omega)]
          exact hrun₃
        · exact hre₃.forall (P := fun x => ord x (f₂ p) ≤ 0)
            (fun k hk hkp => hbefore k hk (by omega)) k hk (by omega)
      · exact ⟨h₂, f₂, rfl, hl₂, .refl .., fun _ _ => rfl, hbefore,
          fun _ => .of_le (by omega)⟩
    obtain ⟨n', hn', -, hnext, -⟩ := entry_adr hl₃ (show p < addrs.length by omega)
    -- The right part is sorted.
    obtain ⟨h₄, f₄, hrun₄, hl₄, hre₄, hkept₄, hbehind₄, hsorted₄⟩ :
        ∃ heap f', (if first + (p - first) < last then
            KsList.sortQuicksort ord rand m { l with heap := h₃ } (first + (p - first) + 1) n'.next
              last (l.adr addrs last)
          else .ok { l with heap := h₃ }) = .ok { l with heap } ∧
        Linked { l with heap } (cellsOf addrs f') lost ∧ Rearranges first last f₃ f' ∧
        (∀ k, k ≤ p → f' k = f₃ k) ∧ (∀ k, p < k → k ≤ last → 0 ≤ ord (f' k) (f₂ p)) ∧
        (SignOrder ord → SortedOn ord f' (p + 1) last) := by
      have hbehind₃ : ∀ k, p < k → k ≤ last → 0 ≤ ord (f₃ k) (f₂ p) := fun k hpk hk => by
        rw [hkept₃ k (by omega)]
        exact hbehind k hpk hk
      split_ifs with hpos
      · obtain ⟨h₄, f₄, hrun₄, hl₄, hre₄, hsorted₄⟩ :=
          ih (p + 1) hl₃ hlast (show last - (p + 1) < m by omega)
        refine ⟨h₄, f₄, ?_, hl₄, hre₄.mono (by omega) (Nat.le_refl _),
          fun k hk => hre₄.eq_of_notMem (.inl (by omega)), fun k hpk hk => ?_, hsorted₄⟩
        · rw [show first + (p - first) + 1 = p + 1 by omega, hnext]
          exact hrun₄
        · exact hre₄.forall (P := fun x => 0 ≤ ord x (f₂ p))
            (fun k hpk hk => hbehind₃ k (by omega) hk) k (by omega) hk
      · exact ⟨h₃, f₃, rfl, hl₃, .refl .., fun _ _ => rfl, hbehind₃,
          fun _ => .of_le (by omega)⟩
    refine ⟨h₄, f₄, ?_, hl₄, hre₁.trans (hre₂.trans (hre₃.trans hre₄)), fun ho => ?_⟩
    · rw [hrun₁, ok_bind]
      dsimp only
      rw [hrun₂, ok_bind]
      dsimp only
      rw [show l.adr addrs p = KsList.adr { l with heap := h₂ } addrs p from rfl, hn, ok_bind,
        hrun₃, ok_bind]
      rw [show KsList.adr { l with heap := h₂ } addrs p = KsList.adr { l with heap := h₃ } addrs p
        from rfl, hn', ok_bind]
      exact hrun₄
    · -- Both parts are in order, and the pivot between them.
      have hpivot : f₄ p = f₂ p := by rw [hkept₄ p (Nat.le_refl _), hkept₃ p (Nat.le_refl _)]
      refine SortedOn.around (p := p) ho ((hsorted₃ ho).congr fun k _ hk => ?_) (hsorted₄ ho)
        (fun k hk hkp => ?_) fun k hpk hk => ?_
      · exact hkept₄ k (by omega)
      · rw [hkept₄ k (by omega), hpivot]
        exact hbefore₃ k hk hkp
      · rw [hpivot]
        exact hbehind₄ k hpk hk

/-- The cells of a list as positions. -/
theorem cellsOf_eq (cells : List (ℕ × ℕ)) :
    cellsOf (cells.map Prod.fst) (fun i => (cells.map Prod.snd).getD i 0) = cells := by
  refine List.ext_getElem? fun i => ?_
  rw [getElem?_cellsOf, List.getElem?_map, List.getD_eq_getElem?_getD, List.getElem?_map]
  cases cells[i]? <;> rfl

theorem map_snd_cellsOf (addrs : List ℕ) (f : ℕ → ℕ) :
    (cellsOf addrs f).map Prod.snd = (List.range addrs.length).map f := by
  refine List.ext_getElem? fun i => ?_
  rw [List.getElem?_map, getElem?_cellsOf, List.getElem?_map]
  rcases Nat.lt_or_ge i addrs.length with hlt | hge
  · rw [List.getElem?_eq_getElem hlt, List.getElem?_range hlt]
    rfl
  · rw [List.getElem?_eq_none hge, List.getElem?_eq_none (by rwa [List.length_range])]
    rfl

/-- `ks_list_sort` rearranges the data, and puts it in order. -/
theorem Linked.sort {cells : List (ℕ × ℕ)} {cmp : ℕ → ℕ → ℤ} (versus : ℤ) (rand : ℕ → ℕ → ℕ)
    (h : l.Linked cells lost) (hcmp : l.comparator = some cmp) (hiter : l.iterActive = false)
    (hlen : cells.length < 2 ^ 31)
    (hord : scaled cmp (toInt32 (-versus)) = fun a b => cmp a b * -versus) :
    ∃ l' cells', l.sort versus rand = .ok (0, l') ∧ l'.Linked cells' lost ∧ l.Keeps l' ∧
      (cells'.map Prod.snd).Perm (cells.map Prod.snd) ∧
      (SignOrder cmp → (cells'.map Prod.snd).Pairwise fun a b => cmp a b * -versus ≤ 0) := by
  rw [KsList.sort, hcmp]
  dsimp only
  rw [hord, if_neg (by simp [hiter]), h.numels]
  by_cases hone : cells.length ≤ 1
  · rw [if_pos hone]
    refine ⟨l, cells, rfl, h, ⟨rfl, rfl, rfl, rfl, rfl, rfl, rfl⟩, .rfl, fun _ => ?_⟩
    rcases cells with - | ⟨a, - | ⟨b, cells⟩⟩
    · exact List.Pairwise.nil
    · exact List.pairwise_singleton ..
    · simp at hone
  · rw [if_neg hone]
    have hpos : cells.length - 1 < (cells.map Prod.fst).length := by
      rw [List.length_map]
      omega
    have hcells := h
    rw [← cellsOf_eq cells] at hcells
    -- The ends of the list.
    obtain ⟨hd, hhd, -, hnext, -⟩ := h.wired.lookup (framed_zero (l := l))
    obtain ⟨tl, htl, -, -, hprev⟩ := h.wired.lookup (framed_last (l := l))
    have hfirst : hd.next = l.adr (cells.map Prod.fst) 0 := by
      rw [hnext, ← framed_cellsOf (f := fun i => (cells.map Prod.snd).getD i 0) (Nat.zero_le _),
        cellsOf_eq]
    have hlast : tl.prev = l.adr (cells.map Prod.fst) (cells.length - 1) := by
      rw [hprev cells.length rfl,
        ← framed_cellsOf (f := fun i => (cells.map Prod.snd).getD i 0) (by omega), cellsOf_eq,
        Nat.sub_add_cancel (by omega)]
    obtain ⟨heap, f', hrun, hl', hre, hsorted⟩ :=
      hcells.sortQuicksort (fun a b => cmp a b * -versus) 0 rand (m := cells.length) hpos
        (by omega) (by rw [List.length_map]; omega)
    have hcheck := hl'.checked (by rw [length_cellsOf, List.length_map]; omega)
    have hdata : (cellsOf (cells.map Prod.fst) f').map Prod.snd =
        (List.range cells.length).map f' := by
      rw [map_snd_cellsOf, List.length_map]
    refine ⟨_, _, ?_, hl', ⟨rfl, rfl, rfl, rfl, rfl, rfl, rfl⟩, ?_, fun ho => ?_⟩
    · rw [entry_eq hhd, ok_bind, entry_eq htl, ok_bind, hfirst, hlast, hrun, ok_bind, hcheck]
      rfl
    · have hperm := hre.perm (n := cells.length) (by omega)
      rw [hdata]
      refine hperm.trans (.of_eq ?_)
      have := map_snd_cellsOf (cells.map Prod.fst) fun i => (cells.map Prod.snd).getD i 0
      rw [cellsOf_eq, List.length_map] at this
      exact this.symm
    · rw [hdata]
      exact (hsorted (ho.mul _)).pairwise

end KsList

end Libks
