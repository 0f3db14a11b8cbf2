import Libks.Simclist.State

/-!
# The entries of a list

The entries that hold the pointers of a list are linked in both directions between the two
sentinels; every other entry is a spare one, or one that has been lost (`Wired`). The
functions of the list change a few links at a time: an entry is put in between two others
(`Wired.link`), or those between two others are taken out (`Wired.cut`).

In a list whose length and middle are right (`KsList.Linked`), `ks_list_repOk` holds
(`Linked.repOk`), and `ks_list_findpos` finds the entry at a position (`Linked.findpos`), as
long as the length has no more than 24 bits.
-/

namespace Libks

open Base

variable {h h' : Heap ListEntry} {p q d : ℕ} {v : Option ℕ}

/-! ## Changes of one entry -/

/-- What a change of the entry at `p` does to the links and the data of the entries. -/
structure Sets (h h' : Heap ListEntry) (next prev : ℕ → Option ℕ) (data : ℕ → Option ℕ) :
    Prop where
  next : h'.link ListEntry.next = next
  prev : h'.link ListEntry.prev = prev
  data : ∀ q, (h'.lookup q).map ListEntry.data = data q
  mem : ∀ q, q ∈ h' ↔ q ∈ h

/-- The data of the entries. -/
def dataOf (h : Heap ListEntry) (p : ℕ) : Option ℕ := (h.lookup p).map ListEntry.data

theorem exists_setNext (hp : p ∈ h) (v : Option ℕ) :
    ∃ h', h.update Fault.outOfBounds p (fun n => { n with next := v }) = .ok h' ∧
      Sets h h' (Function.update (h.link ListEntry.next) p v) (h.link ListEntry.prev)
        (dataOf h) := by
  obtain ⟨h', hu⟩ := Heap.exists_update (e := Fault.outOfBounds)
    (f := fun n : ListEntry => { n with next := v }) hp
  exact ⟨h', hu, Heap.link_update hp hu fun _ => rfl,
    Heap.link_of_updateAt_keep (o := some p) hu fun _ => rfl,
    Heap.lookup_map_of_updateAt (o := some p) hu fun _ => rfl,
    Heap.mem_of_updateAt (o := some p) hu⟩

theorem exists_setPrev (hp : p ∈ h) (v : Option ℕ) :
    ∃ h', h.update Fault.outOfBounds p (fun n => { n with prev := v }) = .ok h' ∧
      Sets h h' (h.link ListEntry.next) (Function.update (h.link ListEntry.prev) p v)
        (dataOf h) := by
  obtain ⟨h', hu⟩ := Heap.exists_update (e := Fault.outOfBounds)
    (f := fun n : ListEntry => { n with prev := v }) hp
  exact ⟨h', hu, Heap.link_of_updateAt_keep (o := some p) hu fun _ => rfl,
    Heap.link_update hp hu fun _ => rfl,
    Heap.lookup_map_of_updateAt (o := some p) hu fun _ => rfl,
    Heap.mem_of_updateAt (o := some p) hu⟩

theorem exists_setData (hp : p ∈ h) (d : ℕ) :
    ∃ h', h.update Fault.outOfBounds p (fun n => { n with data := d }) = .ok h' ∧
      Sets h h' (h.link ListEntry.next) (h.link ListEntry.prev)
        (Function.update (dataOf h) p (some d)) := by
  obtain ⟨h', hu⟩ := Heap.exists_update (e := Fault.outOfBounds)
    (f := fun n : ListEntry => { n with data := d }) hp
  obtain ⟨n, hn⟩ := Finmap.mem_iff.1 hp
  refine ⟨h', hu, Heap.link_of_updateAt_keep (o := some p) hu fun _ => rfl,
    Heap.link_of_updateAt_keep (o := some p) hu fun _ => rfl, fun q => ?_,
    Heap.mem_of_updateAt (o := some p) hu⟩
  rw [Heap.lookup_of_update hu]
  by_cases hq : q = p
  · rw [if_pos hq, hq, hn, Function.update_self]
    rfl
  · rw [if_neg hq, Function.update_of_ne hq, dataOf]

/-! ## Linked entries -/

/-- The entries `cells`, each with its data, are linked in both directions; there are no
    others but `rest`. -/
structure Wired (h : Heap ListEntry) (cells : List (ℕ × ℕ)) (rest : List ℕ) : Prop where
  seg : Seg (h.link ListEntry.next) (h.link ListEntry.prev) none (cells.map Prod.fst) none
  nodup : (cells.map Prod.fst ++ rest).Nodup
  mem : ∀ p, p ∈ h ↔ p ∈ cells.map Prod.fst ++ rest
  data : ∀ c ∈ cells, dataOf h c.1 = some c.2

namespace Wired

variable {cells xs ms ys : List (ℕ × ℕ)} {rest rest' : List ℕ} {a b c : ℕ × ℕ}

theorem mem_heap (w : Wired h cells rest) (ha : a ∈ cells) : a.1 ∈ h :=
  (w.mem a.1).2 (List.mem_append_left _ (List.mem_map_of_mem ha))

/-- The entry of a cell. -/
theorem lookup (w : Wired h cells rest) {i : ℕ} (ha : cells[i]? = some a) :
    ∃ n, h.lookup a.1 = some n ∧ n.data = a.2 ∧ n.next = cells[i + 1]?.map Prod.fst ∧
      ∀ j, i = j + 1 → n.prev = cells[j]?.map Prod.fst := by
  have hmem := List.mem_of_getElem? ha
  obtain ⟨n, hn⟩ := Finmap.mem_iff.1 (w.mem_heap hmem)
  have hdata := w.data a hmem
  rw [dataOf, hn] at hdata
  have hi : (cells.map Prod.fst)[i]? = some a.1 := by rw [List.getElem?_map, ha, Option.map_some]
  obtain ⟨hnext, hprev⟩ := w.seg.getElem? hi
  rw [Heap.link_eq hn, List.getElem?_map] at hnext
  refine ⟨n, hn, Option.some.inj hdata, hnext, fun j hj => ?_⟩
  rw [← List.getElem?_map, ← hprev j hj, Heap.link_eq hn]

theorem perm (w : Wired h cells rest) (hperm : rest.Perm rest') : Wired h cells rest' :=
  ⟨w.seg, (hperm.append_left _).nodup_iff.1 w.nodup,
    fun p => (w.mem p).trans (hperm.append_left _).mem_iff, w.data⟩

/-- An address is that of one cell. -/
theorem ne (w : Wired h (xs ++ a :: ys) rest) : ∀ x ∈ (xs ++ ys).map Prod.fst ++ rest, x ≠ a.1 := by
  have hnd := w.nodup
  rw [List.map_append, List.map_cons, List.append_assoc, List.cons_append, List.nodup_middle,
    List.nodup_cons, ← List.append_assoc, ← List.map_append] at hnd
  exact fun x hx heq => hnd.1 (heq ▸ hx)

/-- A walk along the cells. -/
theorem walk_next (w : Wired h cells rest) {i k : ℕ} (hk : i + k < cells.length) :
    h.walk Fault.outOfBounds ListEntry.next k (cells[i]?.map Prod.fst) =
      .ok (cells[i + k]?.map Prod.fst) := by
  rw [← List.getElem?_map, ← List.getElem?_map]
  exact Heap.walk_next w.seg (fun p hp => (w.mem p).2 (List.mem_append_left _ hp))
    (by simpa using hk)

/-- A walk in the opposite direction. -/
theorem walk_prev (w : Wired h cells rest) {i k : ℕ} (hi : i < cells.length) (hk : k ≤ i) :
    h.walk Fault.outOfBounds ListEntry.prev k (cells[i]?.map Prod.fst) =
      .ok (cells[i - k]?.map Prod.fst) := by
  rw [← List.getElem?_map, ← List.getElem?_map]
  exact Heap.walk_prev w.seg (fun p hp => (w.mem p).2 (List.mem_append_left _ hp)) hk
    (by simpa using hi)

/-- The data of a cell is set. -/
theorem setData (w : Wired h (xs ++ a :: ys) rest) (d : ℕ) :
    ∃ h', h.update Fault.outOfBounds a.1 (fun n => { n with data := d }) = .ok h' ∧
      Wired h' (xs ++ (a.1, d) :: ys) rest := by
  obtain ⟨h', hu, s⟩ := exists_setData (w.mem_heap (a := a) (by simp)) d
  refine ⟨h', hu, ?_, by simpa using w.nodup, fun p => ?_, fun x hx => ?_⟩
  · rw [s.next, s.prev]
    simpa using w.seg
  · rw [s.mem, w.mem]
    simp
  · rw [dataOf, s.data]
    rcases List.mem_append.1 hx with hx | hx
    · rw [Function.update_of_ne (w.ne x.1 (by simp [List.mem_map_of_mem hx]))]
      exact w.data x (by simp [hx])
    · rcases List.mem_cons.1 hx with rfl | hx
      · rw [Function.update_self]
      · rw [Function.update_of_ne (w.ne x.1 (by simp [List.mem_map_of_mem hx]))]
        exact w.data x (by simp [hx])

/-- The data of another entry is set. -/
theorem setRest (w : Wired h cells (p :: rest)) (d : ℕ) :
    ∃ h', h.update Fault.outOfBounds p (fun n => { n with data := d }) = .ok h' ∧
      Wired h' cells (p :: rest) ∧ dataOf h' p = some d := by
  have hp : p ∈ h := (w.mem p).2 (by simp)
  have hne : ∀ x ∈ cells, x.1 ≠ p := fun x hx heq =>
    (List.nodup_append'.1 w.nodup).2.2 (List.mem_map_of_mem hx) (by simp [heq])
  obtain ⟨h', hu, s⟩ := exists_setData hp d
  refine ⟨h', hu, ⟨?_, w.nodup, fun q => (s.mem q).trans (w.mem q), fun x hx => ?_⟩, ?_⟩
  · rw [s.next, s.prev]
    exact w.seg
  · rw [dataOf, s.data, Function.update_of_ne (hne x hx)]
    exact w.data x hx
  · rw [dataOf, s.data, Function.update_self]

/-- A new entry is allocated. -/
theorem alloc (w : Wired h cells rest) (hp : p ∉ h) (n : ListEntry) :
    Wired (h.insert p n) cells (p :: rest) := by
  have hne : ∀ x ∈ cells.map Prod.fst ++ rest, x ≠ p := fun x hx heq =>
    hp ((w.mem p).2 (heq ▸ hx))
  refine ⟨?_, ?_, fun q => ?_, fun x hx => ?_⟩
  · exact w.seg.congr fun x hx =>
      have hx := hne x (List.mem_append_left _ hx)
      ⟨Heap.link_insert_of_ne hx, Heap.link_insert_of_ne hx⟩
  · rw [List.nodup_middle, List.nodup_cons]
    exact ⟨fun hx => hne p hx rfl, w.nodup⟩
  · rw [Finmap.mem_insert, w.mem]
    simp only [List.mem_append, List.mem_cons]
    tauto
  · rw [dataOf, Finmap.lookup_insert_of_ne _
      (hne x.1 (List.mem_append_left _ (List.mem_map_of_mem hx)))]
    exact w.data x hx

/-- An entry is freed. -/
theorem erase (w : Wired h cells (p :: rest)) : Wired (h.erase p) cells rest := by
  have hnd := w.nodup
  rw [List.nodup_middle, List.nodup_cons] at hnd
  have hne : ∀ x ∈ cells.map Prod.fst ++ rest, x ≠ p := fun x hx heq => hnd.1 (heq ▸ hx)
  refine ⟨?_, hnd.2, fun q => ?_, fun x hx => ?_⟩
  · exact w.seg.congr fun x hx =>
      have hx := hne x (List.mem_append_left _ hx)
      ⟨Heap.link_erase_of_ne hx, Heap.link_erase_of_ne hx⟩
  · rw [Finmap.mem_erase, w.mem]
    constructor
    · rintro ⟨hq, hmem⟩
      simpa [hq] using hmem
    · exact fun hmem => ⟨hne q hmem, by
        rcases List.mem_append.1 hmem with hmem | hmem <;> simp [hmem]⟩
  · rw [dataOf, Finmap.lookup_erase_ne
      (hne x.1 (List.mem_append_left _ (List.mem_map_of_mem hx)))]
    exact w.data x hx

/-- An entry is not another one that has been lost. -/
theorem ne_rest (w : Wired h cells (p :: rest)) (ha : a ∈ cells) : a.1 ≠ p := fun heq =>
  (List.nodup_append'.1 w.nodup).2.2 (List.mem_map_of_mem ha) (by simp [heq])

/-- An entry is put in between two others. -/
theorem link (w : Wired h (xs ++ b :: c :: ys) (p :: rest)) (hd : dataOf h p = some d) :
    ∃ h₁ h₂ h₃ h₄,
      h.update Fault.outOfBounds b.1 (fun n => { n with next := some p }) = .ok h₁ ∧
      h₁.update Fault.outOfBounds p (fun n => { n with prev := some b.1 }) = .ok h₂ ∧
      h₂.update Fault.outOfBounds p (fun n => { n with next := some c.1 }) = .ok h₃ ∧
      h₃.update Fault.outOfBounds c.1 (fun n => { n with prev := some p }) = .ok h₄ ∧
      Wired h₄ (xs ++ b :: (p, d) :: c :: ys) rest := by
  obtain ⟨h₁, hu₁, s₁⟩ := exists_setNext (w.mem_heap (a := b) (by simp)) (some p)
  have hp : p ∈ h₁ := (s₁.mem p).2 ((w.mem p).2 (by simp))
  obtain ⟨h₂, hu₂, s₂⟩ := exists_setPrev hp (some b.1)
  obtain ⟨h₃, hu₃, s₃⟩ := exists_setNext ((s₂.mem p).2 hp) (some c.1)
  have hmem : ∀ q, q ∈ h₃ ↔ q ∈ h := fun q => by rw [s₃.mem, s₂.mem, s₁.mem]
  obtain ⟨h₄, hu₄, s₄⟩ := exists_setPrev ((hmem c.1).2 (w.mem_heap (a := c) (by simp))) (some p)
  have hb (x : ℕ × ℕ) (hx : x ∈ xs ++ c :: ys) : x.1 ≠ b.1 :=
    w.ne x.1 (List.mem_append_left _ (List.mem_map_of_mem hx))
  have hc (x : ℕ × ℕ) (hx : x ∈ xs ++ b :: ys) : x.1 ≠ c.1 := by
    rw [List.append_cons] at w
    refine w.ne x.1 (List.mem_append_left _ (List.mem_map_of_mem ?_))
    rwa [List.append_assoc, List.singleton_append]
  refine ⟨h₁, h₂, h₃, h₄, hu₁, hu₂, hu₃, hu₄, ?_, ?_, fun q => ?_, fun x hx => ?_⟩
  · -- The links that have changed are those of the new entry and its neighbours.
    have hseg := w.seg
    rw [List.map_append, List.map_cons, List.map_cons] at hseg
    rw [List.map_append, List.map_cons, List.map_cons, List.map_cons, s₄.next, s₄.prev, s₃.next,
      s₃.prev, s₂.next, s₂.prev, s₁.next, s₁.prev]
    refine Seg.splice [] [p] hseg (seg_singleton.2 ⟨?_, ?_⟩) ?_ ?_ (fun x hx => ?_) fun x hx => ?_
    · rw [Function.update_of_ne (w.ne_rest (a := c) (by simp)).symm, Function.update_self]
    · rw [Function.update_self]
    · rw [Function.update_of_ne (w.ne_rest (a := b) (by simp)), Function.update_self]
      rfl
    · rw [Function.update_self]
      rfl
    · rw [← List.map_cons, ← List.map_append] at hx
      obtain ⟨y, hy, rfl⟩ := List.mem_map.1 hx
      rw [Function.update_of_ne (w.ne_rest (by grind)), Function.update_of_ne (hb y hy)]
    · rw [← List.map_cons, ← List.map_append] at hx
      obtain ⟨y, hy, rfl⟩ := List.mem_map.1 hx
      rw [Function.update_of_ne (hc y hy), Function.update_of_ne (w.ne_rest (by grind))]
  · have hnd := w.nodup
    rw [List.nodup_middle] at hnd
    rw [List.append_cons, List.map_append, List.append_assoc, List.map_cons, List.cons_append,
      List.nodup_middle]
    simpa using hnd
  · rw [s₄.mem, hmem, w.mem]
    simp only [List.map_append, List.map_cons, List.mem_append, List.mem_cons]
    tauto
  · have hdata : dataOf h₄ x.1 = dataOf h x.1 := by
      rw [dataOf, s₄.data, dataOf, s₃.data, dataOf, s₂.data, dataOf, s₁.data]
    rw [hdata]
    simp only [List.mem_append, List.mem_cons] at hx
    rcases hx with hx | rfl | rfl | hx
    · exact w.data x (by simp [hx])
    · exact w.data x (by simp)
    · exact hd
    · exact w.data x (by simpa using .inr (.inr hx))

end Wired

/-- Between the two heaps the entries `gone` have been freed, and the link back of `o` may
    have changed. -/
structure Shed (h₀ h : Heap ListEntry) (gone : List ℕ) (o : Option ℕ) : Prop where
  mem : ∀ q, q ∈ h ↔ q ∈ h₀ ∧ q ∉ gone
  next : ∀ q, q ∉ gone → h.link ListEntry.next q = h₀.link ListEntry.next q
  prev : ∀ q, q ∉ gone → o ≠ some q → h.link ListEntry.prev q = h₀.link ListEntry.prev q
  data : ∀ q, q ∉ gone → dataOf h q = dataOf h₀ q

theorem Shed.rfl : Shed h h [] none :=
  ⟨fun q => by simp, fun _ _ => Eq.refl _, fun _ _ _ => Eq.refl _, fun _ _ => Eq.refl _⟩

/-- Another entry is freed. -/
theorem Shed.erase {h₀ : Heap ListEntry} {gone : List ℕ} {o : Option ℕ} (s : Shed h₀ h gone o) :
    Shed h₀ (h.erase p) (p :: gone) o := by
  refine ⟨fun q => ?_, fun q hq => ?_, fun q hq ho => ?_, fun q hq => ?_⟩
  · rw [Finmap.mem_erase, s.mem, List.mem_cons, not_or]
    tauto
  all_goals rw [List.mem_cons, not_or] at hq
  · rw [Heap.link_erase_of_ne hq.1, s.next q hq.2]
  · rw [Heap.link_erase_of_ne hq.1, s.prev q hq.2 ho]
  · rw [dataOf, Finmap.lookup_erase_ne hq.1]
    exact s.data q hq.2

/-- The link back of another entry is cut, once that of `o` is of no matter. -/
theorem Shed.exists_setPrev {h₀ : Heap ListEntry} {gone : List ℕ} {o : Option ℕ}
    (s : Shed h₀ h gone o) (ho : ∀ q, o = some q → q ∈ gone) (hp : p ∈ h) :
    ∃ h', h.update Fault.outOfBounds p (fun n => { n with prev := none }) = .ok h' ∧
      Shed h₀ h' gone (some p) := by
  obtain ⟨h', hu, t⟩ := Libks.exists_setPrev hp none
  refine ⟨h', hu, fun q => (t.mem q).trans (s.mem q), fun q hq => ?_, fun q hq hne => ?_,
    fun q hq => (t.data q).trans (s.data q hq)⟩
  · rw [t.next, s.next q hq]
  · rw [t.prev, Function.update_of_ne (fun heq => hne (congrArg some heq.symm)), s.prev q hq]
    exact fun heq => hq (ho q heq)

/-- The entries between two others are taken out. Some of them have been freed before. -/
theorem Wired.cut {h₀ : Heap ListEntry} {xs ms ys : List (ℕ × ℕ)} {b c : ℕ × ℕ}
    {rest rest' gone : List ℕ} {o : Option ℕ} (w : Wired h₀ (xs ++ b :: (ms ++ c :: ys)) rest)
    (s : Shed h₀ h gone o) (ho : o = none ∨ o = some c.1)
    (hperm : (ms.map Prod.fst ++ rest).Perm (gone ++ rest')) :
    ∃ h₁ h₂, h.update Fault.outOfBounds b.1 (fun n => { n with next := some c.1 }) = .ok h₁ ∧
      h₁.update Fault.outOfBounds c.1 (fun n => { n with prev := some b.1 }) = .ok h₂ ∧
      Wired h₂ (xs ++ b :: c :: ys) rest' := by
  -- All the entries, in another order.
  have hall : ((xs ++ b :: (ms ++ c :: ys)).map Prod.fst ++ rest).Perm
      ((xs ++ b :: c :: ys).map Prod.fst ++ (gone ++ rest')) := by
    refine .trans ?_ (hperm.append_left _)
    simp only [List.map_append, List.map_cons, List.append_assoc, List.cons_append]
    refine .append_left _ (.cons _ ?_)
    rw [← List.append_assoc, ← List.cons_append, ← List.cons_append, ← List.append_assoc]
    exact List.perm_append_comm.append_right _
  have hnd := hall.nodup_iff.1 w.nodup
  have hkept (x : ℕ × ℕ) (hx : x ∈ xs ++ b :: c :: ys) : x.1 ∉ gone := fun hg =>
    (List.nodup_append'.1 hnd).2.2 (List.mem_map_of_mem hx) (List.mem_append_left _ hg)
  have hin (x : ℕ × ℕ) (hx : x ∈ xs ++ b :: c :: ys) : x.1 ∈ h :=
    (s.mem x.1).2 ⟨w.mem_heap (by grind), hkept x hx⟩
  obtain ⟨h₁, hu₁, s₁⟩ := exists_setNext (hin b (by simp)) (some c.1)
  obtain ⟨h₂, hu₂, s₂⟩ := exists_setPrev ((s₁.mem c.1).2 (hin c (by simp))) (some b.1)
  have hb (x : ℕ × ℕ) (hx : x ∈ xs ++ c :: ys) : x.1 ≠ b.1 :=
    w.ne x.1 (List.mem_append_left _ (List.mem_map_of_mem (by grind)))
  have hc (x : ℕ × ℕ) (hx : x ∈ xs ++ b :: ys) : x.1 ≠ c.1 := by
    have w := w
    rw [← List.cons_append, ← List.append_assoc] at w
    exact w.ne x.1 (List.mem_append_left _ (List.mem_map_of_mem (by grind)))
  refine ⟨h₁, h₂, hu₁, hu₂, ?_, ?_, fun q => ?_, fun x hx => ?_⟩
  · have hseg := w.seg
    rw [List.map_append, List.map_cons, List.map_append, List.map_cons] at hseg
    rw [List.map_append, List.map_cons, List.map_cons, s₂.next, s₂.prev, s₁.next, s₁.prev]
    refine Seg.splice _ [] hseg trivial ?_ ?_ (fun x hx => ?_) fun x hx => ?_
    · rw [Function.update_self]
      rfl
    · rw [Function.update_self]
      rfl
    · rw [← List.map_cons, ← List.map_append] at hx
      obtain ⟨y, hy, rfl⟩ := List.mem_map.1 hx
      rw [Function.update_of_ne (hb y hy), s.next y.1 (hkept y (by grind))]
    · rw [← List.map_cons, ← List.map_append] at hx
      obtain ⟨y, hy, rfl⟩ := List.mem_map.1 hx
      rw [Function.update_of_ne (hc y hy), s.prev y.1 (hkept y (by grind))]
      rcases ho with rfl | rfl
      · simp
      · exact fun heq => hc y hy (Option.some.inj heq).symm
  · exact (List.Sublist.append_left (List.sublist_append_right _ _) _).nodup hnd
  · rw [s₂.mem, s₁.mem, s.mem, w.mem, hall.mem_iff]
    constructor
    · rintro ⟨hq, hg⟩
      simpa [hg] using hq
    · intro hq
      refine ⟨by grind, fun hg => ?_⟩
      rcases List.mem_append.1 hq with hq | hq
      · obtain ⟨x, hx, rfl⟩ := List.mem_map.1 hq
        exact hkept x hx hg
      · exact (List.nodup_append'.1 (List.nodup_append'.1 hnd).2.1).2.2 hg hq
  · have hdata : dataOf h₂ x.1 = dataOf h₀ x.1 := by
      rw [dataOf, s₂.data, dataOf, s₁.data, s.data x.1 (hkept x hx)]
    rw [hdata]
    exact w.data x (by grind)

/-! ## The representation -/

namespace KsList

variable {l l' : KsList} {cells : List (ℕ × ℕ)} {lost : List ℕ} {a b : ℕ × ℕ}

theorem entry_eq {n : ListEntry} (hn : l.heap.lookup p = some n) : l.entry (some p) = .ok n :=
  Heap.load_eq hn

theorem modify_eq {f : ListEntry → ListEntry} (hu : l.heap.update Fault.outOfBounds p f = .ok h') :
    l.modify (some p) f = .ok { l with heap := h' } := by
  rw [modify, hu]
  rfl

/-- The entries `cells` with the sentinels at the ends. -/
def framed (l : KsList) (cells : List (ℕ × ℕ)) : List (ℕ × ℕ) :=
  (l.headSentinel, 0) :: (cells ++ [(l.tailSentinel, 0)])

/-- The entries `cells` are those of the list, and `lost` are neither in it nor spare. -/
structure Linked (l : KsList) (cells : List (ℕ × ℕ)) (lost : List ℕ) : Prop where
  wired : Wired l.heap (l.framed cells) (l.spareels ++ lost)
  numels : l.numels = cells.length
  mid : l.mid = cells[(cells.length - 1) / 2]?.map Prod.fst
  spares : l.spareels.length ≤ maxSpareElems

@[simp] theorem length_framed : (l.framed cells).length = cells.length + 2 := by
  simp [framed]

theorem framed_zero : (l.framed cells)[0]? = some (l.headSentinel, 0) := rfl

theorem framed_succ {i : ℕ} (hi : i < cells.length) : (l.framed cells)[i + 1]? = cells[i]? := by
  rw [framed, List.getElem?_cons_succ, List.getElem?_append_left hi]

theorem framed_last : (l.framed cells)[cells.length + 1]? = some (l.tailSentinel, 0) := by
  rw [framed, List.getElem?_cons_succ, List.getElem?_concat_length]

/-- Walks that go on for as many steps as there is fuel do not end for want of it. -/
theorem Linked.length_lt_fuel (h : l.Linked cells lost) : cells.length + 2 < l.fuel := by
  have hle := Heap.length_le_card (h := l.heap) (l := (l.framed cells).map Prod.fst)
    (fun p hp => (h.wired.mem p).2 (List.mem_append_left _ hp))
    (List.nodup_append'.1 h.wired.nodup).1
  rw [List.length_map, length_framed] at hle
  exact Nat.lt_succ_of_le hle

/-- The links fit as far as the loop goes. -/
theorem repLoop_eq {rest : List ℕ} (w : Wired l.heap cells rest) {limit : Option ℤ} {i m k : ℕ}
    (hi : i ≤ m) (hlimit : limit = some ((m : ℤ) - 1) ∨ (limit = none ∧ m + 1 = cells.length))
    (hk : m - i < k) (ha : cells[i]? = some a) (hb : cells[m]? = some b) :
    l.repLoop limit k ((i : ℤ) - 1) a.1 = .ok ((m : ℤ) - 1, b.1) := by
  induction k generalizing i a with
  | zero => omega
  | succ k ih =>
    obtain ⟨n, hn, -, hnext, -⟩ := w.lookup ha
    rw [repLoop, entry_eq hn, ok_bind, hnext]
    rcases Nat.lt_or_eq_of_le hi with hlt | rfl
    · have hsucc : i + 1 < cells.length := by
        have := (List.getElem?_eq_some_iff.1 hb).1
        omega
      obtain ⟨n', hn', -, -, hprev⟩ := w.lookup (List.getElem?_eq_getElem hsucc)
      have hgo : ¬limit.any (· ≤ (i : ℤ) - 1) := by
        rcases hlimit with rfl | ⟨rfl, -⟩
        · simp only [Option.any_some, decide_eq_true_eq]
          omega
        · simp
      rw [if_neg hgo, List.getElem?_eq_getElem hsucc, Option.map_some]
      dsimp only
      rw [entry_eq hn', ok_bind, hprev i rfl, ha, Option.map_some, if_neg (by simp),
        show (i : ℤ) - 1 + 1 = ((i + 1 : ℕ) : ℤ) - 1 by omega]
      exact ih hlt (by omega) (List.getElem?_eq_getElem hsucc)
    · obtain rfl := Option.some.inj (ha.symm.trans hb)
      rcases hlimit with rfl | ⟨rfl, hm⟩
      · rw [if_pos (by simp)]
      · rw [if_neg (by simp), hm, List.getElem?_eq_none (Nat.le_refl _)]
        rfl

/-- The lengths of lists fit into their numbers. -/
theorem Linked.toInt32_numels (h : l.Linked cells lost) (hlen : cells.length < 2 ^ 31) :
    toInt32 l.numels = cells.length := by
  rw [h.numels, toInt32_of_lt hlen]

/-- `ks_list_repOk` holds. -/
theorem Linked.repOk (h : l.Linked cells lost) (hlen : cells.length < 2 ^ 31) :
    l.repOk = .ok true := by
  have hfuel := h.length_lt_fuel
  obtain ⟨hd, hhd, -, hnext, -⟩ := h.wired.lookup (framed_zero (l := l))
  obtain ⟨tl, htl, -, htlnext, htlprev⟩ := h.wired.lookup (framed_last (l := l))
  have hprev : hd.prev = none := by
    have := h.wired.seg.1
    rwa [Heap.link_eq hhd] at this
  have hne : l.headSentinel ≠ l.tailSentinel := by
    have := h.wired.nodup
    intro heq
    simp [framed, heq] at this
  rw [List.getElem?_eq_none (by rw [length_framed])] at htlnext
  rw [KsList.repOk, entry_eq hhd, ok_bind, entry_eq htl, ok_bind]
  by_cases hnil : cells = []
  · subst hnil
    rw [h.numels]
    have hmid := h.mid
    rw [List.getElem?_nil] at hmid
    rw [if_neg, List.length_nil, if_pos rfl]
    · rfl
    · rw [hnext, htlprev 0 rfl, hmid]
      simp [hne, hprev, htlnext, framed, h.spares]
  · have hpos : 0 < cells.length := List.length_pos_iff.2 hnil
    have hhalf : (toInt32 (sub32 l.numels 1)).tdiv 2 = ((cells.length - 1) / 2 + 1 : ℕ) - 1 := by
      rw [h.numels, sub32_of_le hpos (by omega), toInt32_of_lt (by omega),
        Int.tdiv_eq_ediv_of_nonneg (Int.natCast_nonneg _)]
      omega
    have hlt : (cells.length - 1) / 2 < cells.length := by omega
    have hcell : (l.framed cells)[(cells.length - 1) / 2 + 1]? =
        some cells[(cells.length - 1) / 2] := by
      rw [framed_succ hlt, List.getElem?_eq_getElem hlt]
    -- The walk up to the middle, and on to the end.
    have hfirst := repLoop_eq (l := l) (k := l.fuel) h.wired (Nat.zero_le _) (.inl rfl) (by omega)
      framed_zero hcell
    have hsecond := repLoop_eq (l := l) (k := l.fuel) h.wired (i := (cells.length - 1) / 2 + 1)
      (m := cells.length + 1) (by omega) (.inr ⟨rfl, by rw [length_framed]⟩) (by omega)
      hcell framed_last
    rw [if_neg, if_neg (by rw [h.numels]; omega), hhalf]
    · dsimp only at hfirst ⊢
      rw [show (-1 : ℤ) = ((0 : ℕ) : ℤ) - 1 by rfl, hfirst, ok_bind]
      dsimp only
      rw [if_neg, hsecond, ok_bind, h.toInt32_numels hlen]
      · dsimp only
        rw [decide_eq_true (by omega)]
        rfl
      · rw [h.mid, List.getElem?_eq_getElem hlt]
        simp
    · simp [hne, hprev, htlnext, h.spares, h.numels, hpos]

theorem Linked.checked (h : l.Linked cells lost) (hlen : cells.length < 2 ^ 31) :
    l.checked = .ok l := by
  rw [KsList.checked, h.repOk hlen]
  rfl

/-! ## Positions -/

/-- The quarters meet in the middle. -/
theorem quarter_cases {k n : ℕ} (hn : n < 2 ^ 24) (hk : k ≤ n + 1) :
    (quarter ((k : ℤ) - 1) n = .second → 2 * k < n) ∧
      (quarter ((k : ℤ) - 1) n = .third → n ≤ 2 * k) := by
  rw [quarter, Int.sub_add_cancel, Int.toNat_natCast]
  by_cases h0 : n = 0
  · simp [h0]
  · have hhalf := quotSingle_lt_half_iff (a := k) (b := n) (by omega) (by omega) (by omega)
    rw [if_neg h0]
    dsimp only
    constructor
    · intro h
      split_ifs at h with h₁ h₂
      exact hhalf.1 h₂
    · intro h
      split_ifs at h with h₁ h₂
      exact Nat.not_lt.1 fun hlt => h₂ (hhalf.2 hlt)

/-- `ks_list_findpos` finds the entry at a position from that of the first sentinel to that
    of the last one. -/
theorem Linked.findpos (h : l.Linked cells lost) (hlen : cells.length < 2 ^ 24) {k : ℕ}
    (hk : k ≤ cells.length + 1) :
    l.findpos ((k : ℤ) - 1) = .ok ((l.framed cells)[k]?.map Prod.fst) := by
  have hnum := h.toInt32_numels (by omega)
  have hnext {i j : ℕ} (hj : i + j < cells.length + 2) :=
    h.wired.walk_next (i := i) (k := j) (by rwa [length_framed])
  have hprev {i j : ℕ} (hi : i < cells.length + 2) (hj : j ≤ i) :=
    h.wired.walk_prev (by rwa [length_framed]) hj
  rw [KsList.findpos, if_neg (by rw [hnum]; omega), hnum, h.numels]
  obtain ⟨hsecond, hthird⟩ := quarter_cases hlen hk
  cases hq : quarter ((k : ℤ) - 1) cells.length with
  | first =>
    dsimp only
    rw [show ((k : ℤ) - 1 + 1).toNat = k by omega]
    exact (hnext (i := 0) (by omega)).trans (by rw [Nat.zero_add])
  | fourth =>
    dsimp only
    rw [show ((cells.length : ℤ) - (k - 1)).toNat = cells.length + 1 - k by omega]
    have := hprev (i := cells.length + 1) (j := cells.length + 1 - k) (by omega) (by omega)
    rwa [framed_last, Nat.sub_sub_self hk] at this
  | second =>
    have hlt := hsecond hq
    have hmid : l.mid = (l.framed cells)[(cells.length - 1) / 2 + 1]?.map Prod.fst := by
      rw [h.mid, framed_succ (by omega)]
    have hend : (cells.length - 1) / 2 + 1 -
        (((cells.length - 1) / 2 : ℕ) - ((k : ℤ) - 1)).toNat = k := by omega
    dsimp only
    rw [sub32_of_le (by omega) (by omega), toInt32_of_lt (by omega), hmid,
      hprev (by omega) (by omega), hend]
  | third =>
    have hle := hthird hq
    have hpos : 0 < cells.length := by
      rw [quarter] at hq
      split_ifs at hq with h0
      exact Nat.pos_of_ne_zero h0
    have hmid : l.mid = (l.framed cells)[(cells.length - 1) / 2 + 1]?.map Prod.fst := by
      rw [h.mid, framed_succ (by omega)]
    have hend : (cells.length - 1) / 2 + 1 +
        ((k : ℤ) - 1 - ((cells.length - 1) / 2 : ℕ)).toNat = k := by omega
    dsimp only
    rw [sub32_of_le (by omega) (by omega), toInt32_of_lt (by omega), hmid, hnext (by omega), hend]

/-- The entry behind one of the list. -/
theorem entry_next {rest : List ℕ} (w : Wired l.heap (l.framed cells) rest) {i : ℕ}
    (hi : i + 1 < cells.length) :
    ListEntry.next <$> l.entry (cells[i]?.map Prod.fst) = .ok (cells[i + 1]?.map Prod.fst) := by
  have hcell : (l.framed cells)[i + 1]? = some cells[i] := by
    rw [framed_succ (by omega), List.getElem?_eq_getElem]
  obtain ⟨n, hn, -, hnext, -⟩ := w.lookup hcell
  rw [List.getElem?_eq_getElem (by omega), Option.map_some, entry_eq hn, ← framed_succ hi, ← hnext]
  rfl

/-- The entry in front of one of the list. -/
theorem entry_prev {rest : List ℕ} (w : Wired l.heap (l.framed cells) rest) {i : ℕ}
    (hi : i + 1 < cells.length) :
    ListEntry.prev <$> l.entry (cells[i + 1]?.map Prod.fst) = .ok (cells[i]?.map Prod.fst) := by
  have hcell : (l.framed cells)[i + 1 + 1]? = some cells[i + 1] := by
    rw [framed_succ hi, List.getElem?_eq_getElem]
  obtain ⟨n, hn, -, -, hprev⟩ := w.lookup hcell
  rw [List.getElem?_eq_getElem hi, Option.map_some, entry_eq hn,
    ← framed_succ (l := l) (show i < cells.length by omega), ← hprev (i + 1) rfl]
  rfl

end KsList

end Libks
