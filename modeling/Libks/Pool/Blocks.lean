import Libks.Base.Calls
import Libks.Base.Keyed
import Libks.Pool.State

/-!
# The blocks of a pool

What a pool is for: a list of live blocks, the newest first, each with its size
and the number of references to it (`blocks`). The prefixes of a pool are linked
in that order, in both directions, and no other prefix is allocated
(`Chained`). Every call keeps this or is ended by an assertion (`call_ends`), unless
the size that it asks the system for has wrapped, so that not even the prefix has
room in the region: it is written all the same, past its end. A row of calls keeps
the list if and only if no call does so (`calls_listed_iff`).
-/

namespace Libks

open Base

/-- A live block, as its users know it. -/
structure Block where
  addr : ℕ
  size : ℕ
  refs : ℕ

/-- What a prefix says of its block. -/
def PoolPrefix.data (x : PoolPrefix) : ℕ × ℕ := (x.size, x.refs)

namespace KsPool

/-- What the calls do to the live blocks. -/
def blocks (bs : List Block) : Op → Out × List Block
  | .alloc size start => (.block (start.getD 0), ⟨start.getD 0, size, 1⟩ :: bs)
  | .calloc n size start => (.block (start.getD 0), ⟨start.getD 0, mul64 n size, 1⟩ :: bs)
  | .ref p => (.block p, edit Block.addr p (fun b => [{ b with refs := add64 b.refs 1 }]) bs)
  | .free none => (.status .success, bs)
  | .free (some p) =>
    (.status (if bs.any fun b => b.addr = p ∧ 1 < b.refs then .refsExist else .success),
      edit Block.addr p (fun b => if 1 < b.refs then [{ b with refs := b.refs - 1 }] else []) bs)
  | .resize p size moved =>
    (.block (if bs.any fun b => b.addr = p ∧ b.size = size then p else moved.getD 0),
      edit Block.addr p (fun b => if b.size = size then [b] else [⟨moved.getD 0, size, b.refs⟩]) bs)
  | .clear => (.status .success, [])

/-- The prefixes of the blocks are linked, in both directions, and are all there is. -/
structure Chained (s : KsPool) (bs : List Block) : Prop where
  magic1 : s.magic1 = poolMagic
  magic2 : s.magic2 = poolMagic
  first : s.first = (bs.map Block.addr).head?
  last : s.last = (bs.map Block.addr).getLast?
  nodup : (bs.map Block.addr).Nodup
  seg : Seg (s.heap.link PoolPrefix.next) (s.heap.link PoolPrefix.prev) none (bs.map Block.addr) none
  mem : ∀ p, p ∈ s.heap ↔ p ∈ bs.map Block.addr
  data : ∀ b ∈ bs, (s.heap.lookup b.addr).map PoolPrefix.data = some (b.size, b.refs)

theorem rawOpen_chained : rawOpen.Chained [] :=
  ⟨rfl, rfl, rfl, rfl, List.nodup_nil, trivial, fun _ => by simp [rawOpen, Finmap.notMem_empty],
    fun _ h => absurd h List.not_mem_nil⟩

variable {s s' : KsPool} {bs xs ys : List Block} {b : Block} {p q : ℕ}

theorem Chained.check (h : s.Chained bs) : s.check = .ok () := if_pos ⟨h.magic1, h.magic2⟩

/-- What has been done to the blocks does not matter to those that live. -/
theorem Chained.logged (h : s.Chained bs) (log : List PoolEvent) : Chained { s with log } bs :=
  ⟨h.1, h.2, h.3, h.4, h.5, h.6, h.7, h.8⟩

/-- The prefix of a live block. -/
theorem Chained.entry (h : s.Chained bs) (hp : p ∈ s.heap) :
    ∃ xs b ys x, bs = xs ++ b :: ys ∧ b.addr = p ∧ s.heap.lookup p = some x ∧ x.size = b.size ∧
      x.refs = b.refs := by
  obtain ⟨xs, b, ys, rfl, rfl⟩ := exists_of_mem_keys ((h.mem p).1 hp)
  obtain ⟨x, hx, hdata⟩ := Option.map_eq_some_iff.1 (h.data b (by simp))
  injection hdata with hsize hrefs
  exact ⟨xs, b, ys, x, rfl, rfl, hx, hsize, hrefs⟩

/-- The links of a block lead to its neighbours. -/
theorem Chained.links {x : PoolPrefix} (h : s.Chained (xs ++ b :: ys))
    (hx : s.heap.lookup b.addr = some x) :
    x.prev = (xs.map Block.addr).getLast? ∧ x.next = (ys.map Block.addr).head? := by
  have hseg := h.seg
  rw [List.map_append, List.map_cons] at hseg
  have := hseg.at
  rwa [Heap.link_eq hx, Heap.link_eq hx] at this

/-! ## Allocation -/

theorem writeFence_keeps (x : PoolPrefix) (required : ℕ) :
    (x.writeFence required).next = x.next ∧ (x.writeFence required).prev = x.prev ∧
      (x.writeFence required).data = x.data := by
  rw [PoolPrefix.writeFence]
  split_ifs <;> exact ⟨rfl, rfl, rfl⟩

theorem allocMem_chained {size : ℕ} (h : s.Chained bs) (hp : p ∉ s.heap) (hsize : size ≠ 0)
    (hfits : ¬required size < prefixSize) :
    ∃ s', s.allocMem size (some p) = .ok (p, s') ∧ s'.Chained (⟨p, size, 1⟩ :: bs) := by
  have hmem := mt (h.mem p).2 hp
  have hne (q : ℕ) (hq : q ∈ bs.map Block.addr) : q ≠ p := fun heq => hmem (heq ▸ hq)
  obtain ⟨hnext, hprev, hdata⟩ :=
    writeFence_keeps { size, refs := 1, next := s.first } (required size)
  generalize hx : PoolPrefix.writeFence { size, refs := 1, next := s.first } (required size) = x
    at hnext hprev hdata
  have hvalid : Heap.Valid (s.heap.insert p x) s.first := by
    intro q hq
    rw [h.first] at hq
    exact Finmap.mem_insert.2 (.inr ((h.mem q).2 (List.mem_of_head? hq)))
  obtain ⟨heap, hheap⟩ := hvalid.exists_updateAt (e := Fault.outOfBounds)
    (f := fun y => { y with prev := some p })
  refine ⟨_, by
    rw [allocMem, if_neg hsize, if_neg hfits]
    dsimp only
    rw [hx, hheap]
    rfl, ?_⟩
  refine ⟨h.magic1, h.magic2, rfl, ?_, List.nodup_cons.2 ⟨hmem, h.nodup⟩, ?_, ?_, ?_⟩
  · dsimp only
    rw [h.last, List.map_cons, List.getLast?_cons]
    cases (bs.map Block.addr).getLast? <;> rfl
  · have hfirst (q : ℕ) (hq : (bs.map Block.addr).head? ≠ some q) : s.first ≠ some q := by
      rwa [h.first]
    rw [List.map_cons]
    refine h.seg.pushFront h.nodup ?_ ?_ (fun q hq => ?_) (fun q hq => ?_) fun q hq hq' => ?_
    · rw [Heap.link_of_updateAt_keep hheap fun _ => rfl, Heap.link_insert_self, hnext, h.first,
        Option.or_none]
    · rw [Heap.link_of_updateAt_ne hheap (hfirst p fun hq => hmem (List.mem_of_head? hq)),
        Heap.link_insert_self, hprev]
    · rw [Heap.link_of_updateAt_keep hheap fun _ => rfl, Heap.link_insert_of_ne (hne q hq)]
    · exact Heap.link_of_updateAt_set hheap (fun _ => rfl) (hvalid q (h.first.trans hq))
        (h.first.trans hq)
    · rw [Heap.link_of_updateAt_ne hheap (hfirst q hq'), Heap.link_insert_of_ne (hne q hq)]
  · intro q
    dsimp only
    rw [Heap.mem_of_updateAt hheap, Finmap.mem_insert, h.mem, List.map_cons, List.mem_cons]
  · intro b hb
    dsimp only
    rw [Heap.lookup_map_of_updateAt hheap fun _ => rfl]
    rcases List.mem_cons.1 hb with rfl | hb
    · rw [Finmap.lookup_insert, Option.map_some, hdata]
      rfl
    · rw [Finmap.lookup_insert_of_ne _ (hne _ (List.mem_map_of_mem hb)), h.data b hb]

/-! ## Releases and moves -/

/-- The heap after the links that lead to a block have been led elsewhere. -/
theorem relinked {h h₁ h₂ : Heap PoolPrefix} {o₁ o₂ v w : Option ℕ}
    (hu₁ : h.updateAt Fault.outOfBounds o₁ (fun y => { y with next := v }) = .ok h₁)
    (hu₂ : h₁.updateAt Fault.outOfBounds o₂ (fun y => { y with prev := w }) = .ok h₂) :
    (∀ q ∈ h, o₁ = some q → h₂.link PoolPrefix.next q = v) ∧
      (∀ q ∈ h, o₂ = some q → h₂.link PoolPrefix.prev q = w) ∧
      (∀ q, o₁ ≠ some q → h₂.link PoolPrefix.next q = h.link PoolPrefix.next q) ∧
      (∀ q, o₂ ≠ some q → h₂.link PoolPrefix.prev q = h.link PoolPrefix.prev q) ∧
      (∀ q, q ∈ h₂ ↔ q ∈ h) ∧
      ∀ q, (h₂.lookup q).map PoolPrefix.data = (h.lookup q).map PoolPrefix.data := by
  have hnext : h₂.link PoolPrefix.next = h₁.link PoolPrefix.next :=
    Heap.link_of_updateAt_keep hu₂ fun _ => rfl
  have hprev : h₁.link PoolPrefix.prev = h.link PoolPrefix.prev :=
    Heap.link_of_updateAt_keep hu₁ fun _ => rfl
  have hmem (q : ℕ) : q ∈ h₁ ↔ q ∈ h := Heap.mem_of_updateAt hu₁ q
  refine ⟨fun q hq ho => ?_, fun q hq ho => ?_, fun q ho => ?_, fun q ho => ?_, fun q => ?_,
    fun q => ?_⟩
  · rw [hnext]
    exact Heap.link_of_updateAt_set hu₁ (fun _ => rfl) hq ho
  · exact Heap.link_of_updateAt_set hu₂ (fun _ => rfl) ((hmem q).2 hq) ho
  · rw [hnext, Heap.link_of_updateAt_ne hu₁ ho]
  · rw [Heap.link_of_updateAt_ne hu₂ ho, hprev]
  · rw [Heap.mem_of_updateAt hu₂, hmem]
  · rw [Heap.lookup_map_of_updateAt hu₂ fun _ => rfl, Heap.lookup_map_of_updateAt hu₁ fun _ => rfl]

/-- The blocks beside `b` are others, and their prefixes are there. -/
theorem Chained.beside (h : s.Chained (xs ++ b :: ys)) :
    ∀ q ∈ xs.map Block.addr ++ ys.map Block.addr, q ≠ b.addr ∧ q ∈ s.heap := by
  have hnd := h.nodup
  rw [List.map_append, List.map_cons, List.nodup_middle, List.nodup_cons] at hnd
  intro q hq
  refine ⟨fun heq => hnd.1 (heq ▸ hq), (h.mem q).2 ?_⟩
  rw [List.map_append, List.map_cons]
  rcases List.mem_append.1 hq with hq | hq
  · exact List.mem_append_left _ hq
  · exact List.mem_append_right _ (List.mem_cons_of_mem _ hq)

/-- A change of a reference count. -/
theorem Chained.count {heap : Heap PoolPrefix} (h : s.Chained (xs ++ b :: ys)) (refs : ℕ → ℕ)
    (hu : s.heap.updateAt Fault.outOfBounds (some b.addr) (fun y => { y with refs := refs y.refs }) =
      .ok heap) :
    Chained { s with heap } (xs ++ { b with refs := refs b.refs } :: ys) := by
  have haddr : (xs ++ { b with refs := refs b.refs } :: ys).map Block.addr =
      (xs ++ b :: ys).map Block.addr := by
    rw [List.map_append, List.map_append]
    rfl
  refine ⟨h.magic1, h.magic2, by rw [haddr]; exact h.first, by rw [haddr]; exact h.last,
    by rw [haddr]; exact h.nodup, ?_, fun q => ?_, fun c hc => ?_⟩
  · dsimp only
    rw [haddr, Heap.link_of_updateAt_keep hu fun _ => rfl, Heap.link_of_updateAt_keep hu fun _ => rfl]
    exact h.seg
  · rw [haddr, Heap.mem_of_updateAt hu, h.mem]
  · have hbeside := h.beside
    dsimp only
    rw [Heap.lookup_of_updateAt hu]
    have hother (hc : c ∈ xs ++ ys) : c.addr ≠ b.addr :=
      (hbeside c.addr (by rw [← List.map_append]; exact List.mem_map_of_mem hc)).1
    rcases List.mem_append.1 hc with hc | hc
    · rw [if_neg fun heq => hother (List.mem_append_left _ hc) (Option.some.inj heq).symm]
      exact h.data c (List.mem_append_left _ hc)
    rcases List.mem_cons.1 hc with rfl | hc
    · obtain ⟨x, hx, hdata⟩ :=
        Option.map_eq_some_iff.1 (h.data b (List.mem_append_right _ (List.mem_cons_self ..)))
      injection hdata with hsize hrefs
      rw [if_pos rfl, hx, Option.map_some, Option.map_some, PoolPrefix.data, hsize, hrefs]
    · rw [if_neg fun heq => hother (List.mem_append_right _ hc) (Option.some.inj heq).symm]
      exact h.data c (List.mem_append_right _ (List.mem_cons_of_mem _ hc))

/-- The four cases of `free_mem` are one. -/
theorem unlink_eq (s : KsPool) (x : PoolPrefix) :
    s.unlink x = (do
      let heap ← s.heap.updateAt .outOfBounds x.prev fun y => { y with next := x.next }
      let heap ← heap.updateAt .outOfBounds x.next fun y => { y with prev := x.prev }
      return { s with
        heap
        first := if x.prev = none then x.next else s.first
        last := if x.next = none then x.prev else s.last }) := by
  rw [unlink]
  cases hprev : x.prev with
  | none =>
    cases hnext : x.next with
    | none => rfl
    | some q => rfl
  | some p =>
    cases hnext : x.next with
    | none =>
      simp only [Heap.updateAt, reduceIte, reduceCtorEq]
      cases s.heap.update Fault.outOfBounds p fun y => { y with next := none } <;> rfl
    | some q => rfl

theorem unlink_chained {x : PoolPrefix} (h : s.Chained (xs ++ b :: ys))
    (hprev : x.prev = (xs.map Block.addr).getLast?) (hnext : x.next = (ys.map Block.addr).head?) :
    ∃ s', s.unlink x = .ok s' ∧ ∀ allocC userAlloc log,
      Chained { s' with allocC, userAlloc, heap := s'.heap.erase b.addr, log } (xs ++ ys) := by
  have hbeside := h.beside
  have hbefore (q : ℕ) (hq : x.prev = some q) : q ∈ xs.map Block.addr ++ ys.map Block.addr :=
    List.mem_append_left _ (List.mem_of_getLast? (hprev ▸ hq))
  have hbehind (q : ℕ) (hq : x.next = some q) : q ∈ xs.map Block.addr ++ ys.map Block.addr :=
    List.mem_append_right _ (List.mem_of_head? (hnext ▸ hq))
  -- The two neighbours are in the heap, so the stores succeed.
  obtain ⟨h₁, hu₁⟩ := Heap.Valid.exists_updateAt (e := Fault.outOfBounds)
    (f := fun y => { y with next := x.next }) fun q hq => (hbeside q (hbefore q hq)).2
  obtain ⟨h₂, hu₂⟩ := Heap.Valid.exists_updateAt (e := Fault.outOfBounds) (h := h₁)
    (f := fun y => { y with prev := x.prev }) fun q hq =>
      (Heap.mem_of_updateAt hu₁ q).2 (hbeside q (hbehind q hq)).2
  obtain ⟨hset₁, hset₂, hkeep₁, hkeep₂, hmem, hdata⟩ := relinked hu₁ hu₂
  have hseg := h.seg
  have hnd := h.nodup
  rw [List.map_append, List.map_cons] at hseg hnd
  obtain ⟨hpb, hnb⟩ := hseg.at
  rw [← hprev] at hpb
  rw [← hnext] at hnb
  have hnd' : ((xs ++ ys).map Block.addr).Nodup := by
    rw [List.map_append]
    exact hnd.sublist ((List.sublist_cons_self ..).append_left _)
  have hrun : s.unlink x = .ok { s with
      heap := h₂
      first := if x.prev = none then x.next else s.first
      last := if x.next = none then x.prev else s.last } := by
    rw [unlink_eq, hu₁, ok_bind, hu₂]
    rfl
  refine ⟨_, hrun, fun allocC userAlloc log => ⟨h.magic1, h.magic2, ?_, ?_, hnd', ?_, ?_, ?_⟩⟩
  · dsimp only
    rw [h.first, hprev, hnext]
    cases xs <;> simp
  · dsimp only
    rw [h.last, hprev, hnext]
    cases ys <;> simp [List.getLast?_cons]
  · rw [List.map_append]
    -- The links around the gap, and those that stay.
    refine hseg.unlink hnd (fun q hq => ?_) (fun q hq => ?_) (fun q hq hne => ?_) fun q hq hne => ?_
    · rw [hpb] at hq
      obtain ⟨hqb, hin⟩ := hbeside q (hbefore q hq)
      rw [Heap.link_erase_of_ne hqb, hset₁ q hin hq, hnb]
    · rw [hnb] at hq
      obtain ⟨hqb, hin⟩ := hbeside q (hbehind q hq)
      rw [Heap.link_erase_of_ne hqb, hset₂ q hin hq, hpb]
    · rw [Heap.link_erase_of_ne (hbeside q hq).1, hkeep₁ q (hpb ▸ hne)]
    · rw [Heap.link_erase_of_ne (hbeside q hq).1, hkeep₂ q (hnb ▸ hne)]
  · intro q
    dsimp only
    rw [Finmap.mem_erase, hmem, h.mem, List.map_append, List.map_append, List.map_cons]
    constructor
    · rintro ⟨hqb, hq⟩
      simpa [hqb] using hq
    · intro hq
      refine ⟨(hbeside q hq).1, ?_⟩
      rw [← List.map_cons, ← List.map_append, ← h.mem]
      exact (hbeside q hq).2
  · intro c hc
    dsimp only
    have hcb := (hbeside c.addr (by rw [← List.map_append]; exact List.mem_map_of_mem hc)).1
    rw [Finmap.lookup_erase_ne hcb, hdata]
    exact h.data c (((List.sublist_cons_self ..).append_left _).subset hc)

theorem relink_chained {x : PoolPrefix} {size : ℕ} (h : s.Chained (xs ++ b :: ys))
    (hprev : x.prev = (xs.map Block.addr).getLast?) (hnext : x.next = (ys.map Block.addr).head?)
    (hdata : x.data = (size, b.refs)) (hq : q = b.addr ∨ q ∉ s.heap) :
    ∃ s', relink { s with heap := (s.heap.erase b.addr).insert q x } x q = .ok s' ∧
      s'.Chained (xs ++ ⟨q, size, b.refs⟩ :: ys) := by
  have hbeside := h.beside
  have hother (r : ℕ) (hr : r ∈ xs.map Block.addr ++ ys.map Block.addr) : r ≠ q := by
    rintro rfl
    exact hq.elim (hbeside r hr).1 fun hnot => hnot (hbeside r hr).2
  generalize hheap : ((s.heap.erase b.addr).insert q x : Heap PoolPrefix) = heap
  -- The prefix stands at its new place, and those beside it stand where they were.
  have hat : heap.lookup q = some x := by rw [← hheap, Finmap.lookup_insert]
  have hrest (r : ℕ) (hr : r ∈ xs.map Block.addr ++ ys.map Block.addr) :
      heap.lookup r = s.heap.lookup r := by
    rw [← hheap, Finmap.lookup_insert_of_ne _ (hother r hr), Finmap.lookup_erase_ne (hbeside r hr).1]
  have hin (r : ℕ) (hr : r ∈ xs.map Block.addr ++ ys.map Block.addr) : r ∈ heap := by
    rw [← Finmap.lookup_isSome, hrest r hr, Finmap.lookup_isSome]
    exact (hbeside r hr).2
  have hlink (g : PoolPrefix → Option ℕ) (r : ℕ) (hr : r ∈ xs.map Block.addr ++ ys.map Block.addr) :
      Heap.link g heap r = s.heap.link g r := by
    rw [Heap.link, Heap.link, hrest r hr]
  have hbefore (r : ℕ) (hr : x.prev = some r) : r ∈ xs.map Block.addr ++ ys.map Block.addr :=
    List.mem_append_left _ (List.mem_of_getLast? (hprev ▸ hr))
  have hbehind (r : ℕ) (hr : x.next = some r) : r ∈ xs.map Block.addr ++ ys.map Block.addr :=
    List.mem_append_right _ (List.mem_of_head? (hnext ▸ hr))
  obtain ⟨h₁, hu₁⟩ := Heap.Valid.exists_updateAt (e := Fault.outOfBounds)
    (f := fun y => { y with next := some q }) fun r hr => hin r (hbefore r hr)
  obtain ⟨h₂, hu₂⟩ := Heap.Valid.exists_updateAt (e := Fault.outOfBounds) (h := h₁)
    (f := fun y => { y with prev := some q }) fun r hr =>
      (Heap.mem_of_updateAt hu₁ r).2 (hin r (hbehind r hr))
  obtain ⟨hset₁, hset₂, hkeep₁, hkeep₂, hmem, hkeep⟩ := relinked hu₁ hu₂
  have hseg := h.seg
  have hnd := h.nodup
  rw [List.map_append, List.map_cons] at hseg hnd
  obtain ⟨hpb, hnb⟩ := hseg.at
  rw [← hprev] at hpb
  rw [← hnext] at hnb
  have haddr : (xs ++ ⟨q, size, b.refs⟩ :: ys).map Block.addr =
      xs.map Block.addr ++ q :: ys.map Block.addr := by
    rw [List.map_append, List.map_cons]
  have hrun : relink { s with heap } x q = .ok { s with
      heap := h₂
      first := if x.prev = none then some q else s.first
      last := if x.next = none then some q else s.last } := by
    rw [relink, hu₁, ok_bind, hu₂]
    rfl
  refine ⟨_, hrun, ⟨h.magic1, h.magic2, ?_, ?_, ?_, ?_, ?_, ?_⟩⟩
  · dsimp only
    rw [h.first, hprev]
    cases xs <;> simp
  · dsimp only
    rw [h.last, hnext]
    cases ys <;> simp [List.getLast?_cons]
  · rw [List.nodup_middle, List.nodup_cons] at hnd
    rw [haddr, List.nodup_middle, List.nodup_cons]
    exact ⟨fun hmem => hother q hmem rfl, hnd.2⟩
  · have hxq (r : ℕ) (hr : r ∈ xs.map Block.addr ++ ys.map Block.addr) : some q ≠ some r :=
      fun heq => hother r hr (Option.some.inj heq).symm
    rw [haddr]
    refine hseg.relocate hnd ?_ ?_ (fun r hr => ?_) (fun r hr => ?_) (fun r hr hne => ?_)
      fun r hr hne => ?_
    · rw [hkeep₁ q fun hp => hother q (hbefore q hp) rfl, Heap.link_eq hat, hnb]
    · rw [hkeep₂ q fun hn => hother q (hbehind q hn) rfl, Heap.link_eq hat, hpb]
    · rw [hpb] at hr
      exact hset₁ r (hin r (hbefore r hr)) hr
    · rw [hnb] at hr
      exact hset₂ r (hin r (hbehind r hr)) hr
    · rw [hkeep₁ r (hpb ▸ hne), hlink _ r hr]
    · rw [hkeep₂ r (hnb ▸ hne), hlink _ r hr]
  · intro r
    rw [haddr]
    dsimp only
    rw [hmem, ← hheap, Finmap.mem_insert, Finmap.mem_erase, h.mem, List.map_append, List.map_cons]
    constructor
    · rintro (rfl | ⟨hrb, hr⟩)
      · exact List.mem_append_right _ (List.mem_cons_self ..)
      · simp only [List.mem_append, List.mem_cons, hrb, false_or] at hr ⊢
        tauto
    · intro hr
      by_cases hrq : r = q
      · exact .inl hrq
      · have hr' : r ∈ xs.map Block.addr ++ ys.map Block.addr := by
          simp only [List.mem_append, List.mem_cons, hrq, false_or] at hr ⊢
          exact hr
        refine .inr ⟨(hbeside r hr').1, ?_⟩
        simp only [List.mem_append, List.mem_cons] at hr' ⊢
        tauto
  · intro c hc
    dsimp only
    rw [hkeep]
    have hc' : c = ⟨q, size, b.refs⟩ ∨ c ∈ xs ++ ys := by
      simp only [List.mem_append, List.mem_cons] at hc ⊢
      tauto
    rcases hc' with rfl | hc'
    · rw [hat, Option.map_some, hdata]
    · rw [hrest c.addr (by rw [← List.map_append]; exact List.mem_map_of_mem hc')]
      exact h.data c (((List.sublist_cons_self ..).append_left _).subset hc')

/-- What the walks of `perform_pool_cleanup` do to the blocks at `ps`. -/
def cleanups (s : KsPool) (ps : List ℕ) : List PoolEvent :=
  if s.cleaningUp then []
  else
    [.announce, .teardown, .destroy].flatMap fun action =>
      ps.flatMap (s.heap.made (PoolPrefix.callback .globalFree action))

/-- A clear calls the callbacks of all live blocks, and releases them all. -/
theorem clear_chained (h : s.Chained bs) : ∃ s', s.clear = .ok s' ∧ s'.Chained [] ∧
    s'.cleaningUp = true ∧ s'.log = s.log ++ s.cleanups (bs.map Block.addr) ++
      (bs.map Block.addr).map PoolEvent.release := by
  have hfollows := h.seg.follows_next
  rw [← h.first] at hfollows
  have hin (p : ℕ) (hp : p ∈ bs.map Block.addr) : p ∈ s.heap := (h.mem p).2 hp
  have hlen := Heap.length_le_card hin h.nodup
  have hvisit (action : CleanupAction) :
      s.heap.visit Fault.outOfBounds .outOfFuel PoolPrefix.next
        (PoolPrefix.callback .globalFree action) s.heap.keys.card s.first =
      .ok ((bs.map Block.addr).flatMap (s.heap.made (PoolPrefix.callback .globalFree action))) :=
    Heap.visit_ok _ _ _ _ hfollows hin hlen
  obtain ⟨heap, hfree, hmem⟩ := Heap.freeAll_ok Fault.outOfBounds .outOfFuel hfollows
    hin h.nodup hlen
  have hcleanup : s.performPoolCleanup =
      .ok { s with cleaningUp := true, log := s.log ++ s.cleanups (bs.map Block.addr) } := by
    rw [performPoolCleanup, cleanups]
    split_ifs with hc
    · rw [← hc, List.append_nil]
      rfl
    · dsimp only
      rw [hvisit, ok_bind, hvisit, ok_bind, hvisit, ok_bind, List.flatMap_cons, List.flatMap_cons,
        List.flatMap_cons, List.flatMap_nil, List.append_nil, List.append_assoc, List.append_assoc]
      rfl
  have hempty (p : ℕ) : p ∉ heap := fun hp => ((hmem p).1 hp).2 ((h.mem p).1 ((hmem p).1 hp).1)
  have hrun : s.clear = .ok { s with
      cleaningUp := true
      heap
      first := none
      last := none
      log := s.log ++ s.cleanups (bs.map Block.addr) ++
        (bs.map Block.addr).map PoolEvent.release } := by
    rw [clear, h.check, ok_bind, hcleanup, ok_bind]
    dsimp only
    rw [hfree]
    rfl
  refine ⟨_, hrun, ⟨h.magic1, h.magic2, rfl, rfl, List.nodup_nil, trivial, fun p => ?_, ?_⟩, rfl,
    rfl⟩
  · exact iff_of_false (hempty p) List.not_mem_nil
  · exact fun _ h => absurd h List.not_mem_nil

/-! ## Calls -/

/-- The region that a call is granted has room for the prefix; a call that is refused before
    it asks for one, or needs none, is granted none. -/
def HoldsPrefix (s : KsPool) : Op → Prop
  | .alloc size start => size = 0 ∨ start = none ∨ prefixSize ≤ required size
  | .calloc n size start =>
    mul64 n size = 0 ∨ start = none ∨ prefixSize ≤ required (mul64 n size)
  | .resize p size moved =>
    size = 0 ∨ moved = none ∨ prefixSize ≤ required size ∨
      ∀ x ∈ s.heap.lookup p, x.check = .ok () → x.refs ≤ 1 → x.size = size
  | .ref _ | .free _ | .clear => True

instance (s : KsPool) : DecidablePred s.HoldsPrefix
  | .alloc _ _ | .calloc _ _ _ => inferInstanceAs (Decidable (_ ∨ _ ∨ _))
  | .resize _ _ _ => inferInstanceAs (Decidable (_ ∨ _ ∨ _ ∨ _))
  | .ref _ | .free _ | .clear => .isTrue trivial

/-- How a call may fail: by an assertion, which ends the program, or else because the prefix
    is written past its region. -/
def Fails (s : KsPool) (op : Op) (f : Fault) : Prop :=
  f = .assertion ∧ s.HoldsPrefix op ∨ f = .overflow ∧ ¬s.HoldsPrefix op

theorem check_ends {x : PoolPrefix} : Ends (· = .assertion) (fun _ => True) x.check := by
  rw [PoolPrefix.check]
  split_ifs
  · trivial
  · rfl

/-- An allocation: refused, or with a size that leaves no room for the prefix, or made. -/
theorem allocMem_ends {size : ℕ} {start : Option ℕ} (h : s.Chained bs)
    (hstart : ∀ p, start = some p → p ∉ s.heap) :
    Ends (s.Fails (.alloc size start))
      (fun r => s.HoldsPrefix (.alloc size start) ∧ r.1 = start.getD 0 ∧ r.1 ∈ r.2.heap ∧
        r.2.Chained (⟨start.getD 0, size, 1⟩ :: bs)) (s.allocMem size start) := by
  cases start with
  | none => exact .inl ⟨rfl, .inr (.inl rfl)⟩
  | some p =>
    by_cases hsize : size = 0
    · rw [allocMem, if_pos hsize]
      exact .inl ⟨rfl, .inl hsize⟩
    by_cases hfits : required size < prefixSize
    · rw [allocMem, if_neg hsize, if_pos hfits]
      refine .inr ⟨rfl, ?_⟩
      rintro (hzero | hnone | hle)
      · exact hsize hzero
      · cases hnone
      · exact absurd hfits (not_lt.2 hle)
    obtain ⟨s', hrun, hs'⟩ := allocMem_chained h (hstart p rfl) hsize hfits
    exact .of_ok hrun ⟨.inr (.inr (not_lt.1 hfits)), rfl, (hs'.mem p).2 (List.mem_cons_self ..),
      hs'⟩

theorem alloc_ends {size : ℕ} {start : Option ℕ} (h : s.Chained bs)
    (hstart : ∀ p, start = some p → p ∉ s.heap) :
    Ends (s.Fails (.alloc size start))
      (fun r => s.HoldsPrefix (.alloc size start) ∧ r.1 = start.getD 0 ∧
        r.2.Chained (⟨start.getD 0, size, 1⟩ :: bs)) (s.alloc size start) := by
  rw [alloc]
  split_ifs with hzero
  · exact .inl ⟨rfl, .inl hzero⟩
  rw [h.check, ok_bind]
  refine (allocMem_ends h hstart).bind fun ⟨p, s'⟩ ⟨hheld, hp, hin, hs'⟩ => ?_
  obtain ⟨x, hx⟩ := Finmap.mem_iff.1 hin
  dsimp only
  rw [Heap.load_eq hx, ok_bind]
  exact (check_ends.mono (fun f hf => .inl ⟨hf, hheld⟩) fun _ => id).bind
    fun _ _ => ⟨hheld, hp, hs'⟩

theorem calloc_ends {n size : ℕ} {start : Option ℕ} (h : s.Chained bs)
    (hstart : ∀ p, start = some p → p ∉ s.heap) :
    Ends (s.Fails (.calloc n size start))
      (fun r => s.HoldsPrefix (.calloc n size start) ∧ r.1 = start.getD 0 ∧
        r.2.Chained (⟨start.getD 0, mul64 n size, 1⟩ :: bs)) (s.calloc n size start) := by
  rw [calloc]
  split_ifs with hzero
  · refine .inl ⟨rfl, .inl ?_⟩
    rcases hzero with rfl | rfl
    · rw [mul64, Nat.zero_mul, Nat.zero_mod]
    · rw [mul64, Nat.mul_zero, Nat.zero_mod]
  rw [h.check, ok_bind]
  exact (allocMem_ends h hstart).imp fun _ hr => ⟨hr.1, hr.2.1, hr.2.2.2⟩

theorem ref_ends (h : s.Chained bs) (hp : p ∈ s.heap) :
    Ends (· = .assertion) (fun r => r.1 = p ∧
      r.2.Chained (edit Block.addr p (fun b => [{ b with refs := add64 b.refs 1 }]) bs)) (s.ref p) := by
  obtain ⟨xs, b, ys, x, rfl, rfl, hx, -, -⟩ := h.entry hp
  rw [ref, Heap.load_eq hx, ok_bind]
  refine check_ends.bind fun _ _ => ?_
  obtain ⟨heap, hu⟩ := Heap.exists_update (e := Fault.outOfBounds)
    (f := fun y => { y with refs := add64 y.refs 1 }) hp
  rw [h.check, ok_bind, hu, edit_of_nodup h.nodup]
  exact ⟨rfl, h.count (fun r => add64 r 1) hu⟩

theorem free_ends (h : s.Chained bs) (hp : p ∈ s.heap) :
    Ends (· = .assertion) (fun r => Out.status r.1 = (blocks bs (.free (some p))).1 ∧
      r.2.Chained (blocks bs (.free (some p))).2) (s.free (some p)) := by
  obtain ⟨xs, b, ys, x, rfl, rfl, hx, -, hrefs⟩ := h.entry hp
  have hlinks := h.links hx
  rw [free, Heap.load_eq hx, ok_bind]
  refine check_ends.bind fun _ _ => ?_
  rw [h.check, ok_bind, freeMem, Heap.load_eq hx, ok_bind]
  refine check_ends.bind fun _ _ => ?_
  obtain ⟨heap, hu⟩ := Heap.exists_update (e := Fault.outOfBounds)
    (f := fun y => { y with refs := x.refs - 1 }) hp
  have hcount := h.count (fun _ => x.refs - 1) hu
  dsimp only
  rw [hu, ok_bind, blocks, any_of_nodup h.nodup, edit_of_nodup h.nodup]
  by_cases hr : 0 < x.refs - 1
  · rw [if_pos hr, if_pos (by rw [decide_eq_true_iff]; omega), if_pos (by omega), ← hrefs]
    exact ⟨rfl, hcount⟩
  · rw [if_neg hr, if_neg (by rw [decide_eq_true_iff]; omega), if_neg (by omega)]
    obtain ⟨s', hrun, hs'⟩ := unlink_chained
      (hcount.logged (s.log ++ s.performPoolCleanupOnFree b.addr x)) hlinks.1 hlinks.2
    rw [hrun, ok_bind]
    exact ⟨rfl, hs' _ _ _⟩

/-- A resize: refused, without effect, with a size that leaves no room for the prefix, or
    made. -/
theorem resize_ends {size : ℕ} {moved : Option ℕ} (h : s.Chained bs) (hp : p ∈ s.heap)
    (hmoved : ∀ q, moved = some q → q = p ∨ q ∉ s.heap) :
    Ends (s.Fails (.resize p size moved))
      (fun r => s.HoldsPrefix (.resize p size moved) ∧
        Out.block r.1 = (blocks bs (.resize p size moved)).1 ∧
        r.2.Chained (blocks bs (.resize p size moved)).2) (s.resize p size moved) := by
  obtain ⟨xs, b, ys, x, rfl, rfl, hx, hsize, hrefs⟩ := h.entry hp
  have hlinks := h.links hx
  -- A call that the prefix of the block refuses, or that leaves it as it is, asks for nothing.
  have hheld (hnot : x.check = .ok () → x.refs ≤ 1 → x.size = size) :
      s.HoldsPrefix (.resize b.addr size moved) := by
    refine .inr (.inr (.inr fun y hy => ?_))
    obtain rfl : x = y := Option.some.inj (hx.symm.trans hy)
    exact hnot
  rw [resize]
  by_cases hzero : size = 0
  · rw [if_pos hzero]
    exact .inl ⟨rfl, .inl hzero⟩
  rw [if_neg hzero, Heap.load_eq hx, ok_bind]
  cases hcheck : x.check with
  | error f =>
    have hf : f = .assertion := check_ends.error hcheck
    exact .inl ⟨hf, hheld fun hok => by rw [hcheck] at hok; cases hok⟩
  | ok u =>
  rw [ok_bind, h.check, ok_bind, blocks, any_of_nodup h.nodup, edit_of_nodup h.nodup]
  by_cases hshared : 1 < x.refs
  · rw [if_pos hshared]
    exact .inl ⟨rfl, hheld fun _ hle => absurd hshared (not_lt.2 hle)⟩
  rw [if_neg hshared]
  by_cases hsame : b.size = size
  · rw [if_pos (decide_eq_true hsame), if_pos hsame, if_pos (hsame.symm.trans hsize.symm)]
    exact ⟨hheld fun _ _ => hsize.trans hsame, rfl, h⟩
  rw [if_neg (by rwa [decide_eq_true_iff]), if_neg hsame,
    if_neg fun heq => hsame (heq.trans hsize).symm]
  cases moved with
  | none => exact .inl ⟨rfl, .inr (.inl rfl)⟩
  | some q =>
    dsimp only
    split_ifs with hfits
    · refine .inr ⟨rfl, ?_⟩
      rintro (hz | hnone | hle | hnot)
      · exact hzero hz
      · cases hnone
      · exact absurd hfits (not_lt.2 hle)
      · exact hsame (hsize.symm.trans (hnot x hx hcheck (not_lt.1 hshared)))
    obtain ⟨hnext, hprev, hdata⟩ :=
      writeFence_keeps { x with size } (required size)
    obtain ⟨s', hrun, hs'⟩ := relink_chained h (hprev.trans hlinks.1) (hnext.trans hlinks.2)
      (hdata.trans (by rw [PoolPrefix.data, hrefs])) (hmoved q rfl)
    rw [hrun, ok_bind]
    exact ⟨.inr (.inr (.inl (not_lt.1 hfits))), rfl, hs'⟩

/-- One call: it does to the blocks what it has to, or fails. -/
theorem call_ends {op : Op} (h : s.Chained bs) (hop : s.Allowed op) :
    Ends (s.Fails op)
      (fun r => s.HoldsPrefix op ∧ r.1 = (blocks bs op).1 ∧ r.2.Chained (blocks bs op).2)
      (s.call op) := by
  cases op with
  | alloc size start =>
    exact (alloc_ends h hop).bind fun _ hr => ⟨hr.1, congrArg Out.block hr.2.1, hr.2.2⟩
  | calloc n size start =>
    exact (calloc_ends h hop).bind fun _ hr => ⟨hr.1, congrArg Out.block hr.2.1, hr.2.2⟩
  | ref p =>
    refine Ends.bind ((ref_ends h hop).mono (fun f hf => .inl ⟨hf, trivial⟩) fun _ => id) ?_
    exact fun _ hr => ⟨trivial, congrArg Out.block hr.1, hr.2⟩
  | free p =>
    cases p with
    | none => exact ⟨trivial, rfl, h⟩
    | some p =>
      refine Ends.bind
        ((free_ends h (hop p rfl)).mono (fun f hf => .inl ⟨hf, trivial⟩) fun _ => id) ?_
      exact fun _ hr => ⟨trivial, hr⟩
  | resize p size moved => exact (resize_ends h hop.1 hop.2).bind fun _ hr => hr
  | clear =>
    obtain ⟨s', hrun, hs', -⟩ := clear_chained h
    exact .of_ok (by rw [call, hrun, ok_bind]; rfl) ⟨trivial, rfl, hs'⟩

/-- A call without room for the prefix writes it past its region. -/
theorem call_overflow {op : Op} (h : s.Chained bs) (hop : s.Allowed op)
    (hnot : ¬s.HoldsPrefix op) : s.call op = .error .overflow := by
  have hends := call_ends h hop
  cases hrun : s.call op with
  | ok r =>
    rw [hrun] at hends
    exact absurd hends.1 hnot
  | error f =>
    rw [hrun] at hends
    obtain ⟨-, hheld⟩ | ⟨rfl, -⟩ := hends
    · exact absurd hheld hnot
    · rfl

/-- The list of the prefixes: following `next` from `first` visits the live blocks
    and ends, following `prev` from `last` visits them in the opposite order, each
    stands on it once, no other prefix is allocated, and the ends are null if and
    only if there is no live block. -/
structure Listed (s : KsPool) (live : List ℕ) : Prop where
  next : Follows (s.heap.link PoolPrefix.next) s.first live
  prev : Follows (s.heap.link PoolPrefix.prev) s.last live.reverse
  once : live.Nodup
  all : ∀ p, p ∈ s.heap ↔ p ∈ live
  ends : s.first = none ∧ s.last = none ↔ live = []

theorem Chained.listed (h : s.Chained bs) : s.Listed (bs.map Block.addr) := by
  refine ⟨?_, ?_, h.nodup, h.mem, ?_⟩
  · rw [h.first]
    exact h.seg.follows_next
  · rw [h.last]
    exact h.seg.follows_prev
  · rw [h.first, h.last, List.head?_eq_none_iff, List.getLast?_eq_none_iff, and_self]

/-- After the calls on an opened pool the live blocks are those on the list, unless an
    assertion has ended the program. -/
def Lists (ops : List Op) : Prop :=
  Ends (· = .assertion) (fun r => r.1 = (answers blocks [] ops).1 ∧
    r.2.Listed ((answers blocks [] ops).2.map Block.addr)) (calls call rawOpen ops)

/-- Whatever is called, in whatever order, on an opened pool: the live blocks are those on
    the list if and only if every region that a call is granted has room for the prefix. -/
theorem calls_listed_iff {ops : List Op} (hops : Along call Allowed rawOpen ops) :
    Lists ops ↔ Along call HoldsPrefix rawOpen ops := by
  constructor
  · intro hlists
    refine Along.of_ends (J := fun s => ∃ bs, s.Chained bs) ?_ ?_ ⟨[], rawOpen_chained⟩ hops hlists
    · rintro s op o s' ⟨bs, h⟩ hop hrun
      exact ⟨_, ((call_ends h hop).ok hrun).2.2⟩
    · rintro s op ⟨bs, h⟩ hop hnot hends
      rw [call_overflow h hop hnot] at hends
      cases hends
  · intro hheld
    have hcall (s : KsPool) (bs : List Block) (op : Op) (h : s.Chained bs)
        (hop : s.Allowed op ∧ s.HoldsPrefix op) :
        Ends (· = .assertion) (fun r => r.1 = (blocks bs op).1 ∧ r.2.Chained (blocks bs op).2)
          (s.call op) := by
      refine (call_ends h hop.1).mono (fun f hf => ?_) fun _ hr => hr.2
      exact hf.elim And.left fun hover => absurd hop.2 hover.2
    exact (calls_ends hcall rawOpen_chained (hops.and hheld)).imp fun r hr => ⟨hr.1, hr.2.listed⟩

/-- Blocks are resized, shared and freed at all places of the list. -/
theorem calls_listed_iff_moved :
    Lists [.alloc 8 (some 1), .calloc 2 4 (some 2), .alloc 8 (some 3), .resize 2 16 (some 4),
        .ref 4, .free (some 1), .free (some 4)] ↔
      Along call HoldsPrefix rawOpen [.alloc 8 (some 1), .calloc 2 4 (some 2), .alloc 8 (some 3),
        .resize 2 16 (some 4), .ref 4, .free (some 1), .free (some 4)] :=
  calls_listed_iff (by decide +kernel)

/-- The system is asked for nothing, and the prefix is written there. -/
theorem not_lists : ¬∀ ops, Along call Allowed rawOpen ops → Lists ops := by
  intro h
  have hlists := h [.alloc (2 ^ 64 - 98) (some 1)] (by decide +kernel)
  rw [Lists, calls, call_overflow rawOpen_chained (by decide +kernel) (by decide +kernel)] at hlists
  cases hlists

end KsPool

end Libks
