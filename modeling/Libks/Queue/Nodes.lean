import Libks.Queue.State
import Mathlib.Order.Interval.Finset.Nat

/-!
# The nodes of a queue

The nodes that hold the pointers of a queue are doubly linked, in the order in
which they were pushed, and those on the list of the empty ones are singly
linked; every node stands on one of the two lists, once (`Linked`). A push puts a
pointer at the end, a pop takes the first one off, and nothing else changes what
the queue holds, so that the pointers popped and those still queued are, together,
the ones pushed (`calls_fifo`).
-/

namespace Libks

open Base

namespace KsQ

/-- The nodes `cells`, with their pointers, and `free` are the lists of the queue;
    the nodes `out` have been taken off them. -/
structure Linked (q : KsQ) (cells : List (ℕ × ℕ)) (free out : List ℕ) : Prop where
  head : q.head = (cells.map Prod.fst).head?
  tail : q.tail = (cells.map Prod.fst).getLast?
  seg : Seg (q.heap.link QNode.next) (q.heap.link QNode.prev) none (cells.map Prod.fst) none
  empty : Follows (q.heap.link QNode.next) q.empty free
  nodup : (cells.map Prod.fst ++ (free ++ out)).Nodup
  mem : ∀ p, p ∈ q.heap ↔ p ∈ cells.map Prod.fst ++ (free ++ out)
  ptrs : ∀ c ∈ cells, (q.heap.lookup c.1).map QNode.ptr = some c.2
  addr : ∀ p ∈ q.heap, 0 < p ∧ p < 2 ^ 64
  len : q.len = cells.length

/-- What pushes and pops leave as it is. -/
structure Keeps (q q' : KsQ) : Prop where
  flushFn : q'.flushFn = q.flushFn
  maxlen : q'.maxlen = q.maxlen
  pushers : q'.pushers = q.pushers
  poppers : q'.poppers = q.poppers
  active : q'.active = q.active

variable {q q' : KsQ} {cells : List (ℕ × ℕ)} {free out : List ℕ} {p start ptr : ℕ}

theorem create_linked (maxlen : ℕ) : Linked { maxlen } [] [] [] :=
  ⟨rfl, rfl, trivial, rfl, List.nodup_nil, fun _ => by simp [Finmap.notMem_empty],
    fun _ h => absurd h List.not_mem_nil, fun _ h => absurd h Finmap.notMem_empty, rfl⟩

/-- There are fewer nodes than addresses. -/
theorem length_lt_of_addr {l : List ℕ} {n : ℕ} (hnd : l.Nodup) (hl : ∀ p ∈ l, 0 < p ∧ p < n)
    (hn : 0 < n) : l.length < n := by
  have hsub : l.toFinset ⊆ Finset.Ioo 0 n := fun p hp =>
    Finset.mem_Ioo.2 (hl p (List.mem_toFinset.1 hp))
  have hcard := Finset.card_le_card hsub
  rw [List.toFinset_card_of_nodup hnd, Nat.card_Ioo] at hcard
  omega

theorem Linked.length_lt (h : q.Linked cells free out) : cells.length < 2 ^ 64 := by
  have hnd := (List.nodup_append'.1 h.nodup).1
  have hlt := length_lt_of_addr hnd
    (fun p hp => h.addr p ((h.mem p).2 (List.mem_append_left _ hp))) (Nat.two_pow_pos 64)
  rwa [List.length_map] at hlt

/-- Taking an address out of the order it stands in. -/
theorem Linked.disjoint (h : q.Linked cells free out) :
    ∀ p ∈ cells.map Prod.fst, p ∉ free ∧ p ∉ out := by
  intro p hp
  have hdisj := (List.nodup_append'.1 h.nodup).2.2
  exact ⟨fun hf => hdisj hp (List.mem_append_left _ hf),
    fun ho => hdisj hp (List.mem_append_right _ ho)⟩

theorem newNode_spec (h : q.Linked cells free []) (hstart : start ∉ q.heap) (hpos : 0 < start)
    (hlt : start < 2 ^ 64) :
    ∃ p q' free', q.newNode start = .ok (p, q') ∧ q'.Linked cells free' [p] ∧
      q'.heap.lookup p = some {} ∧ q.Keeps q' := by
  have hempty := h.empty
  rw [newNode]
  cases free with
  -- No node is free: a new one.
  | nil =>
    rw [show q.empty = none from hempty]
    have hne (p : ℕ) (hp : p ∈ cells.map Prod.fst) : p ≠ start := fun heq =>
      hstart (heq ▸ (h.mem p).2 (List.mem_append_left _ hp))
    refine ⟨start, _, [], rfl, ⟨h.head, h.tail, ?_, rfl, ?_, fun p => ?_, fun c hc => ?_,
      fun p hp => ?_, h.len⟩, Finmap.lookup_insert .., ⟨rfl, rfl, rfl, rfl, rfl⟩⟩
    · exact h.seg.congr fun p hp =>
        ⟨Heap.link_insert_of_ne (hne p hp), Heap.link_insert_of_ne (hne p hp)⟩
    · have hnd := h.nodup
      rw [List.append_nil, List.append_nil] at hnd
      exact List.nodup_append'.2 ⟨hnd, List.nodup_singleton start,
        by simpa using fun hp => hne _ hp rfl⟩
    · dsimp only
      rw [Finmap.mem_insert, h.mem]
      simp only [List.append_nil, List.nil_append, List.mem_append, List.mem_singleton]
      exact or_comm
    · dsimp only
      rw [Finmap.lookup_insert_of_ne _ (hne _ (List.mem_map_of_mem hc))]
      exact h.ptrs c hc
    · rcases (Finmap.mem_insert).1 hp with rfl | hp
      · exact ⟨hpos, hlt⟩
      · exact h.addr p hp
  -- The first free node leaves the list of free nodes.
  | cons p free =>
    obtain ⟨hp, hrest⟩ := hempty
    obtain ⟨n, hn⟩ := Finmap.mem_iff.1 ((h.mem p).2 (by simp))
    rw [Heap.link_eq hn] at hrest
    have hne (r : ℕ) (hr : r ∈ cells.map Prod.fst ++ free) : r ≠ p := by
      have hnd := h.nodup
      rw [List.append_nil, List.nodup_middle, List.nodup_cons] at hnd
      exact fun heq => hnd.1 (heq ▸ hr)
    rw [hp]
    dsimp only
    rw [Heap.load_eq hn, ok_bind, Heap.update_eq hn, ok_bind]
    refine ⟨p, _, free, rfl, ⟨h.head, h.tail, ?_, ?_, ?_, fun r => ?_, fun c hc => ?_,
      fun r hr => ?_, h.len⟩, Finmap.lookup_insert .., ⟨rfl, rfl, rfl, rfl, rfl⟩⟩
    · exact h.seg.congr fun r hr =>
        ⟨Heap.link_insert_of_ne (hne r (List.mem_append_left _ hr)),
          Heap.link_insert_of_ne (hne r (List.mem_append_left _ hr))⟩
    · exact hrest.congr fun r hr => Heap.link_insert_of_ne (hne r (List.mem_append_right _ hr))
    · have hperm : (cells.map Prod.fst ++ (p :: free ++ [])).Perm
          (cells.map Prod.fst ++ (free ++ [p])) := by
        rw [List.append_nil]
        exact (List.perm_append_singleton p free).symm.append_left _
      exact hperm.nodup_iff.1 h.nodup
    · dsimp only
      rw [Finmap.mem_insert, h.mem]
      simp only [List.append_nil, List.mem_append, List.mem_cons, List.not_mem_nil, or_false]
      tauto
    · dsimp only
      rw [Finmap.lookup_insert_of_ne _ (hne _ (List.mem_append_left _ (List.mem_map_of_mem hc)))]
      exact h.ptrs c hc
    · rcases (Finmap.mem_insert).1 hr with rfl | hr
      · exact h.addr r ((h.mem r).2 (by simp))
      · exact h.addr r hr

/-- A node that is taken off the lists may be written to. -/
theorem Linked.insert {n : QNode} (h : q.Linked cells free [p]) :
    Linked { q with heap := q.heap.insert p n } cells free [p] := by
  have hne (r : ℕ) (hr : r ∈ cells.map Prod.fst ++ free) : r ≠ p := by
    have hnd := h.nodup
    rw [← List.append_assoc] at hnd
    exact fun heq => (List.nodup_append'.1 hnd).2.2 hr (by simp [heq])
  have hin : p ∈ q.heap := (h.mem p).2 (by simp)
  refine ⟨h.head, h.tail, ?_, ?_, h.nodup, fun r => ?_, fun c hc => ?_, fun r hr => ?_, h.len⟩
  · exact h.seg.congr fun r hr =>
      ⟨Heap.link_insert_of_ne (hne r (List.mem_append_left _ hr)),
        Heap.link_insert_of_ne (hne r (List.mem_append_left _ hr))⟩
  · exact h.empty.congr fun r hr => Heap.link_insert_of_ne (hne r (List.mem_append_right _ hr))
  · dsimp only
    rw [← h.mem, Finmap.mem_insert]
    exact or_iff_right_of_imp fun heq => heq ▸ hin
  · dsimp only
    rw [Finmap.lookup_insert_of_ne _ (hne _ (List.mem_append_left _ (List.mem_map_of_mem hc)))]
    exact h.ptrs c hc
  · refine h.addr r ((Finmap.mem_insert.1 hr).elim (fun heq => heq ▸ hin) id)

theorem link_spec (h : q.Linked cells free [p]) (ptr : ℕ)
    (hp : q.heap.lookup p = some { ptr }) :
    ∃ q', q.link p = .ok q' ∧
      Linked { q' with len := add64 q'.len 1 } (cells ++ [(p, ptr)]) free [] ∧ q.Keeps q' := by
  have hfst : (cells ++ [(p, ptr)]).map Prod.fst = cells.map Prod.fst ++ [p] := by
    rw [List.map_append]
    rfl
  have hperm : (cells.map Prod.fst ++ [p] ++ (free ++ [])).Perm
      (cells.map Prod.fst ++ (free ++ [p])) := by
    rw [List.append_nil, List.append_assoc]
    exact (List.perm_append_comm).append_left _
  have hnd : (cells.map Prod.fst ++ [p] ++ (free ++ [])).Nodup := hperm.nodup_iff.2 h.nodup
  have hin : p ∈ q.heap := (h.mem p).2 (by simp)
  have hmem (r : ℕ) :
      r ∈ q.heap ↔ r ∈ (cells ++ [(p, ptr)]).map Prod.fst ++ (free ++ []) := by
    rw [hfst, hperm.mem_iff, h.mem]
  have hnotin : p ∉ cells.map Prod.fst := fun hr => (h.disjoint p hr).2 (List.mem_singleton_self p)
  have hnotfree : p ∉ free := fun hr =>
    (List.nodup_append'.1 (List.nodup_append'.1 h.nodup).2.1).2.2 hr (List.mem_singleton_self p)
  -- The node is new, so that the length does not wrap.
  have hlen : add64 q.len 1 = (cells ++ [(p, ptr)]).length := by
    have hlt := length_lt_of_addr (n := 2 ^ 64) (List.nodup_append'.1 hnd).1
      (fun r hr => h.addr r ((hmem r).2 (by rw [hfst]; exact List.mem_append_left _ hr)))
      (Nat.two_pow_pos 64)
    rw [List.length_append, List.length_map] at hlt
    rw [h.len, List.length_append]
    exact add64_of_lt hlt
  rcases List.eq_nil_or_concat' cells with rfl | ⟨init, ⟨last, x⟩, rfl⟩
  · rw [link, h.head]
    refine ⟨_, rfl, ⟨rfl, rfl, ?_, h.empty, by rwa [hfst], hmem, ?_, h.addr, hlen⟩,
      rfl, rfl, rfl, rfl, rfl⟩
    · exact seg_singleton.2 ⟨Heap.link_eq hp, Heap.link_eq hp⟩
    · intro c hc
      obtain rfl := List.mem_singleton.1 hc
      dsimp only
      rw [hp]
      rfl
  · have htail : q.tail = some last := by rw [h.tail]; simp
    have hlast : last ∈ (init ++ [(last, x)]).map Prod.fst := by simp
    have hlp : last ≠ p := fun heq => hnotin (heq ▸ hlast)
    obtain ⟨f, hf⟩ : ∃ f, q.head = some f := by
      rw [h.head]
      cases init <;> simp
    obtain ⟨h₁, hu₁⟩ := Heap.exists_update (e := Fault.outOfBounds) (p := last)
      (f := fun y => { y with next := some p }) ((h.mem last).2 (List.mem_append_left _ hlast))
    obtain ⟨h₂, hu₂⟩ := Heap.exists_update (e := Fault.outOfBounds) (p := p)
      (f := fun y => { y with prev := some last }) ((Heap.mem_of_updateAt (o := some last) hu₁ p).2 hin)
    have hnext : h₂.link QNode.next = h₁.link QNode.next :=
      Heap.link_of_updateAt_keep (o := some p) hu₂ fun _ => rfl
    have hprev : h₁.link QNode.prev = q.heap.link QNode.prev :=
      Heap.link_of_updateAt_keep (o := some last) hu₁ fun _ => rfl
    have hother (r : ℕ) (hr : r ≠ last) : h₂.link QNode.next r = q.heap.link QNode.next r := by
      rw [hnext, Heap.link_of_updateAt_ne (o := some last) hu₁ fun heq => hr (Option.some.inj heq).symm]
    have hptr (r : ℕ) : (h₂.lookup r).map QNode.ptr = (q.heap.lookup r).map QNode.ptr := by
      rw [Heap.lookup_map_of_updateAt (o := some p) hu₂ fun _ => rfl,
        Heap.lookup_map_of_updateAt (o := some last) hu₁ fun _ => rfl]
    have hmem₂ (r : ℕ) : r ∈ h₂ ↔ r ∈ q.heap := by
      rw [Heap.mem_of_updateAt (o := some p) hu₂, Heap.mem_of_updateAt (o := some last) hu₁]
    have hrun : q.link p = .ok { q with heap := h₂, tail := some p } := by
      rw [link, hf, htail]
      dsimp only
      rw [hu₁, ok_bind, hu₂]
      rfl
    refine ⟨_, hrun, ⟨?_, ?_, ?_, ?_, by rwa [hfst], fun r => ?_, fun c hc => ?_, fun r hr => ?_,
      hlen⟩, rfl, rfl, rfl, rfl, rfl⟩
    · rw [hfst, List.head?_append_of_ne_nil _ (by simp)]
      exact h.head
    · rw [hfst, List.getLast?_concat]
    · rw [hfst]
      refine h.seg.pushBack (List.nodup_append'.1 h.nodup).1 ?_ ?_ (fun r hr => ?_) (fun r hr => ?_)
        fun r hr hne => ?_
      · rw [hother p hlp.symm]
        exact Heap.link_eq hp
      · rw [Option.or_none, ← h.tail, htail]
        exact Heap.link_of_updateAt_set (o := some p) hu₂ (fun _ => rfl)
          ((Heap.mem_of_updateAt (o := some last) hu₁ p).2 hin) rfl
      · rw [Heap.link_of_updateAt_ne (o := some p) hu₂
          fun heq => hnotin (Option.some.inj heq ▸ hr), hprev]
      · rw [hnext]
        rw [← h.tail, htail] at hr
        exact Heap.link_of_updateAt_set (o := some last) hu₁ (fun _ => rfl)
          ((h.mem r).2 (List.mem_append_left _ (Option.some.inj hr ▸ hlast))) hr
      · refine hother r fun heq => hne ?_
        rw [← h.tail, htail, heq]
    · refine h.empty.congr fun r hr => hother r fun heq => ?_
      exact (h.disjoint last hlast).1 (heq ▸ hr)
    · dsimp only
      rw [hmem₂, hmem]
    · dsimp only
      rw [hptr]
      rcases List.mem_append.1 hc with hc | hc
      · exact h.ptrs c hc
      · obtain rfl := List.mem_singleton.1 hc
        rw [hp]
        rfl
    · exact h.addr r ((hmem₂ r).1 hr)

theorem doPush_spec (h : q.Linked cells free []) (hactive : q.active = true)
    (hstart : start ∉ q.heap) (hpos : 0 < start) (hlt : start < 2 ^ 64) (ptr : ℕ) :
    ∃ p q' free', q.doPush ptr start = .ok (.success, q') ∧
      q'.Linked (cells ++ [(p, ptr)]) free' [] ∧ q.Keeps q' := by
  obtain ⟨p, q₁, free', hnew, h₁, hp, hk₁⟩ := newNode_spec h hstart hpos hlt
  obtain ⟨q₂, hlink, h₂, hk₂⟩ := 
    link_spec (h₁.insert (n := { ptr })) ptr (Finmap.lookup_insert ..)
  refine ⟨p, _, free', ?_, h₂, ?_⟩
  · rw [doPush, if_neg (by simp [hactive]), hnew, ok_bind]
    dsimp only
    rw [Heap.update_eq hp, ok_bind, hlink]
    rfl
  · exact ⟨hk₂.flushFn.trans hk₁.flushFn, hk₂.maxlen.trans hk₁.maxlen, hk₂.pushers.trans hk₁.pushers,
      hk₂.poppers.trans hk₁.poppers, hk₂.active.trans hk₁.active⟩

theorem doPop_spec {x : ℕ} (h : q.Linked ((p, x) :: cells) free []) (hactive : q.active = true) :
    ∃ q', q.doPop = .ok ((.success, some x), q') ∧ q'.Linked cells (p :: free) [] ∧ q.Keeps q' := by
  have hnd := h.nodup
  rw [List.map_cons, List.append_nil, List.cons_append, List.nodup_cons, List.mem_append,
    not_or] at hnd
  obtain ⟨⟨hpc, hpf⟩, hnd⟩ := hnd
  obtain ⟨n, hn, hptr⟩ := Option.map_eq_some_iff.1 (h.ptrs (p, x) (List.mem_cons_self ..))
  have hin : p ∈ q.heap := Finmap.mem_iff.2 ⟨n, hn⟩
  obtain ⟨-, hnext, hseg⟩ := h.seg
  rw [Heap.link_eq hn, Option.or_none] at hnext
  have hhead : q.head = some p := h.head
  have hvalid : q.heap.Valid n.next := fun r hr => by
    rw [hnext] at hr
    exact (h.mem r).2 (List.mem_append_left _ (List.mem_cons_of_mem p (List.mem_of_head? hr)))
  -- The two stores: `prev` of the next node, and the node that becomes free.
  obtain ⟨h₁, hu₁⟩ := hvalid.exists_updateAt (e := Fault.outOfBounds)
    (f := fun y => { y with prev := none })
  obtain ⟨h₂, hu₂⟩ := Heap.exists_update (e := Fault.outOfBounds)
    (f := fun _ => ({ next := q.empty } : QNode)) ((Heap.mem_of_updateAt hu₁ p).2 hin)
  have hother (g : QNode → Option ℕ) (r : ℕ) (hr : r ≠ p) : h₂.link g r = h₁.link g r :=
    Heap.link_of_updateAt_ne (o := some p) hu₂ fun heq => hr (Option.some.inj heq).symm
  have hkeep : h₁.link QNode.next = q.heap.link QNode.next :=
    Heap.link_of_updateAt_keep hu₁ fun _ => rfl
  have hmem (r : ℕ) : r ∈ h₂ ↔ r ∈ q.heap := by
    rw [Heap.mem_of_updateAt (o := some p) hu₂, Heap.mem_of_updateAt hu₁]
  have hrun : q.doPop = .ok ((.success, some x), { q with
      heap := h₂
      head := n.next
      tail := if n.next = none then none else q.tail
      empty := some p
      len := sub64 q.len 1 }) := by
    rw [doPop, if_neg (by simp [hactive]), hhead]
    dsimp only
    rw [Heap.load_eq hn, ok_bind, hu₁, ok_bind, hu₂, hptr]
    rfl
  have hne (r : ℕ) (hr : r ∈ cells.map Prod.fst) : r ≠ p := fun heq => hpc (heq ▸ hr)
  refine ⟨_, hrun, ⟨hnext, ?_, ?_, ⟨rfl, ?_⟩, ?_, fun r => ?_, fun c hc => ?_, fun r hr => ?_, ?_⟩,
    rfl, rfl, rfl, rfl, rfl⟩
  · dsimp only
    rw [hnext, h.tail, List.map_cons, List.getLast?_cons]
    cases hc : cells.map Prod.fst <;> simp [List.getLast?_cons]
  -- The nodes still queued.
  · refine hseg.rehead (List.nodup_append'.1 hnd).1 (fun r hr => ?_) (fun r hr => ?_)
      fun r hr hr' => ?_
    · rw [hother _ r (hne r hr), hkeep]
    · rw [hother _ r (hne r (List.mem_of_head? hr))]
      exact Heap.link_of_updateAt_set hu₁ (fun _ => rfl) (hvalid r (hnext.trans hr)) (hnext.trans hr)
    · rw [hother _ r (hne r hr), Heap.link_of_updateAt_ne hu₁ (by rwa [hnext])]
  -- The free ones, with the popped node in front.
  · have hset : h₂.link QNode.next p = q.empty :=
      Heap.link_of_updateAt_set (o := some p) hu₂ (fun _ => rfl)
        ((Heap.mem_of_updateAt hu₁ p).2 hin) rfl
    dsimp only
    rw [hset]
    refine h.empty.congr fun r hr => ?_
    rw [hother _ r fun heq => hpf (heq ▸ hr), hkeep]
  · rw [List.append_nil, List.nodup_middle, List.nodup_cons, List.mem_append, not_or]
    exact ⟨⟨hpc, hpf⟩, hnd⟩
  · dsimp only
    rw [hmem, h.mem]
    simp only [List.map_cons, List.append_nil, List.mem_append, List.mem_cons]
    tauto
  · have hcp := hne c.1 (List.mem_map_of_mem hc)
    dsimp only
    rw [Heap.lookup_of_updateAt (o := some p) hu₂, if_neg fun heq => hcp (Option.some.inj heq).symm,
      Heap.lookup_map_of_updateAt hu₁ fun _ => rfl]
    exact h.ptrs c (List.mem_cons_of_mem _ hc)
  · exact h.addr r ((hmem r).1 hr)
  · have hlt := h.length_lt
    dsimp only
    rw [h.len, sub64_of_le (by simp) hlt, List.length_cons, Nat.add_sub_cancel]

theorem doPeek_spec {x : ℕ} (h : q.Linked ((p, x) :: cells) free []) (hactive : q.active = true) :
    q.doPeek = .ok (.success, some x) := by
  obtain ⟨n, hn, hptr⟩ := Option.map_eq_some_iff.1 (h.ptrs (p, x) (List.mem_cons_self ..))
  rw [doPeek, if_neg (by simp [hactive]), show q.head = some p from h.head]
  dsimp only
  rw [Heap.load_eq hn, ok_bind, hptr]
  rfl

/-- The two lists of a queue. Every node stands on one of them, once; the links of
    the live one are inverse to each other. -/
structure Lists (q : KsQ) (cells : List (ℕ × ℕ)) (free : List ℕ) : Prop where
  next : Follows (q.heap.link QNode.next) q.head (cells.map Prod.fst)
  prev : Follows (q.heap.link QNode.prev) q.tail (cells.map Prod.fst).reverse
  inverse : ∀ a ∈ cells.map Prod.fst, ∀ b ∈ cells.map Prod.fst,
    q.heap.link QNode.next a = some b ↔ q.heap.link QNode.prev b = some a
  ptrs : ∀ c ∈ cells, (q.heap.lookup c.1).map QNode.ptr = some c.2
  empty : Follows (q.heap.link QNode.next) q.empty free
  once : (cells.map Prod.fst).Nodup ∧ free.Nodup
  one : ∀ p, p ∈ q.heap ↔ Xor (p ∈ cells.map Prod.fst) (p ∈ free)

theorem Linked.lists (h : q.Linked cells free []) : q.Lists cells free := by
  have hnd := h.nodup
  rw [List.append_nil] at hnd
  obtain ⟨hnd₁, hnd₂, hdisj⟩ := List.nodup_append'.1 hnd
  refine ⟨?_, ?_, fun a ha b hb => h.seg.next_eq_iff ha hb, h.ptrs, h.empty, ⟨hnd₁, hnd₂⟩,
    fun p => ?_⟩
  · rw [h.head]
    exact h.seg.follows_next
  · rw [h.tail]
    exact h.seg.follows_prev
  · rw [h.mem, List.append_nil, List.mem_append, xor_def]
    have := @hdisj p
    tauto

end KsQ

end Libks
