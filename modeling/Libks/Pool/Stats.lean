import Libks.Pool.Blocks

/-!
# The statistics of a pool

A pool counts its live blocks and the bytes in them, and keeps the largest sum of
bytes it has had. A run of the pool is set beside the books of an observer, who
has the blocks themselves and the peak of their sizes (`Books`), and
`ks_pool_stats` is compared with these (`Booked.Exact`).

`ks_pool_resize` gives a block another size and leaves the sum as it was, so that
the free of the block takes off other bytes than were counted for it, and
`ks_pool_clear` leaves the counters as they were. In a run in which no block is
resized to another size, and the pool is not cleared with live blocks in it, the
statistics are exact in every state (`always_exact`).
-/

namespace Libks

open Base

/-- What `ks_pool_stats` stores through its arguments. -/
structure PoolStats where
  numAlloced : ℕ
  userAlloced : ℕ
  maxAlloced : ℕ
  totAlloced : ℕ
  deriving DecidableEq, Repr

namespace KsPool

/-- `ks_pool_stats`. -/
def stats (s : KsPool) : Except Fault PoolStats := do
  s.check
  return {
    numAlloced := s.allocC
    userAlloced := s.userAlloc
    maxAlloced := s.maxAlloc
    totAlloced := add64 s.userAlloc (mul64 s.allocC (prefixSize + fenceSize)) }

/-- The counters. -/
def counters (s : KsPool) : ℕ × ℕ × ℕ := (s.allocC, s.userAlloc, s.maxAlloc)

variable {s s' : KsPool} {bs : List Block} {p q size : ℕ} {start : Option ℕ}

/-! ## What the calls do to the counters -/

theorem counters_allocMem (h : s.allocMem size start = .ok (p, s')) :
    size ≠ 0 ∧ s'.counters = (add64 s.allocC 1, add64 s.userAlloc size,
      max s.maxAlloc (add64 s.userAlloc size)) := by
  cases start with
  | none => cases h
  | some start =>
    rw [allocMem] at h
    split_ifs at h with hsize
    obtain ⟨heap, -, h⟩ := bind_eq_ok.1 h
    cases h
    exact ⟨hsize, rfl⟩

theorem counters_alloc (h : s.alloc size start = .ok (p, s')) :
    size ≠ 0 ∧ s'.counters = (add64 s.allocC 1, add64 s.userAlloc size,
      max s.maxAlloc (add64 s.userAlloc size)) := by
  rw [alloc] at h
  split_ifs at h
  obtain ⟨-, -, h⟩ := bind_eq_ok.1 h
  obtain ⟨⟨p₁, s₁⟩, halloc, h⟩ := bind_eq_ok.1 h
  obtain ⟨x, -, h⟩ := bind_eq_ok.1 h
  obtain ⟨-, -, h⟩ := bind_eq_ok.1 h
  cases h
  exact counters_allocMem halloc

theorem counters_calloc {n : ℕ} (h : s.calloc n size start = .ok (p, s')) :
    mul64 n size ≠ 0 ∧ s'.counters = (add64 s.allocC 1, add64 s.userAlloc (mul64 n size),
      max s.maxAlloc (add64 s.userAlloc (mul64 n size))) := by
  rw [calloc] at h
  split_ifs at h
  obtain ⟨-, -, h⟩ := bind_eq_ok.1 h
  exact counters_allocMem h

theorem counters_ref (h : s.ref p = .ok (q, s')) : s'.counters = s.counters := by
  rw [ref] at h
  obtain ⟨x, -, h⟩ := bind_eq_ok.1 h
  obtain ⟨-, -, h⟩ := bind_eq_ok.1 h
  obtain ⟨-, -, h⟩ := bind_eq_ok.1 h
  obtain ⟨heap, -, h⟩ := bind_eq_ok.1 h
  cases h
  rfl

theorem counters_unlink {x : PoolPrefix} (h : s.unlink x = .ok s') :
    s'.counters = s.counters := by
  rw [unlink_eq] at h
  obtain ⟨h₁, -, h⟩ := bind_eq_ok.1 h
  obtain ⟨h₂, -, h⟩ := bind_eq_ok.1 h
  cases h
  rfl

/-- A block with more references stays, and the last free takes its bytes off. -/
theorem counters_free {x : PoolPrefix} {r : Status} (hx : s.heap.lookup p = some x)
    (h : s.free (some p) = .ok (r, s')) :
    s'.counters = if 1 < x.refs then s.counters
      else (sub64 s.allocC 1, sub64 s.userAlloc x.size, s.maxAlloc) := by
  rw [free, Heap.load_eq hx, ok_bind] at h
  obtain ⟨-, -, h⟩ := bind_eq_ok.1 h
  obtain ⟨-, -, h⟩ := bind_eq_ok.1 h
  rw [freeMem, Heap.load_eq hx, ok_bind] at h
  obtain ⟨-, -, h⟩ := bind_eq_ok.1 h
  obtain ⟨heap, -, h⟩ := bind_eq_ok.1 h
  split_ifs at h with hrefs
  · cases h
    rw [if_pos (by omega)]
    rfl
  · obtain ⟨s₁, hunlink, h⟩ := bind_eq_ok.1 h
    have hcounters := counters_unlink hunlink
    cases h
    obtain ⟨hc, hu, hm⟩ : s₁.allocC = s.allocC ∧ s₁.userAlloc = s.userAlloc ∧
        s₁.maxAlloc = s.maxAlloc := by
      simpa [counters] using hcounters
    rw [if_neg (by omega), counters, ← hc, ← hu, ← hm]

theorem counters_resize {moved : Option ℕ} (h : s.resize p size moved = .ok (q, s')) :
    s'.counters = s.counters := by
  rw [resize] at h
  by_cases hzero : size = 0
  · rw [if_pos hzero] at h
    cases h
  rw [if_neg hzero] at h
  obtain ⟨x, -, h⟩ := bind_eq_ok.1 h
  obtain ⟨-, -, h⟩ := bind_eq_ok.1 h
  obtain ⟨-, -, h⟩ := bind_eq_ok.1 h
  by_cases hshared : 1 < x.refs
  · rw [if_pos hshared] at h
    cases h
  rw [if_neg hshared] at h
  by_cases hsame : size = x.size
  · rw [if_pos hsame] at h
    cases h
    rfl
  rw [if_neg hsame] at h
  cases moved with
  | none => cases h
  | some moved =>
    dsimp only at h
    split_ifs at h
    obtain ⟨s₁, hrelink, h⟩ := bind_eq_ok.1 h
    cases h
    rw [relink] at hrelink
    obtain ⟨h₁, -, hrelink⟩ := bind_eq_ok.1 hrelink
    obtain ⟨h₂, -, hrelink⟩ := bind_eq_ok.1 hrelink
    cases hrelink
    rfl

theorem counters_clear (h : s.clear = .ok s') : s'.counters = s.counters := by
  rw [clear] at h
  obtain ⟨-, -, h⟩ := bind_eq_ok.1 h
  obtain ⟨s₁, hcleanup, h⟩ := bind_eq_ok.1 h
  obtain ⟨⟨freed, heap⟩, -, h⟩ := bind_eq_ok.1 h
  cases h
  rw [performPoolCleanup] at hcleanup
  split_ifs at hcleanup
  · cases hcleanup
    rfl
  · dsimp only at hcleanup
    obtain ⟨announced, -, hcleanup⟩ := bind_eq_ok.1 hcleanup
    obtain ⟨tornDown, -, hcleanup⟩ := bind_eq_ok.1 hcleanup
    obtain ⟨destroyed, -, hcleanup⟩ := bind_eq_ok.1 hcleanup
    cases hcleanup
    rfl

end KsPool

/-! ## The books -/

/-- The sum of the sizes of blocks. -/
def total (bs : List Block) : ℕ := (bs.map Block.size).sum

/-- The live blocks, and the largest sum of their sizes so far. -/
structure Books where
  blocks : List Block := []
  peak : ℕ := 0

namespace Books

open KsPool (Op)

/-- What a call does to the books. -/
def step (b : Books) (op : Op) : Books :=
  let blocks := (KsPool.blocks b.blocks op).2
  { blocks, peak := max b.peak (total blocks) }

/-- The calls that the counters follow: no block is resized to another size, and the
    pool is not cleared with live blocks in it. -/
def Good (b : Books) : Op → Prop
  | .resize p size _ => ∀ c ∈ b.blocks, c.addr = p → c.size = size
  | .clear => b.blocks.length = 0
  | _ => True

instance (b : Books) : DecidablePred b.Good
  | .resize _ _ _ => inferInstanceAs (Decidable (∀ _ ∈ _, _ → _))
  | .clear => inferInstanceAs (Decidable (_ = _))
  | .alloc _ _ | .calloc _ _ _ | .ref _ | .free _ => .isTrue trivial

end Books

namespace KsPool

/-- A pool beside the books of an observer. -/
abbrev Booked := KsPool × Books

/-- The call `op`, on both. -/
def book (r : Booked) (op : Op) : Except Fault (Out × Booked) := do
  let (o, s) ← r.1.call op
  return (o, (s, r.2.step op))

/-- The call is made on blocks that are there, and the system returns no block that is
    in use; the live blocks have room in an address space of 64 bits. -/
def Fits (r : Booked) (op : Op) : Prop :=
  r.1.Allowed op ∧ total (r.2.step op).blocks < 2 ^ 64

instance (r : Booked) : DecidablePred (Fits r) := fun _ => inferInstanceAs (Decidable (_ ∧ _))

/-- The statistics are those of the books. -/
def Exact (r : Booked) : Prop :=
  ∃ totAlloced, r.1.stats = .ok {
    numAlloced := r.2.blocks.length
    userAlloced := total r.2.blocks
    maxAlloced := r.2.peak
    totAlloced }

/-- What holds of a pool and the books as long as the statistics are exact. -/
structure Counted (r : Booked) : Prop where
  chained : r.1.Chained r.2.blocks
  pos : ∀ b ∈ r.2.blocks, 0 < b.size
  fits : total r.2.blocks < 2 ^ 64
  peak : total r.2.blocks ≤ r.2.peak
  allocC : r.1.allocC = r.2.blocks.length
  userAlloc : r.1.userAlloc = total r.2.blocks
  maxAlloc : r.1.maxAlloc = r.2.peak

theorem Counted.exact {r : Booked} (h : Counted r) : Exact r := by
  refine ⟨add64 r.1.userAlloc (mul64 r.1.allocC (prefixSize + fenceSize)), ?_⟩
  rw [stats, h.chained.check, ok_bind, ← h.allocC, ← h.userAlloc, ← h.maxAlloc]
  rfl

variable {s s' : KsPool} {b : Books} {c : Block} {bs xs ys : List Block} {p size : ℕ}

theorem total_append (xs ys : List Block) : total (xs ++ ys) = total xs + total ys := by
  rw [total, List.map_append, List.sum_append]
  rfl

theorem total_cons (c : Block) (ys : List Block) : total (c :: ys) = c.size + total ys := rfl

theorem length_le_total (h : ∀ b ∈ bs, 0 < b.size) : bs.length ≤ total bs := by
  induction bs with
  | nil => exact Nat.le_refl _
  | cons b bs ih =>
    have hb := h b List.mem_cons_self
    have hbs := ih fun c hc => h c (List.mem_cons_of_mem _ hc)
    rw [total_cons, List.length_cons]
    omega

theorem counters_eq {n : ℕ × ℕ × ℕ} :
    s.counters = n ↔ s.allocC = n.1 ∧ s.userAlloc = n.2.1 ∧ s.maxAlloc = n.2.2 := by
  rw [counters, Prod.ext_iff, Prod.ext_iff]

/-- A block is added. -/
theorem Counted.cons (h : Counted (s, b)) (hchained : s'.Chained (⟨p, size, 1⟩ :: b.blocks))
    (hfits : total (⟨p, size, 1⟩ :: b.blocks) < 2 ^ 64)
    (hs : size ≠ 0 ∧ s'.counters = (add64 s.allocC 1, add64 s.userAlloc size,
      max s.maxAlloc (add64 s.userAlloc size))) :
    Counted (s', ⟨⟨p, size, 1⟩ :: b.blocks, max b.peak (total (⟨p, size, 1⟩ :: b.blocks))⟩) := by
  obtain ⟨hnum, huser, hmax⟩ := counters_eq.1 hs.2
  have hpos : ∀ c ∈ ⟨p, size, 1⟩ :: b.blocks, 0 < c.size :=
    List.forall_mem_cons.2 ⟨Nat.pos_of_ne_zero hs.1, h.pos⟩
  have hlen := length_le_total hpos
  have htotal : total (⟨p, size, 1⟩ :: b.blocks) = total b.blocks + size := Nat.add_comm _ _
  rw [List.length_cons] at hlen
  rw [h.allocC, add64_of_lt (show b.blocks.length + 1 < 2 ^ 64 by omega)] at hnum
  rw [h.userAlloc, add64_of_lt (show total b.blocks + size < 2 ^ 64 by omega), ← htotal] at huser
  rw [h.userAlloc, add64_of_lt (show total b.blocks + size < 2 ^ 64 by omega), ← htotal,
    h.maxAlloc] at hmax
  exact ⟨hchained, hpos, hfits, le_max_right _ _, hnum, huser, hmax⟩

/-- Nothing is added or taken off. -/
theorem Counted.same (h : Counted (s, b)) (hchained : s'.Chained bs)
    (hsizes : bs.map Block.size = b.blocks.map Block.size) (hs : s'.counters = s.counters) :
    Counted (s', ⟨bs, max b.peak (total bs)⟩) := by
  obtain ⟨hnum, huser, hmax⟩ := counters_eq.1 hs
  have htotal : total bs = total b.blocks := congrArg List.sum hsizes
  have hlen : bs.length = b.blocks.length := by
    rw [← List.length_map (f := Block.size), hsizes, List.length_map]
  refine ⟨hchained, fun c hc => ?_, ?_, le_max_right _ _, ?_, ?_, ?_⟩
  · have hmem : c.size ∈ b.blocks.map Block.size := hsizes ▸ List.mem_map_of_mem hc
    obtain ⟨c', hc', heq⟩ := List.mem_map.1 hmem
    exact heq ▸ h.pos c' hc'
  · exact htotal.trans_lt h.fits
  · exact hnum.trans (h.allocC.trans hlen.symm)
  · exact huser.trans (h.userAlloc.trans htotal.symm)
  · rw [htotal, max_eq_left h.peak]
    exact hmax.trans h.maxAlloc

/-- A block is taken off. -/
theorem Counted.drop (h : Counted (s, b)) (hb : b.blocks = xs ++ c :: ys)
    (hchained : s'.Chained (xs ++ ys))
    (hs : s'.counters = (sub64 s.allocC 1, sub64 s.userAlloc c.size, s.maxAlloc)) :
    Counted (s', ⟨xs ++ ys, max b.peak (total (xs ++ ys))⟩) := by
  obtain ⟨hnum, huser, hmax⟩ := counters_eq.1 hs
  have hlen := length_le_total h.pos
  have hfits := h.fits
  have hpeak := h.peak
  have htotal : total b.blocks = total (xs ++ ys) + c.size := by
    rw [hb, total_append, total_append, total_cons]
    omega
  have hlength : b.blocks.length = (xs ++ ys).length + 1 := by
    rw [hb]
    simp only [List.length_append, List.length_cons]
    omega
  dsimp only at hlen hfits hpeak
  refine ⟨hchained, fun d hd => h.pos d ?_, ?_, le_max_right _ _, ?_, ?_, ?_⟩
  · dsimp only
    rw [hb]
    exact ((List.sublist_cons_self ..).append_left _).subset hd
  · dsimp only
    omega
  · rw [hnum, h.allocC]
    dsimp only
    rw [sub64_of_le (by omega) (by omega), hlength, Nat.add_sub_cancel]
  · rw [huser, h.userAlloc]
    dsimp only
    rw [sub64_of_le (by omega) (by omega), htotal, Nat.add_sub_cancel]
  · have hle : total (xs ++ ys) ≤ b.peak := by omega
    exact hmax.trans (h.maxAlloc.trans (max_eq_left hle).symm)

/-- One call. -/
theorem book_counted {op : Op} {o : Out} {r' : Booked} (h : Counted (s, b)) (hop : Fits (s, b) op)
    (hgood : b.Good op) (hrun : book (s, b) op = .ok (o, r')) : Counted r' := by
  obtain ⟨⟨o₁, s'⟩, hcall, hrun⟩ := bind_eq_ok.1 hrun
  cases hrun
  obtain ⟨hallowed, hfits⟩ := hop
  have hends := call_ends h.chained hallowed
  dsimp only at hcall hallowed hends
  rw [hcall] at hends
  have hchained : s'.Chained (blocks b.blocks op).2 := hends.2.2
  -- The counters are moved by each call as the blocks in the books are.
  cases op with
  | alloc size start =>
    obtain ⟨⟨p, s₁⟩, halloc, hcall⟩ := bind_eq_ok.1 hcall
    cases hcall
    exact h.cons hchained hfits (counters_alloc halloc)
  | calloc n size start =>
    obtain ⟨⟨p, s₁⟩, hcalloc, hcall⟩ := bind_eq_ok.1 hcall
    cases hcall
    exact h.cons hchained hfits (counters_calloc hcalloc)
  | ref p =>
    obtain ⟨⟨q, s₁⟩, href, hcall⟩ := bind_eq_ok.1 hcall
    cases hcall
    obtain ⟨xs, c, ys, x, hb, rfl, -⟩ := h.chained.entry hallowed
    refine h.same hchained ?_ (counters_ref href)
    have hnd := h.chained.nodup
    dsimp only at hb hnd
    rw [hb] at hnd
    rw [blocks, hb, edit_of_nodup hnd]
    simp only [List.map_append, List.map_cons, List.singleton_append]
  | free p =>
    obtain ⟨⟨r, s₁⟩, hfree, hcall⟩ := bind_eq_ok.1 hcall
    cases hcall
    cases p with
    | none =>
      cases hfree
      exact h.same hchained rfl rfl
    | some p =>
      obtain ⟨xs, c, ys, x, hb, rfl, hx, hsize, hrefs⟩ := h.chained.entry (hallowed p rfl)
      have hcounters := counters_free hx hfree
      have hnd := h.chained.nodup
      dsimp only at hb hnd
      rw [hb] at hnd
      rw [Books.step]
      rw [blocks] at hchained ⊢
      dsimp only at hchained ⊢
      rw [hb, edit_of_nodup hnd] at hchained ⊢
      rw [hrefs, hsize] at hcounters
      -- One reference of several is given up, or the last one.
      by_cases hmany : 1 < c.refs
      · rw [if_pos hmany] at hchained hcounters ⊢
        refine h.same hchained ?_ hcounters
        rw [hb]
        simp only [List.map_append, List.map_cons, List.singleton_append]
      · rw [if_neg hmany] at hchained hcounters ⊢
        exact h.drop hb hchained hcounters
  | resize p size moved =>
    obtain ⟨⟨q, s₁⟩, hresize, hcall⟩ := bind_eq_ok.1 hcall
    cases hcall
    obtain ⟨xs, c, ys, x, hb, rfl, -⟩ := h.chained.entry hallowed.1
    refine h.same hchained ?_ (counters_resize hresize)
    have hnd := h.chained.nodup
    dsimp only at hb hnd
    -- The counters are not moved, so the size must not change.
    have hsize := hgood c (by rw [hb]; simp) rfl
    rw [hb] at hnd
    rw [blocks, hb]
    dsimp only
    rw [edit_of_nodup hnd, if_pos hsize]
    rfl
  | clear =>
    obtain ⟨s₁, hclear, hcall⟩ := bind_eq_ok.1 hcall
    cases hcall
    refine h.same hchained ?_ (counters_clear hclear)
    dsimp only [blocks]
    -- Nor are they here, so there must be no blocks.
    rw [List.length_eq_zero_iff.1 hgood]

/-- Whatever is called, in whatever order, on an opened pool: as long as no block is
    resized to another size, and the pool is not cleared with live blocks in it, the
    statistics are exact in every state. -/
theorem always_exact {ops : List Op}
    (h : Along book (fun r op => Fits r op ∧ r.2.Good op) (rawOpen, {}) ops) :
    Always book Exact (rawOpen, {}) ops := by
  have hopen : Counted (rawOpen, {}) :=
    ⟨rawOpen_chained, fun b hb => absurd hb List.not_mem_nil, by decide, Nat.le_refl _, rfl, rfl,
      rfl⟩
  refine always_of_good (fun r hr => hr.exact) ?_ hopen h
  rintro ⟨s, b⟩ op o r' hr ⟨hfits, hgood⟩ hrun
  exact book_counted hr hfits hgood hrun

/-- Three blocks, one of them twice; the two that are freed for good leave one. -/
theorem always_exact_freed :
    Always book Exact (rawOpen, {}) [.alloc 8 (some 1), .calloc 2 4 (some 2), .ref 1,
      .alloc 5 (some 3), .resize 3 5 none, .free (some 1), .free (some 1), .free (some 3)] :=
  always_exact (by decide +kernel)

/-- A block that is resized, and then freed. -/
theorem not_always_exact :
    ¬∀ ops, Along book Fits (rawOpen, {}) ops → Always book Exact (rawOpen, {}) ops := by
  intro h
  have hrun := h [.alloc 8 (some 1), .resize 1 16 (some 1), .free (some 1)] (by decide +kernel)
  have hend : okAnd (fun r => decide (r.2.1.userAlloc = 2 ^ 64 - 8 ∧ total r.2.2.blocks = 0))
      (calls book (rawOpen, {}) [.alloc 8 (some 1), .resize 1 16 (some 1), .free (some 1)]) =
        true := by
    decide +kernel
  obtain ⟨⟨os, s, b⟩, hcalls, hr⟩ := okAnd_iff.1 hend
  obtain ⟨huser, htotal⟩ := of_decide_eq_true hr
  obtain ⟨totAlloced, hstats⟩ := hrun.last hcalls
  obtain ⟨-, -, hstats⟩ := bind_eq_ok.1 hstats
  have heq : s.userAlloc = total b.blocks := congrArg PoolStats.userAlloced (Except.ok.inj hstats)
  dsimp only at huser htotal
  rw [huser, htotal] at heq
  exact absurd heq (by decide)

end KsPool

end Libks
