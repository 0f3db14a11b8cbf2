import Libks.Pool.Callbacks

/-!
# The regions of blocks

What a block is for: room for as many bytes as were asked for. `alloc_mem` and
`ks_pool_resize_ex` ask the system for the bytes of the user and for those of the prefix
and the fence, in a `size_t`, and `ks_pool_calloc_ex` multiplies two of them. A run of the
pool is set beside the sizes that the system was asked for (`mapped`), and a call has to be
refused or to return a block that fits into its region (`Roomy`).

It is so if and only if the sum does not wrap, or the call is refused for another reason
(`served_iff`). One of these reasons is a sum that wraps to a region that holds the prefix
and not the fence: the fence then stands on the prefix, which `ks_pool_alloc_ex` notices and
`ks_pool_calloc_ex` does not.
-/

namespace Libks

open Base

namespace KsPool

/-! ## What the system is asked for -/

/-- The arguments are `size_t`. -/
def Op.Words : Op → Prop
  | .alloc size _ | .resize _ size _ => size < 2 ^ 64
  | .calloc n size _ => n < 2 ^ 64 ∧ size < 2 ^ 64
  | .ref _ | .free _ | .clear => True

instance : DecidablePred Op.Words
  | .alloc _ _ | .resize _ _ _ => inferInstanceAs (Decidable (_ < _))
  | .calloc _ _ _ => inferInstanceAs (Decidable (_ ∧ _))
  | .ref _ | .free _ | .clear => .isTrue trivial

/-- How many bytes the caller needs. -/
def Op.wanted : Op → Option ℕ
  | .alloc size _ | .resize _ size _ => some size
  | .calloc n size _ => some (n * size)
  | .ref _ | .free _ | .clear => none

/-- A pool, and how many bytes the system has been asked for at an address. -/
abbrev Mapped := KsPool × (ℕ → ℕ)

/-- What has been asked for after the call `a` on the pool `s`. -/
def asked (s : KsPool) (g : ℕ → ℕ) : Action → ℕ → ℕ
  | .op (.alloc size (some p)) => Function.update g p (required size)
  | .op (.calloc n size (some p)) => Function.update g p (required (mul64 n size))
  | .op (.resize p size (some q)) =>
    if (s.heap.lookup p).map PoolPrefix.size = some size then g
    else Function.update g q (required size)
  | _ => g

/-- The call `a`, on both. -/
def mapped (r : Mapped) (a : Action) : Except Fault (Out × Mapped) := do
  let (o, s) ← r.1.act a
  return (o, (s, r.1.asked r.2 a))

/-- The call is made on blocks that are there, with arguments that are `size_t`, and the
    system returns no block that is in use. -/
def Fitting (r : Mapped) (a : Action) : Prop :=
  r.1.Permits a ∧ match a with
    | .op op => op.Words
    | .setCleanup _ _ _ | .removeCleanup _ => True

instance (r : Mapped) : DecidablePred (Fitting r)
  | .op _ => inferInstanceAs (Decidable (_ ∧ Op.Words _))
  | .setCleanup _ _ _ | .removeCleanup _ => inferInstanceAs (Decidable (_ ∧ True))

/-- A block has at least `wanted` bytes for its user, and lies in its region, in which there
    are `room` bytes. -/
structure Roomy (x : PoolPrefix) (wanted room : ℕ) : Prop where
  usable : wanted ≤ x.size
  start : prefixSize ≤ room
  user : prefixSize + x.size ≤ room
  fence : prefixSize + x.size + fenceSize ≤ room
  unwrapped : room = prefixSize + x.size + fenceSize

/-- The call has returned such a block. -/
def Serves (wanted : ℕ) (r : Out × Mapped) : Prop :=
  ∃ p x, r.1 = .block p ∧ r.2.1.heap.lookup p = some x ∧ Roomy x wanted (r.2.2 p)

/-- The calls whose size does not wrap, and those that are refused, or have nothing to
    ask for. -/
def Measured (s : KsPool) : Op → Prop
  | .alloc size start =>
    size = 0 ∨ start = none ∨ prefixSize + size + fenceSize < 2 ^ 64 ∨ 2 ^ 64 ≤ size + fenceSize
  | .calloc n size start =>
    mul64 n size = 0 ∨ start = none ∨ prefixSize + n * size + fenceSize < 2 ^ 64
  | .resize p size moved =>
    size = 0 ∨ moved = none ∨ prefixSize + size + fenceSize < 2 ^ 64 ∨
      ∀ x ∈ s.heap.lookup p, x.check = .ok () → x.refs ≤ 1 → x.size = size
  | .ref _ | .free _ | .clear => True

/-! ## Sizes that wrap -/

section Required

variable {size : ℕ}

theorem required_eq : required size = (prefixSize + size + fenceSize) % 2 ^ 64 := by
  rw [required, add64, add64, Nat.mod_add_mod]

/-- A sum that wraps leaves less than the prefix and the fence take. -/
theorem le_required_iff (h : size < 2 ^ 64) :
    prefixSize + fenceSize ≤ required size ↔ prefixSize + size + fenceSize < 2 ^ 64 := by
  rw [required_eq, prefixSize, fenceSize]
  omega

/-- The size asked for wraps below the prefix in 96 cases. -/
theorem required_lt_iff (h : size < 2 ^ 64) : required size < prefixSize ↔
    2 ^ 64 ≤ prefixSize + size + fenceSize ∧ size + fenceSize < 2 ^ 64 := by
  rw [required_eq, prefixSize, fenceSize]
  omega

/-- A size that does not wrap. -/
theorem required_of_fits (h : prefixSize + size + fenceSize < 2 ^ 64) :
    required size = prefixSize + size + fenceSize := by
  rw [required_eq, Nat.mod_eq_of_lt h]

end Required

/-- A fence on the prefix is noticed. -/
theorem check_writeFence {x : PoolPrefix} {n : ℕ} (hx : x.check = .ok ()) (hn : prefixSize ≤ n) :
    (x.writeFence n).check = .ok () ↔ prefixSize + fenceSize ≤ n := by
  rw [PoolPrefix.writeFence]
  split_ifs with hfits
  · exact iff_of_true hx hfits
  · refine iff_of_false (fun h => ?_) hfits
    rw [PoolPrefix.check] at hx h
    split_ifs at hx h with hmagic hspoiled
    obtain ⟨-, -, -, -, h5⟩ := hmagic
    have hn' : n = 96 ∨ n = 97 := by
      rw [prefixSize, fenceSize] at *
      omega
    have hspoiled5 := hspoiled.2.2.2.2
    dsimp only at hspoiled5
    rw [h5] at hspoiled5
    obtain rfl | rfl := hn' <;> exact absurd hspoiled5 (by decide)

/-- A check of a prefix passes or ends the program. -/
theorem check_eq (x : PoolPrefix) : x.check = .ok () ∨ x.check = .error .assertion := by
  rw [PoolPrefix.check]
  split_ifs
  · exact .inl rfl
  · exact .inr rfl

/-! ## What the calls do to sizes and marks -/

/-- The size of a block, and whether its prefix is as it was written. -/
def label (x : PoolPrefix) : ℕ × Except Fault Unit := (x.size, x.check)

/-- Blocks that `s'` has, `s` has had. -/
def Within (s s' : KsPool) : Prop :=
  ∀ q x, s'.heap.lookup q = some x → ∃ y, s.heap.lookup q = some y ∧ label y = label x

variable {s s' : KsPool} {bs : List Block} {p q size : ℕ}

/-- Blocks that keep what `label` tells of them stay within their regions. -/
theorem Within.of_map
    (h : ∀ q, (s'.heap.lookup q).map label = (s.heap.lookup q).map label) : Within s s' := by
  intro q x hx
  have hlabel := h q
  rw [hx, Option.map_some] at hlabel
  exact Option.map_eq_some_iff.1 hlabel.symm

/-- A new block with its fence, where there is room for the prefix. -/
theorem allocMem_label {start : Option ℕ} (hrun : s.allocMem size start = .ok (p, s')) :
    start = some p ∧ prefixSize ≤ required size ∧
      (∃ x, s'.heap.lookup p = some x ∧ x.size = size ∧
        (x.check = .ok () ↔ prefixSize + fenceSize ≤ required size)) ∧
      ∀ q, q ≠ p → (s'.heap.lookup q).map label = (s.heap.lookup q).map label := by
  cases start with
  | none => cases hrun
  | some start =>
    rw [allocMem] at hrun
    split_ifs at hrun with hsize hwrapped
    obtain ⟨heap, hheap, hrun⟩ := bind_eq_ok.1 hrun
    cases hrun
    rw [not_lt] at hwrapped
    refine ⟨rfl, hwrapped, ?_, fun q hq => ?_⟩
    · have hlabel := Heap.lookup_map_of_updateAt (g := label) hheap (fun _ => rfl) p
      rw [Finmap.lookup_insert, Option.map_some] at hlabel
      obtain ⟨x, hx, hxlabel⟩ := Option.map_eq_some_iff.1 hlabel
      obtain ⟨hxsize, hxcheck⟩ := Prod.ext_iff.1 hxlabel
      refine ⟨x, hx, hxsize.trans (congrArg Prod.fst (writeFence_keeps _ _).2.2), ?_⟩
      change x.check = _ at hxcheck
      rw [hxcheck]
      exact check_writeFence rfl hwrapped
    · dsimp only
      rw [Heap.lookup_map_of_updateAt hheap fun _ => rfl, Finmap.lookup_insert_of_ne _ hq]

theorem ref_within (hrun : s.ref p = .ok (q, s')) : Within s s' :=
  .of_map (lookup_map_of_ref (fun _ _ => rfl) hrun)

theorem free_within {r : Status} (hrun : s.free (some p) = .ok (r, s')) : Within s s' := by
  rw [free] at hrun
  obtain ⟨y, -, hrun⟩ := bind_eq_ok.1 hrun
  obtain ⟨-, -, hrun⟩ := bind_eq_ok.1 hrun
  obtain ⟨-, -, hrun⟩ := bind_eq_ok.1 hrun
  rw [freeMem] at hrun
  obtain ⟨x, -, hrun⟩ := bind_eq_ok.1 hrun
  obtain ⟨-, -, hrun⟩ := bind_eq_ok.1 hrun
  obtain ⟨heap, hheap, hrun⟩ := bind_eq_ok.1 hrun
  have hkept := Heap.lookup_map_of_updateAt (o := some p) (g := label) hheap fun _ => rfl
  split_ifs at hrun
  · cases hrun
    exact .of_map hkept
  · obtain ⟨s₁, hunlink, hrun⟩ := bind_eq_ok.1 hrun
    cases hrun
    intro q y hy
    dsimp only at hy
    have hq : q ≠ p := by
      rintro rfl
      rw [Finmap.lookup_erase] at hy
      cases hy
    rw [Finmap.lookup_erase_ne hq] at hy
    have hlabel : (s₁.heap.lookup q).map label = (s.heap.lookup q).map label := by
      rw [lookup_map_of_unlink (fun _ _ => rfl) (fun _ _ => rfl) hunlink, hkept]
    rw [hy, Option.map_some] at hlabel
    exact Option.map_eq_some_iff.1 hlabel.symm

theorem setCleanup_within {arg : ℕ} {callback : Option ℕ} {r : Status}
    (hrun : s.setCleanup p arg callback = .ok (r, s')) : Within s s' := by
  cases callback with
  | none => cases hrun
  | some fn =>
    rw [setCleanup] at hrun
    obtain ⟨x, -, hrun⟩ := bind_eq_ok.1 hrun
    obtain ⟨-, -, hrun⟩ := bind_eq_ok.1 hrun
    obtain ⟨heap, hheap, hrun⟩ := bind_eq_ok.1 hrun
    cases hrun
    exact .of_map (Heap.lookup_map_of_updateAt (o := some p) hheap fun _ => rfl)

theorem removeCleanup_within {r : Status} (hrun : s.removeCleanup p = .ok (r, s')) :
    Within s s' := by
  rw [removeCleanup] at hrun
  obtain ⟨x, -, hrun⟩ := bind_eq_ok.1 hrun
  obtain ⟨-, -, hrun⟩ := bind_eq_ok.1 hrun
  obtain ⟨heap, hheap, hrun⟩ := bind_eq_ok.1 hrun
  cases hrun
  exact .of_map (Heap.lookup_map_of_updateAt (o := some p) hheap fun _ => rfl)

/-- A block that is resized keeps what it has, or is another one with its fence. -/
theorem resize_label {moved : Option ℕ} (hrun : s.resize p size moved = .ok (q, s')) :
    ∃ x, s.heap.lookup p = some x ∧ x.check = .ok () ∧
      ((x.size = size ∧ q = p ∧ s' = s) ∨ x.size ≠ size ∧ moved = some q ∧
        prefixSize ≤ required size ∧
        (∃ y, s'.heap.lookup q = some y ∧ y.size = size ∧
          (y.check = .ok () ↔ prefixSize + fenceSize ≤ required size)) ∧
        ∀ r y, r ≠ q → s'.heap.lookup r = some y →
          ∃ z, s.heap.lookup r = some z ∧ label z = label y) := by
  rw [resize] at hrun
  -- The checks of the source, in their order.
  by_cases hzero : size = 0
  · rw [if_pos hzero] at hrun
    cases hrun
  rw [if_neg hzero] at hrun
  obtain ⟨x, hload, hrun⟩ := bind_eq_ok.1 hrun
  obtain ⟨⟨⟩, hcheck, hrun⟩ := bind_eq_ok.1 hrun
  obtain ⟨-, -, hrun⟩ := bind_eq_ok.1 hrun
  refine ⟨x, Heap.lookup_of_load hload, hcheck, ?_⟩
  by_cases hshared : 1 < x.refs
  · rw [if_pos hshared] at hrun
    cases hrun
  rw [if_neg hshared] at hrun
  by_cases hsame : size = x.size
  · rw [if_pos hsame] at hrun
    cases hrun
    exact .inl ⟨hsame.symm, rfl, rfl⟩
  rw [if_neg hsame] at hrun
  cases moved with
  | none => cases hrun
  | some moved =>
    dsimp only at hrun
    split_ifs at hrun with hwrapped
    obtain ⟨s₁, hrelink, hrun⟩ := bind_eq_ok.1 hrun
    cases hrun
    rw [relink] at hrelink
    obtain ⟨h₁, hu₁, hrelink⟩ := bind_eq_ok.1 hrelink
    obtain ⟨h₂, hu₂, hrelink⟩ := bind_eq_ok.1 hrelink
    cases hrelink
    rw [not_lt] at hwrapped
    -- Relinking the neighbours changes no size and no fence.
    have hlabel (r : ℕ) : (h₂.lookup r).map label =
        (((s.heap.erase p).insert q (({ x with size } : PoolPrefix).writeFence
          (required size))).lookup r).map label := by
      rw [Heap.lookup_map_of_updateAt hu₂ fun _ => rfl,
        Heap.lookup_map_of_updateAt hu₁ fun _ => rfl]
    refine .inr ⟨fun h => hsame h.symm, rfl, hwrapped, ?_, fun r y hr hy => ?_⟩
    -- The block at its new place.
    · have hq := hlabel q
      rw [Finmap.lookup_insert, Option.map_some] at hq
      obtain ⟨y, hy, hylabel⟩ := Option.map_eq_some_iff.1 hq
      obtain ⟨hysize, hycheck⟩ := Prod.ext_iff.1 hylabel
      refine ⟨y, hy, hysize.trans (congrArg Prod.fst (writeFence_keeps _ _).2.2), ?_⟩
      have hnew : ({ x with size } : PoolPrefix).check = .ok () := hcheck
      change y.check = _ at hycheck
      rw [hycheck]
      exact check_writeFence hnew hwrapped
    -- Any other block.
    · have hr' := hlabel r
      dsimp only at hy
      rw [hy, Option.map_some, Finmap.lookup_insert_of_ne _ hr] at hr'
      have hrp : r ≠ p := by
        rintro rfl
        rw [Finmap.lookup_erase] at hr'
        cases hr'
      rw [Finmap.lookup_erase_ne hrp] at hr'
      exact Option.map_eq_some_iff.1 hr'.symm

/-! ## Blocks and their regions -/

/-- A block whose prefix is as it was written fills its region. -/
def Filled (s : KsPool) (g : ℕ → ℕ) : Prop :=
  ∀ q x, s.heap.lookup q = some x → x.check = .ok () → g q = prefixSize + x.size + fenceSize

variable {g : ℕ → ℕ}

/-- Regions are filled as long as no block outgrows its own. -/
theorem Filled.within (h : Filled s g) (hs : Within s s') : Filled s' g := by
  intro q x hx hcheck
  obtain ⟨y, hy, hlabel⟩ := hs q x hx
  obtain ⟨hsize, hcheck'⟩ := Prod.ext_iff.1 hlabel
  change y.size = x.size at hsize
  exact hsize ▸ h q y hy (hcheck'.trans hcheck)

/-- A new block fills its region, if its fence is not on its prefix. -/
theorem Filled.add (h : Filled s g) (hsize : size < 2 ^ 64)
    (hnew : ∃ x, s'.heap.lookup p = some x ∧ x.size = size ∧
      (x.check = .ok () ↔ prefixSize + fenceSize ≤ required size))
    (hrest : ∀ q x, q ≠ p → s'.heap.lookup q = some x →
      ∃ y, s.heap.lookup q = some y ∧ label y = label x) :
    Filled s' (Function.update g p (required size)) := by
  intro q x hx hcheck
  by_cases hq : q = p
  · obtain ⟨y, hy, rfl, hfence⟩ := hnew
    obtain rfl : y = x := Option.some.inj (hy.symm.trans (hq ▸ hx))
    rw [hq, Function.update_self]
    exact required_of_fits ((le_required_iff hsize).1 (hfence.1 hcheck))
  · obtain ⟨y, hy, hlabel⟩ := hrest q x hq hx
    obtain ⟨hysize, hycheck⟩ := Prod.ext_iff.1 hlabel
    change y.size = x.size at hysize
    rw [Function.update_of_ne hq]
    exact hysize ▸ h q y hy (hycheck.trans hcheck)

theorem allocMem_of_alloc {start : Option ℕ} (hrun : s.alloc size start = .ok (p, s')) :
    s.allocMem size start = .ok (p, s') := by
  rw [alloc] at hrun
  split_ifs at hrun
  obtain ⟨-, -, hrun⟩ := bind_eq_ok.1 hrun
  obtain ⟨⟨p₁, s₁⟩, halloc, hrun⟩ := bind_eq_ok.1 hrun
  obtain ⟨x, -, hrun⟩ := bind_eq_ok.1 hrun
  obtain ⟨-, -, hrun⟩ := bind_eq_ok.1 hrun
  cases hrun
  exact halloc

theorem mul64_lt (a b : ℕ) : mul64 a b < 2 ^ 64 := by
  rw [mul64]
  exact Nat.mod_lt _ (by decide)

/-- A new block fills the region it was granted. -/
theorem Filled.allocMem {start : Option ℕ} (h : Filled s g) (hsize : size < 2 ^ 64)
    (hrun : s.allocMem size start = .ok (p, s')) :
    Filled s' (Function.update g p (required size)) := by
  obtain ⟨-, -, hnew, hrest⟩ := allocMem_label hrun
  refine h.add hsize hnew fun q x hq hx => ?_
  have hlabel := hrest q hq
  rw [hx, Option.map_some] at hlabel
  exact Option.map_eq_some_iff.1 hlabel.symm

/-- One call. -/
theorem Filled.act {r : Mapped} {a : Action} {o : Out} (hr : r.1.Chained bs)
    (h : Filled r.1 r.2) (ha : Fitting r a) (hrun : r.1.act a = .ok (o, s')) :
    Filled s' (r.1.asked r.2 a) := by
  obtain ⟨s, g⟩ := r
  obtain ⟨hpermits, hwords⟩ := ha
  cases a with
  | setCleanup p arg callback =>
    obtain ⟨⟨r, s₁⟩, hset, hrun⟩ := bind_eq_ok.1 hrun
    cases hrun
    exact h.within (setCleanup_within hset)
  | removeCleanup p =>
    obtain ⟨⟨r, s₁⟩, hremove, hrun⟩ := bind_eq_ok.1 hrun
    cases hrun
    exact h.within (removeCleanup_within hremove)
  | op op =>
    cases op with
    | alloc size start =>
      obtain ⟨⟨p, s₁⟩, halloc, hrun⟩ := bind_eq_ok.1 hrun
      cases hrun
      have hmem := allocMem_of_alloc halloc
      obtain ⟨rfl, -⟩ := allocMem_label hmem
      exact h.allocMem hwords hmem
    | calloc n size start =>
      obtain ⟨⟨p, s₁⟩, hcalloc, hrun⟩ := bind_eq_ok.1 hrun
      cases hrun
      rw [calloc] at hcalloc
      split_ifs at hcalloc
      obtain ⟨-, -, hmem⟩ := bind_eq_ok.1 hcalloc
      obtain ⟨rfl, -⟩ := allocMem_label hmem
      exact h.allocMem (mul64_lt _ _) hmem
    | ref p =>
      obtain ⟨⟨q, s₁⟩, href, hrun⟩ := bind_eq_ok.1 hrun
      cases hrun
      exact h.within (ref_within href)
    | free p =>
      obtain ⟨⟨r, s₁⟩, hfree, hrun⟩ := bind_eq_ok.1 hrun
      cases hrun
      cases p with
      | none =>
        cases hfree
        exact h
      | some p => exact h.within (free_within hfree)
    | resize p size moved =>
      obtain ⟨⟨q, s₁⟩, hresize, hrun⟩ := bind_eq_ok.1 hrun
      cases hrun
      obtain ⟨x, hx, -, ⟨hsame, rfl, rfl⟩ | ⟨hne, rfl, -, hnew, hrest⟩⟩ := resize_label hresize
      -- Resized in place, or copied to a block of its own.
      · cases moved with
        | none => exact h
        | some q =>
          dsimp only [asked]
          rw [hx, Option.map_some, if_pos (by rw [hsame])]
          exact h
      · dsimp only [asked]
        rw [hx, Option.map_some, if_neg fun heq => hne (Option.some.inj heq)]
        exact h.add hwords hnew hrest
    | clear =>
      obtain ⟨s₁, hclear, hrun⟩ := bind_eq_ok.1 hrun
      cases hrun
      obtain ⟨s₂, hclear', hchained, -⟩ := clear_chained hr
      obtain rfl : _ = s₂ := Except.ok.inj (hclear.symm.trans hclear')
      intro q x hx
      have hin := (hchained.mem q).1 (Finmap.mem_iff.2 ⟨x, hx⟩)
      exact absurd hin List.not_mem_nil

/-! ## What is returned -/

/-- What an allocation ends in, by what its size is: nothing to ask for, a region without
    room for the prefix, or a block. -/
theorem allocMem_cases (size : ℕ) {start : Option ℕ} (h : s.Chained bs)
    (hstart : ∀ p ∈ start, p ∉ s.heap) :
    ((size = 0 ∨ start = none) ∧ s.allocMem size start = .error .assertion) ∨
    (size ≠ 0 ∧ start ≠ none ∧ required size < prefixSize ∧
      s.allocMem size start = .error .overflow) ∨
    ∃ p s' x, size ≠ 0 ∧ start = some p ∧ prefixSize ≤ required size ∧
      s.allocMem size start = .ok (p, s') ∧ s'.heap.lookup p = some x ∧ x.size = size ∧
      (x.check = .ok () ↔ prefixSize + fenceSize ≤ required size) := by
  cases start with
  | none => exact .inl ⟨.inr rfl, rfl⟩
  | some p =>
    by_cases hsize : size = 0
    · exact .inl ⟨.inl hsize, if_pos hsize⟩
    by_cases hwrapped : required size < prefixSize
    · refine .inr (.inl ⟨hsize, by simp, hwrapped, ?_⟩)
      rw [allocMem, if_neg hsize, if_pos hwrapped]
    obtain ⟨s', hrun, -⟩ := allocMem_chained h (hstart p rfl) hsize hwrapped
    obtain ⟨-, hle, ⟨x, hx, hxsize, hcheck⟩, -⟩ := allocMem_label hrun
    exact .inr (.inr ⟨p, s', x, hsize, rfl, hle, hrun, hx, hxsize, hcheck⟩)

theorem Roomy.of_unwrapped {x : PoolPrefix} {wanted room : ℕ} (hle : wanted ≤ x.size)
    (hroom : room = prefixSize + x.size + fenceSize) : Roomy x wanted room :=
  ⟨hle, by omega, by omega, by omega, hroom⟩

/-- A block lies in its region if and only if the size of the region has not wrapped. -/
theorem roomy_iff {x : PoolPrefix} {wanted : ℕ} (hsize : x.size < 2 ^ 64) :
    Roomy x wanted (required x.size) ↔
      wanted ≤ x.size ∧ prefixSize + x.size + fenceSize < 2 ^ 64 := by
  refine ⟨fun h => ⟨h.usable, ?_⟩, fun ⟨hle, hfits⟩ => ?_⟩
  · refine (le_required_iff hsize).1 ?_
    have hfence := h.fence
    omega
  · exact .of_unwrapped hle (required_of_fits hfits)

/-- A call that returns a block. -/
theorem serves_iff {x : PoolPrefix} {wanted : ℕ} (hx : s'.heap.lookup p = some x) :
    Ends (· = Fault.assertion) (Serves wanted) (.ok (.block p, (s', g))) ↔
      Roomy x wanted (g p) := by
  refine ⟨fun ⟨q, y, hq, hy, hroomy⟩ => ?_, fun hroomy => ⟨p, x, rfl, hx, hroomy⟩⟩
  obtain rfl : p = q := by simpa using hq
  obtain rfl : x = y := Option.some.inj (hx.symm.trans hy)
  exact hroomy

section Calls

variable {start : Option ℕ}

/-- What an allocation by a user ends in: the prefix is checked as well. -/
theorem alloc_cases (h : s.Chained bs) (hstart : ∀ p ∈ start, p ∉ s.heap) (hsize : size < 2 ^ 64) :
    ((size = 0 ∨ start = none ∨ 2 ^ 64 ≤ size + fenceSize) ∧
      s.alloc size start = .error .assertion) ∨
    (size ≠ 0 ∧ start ≠ none ∧ required size < prefixSize ∧
      s.alloc size start = .error .overflow) ∨
    ∃ p s' x, size ≠ 0 ∧ start = some p ∧ prefixSize + size + fenceSize < 2 ^ 64 ∧
      s.alloc size start = .ok (p, s') ∧ s'.heap.lookup p = some x ∧ x.size = size := by
  rw [alloc]
  by_cases hzero : size = 0
  · rw [if_pos hzero]
    exact .inl ⟨.inl hzero, rfl⟩
  rw [if_neg hzero, h.check, ok_bind]
  rcases allocMem_cases size h hstart with
    ⟨hnone, hmem⟩ | ⟨-, hnone, hwrapped, hmem⟩ | ⟨p, s', x, -, rfl, hle, hmem, hx, rfl, hcheck⟩
  · rw [hmem]
    exact .inl ⟨.inr (.inl (hnone.resolve_left hzero)), rfl⟩
  · rw [hmem]
    exact .inr (.inl ⟨hzero, hnone, hwrapped, rfl⟩)
  rw [hmem, ok_bind]
  dsimp only
  rw [Heap.load_eq hx, ok_bind]
  by_cases hfits : prefixSize + x.size + fenceSize < 2 ^ 64
  · rw [hcheck.2 ((le_required_iff hsize).2 hfits)]
    exact .inr (.inr ⟨p, s', x, hzero, rfl, hfits, rfl, hx, rfl⟩)
  · -- The fence stands on the prefix, which is found to be spoiled.
    have hspoiled := (check_eq x).resolve_left fun hok =>
      hfits ((le_required_iff hsize).1 (hcheck.1 hok))
    rw [hspoiled]
    refine .inl ⟨.inr (.inr ?_), rfl⟩
    by_contra hlt
    exact absurd ((required_lt_iff hsize).2 ⟨by omega, by omega⟩) (by omega)

/-- `ks_pool_alloc` serves its caller if and only if the size is measured. -/
theorem alloc_serves_iff (h : s.Chained bs) (hstart : ∀ p ∈ start, p ∉ s.heap)
    (hsize : size < 2 ^ 64) :
    Ends (· = .assertion) (Serves size) (mapped (s, g) (.op (.alloc size start))) ↔
      s.Measured (.alloc size start) := by
  have hrun : mapped (s, g) (.op (.alloc size start)) = s.alloc size start >>= fun r =>
      .ok (.block r.1, (r.2, s.asked g (.op (.alloc size start)))) := by
    rw [mapped, KsPool.act, call]
    cases s.alloc size start <;> rfl
  rw [hrun, Measured]
  rcases alloc_cases h hstart hsize with
    ⟨hrefused, halloc⟩ | ⟨hzero, hnone, hwrapped, halloc⟩ |
    ⟨p, s', x, -, rfl, hfits, halloc, hx, rfl⟩
  · rw [halloc]
    exact iff_of_true rfl (hrefused.imp id (.imp id .inr))
  · rw [halloc]
    have hlt := (required_lt_iff hsize).1 hwrapped
    refine iff_of_false (fun h => by cases h) ?_
    rintro (hz | hn | hfits | hover)
    · exact hzero hz
    · exact hnone hn
    · omega
    · omega
  · have hasked : s.asked g (.op (.alloc x.size (some p))) p = required x.size := by
      dsimp only [asked]
      rw [Function.update_self]
    rw [halloc, ok_bind]
    refine iff_of_true ((serves_iff hx).2 ?_) (.inr (.inr (.inl hfits)))
    rw [hasked]
    exact (roomy_iff hsize).2 ⟨le_rfl, hfits⟩

/-- `ks_pool_calloc`, by the product of its two sizes. -/
theorem calloc_serves_iff {n : ℕ} (h : s.Chained bs) (hstart : ∀ p ∈ start, p ∉ s.heap) :
    Ends (· = .assertion) (Serves (n * size)) (mapped (s, g) (.op (.calloc n size start))) ↔
      s.Measured (.calloc n size start) := by
  have hrun : mapped (s, g) (.op (.calloc n size start)) = s.calloc n size start >>= fun r =>
      .ok (.block r.1, (r.2, s.asked g (.op (.calloc n size start)))) := by
    rw [mapped, KsPool.act, call]
    cases s.calloc n size start <;> rfl
  rw [hrun, Measured, calloc]
  by_cases hnone : n = 0 ∨ size = 0
  · rw [if_pos hnone]
    have hzero : mul64 n size = 0 := by
      rw [mul64]
      obtain rfl | rfl := hnone <;> simp
    exact iff_of_true rfl (.inl hzero)
  rw [if_neg hnone, h.check, ok_bind]
  have hlt := mul64_lt n size
  -- The product has wrapped unless it is the number of bytes that is needed.
  have hmul : n * size < 2 ^ 64 → mul64 n size = n * size := fun h => by
    rw [mul64, Nat.mod_eq_of_lt h]
  rcases allocMem_cases (mul64 n size) h hstart with
    ⟨hzero, hmem⟩ | ⟨hzero, hnone, hwrapped, hmem⟩ | ⟨p, s', x, hzero, rfl, -, hmem, hx, hxsize, -⟩
  · rw [hmem]
    exact iff_of_true rfl (hzero.imp id .inl)
  · rw [hmem]
    have hover := (required_lt_iff hlt).1 hwrapped
    refine iff_of_false (fun h => by cases h) ?_
    rintro (hz | hn | hfits)
    · exact hzero hz
    · exact hnone hn
    · rw [hmul (by omega)] at hover
      omega
  · have hasked : s.asked g (.op (.calloc n size (some p))) p = required x.size := by
      dsimp only [asked]
      rw [Function.update_self, hxsize]
    rw [hmem, ok_bind]
    refine (serves_iff hx).trans ?_
    rw [hasked, roomy_iff (hxsize ▸ hlt), hxsize]
    constructor
    · rintro ⟨hle, hfits⟩
      by_cases hwraps : n * size < 2 ^ 64
      · rw [hmul hwraps] at hfits
        exact .inr (.inr hfits)
      · omega
    · rintro (hz | hn | hfits)
      · exact absurd hz hzero
      · cases hn
      · rw [hmul (by omega)]
        exact ⟨le_rfl, hfits⟩

/-- What a resize of a block ends in. -/
theorem resize_cases (size : ℕ) {x : PoolPrefix} {moved : Option ℕ} (h : s.Chained bs)
    (hx : s.heap.lookup p = some x) (hmoved : ∀ q ∈ moved, q = p ∨ q ∉ s.heap) :
    ((size = 0 ∨ x.check ≠ .ok () ∨ 1 < x.refs ∨ moved = none) ∧
      s.resize p size moved = .error .assertion) ∨
    (x.check = .ok () ∧ x.size = size ∧ s.resize p size moved = .ok (p, s)) ∨
    (size ≠ 0 ∧ x.check = .ok () ∧ x.refs ≤ 1 ∧ x.size ≠ size ∧ ∃ q, moved = some q ∧
      ((required size < prefixSize ∧ s.resize p size moved = .error .overflow) ∨
        ∃ s' y, s.resize p size moved = .ok (q, s') ∧ s'.heap.lookup q = some y ∧
          y.size = size)) := by
  obtain ⟨xs, b, ys, x', rfl, rfl, hx', -, hrefs⟩ := h.entry (Finmap.mem_iff.2 ⟨x, hx⟩)
  obtain rfl : x' = x := Option.some.inj (hx'.symm.trans hx)
  rw [resize]
  by_cases hzero : size = 0
  · rw [if_pos hzero]
    exact .inl ⟨.inl hzero, rfl⟩
  rw [if_neg hzero, Heap.load_eq hx, ok_bind]
  obtain hcheck | hcheck := check_eq x'
  swap
  · refine .inl ⟨.inr (.inl ?_), ?_⟩
    · rw [hcheck]
      simp
    · rw [hcheck]
      rfl
  rw [hcheck, ok_bind, h.check, ok_bind]
  by_cases hshared : 1 < x'.refs
  · rw [if_pos hshared]
    exact .inl ⟨.inr (.inr (.inl hshared)), rfl⟩
  rw [if_neg hshared]
  by_cases hsame : size = x'.size
  · rw [if_pos hsame]
    exact .inr (.inl ⟨rfl, hsame.symm, rfl⟩)
  rw [if_neg hsame]
  cases moved with
  | none => exact .inl ⟨.inr (.inr (.inr rfl)), rfl⟩
  | some q =>
    refine .inr (.inr ⟨hzero, rfl, not_lt.1 hshared, fun heq => hsame heq.symm, q, rfl, ?_⟩)
    dsimp only
    by_cases hwrapped : required size < prefixSize
    · rw [if_pos hwrapped]
      exact .inl ⟨hwrapped, rfl⟩
    rw [if_neg hwrapped]
    -- The block is moved: its neighbours are linked to it again.
    obtain ⟨hlink, hlink'⟩ := h.links hx
    obtain ⟨hnext, hprev, hdata⟩ := writeFence_keeps { x' with size } (required size)
    obtain ⟨s', hrelink, hs'⟩ := relink_chained h (hprev.trans hlink) (hnext.trans hlink')
      (hdata.trans (by rw [PoolPrefix.data, hrefs])) (hmoved q rfl)
    obtain ⟨y, hy, hylabel⟩ := Option.map_eq_some_iff.1 (hs'.data ⟨q, size, b.refs⟩ (by simp))
    rw [hrelink]
    exact .inr ⟨s', y, rfl, hy, congrArg Prod.fst hylabel⟩

/-- `ks_pool_resize`, by the new size. -/
theorem resize_serves_iff {moved : Option ℕ} (h : s.Chained bs) (hfilled : Filled s g)
    (hp : p ∈ s.heap) (hmoved : ∀ q ∈ moved, q = p ∨ q ∉ s.heap) (hsize : size < 2 ^ 64) :
    Ends (· = .assertion) (Serves size) (mapped (s, g) (.op (.resize p size moved))) ↔
      s.Measured (.resize p size moved) := by
  obtain ⟨x, hx⟩ := Finmap.mem_iff.1 hp
  have hrun : mapped (s, g) (.op (.resize p size moved)) = s.resize p size moved >>= fun r =>
      .ok (.block r.1, (r.2, s.asked g (.op (.resize p size moved)))) := by
    rw [mapped, KsPool.act, call]
    cases s.resize p size moved <;> rfl
  have hmeasured : s.Measured (.resize p size moved) ↔ size = 0 ∨ moved = none ∨
      prefixSize + size + fenceSize < 2 ^ 64 ∨
        (x.check = .ok () → x.refs ≤ 1 → x.size = size) := by
    rw [Measured, hx]
    simp
  rw [hrun, hmeasured]
  rcases resize_cases size h hx hmoved with
    ⟨hrefused, hres⟩ | ⟨hcheck, hsame, hres⟩ | ⟨hzero, hcheck, hrefs, hne, q, rfl, hcases⟩
  · rw [hres]
    refine iff_of_true rfl ?_
    rcases hrefused with hzero | hspoiled | hshared | hnone
    · exact .inl hzero
    · exact .inr (.inr (.inr fun hok => absurd hok hspoiled))
    · exact .inr (.inr (.inr fun _ hle => absurd hshared (not_lt.2 hle)))
    · exact .inr (.inl hnone)
  · -- The block stays, and it fills the region it has got before.
    have hasked : s.asked g (.op (.resize p size moved)) = g := by
      cases moved with
      | none => rfl
      | some q => exact if_pos (by rw [hx, Option.map_some, hsame])
    have hroom := hfilled p x hx hcheck
    rw [hres, hasked]
    exact iff_of_true ((serves_iff hx).2 (.of_unwrapped hsame.ge hroom))
      (.inr (.inr (.inr fun _ _ => hsame)))
  · have hmeasured' : (size = 0 ∨ some q = none ∨ prefixSize + size + fenceSize < 2 ^ 64 ∨
        (x.check = .ok () → x.refs ≤ 1 → x.size = size)) ↔
          prefixSize + size + fenceSize < 2 ^ 64 := by
      rw [or_iff_right hzero, or_iff_right (by simp), or_iff_left fun h => hne (h hcheck hrefs)]
    rw [hmeasured']
    obtain ⟨hwrapped, hres⟩ | ⟨s', y, hres, hy, rfl⟩ := hcases
    · rw [hres]
      have hover := (required_lt_iff hsize).1 hwrapped
      exact iff_of_false (fun h => by cases h) (by omega)
    · have hasked : s.asked g (.op (.resize p y.size (some q))) q = required y.size := by
        dsimp only [asked]
        rw [hx, Option.map_some, if_neg fun heq => hne (Option.some.inj heq), Function.update_self]
      rw [hres, ok_bind]
      refine (serves_iff hy).trans ?_
      rw [hasked, roomy_iff hsize]
      exact and_iff_right le_rfl

end Calls

/-! ## Pools in use -/

/-- One call, of those that return a block. -/
theorem mapped_serves_iff {op : Op} {wanted : ℕ} (h : s.Chained bs) (hfilled : Filled s g)
    (hop : Fitting (s, g) (.op op)) (hwanted : op.wanted = some wanted) :
    Ends (· = .assertion) (Serves wanted) (mapped (s, g) (.op op)) ↔ s.Measured op := by
  obtain ⟨hallowed, hwords⟩ := hop
  cases op with
  | alloc size start =>
    cases hwanted
    exact alloc_serves_iff h hallowed hwords
  | calloc n size start =>
    cases hwanted
    exact calloc_serves_iff h hallowed
  | resize p size moved =>
    cases hwanted
    exact resize_serves_iff h hfilled hallowed.1 hallowed.2 hwords
  | ref _ | free _ | clear => cases hwanted

/-- What holds of a pool, and of what the system has been asked for. -/
def Kept (r : Mapped) : Prop := ∃ bs, r.1.Chained bs ∧ Filled r.1 r.2

/-- A new pool has no blocks to fill. -/
theorem rawOpen_kept : Kept (rawOpen, fun _ => 0) :=
  ⟨[], rawOpen_chained, fun q x hx => by
    have hin : q ∈ rawOpen.heap := Finmap.mem_iff.2 ⟨x, hx⟩
    exact absurd ((rawOpen_chained.mem q).1 hin) List.not_mem_nil⟩

/-- A call keeps what is known of the regions. -/
theorem Kept.mapped {r r' : Mapped} {a : Action} {o : Out} (h : Kept r) (ha : Fitting r a)
    (hrun : mapped r a = .ok (o, r')) : Kept r' := by
  obtain ⟨bs, hchained, hfilled⟩ := h
  obtain ⟨⟨o₁, s'⟩, hact, hrun⟩ := bind_eq_ok.1 hrun
  cases hrun
  exact ⟨_, ((act_ends hchained ha.1).ok hact).2, hfilled.act hchained ha hact⟩

/-- Whatever has been called on an opened pool: a call with any sizes is refused, or returns
    a block in a region with room for it, if and only if its size does not wrap, or it is
    refused for another reason. -/
theorem served_iff {as : List Action} (has : Along mapped Fitting (rawOpen, fun _ => 0) as)
    {os : List Out} {r : Mapped} (hrun : calls mapped (rawOpen, fun _ => 0) as = .ok (os, r))
    {op : Op} (hop : Fitting r (.op op)) {wanted : ℕ} (hwanted : op.wanted = some wanted) :
    Ends (· = .assertion) (Serves wanted) (mapped r (.op op)) ↔ r.1.Measured op := by
  have hkept : Always mapped Kept (rawOpen, fun _ => 0) as :=
    always_of_good (fun _ => id) (fun _ _ _ _ hs ha hstep => hs.mapped ha hstep) rawOpen_kept has
  obtain ⟨bs, hchained, hfilled⟩ := hkept.last hrun
  exact mapped_serves_iff hchained hfilled hop hwanted

/-- A block is resized, and stays where it is when it is resized to the size it has. -/
theorem served_iff_resized :
    ∃ os r, calls mapped (rawOpen, fun _ => 0) [.op (.alloc 8 (some 1)),
        .op (.resize 1 16 (some 200))] = .ok (os, r) ∧
      (Ends (· = .assertion) (Serves 16) (mapped r (.op (.resize 200 16 none))) ↔
        r.1.Measured (.resize 200 16 none)) := by
  have has : Along mapped Fitting (rawOpen, fun _ => 0) [.op (.alloc 8 (some 1)),
      .op (.resize 1 16 (some 200))] := by decide +kernel
  have hrun : okAnd (fun r => decide (Fitting r.2 (.op (.resize 200 16 none))))
      (calls mapped (rawOpen, fun _ => 0) [.op (.alloc 8 (some 1)),
        .op (.resize 1 16 (some 200))]) = true := by decide +kernel
  obtain ⟨⟨os, r⟩, hcalls, hop⟩ := okAnd_iff.1 hrun
  exact ⟨os, r, hcalls, served_iff has hcalls (of_decide_eq_true hop) rfl⟩

/-- A product that wraps to two, and a sum that wraps to nothing. -/
theorem not_served :
    ¬Ends (· = .assertion) (Serves ((2 ^ 63 + 1) * 2))
      (mapped (rawOpen, fun _ => 0) (.op (.calloc (2 ^ 63 + 1) 2 (some 1)))) ∧
    ¬Ends (· = .assertion) (Serves (2 ^ 64 - 98))
      (mapped (rawOpen, fun _ => 0) (.op (.alloc (2 ^ 64 - 98) (some 1)))) := by
  obtain ⟨bs, hchained, hfilled⟩ := rawOpen_kept
  rw [mapped_serves_iff hchained hfilled (by decide +kernel) rfl,
    mapped_serves_iff hchained hfilled (by decide +kernel) rfl, Measured, Measured]
  decide +kernel

end KsPool

end Libks
