import Libks.Base.Heap
import Libks.Base.Word
import Libks.Fault
import Libks.Status

/-!
# Memory pools

The functions of a `ks_pool_t`, on the heap of its blocks. Every block starts with
a prefix, and the prefixes are doubly linked, the newest first; a block is named
by the address of its prefix. What `malloc` and `realloc` return is up to the
system, and comes with every call.

A cleanup callback is a function of the program, of which no more is known than
that it is called, and that it does not call the pool. What the pool has done
to its blocks is written down in `log`. The bytes behind a prefix are its
user's, who is trusted not to write beyond them: the fence is found as it was
written.
-/

namespace Libks

open Base

/-- `KS_POOL_MAGIC`. -/
def poolMagic : ℕ := 0xDEADBEEF

/-- `KS_POOL_PREFIX_MAGIC`. -/
def prefixMagic : ℕ := 0xDEADBEEF

/-- `KS_POOL_PREFIX_SIZE`: twelve words. -/
def prefixSize : ℕ := 96

/-- `KS_POOL_FENCE_SIZE`. -/
def fenceSize : ℕ := 2

/-- `KS_POOL_FENCE_MAGIC0` and `KS_POOL_FENCE_MAGIC1`. -/
def fenceMagic : List UInt8 := [0xFA, 0xD3]

/-- The actions of a cleanup: `KS_MPCL_ANNOUNCE`, `KS_MPCL_TEARDOWN` and
    `KS_MPCL_DESTROY`. -/
inductive CleanupAction
  | announce
  | teardown
  | destroy
  deriving DecidableEq, Repr

/-- The types of a cleanup: `KS_MPCL_FREE` and `KS_MPCL_GLOBAL_FREE`. -/
inductive CleanupType
  | free
  | globalFree
  deriving DecidableEq, Repr

/-- What a pool does to a block: the call of a callback, with its argument, or the
    release of the memory. -/
inductive PoolEvent
  | cleanup (p fn arg : ℕ) (action : CleanupAction) (type : CleanupType)
  | release (p : ℕ)
  deriving DecidableEq, Repr

/-- `struct ks_pool_prefix_s`. -/
structure PoolPrefix where
  magic1 : ℕ := prefixMagic
  size : ℕ
  magic2 : ℕ := prefixMagic
  refs : ℕ
  prev : Option ℕ := none
  next : Option ℕ := none
  magic3 : ℕ := prefixMagic
  cleanupArg : ℕ := 0
  cleanupCallback : Option ℕ := none
  magic4 : ℕ := prefixMagic
  magic5 : ℕ := prefixMagic

/-- `CHECK_PREFIX`. -/
def PoolPrefix.check (x : PoolPrefix) : Except Fault Unit :=
  if x.magic1 = prefixMagic ∧ x.magic2 = prefixMagic ∧ x.magic3 = prefixMagic ∧
    x.magic4 = prefixMagic ∧ x.magic5 = prefixMagic then .ok () else .error .assertion

/-- `write_fence` behind the bytes of a block of `required` bytes in all. -/
def PoolPrefix.writeFence (x : PoolPrefix) (required : ℕ) : PoolPrefix :=
  if prefixSize + fenceSize ≤ required then x
  else
    -- A size that has wrapped puts the fence on the last bytes of the prefix.
    let kept := required + 6 - prefixSize
    { x with magic5 := ofLe ((leBytes 8 x.magic5).take kept ++ fenceMagic.take (8 - kept)) }

/-- The call of the callback of the block at `p`, if it has one. -/
def PoolPrefix.callback (type : CleanupType) (action : CleanupAction) (p : ℕ) (x : PoolPrefix) :
    List PoolEvent :=
  match x.cleanupCallback with
  | none => []
  | some fn => [.cleanup p fn x.cleanupArg action type]

/-- `struct ks_pool_s`, with the heap of its blocks, and what has been done to them. -/
structure KsPool where
  magic1 : ℕ := poolMagic
  allocC : ℕ := 0
  userAlloc : ℕ := 0
  maxAlloc : ℕ := 0
  first : Option ℕ := none
  last : Option ℕ := none
  cleaningUp : Bool := false
  magic2 : ℕ := poolMagic
  heap : Heap PoolPrefix := ∅
  log : List PoolEvent := []

namespace KsPool

/-- `ks_pool_raw_open`. -/
def rawOpen : KsPool := {}

/-- `check_pool`, where it is asserted. -/
def check (s : KsPool) : Except Fault Unit :=
  if s.magic1 = poolMagic ∧ s.magic2 = poolMagic then .ok () else .error .assertion

/-- The size of a block with its prefix and its fence. -/
def required (size : ℕ) : ℕ := add64 (add64 prefixSize size) fenceSize

/-- `alloc_mem`, with what `malloc` returns. -/
def allocMem (s : KsPool) (size : ℕ) (start : Option ℕ) : Except Fault (ℕ × KsPool) :=
  match start with
  | none => .error .assertion
  | some p =>
    if size = 0 then .error .assertion
    -- A size that has wrapped leaves no room for the prefix.
    else if required size < prefixSize then .error .overflow
    else do
      let x : PoolPrefix := { size, refs := 1, next := s.first }
      let heap : Heap PoolPrefix := s.heap.insert p (x.writeFence (required size))
      let heap ← heap.updateAt .outOfBounds s.first fun y => { y with prev := some p }
      let userAlloc := add64 s.userAlloc size
      return (p, { s with
        heap
        first := some p
        last := s.last.or (some p)
        allocC := add64 s.allocC 1
        userAlloc
        maxAlloc := max s.maxAlloc userAlloc })

/-- The part of `free_mem` that takes the prefix `x` off the list. -/
def unlink (s : KsPool) (x : PoolPrefix) : Except Fault KsPool :=
  match x.prev, x.next with
  | none, none => .ok { s with first := none, last := none }
  | none, some q => do
    let heap ← s.heap.update .outOfBounds q fun y => { y with prev := none }
    return { s with first := some q, heap }
  | some p, none => do
    let heap ← s.heap.update .outOfBounds p fun y => { y with next := none }
    return { s with last := some p, heap }
  | some p, some q => do
    let heap ← s.heap.update .outOfBounds p fun y => { y with next := some q }
    let heap ← heap.update .outOfBounds q fun y => { y with prev := some p }
    return { s with heap }

/-- `perform_pool_cleanup_on_free`, of the block at `p` with the prefix `x`. -/
def performPoolCleanupOnFree (s : KsPool) (p : ℕ) (x : PoolPrefix) : List PoolEvent :=
  if s.cleaningUp then []
  else
    x.callback .free .announce p ++ x.callback .free .teardown p ++ x.callback .free .destroy p

/-- `free_mem`. -/
def freeMem (s : KsPool) (p : ℕ) : Except Fault (Status × KsPool) := do
  let x ← s.heap.load .outOfBounds p
  x.check
  let refs := x.refs - 1
  let heap ← s.heap.update .outOfBounds p fun y => { y with refs }
  if 0 < refs then return (.refsExist, { s with heap })
  else
    let log := s.log ++ s.performPoolCleanupOnFree p x
    let s ← { s with heap, log }.unlink x
    return (.success, { s with
      allocC := sub64 s.allocC 1
      userAlloc := sub64 s.userAlloc x.size
      heap := s.heap.erase p
      log := s.log ++ [.release p] })

/-- `ks_pool_alloc_ex`. -/
def alloc (s : KsPool) (size : ℕ) (start : Option ℕ) : Except Fault (ℕ × KsPool) := do
  if size = 0 then .error .assertion
  else
    s.check
    let (p, s) ← s.allocMem size start
    let x ← s.heap.load .outOfBounds p
    x.check
    return (p, s)

/-- `ks_pool_calloc_ex`. It does not check the prefix. -/
def calloc (s : KsPool) (n size : ℕ) (start : Option ℕ) : Except Fault (ℕ × KsPool) := do
  if n = 0 ∨ size = 0 then .error .assertion
  else
    s.check
    s.allocMem (mul64 n size) start

/-- `ks_pool_free_ex`. -/
def free (s : KsPool) : Option ℕ → Except Fault (Status × KsPool)
  | none => .ok (.success, s)
  | some p => do
    let x ← s.heap.load .outOfBounds p
    x.check
    s.check
    s.freeMem p

/-- `ks_pool_ref_ex`. -/
def ref (s : KsPool) (p : ℕ) : Except Fault (ℕ × KsPool) := do
  let x ← s.heap.load .outOfBounds p
  x.check
  s.check
  let heap ← s.heap.update .outOfBounds p fun y => { y with refs := add64 y.refs 1 }
  return (p, { s with heap })

/-- The part of `ks_pool_resize_ex` behind `realloc`, which has moved the block to
    `q`: the neighbours of its prefix `x`, or the ends of the list, are led there. -/
def relink (s : KsPool) (x : PoolPrefix) (q : ℕ) : Except Fault KsPool := do
  let heap ← s.heap.updateAt .outOfBounds x.prev fun y => { y with next := some q }
  let heap ← heap.updateAt .outOfBounds x.next fun y => { y with prev := some q }
  return { s with
    heap
    first := if x.prev = none then some q else s.first
    last := if x.next = none then some q else s.last }

/-- `ks_pool_resize_ex`, with what `realloc` returns. A block that is shared is
    not resized: the result is asserted. A pool that fails `check_pool`, which the
    other functions assert, makes the source return a null pointer here; no pool
    does, as nothing writes to the magic numbers behind `ks_pool_raw_open`. -/
def resize (s : KsPool) (p size : ℕ) (moved : Option ℕ) : Except Fault (ℕ × KsPool) := do
  if size = 0 then .error .assertion
  else
    let x ← s.heap.load .outOfBounds p
    x.check
    s.check
    if 1 < x.refs then .error .assertion
    else if size = x.size then return (p, s)
    else
      match moved with
      | none => .error .assertion
      | some q =>
        if required size < prefixSize then .error .overflow
        else
          let x := { x with size }.writeFence (required size)
          let s ← { s with heap := (s.heap.erase p).insert q x }.relink x q
          return (q, s)

/-- `perform_pool_cleanup`: three walks along the list, one for each action. -/
def performPoolCleanup (s : KsPool) : Except Fault KsPool := do
  if s.cleaningUp then return s
  else
    let walk := fun action => s.heap.visit .outOfBounds .outOfFuel PoolPrefix.next
      (PoolPrefix.callback .globalFree action) s.heap.keys.card s.first
    let announced ← walk .announce
    let tornDown ← walk .teardown
    let destroyed ← walk .destroy
    return { s with cleaningUp := true, log := s.log ++ announced ++ tornDown ++ destroyed }

/-- `ks_pool_clear`. -/
def clear (s : KsPool) : Except Fault KsPool := do
  s.check
  let s ← s.performPoolCleanup
  let (freed, heap) ←
    Heap.freeAll .outOfBounds .outOfFuel PoolPrefix.next s.heap.keys.card s.heap s.first
  return { s with heap, first := none, last := none, log := s.log ++ freed.map .release }

/-- `ks_pool_raw_close`, up to the release of the pool itself. -/
def rawClose (s : KsPool) : Except Fault KsPool := s.clear

/-- `ks_pool_set_cleanup`. -/
def setCleanup (s : KsPool) (p arg : ℕ) (callback : Option ℕ) : Except Fault (Status × KsPool) :=
  match callback with
  | none => .error .assertion
  | some fn => do
    let x ← s.heap.load .outOfBounds p
    x.check
    let heap ← s.heap.update .outOfBounds p fun y =>
      { y with cleanupArg := arg, cleanupCallback := some fn }
    return (.success, { s with heap })

/-- `ks_pool_remove_cleanup`. -/
def removeCleanup (s : KsPool) (p : ℕ) : Except Fault (Status × KsPool) := do
  let x ← s.heap.load .outOfBounds p
  x.check
  let heap ← s.heap.update .outOfBounds p fun y =>
    { y with cleanupArg := 0, cleanupCallback := none }
  return (.success, { s with heap })

/-! ## Calls in a row -/

/-- A call of one of the functions, with what the system returns to it. -/
inductive Op
  | alloc (size : ℕ) (start : Option ℕ)
  | calloc (n size : ℕ) (start : Option ℕ)
  | ref (p : ℕ)
  | free (p : Option ℕ)
  | resize (p size : ℕ) (moved : Option ℕ)
  | clear

/-- What a call gives: a block, or a result. -/
inductive Out
  | block (p : ℕ)
  | status (r : Status)

/-- The call `op`. -/
def call (s : KsPool) : Op → Except Fault (Out × KsPool)
  | .alloc size start => do
    let (p, s) ← s.alloc size start
    return (.block p, s)
  | .calloc n size start => do
    let (p, s) ← s.calloc n size start
    return (.block p, s)
  | .ref p => do
    let (p, s) ← s.ref p
    return (.block p, s)
  | .free p => do
    let (r, s) ← s.free p
    return (.status r, s)
  | .resize p size moved => do
    let (p, s) ← s.resize p size moved
    return (.block p, s)
  | .clear => do
    let s ← s.clear
    return (.status .success, s)

/-- The call is made on blocks that are there, and the system returns no block
    that is in use, but that a block may grow where it is. -/
def Allowed (s : KsPool) : Op → Prop
  | .alloc _ start | .calloc _ _ start => ∀ p ∈ start, p ∉ s.heap
  | .ref p => p ∈ s.heap
  | .free p => s.heap.Valid p
  | .resize p _ moved => p ∈ s.heap ∧ ∀ q ∈ moved, q = p ∨ q ∉ s.heap
  | .clear => True

instance (s : KsPool) : DecidablePred s.Allowed
  | .alloc _ _ | .calloc _ _ _ => inferInstanceAs (Decidable (∀ _ ∈ _, _ ∉ _))
  | .ref _ => inferInstanceAs (Decidable (_ ∈ _))
  | .free _ => inferInstanceAs (Decidable (∀ _ ∈ _, _ ∈ _))
  | .resize _ _ _ => inferInstanceAs (Decidable (_ ∧ _))
  | .clear => .isTrue trivial

end KsPool

end Libks
