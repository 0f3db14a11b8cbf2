import Libks.Base.Heap
import Libks.Fault
import Libks.Hash.State

/-!
# Hash tables in memory

The chains of a `ks_hash_t` are linked: every entry is a node at an address of its own,
with the address of the next one, and the table has those of the first ones. A removal
relinks a chain and frees a node; an iterator is a position in the table and the address
of a node, which it reads when it is asked to go on.
-/

namespace Libks

open Base

/-- `struct entry`. -/
structure HashNode (κ ν : Type) where
  entry : HashEntry κ ν
  next : Option ℕ

/-- `struct ks_hash` as the iterator and a removal see it, with the heap of its entries. -/
structure HashNodes (κ ν : Type) where
  heap : Heap (HashNode κ ν)
  tablelength : ℕ
  table : ℕ → Option ℕ
  entrycount : ℕ
  keys : HashKeys κ
  destructor : Bool
  disposals : List (Disposal κ ν) := []

/-- `struct ks_hash_iterator`. -/
structure HashIterator where
  pos : ℕ
  e : Option ℕ
  deriving DecidableEq, Repr

namespace HashNodes

variable {κ ν : Type}

/-! ## The iterator -/

/-- The position of the first chain that is not empty, from `pos` on. -/
def seek (s : HashNodes κ ν) (pos : ℕ) : ℕ :=
  if pos < s.tablelength ∧ s.table pos = none then s.seek (pos + 1) else pos
termination_by s.tablelength - pos

/-- The end of `ks_hash_next`: at the end of the table the iterator is freed. -/
def enter (s : HashNodes κ ν) (pos : ℕ) : Option HashIterator :=
  let pos := s.seek pos
  if s.tablelength ≤ pos then none
  else if s.table pos = none then none
  else some { pos, e := s.table pos }

/-- `ks_hash_next`. -/
def next (s : HashNodes κ ν) (i : HashIterator) : Except Fault (Option HashIterator) :=
  match i.e with
  | none => .ok (s.enter i.pos)
  | some p => do
    let n ← s.heap.load .outOfBounds p
    match n.next with
    | some q => return some { i with e := some q }
    | none => return s.enter (i.pos + 1)

/-- `ks_hash_first`. -/
def first (s : HashNodes κ ν) : Except Fault (Option HashIterator) := s.next { pos := 0, e := none }

/-- `ks_hash_this`, as far as the key goes. -/
def thisKey (s : HashNodes κ ν) (i : HashIterator) : Except Fault (Option κ) :=
  match i.e with
  | none => .ok none
  | some p => do
    let n ← s.heap.load .outOfBounds p
    return some n.entry.k

/-! ## A removal -/

/-- The loop of `_ks_hash_remove`: the node that is looked for, and the one whose link leads
    to it, unless that is the table's. -/
def find (p : HashEntry κ ν → Bool) (heap : Heap (HashNode κ ν)) :
    ℕ → Option ℕ → Option ℕ → Except Fault (Option (Option ℕ × ℕ × HashNode κ ν))
  | _, _, none => .ok none
  | 0, _, some _ => .error .outOfFuel
  | fuel + 1, pE, some e => do
    let n ← heap.load .outOfBounds e
    if p n.entry then return some (pE, e, n) else find p heap fuel (some e) n.next

/-- `*pE = e->next`. -/
def relink (s : HashNodes κ ν) (index : ℕ) (pE : Option ℕ) (next : Option ℕ) :
    Except Fault (HashNodes κ ν) :=
  match pE with
  | none => .ok { s with table := Function.update s.table index next }
  | some q => do
    let heap ← s.heap.update .outOfBounds q fun n => { n with next }
    return { s with heap }

/-- `_ks_hash_remove`. -/
def removeAt (s : HashNodes κ ν) (k : κ) (hashvalue : UInt32) (index : ℕ) :
    Except Fault (Option ν × HashNodes κ ν) := do
  let found ← find (HashEntry.hits s.keys k hashvalue) s.heap s.heap.keys.card none (s.table index)
  match found with
  | none => return (none, s)
  | some (pE, e, n) =>
    let s ← s.relink index pE n.next
    let (v, ds) := n.entry.dispose s.destructor
    return (v, { s with
      entrycount := decr32 s.entrycount
      disposals := s.disposals ++ ds
      heap := s.heap.erase e })

/-- `ks_hash_remove`. -/
def remove (s : HashNodes κ ν) (k : κ) : Except Fault (Option ν × HashNodes κ ν) :=
  s.removeAt k (s.keys.hash k) (indexFor s.tablelength (s.keys.hash k))

/-! ## Loops over a table -/

/-- `for (i = ks_hash_first (h); i; i = ks_hash_next (&i))`: the nodes that are visited. -/
def walk (s : HashNodes κ ν) : ℕ → Option HashIterator → Except Fault (List (Option ℕ))
  | _, none => .ok []
  | 0, some _ => .error .outOfFuel
  | fuel + 1, some i => do
    let next ← s.next i
    let visited ← s.walk fuel next
    return i.e :: visited

/-- The removal of the key that `ks_hash_this` has given. -/
def removeThis (s : HashNodes κ ν) : Option κ → Except Fault (HashNodes κ ν)
  | none => .ok s
  | some k => do
    let (_, s) ← s.remove k
    return s

/-- The loop that removes every entry by its key when it has gone on behind it: the nodes
    that are visited, and the table behind the loop. -/
def drain : ℕ → HashNodes κ ν → Option HashIterator →
    Except Fault (List (Option ℕ) × HashNodes κ ν)
  | _, s, none => .ok ([], s)
  | 0, _, some _ => .error .outOfFuel
  | fuel + 1, s, some i => do
    let key ← s.thisKey i
    let next ← s.next i
    let s ← s.removeThis key
    let (visited, s) ← drain fuel s next
    return (i.e :: visited, s)

end HashNodes

end Libks
