import Libks.Base.Heap
import Libks.Base.Rounding
import Libks.Base.Word
import Libks.Fault

/-!
# Lists of pointers

A `ks_list_t` is a doubly linked list between two sentinels, with a pointer to the entry
in the middle, from which a position in the second or the third quarter is reached. Up to
five entries that are not in use are kept. While an iteration is active, no entry may be
put in, and none taken out but by `ks_list_delete_iterator`.

Every function that changes the list ends with the assertion of `ks_list_repOk`. The lock
of the list is left out, and so are lists that copy their elements: a list of pointers is
all that is kept.
-/

namespace Libks

open Base

/-- `struct ks_list_entry_s`. A pointer to data is a number, the null pointer `0`. -/
structure ListEntry where
  data : ℕ := 0
  next : Option ℕ := none
  prev : Option ℕ := none

/-- `SIMCLIST_MAX_SPARE_ELEMS`. -/
def maxSpareElems : ℕ := 5

/-- `ks_list_t`, with the heap of its entries. -/
structure KsList where
  headSentinel : ℕ
  tailSentinel : ℕ
  mid : Option ℕ := none
  numels : ℕ := 0
  spareels : List ℕ := []
  iterActive : Bool := false
  iterPos : ℕ := 0
  iterCurentry : Option ℕ := none
  comparator : Option (ℕ → ℕ → ℤ) := none
  seeker : Option (ℕ → ℕ → ℤ) := none
  heap : Heap ListEntry

namespace KsList

/-- The entry that a pointer leads to. -/
def entry (l : KsList) : Option ℕ → Except Fault ListEntry
  | none => .error .outOfBounds
  | some p => l.heap.load .outOfBounds p

/-- A change of the entry that a pointer leads to. -/
def modify (l : KsList) (o : Option ℕ) (f : ListEntry → ListEntry) : Except Fault KsList :=
  match o with
  | none => .error .outOfBounds
  | some p => do
    let heap ← l.heap.update .outOfBounds p f
    return { l with heap }

/-- More steps than a walk through the entries takes. -/
def fuel (l : KsList) : ℕ := l.heap.keys.card + 1

/-! ## The representation -/

/-- The loops of `ks_list_repOk`: from the entry `s` at the position `i` on, up to the
    position `limit` if there is one, while the links fit. -/
def repLoop (l : KsList) (limit : Option ℤ) : ℕ → ℤ → ℕ → Except Fault (ℤ × ℕ)
  | 0, _, _ => .error .outOfFuel
  | fuel + 1, i, s =>
    if limit.any (· ≤ i) then .ok (i, s)
    else do
      let n ← l.entry (some s)
      match n.next with
      | none => return (i, s)
      | some p => do
        let n ← l.entry (some p)
        if n.prev ≠ some s then return (i, s)
        else l.repLoop limit fuel (i + 1) p

/-- `ks_list_repOk`. -/
def repOk (l : KsList) : Except Fault Bool := do
  let hd ← l.entry (some l.headSentinel)
  let tl ← l.entry (some l.tailSentinel)
  if ¬(l.headSentinel ≠ l.tailSentinel ∧ hd.prev = none ∧ tl.next = none ∧
      (0 < l.numels ∨ (l.mid = none ∧ hd.next = some l.tailSentinel ∧
        tl.prev = some l.headSentinel)) ∧
      l.spareels.length ≤ maxSpareElems) then return false
  else if l.numels = 0 then return true
  else do
    let half := (toInt32 (sub32 l.numels 1)).tdiv 2
    let (i, s) ← l.repLoop (some half) l.fuel (-1) l.headSentinel
    if ¬(i = half ∧ l.mid = some s) then return false
    else do
      let (i, s) ← l.repLoop none l.fuel i s
      return (i = toInt32 l.numels ∧ s = l.tailSentinel)

/-- The assertion at the end of a function. -/
def checked (l : KsList) : Except Fault KsList := do
  if ← l.repOk then return l else .error .assertion

/-! ## Positions -/

/-- Where `ks_list_findpos` sets out from. -/
inductive Quarter
  | first
  | second
  | third
  | fourth
  deriving DecidableEq

/-- The quarter of the list that a position is in, by the quotient `x` of `posstart + 1` and
    the length, both as `float`. In an empty list `x` is no number, or infinite, and no
    comparison with it holds. -/
def quarter (posstart : ℤ) (numels : ℕ) : Quarter :=
  if numels = 0 then .fourth
  else
    let x := quotSingle (posstart + 1).toNat numels
    if x ≤ 2 ^ 147 then .first
    else if x < 2 ^ 148 then .second
    else if x ≤ 3 * 2 ^ 147 then .third
    else .fourth

/-- `ks_list_findpos`. -/
def findpos (l : KsList) (posstart : ℤ) : Except Fault (Option ℕ) :=
  if posstart < -1 ∨ toInt32 l.numels < posstart then .ok none
  else
    let half : ℤ := toInt32 (sub32 l.numels 1 / 2 : ℕ)
    match quarter posstart l.numels with
    | .first => l.heap.walk .outOfBounds ListEntry.next (posstart + 1).toNat (some l.headSentinel)
    | .second => l.heap.walk .outOfBounds ListEntry.prev (half - posstart).toNat l.mid
    | .third => l.heap.walk .outOfBounds ListEntry.next (posstart - half).toNat l.mid
    | .fourth =>
      l.heap.walk .outOfBounds ListEntry.prev (toInt32 l.numels - posstart).toNat
        (some l.tailSentinel)

/-- `ks_list_get_at`. -/
def getAt (l : KsList) (pos : ℕ) : Except Fault ℕ := do
  match ← l.findpos (toInt32 pos) with
  | none => return 0
  | some p => do
    let n ← l.entry (some p)
    return n.data

/-! ## Entries put in and taken out -/

/-- `ks_list_create`: the sentinels are at the addresses `hd` and `tl`. -/
def create (hd tl : ℕ) : Except Fault KsList :=
  { headSentinel := hd, tailSentinel := tl,
    heap := ((∅ : Heap ListEntry).insert tl { prev := some hd }).insert hd { next := some tl } :
    KsList }.checked

/-- The entry for a new element: a spare one, or else one from the pool, which gives
    `start`. -/
def newEntry (l : KsList) (start : ℕ) : ℕ × KsList :=
  match l.spareels.getLast? with
  | some p => (p, { l with spareels := l.spareels.dropLast })
  | none => (start, { l with heap := l.heap.insert start {} })

/-- `ks_pool_free` of an entry. -/
def free (l : KsList) : Option ℕ → Except Fault KsList
  | none => .error .outOfBounds
  | some p =>
    if p ∈ l.heap then .ok { l with heap := l.heap.erase p } else .error .outOfBounds

/-- An entry is kept as a spare one. -/
def spare (l : KsList) : Option ℕ → Except Fault KsList
  | none => .error .outOfBounds
  | some p => .ok { l with spareels := l.spareels ++ [p] }

/-- What becomes of an entry that is taken out. -/
def retire (l : KsList) (o : Option ℕ) : Except Fault KsList :=
  if l.spareels.length < maxSpareElems then l.spare o else l.free o

/-- How `ks_list_insert_at` moves the middle, once there are `numels` entries. -/
def midInserted (l : KsList) (lent numels pos : ℕ) : Except Fault (Option ℕ) :=
  if numels = 1 then .ok (some lent)
  else if numels % 2 = 1 then
    if sub32 numels 1 / 2 ≤ pos then ListEntry.next <$> l.entry l.mid else .ok l.mid
  else
    if pos ≤ sub32 numels 1 / 2 then ListEntry.prev <$> l.entry l.mid else .ok l.mid

/-- `ks_list_insert_at`: the result, and the list. -/
def insertAt (l : KsList) (data pos start : ℕ) : Except Fault (ℤ × KsList) :=
  if l.iterActive ∨ l.numels < pos then .ok (-1, l)
  else do
    let (lent, l) := l.newEntry start
    let l ← l.modify (some lent) fun n => { n with data }
    let prec ← l.findpos (toInt32 (sub32 pos 1))
    let succ := (← l.entry prec).next
    let l ← l.modify prec fun n => { n with next := some lent }
    let l ← l.modify (some lent) fun n => { n with prev := prec }
    let l ← l.modify (some lent) fun n => { n with next := succ }
    let l ← l.modify succ fun n => { n with prev := some lent }
    let numels := incr32 l.numels
    let mid ← l.midInserted lent numels pos
    let l ← { l with numels, mid }.checked
    return (1, l)

/-- `ks_list_append`. -/
def append (l : KsList) (data start : ℕ) : Except Fault (ℤ × KsList) :=
  l.insertAt data l.numels start

/-- `ks_list_prepend`. -/
def prepend (l : KsList) (data start : ℕ) : Except Fault (ℤ × KsList) := l.insertAt data 0 start

/-- How `ks_list_drop_elem` moves the middle. -/
def midDropped (l : KsList) (pos : ℕ) : Except Fault (Option ℕ) :=
  if l.numels % 2 = 1 then
    if l.numels = 1 then .ok none
    else if l.numels / 2 ≤ pos then ListEntry.prev <$> l.entry l.mid else .ok l.mid
  else
    if pos < l.numels / 2 then ListEntry.next <$> l.entry l.mid else .ok l.mid

/-- `ks_list_drop_elem`. -/
def dropElem (l : KsList) (tmp : Option ℕ) (pos : ℕ) : Except Fault KsList :=
  if tmp = none then .ok l
  else do
    let mid ← l.midDropped pos
    let n ← l.entry tmp
    let l ← { l with mid }.modify n.prev fun m => { m with next := n.next }
    let n ← l.entry tmp
    let l ← l.modify n.next fun m => { m with prev := n.prev }
    l.retire tmp

/-- `ks_list_extract_at`: the data, and the list. -/
def extractAt (l : KsList) (pos : ℕ) : Except Fault (ℕ × KsList) :=
  if l.iterActive ∨ l.numels ≤ pos then .ok (0, l)
  else do
    let tmp ← l.findpos (toInt32 pos)
    let data := (← l.entry tmp).data
    let l ← l.modify tmp fun n => { n with data := 0 }
    let l ← l.dropElem tmp pos
    let l ← { l with numels := decr32 l.numels }.checked
    return (data, l)

/-- `ks_list_fetch`. -/
def fetch (l : KsList) : Except Fault (ℕ × KsList) := l.extractAt 0

/-- `ks_list_delete_at`. -/
def deleteAt (l : KsList) (pos : ℕ) : Except Fault (ℤ × KsList) :=
  if l.iterActive ∨ l.numels ≤ pos then .ok (-1, l)
  else do
    let delendo ← l.findpos (toInt32 pos)
    let l ← l.dropElem delendo pos
    let l ← { l with numels := decr32 l.numels }.checked
    return (0, l)

/-- The loop of `ks_list_delete_range` that takes out `k` entries, from `tmp` on: the entry
    behind them, and the list. -/
def retireFrom (l : KsList) : ℕ → Option ℕ → Except Fault (Option ℕ × KsList)
  | 0, tmp => .ok (tmp, l)
  | k + 1, tmp => do
    let n ← l.entry tmp
    let l ← l.retire tmp
    l.retireFrom k n.next

/-- The first loop of `ks_list_clear`: entries are kept as spare ones, while there is room. -/
def spareFrom (l : KsList) : ℕ → Option ℕ → Except Fault (Option ℕ × KsList)
  | 0, _ => .error .outOfFuel
  | fuel + 1, s =>
    if l.spareels.length < maxSpareElems ∧ s ≠ some l.tailSentinel then do
      let n ← l.entry s
      let l ← l.spare s
      l.spareFrom fuel n.next
    else .ok (s, l)

/-- Its second loop: the entry behind an entry frees it, through its own link back. -/
def freeFrom (l : KsList) : ℕ → Option ℕ → Except Fault KsList
  | 0, _ => .error .outOfFuel
  | fuel + 1, s =>
    if s ≠ some l.tailSentinel then do
      let s := (← l.entry s).next
      let prev := (← l.entry s).prev
      let l ← l.free prev
      let l ← l.modify s fun n => { n with prev := none }
      l.freeFrom fuel s
    else .ok l

/-- `ks_list_clear`. -/
def clear (l : KsList) : Except Fault (ℤ × KsList) := do
  if l.iterActive then
    let l ← l.checked
    return (-1, l)
  else
    let numels := toInt32 l.numels
    let hd ← l.entry (some l.headSentinel)
    let (s, l) ← l.spareFrom l.fuel hd.next
    let l ← l.freeFrom l.fuel s
    let l ← l.modify (some l.headSentinel) fun n => { n with next := some l.tailSentinel }
    let l ← l.modify (some l.tailSentinel) fun n => { n with prev := some l.headSentinel }
    let l ← { l with numels := 0, mid := none }.checked
    return (numels, l)

/-- How `ks_list_delete_range` moves the middle, by `movedx` entries. -/
def midMoved (l : KsList) (movedx : ℤ) : Except Fault (Option ℕ) :=
  if 0 < movedx then l.heap.walk .outOfBounds ListEntry.next movedx.toNat l.mid
  else l.heap.walk .outOfBounds ListEntry.prev (-movedx).toNat l.mid

/-- `ks_list_delete_range`. -/
def deleteRange (l : KsList) (posstart posend : ℕ) : Except Fault (ℤ × KsList) :=
  if l.iterActive ∨ posend < posstart ∨ l.numels ≤ posend then .ok (-1, l)
  else
    let numdel := posend - posstart + 1
    if numdel = l.numels then l.clear
    else do
      let tmp ← l.findpos (toInt32 posstart)
      let lastvalid := (← l.entry tmp).prev
      let midposafter := (l.numels - 1 - numdel) / 2
      let midposafter := if midposafter < posstart then midposafter else midposafter + numdel
      let movedx := toInt32 (sub32 midposafter ((l.numels - 1) / 2))
      let mid ← l.midMoved movedx
      if ¬(posstart = 0 ∨ lastvalid ≠ some l.headSentinel) then .error .assertion
      else do
        let (tmp, l) ← { l with mid }.retireFrom numdel tmp
        let l ← l.modify lastvalid fun n => { n with next := tmp }
        let l ← l.modify tmp fun n => { n with prev := lastvalid }
        let l ← { l with numels := sub32 l.numels numdel }.checked
        return (numdel, l)

/-! ## Searches -/

/-- The loops of `ks_list_locate` and `ks_list_seek`, from the entry `el` at the position
    `pos` on: the position and the data of the first entry whose data is wanted. -/
def search (l : KsList) (wanted : ℕ → Bool) : ℕ → Option ℕ → ℤ → Except Fault (Option (ℤ × ℕ))
  | 0, _, _ => .error .outOfFuel
  | fuel + 1, el, pos =>
    if el = some l.tailSentinel then .ok none
    else do
      let n ← l.entry el
      if wanted n.data then return some (pos, n.data)
      else l.search wanted fuel n.next (pos + 1)

/-- What `ks_list_locate` looks for: an element that the comparator finds equal, or else the
    pointer itself. -/
def sought (l : KsList) (data d : ℕ) : Bool :=
  match l.comparator with
  | some cmp => cmp data d = 0
  | none => d = data

/-- `ks_list_locate`. -/
def locate (l : KsList) (data : ℕ) : Except Fault ℤ := do
  let hd ← l.entry (some l.headSentinel)
  let found ← l.search (l.sought data) l.fuel hd.next 0
  return (found.map Prod.fst).getD (-1)

/-- `ks_list_contains`. -/
def contains (l : KsList) (data : ℕ) : Except Fault Bool := do
  let pos ← l.locate data
  return 0 ≤ pos

/-- `ks_list_seek`. -/
def seek (l : KsList) (indicator : ℕ) : Except Fault ℕ :=
  match l.seeker with
  | none => .ok 0
  | some seeker => do
    let hd ← l.entry (some l.headSentinel)
    let found ← l.search (fun d => seeker d indicator ≠ 0) l.fuel hd.next 0
    return (found.map Prod.snd).getD 0

/-- A result of the comparator, times `versus`. -/
def scaled (cmp : ℕ → ℕ → ℤ) (versus : ℤ) (a b : ℕ) : ℤ := mulInt32 (cmp a b) versus

/-- The loop of `ks_list_get_minmax`, from the entry `s` on. -/
def minmaxLoop (l : KsList) (cmp : ℕ → ℕ → ℤ) (versus : ℤ) :
    ℕ → Option ℕ → ℕ → Except Fault ℕ
  | 0, _, _ => .error .outOfFuel
  | fuel + 1, s, curminmax =>
    if s = some l.tailSentinel then .ok curminmax
    else do
      let n ← l.entry s
      l.minmaxLoop cmp versus fuel n.next
        (if 0 < scaled cmp versus curminmax n.data then n.data else curminmax)

/-- `ks_list_get_minmax`. -/
def getMinmax (l : KsList) (versus : ℤ) : Except Fault ℕ :=
  match l.comparator with
  | none => .ok 0
  | some cmp =>
    if l.numels = 0 then .ok 0
    else do
      let hd ← l.entry (some l.headSentinel)
      let n ← l.entry hd.next
      l.minmaxLoop cmp versus l.fuel n.next n.data

/-- `ks_list_get_max`. -/
def getMax (l : KsList) : Except Fault ℕ := l.getMinmax 1

/-- `ks_list_get_min`. -/
def getMin (l : KsList) : Except Fault ℕ := l.getMinmax (-1)

/-- The part of `ks_list_delete` that takes out the entry that has been located. -/
def deleteLocated (l : KsList) (pos : ℤ) : Except Fault (ℤ × KsList) :=
  if pos < 0 then .ok (-1, l)
  else do
    let (r, l) ← l.deleteAt (ofInt32 pos)
    return (if r < 0 then -1 else 0, l)

/-- `ks_list_delete`. -/
def delete (l : KsList) (data : ℕ) : Except Fault (ℤ × KsList) := do
  let pos ← l.locate data
  let (ret, l) ← l.deleteLocated pos
  let l ← l.checked
  return (ret, l)

/-! ## Iterations -/

/-- `ks_list_iterator_start`. -/
def iteratorStart (l : KsList) : Except Fault (ℤ × KsList) :=
  if l.iterActive then .ok (0, l)
  else do
    let hd ← l.entry (some l.headSentinel)
    return (1, { l with iterPos := 0, iterActive := true, iterCurentry := hd.next })

/-- `ks_list_iterator_next`. -/
def iteratorNext (l : KsList) : Except Fault (ℕ × KsList) :=
  if !l.iterActive then .ok (0, l)
  else do
    let n ← l.entry l.iterCurentry
    return (n.data, { l with iterCurentry := n.next, iterPos := incr32 l.iterPos })

/-- `ks_list_iterator_hasnext`. -/
def iteratorHasnext (l : KsList) : Bool := l.iterActive && l.iterPos < l.numels

/-- `ks_list_iterator_stop`. -/
def iteratorStop (l : KsList) : ℤ × KsList :=
  if !l.iterActive then (0, l) else (1, { l with iterPos := 0, iterActive := false })

/-- `ks_list_delete_iterator`. -/
def deleteIterator (l : KsList) : Except Fault (ℤ × KsList) :=
  if !l.iterActive ∨ l.numels < l.iterPos then .ok (-1, l)
  else do
    let pos := sub32 l.iterPos 1
    let delendo ← l.findpos (toInt32 pos)
    let l ← l.dropElem delendo pos
    let l ← { l with numels := decr32 l.numels }.checked
    return (0, l)

end KsList

end Libks
