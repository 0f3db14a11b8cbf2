import Libks.Base.Buckets
import Libks.Base.KeyMap
import Libks.Base.Word

/-!
# Hash tables

A `ks_hash_t`: chains of entries, each in the bucket of its hash value. Where an
insertion makes more entries than the load limit allows, the table gets as many
buckets as the next prime says, up to the last one. Memory is not exhausted, and
what is freed or handed to a destructor is recorded.

The functions that take a lock compute what they need outside of it, or inside,
as the code does; the parts inside (`insertAt`, `removeAt`, `searchAt`) are given
what was computed outside.
-/

namespace Libks

open Base

/-- The hash function and the comparison of keys that the mode of a table selects. -/
structure HashKeys (κ : Type*) extends Keys κ where
  hashfn : κ → UInt32
  hashfn_eq : ∀ {k l}, same k l → hashfn k = hashfn l

/-- `hash`: the hash function of the table, and what is done against poor ones. -/
def HashKeys.hash {κ : Type*} (keys : HashKeys κ) (k : κ) : UInt32 :=
  let i := keys.hashfn k
  let i := i + ~~~(i <<< 9)
  let i := i ^^^ ((i >>> 14) ||| (i <<< 18))
  let i := i + (i <<< 4)
  i ^^^ ((i >>> 10) ||| (i <<< 22))

/-- `ks_hash_default_int`. -/
def hashDefaultInt (x : UInt32) : UInt32 :=
  let x := ((x >>> 16) ^^^ x) * 0x45d9f3b
  let x := ((x >>> 16) ^^^ x) * 0x45d9f3b
  (x >>> 16) ^^^ x

/-- The keys of `KS_HASH_MODE_INT`, with `ks_hash_equalkeys_int`. -/
def intKeys : HashKeys UInt32 where
  same k l := k = l
  refl _ := decide_eq_true rfl
  symm h := decide_eq_true (of_decide_eq_true h).symm
  trans h h' := decide_eq_true ((of_decide_eq_true h).trans (of_decide_eq_true h'))
  hashfn := hashDefaultInt
  hashfn_eq h := congrArg _ (of_decide_eq_true h)

/-- The bits of a `ks_hash_flag_t`. -/
structure HashFlags where
  mutex : Bool := false
  freeKey : Bool := false
  freeValue : Bool := false
  rwlock : Bool := false
  dupCheck : Bool := false
  nolock : Bool := false
  deriving DecidableEq, Repr

/-- `struct entry`, behind its `next`, with whether there is a destructor. -/
structure HashEntry (κ ν : Type*) where
  k : κ
  v : ν
  h : UInt32
  flags : HashFlags := {}
  destructor : Bool := false
  deriving DecidableEq, Repr

/-- What is done with the key and the value of an entry that is removed. -/
inductive Disposal (κ ν : Type*)
  | freeKey (k : κ)
  | freeValue (v : ν)
  | destroy (v : ν)
  deriving DecidableEq, Repr

/-- Whether an entry is the one that is looked for. -/
def HashEntry.hits {κ ν : Type*} (keys : HashKeys κ) (k : κ) (hashvalue : UInt32)
    (e : HashEntry κ ν) : Bool :=
  hashvalue = e.h ∧ keys.same k e.k

/-- What becomes of a removed entry: the value that is given back, and what is disposed of. -/
def HashEntry.dispose {κ ν : Type*} (destructor : Bool) (e : HashEntry κ ν) :
    Option ν × List (Disposal κ ν) :=
  let keys := if e.flags.freeKey then [.freeKey e.k] else []
  if e.flags.freeValue then (none, keys ++ [.freeValue e.v])
  else if e.destructor ∨ destructor then (none, keys ++ [.destroy e.v])
  else (some e.v, keys)

/-- `primes`. -/
def primes : List ℕ :=
  [53, 97, 193, 389,
    769, 1543, 3079, 6151,
    12289, 24593, 49157, 98317,
    196613, 393241, 786433, 1572869,
    3145739, 6291469, 12582917, 25165843,
    50331653, 100663319, 201326611, 402653189,
    805306457, 1610612741]

/-- The nearest multiple of `2 ^ k` that a `float` holds, with `k` as small as that
    leaves 24 bits; the even one of two. -/
def roundSingle (n : ℕ) : ℕ :=
  let unit := 2 ^ (n.log2 - 23)
  let q := n / unit
  let r := n % unit
  if unit < 2 * r ∨ (2 * r = unit ∧ q % 2 = 1) then (q + 1) * unit else q * unit

/-- `(unsigned int) ceil(size * max_load_factor)`, a product of `float`s, with `0.65f` a
    multiple of `2 ^ -24`. -/
def loadLimit (size : ℕ) : ℕ := (roundSingle (roundSingle size * 10905190) + (2 ^ 24 - 1)) / 2 ^ 24

/-- `indexFor`. -/
def indexFor (tablelength : ℕ) (hashvalue : UInt32) : ℕ := hashvalue.toNat % tablelength

/-- `struct ks_hash`. -/
structure KsHash (κ ν : Type*) where
  tablelength : ℕ
  table : ℕ → List (HashEntry κ ν) := fun _ => []
  entrycount : ℕ := 0
  loadlimit : ℕ
  primeindex : ℕ
  keys : HashKeys κ
  flags : HashFlags
  destructor : Bool
  /-- What was done with removed entries. -/
  disposals : List (Disposal κ ν) := []

namespace KsHash

variable {κ ν : Type*}

/-- `ks_hash_create_ex`: none for a size that is refused. -/
def createEx (minsize : ℕ) (keys : HashKeys κ) (flags : HashFlags) (destructor : Bool) :
    Option (KsHash κ ν) :=
  let flags := if flags.nolock then { flags with rwlock := false } else flags
  let minsize := if minsize = 0 then 16 else minsize
  if 2 ^ 30 < minsize then none
  else
    let pindex := primes.findIdx (minsize < ·)
    let size := primes.getD pindex 53
    some {
      tablelength := size, primeindex := pindex, loadlimit := loadLimit size
      keys, flags, destructor }

/-- `hash`. -/
def hash (h : KsHash κ ν) (k : κ) : UInt32 := h.keys.hash k

/-- `ks_hash_expand`. -/
def expand (h : KsHash κ ν) : KsHash κ ν :=
  if h.primeindex = primes.length - 1 then h
  else
    let newsize := primes.getD (h.primeindex + 1) 0
    { h with
      primeindex := h.primeindex + 1
      table := Buckets.rehash (fun e => e.h.toNat) newsize h.tablelength h.table
      tablelength := newsize
      loadlimit := loadLimit newsize }

/-- `ks_hash_count`. -/
def count (h : KsHash κ ν) : ℕ := h.entrycount

/-- Whether an entry is the one that is looked for. -/
def hits (h : KsHash κ ν) (k : κ) (hashvalue : UInt32) (e : HashEntry κ ν) : Bool :=
  e.hits h.keys k hashvalue

/-- The first entry of a chain that is looked for, and the chain without it. -/
def unlink (p : HashEntry κ ν → Bool) :
    List (HashEntry κ ν) → Option (HashEntry κ ν × List (HashEntry κ ν))
  | [] => none
  | e :: es => if p e then some (e, es) else (unlink p es).map fun (x, es) => (x, e :: es)

/-- What becomes of a removed entry. -/
def dispose (h : KsHash κ ν) (e : HashEntry κ ν) : Option ν × List (Disposal κ ν) :=
  e.dispose h.destructor

/-- `_ks_hash_remove`. -/
def removeAt (h : KsHash κ ν) (k : κ) (hashvalue : UInt32) (index : ℕ) : Option ν × KsHash κ ν :=
  match unlink (h.hits k hashvalue) (h.table index) with
  | none => (none, h)
  | some (e, es) =>
    let (v, ds) := h.dispose e
    (v, { h with
      table := Function.update h.table index es
      entrycount := decr32 h.entrycount
      disposals := h.disposals ++ ds })

/-- `ks_hash_insert_ex`, from where it has the lock. -/
def insertAt (h : KsHash κ ν) (k : κ) (v : ν) (flags : HashFlags) (destructor : Bool)
    (hashvalue : UInt32) (index : ℕ) : KsHash κ ν :=
  let flags := if flags = {} then h.flags else flags
  let h := if flags.dupCheck then (h.removeAt k hashvalue index).2 else h
  let h := { h with entrycount := incr32 h.entrycount }
  let full := h.loadlimit < h.entrycount
  let h := if full then h.expand else h
  let index := if full then indexFor h.tablelength hashvalue else index
  let e := { k, v, h := hashvalue, flags, destructor }
  { h with table := Function.update h.table index (e :: h.table index) }

/-- `ks_hash_insert_ex`. -/
def insertEx (h : KsHash κ ν) (k : κ) (v : ν) (flags : HashFlags) (destructor : Bool) :
    KsHash κ ν :=
  h.insertAt k v flags destructor (h.hash k) (indexFor h.tablelength (h.hash k))

/-- `ks_hash_insert`. -/
def insert (h : KsHash κ ν) (k : κ) (v : ν) : KsHash κ ν := h.insertEx k v {} false

/-- `ks_hash_search`, from where it has the lock, if it takes one. -/
def searchAt (h : KsHash κ ν) (k : κ) (hashvalue : UInt32) (index : ℕ) : Option ν :=
  ((h.table index).find? (h.hits k hashvalue)).map HashEntry.v

/-- `ks_hash_search`. -/
def search (h : KsHash κ ν) (k : κ) : Option ν :=
  h.searchAt k (h.hash k) (indexFor h.tablelength (h.hash k))

/-- `ks_hash_remove`. -/
def remove (h : KsHash κ ν) (k : κ) : Option ν × KsHash κ ν :=
  h.removeAt k (h.hash k) (indexFor h.tablelength (h.hash k))

/-- The entries of the table. -/
def entries (h : KsHash κ ν) : List (HashEntry κ ν) := Buckets.contents h.tablelength h.table

/-- Every entry is in the bucket of its hash value. -/
def Placed (h : KsHash κ ν) : Prop :=
  Buckets.Placed (fun e => e.h.toNat) h.tablelength h.table

instance (h : KsHash κ ν) : Decidable h.Placed := inferInstanceAs (Decidable (Buckets.Placed ..))

end KsHash

end Libks
