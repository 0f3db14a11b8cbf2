import Libks.Hash.Nodes
import Libks.Hash.Threads
import Mathlib.Data.Nat.Pairing

/-!
# Going through a hash table

An iterator goes through the chains of a table, one behind the other, and what it has
still to visit is known from the node it stands at (`Ahead`). An entry that it has passed
may be removed, wherever in its chain: the links from the node that it stands at on are
not touched. Where each entry is removed when the iterator has gone on from it, it is the
first one of its chain by then, and so the one that its key finds.

* `Laid.removeAt`: a removal of the linked table is the one of its chains, and so are removals
  in a row (`removes_chains`);
* `Ahead.unlinked`: an iterator goes on as before when an entry behind it is removed;
* `Laid.walk`, `Laid.drain`: what the two loops visit and leave;
* `visits_all`: in every table that changes in a row have made.
-/

namespace Libks

open Base

/-- A change of a table. -/
inductive HashOp (κ ν : Type)
  | insertEx (k : κ) (v : ν) (flags : HashFlags) (destructor : Bool)
  | remove (k : κ)
  deriving DecidableEq, Repr

namespace KsHash

variable {κ ν : Type} {h : KsHash κ ν}

/-- The table after a change. -/
def apply (h : KsHash κ ν) : HashOp κ ν → KsHash κ ν
  | .insertEx k v flags destructor => h.insertEx k v flags destructor
  | .remove k => (h.remove k).2

/-- A sound table that counts its entries. -/
structure Counted (h : KsHash κ ν) : Prop where
  sound : h.Sound
  count : h.entrycount = h.entries.length % 2 ^ 32

theorem Counted.remove (hc : h.Counted) (k : κ) : (h.remove k).2.Counted := by
  obtain ⟨_, h', hrem, hs, -⟩ :=
    hc.sound.removeAt k (h.hash k) (indexFor h.tablelength (h.hash k))
  rw [KsHash.remove, hrem]
  refine ⟨hs, ?_⟩
  rcases h.removeAt_cases k (h.hash k) (indexFor h.tablelength (h.hash k)) with
    ⟨-, heq⟩ | ⟨e, xs, ys, -, hchain, heq⟩
  · obtain rfl := (Prod.ext_iff.1 (hrem.symm.trans heq)).2
    exact hc.count
  · obtain rfl := (Prod.ext_iff.1 (hrem.symm.trans heq)).2
    have hlen : h.entries.length = (Buckets.contents h.tablelength (Function.update h.table
        (indexFor h.tablelength (h.hash k)) (xs ++ ys))).length + 1 :=
      (Buckets.perm_of_split (Nat.mod_lt _ hc.sound.pos) hchain).length_eq
    have hdecr := decr32_toUInt32 (Buckets.contents h.tablelength (Function.update h.table
      (indexFor h.tablelength (h.hash k)) (xs ++ ys))).length
    rwa [toUInt32, toUInt32, ← hlen, ← hc.count] at hdecr

theorem Counted.unique (hc : h.Counted) (k : κ) (flags : HashFlags) :
    (h.unique k flags (h.hash k) (indexFor h.tablelength (h.hash k))).Counted := by
  rw [KsHash.unique]
  split_ifs
  · exact hc.remove k
  · exact hc

theorem Counted.insertEx (hc : h.Counted) (k : κ) (v : ν) (flags : HashFlags)
    (destructor : Bool) : (h.insertEx k v flags destructor).Counted := by
  obtain ⟨flags', hf⟩ : ∃ f, (if flags = {} then h.flags else flags) = f := ⟨_, rfl⟩
  obtain ⟨-, hkeys, -, hlen, -⟩ := hc.sound.unique k flags' (h.hash k)
    (indexFor h.tablelength (h.hash k))
  have hg := hc.unique k flags'
  obtain ⟨g, hu⟩ : ∃ g, h.unique k flags' (h.hash k) (indexFor h.tablelength (h.hash k)) = g :=
    ⟨_, rfl⟩
  rw [hu] at hkeys hlen hg
  have hgrow := hg.sound.grow
  have hhash : g.grow.hash k = h.hash k := by rw [hash, hash, hgrow.keys, hkeys]
  have hperm := (hgrow.sound.entries_link ⟨k, v, h.hash k, flags', destructor⟩).length_eq
  rw [KsHash.insertEx, insertAt_eq_link hf hu (.inl (by rw [hlen]))]
  refine ⟨hgrow.sound.link hhash.symm, ?_⟩
  calc
    g.grow.entrycount
    _ = incr32 (g.entries.length % 2 ^ 32) := by rw [hgrow.count, hg.count]
    _ = (g.entries.length + 1) % 2 ^ 32 := by rw [incr32, Nat.mod_add_mod]
    _ = _ := by rw [hperm, List.length_cons, hgrow.entries.length_eq]

theorem Counted.after (hc : h.Counted) (op : HashOp κ ν) : (h.apply op).Counted := by
  cases op with
  | insertEx k v flags destructor => exact hc.insertEx k v flags destructor
  | remove k => exact hc.remove k

/-- The tables that changes in a row have made of a new one. -/
theorem Counted.foldl (hc : h.Counted) (ops : List (HashOp κ ν)) :
    (ops.foldl apply h).Counted := by
  induction ops generalizing h with
  | nil => exact hc
  | cons op ops ih => exact ih (hc.after op)

theorem counted_createEx {minsize : ℕ} {keys : HashKeys κ} {flags : HashFlags}
    {destructor : Bool} (hc : createEx minsize keys flags destructor = some h) : h.Counted := by
  obtain ⟨hs, hempty⟩ := sound_createEx hc
  obtain ⟨size, -, rwlock, rfl⟩ := createEx_cases hc
  refine ⟨hs, ?_⟩
  rw [hempty]
  rfl

end KsHash

namespace HashNodes

variable {κ ν : Type} {s : HashNodes κ ν} {h : KsHash κ ν} {c : ℕ × HashEntry κ ν}
  {cells : ℕ → List (ℕ × HashEntry κ ν)} {rest : List (ℕ × HashEntry κ ν)} {pos index : ℕ}

/-- The nodes `cells`, with their entries, are linked as the chains of the table `h`. -/
structure Laid (s : HashNodes κ ν) (h : KsHash κ ν) (cells : ℕ → List (ℕ × HashEntry κ ν)) :
    Prop where
  tablelength : s.tablelength = h.tablelength
  entrycount : s.entrycount = h.entrycount
  keys : s.keys = h.keys
  destructor : s.destructor = h.destructor
  disposals : s.disposals = h.disposals
  chains : ∀ i < s.tablelength, h.table i = (cells i).map Prod.snd
  follows : ∀ i < s.tablelength,
    Follows (s.heap.link HashNode.next) (s.table i) ((cells i).map Prod.fst)
  entries : ∀ c ∈ Buckets.contents s.tablelength cells,
    (s.heap.lookup c.1).map HashNode.entry = some c.2
  nodup : ((Buckets.contents s.tablelength cells).map Prod.fst).Nodup
  mem : ∀ p, p ∈ s.heap ↔ p ∈ (Buckets.contents s.tablelength cells).map Prod.fst

/-- The node of a cell. -/
theorem Laid.lookup (hl : Laid s h cells) (hc : c ∈ Buckets.contents s.tablelength cells) :
    ∃ next, s.heap.lookup c.1 = some ⟨c.2, next⟩ := by
  obtain ⟨n, hn, he⟩ := Option.map_eq_some_iff.1 (hl.entries c hc)
  exact ⟨n.next, by rw [hn, ← he]⟩

theorem mem_contents_of_mem (hpos : pos < s.tablelength) (hc : c ∈ cells pos) :
    c ∈ Buckets.contents s.tablelength cells := Buckets.mem_contents.2 ⟨pos, hpos, hc⟩

/-! ## The iterator -/

/-- What an iterator has to visit, from the node that it stands at. -/
def Ahead (s : HashNodes κ ν) (cells : ℕ → List (ℕ × HashEntry κ ν)) :
    Option HashIterator → List (ℕ × HashEntry κ ν) → Prop
  | none, rest => rest = []
  | some i, rest => i.pos < s.tablelength ∧ ∃ xs c ys, cells i.pos = xs ++ c :: ys ∧
    i.e = some c.1 ∧ rest = c :: ys ++ Buckets.behind s.tablelength (i.pos + 1) cells

/-- Where the search for a chain ends. -/
theorem seek_spec (s : HashNodes κ ν) (pos : ℕ) :
    s.tablelength ≤ s.seek pos ∨ s.table (s.seek pos) ≠ none := by
  induction hn : s.tablelength - pos using Nat.strongRecOn generalizing pos with
  | ind n ih =>
    rw [seek]
    split_ifs with hempty
    · exact ih _ (by omega) (pos + 1) rfl
    · rcases Nat.lt_or_ge pos s.tablelength with hlt | hge
      · exact .inr fun hnone => hempty ⟨hlt, hnone⟩
      · exact .inl hge

/-- The chains that are passed over are empty. -/
theorem Laid.behind_seek (hl : Laid s h cells) (pos : ℕ) :
    Buckets.behind s.tablelength (s.seek pos) cells = Buckets.behind s.tablelength pos cells := by
  induction hn : s.tablelength - pos using Nat.strongRecOn generalizing pos with
  | ind n ih =>
    rw [seek]
    split_ifs with hempty
    · have hnil : cells pos = [] := by
        have hfollows := hl.follows pos hempty.1
        rw [hempty.2] at hfollows
        have hmap := hfollows.unique (show Follows _ none [] from rfl)
        exact List.map_eq_nil_iff.1 hmap
      rw [ih _ (by omega) (pos + 1) rfl, Buckets.behind_of_lt hempty.1, hnil, List.nil_append]
    · rfl

/-- The iterator goes to the next chain. -/
theorem Laid.enter (hl : Laid s h cells) (pos : ℕ) :
    Ahead s cells (s.enter pos) (Buckets.behind s.tablelength pos cells) := by
  have hseek := s.seek_spec pos
  rw [← hl.behind_seek pos, HashNodes.enter]
  split_ifs with hend hnone
  · exact Buckets.behind_of_le hend _
  · exact absurd hnone (hseek.resolve_left hend)
  · have hlt := Nat.not_le.1 hend
    refine ⟨hlt, ?_⟩
    have hfollows := hl.follows _ hlt
    cases hcells : cells (s.seek pos) with
    | nil =>
      rw [hcells] at hfollows
      exact absurd hfollows hnone
    | cons c ys =>
      rw [hcells] at hfollows
      exact ⟨[], c, ys, rfl, hfollows.1, by rw [Buckets.behind_of_lt hlt, hcells]⟩

/-- The iterator goes on to what is behind the node it stands at. -/
theorem Laid.next (hl : Laid s h cells) {i : HashIterator}
    (hi : Ahead s cells (some i) (c :: rest)) :
    i.e = some c.1 ∧ ∃ o, s.next i = .ok o ∧ Ahead s cells o rest := by
  obtain ⟨hlt, xs, c', ys, hcells, he, hrest⟩ := hi
  obtain ⟨rfl, rfl⟩ := List.cons.inj hrest
  refine ⟨he, ?_⟩
  have hmem : c ∈ cells i.pos := by
    rw [hcells]
    simp
  obtain ⟨next, hn⟩ := hl.lookup (mem_contents_of_mem hlt hmem)
  have hfollows := hl.follows i.pos hlt
  rw [hcells, List.map_append, List.map_cons] at hfollows
  have hbehind := hfollows.of_append
  rw [Heap.link_eq hn] at hbehind
  rw [HashNodes.next, he]
  dsimp only
  rw [Heap.load_eq hn, ok_bind]
  cases ys with
  | nil =>
    obtain rfl : next = none := hbehind
    exact ⟨_, rfl, hl.enter (i.pos + 1)⟩
  | cons d ys =>
    obtain rfl : next = some d.1 := hbehind.1
    refine ⟨_, rfl, hlt, xs ++ [c], d, ys, ?_, rfl, rfl⟩
    rw [hcells, List.append_assoc]
    rfl

theorem Laid.first (hl : Laid s h cells) :
    ∃ o, s.first = .ok o ∧ Ahead s cells o (Buckets.contents s.tablelength cells) :=
  ⟨s.enter 0, rfl, hl.enter 0⟩

/-- The loop visits what the iterator has ahead. -/
theorem Laid.walk (hl : Laid s h cells) {o : Option HashIterator} {fuel : ℕ}
    (ho : Ahead s cells o rest) (hfuel : rest.length ≤ fuel) :
    s.walk fuel o = .ok (rest.map fun c => some c.1) := by
  induction rest generalizing o fuel with
  | nil =>
    cases o with
    | none => cases fuel <;> rfl
    | some i =>
      obtain ⟨-, xs, c, ys, -, -, hrest⟩ := ho
      cases hrest
  | cons c rest ih =>
    cases o with
    | none => cases ho
    | some i =>
      obtain ⟨he, o, hnext, hahead⟩ := hl.next ho
      cases fuel with
      | zero => cases hfuel
      | succ fuel =>
        rw [HashNodes.walk, hnext, ok_bind, ih hahead (Nat.le_of_succ_le_succ hfuel), he]
        rfl

/-! ## A removal -/

/-- The nodes of the chains are apart. -/
theorem Laid.ne_of_mem (hl : Laid s h cells) {i : ℕ} (hi : i < s.tablelength)
    (hindex : index < s.tablelength) (hne : i ≠ index) {p q : ℕ}
    (hp : p ∈ (cells i).map Prod.fst) (hq : q ∈ (cells index).map Prod.fst) : p ≠ q := by
  have hnd := hl.nodup
  rw [Buckets.map_contents] at hnd
  rintro rfl
  exact Buckets.disjoint_of_nodup hnd hi hindex hne hp hq

theorem Laid.mem_heap (hl : Laid s h cells) (hindex : index < s.tablelength)
    (hc : c ∈ cells index) : c.1 ∈ s.heap :=
  (hl.mem c.1).2 (List.mem_map_of_mem (mem_contents_of_mem hindex hc))

section find

variable {p : HashEntry κ ν → Bool} {heap : Heap (HashNode κ ν)} {o : Option ℕ} {fuel : ℕ}
  {xs ys zs : List (ℕ × HashEntry κ ν)}

/-- A step of the loop of a removal. -/
theorem find_cons (pE : Option ℕ) (fuel : ℕ)
    (hf : Follows (heap.link HashNode.next) o (c.1 :: zs.map Prod.fst))
    (hc : (heap.lookup c.1).map HashNode.entry = some c.2) :
    Follows (heap.link HashNode.next) (zs.map Prod.fst).head? (zs.map Prod.fst) ∧
    find p heap (fuel + 1) pE o =
      if p c.2 then .ok (some (pE, c.1, ⟨c.2, (zs.map Prod.fst).head?⟩))
      else find p heap fuel (some c.1) (zs.map Prod.fst).head? := by
  obtain ⟨rfl, hf⟩ := hf
  obtain ⟨n, hn, he⟩ := Option.map_eq_some_iff.1 hc
  rw [Heap.link_eq hn] at hf
  rw [← hf.head, ← he]
  refine ⟨hf, ?_⟩
  rw [find, Heap.load_eq hn, ok_bind]
  rfl

/-- The loop finds nothing in a chain without a node that is looked for. -/
theorem find_none (pE : Option ℕ)
    (hf : Follows (heap.link HashNode.next) o (zs.map Prod.fst))
    (hz : ∀ c ∈ zs, (heap.lookup c.1).map HashNode.entry = some c.2)
    (hno : ∀ c ∈ zs, ¬p c.2) (hfuel : zs.length ≤ fuel) : find p heap fuel pE o = .ok none := by
  induction zs generalizing o pE fuel with
  | nil =>
    obtain rfl : o = none := hf
    cases fuel <;> rfl
  | cons c zs ih =>
    cases fuel with
    | zero => cases hfuel
    | succ fuel =>
      obtain ⟨hc, hz⟩ := List.forall_mem_cons.1 hz
      obtain ⟨hmiss, hno⟩ := List.forall_mem_cons.1 hno
      obtain ⟨hf, heq⟩ := find_cons (p := p) pE fuel hf hc
      rw [heq, if_neg hmiss]
      exact ih _ hf hz hno (Nat.le_of_succ_le_succ hfuel)

/-- The loop stops at the first node that is looked for. -/
theorem find_some (pE : Option ℕ)
    (hf : Follows (heap.link HashNode.next) o ((xs ++ c :: ys).map Prod.fst))
    (hz : ∀ d ∈ xs ++ c :: ys, (heap.lookup d.1).map HashNode.entry = some d.2)
    (hno : ∀ x ∈ xs, ¬p x.2) (hhit : p c.2) (hfuel : (xs ++ c :: ys).length ≤ fuel) :
    find p heap fuel pE o =
      .ok (some ((xs.map Prod.fst).getLast?.or pE, c.1, ⟨c.2, (ys.map Prod.fst).head?⟩)) := by
  induction xs generalizing o pE fuel with
  | nil =>
    cases fuel with
    | zero => cases hfuel
    | succ fuel =>
      rw [(find_cons pE fuel hf (hz c (List.mem_cons_self ..))).2, if_pos hhit]
      rfl
  | cons x xs ih =>
    cases fuel with
    | zero => cases hfuel
    | succ fuel =>
      rw [List.cons_append] at hz
      obtain ⟨hx, hz⟩ := List.forall_mem_cons.1 hz
      obtain ⟨hmiss, hno⟩ := List.forall_mem_cons.1 hno
      obtain ⟨hf, heq⟩ := find_cons (p := p) pE fuel hf hx
      rw [heq, if_neg hmiss, ih _ hf hz hno (Nat.le_of_succ_le_succ hfuel), List.map_cons,
        List.getLast?_cons]
      cases (xs.map Prod.fst).getLast? <;> rfl

end find

/-- The link in front of a node is set to what is behind it. -/
theorem relink_eq {pE : Option ℕ} (hp : s.heap.Valid pE) (index : ℕ) (next : Option ℕ) :
    ∃ heap, s.heap.updateAt Fault.outOfBounds pE (fun n => { n with next }) = .ok heap ∧
      s.relink index pE next = .ok { s with
        heap, table := if pE = none then Function.update s.table index next else s.table } := by
  obtain ⟨heap, hu⟩ := hp.exists_updateAt (e := Fault.outOfBounds)
    (f := fun n : HashNode κ ν => { n with next })
  refine ⟨heap, hu, ?_⟩
  cases pE with
  | none =>
    injection hu with hu
    rw [relink, ← hu]
    rfl
  | some q =>
    rw [relink]
    have hu : s.heap.update Fault.outOfBounds q (fun n => { n with next }) = .ok heap := hu
    rw [hu]
    rfl

/-- What stands in front of a node in its chain. -/
def before (xs : List (ℕ × HashEntry κ ν)) : Option ℕ := (xs.map Prod.fst).getLast?

theorem mem_of_before {xs : List (ℕ × HashEntry κ ν)} {q : ℕ} (hq : before xs = some q) :
    q ∈ xs.map Prod.fst := List.mem_of_getLast? hq

/-- The chain without a node, when the link in front of it has been set. -/
theorem follows_relink {next next' : ℕ → Option ℕ} {xs ys : List (ℕ × HashEntry κ ν)}
    {o o' : Option ℕ} (hf : Follows next o ((xs ++ c :: ys).map Prod.fst))
    (ho : o' = if before xs = none then next c.1 else o)
    (hset : ∀ q, before xs = some q → next' q = next c.1)
    (hkeep : ∀ d ∈ xs ++ ys, before xs ≠ some d.1 → next' d.1 = next d.1)
    (hnd : ((xs ++ ys).map Prod.fst).Nodup) : Follows next' o' ((xs ++ ys).map Prod.fst) := by
  rcases List.eq_nil_or_concat' xs with rfl | ⟨xs, b, rfl⟩
  · rw [ho]
    refine hf.2.congr fun q hq => ?_
    obtain ⟨d, hd, rfl⟩ := List.mem_map.1 hq
    exact hkeep d hd (Option.some_ne_none _).symm
  · have hb : before (xs ++ [b]) = some b.1 := by
      rw [before, List.map_append, List.map_singleton, List.getLast?_concat]
    rw [hb, if_neg (Option.some_ne_none _)] at ho
    rw [ho, List.append_assoc, List.map_append, List.singleton_append, List.map_cons]
    rw [List.append_assoc, List.map_append, List.singleton_append, List.map_cons,
      List.map_cons] at hf
    refine hf.skip (hset b.1 hb) fun q hq => ?_
    rw [← List.map_append] at hq
    obtain ⟨d, hd, rfl⟩ := List.mem_map.1 hq
    have hne : b.1 ≠ d.1 := by
      intro heq
      rw [List.append_assoc, List.singleton_append,
        (List.perm_middle.map Prod.fst).nodup_iff, List.map_cons, heq] at hnd
      exact (List.nodup_cons.1 hnd).1 hq
    refine hkeep d ?_ (hb ▸ fun heq => hne (Option.some.inj heq))
    rw [List.append_assoc, List.singleton_append]
    exact List.perm_middle.mem_iff.2 (List.mem_cons_of_mem b hd)

/-- The table reads and disposes of entries as its chains do. -/
theorem Laid.hits_eq (hl : Laid s h cells) (k : κ) (hashvalue : UInt32) :
    HashEntry.hits s.keys k hashvalue = h.hits k hashvalue := by
  rw [hl.keys]
  rfl

theorem Laid.dispose_eq (hl : Laid s h cells) (e : HashEntry κ ν) :
    e.dispose s.destructor = h.dispose e := by
  rw [hl.destructor]
  rfl

/-- The nodes of a chain: linked, in the heap, and no more than there are. -/
theorem Laid.chain (hl : Laid s h cells) (hindex : index < s.tablelength) :
    (∀ d ∈ cells index, (s.heap.lookup d.1).map HashNode.entry = some d.2) ∧
    (cells index).length ≤ s.heap.keys.card := by
  refine ⟨fun d hd => hl.entries d (mem_contents_of_mem hindex hd), ?_⟩
  have hnd := hl.nodup
  rw [Buckets.map_contents] at hnd
  have hlen : ((cells index).map Prod.fst).length = (cells index).length := List.length_map _
  rw [← hlen]
  refine Heap.length_le_card (fun p hp => ?_)
    ((List.nodup_flatMap.1 hnd).1 index (List.mem_range.2 hindex))
  obtain ⟨d, hd, rfl⟩ := List.mem_map.1 hp
  exact hl.mem_heap hindex hd

/-- The table whose chain has been relinked around a node, and the node freed. -/
theorem Laid.unlinked (hl : Laid s h cells) {xs ys : List (ℕ × HashEntry κ ν)}
    {heap : Heap (HashNode κ ν)} (hindex : index < s.tablelength)
    (hcells : cells index = xs ++ c :: ys)
    (hu : s.heap.updateAt Fault.outOfBounds (before xs)
      (fun n => { n with next := (ys.map Prod.fst).head? }) = .ok heap)
    (ds : List (Disposal κ ν)) :
    Laid
      { s with
        heap := heap.erase c.1
        table := if before xs = none then
          Function.update s.table index (ys.map Prod.fst).head? else s.table
        entrycount := decr32 s.entrycount
        disposals := s.disposals ++ ds }
      { h with
        table := Function.update h.table index (xs.map Prod.snd ++ ys.map Prod.snd)
        entrycount := decr32 h.entrycount
        disposals := h.disposals ++ ds }
      (Function.update cells index (xs ++ ys)) := by
  have hfollows := hl.follows index hindex
  rw [hcells] at hfollows
  have hperm := (Buckets.perm_of_split hindex hcells).map Prod.fst
  have hnd := hperm.nodup_iff.1 hl.nodup
  rw [List.map_cons, List.nodup_cons] at hnd
  obtain ⟨hnotin, hnd⟩ := hnd
  have hbehind : s.heap.link HashNode.next c.1 = (ys.map Prod.fst).head? := by
    rw [List.map_append, List.map_cons] at hfollows
    exact hfollows.of_append.head
  have hmem : c ∈ cells index := by
    rw [hcells]
    simp
  -- The node is in no chain any more, and the one in front of it in this one only.
  have hgone : ∀ i < s.tablelength, ∀ d ∈ Function.update cells index (xs ++ ys) i, d.1 ≠ c.1 :=
    fun i hi d hd heq => hnotin (heq ▸ List.mem_map_of_mem (mem_contents_of_mem (s := s) hi hd))
  have hfront : ∀ i < s.tablelength, i ≠ index → ∀ d ∈ cells i, before xs ≠ some d.1 := by
    intro i hi hne d hd hq
    refine hl.ne_of_mem hi hindex hne (List.mem_map_of_mem hd) ?_ rfl
    rw [hcells, List.map_append]
    exact List.mem_append_left _ (mem_of_before hq)
  refine ⟨hl.tablelength, congrArg decr32 hl.entrycount, hl.keys, hl.destructor,
    congrArg (· ++ ds) hl.disposals, fun i hi => ?_, fun i hi => ?_, fun d hd => ?_, hnd,
    fun p => ?_⟩
  · dsimp only at hi ⊢
    by_cases hi' : i = index
    · rw [hi', Function.update_self, Function.update_self, List.map_append]
    · rw [Function.update_of_ne hi', Function.update_of_ne hi']
      exact hl.chains i hi
  · dsimp only at hi ⊢
    have hgone := hgone i hi
    have hlink : ∀ d ∈ Function.update cells index (xs ++ ys) i, before xs ≠ some d.1 →
        Heap.link HashNode.next (heap.erase c.1) d.1 = s.heap.link HashNode.next d.1 := by
      intro d hd hq
      rw [Heap.link_erase_of_ne (hgone d hd), Heap.link_of_updateAt_ne hu hq]
    by_cases hi' : i = index
    · subst hi'
      rw [Function.update_self] at hlink hgone ⊢
      refine follows_relink hfollows ?_ (fun q hq => ?_) hlink ?_
      · rw [hbehind]
        split_ifs
        · exact Function.update_self ..
        · rfl
      · obtain ⟨d, hd, rfl⟩ := List.mem_map.1 (mem_of_before hq)
        rw [Heap.link_erase_of_ne (hgone d (List.mem_append_left _ hd)), hbehind]
        refine Heap.link_of_updateAt_set hu (fun _ => rfl) (hl.mem_heap hi ?_) hq
        rw [hcells]
        exact List.mem_append_left _ hd
      · rw [Buckets.map_contents] at hnd
        have := (List.nodup_flatMap.1 hnd).1 i (List.mem_range.2 hi)
        rwa [Function.update_self] at this
    · rw [Function.update_of_ne hi'] at hlink ⊢
      have hsame : (if before xs = none then
          Function.update s.table index (ys.map Prod.fst).head? else s.table) i = s.table i := by
        split_ifs
        · exact Function.update_of_ne hi' _ _
        · rfl
      rw [hsame]
      refine (hl.follows i hi).congr fun q hq => ?_
      obtain ⟨d, hd, rfl⟩ := List.mem_map.1 hq
      exact hlink d hd (hfront i hi hi' d hd)
  · dsimp only at hd ⊢
    have hne : d.1 ≠ c.1 := fun heq => hnotin (heq ▸ List.mem_map_of_mem hd)
    rw [Finmap.lookup_erase_ne hne, Heap.lookup_map_of_updateAt hu fun _ => rfl]
    exact hl.entries d ((Buckets.perm_of_split hindex hcells).mem_iff.2 (List.mem_cons_of_mem c hd))
  · dsimp only
    rw [Finmap.mem_erase, Heap.mem_of_updateAt hu, hl.mem p, hperm.mem_iff, List.map_cons,
      List.mem_cons]
    constructor
    · rintro ⟨hne, hp⟩
      exact hp.resolve_left hne
    · exact fun hp => ⟨fun heq => hnotin (heq ▸ hp), .inr hp⟩

/-- A removal takes the first node of a chain that is looked for out of it. -/
theorem Laid.removeAt_hit (hl : Laid s h cells) {k : κ} {hashvalue : UInt32}
    {xs ys : List (ℕ × HashEntry κ ν)} (hindex : index < s.tablelength)
    (hcells : cells index = xs ++ c :: ys) (hno : ∀ x ∈ xs, ¬h.hits k hashvalue x.2)
    (hhit : h.hits k hashvalue c.2) :
    ∃ s', s.removeAt k hashvalue index = .ok ((h.removeAt k hashvalue index).1, s') ∧
      Laid s' (h.removeAt k hashvalue index).2 (Function.update cells index (xs ++ ys)) := by
  have hfollows := hl.follows index hindex
  obtain ⟨hentries, hcard⟩ := hl.chain hindex
  rw [hcells] at hfollows hentries hcard
  have hchain : h.table index = xs.map Prod.snd ++ c.2 :: ys.map Prod.snd := by
    rw [hl.chains index hindex, hcells, List.map_append, List.map_cons]
  have hunlink : KsHash.unlink (h.hits k hashvalue)
      (xs.map Prod.snd ++ c.2 :: ys.map Prod.snd) =
      some (c.2, xs.map Prod.snd ++ ys.map Prod.snd) :=
    KsHash.unlink_of_first (List.forall_mem_map.2 hno) hhit
  rw [← hl.hits_eq] at hno hhit
  have hfind := find_some none hfollows hentries hno hhit hcard
  rw [Option.or_none] at hfind
  -- The link in front of the node.
  have hvalid : s.heap.Valid (before xs) := by
    intro q hq
    obtain ⟨d, hd, rfl⟩ := List.mem_map.1 (mem_of_before hq)
    exact hl.mem_heap hindex (hcells ▸ List.mem_append_left _ hd)
  obtain ⟨heap, hu, hrelink⟩ := relink_eq hvalid index (ys.map Prod.fst).head?
  rw [before] at hrelink
  have hrem : h.removeAt k hashvalue index = ((h.dispose c.2).1, { h with
      table := Function.update h.table index (xs.map Prod.snd ++ ys.map Prod.snd)
      entrycount := decr32 h.entrycount
      disposals := h.disposals ++ (h.dispose c.2).2 }) := by
    rw [KsHash.removeAt, hchain, hunlink]
  rw [hrem]
  refine ⟨_, ?_, hl.unlinked hindex hcells hu (h.dispose c.2).2⟩
  rw [HashNodes.removeAt, hfind, ok_bind]
  dsimp only
  rw [hrelink, ok_bind, ← hl.dispose_eq]
  rfl

/-- A removal of a chain without a node that is looked for changes nothing. -/
theorem Laid.removeAt_miss (hl : Laid s h cells) {k : κ} {hashvalue : UInt32}
    (hindex : index < s.tablelength) (hno : ∀ x ∈ cells index, ¬h.hits k hashvalue x.2) :
    s.removeAt k hashvalue index = .ok (none, s) := by
  obtain ⟨hentries, hcard⟩ := hl.chain hindex
  rw [← hl.hits_eq] at hno
  rw [HashNodes.removeAt, find_none none (hl.follows index hindex) hentries hno hcard]
  rfl

/-- **A removal of the linked table is the one of its chains**, wherever in a chain the entry
    stands. -/
theorem Laid.removeAt (hl : Laid s h cells) (k : κ) (hashvalue : UInt32)
    (hindex : index < s.tablelength) :
    ∃ s' cells', s.removeAt k hashvalue index = .ok ((h.removeAt k hashvalue index).1, s') ∧
      Laid s' (h.removeAt k hashvalue index).2 cells' := by
  cases hfind : (cells index).find? fun c => h.hits k hashvalue c.2 with
  | none =>
    have hno := List.find?_eq_none.1 hfind
    rcases h.removeAt_cases k hashvalue index with ⟨-, heq⟩ | ⟨e, xs, ys, hhit, hchain, -⟩
    · rw [heq]
      exact ⟨s, cells, hl.removeAt_miss hindex hno, hl⟩
    · have he : e ∈ (cells index).map Prod.snd := by
        rw [← hl.chains index hindex, hchain]
        simp
      obtain ⟨c, hc, rfl⟩ := List.mem_map.1 he
      exact absurd hhit (hno c hc)
  | some c =>
    obtain ⟨hhit, xs, ys, hcells, hno⟩ := List.find?_eq_some_iff_append.1 hfind
    obtain ⟨s', hrem, hl'⟩ := hl.removeAt_hit hindex hcells (fun x hx => by simpa using hno x hx)
      hhit
    exact ⟨s', _, hrem, hl'⟩

/-- `ks_hash_remove`. -/
theorem Laid.remove (hl : Laid s h cells) (hpos : 0 < h.tablelength) (k : κ) :
    ∃ s' cells', s.remove k = .ok ((h.remove k).1, s') ∧ Laid s' (h.remove k).2 cells' := by
  have hindex : indexFor h.tablelength (h.hash k) < s.tablelength :=
    (Nat.mod_lt _ hpos).trans_eq hl.tablelength.symm
  rw [HashNodes.remove, hl.keys, hl.tablelength]
  exact hl.removeAt k _ hindex

/-! ## A removal behind an iterator -/

/-- An entry that an iterator has passed may be removed: it has the same entries ahead. -/
theorem Ahead.unlinked {s' : HashNodes κ ν} {o : Option HashIterator}
    {xs ys : List (ℕ × HashEntry κ ν)} (ho : Ahead s cells o rest)
    (hlen : s'.tablelength = s.tablelength) (hindex : index < s.tablelength)
    (hcells : cells index = xs ++ c :: ys) (hc : c ∉ rest) :
    Ahead s' (Function.update cells index (xs ++ ys)) o rest := by
  cases o with
  | none => exact ho
  | some i =>
    obtain ⟨hlt, xs', d, ys', hd, he, rfl⟩ := ho
    obtain ⟨hchain, hbehind⟩ := not_or.1 (mt List.mem_append.2 hc)
    have hle : index ≤ i.pos := by
      by_contra hgt
      refine hbehind (Buckets.mem_behind (Nat.not_le.1 hgt) hindex ?_)
      rw [hcells]
      simp
    refine ⟨hlen ▸ hlt, ?_⟩
    rw [hlen, Buckets.behind_update (Nat.lt_succ_of_le hle)]
    by_cases hpos : i.pos = index
    · -- The entry is in the chain that the iterator is in, in front of it.
      rw [hpos, hcells] at hd
      rw [hpos, Function.update_self]
      rcases List.append_eq_append_iff.1 hd with ⟨zs, rfl, hzs⟩ | ⟨zs, rfl, hzs⟩
      · cases zs with
        | nil =>
          rw [List.nil_append] at hzs
          exact absurd (hzs ▸ List.mem_cons_self ..) hchain
        | cons z zs =>
          obtain ⟨rfl, rfl⟩ := List.cons.inj hzs
          exact ⟨xs ++ zs, d, ys', (List.append_assoc ..).symm, he, rfl⟩
      · refine absurd ?_ hchain
        rw [hzs]
        simp
    · rw [Function.update_of_ne hpos]
      exact ⟨xs', d, ys', hd, he, rfl⟩

/-- The entries of the chains. -/
theorem Laid.entries_eq (hl : Laid s h cells) :
    (Buckets.contents s.tablelength cells).map Prod.snd = h.entries := by
  rw [Buckets.map_contents, KsHash.entries, ← hl.tablelength]
  exact List.flatMap_congr fun i hi => (hl.chains i (List.mem_range.1 hi)).symm

/-- When all that is ahead are all entries, the next one is the first of its chain. -/
theorem Ahead.first_of_chain {i : HashIterator} (hi : Ahead s cells (some i) (c :: rest))
    (hall : Buckets.contents s.tablelength cells = c :: rest) :
    i.pos < s.tablelength ∧ Buckets.contents i.pos cells = [] ∧ ∃ ys, cells i.pos = c :: ys := by
  obtain ⟨hlt, xs, d, ys, hcells, -, hrest⟩ := hi
  obtain ⟨rfl, -⟩ := List.cons.inj hrest
  rw [hrest, Buckets.contents_eq hlt, hcells, List.append_assoc, ← List.append_assoc] at hall
  have hnil := List.append_eq_nil_iff.1 (List.append_left_eq_self.1 hall)
  rw [hnil.2] at hcells
  exact ⟨hlt, hnil.1, ys, hcells⟩

/-- The entry that is visited first is the one that its key removes. -/
theorem Laid.remove_first (hl : Laid s h cells) (hs : h.Sound) {i : HashIterator}
    (hi : Ahead s cells (some i) (c :: rest))
    (hall : Buckets.contents s.tablelength cells = c :: rest) :
    ∃ s' cells', s.remove c.2.k = .ok ((h.remove c.2.k).1, s') ∧
      Laid s' (h.remove c.2.k).2 cells' ∧ s'.tablelength = s.tablelength ∧
      Buckets.contents s.tablelength cells' = rest ∧
      ∀ o, Ahead s cells o rest → Ahead s' cells' o rest := by
  obtain ⟨hlt, hnil, ys, hcells⟩ := hi.first_of_chain hall
  have hmem : c ∈ cells i.pos := hcells ▸ List.mem_cons_self ..
  have hchain : c.2 ∈ h.table i.pos := by
    rw [hl.chains i.pos hlt]
    exact List.mem_map_of_mem hmem
  have hentry : c.2 ∈ h.entries := Buckets.mem_contents.2 ⟨i.pos, hl.tablelength ▸ hlt, hchain⟩
  have hindex : indexFor h.tablelength (h.hash c.2.k) = i.pos := by
    rw [← hs.hashed c.2 hentry]
    exact hs.placed i.pos (hl.tablelength ▸ hlt) c.2 hchain
  have hhash : s.keys.hash c.2.k = h.hash c.2.k := by rw [KsHash.hash, hl.keys]
  have hhit := (KsHash.hits_iff hs hentry).2 (h.keys.refl c.2.k)
  have hsplit : cells i.pos = [] ++ c :: ys := hcells
  obtain ⟨s', hrem, hl'⟩ := hl.removeAt_hit hlt hsplit (fun _ hx => absurd hx List.not_mem_nil)
    hhit
  have hnd := List.Nodup.of_map Prod.fst hl.nodup
  have hlen : s'.tablelength = s.tablelength := by
    obtain ⟨_, h', heq, -, -, -, -, hlen, -⟩ := hs.removeAt c.2.k (h.hash c.2.k) i.pos
    rw [heq] at hl'
    rw [hl'.tablelength, hlen, hl.tablelength]
  rw [hall, List.nodup_cons] at hnd
  refine ⟨s', _, ?_, ?_, hlen, ?_, fun o ho => ho.unlinked hlen hlt hsplit hnd.1⟩
  · rw [HashNodes.remove, KsHash.remove, hhash, hl.tablelength, hindex, hrem]
  · rw [KsHash.remove, hindex]
    exact hl'
  · rw [Buckets.contents_eq hlt, hnil, hcells] at hall
    rw [Buckets.contents_update hlt, hnil]
    exact (List.cons.inj hall).2

/-- The loop that removes every entry when it has gone on behind it visits all entries, and
    leaves none. -/
theorem Laid.drain (hl : Laid s h cells) (hh : h.Counted) {o : Option HashIterator} {fuel : ℕ}
    (ho : Ahead s cells o rest) (hall : Buckets.contents s.tablelength cells = rest)
    (hfuel : rest.length ≤ fuel) :
    ∃ s', drain fuel s o = .ok (rest.map fun c => some c.1, s') ∧ (∀ p, p ∉ s'.heap) ∧
      (∀ i < s'.tablelength, s'.table i = none) ∧ s'.entrycount = 0 := by
  induction rest generalizing s h cells o fuel with
  | nil =>
    obtain rfl : o = none := by
      cases o with
      | none => rfl
      | some i =>
        obtain ⟨-, xs, c, ys, -, -, hrest⟩ := ho
        cases hrest
    refine ⟨s, by cases fuel <;> rfl, fun p hp => ?_, fun i hi => ?_, ?_⟩
    · rw [hl.mem, hall] at hp
      cases hp
    · have hnil : cells i = [] := List.flatMap_eq_nil_iff.1 hall i (List.mem_range.2 hi)
      have hfollows := hl.follows i hi
      rw [hnil] at hfollows
      exact hfollows
    · rw [hl.entrycount, hh.count, ← hl.entries_eq, hall]
      rfl
  | cons c rest ih =>
    cases o with
    | none => cases ho
    | some i =>
      cases fuel with
      | zero => cases hfuel
      | succ fuel =>
        obtain ⟨he, o, hnext, hahead⟩ := hl.next ho
        obtain ⟨s₁, cells₁, hrem, hl₁, hlen, hall₁, hkept⟩ := hl.remove_first hh.sound ho hall
        have hmem : c ∈ Buckets.contents s.tablelength cells := hall ▸ List.mem_cons_self ..
        obtain ⟨next, hn⟩ := hl.lookup hmem
        have hthis : s.thisKey i = .ok (some c.2.k) := by
          rw [thisKey, he]
          dsimp only
          rw [Heap.load_eq hn, ok_bind]
          rfl
        rw [← hlen] at hall₁
        obtain ⟨s', hdrain, hempty⟩ := ih hl₁ (hh.remove c.2.k) (hkept o hahead) hall₁
          (Nat.le_of_succ_le_succ hfuel)
        refine ⟨s', ?_, hempty⟩
        have hremove : s.removeThis (some c.2.k) = .ok s₁ := by
          rw [removeThis, hrem]
          rfl
        rw [HashNodes.drain, hthis, ok_bind, hnext, ok_bind, hremove, ok_bind, hdrain, he]
        rfl

/-! ## Layouts -/

/-- The nodes of a chain. -/
def linked : List (ℕ × HashEntry κ ν) → List (Σ _ : ℕ, HashNode κ ν)
  | [] => []
  | c :: cs => ⟨c.1, c.2, (cs.map Prod.fst).head?⟩ :: linked cs

theorem linked_fst (cs : List (ℕ × HashEntry κ ν)) :
    (linked cs).map Sigma.fst = cs.map Prod.fst := by
  induction cs with
  | nil => rfl
  | cons c cs ih => rw [linked, List.map_cons, ih, List.map_cons]

theorem follows_linked {heap : Heap (HashNode κ ν)} {cs : List (ℕ × HashEntry κ ν)}
    (hc : ∀ x ∈ linked cs, heap.lookup x.1 = some x.2) :
    Follows (heap.link HashNode.next) (cs.map Prod.fst).head? (cs.map Prod.fst) := by
  induction cs with
  | nil => rfl
  | cons c cs ih =>
    obtain ⟨hc, hcs⟩ := List.forall_mem_cons.1 hc
    refine ⟨rfl, ?_⟩
    rw [Heap.link_eq hc]
    exact ih hcs

/-- The node of an entry is one of its chain. -/
theorem mem_linked {cs : List (ℕ × HashEntry κ ν)} (hc : c ∈ cs) :
    ∃ next, ⟨c.1, c.2, next⟩ ∈ linked cs := by
  induction cs with
  | nil => cases hc
  | cons d cs ih =>
    rcases List.mem_cons.1 hc with rfl | hc
    · exact ⟨_, List.mem_cons_self ..⟩
    · obtain ⟨next, hn⟩ := ih hc
      exact ⟨next, List.mem_cons_of_mem _ hn⟩

/-- A table can be laid out wherever its entries are. -/
theorem exists_laid (hnd : ((Buckets.contents h.tablelength cells).map Prod.fst).Nodup)
    (hcells : ∀ i < h.tablelength, h.table i = (cells i).map Prod.snd) :
    ∃ s, Laid s h cells := by
  have hkeys :
      ((Buckets.contents h.tablelength fun i => linked (cells i)).map Sigma.fst).Nodup := by
    rw [Buckets.map_contents] at hnd ⊢
    simpa only [linked_fst] using hnd
  have hlookup : ∀ i < h.tablelength, ∀ x ∈ linked (cells i),
      Finmap.lookup x.1 (Buckets.contents h.tablelength fun i => linked (cells i)).toFinmap =
        some x.2 := by
    intro i hi x hx
    rw [Finmap.dlookup_list_toFinmap]
    exact (List.mem_dlookup_iff hkeys).2 (Buckets.mem_contents.2 ⟨i, hi, hx⟩)
  refine ⟨{
    heap := (Buckets.contents h.tablelength fun i => linked (cells i)).toFinmap
    tablelength := h.tablelength
    table := fun i => ((cells i).map Prod.fst).head?
    entrycount := h.entrycount, keys := h.keys, destructor := h.destructor
    disposals := h.disposals }, rfl, rfl, rfl, rfl, rfl, hcells, fun i hi => ?_, fun c hc => ?_,
    hnd, fun p => ?_⟩
  · exact follows_linked (hlookup i hi)
  · obtain ⟨i, hi, hc⟩ := Buckets.mem_contents.1 hc
    obtain ⟨next, hn⟩ := mem_linked hc
    dsimp only
    rw [hlookup i hi _ hn]
    rfl
  · refine (Finmap.mem_list_toFinmap p _).trans 
      ((@List.mem_keys _ (fun _ => HashNode κ ν) _ _).symm.trans ?_)
    rw [List.keys, Buckets.map_contents, Buckets.map_contents]
    simp only [linked_fst]

/-- The cells of a table whose `j`-th entry of the chain `i` is at the address `⟨i, j⟩`. -/
def paired (t : ℕ → List (HashEntry κ ν)) (i : ℕ) : List (ℕ × HashEntry κ ν) :=
  (t i).zipIdx.map fun e => (Nat.pair i e.2, e.1)

theorem paired_snd (t : ℕ → List (HashEntry κ ν)) (i : ℕ) : (paired t i).map Prod.snd = t i := by
  rw [paired, List.map_map]
  exact List.zipIdx_map_fst 0 (t i)

theorem nodup_paired (t : ℕ → List (HashEntry κ ν)) (n : ℕ) :
    ((Buckets.contents n (paired t)).map Prod.fst).Nodup := by
  have hfst (i : ℕ) :
      (paired t i).map Prod.fst = (List.range' 0 (t i).length).map (Nat.pair i) := by
    rw [← List.zipIdx_map_snd 0 (t i), paired, List.map_map, List.map_map]
    rfl
  have hmem {i p : ℕ} (hp : p ∈ (paired t i).map Prod.fst) : p.unpair.1 = i := by
    rw [hfst] at hp
    obtain ⟨j, -, rfl⟩ := List.mem_map.1 hp
    rw [Nat.unpair_pair]
  rw [Buckets.map_contents, Buckets.contents, List.nodup_flatMap]
  refine ⟨fun i _ => ?_, List.nodup_range.imp fun hne p hp hp' => hne ?_⟩
  · rw [hfst]
    exact List.Nodup.map (fun j j' heq => (Nat.pair_eq_pair.1 heq).2) List.nodup_range'
  · rw [← hmem hp, ← hmem hp']

/-! ## Every table -/

/-- **An iteration visits every entry once.** Whatever changes have made a table and wherever
    its entries are, the loop from `ks_hash_first` on visits the node of each entry once, and
    no other. So does the loop that removes the key of the entry that it has gone on from,
    and behind it no entry is left and none is counted. -/
theorem visits_all {h₀ : KsHash κ ν} {minsize : ℕ} {keys : HashKeys κ} {flags : HashFlags}
    {destructor : Bool} (hc : KsHash.createEx minsize keys flags destructor = some h₀)
    (ops : List (HashOp κ ν)) (hl : Laid s (ops.foldl KsHash.apply h₀) cells) :
    ∃ visited : List (ℕ × HashEntry κ ν),
      visited.map Prod.snd = (ops.foldl KsHash.apply h₀).entries ∧
      (visited.map Prod.fst).Nodup ∧ (∀ p, p ∈ visited.map Prod.fst ↔ p ∈ s.heap) ∧
      (s.first >>= s.walk s.heap.keys.card) = .ok (visited.map fun c => some c.1) ∧
      ∃ s', (s.first >>= drain s.heap.keys.card s) = .ok (visited.map fun c => some c.1, s') ∧
        (∀ p, p ∉ s'.heap) ∧ (∀ i < s'.tablelength, s'.table i = none) ∧ s'.entrycount = 0 := by
  obtain ⟨o, hfirst, ho⟩ := hl.first
  have hfuel : (Buckets.contents s.tablelength cells).length ≤ s.heap.keys.card := by
    have hlen : ((Buckets.contents s.tablelength cells).map Prod.fst).length =
        (Buckets.contents s.tablelength cells).length := List.length_map _
    rw [← hlen]
    exact Heap.length_le_card (fun p hp => (hl.mem p).2 hp) hl.nodup
  refine ⟨_, hl.entries_eq, hl.nodup, fun p => (hl.mem p).symm, ?_, ?_⟩
  · rw [hfirst, ok_bind]
    exact hl.walk ho hfuel
  · rw [hfirst, ok_bind]
    exact hl.drain ((KsHash.counted_createEx hc).foldl ops) ho rfl hfuel

/-- A table of three numbers, of which two are in one chain. -/
theorem visits_all_three : ∃ h₀ s cells, KsHash.createEx 16 intKeys {} false = some h₀ ∧
    Laid s ([HashOp.insertEx 7 true {} false, .insertEx 60 false {} false,
      .insertEx 7 false {} false].foldl KsHash.apply h₀) cells ∧
    ∃ visited : List (ℕ × HashEntry UInt32 Bool),
      (s.first >>= s.walk s.heap.keys.card) = .ok (visited.map fun c => some c.1) ∧
      ∃ s', (s.first >>= drain s.heap.keys.card s) = .ok (visited.map fun c => some c.1, s') ∧
        (∀ p, p ∉ s'.heap) ∧ s'.entrycount = 0 := by
  obtain ⟨h₀, hc⟩ : ∃ h₀ : KsHash UInt32 Bool, KsHash.createEx 16 intKeys {} false = some h₀ :=
    ⟨_, rfl⟩
  obtain ⟨s, hl⟩ := exists_laid (nodup_paired _ _) fun i _ => (paired_snd _ i).symm
  obtain ⟨visited, -, -, -, hwalk, s', hdrain, hempty, -, hcount⟩ := visits_all hc _ hl
  exact ⟨h₀, s, _, hc, hl, visited, hwalk, s', hdrain, hempty, hcount⟩

end HashNodes

end Libks
