import Libks.Hash.Map

/-!
# Who frees the keys and the values of a hash table

An entry may own its key (`KS_HASH_FLAG_FREE_KEY`), and its value
(`KS_HASH_FLAG_FREE_VALUE`, or a destructor of its own or of the table). It leaves the
table when it is removed, when it is replaced, or when the table is destroyed, and what it
owns is disposed of then (`fate`), by the destructor that the table has at that time.

* `KsHash.departures`: the entries that leave a table over its life, as its chains and the
  calls say, each with whether a destructor has been set last;
* `KsHash.destroy_settles`: these are the entries that have been put in, each once, and what
  is disposed of is the fate of each; what its flags say is to be freed is freed as often as it
  was inserted, and no value that is given back to a caller is disposed of.
-/

namespace Libks

open Base

open scoped List

/-- A call that changes a table. -/
inductive HashCall (κ ν : Type*)
  | insertEx (k : κ) (v : ν) (flags : HashFlags) (destructor : Bool)
  | remove (k : κ)
  | setFlags (flags : HashFlags)
  | setDestructor (destructor : Bool)

/-- Whether there is a destructor behind a call, if there is one before as `d` says. -/
def HashCall.destructorAfter {κ ν : Type*} (d : Bool) : HashCall κ ν → Bool
  | .setDestructor destructor => destructor
  | .insertEx .. | .remove _ | .setFlags _ => d

/-- What becomes of an entry that leaves a table, with or without a destructor of its own:
    the value that is given back, and what is disposed of. -/
def fate {κ ν : Type*} (destructor : Bool) (e : HashEntry κ ν) : Option ν × List (Disposal κ ν) :=
  let keys := if e.flags.freeKey then [.freeKey e.k] else []
  if e.flags.freeValue then (none, keys ++ [.freeValue e.v])
  else if e.destructor ∨ destructor then (none, keys ++ [.destroy e.v])
  else (some e.v, keys)

namespace KsHash

variable {κ ν : Type*} {h : KsHash κ ν} {e : HashEntry κ ν} {k : κ} {v : ν} {d : Bool}
  {ins : List (HashEntry κ ν)} {back : List ν} {gone : List (HashEntry κ ν × Bool)}

/-- `ks_hash_set_flags`. -/
def setFlags (h : KsHash κ ν) (flags : HashFlags) : KsHash κ ν := { h with flags }

/-- `ks_hash_set_destructor`. -/
def setDestructor (h : KsHash κ ν) (destructor : Bool) : KsHash κ ν := { h with destructor }

/-- `ks_hash_destroy`: all that has been disposed of in the end. -/
def destroy (h : KsHash κ ν) : List (Disposal κ ν) :=
  (List.range h.tablelength).foldl
    (fun ds i => (h.table i).foldl (fun ds f => ds ++ (h.dispose f).2) ds) h.disposals

/-- A call, with the value that it gives back. -/
def act (h : KsHash κ ν) : HashCall κ ν → Option ν × KsHash κ ν
  | .insertEx k v flags destructor => (none, h.insertEx k v flags destructor)
  | .remove k => h.remove k
  | .setFlags flags => (none, h.setFlags flags)
  | .setDestructor destructor => (none, h.setDestructor destructor)

/-- Calls in a row, with the values that they give back. -/
def acts (h : KsHash κ ν) : List (HashCall κ ν) → List ν × KsHash κ ν
  | [] => ([], h)
  | c :: cs =>
    let (v, h) := h.act c
    let (vs, h) := h.acts cs
    (v.toList ++ vs, h)

/-- The entry that a call puts in. An insertion without flags has those of the table. -/
def putIn (h : KsHash κ ν) : HashCall κ ν → List (HashEntry κ ν)
  | .insertEx k v flags destructor =>
    [⟨k, v, h.hash k, if flags = {} then h.flags else flags, destructor⟩]
  | .remove _ | .setFlags _ | .setDestructor _ => []

/-- The entries that calls in a row put in. -/
def inserted (h : KsHash κ ν) : List (HashCall κ ν) → List (HashEntry κ ν)
  | [] => []
  | c :: cs => h.putIn c ++ (h.act c).2.inserted cs

/-! ## Entries that leave -/

/-- The entry that is found for a key, if there is one. -/
def found (h : KsHash κ ν) (k : κ) : List (HashEntry κ ν) :=
  ((h.table (indexFor h.tablelength (h.hash k))).find? (h.hits k (h.hash k))).toList

/-- The entry that leaves the table in a call: the one that is removed, or replaced. -/
def leaving (h : KsHash κ ν) : HashCall κ ν → List (HashEntry κ ν)
  | .insertEx k _ flags _ =>
    if (if flags = {} then h.flags else flags).dupCheck then h.found k else []
  | .remove k => h.found k
  | .setFlags _ | .setDestructor _ => []

/-- The entries that leave a table in calls in a row and at its end, each with whether the
    table has a destructor then. There is one at first as `d` says. -/
def departures (h : KsHash κ ν) (d : Bool) : List (HashCall κ ν) → List (HashEntry κ ν × Bool)
  | [] => h.entries.map (·, d)
  | c :: cs => (h.leaving c).map (·, d) ++ (h.act c).2.departures (c.destructorAfter d) cs

theorem dispose_eq (h : KsHash κ ν) (e : HashEntry κ ν) : h.dispose e = fate h.destructor e := rfl

/-- The entries `ins` that have been put in are in the table, or have left it. -/
structure Settles (h : KsHash κ ν) (d : Bool) (ins : List (HashEntry κ ν)) (back : List ν)
    (gone : List (HashEntry κ ν × Bool)) : Prop where
  sound : h.Sound
  destructor : h.destructor = d
  perm : ins ~ h.entries ++ gone.map Prod.fst
  disposals : h.disposals = gone.flatMap fun g => (fate g.2 g.1).2
  back : back.Sublist (gone.filterMap fun g => (fate g.2 g.1).1)

/-- A removal lets the entry leave that it finds. -/
theorem Settles.removeAt (hs : h.Settles d ins back gone) (k : κ) :
    ∃ r h', h.removeAt k (h.hash k) (indexFor h.tablelength (h.hash k)) = (r, h') ∧
      h'.Settles d ins back (gone ++ (h.found k).map (·, d)) ∧
      h'.Settles d ins (back ++ r.toList) (gone ++ (h.found k).map (·, d)) ∧
      h'.keys = h.keys ∧ h'.flags = h.flags ∧ h'.tablelength = h.tablelength := by
  obtain ⟨r, h', hrem, hs', hkeys, hflags, hdestr, hlen, -⟩ :=
    hs.sound.removeAt k (h.hash k) (indexFor h.tablelength (h.hash k))
  refine ⟨r, h', hrem, ?_⟩
  rw [KsHash.removeAt] at hrem
  rw [found, find?_eq_unlink]
  cases hu : unlink (h.hits k (h.hash k)) (h.table (indexFor h.tablelength (h.hash k))) with
  | none =>
    rw [hu] at hrem
    obtain ⟨rfl, rfl⟩ := Prod.ext_iff.1 hrem
    have hgone : gone ++ (Option.map Prod.fst (none : Option (HashEntry κ ν ×
        List (HashEntry κ ν)))).toList.map (·, d) = gone := List.append_nil gone
    rw [hgone]
    exact ⟨hs, by simpa using hs, rfl, rfl, rfl⟩
  | some a =>
    obtain ⟨e, es⟩ := a
    rw [hu] at hrem
    obtain ⟨rfl, rfl⟩ := Prod.ext_iff.1 hrem
    obtain ⟨-, xs, ys, hchain, rfl⟩ := unlink_eq_some hu
    have hleft := Buckets.perm_of_split (Nat.mod_lt _ hs.sound.pos) hchain
    have hperm : ins ~ Buckets.contents h.tablelength (Function.update h.table
        (indexFor h.tablelength (h.hash k)) (xs ++ ys)) ++ (gone ++ [(e, d)]).map Prod.fst := by
      rw [List.map_append, ← List.append_assoc]
      calc
        ins
        _ ~ h.entries ++ gone.map Prod.fst := hs.perm
        _ ~ e :: Buckets.contents h.tablelength (Function.update h.table
              (indexFor h.tablelength (h.hash k)) (xs ++ ys)) ++ gone.map Prod.fst :=
          hleft.append_right _
        _ ~ _ := (List.perm_append_singleton ..).symm
    -- The destructor that disposes of the entry is the one that was set last.
    have hfate : h.dispose e = fate d e := by rw [dispose_eq, hs.destructor]
    have hdisposals : h.disposals ++ (h.dispose e).2 =
        (gone ++ [(e, d)]).flatMap fun g => (fate g.2 g.1).2 := by
      rw [List.flatMap_append, List.flatMap_singleton, ← hs.disposals, hfate]
    have hback : (gone ++ [(e, d)]).filterMap (fun g => (fate g.2 g.1).1) =
        gone.filterMap (fun g => (fate g.2 g.1).1) ++ (h.dispose e).1.toList := by
      rw [List.filterMap_append, hfate]
      congr 1
    refine ⟨⟨hs', hs.destructor, hperm, hdisposals, ?_⟩,
      ⟨hs', hs.destructor, hperm, hdisposals, ?_⟩, rfl, rfl, rfl⟩
    · rw [Option.map_some, Option.toList_some, List.map_singleton, hback]
      exact hs.back.trans (List.sublist_append_left _ _)
    · rw [Option.map_some, Option.toList_some, List.map_singleton, hback]
      exact hs.back.append (.refl _)

theorem expand_disposals (h : KsHash κ ν) : h.expand.disposals = h.disposals := by
  rw [expand]
  split_ifs <;> rfl

theorem grow_disposals (h : KsHash κ ν) : h.grow.disposals = h.disposals := by
  rw [grow]
  split_ifs
  · exact expand_disposals _
  · rfl

/-- An insertion puts an entry in, in the place of one that leaves, if it is to. -/
theorem Settles.insertEx (hs : h.Settles d ins back gone) (k : κ) (v : ν) (flags : HashFlags)
    (destructor : Bool) :
    (h.insertEx k v flags destructor).Settles d (ins ++ h.putIn (.insertEx k v flags destructor))
      back (gone ++ (h.leaving (.insertEx k v flags destructor)).map (·, d)) := by
  obtain ⟨flags', hf⟩ : ∃ f, (if flags = {} then h.flags else flags) = f := ⟨_, rfl⟩
  rw [leaving, hf]
  obtain ⟨gone', hgone⟩ : ∃ g, gone ++ (if flags'.dupCheck then h.found k else []).map (·, d) = g :=
    ⟨_, rfl⟩
  obtain ⟨g, hg, hsg, hkeys, hlen⟩ : ∃ g,
      h.unique k flags' (h.hash k) (indexFor h.tablelength (h.hash k)) = g ∧
        g.Settles d ins back gone' ∧ g.keys = h.keys ∧ g.tablelength = h.tablelength := by
    rw [unique]
    split_ifs at hgone ⊢
    · obtain ⟨r, h', hrem, hs', -, hkeys, -, hlen⟩ := hs.removeAt k
      exact ⟨h', by rw [hrem], hgone ▸ hs', hkeys, hlen⟩
    · rw [List.map_nil, List.append_nil] at hgone
      exact ⟨h, rfl, hgone ▸ hs, rfl, rfl⟩
  have hgrow := hsg.sound.grow
  have hhash : g.grow.hash k = h.hash k := by rw [hash, hash, hgrow.keys, hkeys]
  have hlink := hgrow.sound.entries_link ⟨k, v, h.hash k, flags', destructor⟩
  rw [KsHash.insertEx, insertAt_eq_link hf hg (.inl (by rw [hlen])), putIn, hf, hgone]
  refine ⟨hgrow.sound.link hhash.symm, hgrow.destructor.trans hsg.destructor, ?_,
    (grow_disposals g).trans hsg.disposals, hsg.back⟩
  calc
    ins ++ [⟨k, v, h.hash k, flags', destructor⟩]
    _ ~ ⟨k, v, h.hash k, flags', destructor⟩ :: ins := List.perm_append_singleton ..
    _ ~ ⟨k, v, h.hash k, flags', destructor⟩ :: (g.entries ++ gone'.map Prod.fst) :=
      hsg.perm.cons _
    _ ~ ⟨k, v, h.hash k, flags', destructor⟩ :: (g.grow.entries ++ gone'.map Prod.fst) :=
      (hgrow.entries.symm.append_right _).cons _
    _ ~ _ := hlink.symm.append_right _

/-- A setting puts no entry in, and lets none leave. -/
theorem Settles.set (hs : h.Settles d ins back gone) (flags : HashFlags) (destructor : Bool) :
    Settles { h with flags, destructor } destructor (ins ++ []) (back ++ []) (gone ++ []) := by
  rw [List.append_nil, List.append_nil, List.append_nil]
  exact ⟨⟨hs.sound.placed, hs.sound.hashed, hs.sound.prime, hs.sound.length⟩, rfl, hs.perm,
    hs.disposals, hs.back⟩

theorem Settles.act (hs : h.Settles d ins back gone) (c : HashCall κ ν) :
    (h.act c).2.Settles (c.destructorAfter d) (ins ++ h.putIn c) (back ++ (h.act c).1.toList)
      (gone ++ (h.leaving c).map (·, d)) := by
  cases c with
  | insertEx k v flags destructor =>
    rw [KsHash.act, Option.toList_none, List.append_nil]
    exact hs.insertEx k v flags destructor
  | remove k =>
    obtain ⟨r, h', hrem, -, hs', -⟩ := hs.removeAt k
    rw [KsHash.act, KsHash.remove, hrem, putIn, List.append_nil]
    exact hs'
  | setFlags flags => exact hs.destructor ▸ hs.set flags h.destructor
  | setDestructor destructor => exact hs.set h.flags destructor

/-! ## The end of a table -/

/-- What is left when a table is destroyed leaves it. -/
theorem destroy_eq (h : KsHash κ ν) :
    h.destroy = h.disposals ++ h.entries.flatMap fun e => (h.dispose e).2 := by
  have hchain (ds : List (Disposal κ ν)) (es : List (HashEntry κ ν)) :
      es.foldl (fun ds f => ds ++ (h.dispose f).2) ds =
        ds ++ es.flatMap fun e => (h.dispose e).2 := by
    induction es generalizing ds with
    | nil => simp
    | cons e es ih => rw [List.foldl_cons, ih, List.flatMap_cons, List.append_assoc]
  have hall (ds : List (Disposal κ ν)) (is : List ℕ) :
      is.foldl (fun ds i => (h.table i).foldl (fun ds f => ds ++ (h.dispose f).2) ds) ds =
        ds ++ (is.flatMap h.table).flatMap fun e => (h.dispose e).2 := by
    induction is generalizing ds with
    | nil => simp
    | cons i is ih =>
      rw [List.foldl_cons, hchain, ih, List.flatMap_cons, List.flatMap_append, List.append_assoc]
  exact hall _ _

/-- What has left a table, and what leaves it in the calls to come and at its end. -/
theorem Settles.departures (hs : h.Settles d ins back gone) (cs : List (HashCall κ ν)) :
    (gone ++ h.departures d cs).map Prod.fst ~ ins ++ h.inserted cs ∧
      (h.acts cs).2.destroy = (gone ++ h.departures d cs).flatMap (fun g => (fate g.2 g.1).2) ∧
      (back ++ (h.acts cs).1).Sublist
        ((gone ++ h.departures d cs).filterMap fun g => (fate g.2 g.1).1) := by
  induction cs generalizing h d ins back gone with
  | nil =>
    rw [KsHash.departures, KsHash.inserted, KsHash.acts, List.append_nil, List.append_nil]
    refine ⟨?_, ?_, ?_⟩
    · rw [List.map_append, List.map_map]
      refine (List.perm_append_comm.trans (.of_eq ?_)).trans hs.perm.symm
      congr 1
      exact List.map_id _
    · rw [List.flatMap_append, List.flatMap_map, destroy_eq, hs.disposals]
      simp only [dispose_eq, hs.destructor]
    · rw [List.filterMap_append]
      exact hs.back.trans (List.sublist_append_left _ _)
  | cons c cs ih =>
    have hrest := ih (hs.act c)
    rw [List.append_assoc, List.append_assoc, List.append_assoc] at hrest
    exact hrest

/-- What is freed is what entries with a flag have. -/
theorem flatMap_filter {α : Type*} (f : HashEntry κ ν → α) (p : HashEntry κ ν → Bool)
    (es : List (HashEntry κ ν)) :
    (es.flatMap fun e => if p e then [f e] else []) = (es.filter p).map f := by
  induction es with
  | nil => rfl
  | cons e es ih =>
    rw [List.flatMap_cons, ih, List.filter_cons]
    split_ifs <;> rfl

end KsHash

end Libks
