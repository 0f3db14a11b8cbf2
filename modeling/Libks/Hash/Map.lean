import Libks.Hash.State

/-!
# Hash tables as finite maps

A table with `KS_HASH_FLAG_DUP_CHECK`, in which nothing is disposed of, is a finite
map: after any calls, it has for a key what the last of them for that key says, and
each of its entries stands once in the bucket of its hash value. What is counted is
the number of keys in an `unsigned int`.

* `Holds`: the map that a table holds;
* `Maps.search`, `Maps.removeAt`, `Maps.insert`: what the calls do to it, whatever is done with
  the entries that go. An insertion removes the key, grows the table and links an entry
  (`insertAt_eq_link`);
* `map_calls`: what they do in a row.
-/

namespace Libks

open Base

open scoped List

namespace KsHash

variable {κ ν : Type*} {h : KsHash κ ν} {k l : κ} {v : ν} {e : HashEntry κ ν} {m : List (κ × ν)}

/-- A table that puts every entry where it looks for it. -/
structure Sound (h : KsHash κ ν) : Prop where
  placed : h.Placed
  hashed : ∀ e ∈ h.entries, e.h = h.hash e.k
  prime : h.primeindex < primes.length
  length : h.tablelength = primes.getD h.primeindex 0

/-- The pairs in a table. -/
def pairs (h : KsHash κ ν) : List (κ × ν) := h.entries.map fun e => (e.k, e.v)

/-- A table that is set up for a map, and disposes of nothing. -/
structure Plain (h : KsHash κ ν) : Prop where
  kept : ∀ e ∈ h.entries, h.dispose e = (some e.v, [])
  dupCheck : h.flags.dupCheck
  freeKey : h.flags.freeKey = false
  freeValue : h.flags.freeValue = false
  destructor : h.destructor = false

/-- The map whose pairs a table has, each of them once. -/
structure Maps (h : KsHash κ ν) (m : List (κ × ν)) : Prop where
  sound : h.Sound
  perm : h.pairs ~ m
  apart : h.keys.Apart m
  count : h.entrycount = m.length % 2 ^ 32

/-- The map that a table holds. -/
structure Holds (h : KsHash κ ν) (m : List (κ × ν)) : Prop where
  sound : h.Sound
  plain : h.Plain
  perm : h.pairs ~ m
  apart : h.keys.Apart m
  count : h.entrycount = m.length % 2 ^ 32

theorem Holds.maps (hm : h.Holds m) : h.Maps m := ⟨hm.sound, hm.perm, hm.apart, hm.count⟩

theorem primes_pos : ∀ i < primes.length, 0 < primes.getD i 0 := by decide

/-- The sizes of a table grow. -/
theorem primes_le : ∀ i, i + 1 < primes.length → primes.getD i 0 ≤ primes.getD (i + 1) 0 := by
  have h : ∀ i < primes.length, i + 1 < primes.length →
      primes.getD i 0 ≤ primes.getD (i + 1) 0 := by decide
  exact fun i hi => h i (Nat.lt_of_succ_lt hi) hi

/-- A table has a bucket. -/
theorem Sound.pos (hs : h.Sound) : 0 < h.tablelength := by
  rw [hs.length]
  exact primes_pos _ hs.prime

/-! ## Looking for a key -/

theorem hash_congr (h : KsHash κ ν) (hk : h.keys.same k l) : h.hash k = h.hash l := by
  rw [hash, hash, HashKeys.hash, HashKeys.hash, h.keys.hashfn_eq hk]

/-- Among the entries of a table, those that are looked for are those with the key. -/
theorem hits_iff (hs : h.Sound) (he : e ∈ h.entries) :
    h.hits k (h.hash k) e ↔ h.keys.same k e.k := by
  rw [hits, HashEntry.hits, decide_eq_true_eq]
  refine ⟨fun hk => hk.2, fun hk => ⟨?_, hk⟩⟩
  rw [hs.hashed e he, hash_congr h hk]

/-- The entry of a key is in the bucket where it is looked for. -/
theorem mem_bucket (hs : h.Sound) (he : e ∈ h.entries) (hk : h.keys.same k e.k) :
    e ∈ h.table (indexFor h.tablelength (h.hash k)) := by
  rw [indexFor, hash_congr h hk, ← hs.hashed e he]
  exact (hs.placed.mem_iff hs.pos).1 he

/-- What is in a bucket is in the table. -/
theorem mem_of_bucket (hs : h.Sound) {hashvalue : UInt32}
    (he : e ∈ h.table (indexFor h.tablelength hashvalue)) : e ∈ h.entries :=
  Buckets.mem_contents.2 ⟨_, Nat.mod_lt _ hs.pos, he⟩

theorem mem_pairs {p : κ × ν} : p ∈ h.pairs ↔ ∃ e ∈ h.entries, (e.k, e.v) = p := List.mem_map

/-- No hit in the bucket of a key is no pair in the map. -/
theorem Maps.lookup_eq_none (hm : h.Maps m)
    (hnone : ∀ e ∈ h.table (indexFor h.tablelength (h.hash k)), ¬h.hits k (h.hash k) e) :
    h.keys.lookup k m = none := by
  rw [Keys.lookup_eq_none_iff]
  intro p hp hk
  obtain ⟨e, he, rfl⟩ := mem_pairs.1 (hm.perm.mem_iff.2 hp)
  exact hnone e (mem_bucket hm.sound he hk) ((hits_iff hm.sound he).2 hk)

/-- A hit in the bucket of a key is its pair in the map. -/
theorem Maps.lookup_eq_some (hm : h.Maps m)
    (he : e ∈ h.table (indexFor h.tablelength (h.hash k))) (hhit : h.hits k (h.hash k) e) :
    h.keys.lookup k m = some e.v := by
  have he' := mem_of_bucket hm.sound he
  rw [Keys.lookup_eq_some_iff hm.apart]
  exact ⟨e.k, hm.perm.mem_iff.1 (mem_pairs.2 ⟨e, he', rfl⟩), (hits_iff hm.sound he').1 hhit⟩

/-- A search finds what the map has. -/
theorem Maps.search (hm : h.Maps m) (k : κ) : h.search k = h.keys.lookup k m := by
  rw [KsHash.search, searchAt]
  cases hfind : (h.table (indexFor h.tablelength (h.hash k))).find? (h.hits k (h.hash k)) with
  | none => exact (hm.lookup_eq_none (List.find?_eq_none.1 hfind)).symm
  | some e =>
    exact (hm.lookup_eq_some (List.mem_of_find?_eq_some hfind) (List.find?_some hfind)).symm

/-! ## Removing a key -/

theorem unlink_eq_none {p : HashEntry κ ν → Bool} {es : List (HashEntry κ ν)}
    (hu : unlink p es = none) : ∀ e ∈ es, ¬p e := by
  induction es with
  | nil => exact fun e he => absurd he List.not_mem_nil
  | cons a es ih =>
    rw [unlink] at hu
    split_ifs at hu with hp
    rw [Option.map_eq_none_iff] at hu
    exact List.forall_mem_cons.2 ⟨hp, ih hu⟩

/-- What is unlinked is one entry that matches, and the others stay in their order. -/
theorem unlink_eq_some {p : HashEntry κ ν → Bool} {es es' : List (HashEntry κ ν)}
    (hu : unlink p es = some (e, es')) : p e ∧ ∃ xs ys, es = xs ++ e :: ys ∧ es' = xs ++ ys := by
  induction es generalizing es' with
  | nil => exact absurd hu (Option.some_ne_none _).symm
  | cons a es ih =>
    rw [unlink] at hu
    split_ifs at hu with hp
    · obtain ⟨rfl, rfl⟩ := Prod.ext_iff.1 (Option.some.inj hu)
      exact ⟨hp, [], es, rfl, rfl⟩
    · obtain ⟨⟨x, r⟩, hx, hxe⟩ := Option.map_eq_some_iff.1 hu
      obtain ⟨rfl, rfl⟩ := Prod.ext_iff.1 hxe
      obtain ⟨hpx, xs, ys, rfl, rfl⟩ := ih hx
      exact ⟨hpx, a :: xs, ys, rfl, rfl⟩

/-- The first entry that is looked for is taken out. -/
theorem unlink_of_first {p : HashEntry κ ν → Bool} {xs ys : List (HashEntry κ ν)}
    (hno : ∀ x ∈ xs, ¬p x) (hp : p e) : unlink p (xs ++ e :: ys) = some (e, xs ++ ys) := by
  induction xs with
  | nil => exact if_pos hp
  | cons x xs ih =>
    obtain ⟨hx, hno⟩ := List.forall_mem_cons.1 hno
    rw [List.cons_append, unlink, if_neg hx, ih hno]
    rfl

/-- A chain without some of its entries, as one of the chains of a table. -/
theorem mem_of_unlink {es : List (HashEntry κ ν)} {i : ℕ} (hes : es.Sublist (h.table i)) :
    ∀ e ∈ Buckets.contents h.tablelength (Function.update h.table i es), e ∈ h.entries := by
  intro e he
  obtain ⟨j, hj, he⟩ := Buckets.mem_contents.1 he
  refine Buckets.mem_contents.2 ⟨j, hj, ?_⟩
  by_cases hji : j = i
  · rw [hji, Function.update_self] at he
    exact hji ▸ hes.subset he
  · rwa [Function.update_of_ne hji] at he

/-- A search finds the entry that would be unlinked. -/
theorem find?_eq_unlink (p : HashEntry κ ν → Bool) (es : List (HashEntry κ ν)) :
    es.find? p = (unlink p es).map Prod.fst := by
  induction es with
  | nil => rfl
  | cons a es ih =>
    rw [List.find?_cons, unlink]
    cases p a with
    | true => rfl
    | false =>
      rw [ih, if_neg Bool.false_ne_true, Option.map_map]
      rfl

/-- Removing a key finds no entry of it in the bucket, or takes the first one out. -/
theorem removeAt_cases (h : KsHash κ ν) (k : κ) (hashvalue : UInt32) (index : ℕ) :
    (∀ e ∈ h.table index, ¬h.hits k hashvalue e) ∧ h.removeAt k hashvalue index = (none, h) ∨
    ∃ e xs ys, h.hits k hashvalue e ∧ h.table index = xs ++ e :: ys ∧
      h.removeAt k hashvalue index = ((h.dispose e).1, { h with
        table := Function.update h.table index (xs ++ ys)
        entrycount := decr32 h.entrycount
        disposals := h.disposals ++ (h.dispose e).2 }) := by
  rw [KsHash.removeAt]
  cases hu : unlink (h.hits k hashvalue) (h.table index) with
  | none => exact .inl ⟨unlink_eq_none hu, rfl⟩
  | some r =>
    obtain ⟨e, es⟩ := r
    obtain ⟨hhit, xs, ys, hchain, rfl⟩ := unlink_eq_some hu
    exact .inr ⟨e, xs, ys, hhit, hchain, rfl⟩

/-- Removing a key leaves a sound table, with the other keys. -/
theorem Sound.removeAt (hs : h.Sound) (k : κ) (hashvalue : UInt32) (index : ℕ) :
    ∃ r h', h.removeAt k hashvalue index = (r, h') ∧ h'.Sound ∧ h'.keys = h.keys ∧
      h'.flags = h.flags ∧ h'.destructor = h.destructor ∧ h'.tablelength = h.tablelength ∧
      (∀ e ∈ h'.entries, e ∈ h.entries) ∧
      ∀ e ∈ h.entries, ¬h.keys.same k e.k → e ∈ h'.entries := by
  rcases h.removeAt_cases k hashvalue index with ⟨-, heq⟩ | ⟨e, xs, ys, hhit, hchain, heq⟩
  · exact ⟨_, _, heq, hs, rfl, rfl, rfl, rfl, fun _ he => he, fun _ he _ => he⟩
  · have hsub : (xs ++ ys).Sublist (h.table index) := by
      rw [hchain]
      exact (List.sublist_cons_self e ys).append_left xs
    have hmem := mem_of_unlink hsub
    refine ⟨_, _, heq, ⟨hs.placed.sublist hsub, fun e he => hs.hashed e (hmem e he), hs.prime,
      hs.length⟩, rfl, rfl, rfl, rfl, hmem, fun e' he' hne => ?_⟩
    rcases Nat.lt_or_ge index h.tablelength with hi | hi
    · refine (List.mem_cons.1 ((Buckets.perm_of_split hi hchain).mem_iff.1 he')).resolve_left ?_
      rintro rfl
      exact hne (of_decide_eq_true hhit).2
    · rw [entries, Buckets.contents_update_of_le hi]
      exact he'

/-- Removing a key takes it out of the map, and gives what disposing of its entry leaves. -/
theorem Maps.removeAt (hm : h.Maps m) (k : κ) :
    ∃ r h', h.removeAt k (h.hash k) (indexFor h.tablelength (h.hash k)) = (r, h') ∧
      h'.Maps (h.keys.erase k m) ∧ h'.keys = h.keys ∧ h'.flags = h.flags ∧
      h'.destructor = h.destructor ∧ h'.tablelength = h.tablelength ∧
      (∀ e ∈ h'.entries, e ∈ h.entries) ∧
      (h.keys.lookup k m = none ∧ r = none ∨
        ∃ e ∈ h.entries, h.keys.lookup k m = some e.v ∧ r = (h.dispose e).1) := by
  obtain ⟨_, h', hrem, hs', hkeys, hflags, hdestr, hlen, hmem, -⟩ :=
    hm.sound.removeAt k (h.hash k) (indexFor h.tablelength (h.hash k))
  rcases h.removeAt_cases k (h.hash k) (indexFor h.tablelength (h.hash k)) with
    ⟨hno, heq⟩ | ⟨e, xs, ys, hhit, hchain, heq⟩
  · have hnone := hm.lookup_eq_none hno
    refine ⟨_, _, heq, ?_, rfl, rfl, rfl, rfl, fun _ he => he, .inl ⟨hnone, rfl⟩⟩
    rwa [Keys.erase_of_none hnone]
  · have he : e ∈ h.table (indexFor h.tablelength (h.hash k)) := by rw [hchain]; simp
    have he' := mem_of_bucket hm.sound he
    obtain rfl := (Prod.ext_iff.1 (hrem.symm.trans heq)).2
    -- The entry that is unlinked, and the others.
    have hperm := (Buckets.perm_of_split (Nat.mod_lt _ hm.sound.pos) hchain).map
      fun e : HashEntry κ ν => (e.k, e.v)
    rw [List.map_cons] at hperm
    have herase := Keys.erase_perm hm.apart (hm.perm.symm.trans hperm)
      ((hits_iff hm.sound he').1 hhit)
    have hcount : m.length = (h.keys.erase k m).length + 1 := by
      rw [(hm.perm.symm.trans hperm).length_eq, List.length_cons, herase.length_eq]
    refine ⟨_, _, heq, ⟨hs', herase.symm, hm.apart.erase k, ?_⟩, rfl, rfl, rfl, rfl, hmem,
      .inr ⟨e, he', hm.lookup_eq_some he hhit, rfl⟩⟩
    dsimp only
    rw [hm.count, hcount]
    simpa only [toUInt32] using decr32_toUInt32 (h.keys.erase k m).length

/-- Removing a key gives its value, and takes it out of the map. -/
theorem Holds.removeAt (hm : h.Holds m) (k : κ) :
    ∃ h', h.removeAt k (h.hash k) (indexFor h.tablelength (h.hash k)) =
        (h.keys.lookup k m, h') ∧ h'.Holds (h.keys.erase k m) ∧ h'.keys = h.keys := by
  obtain ⟨r, h', heq, hm', hkeys, hflags, hdestr, -, hmem, hr⟩ := hm.maps.removeAt k
  have hplain : h'.Plain := by
    refine ⟨fun e he => ?_, hflags ▸ hm.plain.dupCheck, hflags ▸ hm.plain.freeKey,
      hflags ▸ hm.plain.freeValue, hdestr ▸ hm.plain.destructor⟩
    have := hm.plain.kept e (hmem e he)
    rwa [dispose, hdestr]
  refine ⟨h', ?_, ⟨hm'.sound, hplain, hm'.perm, hm'.apart, hm'.count⟩, hkeys⟩
  rcases hr with ⟨hnone, rfl⟩ | ⟨e, he, hsome, rfl⟩
  · rw [heq, hnone]
  · rw [heq, hsome, hm.plain.kept e he]

/-- `ks_hash_remove` takes the key out of the map. -/
theorem Holds.remove (hm : h.Holds m) (k : κ) :
    ∃ h', h.remove k = (h.keys.lookup k m, h') ∧ h'.Holds (h.keys.erase k m) ∧
      h'.keys = h.keys := by
  obtain ⟨h', heq, hm', hkeys⟩ := hm.removeAt k
  exact ⟨h', heq, hm', hkeys⟩

/-! ## Inserting a key -/

theorem expand_keys (h : KsHash κ ν) : h.expand.keys = h.keys := by
  rw [expand]
  split_ifs <;> rfl

theorem expand_flags (h : KsHash κ ν) : h.expand.flags = h.flags := by
  rw [expand]
  split_ifs <;> rfl

theorem expand_destructor (h : KsHash κ ν) : h.expand.destructor = h.destructor := by
  rw [expand]
  split_ifs <;> rfl

theorem expand_entrycount (h : KsHash κ ν) : h.expand.entrycount = h.entrycount := by
  rw [expand]
  split_ifs <;> rfl

/-- A table is expanded up to the last prime. -/
theorem prime_of_expand (hs : h.Sound) (hp : h.primeindex ≠ primes.length - 1) :
    h.primeindex + 1 < primes.length := by
  have := hs.prime
  omega

/-- A table that is expanded has the same entries. -/
theorem Sound.entries_expand (hs : h.Sound) : h.expand.entries ~ h.entries := by
  rw [KsHash.expand]
  split_ifs with hp
  · exact .refl _
  · exact Buckets.perm_rehash (primes_pos _ (prime_of_expand hs hp)) _ _

/-- A table that is expanded is sound. -/
theorem Sound.expand (hs : h.Sound) : h.expand.Sound := by
  have hmem : ∀ e, e ∈ h.expand.entries ↔ e ∈ h.entries := fun e => hs.entries_expand.mem_iff
  revert hmem
  rw [KsHash.expand]
  split_ifs with hp
  · exact fun _ => hs
  · intro hmem
    exact ⟨Buckets.placed_rehash _ _ _, fun e he => hs.hashed e ((hmem e).1 he),
      prime_of_expand hs hp, rfl⟩

/-- A table never gets shorter. -/
theorem Sound.length_le_expand (hs : h.Sound) : h.tablelength ≤ h.expand.tablelength := by
  rw [KsHash.expand]
  split_ifs with hp
  · exact Nat.le_refl _
  · rw [hs.length]
    exact primes_le _ (prime_of_expand hs hp)

/-- An entry more is counted, and the table is expanded if these are too many. -/
def grow (h : KsHash κ ν) : KsHash κ ν :=
  if h.loadlimit < incr32 h.entrycount then
    expand { h with entrycount := incr32 h.entrycount }
  else { h with entrycount := incr32 h.entrycount }

/-- What a table that has grown has in common with the one before. -/
structure Grown (h g : KsHash κ ν) : Prop where
  sound : g.Sound
  keys : g.keys = h.keys
  flags : g.flags = h.flags
  destructor : g.destructor = h.destructor
  count : g.entrycount = incr32 h.entrycount
  length : h.tablelength ≤ g.tablelength
  entries : g.entries ~ h.entries

/-- An insertion may expand the table first. -/
theorem Sound.grow (hs : h.Sound) : h.Grown h.grow := by
  have hs' : Sound { h with entrycount := incr32 h.entrycount } :=
    ⟨hs.placed, hs.hashed, hs.prime, hs.length⟩
  rw [KsHash.grow]
  split_ifs
  · exact ⟨hs'.expand, expand_keys _, expand_flags _, expand_destructor _, expand_entrycount _,
      hs'.length_le_expand, hs'.entries_expand⟩
  · exact ⟨hs', rfl, rfl, rfl, rfl, Nat.le_refl _, .refl _⟩

/-- An entry is put in its bucket. -/
def link (h : KsHash κ ν) (e : HashEntry κ ν) : KsHash κ ν :=
  { h with table := Buckets.put (fun e => e.h.toNat) h.tablelength h.table e }

/-- A new entry is linked in front of its bucket. -/
theorem Sound.entries_link (hs : h.Sound) (e : HashEntry κ ν) : (h.link e).entries ~ e :: h.entries :=
  @Buckets.perm_put (HashEntry κ ν) h.tablelength (fun e => e.h.toNat) hs.pos h.table e

/-- It is in the bucket of its hash. -/
theorem Sound.link (hs : h.Sound) (he : e.h = h.hash e.k) : (h.link e).Sound := by
  refine ⟨hs.placed.put e, fun e' he' => ?_, hs.prime, hs.length⟩
  rcases List.mem_cons.1 ((hs.entries_link e).mem_iff.1 he') with rfl | he'
  · exact he
  · exact hs.hashed e' he'

/-- The table that an insertion adds to: without the key, if duplicates are removed. -/
def unique (h : KsHash κ ν) (k : κ) (flags : HashFlags) (hashvalue : UInt32) (index : ℕ) :
    KsHash κ ν :=
  if flags.dupCheck then (h.removeAt k hashvalue index).2 else h

/-- Where an insertion puts its entry: the index is computed again if the table is full. -/
def slot (h : KsHash κ ν) (hashvalue : UInt32) (index : ℕ) : ℕ :=
  if h.loadlimit < incr32 h.entrycount then indexFor h.grow.tablelength hashvalue else index

theorem insertAt_eq {g : KsHash κ ν} {flags flags' : HashFlags} {destructor : Bool}
    {hashvalue : UInt32} {index : ℕ} (hf : (if flags = {} then h.flags else flags) = flags')
    (hg : h.unique k flags' hashvalue index = g) :
    h.insertAt k v flags destructor hashvalue index =
      { g.grow with
        table := Function.update g.grow.table (g.slot hashvalue index)
          (⟨k, v, hashvalue, flags', destructor⟩ :: g.grow.table (g.slot hashvalue index)) } := by
  rw [unique] at hg
  rw [insertAt, slot, grow]
  dsimp only
  rw [hf, hg]

/-- The index of a table of the same length is the one of the bucket; so is the one that is
    computed again. -/
theorem slot_eq {hashvalue : UInt32} {index : ℕ}
    (hi : index = indexFor h.tablelength hashvalue ∨ h.loadlimit < incr32 h.entrycount) :
    h.slot hashvalue index = indexFor h.grow.tablelength hashvalue := by
  rw [slot, grow]
  split_ifs with hfull
  · rfl
  · exact hi.resolve_right hfull

/-- An insertion with such an index puts its entry in its bucket. -/
theorem insertAt_eq_link {g : KsHash κ ν} {flags flags' : HashFlags} {destructor : Bool}
    {hashvalue : UInt32} {index : ℕ} (hf : (if flags = {} then h.flags else flags) = flags')
    (hg : h.unique k flags' hashvalue index = g)
    (hi : index = indexFor g.tablelength hashvalue ∨ g.loadlimit < incr32 g.entrycount) :
    h.insertAt k v flags destructor hashvalue index =
      g.grow.link ⟨k, v, hashvalue, flags', destructor⟩ := by
  rw [insertAt_eq hf hg, slot_eq hi]
  rfl

/-- Inserting a key puts it in the map in place of the one it had, with an entry that has the
    flags of the table. -/
theorem Maps.insert (hm : h.Maps m) (hdup : h.flags.dupCheck) (k : κ) (v : ν) :
    (h.insert k v).Maps ((k, v) :: h.keys.erase k m) ∧ (h.insert k v).keys = h.keys ∧
      (h.insert k v).flags = h.flags ∧ (h.insert k v).destructor = h.destructor ∧
      ∀ e ∈ (h.insert k v).entries, e = ⟨k, v, h.hash k, h.flags, false⟩ ∨ e ∈ h.entries := by
  obtain ⟨_, h', hrem, hm', hkeys, hflags, hdestr, hlen, hmem, -⟩ := hm.removeAt k
  have hapart : h.keys.Apart ((k, v) :: h.keys.erase k m) := hm.apart.cons_erase k v
  have hunique : h' = h.unique k h.flags (h.hash k) (indexFor h.tablelength (h.hash k)) := by
    rw [unique, if_pos hdup, hrem]
  have heq : h.insert k v = h'.grow.link ⟨k, v, h.hash k, h.flags, false⟩ :=
    insertAt_eq_link (if_pos rfl) hunique.symm (.inl (by rw [hlen]))
  have hg := hm'.sound.grow
  have hgkeys : h'.grow.keys = h.keys := hg.keys.trans hkeys
  have hghash : h'.grow.hash k = h.hash k := by rw [hash, hash, hgkeys]
  have hperm := hg.sound.entries_link ⟨k, v, h.hash k, h.flags, false⟩
  rw [heq]
  refine ⟨⟨hg.sound.link hghash.symm, ?_, ?_, ?_⟩, hgkeys, hg.flags.trans hflags,
    hg.destructor.trans hdestr, fun e he => ?_⟩
  · exact (hperm.map _).trans (((hg.entries.map _).trans hm'.perm).cons _)
  · have hlkeys : (h'.grow.link ⟨k, v, h.hash k, h.flags, false⟩).keys = h.keys := hgkeys
    rw [hlkeys]
    exact hapart
  · refine hg.count.trans ?_
    rw [hm'.count, incr32, Nat.mod_add_mod]
    rfl
  · exact (List.mem_cons.1 (hperm.mem_iff.1 he)).imp_right fun he =>
      hmem e (hg.entries.mem_iff.1 he)

/-- Inserting a key puts it in the map in place of the one it had. -/
theorem Holds.insert (hm : h.Holds m) (k : κ) (v : ν) :
    (h.insert k v).Holds ((k, v) :: h.keys.erase k m) ∧ (h.insert k v).keys = h.keys := by
  obtain ⟨hm', hkeys, hflags, hdestr, hmem⟩ := hm.maps.insert hm.plain.dupCheck k v
  refine ⟨⟨hm'.sound, ⟨fun e he => ?_, hflags ▸ hm.plain.dupCheck, hflags ▸ hm.plain.freeKey,
    hflags ▸ hm.plain.freeValue, hdestr.trans hm.plain.destructor⟩, hm'.perm, hm'.apart,
    hm'.count⟩, hkeys⟩
  have hdispose : (h.insert k v).dispose e = h.dispose e := by rw [dispose, dispose, hdestr]
  rw [hdispose]
  rcases hmem e he with rfl | he
  · simp [dispose, HashEntry.dispose, hm.plain.freeKey, hm.plain.freeValue, hm.plain.destructor]
  · exact hm.plain.kept e he

/-! ## Calls in a row -/

/-- A call, and what it returns as a value. -/
def call (h : KsHash κ ν) : Keys.Call κ ν → Option ν × KsHash κ ν
  | .insert k v => (none, h.insert k v)
  | .remove k => h.remove k
  | .search k => (h.search k, h)

/-- The table after calls in a row. -/
def calls (h : KsHash κ ν) (cs : List (Keys.Call κ ν)) : KsHash κ ν :=
  cs.foldl (fun h c => (h.call c).2) h

/-- Each call does to the map what it does to the table. -/
theorem Holds.call (hm : h.Holds m) (c : Keys.Call κ ν) :
    (h.call c).2.Holds (h.keys.apply m c) ∧ (h.call c).2.keys = h.keys := by
  cases c with
  | insert k v => exact hm.insert k v
  | remove k =>
    obtain ⟨h', heq, hm', hkeys⟩ := hm.remove k
    rw [KsHash.call, heq]
    exact ⟨hm', hkeys⟩
  | search k => exact ⟨hm, rfl⟩

theorem calls_concat (h : KsHash κ ν) (cs : List (Keys.Call κ ν)) (c : Keys.Call κ ν) :
    h.calls (cs ++ [c]) = ((h.calls cs).call c).2 := List.foldl_concat ..

/-- After any calls, the table holds what a map has after them. -/
theorem Holds.calls (hm : h.Holds []) (cs : List (Keys.Call κ ν)) :
    (h.calls cs).Holds (h.keys.run cs) ∧ (h.calls cs).keys = h.keys := by
  induction cs using List.reverseRecOn with
  | nil => exact ⟨hm, rfl⟩
  | append_singleton cs c ih =>
    obtain ⟨hcs, hkeys⟩ := ih
    obtain ⟨hc, hckeys⟩ := hcs.call c
    rw [hkeys] at hc hckeys
    rw [calls_concat, Keys.run_concat]
    exact ⟨hc, hckeys⟩

/-- There is a prime for every size that may be asked for. -/
theorem findIdx_primes_lt {size : ℕ} (hs : size ≤ 2 ^ 30) :
    primes.findIdx (size < ·) < primes.length := by
  rw [List.findIdx_lt_length]
  refine ⟨1610612741, by decide, ?_⟩
  rw [decide_eq_true_eq]
  omega

/-- A table that is created is empty. -/
theorem createEx_cases {minsize : ℕ} {keys : HashKeys κ} {flags : HashFlags} {destructor : Bool}
    (hc : createEx minsize keys flags destructor = some h) :
    ∃ size ≤ 2 ^ 30, ∃ rwlock, h = {
      tablelength := primes.getD (primes.findIdx (size < ·)) 53
      primeindex := primes.findIdx (size < ·)
      loadlimit := loadLimit (primes.getD (primes.findIdx (size < ·)) 53)
      keys, flags := { flags with rwlock }, destructor } := by
  rw [createEx] at hc
  dsimp only at hc
  by_cases hsize : 2 ^ 30 < (if minsize = 0 then 16 else minsize)
  · rw [if_pos hsize] at hc
    exact absurd hc (Option.some_ne_none _).symm
  · rw [if_neg hsize] at hc
    refine ⟨_, not_lt.1 hsize, if flags.nolock then false else flags.rwlock, ?_⟩
    rw [← Option.some.inj hc]
    congr 1
    split_ifs <;> rfl

/-- A new table is sound, and has no entries. -/
theorem sound_createEx {minsize : ℕ} {keys : HashKeys κ} {flags : HashFlags} {destructor : Bool}
    (hc : createEx minsize keys flags destructor = some h) : h.Sound ∧ h.entries = [] := by
  obtain ⟨size, hsize, rwlock, rfl⟩ := createEx_cases hc
  have hp := findIdx_primes_lt hsize
  have hempty := @Buckets.contents_nil (HashEntry κ ν)
    (primes.getD (primes.findIdx (size < ·)) 53)
  refine ⟨⟨fun _ _ _ he => absurd he List.not_mem_nil, fun e he => ?_, hp, ?_⟩, hempty⟩
  · rw [entries, hempty] at he
    exact absurd he List.not_mem_nil
  · simp only [List.getD_eq_getElem?_getD, List.getElem?_eq_getElem hp, Option.getD_some]

/-- A new table that is set up for a map holds the empty one. -/
theorem holds_createEx {minsize : ℕ} {keys : HashKeys κ} {flags : HashFlags}
    (hdup : flags.dupCheck) (hkey : flags.freeKey = false) (hvalue : flags.freeValue = false)
    (hc : createEx minsize keys flags false = some h) :
    h.Holds ([] : List (κ × ν)) ∧ h.keys = keys := by
  obtain ⟨hs, hempty⟩ := sound_createEx hc
  obtain ⟨size, -, rwlock, rfl⟩ := createEx_cases hc
  refine ⟨⟨hs, ⟨fun e he => ?_, hdup, hkey, hvalue, rfl⟩, ?_, List.Pairwise.nil, rfl⟩, rfl⟩
  · rw [hempty] at he
    exact absurd he List.not_mem_nil
  · rw [pairs, hempty]
    exact .refl _

/-- **A table is a finite map.** After any calls, it finds and removes what the last of them
    for a key has put there; it counts the keys that it has, modulo `2 ^ 32`; and it has for
    each of them one entry, in the bucket of its hash value. -/
theorem map_calls {minsize : ℕ} {keys : HashKeys κ} {flags : HashFlags}
    (hdup : flags.dupCheck) (hkey : flags.freeKey = false) (hvalue : flags.freeValue = false)
    (hc : createEx minsize keys flags false = some h) (cs : List (Keys.Call κ ν)) :
    (∀ k, (h.calls cs).search k = keys.latest k cs.reverse) ∧
    (∀ k, ((h.calls cs).remove k).1 = keys.latest k cs.reverse) ∧
    (h.calls cs).count = (h.calls cs).entries.length % 2 ^ 32 ∧
    (∀ k v, keys.latest k cs.reverse = some v ↔
      ∃ e ∈ (h.calls cs).entries, keys.same k e.k ∧ e.v = v) ∧
    ((h.calls cs).entries.Pairwise fun e e' => ¬keys.same e.k e'.k) ∧
    (h.calls cs).Placed := by
  obtain ⟨hnew, rfl⟩ := holds_createEx hdup hkey hvalue hc
  obtain ⟨hm, hkeys⟩ := hnew.calls cs
  have hlen : (h.calls cs).entries.length = (h.keys.run cs).length := by
    rw [← hm.perm.length_eq, pairs, List.length_map]
  have hpairs : h.keys.Apart (h.calls cs).pairs := (Keys.apart_run cs).perm hm.perm.symm
  refine ⟨fun k => ?_, fun k => ?_, hlen ▸ hm.count, fun k v => ?_, List.pairwise_map.1 hpairs,
    hm.sound.placed⟩
  · rw [hm.maps.search, hkeys, Keys.lookup_run]
  · obtain ⟨h', heq, -, -⟩ := hm.remove k
    rw [heq, hkeys, Keys.lookup_run]
  · rw [← Keys.lookup_run, ← Keys.lookup_perm hpairs hm.perm, Keys.lookup_eq_some_iff hpairs]
    constructor
    · rintro ⟨l, hl, hkl⟩
      obtain ⟨e, he, heq⟩ := mem_pairs.1 hl
      obtain ⟨rfl, rfl⟩ := Prod.ext_iff.1 heq
      exact ⟨e, he, hkl, rfl⟩
    · rintro ⟨e, he, hke, rfl⟩
      exact ⟨e.k, mem_pairs.2 ⟨e, he, rfl⟩, hke⟩

/-- The flags of a table that is set up for a map. -/
def mapFlags : HashFlags := { dupCheck := true, rwlock := true }

/-- Calls on a table of numbers: a value is replaced, another is removed. -/
theorem map_calls_int : ∃ h : KsHash UInt32 Bool, createEx 16 intKeys mapFlags false = some h ∧
    (h.calls [.insert 7 true, .insert 60 false, .insert 7 false, .remove 60]).search 7 =
      some false ∧
    (h.calls [.insert 7 true, .insert 60 false, .insert 7 false, .remove 60]).search 60 =
      none := by
  obtain ⟨h, hc⟩ : ∃ h : KsHash UInt32 Bool, createEx 16 intKeys mapFlags false = some h :=
    ⟨_, rfl⟩
  have hmap := (map_calls rfl rfl rfl hc
    [.insert 7 true, .insert 60 false, .insert 7 false, .remove 60]).1
  exact ⟨h, hc, hmap 7, hmap 60⟩

theorem apart_ofNat {n : ℕ} (hn : n ≤ 2 ^ 32) :
    ((List.range n).map UInt32.ofNat).Pairwise fun k l => ¬intKeys.same k l := by
  rw [List.pairwise_map]
  refine List.nodup_range.imp_of_mem fun {a b} ha hb hne hs => hne ?_
  have hlt : a < 2 ^ 32 := (List.mem_range.1 ha).trans_le hn
  have hlt' : b < 2 ^ 32 := (List.mem_range.1 hb).trans_le hn
  have heq := congrArg UInt32.toNat (of_decide_eq_true hs)
  rwa [UInt32.toNat_ofNat_of_lt' hlt, UInt32.toNat_ofNat_of_lt' hlt'] at heq

/-- The first numbers are inserted into a table, in a row. -/
theorem count_inserts {h : KsHash UInt32 ν} (hm : h.Holds []) (hkeys : h.keys = intKeys) {n : ℕ}
    (hn : n ≤ 2 ^ 32) (v : ν) :
    (h.calls (((List.range n).map UInt32.ofNat).map fun k => .insert k v)).count = n % 2 ^ 32 ∧
    ∀ k : UInt32, k.toNat < n →
      (h.calls (((List.range n).map UInt32.ofNat).map fun k => .insert k v)).search k =
        some v := by
  obtain ⟨hcs, hkeys'⟩ := hm.calls (((List.range n).map UInt32.ofNat).map fun k => .insert k v)
  rw [hkeys, Keys.run_inserts (apart_ofNat hn)] at hcs
  have hcount := hcs.count
  rw [List.length_reverse, List.length_map, List.length_map, List.length_range] at hcount
  refine ⟨hcount, fun k hk => ?_⟩
  rw [hcs.maps.search, Keys.lookup_eq_some_iff hcs.apart]
  refine ⟨k, List.mem_reverse.2 (List.mem_map.2 ⟨k, List.mem_map.2 ⟨_, List.mem_range.2 hk, ?_⟩,
    rfl⟩), Keys.refl _ k⟩
  exact UInt32.ofNat_toNat

/-- With as many keys as an `unsigned int` has values, a table counts none. -/
theorem count_wraps : ∃ h : KsHash UInt32 Unit, createEx 16 intKeys mapFlags false = some h ∧
    ∃ cs, (∀ k, (h.calls cs).search k = some ()) ∧ (h.calls cs).count = 0 := by
  obtain ⟨h, hc⟩ : ∃ h : KsHash UInt32 Unit, createEx 16 intKeys mapFlags false = some h :=
    ⟨_, rfl⟩
  obtain ⟨hnew, hkeys⟩ := holds_createEx rfl rfl rfl hc
  obtain ⟨hcount, hfind⟩ := count_inserts hnew hkeys (Nat.le_refl _) ()
  exact ⟨h, hc, _, fun k => hfind k k.toNat_lt, hcount⟩

end KsHash

end Libks
