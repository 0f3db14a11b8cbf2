import Libks.Base.CString
import Libks.Hash.Map

/-!
# Tables that ignore case

For `KS_HASH_MODE_CASE_INSENSITIVE`, `ks_hash_create_ex` takes a hash function that
folds letters, and leaves the comparison of keys to the default one, which does not:
keys that differ only in case meet in one bucket and pass each other there.

* `Maps.calls`: what a table holds after calls in a row, whatever it disposes of;
* `caselessFor_iff`: the keys for which the table is a finite map up to case.
-/

namespace Libks

open Base

/-! ## Keys that are strings -/

/-- `ks_tolower`, on a byte: what `_ks_C_tolower_` has for it. -/
def ksTolower (c : UInt8) : UInt8 := if 65 ≤ c ∧ c ≤ 90 then c + 32 else c

/-- The loop of the hash functions for strings. -/
def hashBytes (s : List UInt8) : UInt32 :=
  s.foldl (fun hash c => c.toUInt32 + (hash <<< 6) + (hash <<< 16) - hash) 0

/-- `ks_hash_default`. -/
def ksHashDefault (s : List UInt8) : UInt32 := hashBytes s

/-- `ks_hash_default_ci`. -/
def ksHashDefaultCi (s : List UInt8) : UInt32 := hashBytes (s.map ksTolower)

/-- The values of `ks_hash_mode_t` for keys that are strings. -/
inductive StringMode
  | default
  | caseSensitive
  | caseInsensitive
  deriving DecidableEq, Repr

/-- What `ks_hash_create_ex` sets for a mode when it is given no functions: the comparison is
    `ks_hash_equalkeys` in all of them. -/
def stringKeys (mode : StringMode) : HashKeys (List UInt8) where
  same k l := k = l
  refl _ := decide_eq_true rfl
  symm h := decide_eq_true (of_decide_eq_true h).symm
  trans h h' := decide_eq_true ((of_decide_eq_true h).trans (of_decide_eq_true h'))
  hashfn := match mode with
    | .caseInsensitive => ksHashDefaultCi
    | .default | .caseSensitive => ksHashDefault
  hashfn_eq h := congrArg _ (of_decide_eq_true h)

/-- `ks_hash_create`, in these modes. -/
def ksHashCreate {ν : Type*} (mode : StringMode) (flags : HashFlags) :
    Option (KsHash (List UInt8) ν) :=
  KsHash.createEx 16 (stringKeys mode) flags false

/-- Keys up to the case of their letters. -/
def caseless : Keys (List UInt8) where
  same k l := k.map ksTolower = l.map ksTolower
  refl _ := decide_eq_true rfl
  symm h := decide_eq_true (of_decide_eq_true h).symm
  trans h h' := decide_eq_true ((of_decide_eq_true h).trans (of_decide_eq_true h'))

namespace KsHash

section Calls

variable {κ ν : Type*} {h : KsHash κ ν} {m : List (κ × ν)}

/-! ## Calls on a table with any flags -/

/-- A table whose entries have its flags, and that checks for duplicates. -/
structure Uniform (h : KsHash κ ν) : Prop where
  entries : ∀ e ∈ h.entries, e.flags = h.flags ∧ e.destructor = false
  destructor : h.destructor = false
  dupCheck : h.flags.dupCheck

/-- What a removal returns. -/
theorem Uniform.dispose (hu : h.Uniform) {e : HashEntry κ ν} (he : e ∈ h.entries) :
    (h.dispose e).1 = if h.flags.freeValue then none else some e.v := by
  obtain ⟨hflags, hdestr⟩ := hu.entries e he
  rw [KsHash.dispose, HashEntry.dispose, hflags, hdestr, hu.destructor]
  split_ifs <;> simp_all

theorem Maps.remove (hm : h.Maps m) (hu : h.Uniform) (k : κ) :
    ∃ h', h.remove k = (if h.flags.freeValue then none else h.keys.lookup k m, h') ∧
      h'.Maps (h.keys.erase k m) ∧ h'.Uniform ∧ h'.keys = h.keys ∧ h'.flags = h.flags := by
  obtain ⟨r, h', heq, hm', hkeys, hflags, hdestr, -, hmem, hr⟩ := hm.removeAt k
  refine ⟨h', ?_, hm', ⟨fun e he => ?_, hdestr.trans hu.destructor, ?_⟩, hkeys, hflags⟩
  · rw [KsHash.remove, heq]
    rcases hr with ⟨hnone, rfl⟩ | ⟨e, he, hsome, rfl⟩
    · rw [hnone, ite_self]
    · rw [hsome, hu.dispose he]
  · rw [hflags]
    exact hu.entries e (hmem e he)
  · rw [hflags]
    exact hu.dupCheck

/-- What a call does to the map. -/
theorem Maps.call (hm : h.Maps m) (hu : h.Uniform) (c : Keys.Call κ ν) :
    (h.call c).2.Maps (h.keys.apply m c) ∧ (h.call c).2.Uniform ∧
      (h.call c).2.keys = h.keys ∧ (h.call c).2.flags = h.flags := by
  cases c with
  | insert k v =>
    obtain ⟨hm', hkeys, hflags, hdestr, hmem⟩ := hm.insert hu.dupCheck k v
    refine ⟨hm', ⟨fun e he => ?_, hdestr.trans hu.destructor, ?_⟩, hkeys, hflags⟩
    · have hflags : ((h.call (.insert k v)).2).flags = h.flags := hflags
      rw [hflags]
      rcases hmem e he with rfl | he
      · exact ⟨rfl, rfl⟩
      · exact hu.entries e he
    · have hflags : ((h.call (.insert k v)).2).flags = h.flags := hflags
      rw [hflags]
      exact hu.dupCheck
  | remove k =>
    obtain ⟨h', heq, hm', hu', hkeys, hflags⟩ := hm.remove hu k
    rw [KsHash.call, heq]
    exact ⟨hm', hu', hkeys, hflags⟩
  | search k => exact ⟨hm, hu, rfl, rfl⟩

/-- After any calls, the table holds what a map has after them. -/
theorem Maps.calls (hm : h.Maps []) (hu : h.Uniform) (cs : List (Keys.Call κ ν)) :
    (h.calls cs).Maps (h.keys.run cs) ∧ (h.calls cs).Uniform ∧ (h.calls cs).keys = h.keys ∧
      (h.calls cs).flags = h.flags := by
  induction cs using List.reverseRecOn with
  | nil => exact ⟨hm, hu, rfl, rfl⟩
  | append_singleton cs c ih =>
    obtain ⟨hcs, hucs, hkeys, hflags⟩ := ih
    obtain ⟨hc, huc, hckeys, hcflags⟩ := hcs.call hucs c
    rw [hkeys] at hc
    rw [calls_concat, Keys.run_concat]
    exact ⟨hc, huc, hckeys.trans hkeys, hcflags.trans hflags⟩

/-- A new table holds the empty map. -/
theorem maps_createEx {minsize : ℕ} {keys : HashKeys κ} {flags : HashFlags}
    (hdup : flags.dupCheck) (hc : createEx minsize keys flags false = some h) :
    h.Maps ([] : List (κ × ν)) ∧ h.Uniform ∧ h.keys = keys ∧
      h.flags.freeValue = flags.freeValue := by
  obtain ⟨hs, hempty⟩ := sound_createEx hc
  obtain ⟨size, -, rwlock, rfl⟩ := createEx_cases hc
  refine ⟨⟨hs, ?_, List.Pairwise.nil, rfl⟩, ⟨fun e he => ?_, rfl, hdup⟩, rfl, rfl⟩
  · rw [pairs, hempty]
    exact .refl _
  · rw [hempty] at he
    exact absurd he List.not_mem_nil

end Calls

/-! ## Keys that differ in case -/

variable {ν : Type*} {h : KsHash (List UInt8) ν} {flags : HashFlags} {S : Set (List UInt8)}
  {k l : List UInt8}

/-- For keys in `S` the table is a finite map up to case: after any calls with such keys, a
    search and a removal give what the last call for the key has left, whatever case it was
    in there, and no two entries have keys that differ in case. -/
structure CaselessFor (h : KsHash (List UInt8) ν) (S : Set (List UInt8)) : Prop where
  search : ∀ cs : List (Keys.Call (List UInt8) ν), (∀ c ∈ cs, c.key ∈ S) → ∀ k ∈ S,
    (h.calls cs).search k = caseless.latest k cs.reverse
  remove : ∀ cs : List (Keys.Call (List UInt8) ν), (∀ c ∈ cs, c.key ∈ S) → ∀ k ∈ S,
    ((h.calls cs).remove k).1 =
      if h.flags.freeValue then none else caseless.latest k cs.reverse
  single : ∀ cs : List (Keys.Call (List UInt8) ν), (∀ c ∈ cs, c.key ∈ S) →
    (h.calls cs).entries.Pairwise fun e e' => ¬caseless.same e.k e'.k

/-- A search in a table with strings as keys finds what was left for that very string. -/
theorem search_calls {mode : StringMode} (hdup : flags.dupCheck)
    (hc : ksHashCreate mode flags = some h) (cs : List (Keys.Call (List UInt8) ν)) :
    (h.calls cs).search k = (stringKeys mode).latest k cs.reverse := by
  obtain ⟨hm, hu, hkeys, -⟩ := maps_createEx hdup hc
  obtain ⟨hcs, -, hckeys, -⟩ := hm.calls hu cs
  rw [hcs.search, hckeys, Keys.lookup_run, hkeys]

theorem caseless_same : caseless.same k l ↔ k.map ksTolower = l.map ksTolower :=
  decide_eq_true_iff

theorem stringKeys_same {mode : StringMode} : (stringKeys mode).same k l ↔ k = l :=
  decide_eq_true_iff

/-- A table created to ignore case does so for keys of which no two differ only in case, and
    for no others. -/
theorem caselessFor_iff [Inhabited ν] (hdup : flags.dupCheck)
    (hc : ksHashCreate .caseInsensitive flags = some h) :
    h.CaselessFor S ↔ ∀ k ∈ S, ∀ l ∈ S, caseless.same k l → k = l := by
  constructor
  · intro hS k hk l hl hkl
    by_contra hne
    -- A key is inserted, and searched for in the other case.
    have hfind := hS.search [.insert k default] (by simpa [Keys.Call.key] using hk) l hl
    have hother : ¬(stringKeys .caseInsensitive).same k l := fun h => hne (stringKeys_same.1 h)
    have hleft : caseless.latest l [.insert k (default : ν)] = some default := if_pos hkl
    rw [search_calls hdup hc, List.reverse_singleton, hleft, Keys.latest, if_neg hother] at hfind
    exact Option.some_ne_none _ hfind.symm
  · intro hS
    obtain ⟨hm, hu, hkeys, -⟩ := maps_createEx hdup hc
    have hsame {k l : List UInt8} (hk : k ∈ S) (hl : l ∈ S) :
        (stringKeys .caseInsensitive).same k l = caseless.same k l := by
      rw [Bool.eq_iff_iff, stringKeys_same]
      exact ⟨fun h => caseless_same.2 (congrArg _ h), hS k hk l hl⟩
    have hlatest (cs : List (Keys.Call (List UInt8) ν)) (hcs : ∀ c ∈ cs, c.key ∈ S)
        {k : List UInt8} (hk : k ∈ S) :
        h.keys.latest k cs.reverse = caseless.latest k cs.reverse := by
      rw [hkeys]
      exact Keys.latest_congr fun c hc => hsame (hcs c (List.mem_reverse.1 hc)) hk
    refine ⟨fun cs hcs k hk => ?_, fun cs hcs k hk => ?_, fun cs hcs => ?_⟩
    · obtain ⟨hm', -, hkeys', -⟩ := hm.calls hu cs
      rw [hm'.search, hkeys', Keys.lookup_run, hlatest cs hcs hk]
    · obtain ⟨hm', hu', hkeys', hflags'⟩ := hm.calls hu cs
      obtain ⟨h', heq, -⟩ := hm'.remove hu' k
      rw [heq, hkeys', hflags', Keys.lookup_run, hlatest cs hcs hk]
    · obtain ⟨hm', -, hkeys', -⟩ := hm.calls hu cs
      have hmem {e : HashEntry (List UInt8) ν} (he : e ∈ (h.calls cs).entries) : e.k ∈ S := by
        obtain ⟨c, hc, hkey⟩ :=
          Keys.exists_of_mem_run (hm'.perm.mem_iff.1 (mem_pairs.2 ⟨e, he, rfl⟩))
        have hkey : c.key = e.k := hkey
        rw [← hkey]
        exact hcs c hc
      have hapart := List.pairwise_map.1 (hm'.apart.perm hm'.perm.symm)
      refine hapart.imp_of_mem fun {e e'} he he' hne hs => hne ?_
      rw [hkeys', hkeys]
      rwa [hsame (hmem he) (hmem he')]

/-- Calls on a table whose keys are the names of headers. -/
theorem caselessFor_names : ∃ h : KsHash (List UInt8) ℕ,
    ksHashCreate .caseInsensitive mapFlags = some h ∧
      h.CaselessFor {ascii "Host", ascii "Date"} := by
  obtain ⟨h, hc⟩ : ∃ h : KsHash (List UInt8) ℕ,
      ksHashCreate .caseInsensitive mapFlags = some h := ⟨_, rfl⟩
  refine ⟨h, hc, (caselessFor_iff rfl hc).2 ?_⟩
  simp only [Set.mem_insert_iff, Set.mem_singleton_iff, forall_eq_or_imp, forall_eq]
  decide

/-- A key is not found in the other case. -/
theorem not_caselessFor : ∃ h : KsHash (List UInt8) ℕ,
    ksHashCreate .caseInsensitive mapFlags = some h ∧
      (h.calls [.insert (ascii "Host") 1]).search (ascii "host") = none ∧
      ¬h.CaselessFor Set.univ := by
  obtain ⟨h, hc⟩ : ∃ h : KsHash (List UInt8) ℕ,
      ksHashCreate .caseInsensitive mapFlags = some h := ⟨_, rfl⟩
  have hfind : (h.calls [.insert (ascii "Host") 1]).search (ascii "host") = none := by
    rw [search_calls rfl hc]
    rfl
  refine ⟨h, hc, hfind, fun hS => ?_⟩
  have hfound := hS.search [.insert (ascii "Host") 1] (fun _ _ => trivial) (ascii "host") trivial
  rw [hfind] at hfound
  exact Option.some_ne_none 1 hfound.symm

end KsHash

end Libks
