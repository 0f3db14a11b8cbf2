import Libks.Base.Calls
import Libks.Base.Threads
import Libks.Hash.Map

/-!
# Threads on a hash table

An insertion and a search compute the index of a bucket before they wait for the
lock; a removal computes it after that. Another thread may expand the table in between,
and the index is then one of the shorter table: an entry is put in another bucket than
the one of its hash value, where nobody looks for it, and a search looks in another
bucket than the one its entry is in.

* `always_right_iff`: in a run, every entry is in its bucket and every search finds its
  key if and only if no index that is used has become stale. An insertion into a table
  that is full computes its index again.
-/

namespace Libks

open Base

/-- Where a thread is: outside of the functions, or before the lock, with what it has
    computed. -/
inductive HashPoint (κ ν : Type)
  | out
  | insert (k : κ) (v : ν) (flags : HashFlags) (destructor : Bool) (hashvalue : UInt32)
      (index : ℕ)
  | remove (k : κ) (hashvalue : UInt32)
  | search (k : κ) (hashvalue : UInt32) (index : ℕ)

/-- What a search has found for a thread, which has the lock for reading since. -/
structure Reading (κ ν : Type) where
  tid : ℕ
  k : κ
  value : Option ν

/-- A table, its threads, and what has been done to it under the lock, the last first. -/
structure HashSys (κ ν : Type) where
  h : KsHash κ ν
  threads : Threads (HashPoint κ ν) := []
  reading : List (Reading κ ν) := []
  past : List (Keys.Call κ ν) := []

/-- A thread is created, calls a function and comes to the lock, is given the lock, or gives
    up a lock for reading. -/
inductive HashStep (κ ν : Type)
  | create (t : ℕ)
  | insert (t : ℕ) (k : κ) (v : ν) (flags : HashFlags) (destructor : Bool)
  | remove (t : ℕ) (k : κ)
  | search (t : ℕ) (k : κ)
  | lock (t : ℕ)
  | readUnlock (t : ℕ)

namespace HashSys

variable {κ ν : Type} {s s' : HashSys κ ν} {t : ℕ} {k l : κ} {v : ν}

/-- A thread that is outside of the functions goes to a point before the lock. -/
def call (s : HashSys κ ν) (t : ℕ) (pc : HashPoint κ ν) : Option (HashSys κ ν) :=
  match s.threads.pcOf t with
  | some .out => some { s with threads := s.threads.goto t pc }
  | _ => none

/-- What a thread does that is given the lock. A lock for writing is given when no thread has
    it for reading. -/
def locked (s : HashSys κ ν) (t : ℕ) : Option (HashSys κ ν) :=
  match s.threads.pcOf t, s.reading with
  | some (.insert k v flags destructor hashvalue index), [] =>
    some { s with
      h := s.h.insertAt k v flags destructor hashvalue index
      threads := s.threads.goto t .out
      past := .insert k v :: s.past }
  | some (.remove k hashvalue), [] =>
    some { s with
      h := (s.h.removeAt k hashvalue (indexFor s.h.tablelength hashvalue)).2
      threads := s.threads.goto t .out
      past := .remove k :: s.past }
  | some (.search k hashvalue index), reading =>
    some { s with
      threads := s.threads.goto t .out
      reading := ⟨t, k, s.h.searchAt k hashvalue index⟩ :: reading
      past := .search k :: s.past }
  | _, _ => none

/-- A step of a thread, if it can be taken. -/
def step (s : HashSys κ ν) : HashStep κ ν → Option (HashSys κ ν)
  | .create t =>
    if t ∈ s.threads.tids then none else some { s with threads := ⟨t, .out⟩ :: s.threads }
  | .insert t k v flags destructor =>
    s.call t (.insert k v flags destructor (s.h.hash k) (indexFor s.h.tablelength (s.h.hash k)))
  | .remove t k => s.call t (.remove k (s.h.hash k))
  | .search t k =>
    -- A search for reading needs a lock that can be had for reading.
    if s.h.flags.rwlock then
      s.call t (.search k (s.h.hash k) (indexFor s.h.tablelength (s.h.hash k)))
    else none
  | .lock t => s.locked t
  | .readUnlock t =>
    match s.threads.pcOf t with
    | some .out =>
      if s.reading.any (·.tid = t) then
        some { s with reading := s.reading.eraseP (·.tid = t) }
      else none
    | _ => none

/-- Every entry is in its bucket, and what is inserted and not removed has been found. While a
    thread reads, nothing is inserted or removed. -/
structure Right (s : HashSys κ ν) : Prop where
  placed : s.h.Placed
  found : ∀ r ∈ s.reading, s.h.keys.latest r.k s.past ≠ none → r.value ≠ none

/-- The index that a thread uses under the lock is the one of the bucket, or it does not
    matter: the table is full and the index computed again, or there is nothing to find. -/
def FreshAt (s : HashSys κ ν) : HashPoint κ ν → Prop
  | .insert _ _ _ _ hashvalue index => s.reading = [] →
    index = indexFor s.h.tablelength hashvalue ∨ s.h.loadlimit < incr32 s.h.entrycount
  | .search k hashvalue index =>
    s.h.keys.latest k s.past = none ∨ index = indexFor s.h.tablelength hashvalue
  | .out | .remove _ _ => True

/-- A step uses no stale index. -/
def Fresh (s : HashSys κ ν) : HashStep κ ν → Prop
  | .lock t => ∀ pc ∈ s.threads.pcOf t, s.FreshAt pc
  | _ => True

instance (s : HashSys κ ν) : DecidablePred s.FreshAt
  | .insert _ _ _ _ _ _ => inferInstanceAs (Decidable (_ → _ ∨ _))
  | .search _ _ _ => inferInstanceAs (Decidable (_ ∨ _))
  | .out | .remove _ _ => .isTrue trivial

instance (s : HashSys κ ν) : DecidablePred s.Fresh
  | .lock t => inferInstanceAs (Decidable (∀ pc ∈ s.threads.pcOf t, s.FreshAt pc))
  | .create _ | .insert _ _ _ _ _ | .remove _ _ | .search _ _ | .readUnlock _ => .isTrue trivial

end HashSys

/-! ## Indices -/

namespace KsHash

variable {κ ν : Type} {h : KsHash κ ν} {k : κ} {v : ν} {flags : HashFlags} {destructor : Bool}
  {index : ℕ} {e : HashEntry κ ν}

/-- In another bucket than that of a hash value there is no entry that has it. -/
theorem not_hits_of_stale (hs : h.Sound) (hi : index < h.tablelength)
    (hne : index ≠ indexFor h.tablelength (h.hash k)) (he : e ∈ h.table index) :
    ¬h.hits k (h.hash k) e := by
  intro hhit
  have hplace : e.h.toNat % h.tablelength = index := hs.placed index hi e he
  rw [← (of_decide_eq_true hhit).1] at hplace
  exact hne hplace.symm

/-- An insertion with a stale index removes nothing. -/
theorem unique_of_stale (hs : h.Sound) (hi : index < h.tablelength)
    (hne : index ≠ indexFor h.tablelength (h.hash k)) :
    h.unique k flags (h.hash k) index = h := by
  rw [unique]
  split_ifs with hdup
  · rcases h.removeAt_cases k (h.hash k) index with ⟨-, heq⟩ | ⟨e, xs, ys, hhit, hchain, -⟩
    · rw [heq]
    · refine absurd hhit (not_hits_of_stale hs hi hne ?_)
      rw [hchain]
      exact List.mem_append_right _ (List.mem_cons_self ..)
  · rfl

/-- An insertion removes an entry of its key at most. -/
theorem Sound.unique (hs : h.Sound) (k : κ) (flags : HashFlags) (hashvalue : UInt32)
    (index : ℕ) :
    (h.unique k flags hashvalue index).Sound ∧
    (h.unique k flags hashvalue index).keys = h.keys ∧
    (h.unique k flags hashvalue index).flags = h.flags ∧
    (h.unique k flags hashvalue index).tablelength = h.tablelength ∧
    ∀ e ∈ h.entries, ¬h.keys.same k e.k → e ∈ (h.unique k flags hashvalue index).entries := by
  rw [KsHash.unique]
  split_ifs with hdup
  · obtain ⟨r, h', heq, hs', hkeys, hflags, -, hlen, -, hrest⟩ :=
      hs.removeAt k hashvalue index
    rw [heq]
    exact ⟨hs', hkeys, hflags, hlen, hrest⟩
  · exact ⟨hs, rfl, rfl, rfl, fun e he _ => he⟩

/-- An insertion with the index of the bucket, or into a full table, puts its entry in its
    bucket, and keeps the entries of other keys. -/
theorem Sound.insertAt (hs : h.Sound) (hi : index < h.tablelength)
    (hfresh : index = indexFor h.tablelength (h.hash k) ∨ h.loadlimit < incr32 h.entrycount) :
    (h.insertAt k v flags destructor (h.hash k) index).Sound ∧
    (h.insertAt k v flags destructor (h.hash k) index).keys = h.keys ∧
    (h.insertAt k v flags destructor (h.hash k) index).flags = h.flags ∧
    h.tablelength ≤ (h.insertAt k v flags destructor (h.hash k) index).tablelength ∧
    (∃ e ∈ (h.insertAt k v flags destructor (h.hash k) index).entries, e.k = k) ∧
    ∀ e ∈ h.entries, ¬h.keys.same k e.k →
      e ∈ (h.insertAt k v flags destructor (h.hash k) index).entries := by
  obtain ⟨flags', hf⟩ : ∃ f, (if flags = {} then h.flags else flags) = f := ⟨_, rfl⟩
  obtain ⟨hg, hkeys, hflags, hlen, hrest⟩ := hs.unique k flags' (h.hash k) index
  obtain ⟨g, hu⟩ : ∃ g, h.unique k flags' (h.hash k) index = g := ⟨_, rfl⟩
  rw [hu] at hg hkeys hflags hlen hrest
  have hindex : index = indexFor g.tablelength (h.hash k) ∨ g.loadlimit < incr32 g.entrycount := by
    rw [hlen]
    by_cases heq : index = indexFor h.tablelength (h.hash k)
    · exact .inl heq
    · rw [unique_of_stale hs hi heq] at hu
      exact .inr (hu ▸ hfresh.resolve_left heq)
  rw [insertAt_eq_link hf hu hindex]
  have hgrow := hg.grow
  have hhash : g.grow.hash k = h.hash k := by rw [hash, hash, hgrow.keys, hkeys]
  have hperm := hgrow.sound.entries_link ⟨k, v, h.hash k, flags', destructor⟩
  refine ⟨hgrow.sound.link hhash.symm, hgrow.keys.trans hkeys, hgrow.flags.trans hflags,
    hlen ▸ hgrow.length, ⟨_, hperm.mem_iff.2 (List.mem_cons_self ..), rfl⟩, fun e he hne => ?_⟩
  exact hperm.mem_iff.2 (List.mem_cons_of_mem _ (hgrow.entries.mem_iff.2 (hrest e he hne)))

/-- An insertion with a stale index into a table that is not full puts its entry in another
    bucket. -/
theorem not_placed_insertAt (hs : h.Sound) (hi : index < h.tablelength)
    (hne : index ≠ indexFor h.tablelength (h.hash k)) (hfull : ¬h.loadlimit < incr32 h.entrycount) :
    ¬(h.insertAt k v flags destructor (h.hash k) index).Placed := by
  rw [insertAt_eq rfl (unique_of_stale hs hi hne), slot, if_neg hfull, grow, if_neg hfull]
  intro hplaced
  have hmem := hplaced index hi ⟨k, v, h.hash k, _, destructor⟩ (by
    dsimp only
    rw [Function.update_self]
    exact List.mem_cons_self ..)
  exact hne hmem.symm

/-- A search with the index of the bucket finds a key that has an entry. -/
theorem searchAt_ne_none (hs : h.Sound) (he : e ∈ h.entries) (hk : h.keys.same k e.k) :
    h.searchAt k (h.hash k) (indexFor h.tablelength (h.hash k)) ≠ none := by
  rw [searchAt, Ne, Option.map_eq_none_iff, List.find?_eq_none]
  exact fun hno => hno e (mem_bucket hs he hk) ((hits_iff hs he).2 hk)

/-- A search with a stale index finds nothing. -/
theorem searchAt_of_stale (hs : h.Sound) (hi : index < h.tablelength)
    (hne : index ≠ indexFor h.tablelength (h.hash k)) : h.searchAt k (h.hash k) index = none := by
  rw [searchAt, Option.map_eq_none_iff, List.find?_eq_none]
  exact fun e he => not_hits_of_stale hs hi hne he

end KsHash

/-! ## Runs -/

namespace HashPoint

variable {κ ν : Type} {h h' : KsHash κ ν} {pc : HashPoint κ ν}

/-- What a thread has computed before the lock is the hash value of its key and an index of a
    bucket. -/
def Pending (h : KsHash κ ν) : HashPoint κ ν → Prop
  | .out => True
  | .insert k _ _ _ hashvalue index => hashvalue = h.hash k ∧ index < h.tablelength
  | .remove k hashvalue => hashvalue = h.hash k
  | .search k hashvalue index => hashvalue = h.hash k ∧ index < h.tablelength

/-- An index of a bucket stays one when the table gets longer. -/
theorem Pending.mono (hp : pc.Pending h) (hkeys : h'.keys = h.keys)
    (hlen : h.tablelength ≤ h'.tablelength) : pc.Pending h' := by
  have hhash (k : κ) : h'.hash k = h.hash k := by rw [KsHash.hash, KsHash.hash, hkeys]
  cases pc with
  | out => trivial
  | insert k v flags destructor hashvalue index =>
    exact ⟨hp.1.trans (hhash k).symm, hp.2.trans_le hlen⟩
  | remove k hashvalue => exact Eq.trans hp (hhash k).symm
  | search k hashvalue index => exact ⟨hp.1.trans (hhash k).symm, hp.2.trans_le hlen⟩

end HashPoint

namespace HashSys

variable {κ ν : Type} {s s' : HashSys κ ν} {t : ℕ} {k l : κ} {v : ν} {a : HashStep κ ν}
  {pc pc' : HashPoint κ ν}

/-- The table is sound, threads wait with what they have computed for it, and what has been
    inserted and not removed has an entry. -/
structure Ordered (s : HashSys κ ν) : Prop where
  sound : s.h.Sound
  tids : s.threads.tids.Nodup
  pending : ∀ th ∈ s.threads, th.pc.Pending s.h
  present : ∀ k, s.h.keys.latest k s.past ≠ none → ∃ e ∈ s.h.entries, s.h.keys.same k e.k
  found : ∀ r ∈ s.reading, s.h.keys.latest r.k s.past ≠ none → r.value ≠ none

theorem Ordered.right (hs : s.Ordered) : s.Right := ⟨hs.sound.placed, hs.found⟩

/-- A thread goes on, with another table. -/
theorem Ordered.pending_goto {h' : KsHash κ ν} (hs : s.Ordered) (ht : s.threads.pcOf t = some pc)
    (hp : pc'.Pending h') (hkeys : h'.keys = s.h.keys) (hlen : s.h.tablelength ≤ h'.tablelength) :
    ∀ th ∈ s.threads.goto t pc', th.pc.Pending h' := by
  intro th hth
  rcases (Threads.mem_goto hs.tids ht).1 hth with rfl | ⟨hth, -⟩
  · exact hp
  · exact (hs.pending th hth).mono hkeys hlen

/-- A thread that comes to the lock changes nothing else. -/
theorem Ordered.call (hs : s.Ordered) (hp : pc.Pending s.h) (hc : s.call t pc = some s') :
    s'.Ordered := by
  rw [HashSys.call] at hc
  split at hc
  · rename_i ht
    obtain rfl := Option.some.inj hc
    exact ⟨hs.sound, (Threads.tids_goto hs.tids ht).symm ▸ hs.tids,
      hs.pending_goto ht hp rfl (Nat.le_refl _), hs.present, hs.found⟩
  · exact absurd hc (Option.some_ne_none _).symm

/-- The table that a thread leaves which has had it for writing. -/
theorem Ordered.written {h' : KsHash κ ν} {c : Keys.Call κ ν} (hs : s.Ordered)
    (ht : s.threads.pcOf t = some pc) (hsound : h'.Sound) (hkeys : h'.keys = s.h.keys)
    (hlen : s.h.tablelength ≤ h'.tablelength) (hreading : s.reading = [])
    (hpresent : ∀ k, s.h.keys.latest k (c :: s.past) ≠ none →
      ∃ e ∈ h'.entries, s.h.keys.same k e.k) :
    Ordered { s with h := h', threads := s.threads.goto t .out, past := c :: s.past } := by
  refine ⟨hsound, (Threads.tids_goto hs.tids ht).symm ▸ hs.tids,
    hs.pending_goto ht trivial hkeys hlen, hkeys ▸ hpresent, fun r hr => ?_⟩
  rw [hreading] at hr
  exact absurd hr List.not_mem_nil

/-- The lock, with an index that is not stale, keeps the order. -/
theorem Ordered.locked (hs : s.Ordered) (hf : s.Fresh (.lock t)) (hl : s.locked t = some s') :
    s'.Ordered := by
  rw [HashSys.locked] at hl
  split at hl
  · rename_i k v flags destructor hashvalue index ht hreading
    obtain rfl := Option.some.inj hl
    obtain ⟨rfl, hi⟩ := hs.pending _ (Threads.mem_of_pcOf ht)
    obtain ⟨hsound, hkeys, -, hlen, ⟨e, he, hek⟩, hrest⟩ :=
      hs.sound.insertAt hi (hf _ ht hreading)
    refine hs.written ht hsound hkeys hlen hreading fun l hl => ?_
    rw [Keys.latest] at hl
    by_cases hkl : s.h.keys.same k l
    · exact ⟨e, he, s.h.keys.symm (hek ▸ hkl)⟩
    · rw [if_neg hkl] at hl
      obtain ⟨e', he', hle'⟩ := hs.present l hl
      exact ⟨e', hrest e' he' fun hke' => hkl (s.h.keys.trans hke' (s.h.keys.symm hle')), hle'⟩
  · rename_i k hashvalue ht hreading
    obtain rfl := Option.some.inj hl
    obtain ⟨_, h', heq, hsound, hkeys, -, -, hlen, -, hrest⟩ :=
      hs.sound.removeAt k hashvalue (indexFor s.h.tablelength hashvalue)
    rw [heq]
    refine hs.written ht hsound hkeys hlen.ge hreading fun l hl => ?_
    rw [Keys.latest] at hl
    by_cases hkl : s.h.keys.same k l
    · rw [if_pos hkl] at hl
      exact absurd rfl hl
    · rw [if_neg hkl] at hl
      obtain ⟨e', he', hle'⟩ := hs.present l hl
      exact ⟨e', hrest e' he' fun hke' => hkl (s.h.keys.trans hke' (s.h.keys.symm hle')), hle'⟩
  · rename_i reading k hashvalue index ht
    obtain rfl := Option.some.inj hl
    obtain ⟨rfl, -⟩ := hs.pending _ (Threads.mem_of_pcOf ht)
    refine ⟨hs.sound, (Threads.tids_goto hs.tids ht).symm ▸ hs.tids,
      hs.pending_goto ht trivial rfl (Nat.le_refl _), hs.present, fun r hr hlatest => ?_⟩
    rcases List.mem_cons.1 hr with rfl | hr
    · obtain ⟨e, he, hke⟩ := hs.present k hlatest
      obtain rfl := (hf _ ht).resolve_left hlatest
      exact KsHash.searchAt_ne_none hs.sound he hke
    · exact hs.found r hr hlatest
  · exact absurd hl (Option.some_ne_none _).symm

/-- A step that uses no stale index keeps the order. -/
theorem Ordered.step (hs : s.Ordered) (hf : s.Fresh a) (hstep : s.step a = some s') :
    s'.Ordered := by
  cases a with
  | create t =>
    rw [HashSys.step] at hstep
    split_ifs at hstep with ht
    obtain rfl := Option.some.inj hstep
    exact ⟨hs.sound, List.nodup_cons.2 ⟨ht, hs.tids⟩, List.forall_mem_cons.2 ⟨trivial, hs.pending⟩,
      hs.present, hs.found⟩
  | insert t k v flags destructor =>
    refine hs.call ?_ hstep
    exact ⟨rfl, Nat.mod_lt _ hs.sound.pos⟩
  | remove t k =>
    refine hs.call ?_ hstep
    exact (rfl : s.h.hash k = s.h.hash k)
  | search t k =>
    rw [HashSys.step] at hstep
    split_ifs at hstep
    refine hs.call ?_ hstep
    exact ⟨rfl, Nat.mod_lt _ hs.sound.pos⟩
  | lock t => exact hs.locked hf hstep
  | readUnlock t =>
    rw [HashSys.step] at hstep
    split at hstep
    · split_ifs at hstep
      obtain rfl := Option.some.inj hstep
      exact ⟨hs.sound, hs.tids, hs.pending, hs.present, fun r hr => hs.found r
        (List.mem_of_mem_eraseP hr)⟩
    · exact absurd hstep (Option.some_ne_none _).symm

/-- A stale index that is used loses an entry, or does not find one. -/
theorem Ordered.not_right (hs : s.Ordered) (hf : ¬s.Fresh a) :
    ∃ s', s.step a = some s' ∧ ¬s'.Right := by
  cases a with
  | lock t =>
    obtain ⟨pc, hpc⟩ := not_forall.1 hf
    obtain ⟨ht, hf⟩ := Classical.not_imp.1 hpc
    rw [HashSys.step, HashSys.locked]
    cases pc with
    | insert k v flags destructor hashvalue index =>
      obtain ⟨hreading, hf⟩ := Classical.not_imp.1 hf
      obtain ⟨hne, hfull⟩ := not_or.1 hf
      obtain ⟨rfl, hi⟩ := hs.pending _ (Threads.mem_of_pcOf ht)
      rw [ht, hreading]
      exact ⟨_, rfl, fun hr => KsHash.not_placed_insertAt hs.sound hi hne hfull hr.placed⟩
    | search k hashvalue index =>
      obtain ⟨hlatest, hne⟩ := not_or.1 hf
      obtain ⟨rfl, hi⟩ := hs.pending _ (Threads.mem_of_pcOf ht)
      rw [ht]
      refine ⟨_, rfl, fun hr => ?_⟩
      exact hr.found _ (List.mem_cons_self ..) hlatest (KsHash.searchAt_of_stale hs.sound hi hne)
    | out | remove => exact absurd trivial hf
  | create | insert | remove | search | readUnlock => exact absurd trivial hf

/-- In a run from a new table, every entry is in its bucket and what is inserted and not removed
    is found if and only if no index is used that has become stale. -/
theorem always_right_iff {h : KsHash κ ν} {minsize : ℕ} {keys : HashKeys κ} {flags : HashFlags}
    {destructor : Bool}
    (hc : KsHash.createEx minsize keys { flags with nolock := false } destructor = some h)
    (steps : List (HashStep κ ν)) :
    Always (blocking step) Right { h := h } steps ↔ Along (blocking step) Fresh { h := h } steps := by
  have hordered : Ordered { h := h } :=
    ⟨(KsHash.sound_createEx hc).1, List.nodup_nil, fun _ hth => absurd hth List.not_mem_nil,
      fun _ hl => absurd rfl hl, fun _ hr => absurd hr List.not_mem_nil⟩
  refine always_iff_along (fun _ hs => hs.right)
    (fun s a _ s' hs _ hf hstep => hs.step hf (blocking_eq_ok.1 hstep)) (fun s a hs _ hf => ?_)
    hordered (Along.of_forall (P := fun _ _ => True) (fun _ _ => trivial) _ _)
  obtain ⟨s', hstep, hr⟩ := hs.not_right hf
  exact ⟨(), s', blocking_eq_ok.2 hstep, hr⟩

/-- A thread that finds what another has inserted. -/
theorem always_right_two : ∃ h, KsHash.createEx 16 intKeys { rwlock := true } false = some h ∧
    Always (blocking step) Right { h := h } [.create 1, .create 2, .insert 1 7 true {} false,
      .search 2 60, .lock 1, .lock 2, .readUnlock 2, .search 2 7, .lock 2] := by
  obtain ⟨h, hc⟩ : ∃ h : KsHash UInt32 Bool,
      KsHash.createEx 16 intKeys { rwlock := true } false = some h := ⟨_, rfl⟩
  refine ⟨h, hc, (@always_right_iff _ _ h 16 intKeys { rwlock := true } false hc _).2 ?_⟩
  obtain rfl := Option.some.inj hc
  decide +kernel

/-- Two threads come to insert, and one of them is overtaken: the other inserts as many keys as
    it takes to expand the table. Nobody finds the key of the first one then. -/
def overtaken : List (HashStep UInt32 Bool) :=
  [.create 1, .create 2, .insert 1 1 true {} false] ++
    ((List.range 36).flatMap fun i =>
      [.insert 2 (UInt32.ofNat (i + 2)) false {} false, .lock 2]) ++
    [.lock 1, .search 1 1, .lock 1]

/-- An entry is put in a bucket that is not its own, and is not found, though nobody else has
    used its key. -/
theorem not_right_overtaken :
    ∃ h, KsHash.createEx 16 intKeys { rwlock := true } false = some h ∧
      ∃ os s', calls (blocking step) { h := h } overtaken = .ok (os, s') ∧ ¬s'.h.Placed ∧
        s'.h.keys.latest 1 s'.past = some true ∧ s'.reading.map Reading.value = [none] := by
  obtain ⟨h, hc⟩ : ∃ h : KsHash UInt32 Bool,
      KsHash.createEx 16 intKeys { rwlock := true } false = some h := ⟨_, rfl⟩
  have hrun : ((calls (blocking step) { h := h } overtaken).toOption.any fun r =>
      ¬r.2.h.Placed ∧ r.2.h.keys.latest 1 r.2.past = some true ∧
        r.2.reading.map Reading.value = [none]) = true := by
    obtain rfl := Option.some.inj hc
    decide +kernel
  cases hcalls : calls (blocking step) { h := h } overtaken with
  | error x =>
    rw [hcalls] at hrun
    exact absurd hrun Bool.false_ne_true
  | ok r =>
    rw [hcalls, Except.toOption, Option.any_some, decide_eq_true_eq] at hrun
    exact ⟨h, hc, r.1, r.2, hcalls, hrun⟩

end HashSys

end Libks
