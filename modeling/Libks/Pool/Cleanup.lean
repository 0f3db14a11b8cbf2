import Libks.Pool.Blocks

/-!
# The cleanup of blocks

What a program that uses a pool may expect for its blocks (`Ledger`): each is
released when it has been freed once more than it was ref'ed, or when the pool is
cleared or closed; its callback, if it then has one, has been called before, to
announce, to tear down and to destroy, once each. A run of the pool is set beside
its ledger (`Witnessed`), and what the pool has done to each block is compared
with what was due (`Tended`).

`perform_pool_cleanup` sets `cleaning_up`, and nothing resets it, so that after the
first clear of a pool no callback is called any more. The pool does what is due
in every state of a run if and only if every step of it is a `Good` one
(`always_tended_iff`).
-/

namespace Libks

open Base

/-- The block that an event is about. -/
def PoolEvent.block : PoolEvent → ℕ
  | .cleanup p _ _ _ _ => p
  | .release p => p

/-- The callback of a block, and its argument. -/
def PoolPrefix.cleanup (x : PoolPrefix) : Option (ℕ × ℕ) :=
  x.cleanupCallback.map fun fn => (fn, x.cleanupArg)

/-- What a change of the links, or of the references, leaves as it is. -/
def PoolPrefix.kept (x : PoolPrefix) : Option (ℕ × ℕ) × Except Fault Unit :=
  (x.cleanup, x.check)

namespace KsPool

/-- The calls on a pool, with what `malloc` returns to them. -/
inductive Use
  | alloc (size : ℕ) (start : Option ℕ)
  | setCleanup (p arg : ℕ) (callback : Option ℕ)
  | removeCleanup (p : ℕ)
  | ref (p : ℕ)
  | free (p : Option ℕ)
  | clear
  | close

/-- The call `u`. -/
def use (s : KsPool) : Use → Except Fault (Out × KsPool)
  | .alloc size start => s.call (.alloc size start)
  | .setCleanup p arg callback => do
    let (r, s) ← s.setCleanup p arg callback
    return (.status r, s)
  | .removeCleanup p => do
    let (r, s) ← s.removeCleanup p
    return (.status r, s)
  | .ref p => s.call (.ref p)
  | .free p => s.call (.free p)
  | .clear => s.call .clear
  | .close => do
    let s ← s.rawClose
    return (.status .success, s)

end KsPool

/-! ## What is due -/

/-- A live block: how much more often it was ref'ed than freed, plus one, and its
    callback. -/
structure Entry where
  addr : ℕ
  size : ℕ
  count : ℕ := 1
  cleanup : Option (ℕ × ℕ) := none

/-- The calls of the callback that are due when the block is released. -/
def Entry.calls (type : CleanupType) (e : Entry) : List PoolEvent :=
  match e.cleanup with
  | none => []
  | some (fn, arg) => [.cleanup e.addr fn arg .announce type,
      .cleanup e.addr fn arg .teardown type, .cleanup e.addr fn arg .destroy type]

/-- What is due when the block is released. -/
def Entry.due (type : CleanupType) (e : Entry) : List PoolEvent :=
  e.calls type ++ [.release e.addr]

/-- The live blocks, what was due for blocks so far, and whether the pool has been
    cleared, or closed. -/
structure Ledger where
  entries : List Entry := []
  log : List PoolEvent := []
  cleared : Bool := false
  closed : Bool := false

namespace Ledger

open KsPool (Use)

/-- A change of the entry of a block. -/
def change (l : Ledger) (p : ℕ) (f : Entry → List Entry) : Ledger :=
  { l with entries := edit Entry.addr p f l.entries }

/-- All blocks are released. -/
def clear (l : Ledger) : Ledger :=
  { l with
    entries := []
    log := l.log ++ l.entries.flatMap (Entry.due .globalFree)
    cleared := true }

/-- A block is freed. -/
def free (l : Ledger) (p : ℕ) : Ledger :=
  { l.change p fun e => if 1 < e.count then [{ e with count := e.count - 1 }] else [] with
    log := l.log ++
      l.entries.flatMap fun e => if e.addr = p ∧ e.count ≤ 1 then e.due .free else [] }

/-- What a call makes due. -/
def step (l : Ledger) : Use → Ledger
  | .alloc size start => { l with entries := { addr := start.getD 0, size } :: l.entries }
  | .setCleanup p arg callback =>
    l.change p fun e => [{ e with cleanup := callback.map fun fn => (fn, arg) }]
  | .removeCleanup p => l.change p fun e => [{ e with cleanup := none }]
  | .ref p => l.change p fun e => [{ e with count := e.count + 1 }]
  | .free none => l
  | .free (some p) => l.free p
  | .clear => l.clear
  | .close => { l.clear with closed := true }

/-- The calls for which the pool does what is due: with a block that has a callback
    freed or cleared, the pool has not been cleared before, and a block that is freed has
    not been ref'ed so often that its 64-bit counter has wrapped. -/
def Good (l : Ledger) : Use → Prop
  | .free (some p) => ∀ e ∈ l.entries, e.addr = p →
      (e.count % 2 ^ 64 ≤ 1 → e.count ≤ 1) ∧ (e.count ≤ 1 → e.cleanup ≠ none → l.cleared = false)
  | .clear | .close => l.cleared = true → ∀ e ∈ l.entries, e.cleanup = none
  | _ => True

instance (l : Ledger) : DecidablePred l.Good
  | .free (some _) => inferInstanceAs (Decidable (∀ _ ∈ _, _ → _))
  | .clear | .close => inferInstanceAs (Decidable (_ → ∀ _ ∈ _, _))
  | .alloc _ _ | .setCleanup _ _ _ | .removeCleanup _ | .ref _ | .free none => .isTrue trivial

end Ledger

namespace KsPool

/-- A pool beside its ledger. -/
abbrev Witnessed := KsPool × Ledger

/-- The call `u`, and what it makes due. -/
def witness (r : Witnessed) (u : Use) : Except Fault (Out × Witnessed) := do
  let (o, s) ← r.1.use u
  return (o, (s, r.2.step u))

/-- The pool has not been closed; a call is made on blocks that are there, and the
    system returns no block that is in use. -/
def Allows (r : Witnessed) (u : Use) : Prop :=
  r.2.closed = false ∧
    match u with
    | .alloc _ start => ∀ p ∈ start, p ∉ r.1.heap
    | .setCleanup p _ _ | .removeCleanup p | .ref p => p ∈ r.1.heap
    | .free p => r.1.heap.Valid p
    | .clear | .close => True

instance (r : Witnessed) : DecidablePred (Allows r)
  | .alloc _ _ => inferInstanceAs (Decidable (_ ∧ ∀ _ ∈ _, _ ∉ _))
  | .setCleanup _ _ _ | .removeCleanup _ | .ref _ => inferInstanceAs (Decidable (_ ∧ _ ∈ _))
  | .free _ => inferInstanceAs (Decidable (_ ∧ ∀ _ ∈ _, _ ∈ _))
  | .clear | .close => inferInstanceAs (Decidable (_ ∧ True))

/-- To every block has been done what was due. -/
def Tended (r : Witnessed) : Prop :=
  ∀ p, r.1.log.filter (·.block = p) = r.2.log.filter (·.block = p)

/-! ## What the calls do to the callbacks -/

variable {s s' : KsPool} {p q : ℕ}

theorem writeFence_cleanup (x : PoolPrefix) (n : ℕ) : (x.writeFence n).cleanup = x.cleanup := by
  rw [PoolPrefix.writeFence]
  split_ifs <;> rfl

/-- `ks_pool_alloc` makes a block without a callback, and leaves the others alone. -/
theorem alloc_keeps {size : ℕ} {start : Option ℕ} (hrun : s.alloc size start = .ok (p, s')) :
    start = some p ∧ s'.log = s.log ∧ s'.cleaningUp = s.cleaningUp ∧
      (s'.heap.lookup p).map PoolPrefix.kept = some (none, .ok ()) ∧
      ∀ q, q ≠ p → (s'.heap.lookup q).map PoolPrefix.kept = (s.heap.lookup q).map PoolPrefix.kept := by
  rw [alloc] at hrun
  split_ifs at hrun with hsize
  obtain ⟨-, -, hrun⟩ := bind_eq_ok.1 hrun
  obtain ⟨⟨p₁, s₁⟩, halloc, hrun⟩ := bind_eq_ok.1 hrun
  obtain ⟨x, hload, hrun⟩ := bind_eq_ok.1 hrun
  obtain ⟨⟨⟩, hcheck, hrun⟩ := bind_eq_ok.1 hrun
  cases hrun
  cases start with
  | none => cases halloc
  | some start =>
    rw [allocMem, if_neg hsize] at halloc
    split_ifs at halloc
    obtain ⟨heap, hheap, halloc⟩ := bind_eq_ok.1 halloc
    cases halloc
    have hx : heap.lookup p = some x := Heap.lookup_of_load hload
    have hnone : (heap.lookup p).map PoolPrefix.cleanup = some none := by
      rw [Heap.lookup_map_of_updateAt hheap fun _ => rfl, Finmap.lookup_insert, Option.map_some,
        writeFence_cleanup]
      rfl
    rw [hx, Option.map_some] at hnone
    dsimp only
    refine ⟨rfl, rfl, rfl, ?_, fun q hq => ?_⟩
    · rw [hx, Option.map_some, PoolPrefix.kept, hcheck, Option.some.inj hnone]
    · rw [Heap.lookup_map_of_updateAt hheap fun _ => rfl, Finmap.lookup_insert_of_ne _ hq]

/-- A reference changes nothing of a prefix but its count. -/
theorem lookup_map_of_ref {β : Type} {g : PoolPrefix → β}
    (hg : ∀ (x : PoolPrefix) (refs : ℕ), g { x with refs } = g x) (hrun : s.ref p = .ok (q, s'))
    (r : ℕ) : (s'.heap.lookup r).map g = (s.heap.lookup r).map g := by
  rw [ref] at hrun
  obtain ⟨x, -, hrun⟩ := bind_eq_ok.1 hrun
  obtain ⟨-, -, hrun⟩ := bind_eq_ok.1 hrun
  obtain ⟨-, -, hrun⟩ := bind_eq_ok.1 hrun
  obtain ⟨heap, hheap, hrun⟩ := bind_eq_ok.1 hrun
  cases hrun
  exact Heap.lookup_map_of_updateAt (o := some p) hheap (fun x => hg x _) r

/-- What unlinks a block changes nothing of a prefix but its links. -/
theorem lookup_map_of_unlink {β : Type} {g : PoolPrefix → β} {x : PoolPrefix}
    (hnext : ∀ (x : PoolPrefix) (next : Option ℕ), g { x with next } = g x)
    (hprev : ∀ (x : PoolPrefix) (prev : Option ℕ), g { x with prev } = g x)
    (hrun : s.unlink x = .ok s') (q : ℕ) :
    (s'.heap.lookup q).map g = (s.heap.lookup q).map g := by
  rw [unlink_eq] at hrun
  obtain ⟨h₁, hu₁, hrun⟩ := bind_eq_ok.1 hrun
  obtain ⟨h₂, hu₂, hrun⟩ := bind_eq_ok.1 hrun
  cases hrun
  dsimp only
  rw [Heap.lookup_map_of_updateAt hu₂ fun y => hprev y _,
    Heap.lookup_map_of_updateAt hu₁ fun y => hnext y _]

/-- `ks_pool_ref` leaves the callbacks alone. -/
theorem ref_keeps (hrun : s.ref p = .ok (q, s')) :
    s'.log = s.log ∧ s'.cleaningUp = s.cleaningUp ∧
      ∀ q, (s'.heap.lookup q).map PoolPrefix.kept = (s.heap.lookup q).map PoolPrefix.kept := by
  have hkept := lookup_map_of_ref (g := PoolPrefix.kept) (fun _ _ => rfl) hrun
  rw [ref] at hrun
  obtain ⟨x, -, hrun⟩ := bind_eq_ok.1 hrun
  obtain ⟨-, -, hrun⟩ := bind_eq_ok.1 hrun
  obtain ⟨-, -, hrun⟩ := bind_eq_ok.1 hrun
  obtain ⟨heap, -, hrun⟩ := bind_eq_ok.1 hrun
  cases hrun
  exact ⟨rfl, rfl, hkept⟩

/-- Taking a block out of the chain leaves the callbacks alone. -/
theorem unlink_keeps {x : PoolPrefix} (hrun : s.unlink x = .ok s') :
    s'.log = s.log ∧ s'.cleaningUp = s.cleaningUp ∧
      ∀ q, (s'.heap.lookup q).map PoolPrefix.kept = (s.heap.lookup q).map PoolPrefix.kept := by
  have hkept := lookup_map_of_unlink (g := PoolPrefix.kept) (fun _ _ => rfl) (fun _ _ => rfl) hrun
  rw [unlink_eq] at hrun
  obtain ⟨h₁, -, hrun⟩ := bind_eq_ok.1 hrun
  obtain ⟨h₂, -, hrun⟩ := bind_eq_ok.1 hrun
  cases hrun
  exact ⟨rfl, rfl, hkept⟩

/-- `ks_pool_set_cleanup` gives one block a callback. -/
theorem setCleanup_keeps {callback : Option ℕ} {arg : ℕ} {r : Status} (hp : p ∈ s.heap)
    (hrun : s.setCleanup p arg callback = .ok (r, s')) :
    s'.log = s.log ∧ s'.cleaningUp = s.cleaningUp ∧
      (s'.heap.lookup p).map PoolPrefix.kept =
        some (callback.map fun fn => (fn, arg), .ok ()) ∧
      ∀ q, q ≠ p → (s'.heap.lookup q).map PoolPrefix.kept = (s.heap.lookup q).map PoolPrefix.kept := by
  obtain ⟨x, hx⟩ := Finmap.mem_iff.1 hp
  cases callback with
  | none => cases hrun
  | some fn =>
    rw [setCleanup, Heap.load_eq hx, ok_bind] at hrun
    obtain ⟨⟨⟩, hcheck, hrun⟩ := bind_eq_ok.1 hrun
    rw [Heap.update_eq hx] at hrun
    cases hrun
    refine ⟨rfl, rfl, ?_, fun q hq => ?_⟩
    · dsimp only
      rw [Finmap.lookup_insert, Option.map_some, ← hcheck]
      rfl
    · dsimp only
      rw [Finmap.lookup_insert_of_ne _ hq]

/-- `ks_pool_remove_cleanup` takes it away again. -/
theorem removeCleanup_keeps {r : Status} (hp : p ∈ s.heap)
    (hrun : s.removeCleanup p = .ok (r, s')) :
    s'.log = s.log ∧ s'.cleaningUp = s.cleaningUp ∧
      (s'.heap.lookup p).map PoolPrefix.kept = some (none, .ok ()) ∧
      ∀ q, q ≠ p → (s'.heap.lookup q).map PoolPrefix.kept = (s.heap.lookup q).map PoolPrefix.kept := by
  obtain ⟨x, hx⟩ := Finmap.mem_iff.1 hp
  rw [removeCleanup, Heap.load_eq hx, ok_bind] at hrun
  obtain ⟨⟨⟩, hcheck, hrun⟩ := bind_eq_ok.1 hrun
  rw [Heap.update_eq hx] at hrun
  cases hrun
  refine ⟨rfl, rfl, ?_, fun q hq => ?_⟩
  · dsimp only
    rw [Finmap.lookup_insert, Option.map_some, ← hcheck]
    rfl
  · dsimp only
    rw [Finmap.lookup_insert_of_ne _ hq]

variable {xs ys : List Block} {b : Block} {x : PoolPrefix}

/-- A block whose prefix is sound is freed, and released with its last reference. -/
theorem free_spec (h : s.Chained (xs ++ b :: ys)) (hx : s.heap.lookup b.addr = some x)
    (hcheck : x.check = .ok ()) :
    ∃ r s', s.free (some b.addr) = .ok (r, s') ∧ s'.cleaningUp = s.cleaningUp ∧
      s'.log = s.log ++ (if 1 < b.refs then []
        else s.performPoolCleanupOnFree b.addr x ++ [.release b.addr]) ∧
      ∀ q, q ≠ b.addr ∨ 1 < b.refs →
        (s'.heap.lookup q).map PoolPrefix.kept = (s.heap.lookup q).map PoolPrefix.kept := by
  have hp : b.addr ∈ s.heap := Finmap.mem_iff.2 ⟨x, hx⟩
  have hrefs : x.refs = b.refs := by
    have hdata := h.data b (by simp)
    rw [hx, Option.map_some, Option.some.injEq] at hdata
    exact congrArg Prod.snd hdata
  obtain ⟨heap, hu⟩ := Heap.exists_update (e := Fault.outOfBounds)
    (f := fun y => { y with refs := x.refs - 1 }) hp
  have hkept (q : ℕ) : (heap.lookup q).map PoolPrefix.kept =
      (s.heap.lookup q).map PoolPrefix.kept :=
    Heap.lookup_map_of_updateAt (o := some b.addr) hu (fun _ => rfl) q
  rw [free, Heap.load_eq hx, ok_bind, hcheck, ok_bind, h.check, ok_bind, freeMem,
    Heap.load_eq hx, ok_bind, hcheck, ok_bind]
  dsimp only
  rw [hu, ok_bind]
  by_cases hr : 1 < b.refs
  · rw [if_pos (by omega), if_pos hr, List.append_nil]
    exact ⟨_, _, rfl, rfl, rfl, fun q _ => hkept q⟩
  · rw [if_neg (by omega), if_neg hr]
    have hcount := (h.count (fun _ => x.refs - 1) hu).logged
      (s.log ++ s.performPoolCleanupOnFree b.addr x)
    obtain ⟨s', hrun, -⟩ := unlink_chained hcount (h.links hx).1 (h.links hx).2
    obtain ⟨hlog, hcleaning, hkeeps⟩ := unlink_keeps hrun
    rw [hrun, ok_bind]
    refine ⟨_, _, rfl, hcleaning, ?_, fun q hq => ?_⟩
    · dsimp only
      rw [hlog, List.append_assoc]
    · dsimp only
      rw [Finmap.lookup_erase_ne (hq.resolve_right hr), hkeeps, hkept]

/-- The calls of a callback that a walk makes, or a free. -/
theorem callbacks_eq {e : Entry} (type : CleanupType) (he : x.cleanup = e.cleanup) :
    x.callback type .announce e.addr ++ x.callback type .teardown e.addr ++
      x.callback type .destroy e.addr = e.calls type := by
  rw [Entry.calls, ← he, PoolPrefix.cleanup, PoolPrefix.callback, PoolPrefix.callback,
    PoolPrefix.callback]
  cases x.cleanupCallback <;> rfl

/-! ## One call -/

/-- The block of an entry: its references are counted with 64 bits. -/
def block (e : Entry) : Block := ⟨e.addr, e.size, e.count % 2 ^ 64⟩

/-- What holds of a pool and its ledger as long as it does what is due. -/
structure Keeps (r : Witnessed) : Prop where
  chained : r.1.Chained (r.2.entries.map block)
  kept : ∀ e ∈ r.2.entries,
    (r.1.heap.lookup e.addr).map PoolPrefix.kept = some (e.cleanup, .ok ())
  cleaningUp : r.1.cleaningUp = r.2.cleared
  tended : Tended r

theorem map_addr_block (es : List Entry) : (es.map block).map Block.addr = es.map Entry.addr := by
  rw [List.map_map]
  rfl

/-- A callback is called for the block it was set on. -/
theorem callback_block {type : CleanupType} {action : CleanupAction} {e : PoolEvent}
    (he : e ∈ x.callback type action p) : e.block = p := by
  rw [PoolPrefix.callback] at he
  split at he
  · exact absurd he List.not_mem_nil
  · rw [List.mem_singleton.1 he]
    rfl

/-- A callback that a free makes is called for the block that is freed. -/
theorem made_block {action : CleanupAction} {e : PoolEvent}
    (he : e ∈ s.heap.made (PoolPrefix.callback .globalFree action) p) : e.block = p := by
  rw [Heap.made] at he
  cases hx : s.heap.lookup p with
  | none =>
    rw [hx] at he
    exact absurd he List.not_mem_nil
  | some x =>
    rw [hx] at he
    exact callback_block he

/-- An entry calls for its own block. -/
theorem calls_block {type : CleanupType} {e : Entry} {v : PoolEvent} (hv : v ∈ e.calls type) :
    v.block = e.addr := by
  rw [Entry.calls] at hv
  split at hv
  · exact absurd hv List.not_mem_nil
  · simp only [List.mem_cons, List.not_mem_nil, or_false] at hv
    rcases hv with rfl | rfl | rfl <;> rfl

/-- What is due at the end of a block is called for it. -/
theorem due_block {type : CleanupType} {e : Entry} {v : PoolEvent} (hv : v ∈ e.due type) :
    v.block = e.addr := by
  rcases List.mem_append.1 hv with hv | hv
  · exact calls_block hv
  · rw [List.mem_singleton.1 hv]
    rfl

/-- Where the same was due and done before, the same must be due and done now. -/
theorem tended_append {l : Ledger} {es ds : List PoolEvent} (h : Tended (s, l)) {s' : KsPool}
    {l' : Ledger} (hs : s'.log = s.log ++ es) (hl : l'.log = l.log ++ ds) :
    Tended (s', l') ↔ ∀ p, es.filter (·.block = p) = ds.filter (·.block = p) := by
  refine forall_congr' fun p => ?_
  have hp := h p
  dsimp only at hp ⊢
  rw [hs, hl, List.filter_append, List.filter_append, hp, List.append_cancel_left_eq]

/-- An entry calls for nothing if and only if it has no callback. -/
theorem calls_eq_nil_iff {type : CleanupType} {e : Entry} : e.calls type = [] ↔ e.cleanup = none := by
  rw [Entry.calls]
  cases e.cleanup with
  | none => exact iff_of_true rfl rfl
  | some c => exact iff_of_false (List.cons_ne_nil _ _) (Option.some_ne_none c)

variable {l : Ledger} {us vs : List Entry} {e : Entry}

/-- There is one entry for each block. -/
theorem Keeps.nodup (h : Keeps (s, l)) : (l.entries.map Entry.addr).Nodup := by
  rw [← map_addr_block]
  exact h.chained.nodup

/-- The prefix of a live block. -/
theorem Keeps.entry (h : Keeps (s, l)) (he : e ∈ l.entries) :
    ∃ x, s.heap.lookup e.addr = some x ∧ x.cleanup = e.cleanup ∧ x.check = .ok () := by
  obtain ⟨x, hx, hkept⟩ := Option.map_eq_some_iff.1 (h.kept e he)
  rw [PoolPrefix.kept] at hkept
  injection hkept with hcleanup hcheck
  exact ⟨x, hx, hcleanup, hcheck⟩

/-- The other blocks are live, and at other addresses. -/
theorem Keeps.beside (h : Keeps (s, l)) (hl : l.entries = us ++ e :: vs) :
    ∀ a ∈ us ++ vs, a.addr ≠ e.addr ∧ a ∈ l.entries := by
  have hnd := h.nodup
  rw [hl, List.map_append, List.map_cons, List.nodup_middle, List.nodup_cons, ← List.map_append] at hnd
  intro a ha
  refine ⟨fun heq => hnd.1 (heq ▸ List.mem_map_of_mem ha), ?_⟩
  rw [hl]
  exact ((List.sublist_cons_self ..).append_left us).subset ha

/-- What a clear does to a block. -/
theorem cleared_block (h : Keeps (s, l)) (hl : l.entries = us ++ e :: vs) :
    (s.cleanups (l.entries.map Entry.addr) ++
        (l.entries.map Entry.addr).map PoolEvent.release).filter (·.block = e.addr) =
      (if l.cleared then [] else e.calls .globalFree) ++ [.release e.addr] := by
  have hnd := h.nodup
  obtain ⟨x, hx, hcleanup, -⟩ := h.entry (e := e) (by rw [hl]; simp)
  have hmade (action : CleanupAction) :
      s.heap.made (PoolPrefix.callback .globalFree action) e.addr =
        x.callback .globalFree action e.addr := by
    rw [Heap.made, hx, Option.map_some, Option.getD_some]
  rw [hl] at hnd ⊢
  rw [List.filter_append]
  congr 1
  · rw [cleanups, h.cleaningUp]
    split_ifs
    · rfl
    rw [List.filter_flatMap, ← callbacks_eq .globalFree hcleanup]
    simp only [List.flatMap_cons, List.flatMap_nil, List.append_nil, List.append_assoc,
      List.flatMap_map]
    have hwalk (action : CleanupAction) :
        ((us ++ e :: vs).flatMap fun a =>
          s.heap.made (PoolPrefix.callback .globalFree action) a.addr).filter (·.block = e.addr) =
        x.callback .globalFree action e.addr := by
      rw [filter_flatMap_of_nodup (fun _ _ => made_block) hnd, hmade]
    simp only [hwalk]
  · rw [List.map_map, ← List.flatMap_pure_eq_map]
    refine filter_flatMap_of_nodup (fun a v hv => ?_) hnd
    rw [List.mem_singleton.1 hv]
    rfl

/-- What a clear makes due for a block. -/
theorem cleared_due (hnd : (l.entries.map Entry.addr).Nodup) (hl : l.entries = us ++ e :: vs) :
    (l.entries.flatMap (Entry.due .globalFree)).filter (·.block = e.addr) = e.due .globalFree := by
  rw [hl] at hnd ⊢
  exact filter_flatMap_of_nodup (fun _ _ => due_block) hnd

/-- A clear does what is due unless the pool has been cleared before, and there is a
    block with a callback. -/
theorem clear_step (h : Keeps (s, l)) :
    ∃ s', s.clear = .ok s' ∧ s'.Chained [] ∧ s'.cleaningUp = true ∧
      (Tended (s', l.clear) ↔ (l.cleared = true → ∀ e ∈ l.entries, e.cleanup = none)) := by
  obtain ⟨s', hrun, hchained, hcleaning, hlog⟩ := clear_chained h.chained
  refine ⟨s', hrun, hchained, hcleaning, ?_⟩
  rw [map_addr_block, List.append_assoc] at hlog
  have hdue : l.clear.log = l.log ++ l.entries.flatMap (Entry.due .globalFree) := rfl
  rw [tended_append h.tended hlog hdue]
  constructor
  · intro hp hcleared e he
    obtain ⟨us, vs, hl⟩ := List.append_of_mem he
    have hpe := hp e.addr
    rw [cleared_block h hl, cleared_due h.nodup hl, if_pos hcleared, Entry.due,
      List.append_left_inj] at hpe
    exact calls_eq_nil_iff.1 hpe.symm
  · intro hgood p
    by_cases hp : p ∈ l.entries.map Entry.addr
    · obtain ⟨us, e, vs, hl, rfl⟩ := exists_of_mem_keys hp
      rw [cleared_block h hl, cleared_due h.nodup hl, Entry.due]
      split_ifs with hcleared
      · rw [calls_eq_nil_iff.2 (hgood hcleared e (by rw [hl]; simp))]
      · rfl
    · -- No event is about a block that is not there.
      rw [filter_flatMap_of_notMem (fun _ _ => due_block) hp]
      refine List.filter_eq_nil_iff.2 fun v hv heq => hp ?_
      rw [← of_decide_eq_true heq]
      rcases List.mem_append.1 hv with hv | hv
      · rw [cleanups] at hv
        split_ifs at hv
        · exact absurd hv List.not_mem_nil
        obtain ⟨action, -, hv⟩ := List.mem_flatMap.1 hv
        obtain ⟨q, hq, hv⟩ := List.mem_flatMap.1 hv
        rwa [made_block hv]
      · obtain ⟨q, hq, rfl⟩ := List.mem_map.1 hv
        exact hq

/-- What is due and what is done for one block. -/
theorem tended_append_block {es ds : List PoolEvent} (h : Tended (s, l)) {s' : KsPool} {l' : Ledger}
    (hs : s'.log = s.log ++ es) (hl : l'.log = l.log ++ ds) (he : ∀ v ∈ es, v.block = p)
    (hd : ∀ v ∈ ds, v.block = p) : Tended (s', l') ↔ es = ds := by
  rw [tended_append h hs hl]
  constructor
  · intro heq
    have hp := heq p
    rwa [List.filter_eq_self.2 fun v hv => decide_eq_true (he v hv),
      List.filter_eq_self.2 fun v hv => decide_eq_true (hd v hv)] at hp
  · rintro rfl _
    rfl

/-- What a free makes due. -/
theorem free_due (hnd : (l.entries.map Entry.addr).Nodup) (hl : l.entries = us ++ e :: vs) :
    (l.entries.flatMap fun a => if a.addr = e.addr ∧ a.count ≤ 1 then a.due .free else []) =
      if e.count ≤ 1 then e.due .free else [] := by
  rw [hl] at hnd ⊢
  rw [flatMap_of_nodup hnd fun c hc => if_neg fun h => hc h.1]
  simp only [true_and]

/-- What a free does to a block, and what is due. -/
theorem freed_eq_iff (l : Ledger) (e : Entry) :
    (if 1 < e.count % 2 ^ 64 then []
      else (if l.cleared then [] else e.calls .free) ++ [.release e.addr]) =
        (if e.count ≤ 1 then e.due .free else []) ↔
      (e.count % 2 ^ 64 ≤ 1 → e.count ≤ 1) ∧
        (e.count ≤ 1 → e.cleanup ≠ none → l.cleared = false) := by
  have hle := Nat.mod_le e.count (2 ^ 64)
  by_cases hlast : e.count ≤ 1
  · rw [if_neg (by omega), if_pos hlast, Entry.due, List.append_left_inj]
    split_ifs with hcleared
    · rw [eq_comm, calls_eq_nil_iff]
      refine ⟨fun hnone => ⟨fun _ => hlast, fun _ h => absurd hnone h⟩, fun h => ?_⟩
      by_contra hsome
      exact Bool.false_ne_true ((h.2 hlast hsome).symm.trans hcleared)
    · exact iff_of_true rfl ⟨fun _ => hlast, fun _ _ => Bool.eq_false_iff.2 hcleared⟩
  · rw [if_neg hlast]
    split_ifs with hmany
    · exact iff_of_true rfl ⟨fun h => absurd hmany (by omega), fun h => absurd h hlast⟩
    · refine iff_of_false (List.append_ne_nil_of_right_ne_nil _ (List.cons_ne_nil _ _)) fun h => ?_
      exact hlast (h.1 (by omega))
    · refine iff_of_false (List.append_ne_nil_of_right_ne_nil _ (List.cons_ne_nil _ _)) fun h => ?_
      exact hlast (h.1 (by omega))

/-- A free does what is due if the 64 bits of the counter tell whether it is the last
    one, and, if it is, unless the pool has been cleared before, and the block has a
    callback. -/
theorem free_step (h : Keeps (s, l)) (hl : l.entries = us ++ e :: vs) :
    ∃ r s', s.free (some e.addr) = .ok (r, s') ∧
      (Tended (s', l.free e.addr) ↔ (e.count % 2 ^ 64 ≤ 1 → e.count ≤ 1) ∧
        (e.count ≤ 1 → e.cleanup ≠ none → l.cleared = false)) ∧
      s'.cleaningUp = s.cleaningUp ∧
      ∀ q, q ≠ e.addr ∨ 1 < e.count % 2 ^ 64 →
        (s'.heap.lookup q).map PoolPrefix.kept = (s.heap.lookup q).map PoolPrefix.kept := by
  obtain ⟨x, hx, hcleanup, hcheck⟩ := h.entry (e := e) (by rw [hl]; simp)
  have hchained := h.chained
  dsimp only at hchained
  rw [hl, List.map_append, List.map_cons] at hchained
  obtain ⟨r, s', hrun, hcleaning, hlog, hkeeps⟩ := free_spec (b := block e) hchained hx hcheck
  have hcalls : s.performPoolCleanupOnFree e.addr x =
      if l.cleared then [] else e.calls .free := by
    rw [performPoolCleanupOnFree, callbacks_eq .free hcleanup, h.cleaningUp]
  have hdue : (l.free e.addr).log = l.log ++ if e.count ≤ 1 then e.due .free else [] := by
    rw [← free_due h.nodup hl]
    rfl
  refine ⟨r, s', hrun, ?_, hcleaning, hkeeps⟩
  rw [show (block e).addr = e.addr from rfl, hcalls] at hlog
  rw [tended_append_block (p := e.addr) h.tended hlog hdue]
  · exact freed_eq_iff l e
  · intro v hv
    split_ifs at hv
    · exact absurd hv List.not_mem_nil
    · rw [List.mem_singleton.1 hv]
      rfl
    · exact due_block hv
  · intro v hv
    split_ifs at hv
    · exact due_block hv
    · exact absurd hv List.not_mem_nil

/-- A new entry in the place of an old one. -/
theorem change_entries {f : Entry → List Entry} (hnd : (l.entries.map Entry.addr).Nodup)
    (hl : l.entries = us ++ e :: vs) : (l.change e.addr f).entries = us ++ (f e ++ vs) := by
  rw [Ledger.change, hl]
  rw [hl] at hnd
  exact edit_of_nodup hnd

/-- A call that does no more than change the entry of a block. -/
theorem Keeps.change {bs : List Block} (h : Keeps (s, l)) (e' : Entry)
    (hl : l.entries = us ++ e :: vs) (haddr : e'.addr = e.addr)
    (hchained : s'.Chained bs) (hbs : bs = (us ++ e' :: vs).map block)
    (hkept : (s'.heap.lookup e.addr).map PoolPrefix.kept = some (e'.cleanup, .ok ()))
    (hother : ∀ q, q ≠ e.addr →
      (s'.heap.lookup q).map PoolPrefix.kept = (s.heap.lookup q).map PoolPrefix.kept)
    (hlog : s'.log = s.log) (hcleaning : s'.cleaningUp = s.cleaningUp) {f : Entry → List Entry}
    (hf : f e = [e']) : Keeps (s', l.change e.addr f) := by
  have hnd := h.nodup
  have hentries := change_entries (f := f) hnd hl
  rw [hf, List.singleton_append] at hentries
  refine ⟨?_, ?_, hcleaning.trans h.cleaningUp, ?_⟩
  · dsimp only
    rwa [hentries, ← hbs]
  · dsimp only
    rw [hentries]
    intro a ha
    have ha' : a = e' ∨ a ∈ us ++ vs := by
      simp only [List.mem_append, List.mem_cons] at ha ⊢
      tauto
    rcases ha' with rfl | ha'
    · rw [haddr]
      exact hkept
    · obtain ⟨hne, hin⟩ := h.beside hl a ha'
      rw [hother a.addr hne]
      exact h.kept a hin
  · intro p
    dsimp only
    rw [hlog]
    exact h.tended p

/-- The ledger takes the step of `ks_pool_alloc`: a new entry, without a callback. -/
theorem alloc_step {size : ℕ} {start : Option ℕ} (h : Keeps (s, l))
    (hstart : ∀ p ∈ start, p ∉ s.heap) {o : Out} (hrun : s.call (.alloc size start) = .ok (o, s')) :
    Keeps (s', l.step (.alloc size start)) := by
  have hends := call_ends h.chained (show s.Allowed (.alloc size start) from hstart)
  rw [hrun] at hends
  obtain ⟨⟨p, s₁⟩, halloc, hrun⟩ := bind_eq_ok.1 hrun
  cases hrun
  obtain ⟨rfl, hlog, hcleaning, hp, hother⟩ := alloc_keeps halloc
  refine ⟨hends.2.2, ?_, hcleaning.trans h.cleaningUp, ?_⟩
  · intro a ha
    rcases List.mem_cons.1 ha with rfl | ha
    · exact hp
    · have hin : a.addr ∈ s.heap := by
        rw [h.chained.mem, map_addr_block]
        exact List.mem_map_of_mem ha
      dsimp only
      rw [hother a.addr fun heq => hstart p rfl (heq ▸ hin)]
      exact h.kept a ha
  · intro q
    dsimp only
    rw [hlog]
    exact h.tended q

/-- The entry of a live block. -/
theorem Keeps.split (h : Keeps (s, l)) (hp : p ∈ s.heap) :
    ∃ us e vs, l.entries = us ++ e :: vs ∧ e.addr = p := by
  refine exists_of_mem_keys ?_
  rw [← map_addr_block]
  exact (h.chained.mem p).1 hp

/-- A change of the callback of a block does not matter to the list. -/
theorem Chained.recall {heap : Heap PoolPrefix} {bs : List Block} {f : PoolPrefix → PoolPrefix}
    (h : s.Chained bs) (hu : s.heap.update Fault.outOfBounds p f = .ok heap)
    (hnext : ∀ x, (f x).next = x.next) (hprev : ∀ x, (f x).prev = x.prev)
    (hdata : ∀ x, (f x).data = x.data) : Chained { s with heap } bs := by
  have hu : s.heap.updateAt Fault.outOfBounds (some p) f = .ok heap := hu
  refine ⟨h.magic1, h.magic2, h.first, h.last, h.nodup, ?_, fun q => ?_, fun c hc => ?_⟩
  · dsimp only
    rw [Heap.link_of_updateAt_keep hu hnext, Heap.link_of_updateAt_keep hu hprev]
    exact h.seg
  · rw [Heap.mem_of_updateAt hu, h.mem]
  · dsimp only
    rw [Heap.lookup_map_of_updateAt hu hdata, h.data c hc]

/-- The step of `ks_pool_set_cleanup`: the entry of the block gets the callback. -/
theorem setCleanup_step {callback : Option ℕ} {arg : ℕ} {r : Status} (h : Keeps (s, l))
    (hp : p ∈ s.heap) (hrun : s.setCleanup p arg callback = .ok (r, s')) :
    Keeps (s', l.step (.setCleanup p arg callback)) := by
  obtain ⟨us, e, vs, hl, rfl⟩ := h.split hp
  obtain ⟨hlog, hcleaning, hkept, hother⟩ := setCleanup_keeps hp hrun
  have hchained : s'.Chained (l.entries.map block) := by
    cases callback with
    | none => cases hrun
    | some fn =>
      obtain ⟨x, -, hrun⟩ := bind_eq_ok.1 hrun
      obtain ⟨-, -, hrun⟩ := bind_eq_ok.1 hrun
      obtain ⟨heap, hu, hrun⟩ := bind_eq_ok.1 hrun
      cases hrun
      exact Chained.recall h.chained hu (fun _ => rfl) (fun _ => rfl) fun _ => rfl
  refine h.change { e with cleanup := callback.map fun fn => (fn, arg) } hl rfl hchained ?_ hkept
    hother hlog hcleaning rfl
  rw [hl, List.map_append, List.map_append]
  rfl

/-- The step of `ks_pool_remove_cleanup`: the entry of the block loses it. -/
theorem removeCleanup_step {r : Status} (h : Keeps (s, l)) (hp : p ∈ s.heap)
    (hrun : s.removeCleanup p = .ok (r, s')) : Keeps (s', l.step (.removeCleanup p)) := by
  obtain ⟨us, e, vs, hl, rfl⟩ := h.split hp
  obtain ⟨hlog, hcleaning, hkept, hother⟩ := removeCleanup_keeps hp hrun
  have hchained : s'.Chained (l.entries.map block) := by
    obtain ⟨x, -, hrun⟩ := bind_eq_ok.1 hrun
    obtain ⟨-, -, hrun⟩ := bind_eq_ok.1 hrun
    obtain ⟨heap, hu, hrun⟩ := bind_eq_ok.1 hrun
    cases hrun
    exact Chained.recall h.chained hu (fun _ => rfl) (fun _ => rfl) fun _ => rfl
  refine h.change { e with cleanup := none } hl rfl hchained ?_ hkept hother hlog hcleaning rfl
  rw [hl, List.map_append, List.map_append]
  rfl

/-- The step of `ks_pool_ref`: one reference more. -/
theorem ref_step {o : Out} (h : Keeps (s, l)) (hp : p ∈ s.heap)
    (hrun : s.call (.ref p) = .ok (o, s')) : Keeps (s', l.step (.ref p)) := by
  have hends := call_ends h.chained (show s.Allowed (.ref p) from hp)
  rw [hrun] at hends
  obtain ⟨us, e, vs, hl, rfl⟩ := h.split hp
  obtain ⟨⟨q, s₁⟩, href, hrun⟩ := bind_eq_ok.1 hrun
  cases hrun
  obtain ⟨hlog, hcleaning, hkeeps⟩ := ref_keeps href
  refine h.change { e with count := e.count + 1 } hl rfl hends.2.2 ?_ ?_ (fun q _ => hkeeps q) hlog
    hcleaning rfl
  · have hnd := h.chained.nodup
    rw [blocks]
    dsimp only at hnd ⊢
    rw [hl, List.map_append, List.map_cons] at hnd ⊢
    have hcount : add64 (block e).refs 1 = (e.count + 1) % 2 ^ 64 := by
      rw [add64]
      exact Nat.mod_add_mod ..
    rw [show e.addr = (block e).addr from rfl, edit_of_nodup hnd, hcount, List.map_append,
      List.map_cons]
    rfl
  · rw [hkeeps]
    exact h.kept e (by rw [hl]; simp)

/-- The blocks that a free leaves, and the entries. -/
theorem freed_blocks (h : e.count % 2 ^ 64 ≤ 1 → e.count ≤ 1) :
    us.map block ++ ((if 1 < (block e).refs then [{ block e with refs := (block e).refs - 1 }]
        else []) ++ vs.map block) =
      (us ++ ((if 1 < e.count then [{ e with count := e.count - 1 }] else []) ++ vs)).map block := by
  have hle := Nat.mod_le e.count (2 ^ 64)
  have hrefs : (block e).refs = e.count % 2 ^ 64 := rfl
  rw [List.map_append, List.map_append, hrefs]
  by_cases hmany : 1 < e.count % 2 ^ 64
  · have hcount : (e.count - 1) % 2 ^ 64 = e.count % 2 ^ 64 - 1 := by omega
    rw [if_pos hmany, if_pos (by omega), List.map_singleton, block, block, hcount]
  · rw [if_neg hmany, if_neg (by omega)]
    rfl

/-- The step of `ks_pool_free`: the last reference calls the callback and takes the entry
    away, any other one is only counted. -/
theorem free_keeps {o : Out} (h : Keeps (s, l)) (hp : p ∈ s.heap) (hg : l.Good (.free (some p)))
    (hrun : s.call (.free (some p)) = .ok (o, s')) : Keeps (s', l.step (.free (some p))) := by
  have hends := call_ends h.chained (show s.Allowed (.free (some p)) from by rintro q ⟨⟩; exact hp)
  rw [hrun] at hends
  obtain ⟨us, e, vs, hl, rfl⟩ := h.split hp
  obtain ⟨r, s₁, hfree, htended, hcleaning, hkeeps⟩ := free_step h hl
  have hge := hg e (by rw [hl]; simp) rfl
  rw [call, hfree, ok_bind] at hrun
  cases hrun
  have hnd := h.chained.nodup
  have hchained := hends.2.2
  rw [blocks] at hchained
  dsimp only at hchained hnd
  rw [hl, List.map_append, List.map_cons] at hchained hnd
  rw [show e.addr = (block e).addr from rfl, edit_of_nodup hnd] at hchained
  have hentries := change_entries
    (f := fun e => if 1 < e.count then [{ e with count := e.count - 1 }] else []) h.nodup hl
  have hentries : (l.step (.free (some e.addr))).entries =
      us ++ ((if 1 < e.count then [{ e with count := e.count - 1 }] else []) ++ vs) := hentries
  refine ⟨?_, ?_, hcleaning.trans h.cleaningUp, htended.2 hge⟩
  · dsimp only
    rw [hentries]
    exact freed_blocks hge.1 ▸ hchained
  · dsimp only
    rw [hentries]
    intro a ha
    have ha' : a ∈ us ++ vs ∨ 1 < e.count ∧ a = { e with count := e.count - 1 } := by
      split_ifs at ha
      · simp only [List.mem_append, List.mem_singleton] at ha ⊢
        tauto
      · exact .inl ha
    rcases ha' with ha' | ⟨hcount, rfl⟩
    · obtain ⟨hne, hin⟩ := h.beside hl a ha'
      rw [hkeeps a.addr (.inl hne)]
      exact h.kept a hin
    · have hmany : 1 < e.count % 2 ^ 64 := by
        by_contra hfew
        have := hge.1 (by omega)
        omega
      dsimp only
      rw [hkeeps e.addr (.inr hmany)]
      exact h.kept e (by rw [hl]; simp)

/-- Behind `ks_pool_clear` there are no blocks, and no callback runs any more. -/
theorem cleared_keeps (hchained : s'.Chained []) (hcleaning : s'.cleaningUp = true)
    (htended : Tended (s', l)) (hl : l.entries = []) (hcleared : l.cleared = true) :
    Keeps (s', l) := by
  refine ⟨?_, fun e he => ?_, hcleaning.trans hcleared.symm, htended⟩
  · dsimp only
    rw [hl]
    exact hchained
  · dsimp only at he
    rw [hl] at he
    exact absurd he List.not_mem_nil

/-- A good call, if it succeeds. -/
theorem witness_keeps {u : Use} {o : Out} {r' : Witnessed} (h : Keeps (s, l))
    (ha : Allows (s, l) u) (hg : l.Good u) (hrun : witness (s, l) u = .ok (o, r')) : Keeps r' := by
  obtain ⟨⟨o₁, s'⟩, huse, hrun⟩ := bind_eq_ok.1 hrun
  cases hrun
  obtain ⟨-, ha⟩ := ha
  cases u with
  | alloc size start => exact alloc_step h ha huse
  | setCleanup p arg callback =>
    obtain ⟨⟨r, s₁⟩, hset, huse⟩ := bind_eq_ok.1 huse
    cases huse
    exact setCleanup_step h ha hset
  | removeCleanup p =>
    obtain ⟨⟨r, s₁⟩, hremove, huse⟩ := bind_eq_ok.1 huse
    cases huse
    exact removeCleanup_step h ha hremove
  | ref p => exact ref_step h ha huse
  | free p =>
    cases p with
    | none =>
      cases huse
      exact h
    | some p => exact free_keeps h (ha p rfl) hg huse
  | clear =>
    obtain ⟨s₁, hclear, hchained, hcleaning, htended⟩ := clear_step h
    rw [use, call, hclear, ok_bind] at huse
    cases huse
    exact cleared_keeps hchained hcleaning (htended.2 hg) rfl rfl
  | close =>
    obtain ⟨s₁, hclear, hchained, hcleaning, htended⟩ := clear_step h
    rw [use, rawClose, hclear, ok_bind] at huse
    cases huse
    exact cleared_keeps hchained hcleaning (htended.2 hg) rfl rfl

/-- A call that is not good. -/
theorem witness_fails {u : Use} (h : Keeps (s, l)) (ha : Allows (s, l) u) (hg : ¬l.Good u) :
    ∃ o r', witness (s, l) u = .ok (o, r') ∧ ¬Tended r' := by
  obtain ⟨-, ha⟩ := ha
  cases u with
  | free p =>
    cases p with
    | none => exact absurd trivial hg
    | some p =>
      obtain ⟨us, e, vs, hl, rfl⟩ := h.split (ha p rfl)
      obtain ⟨r, s', hfree, htended, -⟩ := free_step h hl
      refine ⟨.status r, (s', l.free e.addr), ?_, fun ht => hg fun a hmem haddr => ?_⟩
      · rw [witness, use, call]
        dsimp only
        rw [hfree]
        rfl
      · have heq : a = e := List.inj_on_of_nodup_map h.nodup hmem (by rw [hl]; simp) haddr
        rw [heq]
        exact htended.1 ht
  | clear =>
    obtain ⟨s', hclear, -, -, htended⟩ := clear_step h
    refine ⟨.status .success, (s', l.clear), ?_, fun ht => hg (htended.1 ht)⟩
    rw [witness, use, call]
    dsimp only
    rw [hclear]
    rfl
  | close =>
    obtain ⟨s', hclear, -, -, htended⟩ := clear_step h
    refine ⟨.status .success, (s', { l.clear with closed := true }), ?_,
      fun ht => hg (htended.1 ht)⟩
    rw [witness, use, rawClose]
    dsimp only
    rw [hclear]
    rfl
  | _ => exact absurd trivial hg

/-- Whatever is called, in whatever order, on an opened pool: to every block has been
    done what was due, in every state of the run, if and only if every call is a good one. -/
theorem always_tended_iff {us : List Use} (h : Along witness Allows (rawOpen, {}) us) :
    Always witness Tended (rawOpen, {}) us ↔
      Along witness (fun r u => r.2.Good u) (rawOpen, {}) us := by
  have hopen : Keeps (rawOpen, {}) :=
    ⟨rawOpen_chained, fun e he => absurd he List.not_mem_nil, rfl, fun _ => rfl⟩
  refine always_iff_along (J := Keeps) (fun r hr => hr.tended) ?_ ?_ hopen h
  · rintro ⟨s, l⟩ u o r' hr ha hg hrun
    exact witness_keeps hr ha hg hrun
  · rintro ⟨s, l⟩ u hr ha hg
    exact witness_fails hr ha hg

theorem always_tended_iff_torn :
    Always witness Tended (rawOpen, {}) [.alloc 8 (some 1), .setCleanup 1 5 (some 7), .ref 1,
        .free (some 1), .free (some 1), .alloc 4 (some 1), .setCleanup 1 6 (some 7), .clear,
        .alloc 4 (some 2), .close] ↔
      Along witness (fun r u => r.2.Good u) (rawOpen, {}) [.alloc 8 (some 1),
        .setCleanup 1 5 (some 7), .ref 1, .free (some 1), .free (some 1), .alloc 4 (some 1),
        .setCleanup 1 6 (some 7), .clear, .alloc 4 (some 2), .close] :=
  always_tended_iff (by decide +kernel)

/-- After a clear, a block with a callback is freed. -/
theorem not_always_tended :
    ¬∀ us, Along witness Allows (rawOpen, {}) us → Always witness Tended (rawOpen, {}) us := by
  intro h
  have hrun := h [.clear, .alloc 8 (some 1), .setCleanup 1 5 (some 7), .free (some 1)]
    (by decide +kernel)
  have hend : okAnd
      (fun r => decide (r.2.1.log.filter (·.block = 1) ≠ r.2.2.log.filter (·.block = 1)))
      (calls witness (rawOpen, {}) [.clear, .alloc 8 (some 1), .setCleanup 1 5 (some 7),
        .free (some 1)]) = true := by decide +kernel
  obtain ⟨⟨os, r⟩, hcalls, hne⟩ := okAnd_iff.1 hend
  exact of_decide_eq_true hne (hrun.last hcalls 1)

end KsPool

end Libks
