import Libks.Pool.Cleanup

/-!
# Callbacks that free blocks

`perform_pool_cleanup` walks three times along the list of the blocks, while the callbacks
that it calls may free some of them. A walk is a row of steps: an iteration of one of
the loops (`PoolWalk.turn`), or what the callback that is running does to the pool. The
loop has read where it goes on before it has called the callback, and a callback frees
its own block or newer ones only; as the newest block is the first on the list, the
loop goes on to one that is still there (`At`).

So each pass calls every callback of a block that was live when it began, once, and no
block of it is gone before its turn; but only if there are passes at all: a pool that has
been cleared before is left alone (`KsPool.cleanup_right_iff`).
-/

namespace Libks

open Base

/-- The place of an action in a cleanup. -/
def CleanupAction.rank : CleanupAction → ℕ
  | .announce => 0
  | .teardown => 1
  | .destroy => 2

/-- Whether the event is the call for an action of the callback of the block at `p`. -/
def PoolEvent.isCall (action : CleanupAction) (p : ℕ) : PoolEvent → Bool
  | .cleanup q _ _ a _ => a = action ∧ q = p
  | .release _ => false

/-- The event is no call for an action behind this one. -/
def PoolEvent.Upto (action : CleanupAction) : PoolEvent → Prop
  | .cleanup _ _ _ a _ => a.rank ≤ action.rank
  | .release _ => True

/-- The second event is no call for an action in front of that of the first. -/
def PoolEvent.InOrder (e : PoolEvent) : PoolEvent → Prop
  | .cleanup _ _ _ action _ => e.Upto action
  | .release _ => True

/-- `perform_pool_cleanup` on its way. -/
structure PoolWalk where
  pool : KsPool
  /-- The passes that are not over. -/
  rest : List CleanupAction
  /-- Where the loop goes on. -/
  next : Option ℕ := none
  /-- The block whose callback is running. -/
  caller : Option ℕ := none
  /-- The blocks that were live when a pass began. -/
  live : CleanupAction → Finset ℕ
  /-- How often a loop has gone around. -/
  turns : ℕ := 0

/-- The loop goes around, or the callback that is running calls `ks_pool_free` or
    `ks_pool_ref`. -/
inductive WalkStep
  | turn
  | free (q : ℕ)
  | ref (q : ℕ)
  deriving DecidableEq, Repr

namespace PoolWalk

/-- The start of `perform_pool_cleanup`. -/
def start (s : KsPool) : PoolWalk :=
  let live := fun _ => s.heap.keys
  if s.cleaningUp then { pool := s, rest := [], live }
  else {
    pool := { s with cleaningUp := true }
    rest := [.announce, .teardown, .destroy], next := s.first, live }

/-- What the loop of a pass does when it goes around. -/
def turn (w : PoolWalk) : Except Fault PoolWalk :=
  match w.rest with
  | [] => .ok w
  | action :: rest =>
    match w.next with
    | none =>
      let live := rest.head?.elim w.live fun a => Function.update w.live a w.pool.heap.keys
      .ok { w with rest, next := w.pool.first, caller := none, live, turns := w.turns + 1 }
    | some p => do
      let x ← w.pool.heap.load .outOfBounds p
      return { w with
        pool := { w.pool with log := w.pool.log ++ x.callback .globalFree action p }
        next := x.next
        caller := x.cleanupCallback.map fun _ => p
        turns := w.turns + 1 }

/-- A step of the walk. -/
def step (w : PoolWalk) : WalkStep → Except Fault (Unit × PoolWalk)
  | .turn => do
    let w ← w.turn
    return ((), w)
  | .free q => do
    let (_, pool) ← w.pool.free (some q)
    return ((), { w with pool })
  | .ref q => do
    let (_, pool) ← w.pool.ref q
    return ((), { w with pool })

/-- A callback frees live blocks, and of these its own block and those that have been
    allocated after it. The blocks at `order` are those that there were, the newest first. -/
def Allowed (order : List ℕ) (w : PoolWalk) : WalkStep → Prop
  | .turn => True
  | .free q => q ∈ w.pool.heap ∧ ∃ p ∈ w.caller, order.idxOf q ≤ order.idxOf p
  | .ref q => q ∈ w.pool.heap

instance (order : List ℕ) (w : PoolWalk) : DecidablePred (w.Allowed order)
  | .turn => .isTrue trivial
  | .free _ => inferInstanceAs (Decidable (_ ∧ ∃ _ ∈ _, _))
  | .ref _ => inferInstanceAs (Decidable (_ ∈ _))

/-- What the walk has done since it left the pool `s`. -/
def events (s : KsPool) (w : PoolWalk) : List PoolEvent := w.pool.log.drop s.log.length

/-- What a cleanup of the pool `s` has to have done. -/
structure Right (s : KsPool) (w : PoolWalk) : Prop where
  /-- All announcements stand in front of all teardowns, and these of all destructions. -/
  ordered : (w.events s).Pairwise PoolEvent.InOrder
  /-- A pass that is over has called the callback of every block that was live when it
      began, once, and no other. -/
  ended : ∀ action ∉ w.rest, ∀ p, (w.events s).filter (PoolEvent.isCall action p) =
    if p ∈ w.live action then s.heap.made (PoolPrefix.callback .globalFree action) p else []
  /-- Where it is not over, a block that it has not called is live until its turn. -/
  waits : ∀ action ∈ w.rest.head?, ∀ p ∈ w.live action, p ∈ w.pool.heap ∨
    (w.events s).filter (PoolEvent.isCall action p) =
      s.heap.made (PoolPrefix.callback .globalFree action) p
  /-- It has called no block twice, and none that was not live. -/
  once : ∀ action ∈ w.rest, ∀ p,
    (w.events s).filter (PoolEvent.isCall action p) = [] ∨ p ∈ w.live action ∧
      (w.events s).filter (PoolEvent.isCall action p) =
        s.heap.made (PoolPrefix.callback .globalFree action) p
  /-- The loops come to an end. -/
  ends : w.rest ≠ [] → w.turns < 3 * (s.heap.keys.card + 1)

/-! ## What holds on the way -/

/-- What holds on the way: the loop has passed the blocks `done`, goes on with `todo`, and
    what has happened is `new`. -/
structure At (s : KsPool) (order : List ℕ) (w : PoolWalk) (done todo : List Block)
    (new : List PoolEvent) : Prop where
  log : w.pool.log = s.log ++ new
  chained : w.pool.Chained (done ++ todo)
  cleaningUp : w.pool.cleaningUp = true
  passes : w.rest <:+ [.announce, .teardown, .destroy]
  next : w.rest ≠ [] → w.next = (todo.map Block.addr).head?
  sorted : ((done ++ todo).map Block.addr).Pairwise fun p q => order.idxOf p < order.idxOf q
  caller : ∀ p ∈ w.caller, ∀ c ∈ todo, order.idxOf p < order.idxOf c.addr
  kept : ∀ p ∈ w.pool.heap,
    (w.pool.heap.lookup p).map PoolPrefix.cleanup = (s.heap.lookup p).map PoolPrefix.cleanup
  ordered : new.Pairwise PoolEvent.InOrder
  upto : ∀ action ∈ w.rest.head?, ∀ e ∈ new, e.Upto action
  ended : ∀ action ∉ w.rest, ∀ p, new.filter (PoolEvent.isCall action p) =
    if p ∈ w.live action then s.heap.made (PoolPrefix.callback .globalFree action) p else []
  now : ∀ action ∈ w.rest.head?, ∀ p, new.filter (PoolEvent.isCall action p) =
    if p ∈ w.live action ∧ p ∉ todo.map Block.addr then
      s.heap.made (PoolPrefix.callback .globalFree action) p else []
  later : ∀ action ∈ w.rest.tail, ∀ p, new.filter (PoolEvent.isCall action p) = []
  within : ∀ action ∈ w.rest.head?, ∀ p ∈ todo.map Block.addr, p ∈ w.live action
  length : (done ++ todo).length ≤ s.heap.keys.card
  turns : w.rest ≠ [] → w.turns + todo.length + 1 +
    w.rest.tail.length * (s.heap.keys.card + 1) ≤ 3 * (s.heap.keys.card + 1)

variable {s : KsPool} {w : PoolWalk} {order : List ℕ} {done todo : List Block}
  {new : List PoolEvent}

theorem At.events_eq (h : At s order w done todo new) : w.events s = new := by
  rw [events, h.log, List.drop_left]

theorem At.right (h : At s order w done todo new) : w.Right s := by
  have hlive (p : ℕ) (hp : p ∈ todo.map Block.addr) : p ∈ w.pool.heap := by
    rw [h.chained.mem, List.map_append]
    exact List.mem_append_right _ hp
  refine ⟨?_, ?_, fun a ha p hp => ?_, fun a ha p => ?_, fun hrest => ?_⟩
  · rw [h.events_eq]
    exact h.ordered
  · rw [h.events_eq]
    exact h.ended
  · rw [h.events_eq, h.now a ha]
    by_cases hmem : p ∈ todo.map Block.addr
    · exact .inl (hlive p hmem)
    · exact .inr (if_pos ⟨hp, hmem⟩)
  · rw [h.events_eq]
    cases hrest : w.rest with
    | nil =>
      rw [hrest] at ha
      cases ha
    | cons b bs =>
      rw [hrest] at ha
      rcases List.mem_cons.1 ha with rfl | ha
      · rw [h.now a (by rw [hrest]; rfl)]
        split_ifs with hp
        · exact .inr ⟨hp.1, rfl⟩
        · exact .inl rfl
      · exact .inl (h.later a (by rw [hrest]; exact ha) p)
  · have := h.turns hrest
    omega

/-! ## The calls of a block -/

theorem eq_of_callback {type : CleanupType} {action : CleanupAction} {x : PoolPrefix} {p : ℕ}
    {e : PoolEvent} (he : e ∈ x.callback type action p) :
    ∃ fn arg, e = .cleanup p fn arg action type := by
  rw [PoolPrefix.callback] at he
  split at he
  · cases he
  · exact ⟨_, _, List.mem_singleton.1 he⟩

/-- The call of a callback that is as it was. -/
theorem callback_of_kept {type : CleanupType} {x : PoolPrefix} {p : ℕ}
    (hx : some x.cleanup = (s.heap.lookup p).map PoolPrefix.cleanup) (action : CleanupAction) :
    x.callback type action p = s.heap.made (PoolPrefix.callback type action) p := by
  obtain ⟨y, hy, heq⟩ := Option.map_eq_some_iff.1 hx.symm
  rw [Heap.made, hy, Option.map_some, Option.getD_some, PoolPrefix.callback, PoolPrefix.callback]
  rw [PoolPrefix.cleanup, PoolPrefix.cleanup] at heq
  cases hfn : x.cleanupCallback with
  | none =>
    rw [hfn, Option.map_none, Option.map_eq_none_iff] at heq
    rw [heq]
  | some fn =>
    rw [hfn, Option.map_some] at heq
    obtain ⟨fn', hfn', hpair⟩ := Option.map_eq_some_iff.1 heq
    obtain ⟨rfl, harg⟩ := Prod.mk.inj hpair
    rw [hfn', harg]

theorem filter_callback (type : CleanupType) (a b : CleanupAction) (x : PoolPrefix) (p q : ℕ) :
    (x.callback type a p).filter (PoolEvent.isCall b q) =
      if b = a ∧ q = p then x.callback type a p else [] := by
  split_ifs with heq
  · refine List.filter_eq_self.2 fun e he => ?_
    obtain ⟨fn, arg, rfl⟩ := eq_of_callback he
    exact decide_eq_true ⟨heq.1.symm, heq.2.symm⟩
  · refine List.filter_eq_nil_iff.2 fun e he => ?_
    obtain ⟨fn, arg, rfl⟩ := eq_of_callback he
    exact fun hcall => heq ⟨(of_decide_eq_true hcall).1.symm, (of_decide_eq_true hcall).2.symm⟩

theorem upto_callback {type : CleanupType} {action : CleanupAction} {x : PoolPrefix} {p : ℕ}
    {e : PoolEvent} (he : e ∈ x.callback type action p) : e.Upto action := by
  obtain ⟨fn, arg, rfl⟩ := eq_of_callback he
  exact Nat.le_refl _

/-- The calls of a pass stand behind those of the ones before. -/
theorem inOrder_callback {type : CleanupType} {action : CleanupAction} {x : PoolPrefix} {p : ℕ}
    {e v : PoolEvent} (hv : v.Upto action) (he : e ∈ x.callback type action p) : v.InOrder e := by
  obtain ⟨fn, arg, rfl⟩ := eq_of_callback he
  exact hv

/-! ## The loops -/

/-- The loop calls the callback of the next block, and goes on to the one behind it. -/
theorem At.visit {c : Block} (h : At s order w done (c :: todo) new) (hrest : w.rest ≠ []) :
    ∃ w' new', w.turn = .ok w' ∧ At s order w' (done ++ [c]) todo new' := by
  obtain ⟨pool, rest, next, caller, live, turns⟩ := w
  cases rest with
  | nil => exact absurd rfl hrest
  | cons action rest =>
    have hnext : next = some c.addr := h.next hrest
    have hmem : c.addr ∈ pool.heap := by
      refine (h.chained.mem c.addr).2 ?_
      simp
    obtain ⟨x, hx⟩ := Finmap.mem_iff.1 hmem
    have hkept : some x.cleanup = (s.heap.lookup c.addr).map PoolPrefix.cleanup := by
      rw [← h.kept c.addr hmem, hx]
      rfl
    have hlist : done ++ [c] ++ todo = done ++ c :: todo := by
      rw [List.append_assoc, List.singleton_append]
    have hlinks := h.chained.links hx
    -- The block is behind those that are done, and in front of those to come.
    have hsorted := h.sorted
    rw [List.map_append, List.map_cons, List.pairwise_append, List.pairwise_cons] at hsorted
    have hbehind : ∀ q ∈ todo.map Block.addr, order.idxOf c.addr < order.idxOf q :=
      hsorted.2.1.1
    have hnotin : c.addr ∉ todo.map Block.addr := fun hin => Nat.lt_irrefl _ (hbehind _ hin)
    have hlive : c.addr ∈ live action := h.within action rfl c.addr (List.mem_cons_self ..)
    have hnodup : action ∉ rest := by
      have hnd : (action :: rest).Nodup := h.passes.sublist.nodup (by decide)
      exact (List.nodup_cons.1 hnd).1
    have hother (b : CleanupAction) (hb : b ≠ action) (q : ℕ) :
        (new ++ x.callback .globalFree action c.addr).filter (PoolEvent.isCall b q) =
          new.filter (PoolEvent.isCall b q) := by
      rw [List.filter_append, filter_callback, if_neg fun heq => hb heq.1, List.append_nil]
    refine ⟨{
      pool := { pool with log := pool.log ++ x.callback .globalFree action c.addr }
      rest := action :: rest, next := x.next, caller := x.cleanupCallback.map fun _ => c.addr
      live, turns := turns + 1 }, new ++ x.callback .globalFree action c.addr, ?_, ?_⟩
    · rw [turn, hnext]
      dsimp only
      rw [Heap.load_eq hx, ok_bind]
      rfl
    · refine ⟨?_, ?_, h.cleaningUp, h.passes, fun _ => hlinks.2, hlist ▸ h.sorted, ?_, h.kept, ?_,
        ?_, fun b hb q => ?_, ?_, fun b hb q => ?_, ?_, hlist ▸ h.length, fun _ => ?_⟩
      · dsimp only
        rw [h.log, List.append_assoc]
      · rw [hlist]
        exact h.chained.logged _
      · intro q hq d hd
        obtain ⟨-, -, rfl⟩ := Option.map_eq_some_iff.1 hq
        exact hbehind _ (List.mem_map_of_mem hd)
      · rw [List.pairwise_append]
        refine ⟨h.ordered, ?_, fun e he v hv => inOrder_callback (h.upto action rfl e he) hv⟩
        exact List.pairwise_of_forall_mem_list fun e he v hv =>
          inOrder_callback (upto_callback he) hv
      · rintro b hb e he
        cases hb
        rcases List.mem_append.1 he with he | he
        · exact h.upto action rfl e he
        · exact upto_callback he
      · rw [hother b (fun heq => hb (heq ▸ List.mem_cons_self ..)) q]
        exact h.ended b hb q
      · rintro b hb q
        cases hb
        rw [List.filter_append, filter_callback, h.now action rfl q]
        by_cases hq : q = c.addr
        · subst hq
          rw [if_neg fun hno => hno.2 (List.mem_cons_self ..), if_pos ⟨rfl, rfl⟩,
            if_pos ⟨hlive, hnotin⟩, List.nil_append]
          exact callback_of_kept hkept action
        · have hnone : (if action = action ∧ q = c.addr then
              x.callback .globalFree action c.addr else []) = [] := if_neg fun heq => hq heq.2
          rw [hnone, List.append_nil]
          simp only [List.map_cons, List.mem_cons, or_iff_right hq]
      · rw [hother b (fun heq => hnodup (heq ▸ hb)) q]
        exact h.later b hb q
      · rintro b hb q hq
        exact h.within b hb q (List.mem_cons_of_mem _ hq)
      · have hturns := h.turns hrest
        rw [List.length_cons] at hturns
        dsimp only at hturns ⊢
        omega

/-- At the end of the list the next pass begins, if there is one. -/
theorem At.pass (h : At s order w done [] new) (hrest : w.rest ≠ []) :
    ∃ w' done' todo', w.turn = .ok w' ∧ At s order w' done' todo' new := by
  obtain ⟨pool, rest, next, caller, live, turns⟩ := w
  cases rest with
  | nil => exact absurd rfl hrest
  | cons action rest =>
    have hnext : next = none := h.next hrest
    have hnd : (action :: rest).Nodup := h.passes.sublist.nodup (by decide)
    have hnodup : action ∉ rest := (List.nodup_cons.1 hnd).1
    have hlist := List.append_nil done
    have hturns := h.turns hrest
    have hsuffix : rest <:+ [.announce, .teardown, .destroy] :=
      (List.suffix_cons action rest).trans h.passes
    -- The pass that ends has called for all of its blocks.
    have hover : ∀ b ∉ rest, ∀ q, new.filter (PoolEvent.isCall b q) =
        if q ∈ live b then s.heap.made (PoolPrefix.callback .globalFree b) q else [] := by
      intro b hb q
      by_cases heq : b = action
      · subst heq
        rw [h.now b rfl q]
        simp only [List.map_nil, List.not_mem_nil, not_false_eq_true, and_true]
      · exact h.ended b (fun hin => (List.mem_cons.1 hin).elim heq hb) q
    cases rest with
    -- It was the last one.
    | nil =>
      refine ⟨{ pool, rest := [], next := pool.first, live, turns := turns + 1 }, done, [], ?_, ?_⟩
      · rw [turn, hnext]
        rfl
      · exact ⟨h.log, h.chained, h.cleaningUp, hsuffix, absurd rfl, h.sorted,
          fun _ hq => absurd hq (Option.not_mem_none _), h.kept, h.ordered,
          fun _ hb => absurd hb (Option.not_mem_none _), hover,
          fun _ hb => absurd hb (Option.not_mem_none _), fun _ hb => absurd hb List.not_mem_nil,
          fun _ hb => absurd hb (Option.not_mem_none _), h.length, absurd rfl⟩
    | cons b bs =>
      -- The next one starts from the first block, with the blocks that are alive now.
      have hrank : action.rank < b.rank := by
        have hpasses : ([.announce, .teardown, .destroy] : List CleanupAction).Pairwise
            fun a b => a.rank < b.rank := by decide
        exact (List.pairwise_cons.1 (hpasses.sublist h.passes.sublist)).1 b (List.mem_cons_self ..)
      have hlive : ∀ a ∉ b :: bs, Function.update live b pool.heap.keys a = live a :=
        fun a ha => Function.update_of_ne (fun heq => ha (by rw [heq]; simp)) _ _
      have hdone : ∀ q, q ∈ pool.heap ↔ q ∈ done.map Block.addr := fun q => by
        rw [h.chained.mem, List.append_nil]
      refine ⟨{
        pool, rest := b :: bs, next := pool.first
        live := Function.update live b pool.heap.keys, turns := turns + 1 }, [], done, ?_, ?_⟩
      · rw [turn, hnext]
        rfl
      · refine ⟨h.log, hlist ▸ h.chained, h.cleaningUp, hsuffix, fun _ => ?_, hlist ▸ h.sorted,
          fun _ hq => absurd hq (Option.not_mem_none _), h.kept, h.ordered, ?_,
          fun a ha q => ?_, ?_, fun a ha q => ?_, ?_, hlist ▸ h.length, fun _ => ?_⟩
        · have hfirst := h.chained.first
          rwa [List.append_nil] at hfirst
        · rintro a ha e he
          cases ha
          have hle := h.upto action rfl e he
          cases e with
          | cleanup p fn arg a type => exact Nat.le_of_lt (Nat.lt_of_le_of_lt hle hrank)
          | release p => trivial
        · simp only [hlive a ha]
          exact hover a ha q
        · rintro a ha q
          cases ha
          rw [h.later b (List.mem_cons_self ..) q, if_neg]
          rintro ⟨hq, hno⟩
          dsimp only at hq
          rw [Function.update_self] at hq
          exact hno ((hdone q).1 (Finmap.mem_keys.1 hq))
        · exact h.later a (List.mem_cons_of_mem b ha) q
        · rintro a ha q hq
          cases ha
          dsimp only
          rw [Function.update_self]
          exact Finmap.mem_keys.2 ((hdone q).2 hq)
        · have hlen := h.length
          rw [List.append_nil] at hlen
          simp only [List.tail_cons, List.length_cons, List.length_nil] at hturns ⊢
          rw [Nat.succ_mul] at hturns
          omega

theorem At.turn (h : At s order w done todo new) :
    ∃ w' done' todo' new', w.turn = .ok w' ∧ At s order w' done' todo' new' := by
  by_cases hrest : w.rest = []
  · refine ⟨w, done, todo, new, ?_, h⟩
    rw [PoolWalk.turn, hrest]
  · cases todo with
    | nil =>
      obtain ⟨w', done', todo', hturn, hat⟩ := h.pass hrest
      exact ⟨w', done', todo', new, hturn, hat⟩
    | cons c todo =>
      obtain ⟨w', new', hturn, hat⟩ := h.visit hrest
      exact ⟨w', done ++ [c], todo, new', hturn, hat⟩

/-! ## Callbacks that leave the pool alone -/

/-- The loop has gone around, some times. -/
abbrev Turns : PoolWalk → PoolWalk → Prop := Relation.ReflTransGen fun v w => v.turn = .ok w

theorem turns_of_end {action : CleanupAction} {rest : List CleanupAction}
    (hrest : w.rest = action :: rest) (hnext : w.next = none) :
    ∃ w', Turns w w' ∧ w'.pool = w.pool ∧ w'.rest = rest ∧ w'.next = w.pool.first := by
  refine ⟨{ w with
    rest, next := w.pool.first, caller := none
    live := rest.head?.elim w.live fun a => Function.update w.live a w.pool.heap.keys
    turns := w.turns + 1 }, .single ?_, rfl, rfl, rfl⟩
  rw [PoolWalk.turn, hrest, hnext]

/-- A pass is a walk along the list, and then the next pass begins. -/
theorem turns_of_visit {action : CleanupAction} {rest : List CleanupAction} {fuel : ℕ}
    {o : Option ℕ} {es : List PoolEvent} (hrest : w.rest = action :: rest) (hnext : w.next = o)
    (hvisit : w.pool.heap.visit Fault.outOfBounds .outOfFuel PoolPrefix.next
      (PoolPrefix.callback .globalFree action) fuel o = .ok es) :
    ∃ w', Turns w w' ∧ w'.pool = { w.pool with log := w.pool.log ++ es } ∧ w'.rest = rest ∧
      w'.next = w.pool.first := by
  induction fuel generalizing w o es with
  | zero =>
    cases o with
    | none =>
      cases hvisit
      rw [List.append_nil]
      exact turns_of_end hrest hnext
    | some p => cases hvisit
  | succ fuel ih =>
    cases o with
    | none =>
      cases hvisit
      rw [List.append_nil]
      exact turns_of_end hrest hnext
    | some p =>
      obtain ⟨x, hload, hvisit⟩ := bind_eq_ok.1 hvisit
      obtain ⟨es, hbehind, hes⟩ := bind_eq_ok.1 hvisit
      cases hes
      obtain ⟨w', hturns, hpool, hrest', hnext'⟩ := ih (w := { w with
        pool := { w.pool with log := w.pool.log ++ x.callback .globalFree action p }
        next := x.next
        caller := x.cleanupCallback.map fun _ => p
        turns := w.turns + 1 }) hrest rfl hbehind
      refine ⟨w', .head ?_ hturns, ?_, hrest', hnext'⟩
      · rw [PoolWalk.turn, hrest, hnext]
        dsimp only
        rw [hload]
        rfl
      · rw [hpool]
        dsimp only
        rw [List.append_assoc]

/-- If no callback does anything to the pool, the walk ends with what `perform_pool_cleanup`
    leaves. -/
theorem turns_of_performPoolCleanup {s' : KsPool} (hrun : s.performPoolCleanup = .ok s') :
    ∃ w, Turns (start s) w ∧ w.rest = [] ∧ w.pool = s' := by
  rw [KsPool.performPoolCleanup] at hrun
  rw [start]
  by_cases hclean : s.cleaningUp = true
  · rw [if_pos hclean] at hrun ⊢
    cases hrun
    exact ⟨_, .refl, rfl, rfl⟩
  · rw [if_neg hclean] at hrun ⊢
    obtain ⟨es₁, hvisit₁, hrun⟩ := bind_eq_ok.1 hrun
    obtain ⟨es₂, hvisit₂, hrun⟩ := bind_eq_ok.1 hrun
    obtain ⟨es₃, hvisit₃, hrun⟩ := bind_eq_ok.1 hrun
    cases hrun
    obtain ⟨w₁, hturns₁, hpool₁, hrest₁, hnext₁⟩ := turns_of_visit (w := {
      pool := { s with cleaningUp := true }
      rest := [.announce, .teardown, .destroy], next := s.first
      live := fun _ => s.heap.keys }) rfl rfl hvisit₁
    obtain ⟨w₂, hturns₂, hpool₂, hrest₂, hnext₂⟩ :=
      turns_of_visit hrest₁ (hnext₁.trans rfl) (by rw [hpool₁]; exact hvisit₂)
    obtain ⟨w₃, hturns₃, hpool₃, hrest₃, -⟩ :=
      turns_of_visit hrest₂ (hnext₂.trans (by rw [hpool₁])) (by rw [hpool₂, hpool₁]; exact hvisit₃)
    refine ⟨w₃, (hturns₁.trans hturns₂).trans hturns₃, hrest₃, ?_⟩
    rw [hpool₃, hpool₂, hpool₁]

/-! ## What a callback does -/

/-- A change that keeps the blocks to come, calls no callback, and takes none of the blocks
    that are done but away. -/
theorem At.change {pool : KsPool} {done' todo' : List Block} {es : List PoolEvent}
    (h : At s order w done todo new) (hlog : pool.log = w.pool.log ++ es)
    (hes : ∀ e ∈ es, ∃ p, e = .release p) (hchained : pool.Chained (done' ++ todo'))
    (hcleaning : pool.cleaningUp = true)
    (hsub : (done'.map Block.addr).Sublist (done.map Block.addr))
    (htodo : todo'.map Block.addr = todo.map Block.addr)
    (hkept : ∀ p ∈ pool.heap, (pool.heap.lookup p).map PoolPrefix.kept =
      (w.pool.heap.lookup p).map PoolPrefix.kept) :
    At s order { w with pool } done' todo' (new ++ es) := by
  have hcall (b : CleanupAction) (q : ℕ) : (new ++ es).filter (PoolEvent.isCall b q) =
      new.filter (PoolEvent.isCall b q) := by
    have hnone : es.filter (PoolEvent.isCall b q) = [] := by
      refine List.filter_eq_nil_iff.2 fun e he => ?_
      obtain ⟨p, rfl⟩ := hes e he
      exact Bool.false_ne_true
    rw [List.filter_append, hnone, List.append_nil]
  have hsub' : ((done' ++ todo').map Block.addr).Sublist ((done ++ todo).map Block.addr) := by
    rw [List.map_append, List.map_append, htodo]
    exact hsub.append_right _
  have hlen : todo'.length = todo.length := by
    rw [← List.length_map (f := Block.addr), htodo, List.length_map]
  refine ⟨?_, hchained, hcleaning, h.passes, htodo ▸ h.next, h.sorted.sublist hsub',
    fun p hp c hc => ?_, fun q hq => ?_, ?_, fun b hb e he => ?_, fun b hb q => ?_,
    fun b hb q => ?_, fun b hb q => ?_, htodo ▸ h.within, ?_, hlen ▸ h.turns⟩
  · dsimp only
    rw [hlog, h.log, List.append_assoc]
  · obtain ⟨d, hd, heq⟩ := List.mem_map.1 (htodo ▸ List.mem_map_of_mem hc)
    rw [← heq]
    exact h.caller p hp d hd
  · have hin : q ∈ w.pool.heap := by
      rw [h.chained.mem]
      exact hsub'.subset ((hchained.mem q).1 hq)
    have hcleanup := congrArg (Option.map Prod.fst) (hkept q hq)
    rw [Option.map_map, Option.map_map] at hcleanup
    rw [← h.kept q hin]
    exact hcleanup
  · refine List.pairwise_append.2 ⟨h.ordered, ?_, fun e _ v hv => ?_⟩
    · refine List.pairwise_of_forall_mem_list fun e _ v hv => ?_
      obtain ⟨p, rfl⟩ := hes v hv
      trivial
    · obtain ⟨p, rfl⟩ := hes v hv
      trivial
  · rcases List.mem_append.1 he with he | he
    · exact h.upto b hb e he
    · obtain ⟨p, rfl⟩ := hes e he
      trivial
  · rw [hcall]
    exact h.ended b hb q
  · rw [hcall, htodo]
    exact h.now b hb q
  · rw [hcall]
    exact h.later b hb q
  · have hlen := hsub'.length_le
    rw [List.length_map, List.length_map] at hlen
    exact hlen.trans h.length

end PoolWalk

namespace KsPool

variable {s s' : KsPool} {bs : List Block} {p q : ℕ}

/-- During a cleanup, a free calls nothing. -/
theorem free_cleaning {r : Status} (h : s.Chained bs) (hp : p ∈ s.heap)
    (hclean : s.cleaningUp = true) (hrun : s.free (some p) = .ok (r, s')) :
    s'.cleaningUp = true ∧ (∃ es, s'.log = s.log ++ es ∧ ∀ e ∈ es, ∃ q, e = .release q) ∧
      ∀ q ∈ s'.heap,
        (s'.heap.lookup q).map PoolPrefix.kept = (s.heap.lookup q).map PoolPrefix.kept := by
  have hends := free_ends h hp
  rw [hrun] at hends
  obtain ⟨xs, b, ys, x, rfl, rfl, hx, -, -⟩ := h.entry hp
  obtain ⟨y, hload, hcheck⟩ := bind_eq_ok.1 hrun
  rw [Heap.load_eq hx] at hload
  cases hload
  obtain ⟨⟨⟩, hcheck, -⟩ := bind_eq_ok.1 hcheck
  obtain ⟨r₁, s₁, hfree, hcleaning, hlog, hkeeps⟩ := free_spec h hx hcheck
  rw [hrun] at hfree
  cases hfree
  refine ⟨hcleaning.trans hclean, ⟨_, hlog, fun e he => ?_⟩, fun q hq => hkeeps q ?_⟩
  · rw [performPoolCleanupOnFree, if_pos hclean] at he
    split_ifs at he
    · cases he
    · exact ⟨_, List.mem_singleton.1 he⟩
  · by_contra hboth
    obtain ⟨heq, hone⟩ := not_or.1 hboth
    rw [not_not] at heq
    -- The block has been released.
    have hin := (hends.2.mem q).1 hq
    rw [blocks, edit_of_nodup h.nodup, if_neg hone, List.nil_append, List.map_append, heq] at hin
    exact (h.beside b.addr hin).1 rfl

end KsPool

namespace PoolWalk

variable {s : KsPool} {w : PoolWalk} {order : List ℕ} {done todo : List Block}
  {new : List PoolEvent}

theorem At.free {q : ℕ} (h : At s order w done todo new) (ha : w.Allowed order (.free q)) :
    Ends (· = .assertion) (fun r => ∃ done' new', At s order r.2 done' todo new')
      (w.step (.free q)) := by
  obtain ⟨hq, p, hp, hle⟩ := ha
  -- What is to come is older than the block whose callback is running.
  have hnot : q ∉ todo.map Block.addr := by
    intro hin
    obtain ⟨c, hc, rfl⟩ := List.mem_map.1 hin
    exact absurd (h.caller p hp c hc) (Nat.not_lt.2 hle)
  refine (KsPool.free_ends h.chained hq).bind_of fun r hrun hr => ?_
  obtain ⟨hcleaning, ⟨es, hlog, hes⟩, hkept⟩ :=
    KsPool.free_cleaning h.chained hq h.cleaningUp hrun
  have hchained := hr.2
  rw [KsPool.blocks, edit_append, edit_of_notMem hnot] at hchained
  refine ⟨_, _, h.change hlog hes hchained hcleaning ?_ rfl hkept⟩
  refine map_edit_sublist (fun b => ?_) done
  split_ifs
  · exact .refl _
  · exact List.nil_sublist _

theorem At.ref {q : ℕ} (h : At s order w done todo new) (hq : q ∈ w.pool.heap) :
    Ends (· = .assertion) (fun r => ∃ done' todo', At s order r.2 done' todo' new)
      (w.step (.ref q)) := by
  refine (KsPool.ref_ends h.chained hq).bind_of fun r hrun hr => ?_
  obtain ⟨hlog, hcleaning, hkept⟩ := KsPool.ref_keeps hrun
  have hchained := hr.2
  have haddr (bs : List Block) : (edit Block.addr q (fun b => [{ b with refs := add64 b.refs 1 }])
      bs).map Block.addr = bs.map Block.addr := map_edit (fun _ => rfl) bs
  rw [edit_append] at hchained
  have hlog : r.2.log = w.pool.log ++ [] := hlog.trans (List.append_nil _).symm
  have hat := h.change hlog (fun e he => absurd he List.not_mem_nil) hchained
    (hcleaning.trans h.cleaningUp) (haddr done ▸ .refl _) (haddr todo) fun p _ => hkept p
  rw [List.append_nil] at hat
  exact ⟨_, _, hat⟩

/-- Every step of the walk keeps what holds on the way, or is ended by an assertion. -/
theorem At.ends (h : At s order w done todo new) (a : WalkStep) (ha : w.Allowed order a) :
    Ends (· = .assertion) (fun r => ∃ done' todo' new', At s order r.2 done' todo' new')
      (w.step a) := by
  cases a with
  | turn =>
    obtain ⟨w', done', todo', new', hturn, hat⟩ := h.turn
    rw [PoolWalk.step, hturn]
    exact ⟨done', todo', new', hat⟩
  | free q =>
    refine (h.free ha).imp fun r hr => ?_
    obtain ⟨done', new', hat⟩ := hr
    exact ⟨done', todo, new', hat⟩
  | ref q =>
    refine (h.ref ha).imp fun r hr => ?_
    obtain ⟨done', todo', hat⟩ := hr
    exact ⟨done', todo', new, hat⟩

/-- Whatever the callbacks do, the cleanup does what it has to. -/
theorem At.upholds (h : At s order w done todo new) {steps : List WalkStep}
    (hsteps : Along step (Allowed order) w steps) :
    Upholds step (· = .assertion) (Right s) w steps := by
  have hright : ∀ w, (∃ done todo new, At s order w done todo new) → w.Right s := by
    rintro w ⟨done, todo, new, hat⟩
    exact hat.right
  refine upholds_of_good hright (fun w a hw ha => ?_) ⟨done, todo, new, h⟩ hsteps
  obtain ⟨done, todo, new, hat⟩ := hw
  exact hat.ends a ha

end PoolWalk

/-! ## The start -/

namespace KsPool

variable {s : KsPool} {bs : List Block}

/-- No live block has a callback. -/
def Bare (s : KsPool) : Prop :=
  ∀ p ∈ s.heap.keys, (s.heap.lookup p).bind PoolPrefix.cleanupCallback = none

instance (s : KsPool) : Decidable s.Bare := inferInstanceAs (Decidable (∀ _ ∈ _, _))

theorem made_eq_nil_iff {type : CleanupType} {action : CleanupAction} {p : ℕ} :
    s.heap.made (PoolPrefix.callback type action) p = [] ↔
      (s.heap.lookup p).bind PoolPrefix.cleanupCallback = none := by
  rw [Heap.made]
  cases s.heap.lookup p with
  | none => simp
  | some x =>
    rw [Option.map_some, Option.getD_some, Option.bind_some, PoolPrefix.callback]
    cases x.cleanupCallback <;> simp

/-- The blocks stand on the list in the order in which they are named. -/
theorem Chained.sorted (h : s.Chained bs) : (bs.map Block.addr).Pairwise fun p q =>
    (bs.map Block.addr).idxOf p < (bs.map Block.addr).idxOf q := by
  rw [List.pairwise_iff_getElem]
  intro i j hi hj hij
  rwa [h.nodup.idxOf_getElem, h.nodup.idxOf_getElem]

theorem Chained.length_le_card (h : s.Chained bs) : bs.length ≤ s.heap.keys.card := by
  rw [← List.length_map Block.addr]
  exact Heap.length_le_card (fun p hp => (h.mem p).2 hp) h.nodup

open PoolWalk in
/-- A pool that has not been cleared: three passes are to come. -/
theorem Chained.start (h : s.Chained bs) (hclean : s.cleaningUp = false) :
    At s (bs.map Block.addr) (PoolWalk.start s) [] bs [] := by
  have hlive : ∀ p, p ∈ s.heap.keys ↔ p ∈ bs.map Block.addr := fun p =>
    Finmap.mem_keys.trans (h.mem p)
  have hlen := h.length_le_card
  rw [PoolWalk.start, if_neg (by rw [hclean]; exact Bool.false_ne_true)]
  refine ⟨(List.append_nil _).symm, ⟨h.1, h.2, h.3, h.4, h.5, h.6, h.7, h.8⟩, rfl,
    List.suffix_rfl, fun _ => h.first, h.sorted, fun _ hp => absurd hp (Option.not_mem_none _),
    fun _ _ => rfl, .nil, fun _ _ _ he => absurd he List.not_mem_nil, fun a ha => ?_,
    fun a ha p => ?_, fun _ _ _ => rfl, fun _ _ p hp => (hlive p).2 hp, hlen, fun _ => ?_⟩
  · exact absurd (by cases a <;> simp) ha
  · rw [if_neg fun hp => hp.2 ((hlive p).1 hp.1)]
    rfl
  · simp only [List.tail_cons, List.length_cons, List.length_nil]
    omega

open PoolWalk in
/-- A pool that has been cleared, where there is nothing to call. -/
theorem Chained.start_bare (h : s.Chained bs) (hclean : s.cleaningUp = true) (hbare : s.Bare) :
    At s (bs.map Block.addr) (PoolWalk.start s) bs [] [] := by
  have hlist := List.append_nil bs
  rw [PoolWalk.start, if_pos hclean]
  refine ⟨(List.append_nil _).symm, hlist.symm ▸ h, hclean, List.nil_suffix, absurd rfl,
    hlist.symm ▸ h.sorted, fun _ hp => absurd hp (Option.not_mem_none _), fun _ _ => rfl, .nil,
    fun _ ha => absurd ha (Option.not_mem_none _), fun a _ p => ?_,
    fun _ ha => absurd ha (Option.not_mem_none _), fun _ ha => absurd ha List.not_mem_nil,
    fun _ ha => absurd ha (Option.not_mem_none _), hlist.symm ▸ h.length_le_card, absurd rfl⟩
  split_ifs with hp
  · exact (made_eq_nil_iff.2 (hbare p hp)).symm
  · rfl

/-- A cleanup that leaves a pool alone has done what it had to only if there was nothing to
    do. -/
theorem bare_of_right (hclean : s.cleaningUp = true) (h : (PoolWalk.start s).Right s) : s.Bare := by
  intro p hp
  have hover := h.ended .announce
  rw [PoolWalk.start, if_pos hclean, PoolWalk.events, List.drop_length] at hover
  have hmade := hover List.not_mem_nil p
  rw [if_pos hp] at hmade
  exact made_eq_nil_iff.1 hmade.symm

/-- A cleanup does what it has to, whatever the callbacks do, if and only if the pool has
    not been cleared before, or there is nothing to call. -/
theorem Chained.right_iff (h : s.Chained bs) :
    (∀ steps, Along PoolWalk.step (PoolWalk.Allowed (bs.map Block.addr)) (PoolWalk.start s) steps →
      Upholds PoolWalk.step (· = .assertion) (PoolWalk.Right s) (PoolWalk.start s) steps) ↔
      (s.cleaningUp = true → s.Bare) := by
  constructor
  · exact fun hall hclean => bare_of_right hclean (hall [] trivial).start
  · intro hbare steps hsteps
    cases hclean : s.cleaningUp with
    | false => exact (h.start hclean).upholds hsteps
    | true => exact (h.start_bare hclean (hbare hclean)).upholds hsteps

/-! ## Pools in use -/

/-- A call on a pool, also of those that change the callback of a block. -/
inductive Action
  | op (op : Op)
  | setCleanup (p arg : ℕ) (callback : Option ℕ)
  | removeCleanup (p : ℕ)

/-- The call `a`. -/
def act (s : KsPool) : Action → Except Fault (Out × KsPool)
  | .op op => s.call op
  | .setCleanup p arg callback => do
    let (r, s) ← s.setCleanup p arg callback
    return (.status r, s)
  | .removeCleanup p => do
    let (r, s) ← s.removeCleanup p
    return (.status r, s)

/-- What the calls do to the live blocks. -/
def acted (bs : List Block) : Action → Out × List Block
  | .op op => blocks bs op
  | .setCleanup _ _ _ | .removeCleanup _ => (.status .success, bs)

/-- The call is made on blocks that are there, and the system returns none that is in use. -/
def Permits (s : KsPool) : Action → Prop
  | .op op => s.Allowed op
  | .setCleanup p _ _ | .removeCleanup p => p ∈ s.heap

instance (s : KsPool) : DecidablePred s.Permits
  | .op _ => inferInstanceAs (Decidable (s.Allowed _))
  | .setCleanup _ _ _ | .removeCleanup _ => inferInstanceAs (Decidable (_ ∈ _))

/-- The addresses of the blocks that are live after the calls, the newest first. -/
def newestFirst (as : List Action) : List ℕ := (answers acted [] as).2.map Block.addr

theorem setCleanup_ends {arg : ℕ} {callback : Option ℕ} {p : ℕ} (h : s.Chained bs)
    (hp : p ∈ s.heap) : Ends (· = .assertion) (fun r => Out.status r.1 = .status .success ∧ r.2.Chained bs)
      (s.setCleanup p arg callback) := by
  cases callback with
  | none => rfl
  | some fn =>
    obtain ⟨x, hx⟩ := Finmap.mem_iff.1 hp
    rw [setCleanup, Heap.load_eq hx, ok_bind]
    refine check_ends.bind fun _ _ => ?_
    obtain ⟨heap, hu⟩ := Heap.exists_update (e := Fault.outOfBounds)
      (f := fun y => { y with cleanupArg := arg, cleanupCallback := some fn }) hp
    rw [hu]
    exact ⟨rfl, h.recall hu (fun _ => rfl) (fun _ => rfl) fun _ => rfl⟩

theorem removeCleanup_ends {p : ℕ} (h : s.Chained bs) (hp : p ∈ s.heap) :
    Ends (· = .assertion) (fun r => Out.status r.1 = .status .success ∧ r.2.Chained bs)
      (s.removeCleanup p) := by
  obtain ⟨x, hx⟩ := Finmap.mem_iff.1 hp
  rw [removeCleanup, Heap.load_eq hx, ok_bind]
  refine check_ends.bind fun _ _ => ?_
  obtain ⟨heap, hu⟩ := Heap.exists_update (e := Fault.outOfBounds)
    (f := fun y => { y with cleanupArg := 0, cleanupCallback := none }) hp
  rw [hu]
  exact ⟨rfl, h.recall hu (fun _ => rfl) (fun _ => rfl) fun _ => rfl⟩

/-- One call, if it succeeds. -/
theorem act_ends {a : Action} (h : s.Chained bs) (ha : s.Permits a) :
    Ends (fun _ => True) (fun r => r.1 = (acted bs a).1 ∧ r.2.Chained (acted bs a).2)
      (s.act a) := by
  cases a with
  | op op => exact (call_ends h ha).mono (fun _ _ => trivial) fun _ hr => hr.2
  | setCleanup p arg callback =>
    exact ((setCleanup_ends h ha).mono (fun _ _ => trivial) fun _ => id).bind fun _ hr => hr
  | removeCleanup p =>
    exact ((removeCleanup_ends h ha).mono (fun _ _ => trivial) fun _ => id).bind fun _ hr => hr

/-- Whatever has been called on an opened pool, and whatever the callbacks do: a cleanup
    does what it has to if and only if the pool has not been cleared before, or there is
    nothing to call. -/
theorem cleanup_right_iff {as : List Action} (has : Along act Permits rawOpen as)
    {os : List Out} (hrun : calls act rawOpen as = .ok (os, s)) :
    (∀ steps, Along PoolWalk.step (PoolWalk.Allowed (newestFirst as)) (PoolWalk.start s) steps →
      Upholds PoolWalk.step (· = .assertion) (PoolWalk.Right s) (PoolWalk.start s) steps) ↔
      (s.cleaningUp = true → s.Bare) := by
  have hact (s : KsPool) (bs : List Block) (a : Action) (h : s.Chained bs) (ha : s.Permits a) :
      Ends (fun _ => True) (fun r => r.1 = (acted bs a).1 ∧ r.2.Chained (acted bs a).2)
        (s.act a) := act_ends h ha
  have hends := calls_ends hact rawOpen_chained has
  rw [hrun] at hends
  exact hends.2.right_iff

theorem cleanup_right_iff_two :
    ∃ os s, calls act rawOpen [.op (.alloc 8 (some 1)), .setCleanup 1 5 (some 7),
        .op (.alloc 4 (some 2)), .setCleanup 2 6 (some 7)] = .ok (os, s) ∧
      ((∀ steps, Along PoolWalk.step (PoolWalk.Allowed (newestFirst [.op (.alloc 8 (some 1)),
          .setCleanup 1 5 (some 7), .op (.alloc 4 (some 2)), .setCleanup 2 6 (some 7)]))
          (PoolWalk.start s) steps →
        Upholds PoolWalk.step (· = .assertion) (PoolWalk.Right s) (PoolWalk.start s) steps) ↔
        (s.cleaningUp = true → s.Bare)) := by
  have has : Along act Permits rawOpen [.op (.alloc 8 (some 1)), .setCleanup 1 5 (some 7),
      .op (.alloc 4 (some 2)), .setCleanup 2 6 (some 7)] := by decide +kernel
  have hrun : okAnd (fun _ => true) (calls act rawOpen [.op (.alloc 8 (some 1)),
      .setCleanup 1 5 (some 7), .op (.alloc 4 (some 2)), .setCleanup 2 6 (some 7)]) = true := by
    decide +kernel
  obtain ⟨⟨os, s⟩, hcalls, -⟩ := okAnd_iff.1 hrun
  exact ⟨os, s, hcalls, cleanup_right_iff has hcalls⟩

/-- A pool that has been cleared before. -/
theorem not_cleanup_right :
    ¬∀ as os s, Along act Permits rawOpen as → calls act rawOpen as = .ok (os, s) →
      ∀ steps, Along PoolWalk.step (PoolWalk.Allowed (newestFirst as)) (PoolWalk.start s) steps →
        Upholds PoolWalk.step (· = .assertion) (PoolWalk.Right s) (PoolWalk.start s) steps := by
  intro h
  have hrun : okAnd (fun r => decide (r.2.cleaningUp = true ∧ ¬r.2.Bare)) (calls act rawOpen
      [.op .clear, .op (.alloc 8 (some 1)), .setCleanup 1 5 (some 7)]) = true := by decide +kernel
  obtain ⟨⟨os, s⟩, hcalls, hend⟩ := okAnd_iff.1 hrun
  obtain ⟨hclean, hbare⟩ := of_decide_eq_true hend
  have hright := h [.op .clear, .op (.alloc 8 (some 1)), .setCleanup 1 5 (some 7)] os s
    (by decide +kernel) hcalls [] trivial
  exact hbare (bare_of_right hclean hright.start)

end KsPool

end Libks
