import Libks.Base.Calls
import Libks.Base.Cond
import Libks.Base.Heap
import Libks.Base.Word
import Libks.Fault
import Libks.Status

/-!
# Queues between threads

A `ks_q_t` and the threads that use it. The nodes of the queue are doubly linked;
those that are not in use stand on a list of their own. Everything is done under
`list_mutex`, which is recursive, and given up only while a thread waits on one
of the two conditions: what a thread does between taking the lock and giving it
up is one step. A call that waits is thus two steps, and so is `ks_q_term`, which
takes the lock twice; `ks_q_flush` takes it as often as it pops.

With a step come the choices of the system: the waiter that a signal marks, and
the address of a new node. Any thread may run at any time, and a thread that
waits may go on at any time, signalled or not.
-/

namespace Libks

open Base

/-- `struct ks_qnode_s`. A pointer is a number, the null pointer `0`. -/
structure QNode where
  ptr : ℕ := 0
  next : Option ℕ := none
  prev : Option ℕ := none

/-- `struct ks_q_s`, with the heap of its nodes. -/
structure KsQ where
  /-- Whether there is a `flush_fn`. -/
  flushFn : Bool := false
  len : ℕ := 0
  maxlen : ℕ
  pushers : ℕ := 0
  poppers : ℕ := 0
  head : Option ℕ := none
  tail : Option ℕ := none
  empty : Option ℕ := none
  active : Bool := true
  heap : Heap QNode := ∅

namespace KsQ

/-- `new_node`. A node is taken from the list of the empty ones, or else from the
    pool, which gives `start`. -/
def newNode (q : KsQ) (start : ℕ) : Except Fault (ℕ × KsQ) :=
  match q.empty with
  | none => .ok (start, { q with heap := q.heap.insert start {} })
  | some p => do
    let n ← q.heap.load .outOfBounds p
    let heap ← q.heap.update .outOfBounds p fun _ => {}
    return (p, { q with empty := n.next, heap })

/-- The part of `do_push` that puts the node `p` behind the last one. -/
def link (q : KsQ) (p : ℕ) : Except Fault KsQ :=
  match q.head, q.tail with
  | none, _ => .ok { q with head := some p, tail := some p }
  | some _, none => .error .outOfBounds
  | some _, some last => do
    let heap ← q.heap.update .outOfBounds last fun y => { y with next := some p }
    let heap ← heap.update .outOfBounds p fun y => { y with prev := some last }
    return { q with heap, tail := some p }

/-- `do_push`. -/
def doPush (q : KsQ) (ptr start : ℕ) : Except Fault (Status × KsQ) :=
  if !q.active then .ok (.inactive, q)
  else do
    let (p, q) ← q.newNode start
    let heap ← q.heap.update .outOfBounds p fun y => { y with ptr }
    let q ← { q with heap }.link p
    return (.success, { q with len := add64 q.len 1 })

/-- `do_pop`: the result, and the pointer where one is stored. -/
def doPop (q : KsQ) : Except Fault ((Status × Option ℕ) × KsQ) :=
  if !q.active then .ok ((.inactive, none), q)
  else
    match q.head with
    | none => .ok ((.success, some 0), { q with len := sub64 q.len 1 })
    | some p => do
      let n ← q.heap.load .outOfBounds p
      let heap ← q.heap.updateAt .outOfBounds n.next fun y => { y with prev := none }
      let heap ← heap.update .outOfBounds p fun _ => { next := q.empty }
      return ((.success, some n.ptr), { q with
        heap
        head := n.next
        tail := if n.next = none then none else q.tail
        empty := some p
        len := sub64 q.len 1 })

/-- `do_peek`. -/
def doPeek (q : KsQ) : Except Fault (Status × Option ℕ) :=
  if !q.active then .ok (.inactive, none)
  else
    match q.head with
    | none => .ok (.success, some 0)
    | some p => do
      let n ← q.heap.load .outOfBounds p
      return (.success, some n.ptr)

/-- Whether a push has to wait. -/
def Full (q : KsQ) : Prop := q.maxlen ≠ 0 ∧ q.len = q.maxlen

instance (q : KsQ) : Decidable q.Full := inferInstanceAs (Decidable (_ ∧ _))

end KsQ

/-- The threads that use a queue. -/
structure QThreads where
  /-- Those that wait on `push_cond`, each with the pointer it is to push. -/
  pushWaiters : Cond ℕ := []
  /-- Those that wait on `pop_cond`, and whether with a timeout. -/
  popWaiters : Cond Bool := []
  /-- Those between the two parts of `ks_q_term`. -/
  terms : List ℕ := []
  /-- Those in the loop of `ks_q_flush`. -/
  flushes : List ℕ := []
  /-- Whether a `ks_q_term` has returned. -/
  termed : Bool := false

/-- A queue and the threads that use it. -/
structure QSys where
  q : KsQ
  th : QThreads := {}

/-- What a step brings about: a call returns, or goes on. -/
inductive QEvent
  | pushed (ptr : ℕ) (r : Status)
  | popped (r : Status) (ptr : Option ℕ)
  | peeked (r : Status) (ptr : Option ℕ)
  | returned (r : Status)
  | pending
  deriving DecidableEq

/-- Whether a call returns the result of a pop that succeeds. -/
def QEvent.pops : QEvent → Bool
  | .popped .success _ => true
  | _ => false

namespace QThreads

/-- `ks_cond_signal(q->pop_cond)`, if the counter of poppers is not zero. -/
def signalPop (th : QThreads) (poppers : ℕ) (pick : Option ℕ) : QThreads :=
  if poppers ≠ 0 then { th with popWaiters := th.popWaiters.signal pick } else th

/-- `ks_cond_signal(q->push_cond)`, if the counter of pushers is not zero. -/
def signalPush (th : QThreads) (pushers : ℕ) (pick : Option ℕ) : QThreads :=
  if pushers ≠ 0 then { th with pushWaiters := th.pushWaiters.signal pick } else th

/-- The thread `t` waits on `push_cond`. -/
def waitPush (th : QThreads) (t ptr : ℕ) : QThreads :=
  { th with pushWaiters := th.pushWaiters.wait t ptr }

/-- The thread `t` waits on `push_cond` no more. -/
def leavePush (th : QThreads) (t : ℕ) : QThreads :=
  { th with pushWaiters := th.pushWaiters.leave t }

/-- The thread `t` waits on `pop_cond`. -/
def waitPop (th : QThreads) (t : ℕ) (timed : Bool) : QThreads :=
  { th with popWaiters := th.popWaiters.wait t timed }

/-- The thread `t` waits on `pop_cond` no more. -/
def leavePop (th : QThreads) (t : ℕ) : QThreads :=
  { th with popWaiters := th.popWaiters.leave t }

@[simp] theorem waitPush_popWaiters (th : QThreads) (t ptr : ℕ) :
    (th.waitPush t ptr).popWaiters = th.popWaiters := rfl

@[simp] theorem leavePush_popWaiters (th : QThreads) (t : ℕ) :
    (th.leavePush t).popWaiters = th.popWaiters := rfl

@[simp] theorem waitPop_pushWaiters (th : QThreads) (t : ℕ) (timed : Bool) :
    (th.waitPop t timed).pushWaiters = th.pushWaiters := rfl

@[simp] theorem leavePop_pushWaiters (th : QThreads) (t : ℕ) :
    (th.leavePop t).pushWaiters = th.pushWaiters := rfl

/-- The two broadcasts of `ks_q_wake`. -/
def wake (th : QThreads) : QThreads :=
  { th with pushWaiters := th.pushWaiters.broadcast, popWaiters := th.popWaiters.broadcast }

/-- The thread is in no call, but for the function that a flush has called. -/
def Ready (th : QThreads) (t : ℕ) : Prop :=
  t ∉ th.pushWaiters.tids ∧ t ∉ th.popWaiters.tids ∧ t ∉ th.terms

instance (th : QThreads) : DecidablePred th.Ready := fun _ => inferInstanceAs (Decidable (_ ∧ _))

end QThreads

namespace QSys

/-- `ks_q_create`. -/
def create (maxlen : ℕ) : QSys := { q := { maxlen } }

/-- The end of a push: the pointer is stored, and a popper signalled if there is
    one. -/
def store (s : QSys) (ptr start : ℕ) (pick : Option ℕ) : Except Fault (QEvent × QSys) := do
  let (r, q) ← s.q.doPush ptr start
  return (.pushed ptr r, { q, th := s.th.signalPop q.poppers pick })

/-- The end of a pop: the pointer is taken, and a pusher signalled if there is
    one. -/
def take (s : QSys) (pick : Option ℕ) : Except Fault (QEvent × QSys) := do
  let ((r, ptr), q) ← s.q.doPop
  return (.popped r ptr, { q, th := s.th.signalPush q.pushers pick })

/-- `ks_q_push`, up to its end or to where it waits. -/
def push (s : QSys) (t ptr start : ℕ) (pick : Option ℕ) : Except Fault (QEvent × QSys) :=
  if !s.q.active then .ok (.pushed ptr .inactive, s)
  else if s.q.Full then
    .ok (.pending, { q := { s.q with pushers := incr32 s.q.pushers }, th := s.th.waitPush t ptr })
  else s.store ptr start pick

/-- The pusher `t` waits no more. -/
def awakePush (s : QSys) (t : ℕ) : QSys :=
  { q := { s.q with pushers := decr32 s.q.pushers }, th := s.th.leavePush t }

/-- `ks_q_push` from where the pusher `t` has waited. -/
def resumePush (s : QSys) (t start : ℕ) (pick : Option ℕ) : Except Fault (QEvent × QSys) :=
  match s.th.pushWaiters.waiter t with
  | none => .ok (.pending, s)
  | some w =>
    let s := s.awakePush t
    if s.q.Full then .ok (.pushed w.arg (if !s.q.active then .inactive else .break), s)
    else s.store w.arg start pick

/-- `ks_q_trypush`. -/
def trypush (s : QSys) (ptr start : ℕ) (pick : Option ℕ) : Except Fault (QEvent × QSys) :=
  if !s.q.active then .ok (.pushed ptr .inactive, s)
  else if s.q.Full then .ok (.pushed ptr .break, s)
  else s.store ptr start pick

/-- `ks_q_pop_timeout`, up to its end or to where it waits; `ks_q_pop` is the call
    without a timeout. -/
def pop (s : QSys) (t : ℕ) (timed : Bool) (pick : Option ℕ) : Except Fault (QEvent × QSys) :=
  if !s.q.active then .ok (.popped .inactive none, s)
  else if s.q.len = 0 then
    .ok (.pending, { q := { s.q with poppers := incr32 s.q.poppers }, th := s.th.waitPop t timed })
  else s.take pick

/-- The popper `t` waits no more. -/
def awakePop (s : QSys) (t : ℕ) : QSys :=
  { q := { s.q with poppers := decr32 s.q.poppers }, th := s.th.leavePop t }

/-- `ks_q_pop_timeout` from where the popper `t` has waited, if the wait has not
    timed out. -/
def resumePop (s : QSys) (t : ℕ) (pick : Option ℕ) : Except Fault (QEvent × QSys) :=
  let s := s.awakePop t
  if s.q.len = 0 then .ok (.popped (if !s.q.active then .inactive else .break) none, s)
  else s.take pick

/-- `ks_q_pop_timeout` from where the popper `t` has waited, if the wait has timed
    out: it leaves without a look at the queue. -/
def timeOut (s : QSys) (t : ℕ) : QEvent × QSys := (.popped .timeout none, s.awakePop t)

/-- `ks_q_trypop`. -/
def trypop (s : QSys) (pick : Option ℕ) : Except Fault (QEvent × QSys) :=
  if !s.q.active then .ok (.popped .inactive none, s)
  else if s.q.len = 0 then .ok (.popped .break none, s)
  else s.take pick

/-- `ks_q_trypeek`. -/
def trypeek (s : QSys) : Except Fault (QEvent × QSys) :=
  if !s.q.active then .ok (.peeked .inactive none, s)
  else if s.q.len = 0 then .ok (.peeked .break none, s)
  else do
    let (r, ptr) ← s.q.doPeek
    return (.peeked r ptr, s)

/-- `ks_q_flush` up to its loop. -/
def flush (s : QSys) (t : ℕ) : QEvent × QSys :=
  if !s.q.active then (.returned .inactive, s)
  else if !s.q.flushFn then (.returned .fail, s)
  else (.pending, { s with th := { s.th with flushes := t :: s.th.flushes } })

/-- A turn of the loop of `ks_q_flush`, which ends with the first pop that does
    not succeed. -/
def flushTurn (s : QSys) (t : ℕ) (pick : Option ℕ) : Except Fault (QEvent × QSys) := do
  let (e, s) ← s.trypop pick
  if e.pops then return (e, s)
  else return (.returned .success, { s with th := { s.th with flushes := s.th.flushes.erase t } })

/-- `ks_q_set_flush_fn`. -/
def setFlushFn (s : QSys) : QEvent × QSys :=
  if !s.q.active then (.returned .inactive, s)
  else (.returned .success, { s with q := { s.q with flushFn := true } })

/-- `ks_q_wake`. -/
def wake (s : QSys) : QEvent × QSys := (.returned .success, { s with th := s.th.wake })

/-- The first part of `ks_q_term`. -/
def term (s : QSys) (t : ℕ) : QEvent × QSys :=
  if s.q.active then
    (.pending, { q := { s.q with active := false }, th := { s.th with terms := t :: s.th.terms } })
  else (.returned .inactive, { s with th := { s.th with termed := true } })

/-- The second part of `ks_q_term`. -/
def termWake (s : QSys) (t : ℕ) : QEvent × QSys :=
  (.returned .success,
    { s with th := { s.th.wake with terms := s.th.terms.erase t, termed := true } })

/-! ## Runs -/

/-- A step of the thread `t`. -/
inductive Act
  | push (t ptr start : ℕ) (pick : Option ℕ)
  | resumePush (t start : ℕ) (pick : Option ℕ)
  | trypush (t ptr start : ℕ) (pick : Option ℕ)
  | pop (t : ℕ) (timed : Bool) (pick : Option ℕ)
  | resumePop (t : ℕ) (pick : Option ℕ)
  | timeOut (t : ℕ)
  | trypop (t : ℕ) (pick : Option ℕ)
  | trypeek (t : ℕ)
  | flush (t : ℕ)
  | flushTurn (t : ℕ) (pick : Option ℕ)
  | setFlushFn (t : ℕ)
  | wake (t : ℕ)
  | term (t : ℕ)
  | termWake (t : ℕ)

/-- A step. -/
def step (s : QSys) : Act → Except Fault (QEvent × QSys)
  | .push t ptr start pick => s.push t ptr start pick
  | .resumePush t start pick => s.resumePush t start pick
  | .trypush _ ptr start pick => s.trypush ptr start pick
  | .pop t timed pick => s.pop t timed pick
  | .resumePop t pick => s.resumePop t pick
  | .timeOut t => .ok (s.timeOut t)
  | .trypop _ pick => s.trypop pick
  | .trypeek _ => s.trypeek
  | .flush t => .ok (s.flush t)
  | .flushTurn t pick => s.flushTurn t pick
  | .setFlushFn _ => .ok s.setFlushFn
  | .wake _ => .ok s.wake
  | .term t => .ok (s.term t)
  | .termWake t => .ok (s.termWake t)

end QSys

/-- The threads may take the step: the one that takes it is where it starts, a
    waiter that times out has a timeout, and a signal marks a waiter that it may
    mark. -/
def QThreads.Enabled (th : QThreads) : QSys.Act → Prop
  | .push t _ _ pick | .trypush t _ _ pick => th.Ready t ∧ th.popWaiters.Picks pick
  | .resumePush t _ pick => t ∈ th.pushWaiters.tids ∧ th.popWaiters.Picks pick
  | .pop t _ pick | .trypop t pick => th.Ready t ∧ th.pushWaiters.Picks pick
  | .resumePop t pick => t ∈ th.popWaiters.tids ∧ th.pushWaiters.Picks pick
  | .timeOut t => ∃ w ∈ th.popWaiters, w.tid = t ∧ w.arg = true
  | .flushTurn t pick => t ∈ th.flushes ∧ th.Ready t ∧ th.pushWaiters.Picks pick
  | .trypeek t | .flush t | .setFlushFn t | .wake t | .term t => th.Ready t
  | .termWake t => t ∈ th.terms

instance (th : QThreads) : DecidablePred th.Enabled
  | .push _ _ _ _ | .trypush _ _ _ _ => inferInstanceAs (Decidable (_ ∧ _))
  | .resumePush _ _ _ | .resumePop _ _ => inferInstanceAs (Decidable (_ ∧ _))
  | .pop _ _ _ | .trypop _ _ | .flushTurn _ _ => inferInstanceAs (Decidable (_ ∧ _))
  | .timeOut _ => inferInstanceAs (Decidable (∃ _ ∈ _, _))
  | .trypeek _ | .flush _ | .setFlushFn _ | .wake _ | .term _ =>
    inferInstanceAs (Decidable (QThreads.Ready _ _))
  | .termWake _ => inferInstanceAs (Decidable (_ ∈ _))

/-- The address that the pool gives for a new node is not in use, and one of 64
    bits. -/
def KsQ.Grants (q : KsQ) : QSys.Act → Prop
  | .push _ _ start _ | .trypush _ _ start _ | .resumePush _ start _ =>
    start ∉ q.heap ∧ 0 < start ∧ start < 2 ^ 64
  | _ => True

instance (q : KsQ) : DecidablePred q.Grants
  | .push _ _ _ _ | .trypush _ _ _ _ | .resumePush _ _ _ => inferInstanceAs (Decidable (_ ∧ _))
  | .pop _ _ _ | .trypop _ _ | .resumePop _ _ | .flushTurn _ _ => .isTrue trivial
  | .timeOut _ | .trypeek _ | .flush _ | .setFlushFn _ | .wake _ | .term _ | .termWake _ =>
    .isTrue trivial

/-- The system may take the step. -/
def QSys.Enabled (s : QSys) (a : QSys.Act) : Prop := s.th.Enabled a ∧ s.q.Grants a

instance (s : QSys) : DecidablePred s.Enabled := fun _ => inferInstanceAs (Decidable (_ ∧ _))

end Libks
