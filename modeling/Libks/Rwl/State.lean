import Libks.Base.RwLock
import Libks.Base.Word
import Libks.Status
import Mathlib.Logic.Function.Basic

/-!
# Recursive read-write locks

A `ks_rwl_t`: a read-write lock of the system, with the thread that holds it for
writing, and how often that one has locked it again. Threads are named by
numbers, and the owner field of 0 is `none`. It is compared with the own name only,
so that no thread can see another one between two steps of a call, and a call is
one step.

The threads that use it remember, in `held`, the locks they have acquired and not
released, the last one first.
-/

namespace Libks

open Base

/-- `struct ks_rwl`. -/
structure KsRwl where
  rwlock : RwLock := {}
  writeLocker : Option ℕ := none
  wlc : ℕ := 0
  deriving DecidableEq, Repr

namespace KsRwl

/-- `ks_rwl_read_lock`, which looks at no result. -/
def readLock (r : KsRwl) (t : ℕ) : Option (Status × KsRwl) :=
  (r.rwlock.rdlock t).map fun (_, l) => (.success, { r with rwlock := l })

/-- `ks_rwl_write_lock`, which looks at no result either. -/
def writeLock (r : KsRwl) (t : ℕ) : Option (Status × KsRwl) :=
  if r.writeLocker = some t then some (.success, { r with wlc := incr32 r.wlc })
  else (r.rwlock.wrlock t).map fun (_, l) =>
    (.success, { r with rwlock := l, writeLocker := some t })

/-- `ks_rwl_try_read_lock`. -/
def tryReadLock (r : KsRwl) (t : ℕ) : Status × KsRwl :=
  match r.rwlock.tryrdlock t with
  | (.ok, l) => (.success, { r with rwlock := l })
  | (_, l) => (.fail, { r with rwlock := l })

/-- `ks_rwl_try_write_lock`. -/
def tryWriteLock (r : KsRwl) (t : ℕ) : Status × KsRwl :=
  if r.writeLocker = some t then (.success, { r with wlc := incr32 r.wlc })
  else
    match r.rwlock.trywrlock t with
    | (.ok, l) => (.success, { r with rwlock := l, writeLocker := some t })
    | (_, l) => (.fail, { r with rwlock := l })

/-- `ks_rwl_read_unlock`. -/
def readUnlock (r : KsRwl) (t : ℕ) : Status × KsRwl :=
  (.success, { r with rwlock := r.rwlock.unlock t })

/-- `ks_rwl_write_unlock`. -/
def writeUnlock (r : KsRwl) (t : ℕ) : Status × KsRwl :=
  if r.writeLocker = some t ∧ 0 < r.wlc then (.success, { r with wlc := decr32 r.wlc })
  else (.success, { r with writeLocker := none, rwlock := r.rwlock.unlock t })

end KsRwl

/-- How a lock is acquired. -/
inductive Mode
  | read
  | write
  deriving DecidableEq, Repr

/-- A lock, and what each thread has acquired and not released, the last first. -/
structure RwlSys where
  rwl : KsRwl := {}
  held : ℕ → List Mode := fun _ => []

namespace RwlSys

/-- The calls of a thread. -/
inductive Call
  | readLock (t : ℕ)
  | writeLock (t : ℕ)
  | tryReadLock (t : ℕ)
  | tryWriteLock (t : ℕ)
  | readUnlock (t : ℕ)
  | writeUnlock (t : ℕ)
  deriving DecidableEq, Repr

/-- A call to acquire the lock has returned. -/
def acquired (s : RwlSys) (t : ℕ) (mode : Mode) (r : Status × KsRwl) : Status × RwlSys :=
  (r.1, {
    rwl := r.2
    held := if r.1 = .success then Function.update s.held t (mode :: s.held t) else s.held })

/-- A call to release the lock has returned. -/
def released (s : RwlSys) (t : ℕ) (r : Status × KsRwl) : Status × RwlSys :=
  (r.1, { rwl := r.2, held := Function.update s.held t (s.held t).tail })

/-- A call, unless it has to wait. -/
def call (s : RwlSys) : Call → Except Unit (Status × RwlSys)
  | .readLock t =>
    match s.rwl.readLock t with
    | some r => .ok (s.acquired t .read r)
    | none => .error ()
  | .writeLock t =>
    match s.rwl.writeLock t with
    | some r => .ok (s.acquired t .write r)
    | none => .error ()
  | .tryReadLock t => .ok (s.acquired t .read (s.rwl.tryReadLock t))
  | .tryWriteLock t => .ok (s.acquired t .write (s.rwl.tryWriteLock t))
  | .readUnlock t => .ok (s.released t (s.rwl.readUnlock t))
  | .writeUnlock t => .ok (s.released t (s.rwl.writeUnlock t))

/-- A thread releases what it has acquired last. -/
def Allows (s : RwlSys) : Call → Prop
  | .readUnlock t => (s.held t).head? = some .read
  | .writeUnlock t => (s.held t).head? = some .write
  | _ => True

instance (s : RwlSys) : DecidablePred s.Allows
  | .readUnlock _ | .writeUnlock _ => inferInstanceAs (Decidable (_ = _))
  | .readLock _ | .writeLock _ | .tryReadLock _ | .tryWriteLock _ => .isTrue trivial

end RwlSys

end Libks
