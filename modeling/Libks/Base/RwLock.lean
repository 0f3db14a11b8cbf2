import Mathlib.Data.List.Basic
import Mathlib.Tactic.Common

/-!
# Read-write locks

A POSIX read-write lock: it is held by one writer, or by any number of readers, a
thread once for every time it has locked it. A writer that locks it again is told
of the deadlock, and nothing is changed. A thread that has to wait takes no step:
it may be scheduled again when the lock is free.
-/

namespace Base

/-- A read-write lock. -/
structure RwLock where
  writer : Option ℕ := none
  readers : List ℕ := []
  deriving DecidableEq, Repr

/-- What the functions return. -/
inductive Errno
  | ok
  | edeadlk
  | ebusy
  deriving DecidableEq, Repr

namespace RwLock

/-- `pthread_rwlock_rdlock`, if it need not wait. -/
def rdlock (l : RwLock) (t : ℕ) : Option (Errno × RwLock) :=
  if l.writer = some t then some (.edeadlk, l)
  else if l.writer = none then some (.ok, { l with readers := t :: l.readers })
  else none

/-- `pthread_rwlock_wrlock`, if it need not wait. -/
def wrlock (l : RwLock) (t : ℕ) : Option (Errno × RwLock) :=
  if l.writer = some t then some (.edeadlk, l)
  else if l.writer = none ∧ l.readers = [] then some (.ok, { l with writer := some t })
  else none

/-- `pthread_rwlock_tryrdlock`. -/
def tryrdlock (l : RwLock) (t : ℕ) : Errno × RwLock :=
  if l.writer = none then (.ok, { l with readers := t :: l.readers }) else (.ebusy, l)

/-- `pthread_rwlock_trywrlock`. -/
def trywrlock (l : RwLock) (t : ℕ) : Errno × RwLock :=
  if l.writer = none ∧ l.readers = [] then (.ok, { l with writer := some t }) else (.ebusy, l)

/-- `pthread_rwlock_unlock`, of a lock that the thread holds. -/
def unlock (l : RwLock) (t : ℕ) : RwLock :=
  if l.writer = some t then { l with writer := none } else { l with readers := l.readers.erase t }

end RwLock

end Base
