/-!
# Faults

How a run of the program ends that the C standard or an assertion puts an end
to. `outOfFuel` is no fault of the program: it is how a bounded run of a loop
says that its bound was too small.
-/

namespace Libks

/-- What ends a run of the program. -/
inductive Fault
  | outOfBounds
  | overflow
  | assertion
  | outOfFuel
  deriving DecidableEq, Repr

end Libks
