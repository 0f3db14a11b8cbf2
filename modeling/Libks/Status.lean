/-!
# Results

The results of the functions of the library that return a `ks_status_t`.
-/

namespace Libks

/-- The values of `ks_status_t` that the modelled functions return. -/
inductive Status
  | success
  | fail
  | break
  | inactive
  | timeout
  | refsExist
  | generr
  deriving DecidableEq, Repr

end Libks
