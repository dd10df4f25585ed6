import Mathlib.Data.List.Perm.Basic

/-!
# Ledgers

What an allocator has returned and what has been passed back to it, each as a list, and what of it is
still to be freed.
-/

namespace Ledger

open scoped List

/-- All that was allocated has been freed once, but for `ps`. -/
def Owed {ι : Type*} (allocated freed ps : List ι) : Prop :=
  ps ++ freed ~ allocated ∧ allocated.Nodup

end Ledger
