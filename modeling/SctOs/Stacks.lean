import SctOs.Bytes

/-!
# Stacks

A stack in a byte memory grows down, and its words have `k` bytes.
-/

namespace Bytes

variable {w : ℕ}

/-- The words from the top of the stack on. -/
def Stacked (k : ℕ) (m : Mem w) : BitVec w → List ℕ → Prop
  | _, [] => True
  | sp, v :: vs => readLE m sp k = v ∧ Stacked k m (sp + BitVec.ofNat w k) vs

end Bytes
