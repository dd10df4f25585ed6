import Mathlib.Data.BitVec

/-!
# Loops with a counter

`for (i = start; i < bound; ++i)` with a counter of `w` bits, which wraps around. A loop is run with
fuel, and is stuck when there is none left.
-/

namespace Counter

variable {ε σ α : Type} {w : ℕ}

def loop (stuck : ε) (bound : ℕ) (body : BitVec w → EStateM ε σ Unit) :
    ℕ → BitVec w → EStateM ε σ Unit
  | 0, _ => throw stuck
  | fuel + 1, i =>
    if i.toNat < bound then do
      body i
      loop stuck bound body fuel (i + 1)
    else pure ()

/-- `x` ends like this from `s`, unless the fuel is not enough. -/
def Gives (stuck : ε) (enough : Prop) (x : EStateM ε σ α) (s : σ) (a : α) (t : σ) : Prop :=
  x.run s = .ok a t ∨ ¬enough ∧ ∃ s', x.run s = .error stuck s'

end Counter
