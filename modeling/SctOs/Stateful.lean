import Mathlib.Tactic

/-!
# Runs that may stop

A run of a state monad with errors ends in a state either way. `Keeps` says that this state still
has a property which the one before had, where only some of the errors may count.
-/

namespace Stateful

variable {ε σ α : Type}

/-- The state in which a run ends. -/
def final : EStateM.Result ε σ α → σ
  | .ok _ t => t
  | .error _ t => t

/-- When `x` ends, also with an error that counts, what held before it holds after it. -/
def Keeps (counts : ε → Prop) (P : σ → Prop) (x : EStateM ε σ α) : Prop :=
  ∀ s, P s → match x.run s with
    | .ok _ t => P t
    | .error e t => counts e → P t

/-- When `x` ends, the state is as it was, and this holds of what it returns. -/
def Reads (Q : α → Prop) (x : EStateM ε σ α) : Prop := ∀ s a t, x.run s = .ok a t → t = s ∧ Q a

end Stateful
