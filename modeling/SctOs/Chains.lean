import Mathlib.Data.List.Nodup

/-!
# Linked lists

Links from one element to the next one, as an array of indices has them.
-/

namespace Chains

/-- The list from an element up to the one that stands for the end. -/
inductive Chain {α : Type} (next : α → Option α) (stop : α) : α → List α → Prop
  | nil : Chain next stop stop []
  | cons {a b : α} {l : List α} : a ≠ stop → next a = some b → Chain next stop b l →
    Chain next stop a (a :: l)

end Chains
