import Mathlib.Tactic

/-!
# Spans

Half-open ranges of numbers, disjoint or laid end to end.
-/

structure Span where
  start : ℕ
  length : ℕ
  deriving DecidableEq

namespace Span

def Mem (x : ℕ) (s : Span) : Prop := s.start ≤ x ∧ x < s.start + s.length

/-- No number is in both spans. -/
def Disjoint (s t : Span) : Prop := ∀ x, Mem x s → ¬ Mem x t

/-- The span's numbers are at least `a` and less than `b`. -/
def Within (a b : ℕ) (s : Span) : Prop := ∀ x, Mem x s → a ≤ x ∧ x < b

/-- The spans follow one another from `a` to `b`. -/
def Tiles : ℕ → ℕ → List Span → Prop
  | a, b, [] => a = b
  | a, b, s :: ss => s.start = a ∧ Tiles (a + s.length) b ss

end Span
