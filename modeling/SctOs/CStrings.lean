import Mathlib.Tactic

/-!
# Strings that end in a zero

A string is an object of its characters and the terminator. A pointer into it is what is left of the
object from there on, so reading past the terminator finds nothing.
-/

/-- The characters before the terminator. No object is larger than `PTRDIFF_MAX` bytes. -/
structure CString (w : ℕ) where
  chars : List (BitVec w)
  nonzero : ∀ c ∈ chars, c ≠ 0#w
  fits : (chars.length + 1) * (w / 8) < 2 ^ 63

namespace CString

variable {w : ℕ}

/-- The object that the string is. -/
def object (s : CString w) : List (BitVec w) := s.chars ++ [0#w]

/-- `*s`. -/
def deref : List (BitVec w) → Option (BitVec w)
  | [] => none
  | c :: _ => some c

/-- `n + strlen(s)`. -/
def lengthFrom : List (BitVec w) → BitVec 64 → Option (BitVec 64)
  | [], _ => none
  | c :: s, n => if c = 0#w then some n else lengthFrom s (n + 1)

end CString
