import Mathlib.Data.List.Sort

/-!
# Insertion sort in place

An element sinks below its neighbours as long as they may not stand before it. Each access of the
array is checked.
-/

namespace InsertionSort

variable {α : Type}

def swap (l : List α) (i j : ℕ) : Option (List α) := do
  let tmp ← l[i]?
  let e2 ← l[j]?
  return (l.set i e2).set j tmp

variable (r : α → α → Prop) [DecidableRel r]

/-- Sink the element at the index. -/
def sink : ℕ → List α → Option (List α)
  | 0, l => some l
  | j + 1, l => do
    let here ← l[j + 1]?
    let back ← l[j]?
    if r back here then return l
    sink j (← swap l (j + 1) j)

/-- Sort the first `n` elements. -/
def sort (n : ℕ) (l : List α) : Option (List α) :=
  (List.range' 1 (n - 1)).foldlM (fun l i => sink r i l) l

end InsertionSort
