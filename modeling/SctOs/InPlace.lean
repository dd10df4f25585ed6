import Mathlib.Tactic

/-!
# Loops that rewrite an array in place

Two loops over the slots of an array. The first merges each element into the last one kept, when
the two join, and keeps it otherwise, so that the merged elements fill a prefix and the slots after
it are stale. The second replaces each element by one that depends on it and on an accumulator.
-/

namespace InPlace

variable {α β : Type*}

/-- The state of the merging loop: the slots, the index of the last element kept, and how many are
kept. -/
structure Merge (α : Type*) where
  slots : List α
  prev : ℕ
  newLength : ℕ

section

variable [Inhabited α] (prepare : α → α) (joins : α → α → Prop) [DecidableRel joins]
  (join : α → α → α)

/-- Prepare the `i`-th element in its slot, and merge or keep it. -/
def mergeStep (s : Merge α) (i : ℕ) : Merge α :=
  let x := prepare s.slots[i]!
  let slots := s.slots.set i x
  let prev := slots[s.prev]!
  if joins prev x then { s with slots := slots.set s.prev (join prev x) }
  else ⟨slots.set s.newLength x, s.newLength, s.newLength + 1⟩

/-- Replace the `i`-th element. -/
def scanStep (f : β → α → α × β) (s : List α × β) (i : ℕ) : List α × β :=
  (s.1.set i (f s.2 s.1[i]!).1, (f s.2 s.1[i]!).2)

end

/-- The elements after `prev` merged into it or kept, as a list. -/
def merged (joins : α → α → Prop) [DecidableRel joins] (join : α → α → α) : α → List α → List α
  | prev, [] => [prev]
  | prev, x :: xs =>
    if joins prev x then merged joins join (join prev x) xs
    else prev :: merged joins join x xs

/-- The number of elements that do not join the one before them. -/
def breaks (joins : α → α → Prop) [DecidableRel joins] : α → List α → ℕ
  | _, [] => 0
  | prev, x :: xs => (if joins prev x then 0 else 1) + breaks joins x xs

/-- The elements replaced from left to right, as a list. -/
def scanned (f : β → α → α × β) : β → List α → List α
  | _, [] => []
  | b, x :: xs => (f b x).1 :: scanned f (f b x).2 xs

end InPlace
