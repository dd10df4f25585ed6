import Mathlib.Data.Finset.Card
import Mathlib.Data.Finset.Union
import Mathlib.Tactic

/-!
# Radix trees in a heap of tables

A table maps an index to a word or to nothing. In a tree of height `n` the words of the upper `n`
levels are links to tables one level down, and the words of the lowest level are the tree's
values; a value is found by a path of `n + 1` indices. Inserting a path takes the tables it lacks
from a list of free ones, and fails when the path has a value or the list runs out.
-/

namespace Radix

variable {A I W : Type*}

/-- How a word names a table. -/
structure Links (A W : Type*) where
  next : W → A
  link : A → W
  next_link : ∀ a, next (link a) = a

/-- What each table holds at each index. -/
abbrev Heap (A I W : Type*) := A → I → Option W

/-- A heap and the tables not in use, in the order they are handed out. -/
structure Store (A I W : Type*) where
  heap : Heap A I W
  free : List A

/-- Why an operation on a path fails. -/
inductive Fault
  | taken
  | exhausted
  | absent
  deriving DecidableEq, Repr

section Operations

variable [DecidableEq A] [DecidableEq I] (L : Links A W)

def put (h : Heap A I W) (a : A) (i : I) (w : W) : Heap A I W :=
  fun b j => if b = a ∧ j = i then some w else h b j

def clear (h : Heap A I W) (b : A) : Heap A I W :=
  fun c j => if c = b then none else h c j

/-- The heap with the empty table `b` linked at `a`, `i`. -/
def graft (h : Heap A I W) (a : A) (i : I) (b : A) : Heap A I W :=
  put (clear h b) a i (L.link b)

/-- Set a path that has no value, making the tables it lacks. -/
def assign (s : Store A I W) (a : A) : List I → W → Except Fault (Store A I W)
  | [], _ => .error .absent
  | [i], w =>
    match s.heap a i with
    | some _ => .error .taken
    | none => .ok { s with heap := put s.heap a i w }
  | i :: j :: p, w =>
    match s.heap a i with
    | some u => assign s (L.next u) (j :: p) w
    | none =>
      match s.free with
      | [] => .error .exhausted
      | b :: bs => assign ⟨graft L s.heap a i b, bs⟩ b (j :: p) w

/-- Change the value a path has. -/
def amend (s : Store A I W) (a : A) (f : W → W) : List I → Except Fault (Store A I W)
  | [] => .error .absent
  | [i] =>
    match s.heap a i with
    | some w => .ok { s with heap := put s.heap a i (f w) }
    | none => .error .absent
  | i :: j :: p =>
    match s.heap a i with
    | some u => amend s (L.next u) f (j :: p)
    | none => .error .absent

/-- Insert paths one after the other. -/
def assignAll (s : Store A I W) (a : A) : List (List I × W) → Except Fault (Store A I W)
  | [] => .ok s
  | (p, w) :: ps =>
    match assign L s a p w with
    | .ok s' => assignAll s' a ps
    | .error e => .error e

end Operations

variable (L : Links A W) (h : Heap A I W)

/-- The value at a path. -/
def lookup : A → List I → Option W
  | _, [] => none
  | a, [i] => h a i
  | a, i :: j :: p => (h a i).bind fun w => lookup (L.next w) (j :: p)

/-- The number of tables a path lacks. -/
def missing : A → List I → ℕ
  | _, [] => 0
  | _, [_] => 0
  | a, i :: j :: p =>
    match h a i with
    | some w => missing (L.next w) (j :: p)
    | none => p.length + 1

/-- The table a path of links leads to. -/
def tableAt : A → List I → Option A
  | a, [] => some a
  | a, i :: p => (h a i).bind fun w => tableAt (L.next w) p

/-- `b` is a table of the tree of height `n` at `a`. -/
def Below : ℕ → A → A → Prop
  | 0, a, b => b = a
  | n + 1, a, b => b = a ∨ ∃ i w, h a i = some w ∧ Below n (L.next w) b

/-- The tables under `a` form a tree of height `n`: no two links lead to one table. -/
def Tree : ℕ → A → Prop
  | 0, _ => True
  | n + 1, a =>
    (∀ i w, h a i = some w → w = L.link (L.next w) ∧ Tree n (L.next w) ∧ ¬ Below L h n (L.next w) a)
      ∧ ∀ i j u v b, h a i = some u → h a j = some v →
        Below L h n (L.next u) b → Below L h n (L.next v) b → i = j

/-- The tables at `a` form a tree, and the free tables are distinct and none of its. -/
structure Sound (n : ℕ) (a : A) (s : Store A I W) : Prop where
  tree : Tree L s.heap n a
  nodup : s.free.Nodup
  fresh : ∀ b ∈ s.free, ¬ Below L s.heap n a b

/-- From `s` to `s'` the tree at `a` has grown by free tables only, and no other table changed. -/
def Grown (n : ℕ) (a : A) (s s' : Store A I W) (used : List A) : Prop :=
  s.free = used ++ s'.free
    ∧ (∀ b, Below L s'.heap n a b ↔ Below L s.heap n a b ∨ b ∈ used)
    ∧ ∀ b, ¬ Below L s.heap n a b → b ∉ used → s'.heap b = s.heap b

/-- The tables a path leads through, below the first. -/
def inner [DecidableEq I] (p : List I) : Finset (List I) :=
  ((List.range p.length).map p.take).toFinset.erase []

/-- The tables that some of the paths lead through and that are not there yet. -/
def demand [DecidableEq I] (a : A) (ps : List (List I)) : Finset (List I) :=
  (ps.toFinset.biUnion inner).filter fun q => (tableAt L h a q).isNone

end Radix
