import SctOs.Bytes

/-!
# Memories behind a translation

A program reads and writes a memory through a translation of its addresses, whose tables are in the
memory itself. An access to an address that does not lead anywhere faults, and so does a write where
none is allowed.
-/

namespace Bytes

variable {w : ℕ}

/-- Where an address leads, and whether it may be written. -/
abbrev Translation (w : ℕ) := Mem w → BitVec w → Option (BitVec w × Bool)

namespace Translation

variable (tr : Translation w)

/-- The memory as it is read. -/
def view (phys : Mem w) : Mem w := fun v =>
  match tr phys v with
  | some t => phys t.1
  | none => 0

/-- The number in `n` bytes, or the address that faults. -/
def read (phys : Mem w) (v : BitVec w) (n : ℕ) : Except (BitVec w) ℕ :=
  if ∀ i < n, (tr phys (v + BitVec.ofNat w i)).isSome then .ok (readLE (tr.view phys) v n)
  else .error v

def poke (phys : Mem w) (v : BitVec w) (b : BitVec 8) : Except (BitVec w) (Mem w) :=
  match tr phys v with
  | some (a, true) => .ok (Function.update phys a b)
  | _ => .error v

/-- Write `f 0`, `f 1`, … from `v` on. -/
def write (phys : Mem w) (v : BitVec w) (n : ℕ) (f : ℕ → BitVec 8) : Except (BitVec w) (Mem w) :=
  (List.range n).foldlM (fun phys i => tr.poke phys (v + BitVec.ofNat w i) (f i)) phys

/-! ## Writing what the tables are not in -/

section Shows

variable (phys₀ : Mem w) (V : BitVec w → Prop)

/-- Where the addresses lead. -/
def Reached (a : BitVec w) : Prop := ∃ v, V v ∧ (tr phys₀ v).map Prod.fst = some a

/-- The addresses lead to different places, and the tables are in none of these. -/
structure Stable : Prop where
  mapped : ∀ v, V v → (tr phys₀ v).isSome
  inj : ∀ v v', V v → V v' → (tr phys₀ v).map Prod.fst = (tr phys₀ v').map Prod.fst → v = v'
  kept : ∀ m, (∀ a, ¬ tr.Reached phys₀ V a → m a = phys₀ a) → ∀ v, V v → tr m v = tr phys₀ v

/-- At the addresses the memory reads as `m`, and the rest of it is as it was. -/
structure Shows (m phys : Mem w) : Prop where
  outside : ∀ a, ¬ tr.Reached phys₀ V a → phys a = phys₀ a
  inside : ∀ v, V v → tr.view phys v = m v

end Shows

end Translation

end Bytes
