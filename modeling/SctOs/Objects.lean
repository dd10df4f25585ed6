import SctOs.Bytes

/-!
# Objects in a byte memory

An object is a list of bytes, and the memory holds it from an address on.
-/

namespace Bytes

variable {w : ℕ}

/-- The number in `n` bytes. -/
def bytesLE (n k : ℕ) : List (BitVec 8) := (List.range n).map fun i => BitVec.ofNat 8 (k / 256 ^ i)

/-- The memory has the bytes of the list from `a` on. -/
def BytesAt (m : Mem w) (a : BitVec w) (bs : List (BitVec 8)) : Prop :=
  ∀ i (hi : i < bs.length), m (a + BitVec.ofNat w i) = bs[i]

/-- The memory with the bytes of the list from `a` on. -/
def place (m : Mem w) (a : BitVec w) (bs : List (BitVec 8)) : Mem w :=
  blit m a bs.length fun i => bs.getD i 0

/-- The copy of `n` bytes from `src` to `dst`. -/
def copy (m : Mem w) (dst src : BitVec w) (n : ℕ) : Patch w := ⟨dst, n, bytesFrom m src⟩

/-- The patches lay the bytes of the list one after the other, from `a` on. -/
inductive Lays : BitVec w → List (Patch w) → List (BitVec 8) → Prop
  | nil (a : BitVec w) : Lays a [] []
  | cons {a : BitVec w} {p : Patch w} {ps : List (Patch w)} {xs ys : List (BitVec 8)}
      (start : p.start = a) (length : p.length = xs.length)
      (byte : ∀ i (hi : i < xs.length), p.byte i = xs[i])
      (rest : Lays (a + BitVec.ofNat w xs.length) ps ys) : Lays a (p :: ps) (xs ++ ys)

end Bytes
