import Mathlib.Tactic

/-!
# Byte memories

A memory over `w`-bit addresses gives each address a byte, and addresses wrap. Every write is a
`blit`: a run of bytes laid over the memory from an address on. A read of `n` bytes is taken
little endian.
-/

namespace Bytes

variable {w : ℕ}

/-- A memory: a byte at every `w`-bit address. -/
abbrev Mem (w : ℕ) := BitVec w → BitVec 8

/-- The memory `m` with the `n` bytes from `a` on replaced by `f 0`, `f 1`, …. -/
def blit (m : Mem w) (a : BitVec w) (n : ℕ) (f : ℕ → BitVec 8) : Mem w :=
  fun x => if (x - a).toNat < n then f (x - a).toNat else m x

/-- `n` copies of `b` from `a` on. -/
def fill (m : Mem w) (a : BitVec w) (n : ℕ) (b : BitVec 8) : Mem w := blit m a n fun _ => b

/-- The `i`-th byte of `v`, little endian. -/
def byteOf (v i : ℕ) : BitVec 8 := BitVec.ofNat 8 (v / 256 ^ i)

/-- The `n` bytes of `v`, little endian, from `a` on. -/
def writeLE (m : Mem w) (a : BitVec w) (n v : ℕ) : Mem w := blit m a n (byteOf v)

/-- A run of bytes to be written. -/
structure Patch (w : ℕ) where
  start : BitVec w
  length : ℕ
  byte : ℕ → BitVec 8

/-- The patch reaches the address. -/
def Patch.Mem (x : BitVec w) (p : Patch w) : Prop := (x - p.start).toNat < p.length

/-- Runs of bytes written one after the other. -/
def patchAll (m : Mem w) (ps : List (Patch w)) : Mem w :=
  ps.foldl (fun m p => blit m p.start p.length p.byte) m

/-- `k`-byte numbers written one after the other, each with its address. -/
def writeAll (k : ℕ) (m : Mem w) (ws : List (BitVec w × ℕ)) : Mem w :=
  ws.foldl (fun m x => writeLE m x.1 k x.2) m

/-- The number whose little-endian bytes are the `n` bytes from `a` on. -/
def readLE (m : Mem w) (a : BitVec w) : ℕ → ℕ
  | 0 => 0
  | n + 1 => (m a).toNat + 256 * readLE m (a + BitVec.ofNat w 1) n

/-- The bytes from `a` on. -/
def bytesFrom (m : Mem w) (a : BitVec w) (i : ℕ) : BitVec 8 := m (a + BitVec.ofNat w i)

/-- The number whose little-endian bytes are those at `i`, `i + 1`, …. -/
def number (b : ℕ → BitVec 8) (i : ℕ) : ℕ → ℕ
  | 0 => 0
  | n + 1 => (b i).toNat + 256 * number b (i + 1) n

/-- The `k` bytes from `b` on meet none of the `n` bytes from `a` on. -/
def Apart (a : BitVec w) (n : ℕ) (b : BitVec w) (k : ℕ) : Prop :=
  ∀ j < k, n ≤ (b + BitVec.ofNat w j - a).toNat

instance (a : BitVec w) (n : ℕ) (b : BitVec w) (k : ℕ) : Decidable (Apart a n b k) :=
  inferInstanceAs (Decidable (∀ j < k, _))

/-- The memories have the same `n` bytes from `a` on. -/
def SameAt (m m' : Mem w) (a : BitVec w) (n : ℕ) : Prop :=
  ∀ i < n, m (a + BitVec.ofNat w i) = m' (a + BitVec.ofNat w i)

end Bytes
