import SctOs.Chains
import SctOs.Elf

/-!
# The hash table of symbols

`init_hash_table` of `lib/elf.c` and `print_hash_table` of `test/print-elf.c`. Memory is an array of
words, and a pointer is an index of it. A printed symbol is its index.
-/

namespace SctOs

structure ElfHashTable where
  nbucket : Elf64Word
  nchain : Elf64Word
  buckets : ℕ
  chains : ℕ
  deriving DecidableEq, Repr

namespace ElfHashTable

def initHashTable (m : ℕ → Elf64Word) (addr : ℕ) : ElfHashTable where
  nbucket := m addr
  nchain := m (addr + 1)
  buckets := addr + 2
  chains := addr + 2 + (m addr).toNat

/-- What was printed, and the words that were read for it. -/
structure Printing where
  printed : List Elf64Word
  read : List ℕ

/-- It stops when there is no fuel left. -/
abbrev M := EStateM Unit Printing

def readWord (m : ℕ → Elf64Word) (k : ℕ) : M Elf64Word := do
  modify fun s => { s with read := s.read ++ [k] }
  return m k

def printSymbol (j : Elf64Word) : M Unit :=
  modify fun s => { s with printed := s.printed ++ [j] }

variable (m : ℕ → Elf64Word)

/-- `for (k = ...; *k; ++k)`. -/
def printChain : ℕ → ℕ → M Unit
  | 0, _ => throw ()
  | fuel + 1, k => do
    let w ← readWord m k
    if w = 0 then return
    printSymbol w
    printChain fuel (k + 1)

def printBucket (t : ElfHashTable) (fuel i : ℕ) : M Unit := do
  let j ← readWord m (t.buckets + i)
  if j = 0 then return
  printSymbol j
  printChain m fuel (t.chains + i)

def printHashTable (t : ElfHashTable) (fuel : ℕ) : M Unit :=
  (List.range t.nbucket.toNat).forM (printBucket m t fuel)

end ElfHashTable

/-! ## Hash tables -/

structure HashTable where
  buckets : List Elf64Word
  chains : List Elf64Word

namespace HashTable

variable (t : HashTable)

def next (j : Elf64Word) : Option Elf64Word := t.chains[j.toNat]?

/-- The symbols on the chain from an index on. -/
abbrev Chain : Elf64Word → List Elf64Word → Prop := Chains.Chain t.next 0

structure WellFormed : Prop where
  nbucket : t.buckets.length < 2 ^ 32
  nchain : t.chains.length < 2 ^ 32
  buckets : ∀ j ∈ t.buckets, j.toNat < t.chains.length
  chains : ∀ j ∈ t.chains, j.toNat < t.chains.length
  /-- A chain is acyclic and ends at 0. -/
  ends : ∀ j ∈ t.buckets, ∃ l, t.Chain j l
  disjoint : t.buckets.Pairwise fun j k => ∀ l, t.Chain j l → ∀ l', t.Chain k l' → l.Disjoint l'

/-- The table in memory. -/
structure InMemory (m : ℕ → Elf64Word) (addr : ℕ) : Prop where
  nbucket : (m addr).toNat = t.buckets.length
  nchain : (m (addr + 1)).toNat = t.chains.length
  buckets : ∀ i < t.buckets.length, t.buckets[i]? = some (m (addr + 2 + i))
  chains : ∀ i < t.chains.length, t.chains[i]? = some (m (addr + 2 + t.buckets.length + i))

/-- The words of the buckets and of the chains. -/
def Inside (addr k : ℕ) : Prop :=
  addr + 2 ≤ k ∧ k < addr + 2 + t.buckets.length + t.chains.length

end HashTable

/-- It prints the symbols of each bucket's chain, and reads nothing outside. -/
def PrintsChains (t : HashTable) (m : ℕ → Elf64Word) (addr : ℕ) : Prop :=
  ∃ fuel s, (ElfHashTable.printHashTable m (ElfHashTable.initHashTable m addr) fuel).run ⟨[], []⟩ =
    .ok () s ∧ (∀ k ∈ s.read, t.Inside addr k) ∧
    ∃ ls, List.Forall₂ t.Chain t.buckets ls ∧ s.printed = ls.flatten

end SctOs
