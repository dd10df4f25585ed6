import SctOs.Machine
import SctOs.Radix
import SctOs.Proofs.Pages

/-!
# Page tables as a radix tree

Read through the window at `base`, the memory is a heap of tables numbered by frames, whose words
are the present entries. The four indices of an address are its path, and an entry of an upper
level links to the table in the frame it names.
-/

namespace SctOs

open Bytes Radix

abbrev Index := BitVec 9

def pathIndex (v : U64) (level : ℕ) : Index := v.extractLsb' (12 + 9 * (level - 1)) 9

/-- The indices of `v` in a tree of height `n`. -/
def pathFrom (v : U64) : ℕ → List Index
  | 0 => [pathIndex v 1]
  | n + 1 => pathIndex v (n + 2) :: pathFrom v n

def path (v : U64) : List Index := pathFrom v 3

/-- The address of a table's entry. -/
def slot (base : U64) (f : Frame) (i : Index) : U64 := base + frameAddr f + 8 * i.setWidth 64

/-- The present entries of each table. -/
def heapOf (base : U64) (m : Memory) : Heap Frame Index U64 := fun f i =>
  if load m (slot base f i) &&& pteP = 0 then none else some (load m (slot base f i))

/-- A table is linked by a present and writable entry. -/
def links : Links Frame U64 where
  next := frameOf
  link f := frameAddr f ||| pteP ||| pteRw
  next_link _ := frameOf_entry (by decide)

/-- The memory as the processor's walk sees it: by physical addresses. -/
def physical (base : U64) (m : Memory) : Memory := fun p => m (base + p)

/-- `m` and `m'` differ at most inside the pages of `fs`. -/
def OnlyPages (base : U64) (fs : Frame → Prop) (m m' : Memory) : Prop :=
  ∀ x, (∀ f, fs f → 4096 ≤ (x - (base + frameAddr f)).toNat) → m' x = m x

/-- How a program takes zeroed pages from its pool, and which pages the pool will give. -/
structure Allocator (σ : Type) where
  base : U64
  allocate : Run σ U64
  stop : Stop
  Holds : Machine σ → List Frame → Prop
  empty : ∀ s, Holds s [] → allocate s = .error stop
  take : ∀ s f fs, Holds s (f :: fs) → (f :: fs).Nodup →
    ∃ pool, allocate s = .ok (frameAddr f, ⟨fill s.mem (base + frameAddr f) 4096 0, pool⟩)
      ∧ Holds ⟨fill s.mem (base + frameAddr f) 4096 0, pool⟩ fs
  stable : ∀ s fs m, Holds s fs →
    (∀ f ∈ fs, SameAt m s.mem (base + frameAddr f) 4096) → Holds { s with mem := m } fs

variable {σ : Type}

/-- The machine's tables and pool are those of the store. -/
structure Models (A : Allocator σ) (s : Machine σ) (st : Store Frame Index U64) : Prop where
  heap : heapOf A.base s.mem = st.heap
  pool : A.Holds s st.free

/-- A page to map. -/
structure Request where
  ppage : U64
  vpage : U64
  flags : U64
  deriving DecidableEq

/-- The leaf entry a request writes. -/
def Request.entry (q : Request) : U64 := q.ppage ||| pteP ||| q.flags

def Request.pair (q : Request) : List Index × U64 := (path q.vpage, q.entry)

/-- Map pages one after the other. -/
def mapAll (ptr : U64 → U64) (allocate : Run σ U64) (root : U64) (qs : List Request) :
    Run σ Unit :=
  qs.forM fun q => mapPageWith ptr allocate root q.ppage q.vpage q.flags

/-- The number of tables under the root that mapping some pages in an empty space takes: one for
each part of the space that a table spans and that holds one of the pages. -/
def tablesNeeded (vpages : List U64) : ℕ := ((vpages.map path).toFinset.biUnion inner).card

end SctOs
