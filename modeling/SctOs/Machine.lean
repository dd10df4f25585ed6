import SctOs.Pages

/-!
# Programs on a memory

The kernel and its loader run on a memory and a supply of pages: the kernel's is the head of its
free list, the loader's the pages the firmware will hand it. Neither returns from an error; a
program either finishes with a result or stops.
-/

namespace SctOs

open Bytes

/-- Where a program stops: each `halt` of the kernel and `EXIT_STATUS` of the loader. -/
inductive Stop
  /-- `allocate_physical_page` on an empty free list: not implemented. -/
  | noFreePage
  /-- `new_address_space` gets no page. -/
  | noMem
  /-- `map_page` on a mapped page. -/
  | remap
  /-- `set_vpage_ro` on an unmapped page. -/
  | notMapped
  /-- The firmware's `AllocatePages` fails. -/
  | allocatePages
  /-- The firmware's `GetMemoryMap` fails. -/
  | getMemoryMap
  /-- `init_mmap` on an empty map. -/
  | noEntries
  /-- `init_mmap` on a map whose first entry is not the NULL page. -/
  | firstEntry
  /-- The firmware's `Read` gives fewer bytes than asked for. -/
  | elfRead
  /-- The kernel is not an ELF file. -/
  | notElf
  /-- The kernel has no program headers: their array is not set. -/
  | noPhdrs
  /-- The kernel's first program header does not load the start of the file. -/
  | firstPhdr
  deriving DecidableEq, Repr

/-- A memory and the supply `allocate` takes pages from. -/
structure Machine (σ : Type) where
  mem : Memory
  pool : σ

/-- A program on a machine. -/
abbrev Run (σ : Type) := StateT (Machine σ) (Except Stop)

variable {σ : Type}

def readWord (a : U64) : Run σ U64 := do return load (← get).mem a

def writeWord (a v : U64) : Run σ Unit := modify fun s => { s with mem := store s.mem a v }

/-- Both of `memset`'s loops, by words and by bytes, leave `n` copies of `c`. -/
def memset (a : U64) (c : BitVec 8) (n : U64) : Run σ Unit :=
  modify fun s => { s with mem := fill s.mem a n.toNat c }

/-- The table one level down from `table` on the way to `vpage`, allocated if it is missing.
`ptr` is how the program reaches a physical page. -/
def nextTable (ptr : U64 → U64) (allocate : Run σ U64) (table vpage : U64) (level : ℕ) :
    Run σ U64 := do
  let e := table + 8 * pageLevelIndex vpage level
  if (← readWord e) &&& pteP = 0 then
    writeWord e ((← allocate) ||| pteP ||| pteRw)
  return ptr ((← readWord e) &&& pteAddrMask)

/-- Both programs' `map_page`: they differ in how they reach a physical page and in where they get
a zeroed page from. -/
def mapPageWith (ptr : U64 → U64) (allocate : Run σ U64) (root ppage vpage flags : U64) :
    Run σ Unit := do
  let level3 ← nextTable ptr allocate root vpage 4
  let level2 ← nextTable ptr allocate level3 vpage 3
  let level1 ← nextTable ptr allocate level2 vpage 2
  let e := level1 + 8 * pageLevelIndex vpage 1
  if (← readWord e) &&& pteP ≠ 0 then throw .remap
  writeWord e (ppage ||| pteP ||| flags)

end SctOs
