import SctOs.Bytes

/-!
# Pages and page tables

The macros of `opsys/virtual-memory.h` and the processor's own walk of the four levels of page
tables. Addresses and entries are 64-bit words, and arithmetic on them wraps.
-/

namespace SctOs

open Bytes

abbrev U64 := BitVec 64

abbrev Memory := Mem 64

/-- The 64-bit word at an address. -/
def load (m : Memory) (a : U64) : U64 := BitVec.ofNat 64 (readLE m a 8)

def store (m : Memory) (a v : U64) : Memory := writeLE m a 8 v.toNat

def pageSize : U64 := 0x1000

/-- The base address of the page containing `addr`. -/
def pageBase (addr : U64) : U64 := addr &&& ~~~(pageSize - 1)

/-- The base address of the next page. -/
def nextPage (addr : U64) : U64 := pageBase (addr + pageSize)

/-- The offset of the given address within its own page. -/
def pageOffset (addr : U64) : U64 := addr &&& (pageSize - 1)

/-- The number of pages spanned by addresses in `[base, base + size)`. -/
def numPages (base size : U64) : U64 := nextPage (base + size - 1 - pageBase base) / pageSize

def p1GB : U64 := 1024 * 1024 * 1024

def kernelBase : U64 := -p1GB

/-- The index within the given (1-indexed) page level that `vaddr` refers to. -/
def pageLevelIndex (vaddr : U64) (level : ℕ) : U64 := (vaddr >>> (12 + 9 * (level - 1))) &&& 0x1ff

/-! ## Entries -/

/-- Present. -/
def pteP : U64 := 1 <<< 0

/-- Read and write; without it, read only. -/
def pteRw : U64 := 1 <<< 1

/-- Physical address to the next paging level. -/
def pteAddrMask : U64 := 0xfffffffff000

/-- A page of physical memory, by number: page aligned and below `2 ^ 48`. -/
abbrev Frame := BitVec 36

def frameAddr (f : Frame) : U64 := f.setWidth 64 <<< 12

def frameOf (e : U64) : Frame := e.extractLsb' 12 36

/-- The frames of `n` pages. -/
def framesFrom (f : Frame) (n : ℕ) : List Frame :=
  (List.range n).map fun i => f + BitVec.ofNat 36 i

/-! ## The walk -/

/-- The upper 17 bits are equal. -/
def Canonical (v : U64) : Prop := v.toNat < 2 ^ 47 ∨ 2 ^ 64 - 2 ^ 47 ≤ v.toNat

instance (v : U64) : Decidable (Canonical v) := inferInstanceAs (Decidable (_ ∨ _))

/-- Where a virtual address leads, and whether it may be written. -/
structure Mapping where
  paddr : U64
  writable : Bool
  deriving DecidableEq, Repr

/-- The present entry of `table` for `v`. -/
def entryAt (phys : Memory) (table v : U64) (level : ℕ) : Option U64 :=
  let e := load phys (table + 8 * ((v >>> (12 + 9 * (level - 1))) &&& 0x1ff))
  if e &&& 1 = 0 then none else some e

/-- The table that a present entry of an upper level names. An entry with bit 7 maps a large page
and names none. -/
def tableOf (e : U64) : Option U64 :=
  if e &&& 0x80 = 0 then some (e &&& 0xfffffffff000) else none

/-- The processor's 4-level walk from the table at `cr3`: an address can be written when bit 1 of
every level allows it. -/
def walk (phys : Memory) (cr3 v : U64) : Option Mapping := do
  if ¬ Canonical v then none
  let e4 ← entryAt phys cr3 v 4
  let e3 ← entryAt phys (e4 &&& 0xfffffffff000) v 3
  let e2 ← entryAt phys (← tableOf e3) v 2
  let e1 ← entryAt phys (← tableOf e2) v 1
  return ⟨(e1 &&& 0xfffffffff000) + (v &&& 0xfff), [e4, e3, e2, e1].all fun e => e &&& 2 ≠ 0⟩

/-- The number of tables that the walk for `v` does not find. -/
def missingTables (phys : Memory) (cr3 v : U64) : ℕ :=
  match entryAt phys cr3 v 4 with
  | none => 3
  | some e4 =>
    match entryAt phys (e4 &&& 0xfffffffff000) v 3 with
    | none => 2
    | some e3 =>
      match entryAt phys (e3 &&& 0xfffffffff000) v 2 with
      | none => 1
      | some _ => 0

/-- The table reached from `table` by following the entries at some indices. -/
def tablePage (phys : Memory) : U64 → List (BitVec 9) → Option U64
  | table, [] => some table
  | table, i :: p =>
    let e := load phys (table + 8 * i.setWidth 64)
    if e &&& 1 = 0 then none else tablePage phys (e &&& 0xfffffffff000) p

end SctOs
