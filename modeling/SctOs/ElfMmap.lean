import SctOs.Counters
import SctOs.InsertionSort
import SctOs.Readelf

/-!
# The memory map of an ELF file

`mmap_get` and `get_symbol_table` of `test/print-elf.c`: the array of program headers, sections,
symbols and relocations, which `mmap_sort` sorts. Its loops have the counters of the source.
-/

namespace SctOs

open Readelf

/-- Occupies memory in the execution model. -/
def shfAlloc : U64 := 1 <<< 1

inductive MmapEntryType
  | none
  | phdr
  | shdr
  | sym
  | rel
  deriving DecidableEq, Repr

/-- What an entry is about; a pointer is the place of what it points to. -/
inductive MmapUnion
  | uninitialized
  | phdr (index : ℕ)
  | section (name : Elf64Word)
  | symbol (table : ℕ) (name : Elf64Word)
  | r (table : ℕ) (symTable : Option ℕ) (index : U64)
  deriving DecidableEq, Repr

structure MmapEntry where
  addr : U64
  «end» : U64
  type : MmapEntryType
  u : MmapUnion
  deriving DecidableEq, Repr

/-- `sizeof(struct mmap_entry)`. -/
def sizeofMmapEntry : U64 := 48

namespace ElfMmap

/-- Where `mmap_get` stops. -/
inductive Stop
  | outOfFuel
  /-- An invalid pointer was used. -/
  | invalid
  deriving DecidableEq, Repr

/-- The array and its length, the next index, and the indices that were written. -/
structure Filling where
  nEntries : U64
  entries : List MmapEntry
  entryI : U64
  written : List U64

abbrev M := EStateM Stop Filling

def deref {α : Type} : Option α → M α
  | some a => pure a
  | none => throw .invalid

def countEntries (n : U64) : M Unit := modify fun s => { s with nEntries := s.nEntries + n }

/-- `entries[entry_i++]`. -/
def put (entry : MmapEntry) : M Unit := modify fun s => { s with
  entries := s.entries.set s.entryI.toNat entry
  entryI := s.entryI + 1
  written := s.entryI :: s.written }

/-- The entry without a type; its union stays as it is. -/
def MmapEntry.clear (entry : MmapEntry) : MmapEntry :=
  { entry with addr := 0, «end» := 0, type := .none }

def clearEntry (i : ℕ) : M Unit := modify fun s => { s with
  entries := s.entries.modify i MmapEntry.clear }

/-! ## The entries -/

def phdrEntry (i : ℕ) (header : Elf64Phdr) : MmapEntry :=
  ⟨header.pVaddr, header.pVaddr + header.pMemsz, .phdr, .phdr i⟩

def shdrEntry (header : Elf64Shdr) : MmapEntry :=
  ⟨header.shAddr, header.shAddr + header.shSize, .shdr, .section header.shName⟩

def symEntry (table : ℕ) (symbol : Elf64Sym) : MmapEntry :=
  ⟨symbol.stValue, symbol.stValue + symbol.stSize, .sym, .symbol table symbol.stName⟩

def relEntry (table : ℕ) (symTable : Option ℕ) (j : ℕ) (rela : Elf64Rela) : MmapEntry :=
  ⟨rela.rOffset, rela.rOffset, .rel, .r table symTable (BitVec.ofNat 64 j)⟩

/-! ## The ELF file -/

variable (elf : ElfFile)

def header : M Elf64Ehdr := do return (← deref elf.header).elem 0

def programHeader (i : ℕ) : M Elf64Phdr := do return (← deref elf.programHeaders).elem i

def sectionAt (i : ℕ) : M Elf64Shdr := do return (← deref elf.sections).elem i

def symbolTable (i : ℕ) : M ElfSymbolTable := do deref (← deref elf.symbolTables).entries[i]?

def relTable (i : ℕ) : M ElfRelTable := do deref (← deref elf.relTables).entries[i]?

/-- The symbol table that has the section `ndx` as its section. -/
def getSymbolTable (ndx : ℕ) : Option ℕ :=
  elf.symbolTables.bind fun t => (t.entries.take elf.nSymbolTables.toNat).findIdx? fun table =>
    table.sectionIndex = some ndx

/-! ## Counting -/

variable (fuel : ℕ)

/-- `for (i = start; i < bound; ++i)`, with a counter of `w` bits. -/
def forLoop (w start bound : ℕ) (body : ℕ → M Unit) : M Unit :=
  Counter.loop .outOfFuel bound (fun i : BitVec w => body i.toNat) fuel (BitVec.ofNat w start)

def countSections : M Unit := do
  let ehdr ← header elf
  forLoop fuel 16 0 ehdr.eShnum.toNat fun i => do
    let shdr ← sectionAt elf i
    if shdr.shFlags &&& shfAlloc ≠ 0 then countEntries 1 else return

def countSymbols : M Unit :=
  forLoop fuel 16 0 elf.nSymbolTables.toNat fun i => do
    let table ← symbolTable elf i
    countEntries (table.nSymbols.setWidth 64)

def countRelocations : M Unit :=
  forLoop fuel 16 0 elf.nRelTables.toNat fun i => do
    let table ← relTable elf i
    countEntries table.nRelocations

/-! ## Filling -/

def clearEntries : M Unit := do
  let nEntries := (← get).nEntries
  forLoop fuel 16 0 nEntries.toNat clearEntry

def fillPhdrs : M Unit := do
  let ehdr ← header elf
  forLoop fuel 16 1 ehdr.ePhnum.toNat fun i => do
    let phdr ← programHeader elf i
    put (phdrEntry i phdr)

def fillSections : M Unit := do
  let ehdr ← header elf
  forLoop fuel 16 0 ehdr.eShnum.toNat fun i => do
    let shdr ← sectionAt elf i
    if shdr.shFlags &&& shfAlloc ≠ 0 then put (shdrEntry shdr) else return

def fillSymbols : M Unit :=
  forLoop fuel 16 0 elf.nSymbolTables.toNat fun i => do
    let table ← symbolTable elf i
    forLoop fuel 32 0 table.nSymbols.toNat fun j => do
      let symbols ← deref table.symbols
      put (symEntry i (symbols.elem j))

def fillRelocations : M Unit :=
  forLoop fuel 16 0 elf.nRelTables.toNat fun i => do
    let table ← relTable elf i
    let shdr ← sectionAt elf (← deref table.sectionIndex)
    let symTable := getSymbolTable elf (shdr.shLink.setWidth 16).toNat
    forLoop fuel 64 0 table.nRelocations.toNat fun j => do
      let relocations ← deref table.relocations
      put (relEntry i symTable j (relocations.elem j))

/-- The length of the array. -/
def countMmap : M Unit := do
  let ehdr ← header elf
  modify fun s => { s with
    nEntries := if ehdr.ePhnum = 0 then 0 else (ehdr.ePhnum - 1).setWidth 64 }
  countSections elf fuel
  countSymbols elf fuel
  countRelocations elf fuel

def fillMmap : M Unit := do
  modify fun s => { s with entryI := 0 }
  fillPhdrs elf fuel
  fillSections elf fuel
  fillSymbols elf fuel
  fillRelocations elf fuel

/-- Generate the array, and return whether it could be allocated; an allocation has `memory` in
it. -/
def mmapGet (alloc : Bool) (memory : ℕ → MmapEntry) : M Bool := do
  countMmap elf fuel
  if alloc then
    modify fun s => { s with
      entries := (List.range ((sizeofMmapEntry * s.nEntries).toNat / 48)).map memory }
    clearEntries fuel
    fillMmap elf fuel
    return true
  else return false

/-! ## Sorting -/

/-- An entry may stand before another one. -/
def Before (back here : MmapEntry) : Prop := ¬back.addr > here.addr

instance : DecidableRel Before := fun _ _ => inferInstanceAs (Decidable ¬_)

/-- Sort the array by a stable insertion sort; `mmap_entry_swap` is `InsertionSort.swap`. -/
def mmapSort (entries : List MmapEntry) (nEntries : U64) : Option (List MmapEntry) :=
  InsertionSort.sort Before nEntries.toNat entries

/-! ## The memory map -/

structure Relocations where
  symTable : Option ℕ
  entries : List Elf64Rela

/-- The tables of an ELF file. -/
structure Contents where
  programHeaders : List Elf64Phdr
  sections : List Elf64Shdr
  symbolTables : List (List Elf64Sym)
  relTables : List Relocations

/-- Every program header but the first, the sections in memory, the symbols and the relocations, each
with its range of addresses. -/
def Contents.mmap (c : Contents) : List MmapEntry :=
  (c.programHeaders.zipIdx.tail.map fun (header, i) =>
    ⟨header.pVaddr, header.pVaddr + header.pMemsz, .phdr, .phdr i⟩) ++
  ((c.sections.filter (·.shFlags &&& 2 ≠ 0)).map fun header =>
    ⟨header.shAddr, header.shAddr + header.shSize, .shdr, .section header.shName⟩) ++
  (c.symbolTables.zipIdx.flatMap fun (symbols, i) => symbols.map fun symbol =>
    ⟨symbol.stValue, symbol.stValue + symbol.stSize, .sym, .symbol i symbol.stName⟩) ++
  c.relTables.zipIdx.flatMap fun (table, i) => table.entries.zipIdx.map fun (rela, j) =>
    ⟨rela.rOffset, rela.rOffset, .rel, .r i table.symTable (BitVec.ofNat 64 j)⟩

/-- The section that a symbol table is in. -/
def tableSection (i : ℕ) : Option ℕ :=
  (elf.symbolTables.bind (·.entries[i]?)).bind (·.sectionIndex)

/-- The first symbol table in a section, if there is one. -/
def FirstIn (ndx : ℕ) : Option ℕ → Prop
  | none => ∀ i < elf.nSymbolTables.toNat, tableSection elf i ≠ some ndx
  | some k => k < elf.nSymbolTables.toNat ∧ tableSection elf k = some ndx ∧
    ∀ i < k, tableSection elf i ≠ some ndx

def SymbolTable (table : ElfSymbolTable) (symbols : List Elf64Sym) : Prop :=
  table.nSymbols.toNat = symbols.length ∧
    ∀ j < symbols.length, table.symbols.map (·.elem j) = symbols[j]?

def RelTable (c : Contents) (table : ElfRelTable) (relocations : Relocations) : Prop :=
  table.nRelocations.toNat = relocations.entries.length ∧
    (∀ j < relocations.entries.length,
      table.relocations.map (·.elem j) = relocations.entries[j]?) ∧
    ∃ i, table.sectionIndex = some i ∧ ∃ shdr, c.sections[i]? = some shdr ∧
      FirstIn elf (shdr.shLink.setWidth 16).toNat relocations.symTable

/-- The tables have the declared lengths. -/
structure HasTables (c : Contents) : Prop where
  header : ∃ p, elf.header = some p ∧ (p.elem 0).ePhnum.toNat = c.programHeaders.length ∧
    (p.elem 0).eShnum.toNat = c.sections.length
  programHeaders : ∀ i < c.programHeaders.length,
    elf.programHeaders.map (·.elem i) = c.programHeaders[i]?
  sections : ∀ i < c.sections.length, elf.sections.map (·.elem i) = c.sections[i]?
  nSymbolTables : elf.nSymbolTables.toNat = c.symbolTables.length
  symbolTables : ∀ (i : ℕ) symbols, c.symbolTables[i]? = some symbols →
    ∃ tables, elf.symbolTables = some tables ∧
      ∃ table, tables.entries[i]? = some table ∧ SymbolTable table symbols
  nRelTables : elf.nRelTables.toNat = c.relTables.length
  relTables : ∀ (i : ℕ) relocations, c.relTables[i]? = some relocations →
    ∃ tables, elf.relTables = some tables ∧
      ∃ table, tables.entries[i]? = some table ∧ RelTable elf c table relocations
  /-- The relocations, of 24 bytes each, are in one memory. -/
  memory : 24 * (c.relTables.map (·.entries.length)).sum ≤ 2 ^ 64

/-! ## A file with two segments, a section in memory, a relocation and `n` symbols -/

def arrayOf {α : Type} (l : List α) (a : α) : Pointer α := ⟨0, 0, fun i => l.getD i a⟩

def symbolsEhdr : Elf64Ehdr :=
  ⟨[0x7f, 0x45, 0x4c, 0x46], 2, 62, 1, 0x1000, 64, 0x4000, 0, 64, 56, 2, 64, 4, 0⟩

def symbolsPhdrs : List Elf64Phdr :=
  [⟨6, 4, 64, 64, 64, 112, 112, 8⟩, ⟨1, 5, 0x1000, 0x1000, 0x1000, 0x2000, 0x2000, 0x1000⟩]

def symbolsShdrs : List Elf64Shdr := [⟨0, 0, 0, 0, 0, 0, 0, 0, 0, 0⟩,
  ⟨1, 1, 2, 0x1000, 0x1000, 0x2000, 0, 0, 0, 0⟩, ⟨7, 2, 0, 0, 0x8000, 48, 0, 0, 8, 24⟩,
  ⟨15, 4, 0, 0, 0x3000, 24, 2, 1, 8, 24⟩]

def symbolsRela : Elf64Rela := ⟨0x1008, 0x100000001, 4⟩

def symbolsFile (n : Elf64Word) : ElfFile where
  header := some (arrayOf [] symbolsEhdr)
  programHeaders := some (arrayOf symbolsPhdrs ⟨0, 0, 0, 0, 0, 0, 0, 0⟩)
  sections := some (arrayOf symbolsShdrs ⟨0, 0, 0, 0, 0, 0, 0, 0, 0, 0⟩)
  sectionNames := none
  interpreter := none
  dynamic := ⟨none, none⟩
  nSymbolTables := 1
  symbolTables := some ⟨0, [⟨some 2, n, some (arrayOf [] ⟨0, 0, 0, 1, 0x2000, 8⟩), none⟩]⟩
  nRelTables := 1
  relTables := some ⟨0, [⟨some 3, 1, some (arrayOf [] symbolsRela)⟩]⟩

def symbolsContents (n : ℕ) : Contents where
  programHeaders := symbolsPhdrs
  sections := symbolsShdrs
  symbolTables := [List.replicate n ⟨0, 0, 0, 1, 0x2000, 8⟩]
  relTables := [⟨some 0, [symbolsRela]⟩]

end ElfMmap

end SctOs
