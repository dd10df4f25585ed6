import SctOs.LoadKernel
import SctOs.Relocations

/-!
# Reading ELF files

`readelf` and `free_elf_file` of `lib/readelf.c`. Each call of `elf_alloc` and of `elf_read` may
fail. A pointer is known by the number of the `elf_alloc` call that returned it, and points to what
has been read there. A function that returns whether an error occurred throws it instead.
-/

namespace SctOs

open Bytes

/-- A section header. -/
structure Elf64Shdr where
  shName : Elf64Word
  shType : Elf64Word
  shFlags : U64
  shAddr : U64
  shOffset : U64
  shSize : U64
  shLink : Elf64Word
  shInfo : Elf64Word
  shAddralign : U64
  shEntsize : U64
  deriving DecidableEq, Repr

/-- A symbol. -/
structure Elf64Sym where
  stName : Elf64Word
  stInfo : BitVec 8
  stOther : BitVec 8
  stShndx : Elf64Half
  stValue : U64
  stSize : U64
  deriving DecidableEq, Repr

/-- A relocation without an addend. -/
structure Elf64Rel where
  rOffset : U64
  rInfo : U64
  deriving DecidableEq, Repr

/-- The same relocation with the addend 0. -/
def Elf64Rel.toRela (rel : Elf64Rel) : Elf64Rela := ⟨rel.rOffset, rel.rInfo, 0⟩

/-! ## Section types -/

def shtSymtab : Elf64Word := 2

def shtRela : Elf64Word := 4

def shtRel : Elf64Word := 9

def shtDynsym : Elf64Word := 11

/-- Index of the first section entry. -/
def shnBegin : ℕ := 1

/-- The structures that the file holds. -/
class CStruct (α : Type) where
  sizeof : ℕ
  ofBytes : (ℕ → BitVec 8) → α

export CStruct (sizeof)

instance : CStruct (BitVec 8) := ⟨1, fun b => b 0⟩

instance : CStruct Elf64Ehdr := ⟨sizeofEhdr, Elf64Ehdr.ofBytes⟩

instance : CStruct Elf64Phdr := ⟨sizeofPhdr, Elf64Phdr.ofBytes⟩

instance : CStruct Elf64Shdr := ⟨64, fun b => {
  shName := field 32 b 0
  shType := field 32 b 4
  shFlags := field 64 b 8
  shAddr := field 64 b 16
  shOffset := field 64 b 24
  shSize := field 64 b 32
  shLink := field 32 b 40
  shInfo := field 32 b 44
  shAddralign := field 64 b 48
  shEntsize := field 64 b 56 }⟩

instance : CStruct Elf64Sym := ⟨24, fun b => {
  stName := field 32 b 0
  stInfo := b 4
  stOther := b 5
  stShndx := field 16 b 6
  stValue := field 64 b 8
  stSize := field 64 b 16 }⟩

instance : CStruct Elf64Rel := ⟨16, fun b => ⟨field 64 b 0, field 64 b 8⟩⟩

instance : CStruct Elf64Rela := ⟨24, fun b => ⟨field 64 b 0, field 64 b 8, field 64 b 16⟩⟩

instance : CStruct Elf64Dyn := ⟨16, fun b => ⟨field 64 b 0, field 64 b 8⟩⟩

/-- An array of structures in bytes. -/
def CStruct.array (α : Type) [CStruct α] (b : ℕ → BitVec 8) (i : ℕ) : α :=
  CStruct.ofBytes fun k => b (sizeof α * i + k)

namespace Readelf

/-! ## The user's functions -/

/-- How many calls there have been. -/
structure Counts where
  allocs : ℕ
  reads : ℕ
  deriving DecidableEq, Repr

/-- What `elf_alloc` and `elf_read` will do, and what is in the memory after a buffer. -/
structure Env where
  file : File
  alloc : ℕ → Bool
  read : ℕ → Bool
  past : ℕ → BitVec 8

namespace Env

variable (env : Env)

/-- A read succeeds only if the file has the bytes. -/
def Reads (n : ℕ) (offset size : U64) : Prop :=
  env.read n ∧ (size = 0 ∨ offset.toNat + size.toNat ≤ env.file.length)

instance (n : ℕ) (offset size : U64) : Decidable (env.Reads n offset size) :=
  inferInstanceAs (Decidable (_ ∧ _))

/-- A buffer of `size` bytes with the file's bytes from `offset` on. -/
def buffer (offset size : U64) (i : ℕ) : BitVec 8 :=
  if i < size.toNat then env.file.byte (offset.toNat + i) else env.past i

end Env

/-! ## The file as it is read -/

/-- A pointer to an array in a buffer of `size` bytes. -/
structure Pointer (α : Type) where
  ptr : ℕ
  size : U64
  elem : ℕ → α

/-- An array that is filled entry by entry. -/
structure Table (α : Type) where
  ptr : ℕ
  entries : List α

structure ElfSymbolTable where
  sectionIndex : Option ℕ
  nSymbols : Elf64Word
  symbols : Option (Pointer Elf64Sym)
  names : Option (Pointer (BitVec 8))

structure ElfRelTable where
  sectionIndex : Option ℕ
  nRelocations : U64
  relocations : Option (Pointer Elf64Rela)

structure ElfDynamic where
  dynamic : Option (Pointer Elf64Dyn)
  symbolTable : Option ℕ

structure ElfFile where
  header : Option (Pointer Elf64Ehdr)
  programHeaders : Option (Pointer Elf64Phdr)
  sections : Option (Pointer Elf64Shdr)
  sectionNames : Option (Pointer (BitVec 8))
  interpreter : Option (Pointer (BitVec 8))
  dynamic : ElfDynamic
  nSymbolTables : Elf64Half
  symbolTables : Option (Table ElfSymbolTable)
  nRelTables : Elf64Half
  relTables : Option (Table ElfRelTable)

/-- The `elf_file` with NULL/0 members. -/
def initElfFile : ElfFile where
  header := none
  programHeaders := none
  sections := none
  sectionNames := none
  interpreter := none
  dynamic := ⟨none, none⟩
  nSymbolTables := 0
  symbolTables := none
  nRelTables := 0
  relTables := none

/-- The arrays of headers. -/
inductive Headers
  | programHeaders
  | sections
  deriving DecidableEq, Repr

structure World where
  elf : ElfFile
  counts : Counts
  /-- What `elf_alloc` returned. -/
  allocated : List ℕ
  /-- What was passed to `elf_free`. -/
  freed : List ℕ
  /-- The indices used that are not below the number of headers. -/
  outside : List (Headers × ℕ)

def World.init : World := ⟨initElfFile, ⟨0, 0⟩, [], [], []⟩

/-- Where a function stops. -/
inductive Exit
  /-- An error occurred. -/
  | error
  /-- A division by zero. -/
  | divide
  /-- NULL was used. -/
  | null
  deriving DecidableEq, Repr

abbrev M := EStateM Exit World

/-- `goto error`. -/
def handle {α : Type} (x handler : M α) : M α := fun w =>
  match x.run w with
  | .error .error w' => handler.run w'
  | r => r

/-- Clean up and return that an error occurred. -/
def onError {α : Type} (x : M α) (cleanup : M Unit) : M α :=
  handle x (cleanup >>= fun _ => throw .error)

def deref {α : Type} : Option α → M α
  | some a => pure a
  | none => throw .null

def modifyElf (f : ElfFile → ElfFile) : M Unit := modify fun w => { w with elf := f w.elf }

/-- The first `n` entries of an array. -/
def entries {α : Type} (n : Elf64Half) : Option (Table α) → M (List α)
  | some table => pure (table.entries.take n.toNat)
  | none => if n = 0 then pure [] else throw .null

def elfAlloc (env : Env) (_size : U64) : M (Option ℕ) := fun w =>
  let n := w.counts.allocs
  let w := { w with counts.allocs := n + 1 }
  if env.alloc n then .ok (some n) { w with allocated := n :: w.allocated } else .ok none w

/-- NULL may be freed. -/
def elfFree : Option ℕ → M Unit
  | some ptr => modify fun w => { w with freed := ptr :: w.freed }
  | none => pure ()

/-- The buffer after a read of `size` bytes. -/
def elfRead (env : Env) (offset size : U64) : M (ℕ → BitVec 8) := fun w =>
  let n := w.counts.reads
  let w := { w with counts.reads := n + 1 }
  if env.Reads n offset size then .ok (env.buffer offset size) w else .error .error w

/-- Wrap user's `elf_read` by passing it an allocated buffer. -/
def elfRead2 {α : Type} [CStruct α] (env : Env) (offset size : U64) : M (Pointer α) := do
  let some ptr ← elfAlloc env size | throw .error
  let bytes ← onError (elfRead env offset size) (elfFree (some ptr))
  return ⟨ptr, size, CStruct.array α bytes⟩

/-! ## Headers -/

def header : M Elf64Ehdr := do return (← deref (← get).elf.header).elem 0

/-- Use an index of an array of `n` headers. -/
def useIndex (array : Headers) (i n : ℕ) : M Unit :=
  if i < n then pure () else modify fun w => { w with outside := (array, i) :: w.outside }

/-- `elf_file->program_headers[i]`. -/
def programHeader (i : ℕ) : M Elf64Phdr := do
  useIndex .programHeaders i (← header).ePhnum.toNat
  return (← deref (← get).elf.programHeaders).elem i

/-- `elf_file->sections[i]`. -/
def sectionAt (i : ℕ) : M Elf64Shdr := do
  useIndex .sections i (← header).eShnum.toNat
  return (← deref (← get).elf.sections).elem i

def readPhdrData {α : Type} [CStruct α] (env : Env) (i : ℕ) : M (Pointer α) := do
  let phdr ← programHeader i
  elfRead2 env phdr.pOffset phdr.pFilesz

def readSectionData {α : Type} [CStruct α] (env : Env) (i : ℕ) : M (Pointer α) := do
  let shdr ← sectionAt i
  elfRead2 env shdr.shOffset shdr.shSize

/-- `sizeof` times a number of elements. -/
def bytesOf (α : Type) [CStruct α] (n : Elf64Half) : U64 := BitVec.ofNat 64 (sizeof α * n.toNat)

/-- Read only the ELF header, into its buffer, and the program headers. -/
def readProgramHeaders (env : Env) (ehdr : ℕ) : M Unit := do
  let size := BitVec.ofNat 64 (sizeof Elf64Ehdr)
  let bytes ← elfRead env 0 size
  modifyElf fun elf => { elf with header := some ⟨ehdr, size, CStruct.array Elf64Ehdr bytes⟩ }
  let ehdr ← header
  if ¬ ehdr.VerifyMagic then throw .error
  else if ehdr.ePhnum = 0 then return
  else
    let phdrs ← elfRead2 env ehdr.ePhoff (bytesOf Elf64Phdr ehdr.ePhnum)
    modifyElf fun elf => { elf with programHeaders := some phdrs }

/-- The first of the program headers with a type. -/
def firstPhdr (type : Elf64Word) : List ℕ → M (Option ℕ)
  | [] => pure none
  | i :: is => do
    let phdr ← programHeader i
    if phdr.pType = type then return some i else firstPhdr type is

/-- Count the sections with a type. -/
def countSections (p : Elf64Word → Bool) (count : ElfFile → ElfFile) : List ℕ → M Unit
  | [] => pure ()
  | i :: is => do
    let shdr ← sectionAt i
    if p shdr.shType then
      modifyElf count
      countSections p count is
    else countSections p count is

def phdrIndices (ehdr : Elf64Ehdr) : List ℕ := List.range ehdr.ePhnum.toNat

def sectionIndices (ehdr : Elf64Ehdr) : List ℕ :=
  List.range' shnBegin (ehdr.eShnum.toNat - shnBegin)

/-- Reads the interpreter file name from the `INTERP` program header. -/
def readInterpreter (env : Env) : M Unit := do
  match ← firstPhdr ptInterp (phdrIndices (← header)) with
  | none => return
  | some i =>
    let interpreter ← readPhdrData env i
    modifyElf fun elf => { elf with interpreter := some interpreter }

/-! ## Symbol tables -/

/-- `SYMTAB` and `DYNSYM` sections are symbol table sections. -/
def isSymbolTable (type : Elf64Word) : Bool := type = shtSymtab || type = shtDynsym

/-- `sizeof(struct elf_symbol_table)`. -/
def sizeofSymbolTable : ℕ := 32

def updateSymbolTable (i : ℕ) (f : ElfSymbolTable → ElfSymbolTable) : M Unit :=
  modifyElf fun elf => { elf with
    symbolTables := elf.symbolTables.map fun t => { t with entries := t.entries.modify i f } }

/-- The table `tableI` from the section `i`. -/
def fillSymbolTable (env : Env) (tableI i : ℕ) (shdr : Elf64Shdr) : M Unit := do
  updateSymbolTable tableI fun t => { t with
    sectionIndex := some i
    nSymbols := (shdr.shSize / BitVec.ofNat 64 (sizeof Elf64Sym)).setWidth 32 }
  let symbols ← readSectionData env i
  updateSymbolTable tableI fun t => { t with symbols := some symbols }
  let names ← readSectionData env (shdr.shLink.setWidth 16).toNat
  updateSymbolTable tableI fun t => { t with names := some names }

def fillSymbolTables (env : Env) : ℕ → List ℕ → M Unit
  | _, [] => pure ()
  | tableI, i :: is => do
    let shdr ← sectionAt i
    if isSymbolTable shdr.shType then
      fillSymbolTable env tableI i shdr
      fillSymbolTables env (tableI + 1) is
    else fillSymbolTables env tableI is

def freeSymbolTable (t : ElfSymbolTable) : M Unit := do
  elfFree (t.symbols.map Pointer.ptr)
  elfFree (t.names.map Pointer.ptr)

/-- Free what the first `n` entries of an array own, and the array. -/
def freeTable {α : Type} (free : α → M Unit) (n : Elf64Half) : Option (Table α) → M Unit
  | some table => do
    (table.entries.take n.toNat).forM free
    elfFree (some table.ptr)
  | none => pure ()

/-- The symbol tables are given up. -/
def freeSymbolTables : M Unit := do
  let elf := (← get).elf
  freeTable freeSymbolTable elf.nSymbolTables elf.symbolTables
  modifyElf fun elf => { elf with symbolTables := none, nSymbolTables := 0 }

def ElfFile.countSymbolTable (elf : ElfFile) : ElfFile :=
  { elf with nSymbolTables := elf.nSymbolTables + 1 }

/-- The array of symbol tables, with NULL/0 members. -/
def allocSymbolTables (env : Env) : M Unit := do
  let n := (← get).elf.nSymbolTables
  match ← elfAlloc env (BitVec.ofNat 64 (sizeofSymbolTable * n.toNat)) with
  | none => throw .error
  | some ptr => modifyElf fun elf => { elf with
      symbolTables := some ⟨ptr, List.replicate n.toNat ⟨none, 0, none, none⟩⟩ }

/-- Reads the symbol tables from each symbol table section. -/
def readSymbolTables (env : Env) : M Unit := do
  let indices := sectionIndices (← header)
  countSections isSymbolTable ElfFile.countSymbolTable indices
  onError (do
    allocSymbolTables env
    fillSymbolTables env 0 indices) freeSymbolTables

/-! ## The dynamic segment -/

/-- The first of the symbol tables from a `DYNSYM` section. -/
def firstDynsym : ℕ → List ElfSymbolTable → M (Option ℕ)
  | _, [] => pure none
  | i, t :: ts => do
    let shdr ← sectionAt (← deref t.sectionIndex)
    if shdr.shType = shtDynsym then return some i else firstDynsym (i + 1) ts

/-- Read the `DYNAMIC` program header. -/
def readDynamic (env : Env) : M Unit := do
  match ← firstPhdr ptDynamic (phdrIndices (← header)) with
  | none => return
  | some i =>
    onError (do
      let dynamic ← readPhdrData env i
      modifyElf fun elf => { elf with dynamic.dynamic := some dynamic }
      let elf := (← get).elf
      match ← firstDynsym 0 (← entries elf.nSymbolTables elf.symbolTables) with
      | some table => modifyElf fun elf => { elf with dynamic.symbolTable := some table }
      | none => if elf.dynamic.symbolTable = none then throw .error else return) do
      elfFree ((← get).elf.dynamic.dynamic.map Pointer.ptr)
      modifyElf fun elf => { elf with dynamic.symbolTable := none }

/-! ## Relocations -/

def isRelTable (type : Elf64Word) : Bool := type = shtRel || type = shtRela

/-- `sizeof(struct elf_rel_table)`. -/
def sizeofRelTable : ℕ := 24

def updateRelTable (i : ℕ) (f : ElfRelTable → ElfRelTable) : M Unit :=
  modifyElf fun elf => { elf with
    relTables := elf.relTables.map fun t => { t with entries := t.entries.modify i f } }

/-- Convert "rel" type relocations to "rela" type relocations. -/
def convertRelToRela (env : Env) (i : ℕ) : M (Pointer Elf64Rela) := do
  let relTable : Pointer Elf64Rel ← readSectionData env i
  let shdr ← sectionAt i
  let nElems := shdr.shSize / BitVec.ofNat 64 (sizeof Elf64Shdr)
  let relaSize := BitVec.ofNat 64 (sizeof Elf64Rela) * nElems
  match ← elfAlloc env relaSize with
  | none =>
    elfFree (some relTable.ptr)
    throw .error
  | some ptr =>
    elfFree (some relTable.ptr)
    return ⟨ptr, relaSize, fun j => if j < nElems.toNat then (relTable.elem j).toRela
      else CStruct.array Elf64Rela env.past j⟩

/-- The relocations of either kind of section. -/
def readRelTable (env : Env) (i : ℕ) (shdr : Elf64Shdr) : M (Pointer Elf64Rela) :=
  if shdr.shType = shtRela then readSectionData env i else convertRelToRela env i

/-- The table `tableI` from the section `i`. -/
def fillRelTable (env : Env) (tableI i : ℕ) (shdr : Elf64Shdr) : M Unit := do
  updateRelTable tableI fun t => { t with sectionIndex := some i }
  if shdr.shEntsize = 0 then throw .divide
  else
    updateRelTable tableI fun t => { t with nRelocations := shdr.shSize / shdr.shEntsize }
    let relocations ← readRelTable env i shdr
    updateRelTable tableI fun t => { t with relocations := some relocations }

def fillRelTables (env : Env) : ℕ → List ℕ → M Unit
  | _, [] => pure ()
  | tableI, i :: is => do
    let shdr ← sectionAt i
    if isRelTable shdr.shType then
      fillRelTable env tableI i shdr
      fillRelTables env (tableI + 1) is
    else fillRelTables env tableI is

def freeRelTable (t : ElfRelTable) : M Unit := elfFree (t.relocations.map Pointer.ptr)

/-- The relocations are given up. -/
def freeRelTables : M Unit := do
  let elf := (← get).elf
  freeTable freeRelTable elf.nRelTables elf.relTables
  modifyElf fun elf => { elf with relTables := none, nRelTables := 0 }

def ElfFile.countRelTable (elf : ElfFile) : ElfFile := { elf with nRelTables := elf.nRelTables + 1 }

/-- The array of relocation tables, with NULL/0 members. -/
def allocRelTables (env : Env) : M Unit := do
  let n := (← get).elf.nRelTables
  match ← elfAlloc env (BitVec.ofNat 64 (sizeofRelTable * n.toNat)) with
  | none => throw .error
  | some ptr => modifyElf fun elf => { elf with
      relTables := some ⟨ptr, List.replicate n.toNat ⟨none, 0, none⟩⟩ }

/-- Reads the relocations from each relocation section. -/
def readRelocations (env : Env) : M Unit := do
  let indices := sectionIndices (← header)
  countSections isRelTable ElfFile.countRelTable indices
  onError (do
    allocRelTables env
    fillRelTables env 0 indices) freeRelTables

/-! ## The whole -/

/-- Free what the first `n` entries own, and the array, which is NULL if there are none. -/
def freeEntries {α : Type} (free : α → M Unit) (n : Elf64Half) (table : Option (Table α)) :
    M Unit := do
  let as ← entries n table
  as.forM free
  elfFree (table.map Table.ptr)

def freeElfFile : M Unit := do
  let elf := (← get).elf
  elfFree (elf.header.map Pointer.ptr)
  elfFree (elf.programHeaders.map Pointer.ptr)
  elfFree (elf.sections.map Pointer.ptr)
  elfFree (elf.sectionNames.map Pointer.ptr)
  elfFree (elf.interpreter.map Pointer.ptr)
  elfFree (elf.dynamic.dynamic.map Pointer.ptr)
  freeEntries freeSymbolTable elf.nSymbolTables elf.symbolTables
  freeEntries freeRelTable elf.nRelTables elf.relTables

/-- The header, the program headers and the sections. -/
def readHeaders (env : Env) : M Unit := do
  let size := BitVec.ofNat 64 (sizeof Elf64Ehdr)
  match ← elfAlloc env size with
  | none => throw .error
  | some ptr =>
    modifyElf fun elf => { elf with header := some ⟨ptr, size, CStruct.array Elf64Ehdr env.past⟩ }
    readProgramHeaders env ptr
    let ehdr ← header
    let sections ← elfRead2 env ehdr.eShoff (bytesOf Elf64Shdr ehdr.eShnum)
    modifyElf fun elf => { elf with sections := some sections }

def readSectionNames (env : Env) : M Unit := do
  let ehdr ← header
  let sectionNames ← readSectionData env ehdr.eShstrndx.toNat
  modifyElf fun elf => { elf with sectionNames := some sectionNames }

/-- Read each part of the ELF file, and return whether an error occurred. -/
def readelf (env : Env) : M Bool :=
  handle (do
    readHeaders env
    readSectionNames env
    readInterpreter env
    readSymbolTables env
    readDynamic env
    readRelocations env
    return false) do
    freeElfFile
    modifyElf fun _ => initElfFile
    return true

end Readelf

end SctOs
