import SctOs.Objects
import SctOs.ReadelfSteps

/-!
# What an ELF file holds

The headers and tables of an ELF file, straight from its bytes: which files are well formed, and what
an `elf_file` that was read from one has in it (`ReadFrom`).
-/

namespace SctOs

open Readelf
open Bytes (bytesLE)

namespace File

variable (file : File)

/-- The structures from an offset on. -/
def array (α : Type) [CStruct α] (offset : U64) : ℕ → α :=
  CStruct.array α fun k => file.byte (offset.toNat + k)

def phdr : ℕ → Elf64Phdr := file.array Elf64Phdr file.ehdr.ePhoff

def shdr : ℕ → Elf64Shdr := file.array Elf64Shdr file.ehdr.eShoff

/-- The first program header of a type. -/
def firstPhdr (type : Elf64Word) : Option ℕ :=
  (List.range file.ehdr.ePhnum.toNat).find? fun i => (file.phdr i).pType = type

/-- The symbol table sections, in section order. -/
def symbolIndices : List ℕ :=
  (List.range' 1 (file.ehdr.eShnum.toNat - 1)).filter fun i =>
    (file.shdr i).shType = shtSymtab ∨ (file.shdr i).shType = shtDynsym

/-- The relocation sections, in section order. -/
def relIndices : List ℕ :=
  (List.range' 1 (file.ehdr.eShnum.toNat - 1)).filter fun i =>
    (file.shdr i).shType = shtRel ∨ (file.shdr i).shType = shtRela

/-- The place of the first dynamic symbol table among the symbol tables. -/
def dynsym : Option ℕ := file.symbolIndices.findIdx? fun i => (file.shdr i).shType = shtDynsym

/-- These bytes lie inside the file. -/
def Inside (offset size : U64) : Prop := offset.toNat + size.toNat ≤ file.length

instance (offset size : U64) : Decidable (file.Inside offset size) := inferInstanceAs (Decidable (_ ≤ _))

/-- The contents of section `i` lie inside the file. -/
def SectionInside (i : ℕ) : Prop := file.Inside (file.shdr i).shOffset (file.shdr i).shSize

instance (i : ℕ) : Decidable (file.SectionInside i) := inferInstanceAs (Decidable (_ ≤ _))

/-- The contents of the first segment of a type, if there is one, lie inside the file. -/
def SegmentInside (type : Elf64Word) : Prop :=
  ∀ i ∈ file.firstPhdr type, file.Inside (file.phdr i).pOffset (file.phdr i).pFilesz

end File

/-- A symbol table with its names inside the file. -/
structure SymbolsWellFormed (file : File) (i : ℕ) : Prop where
  symbols : file.SectionInside i
  link : (file.shdr i).shLink.toNat < file.ehdr.eShnum.toNat
  names : file.SectionInside (file.shdr i).shLink.toNat
  count : (file.shdr i).shSize.toNat / sizeof Elf64Sym < 2 ^ 32

/-- A relocation table with addends inside the file. -/
structure RelsWellFormed (file : File) (i : ℕ) : Prop where
  inside : file.SectionInside i
  rela : (file.shdr i).shType = shtRela
  entsize : (file.shdr i).shEntsize = BitVec.ofNat 64 (sizeof Elf64Rela)

/-- What the headers declare lies inside the file. -/
structure WellFormed (file : File) : Prop where
  header : sizeof Elf64Ehdr ≤ file.length
  magic : file.ehdr.eIdent.take 4 = [0x7f, 0x45, 0x4c, 0x46]
  programHeaders : file.ehdr.ePhnum ≠ 0 →
    file.Inside file.ehdr.ePhoff (bytesOf Elf64Phdr file.ehdr.ePhnum)
  sections : file.Inside file.ehdr.eShoff (bytesOf Elf64Shdr file.ehdr.eShnum)
  shstrndx : file.ehdr.eShstrndx.toNat < file.ehdr.eShnum.toNat
  sectionNames : file.SectionInside file.ehdr.eShstrndx.toNat
  interpreter : file.SegmentInside ptInterp
  dynamic : file.SegmentInside ptDynamic
  dynsym : file.firstPhdr ptDynamic ≠ none →
    ∃ i ∈ file.symbolIndices, (file.shdr i).shType = shtDynsym
  symbols : ∀ i ∈ file.symbolIndices, SymbolsWellFormed file i
  rels : ∀ i ∈ file.relIndices, RelsWellFormed file i

/-! ## What was read -/

/-- The buffer has the file's structures in it. -/
structure Holds {α : Type} [CStruct α] (file : File) (offset size : U64) (p : Pointer α) : Prop where
  size_eq : p.size = size
  elem : ∀ j, sizeof α * (j + 1) ≤ size.toNat → p.elem j = file.array α offset j

/-- The contents of section `i`. -/
def HoldsSection {α : Type} [CStruct α] (file : File) (i : ℕ) (p : Option (Pointer α)) : Prop :=
  ∃ q, p = some q ∧ Holds file (file.shdr i).shOffset (file.shdr i).shSize q

/-- The contents of the first segment of a type, or nothing. -/
def HoldsSegment {α : Type} [CStruct α] (file : File) (type : Elf64Word) (p : Option (Pointer α)) :
    Prop :=
  match file.firstPhdr type with
  | none => p = none
  | some i => ∃ q, p = some q ∧ Holds file (file.phdr i).pOffset (file.phdr i).pFilesz q

/-- The symbol table of section `i`. -/
structure SymbolsFrom (file : File) (i : ℕ) (t : ElfSymbolTable) : Prop where
  sectionIndex : t.sectionIndex = some i
  nSymbols : t.nSymbols.toNat = (file.shdr i).shSize.toNat / sizeof Elf64Sym
  symbols : HoldsSection file i t.symbols
  names : HoldsSection file (file.shdr i).shLink.toNat t.names

/-- The relocation table of section `i`. -/
structure RelsFrom (file : File) (i : ℕ) (t : ElfRelTable) : Prop where
  sectionIndex : t.sectionIndex = some i
  nRelocations : t.nRelocations.toNat = (file.shdr i).shSize.toNat / sizeof Elf64Rela
  relocations : HoldsSection file i t.relocations

/-- The `elf_file` is what the file holds. -/
structure ReadFrom (file : File) (elf : ElfFile) : Prop where
  header : ∃ p, elf.header = some p ∧ p.elem 0 = file.ehdr
  programHeaders : if file.ehdr.ePhnum = 0 then elf.programHeaders = none
    else ∃ p, elf.programHeaders = some p
      ∧ Holds file file.ehdr.ePhoff (bytesOf Elf64Phdr file.ehdr.ePhnum) p
  sections : ∃ p, elf.sections = some p
    ∧ Holds file file.ehdr.eShoff (bytesOf Elf64Shdr file.ehdr.eShnum) p
  sectionNames : HoldsSection file file.ehdr.eShstrndx.toNat elf.sectionNames
  interpreter : HoldsSegment file ptInterp elf.interpreter
  dynamic : HoldsSegment file ptDynamic elf.dynamic.dynamic
  symbolTable : elf.dynamic.symbolTable = (file.firstPhdr ptDynamic).bind fun _ => file.dynsym
  nSymbolTables : elf.nSymbolTables.toNat = file.symbolIndices.length
  symbolTables : ∃ ptr tables, elf.symbolTables = some ⟨ptr, tables⟩
    ∧ List.Forall₂ (SymbolsFrom file) file.symbolIndices tables
  nRelTables : elf.nRelTables.toNat = file.relIndices.length
  relTables : ∃ ptr tables, elf.relTables = some ⟨ptr, tables⟩
    ∧ List.Forall₂ (RelsFrom file) file.relIndices tables

/-! ## Small files -/

def Elf64Phdr.toBytes (p : Elf64Phdr) : List (BitVec 8) :=
  bytesLE 4 p.pType.toNat ++ bytesLE 4 p.pFlags.toNat ++ bytesLE 8 p.pOffset.toNat
    ++ bytesLE 8 p.pVaddr.toNat ++ bytesLE 8 p.pPaddr.toNat ++ bytesLE 8 p.pFilesz.toNat
    ++ bytesLE 8 p.pMemsz.toNat ++ bytesLE 8 p.pAlign.toNat

def Elf64Shdr.toBytes (s : Elf64Shdr) : List (BitVec 8) :=
  bytesLE 4 s.shName.toNat ++ bytesLE 4 s.shType.toNat ++ bytesLE 8 s.shFlags.toNat
    ++ bytesLE 8 s.shAddr.toNat ++ bytesLE 8 s.shOffset.toNat ++ bytesLE 8 s.shSize.toNat
    ++ bytesLE 4 s.shLink.toNat ++ bytesLE 4 s.shInfo.toNat ++ bytesLE 8 s.shAddralign.toNat
    ++ bytesLE 8 s.shEntsize.toNat

/-- A header, the program headers, the sections and `data`, one after the other. The section names
are section 0. -/
def File.ofHeaders (phdrs : List Elf64Phdr) (shdrs : List Elf64Shdr) (data : List (BitVec 8)) : File :=
  [0x7f, 0x45, 0x4c, 0x46] ++ bytesLE 28 0 ++ bytesLE 8 64 ++ bytesLE 8 (64 + 56 * phdrs.length)
    ++ bytesLE 8 0 ++ bytesLE 2 phdrs.length ++ bytesLE 2 0 ++ bytesLE 2 shdrs.length ++ bytesLE 2 0
    ++ phdrs.flatMap Elf64Phdr.toBytes ++ shdrs.flatMap Elf64Shdr.toBytes ++ data

/-- A section with contents of `size` bytes at `offset`. -/
def Elf64Shdr.at (type : Elf64Word) (offset size entsize : U64) : Elf64Shdr :=
  ⟨0, type, 0, 0, offset, size, 0, 0, 0, entsize⟩

/-- The file is read without failures, and zeros are past each buffer. -/
def Readelf.Env.ofFile (file : File) : Env := ⟨file, fun _ => true, fun _ => true, fun _ => 0⟩

end SctOs
