import SctOs.ElfMmap

/-!
# Names of enumerated values

The tables of names of `elf.h`, and what the functions of `test/print-elf.c` and `test/readelf.c`
print for each value that has such a name. The other columns and lines that they print are left out.
-/

namespace SctOs

open Readelf

namespace PrintElf

/-- A name at each index, or NULL. -/
abbrev NameTable := List (Option String)

/-- An array with the elements designated by their indices; the others are NULL. -/
def designated (names : List (ℕ × String)) : NameTable :=
  (List.range ((names.map (·.1 + 1)).foldr max 0)).map fun i => names.lookup i

/-! ## The names -/

def elfClassNames : List (ℕ × String) := [(0, "NONE"), (1, "32"), (2, "64")]

def elfEndiannessNames : List (ℕ × String) := [(0, "NONE"), (1, "LITTLE"), (2, "BIG")]

def elfVersionNames : List (ℕ × String) := [(0, "NONE"), (1, "CURRENT")]

def elfOsabiNames : List (ℕ × String) := [(0, "SYSV"), (1, "HPUX"), (2, "NETBSD"), (3, "LINUX"),
  (4, "SOLARIS"), (5, "AIX"), (6, "IRIX"), (7, "FREEBSD"), (8, "TRU64"), (9, "MODESTO"),
  (10, "OPENBSD"), (11, "ARM_AEABI"), (12, "ARM"), (255, "STANDALONE")]

def elfTypeNames : List (ℕ × String) :=
  [(0, "NONE"), (1, "REL"), (2, "EXEC"), (3, "DYN"), (4, "CORE")]

def elfMachineNames : List (ℕ × String) := [(0, "NONE"), (1, "M32"), (2, "SPARC"), (3, "386"),
  (4, "68K"), (5, "88K"), (6, "860"), (7, "MIPS"), (8, "MIPS_RS4_BE"), (62, "X86_64")]

def elfSectionTypeNames : List (ℕ × String) := [(0, "NULL"), (1, "PROGBITS"), (2, "SYMTAB"),
  (3, "STRTAB"), (4, "RELA"), (5, "HASH"), (6, "DYNAMIC"), (7, "NOTE"), (8, "NOBITS"), (9, "REL"),
  (10, "RESERVED"), (11, "DYNSYM"), (12, "INIT_ARRAY"), (13, "FINI_ARRAY"), (14, "PREINIT_ARRAY"),
  (15, "GROUP")]

def elfSymbolBindingNames : List (ℕ × String) := [(0, "LOCAL"), (1, "GLOBAL"), (2, "WEAK")]

def elfSymbolTypeNames : List (ℕ × String) := [(0, "NOTYPE"), (1, "OBJECT"), (2, "FUNC"),
  (3, "SECTION"), (4, "FILE"), (5, "COMMON"), (6, "TLS")]

def elfRelocationTypeNames : List (ℕ × String) := [(0, "NONE"), (1, "64"), (2, "PC32"),
  (3, "GOT32"), (4, "PLT32"), (5, "COPY"), (6, "GLOB_DAT"), (7, "JUMP_SLOT"), (8, "RELATIVE"),
  (9, "GOTPCREL"), (10, "32"), (11, "32S"), (12, "16"), (13, "PC16"), (14, "8"), (15, "PC8"),
  (16, "DTPMOD64"), (17, "DTPOFF64"), (18, "TPOFF64"), (19, "TLSGD"), (20, "TLSLD"),
  (21, "DTPOFF32"), (22, "GOTTPOFF"), (23, "TPOFF32"), (24, "PC64"), (25, "GOTOFF64"),
  (26, "GOTPC32"), (32, "SIZE32"), (33, "SIZE64"), (34, "GOTPC32_TLSDESC"), (35, "TLSDESC_CALL"),
  (36, "TLSDESC"), (37, "IRELATIVE"), (38, "RELATIVE64"), (39, "DEPRECATED_39"),
  (40, "DEPRECATED_40"), (41, "GOTPCRELX"), (42, "REX_GOTPCRELX")]

def ptNum : Elf64Word := 8

def elfSegmentTypeNames : List (ℕ × String) := [(0, "NULL"), (1, "LOAD"), (2, "DYNAMIC"),
  (3, "INTERP"), (4, "NOTE"), (5, "SHLIB"), (6, "PHDR"), (7, "TLS"), (8, "STACK"), (9, "RELRO")]

def elfDynTagNames : List (ℕ × String) := [(0, "NULL"), (1, "NEEDED"), (2, "PLTRELSZ"),
  (3, "PLTGOT"), (4, "HASH"), (5, "STRTAB"), (6, "SYMTAB"), (7, "RELA"), (8, "RELASZ"),
  (9, "RELAENT"), (10, "STRSZ"), (11, "SYMENT"), (12, "INIT"), (13, "FINI"), (14, "SONAME"),
  (15, "RPATH"), (16, "SYMBOLIC"), (17, "REL"), (18, "RELSZ"), (19, "RELENT"), (20, "PLTREL"),
  (21, "DEBUG"), (22, "TEXTREL"), (23, "JMPREL"), (24, "BIND_NOW"), (25, "INIT_ARRAY"),
  (26, "FINI_ARRAY"), (27, "INIT_ARRAYSZ"), (28, "FINI_ARRAYSZ")]

/-! ## What is printed -/

inductive Shown
  /-- A name of the table. -/
  | name (s : String)
  /-- What the value is about, without its name. -/
  | category (s : String)
  /-- The value. -/
  | number
  /-- NULL for a name. -/
  | null
  /-- What is outside the table. -/
  | outside
  | nothing
  deriving DecidableEq, Repr

/-- A name that the table has, or the numeric or category fallback. -/
def Shown.Ok : Shown → Prop
  | name _ => True
  | category _ => True
  | number => True
  | null => False
  | outside => False
  | nothing => False

/-- `%s` of `table[i]`. -/
def lookup (names : List (ℕ × String)) (i : ℤ) : Shown :=
  if i < 0 then .outside
  else
    match (designated names)[i.toNat]? with
    | some (some s) => .name s
    | some none => .null
    | none => .outside

def eiClass : ℕ := 4

def eiEndianness : ℕ := 5

def eiVersion : ℕ := 6

def eiOsabi : ℕ := 7

def Ident (header : Elf64Ehdr) (i : ℕ) : ℕ := (header.eIdent.getD i 0).toNat

def printElfHeader (header : Elf64Ehdr) : List Shown := [
  lookup elfClassNames (Ident header eiClass),
  lookup elfEndiannessNames (Ident header eiEndianness),
  lookup elfVersionNames (Ident header eiVersion),
  lookup elfOsabiNames (Ident header eiOsabi),
  lookup elfTypeNames header.eType.toNat,
  lookup elfMachineNames header.eMachine.toNat,
  lookup elfVersionNames header.eVersion.toNat]

def printPhdrType (type : Elf64Word) : Shown :=
  if type < ptNum then lookup elfSegmentTypeNames type.toNat
  else if ptGnuStack ≤ type ∧ type ≤ ptGnuRelro then
    lookup elfSegmentTypeNames (ptNum + type - ptGnuStack).toNat
  else .number

def printSectionType (type : Elf64Word) : Shown :=
  if type ≤ 16 then lookup elfSectionTypeNames type.toNat
  else if 0x60000000 ≤ type ∧ type ≤ 0x6fffffff then .category "OS-specific"
  else if 0x70000000 ≤ type ∧ type ≤ 0x7fffffff then .category "Processor-specific"
  else .number

/-- The tag is signed. -/
def printDynTag (dyn : Elf64Dyn) : Shown :=
  if dyn.dTag.toInt ≤ 28 then lookup elfDynTagNames dyn.dTag.toInt else .number

/-- Bindings and types of symbols: those below `num` have names. -/
def printSymbolEnum (names : List (ℕ × String)) (num value : BitVec 8) : Shown :=
  if value < num then lookup names value.toNat
  else if 10 ≤ value ∧ value ≤ 12 then .category "OS-specific"
  else if 13 ≤ value ∧ value ≤ 15 then .category "Proc"
  else .nothing

def elfSymbolBinding (symbol : Elf64Sym) : BitVec 8 := symbol.stInfo >>> 4

def elfSymbolType (symbol : Elf64Sym) : BitVec 8 := symbol.stInfo &&& 0xf

def printSymbol (symbol : Elf64Sym) : List Shown :=
  [printSymbolEnum elfSymbolBindingNames 3 (elfSymbolBinding symbol),
    printSymbolEnum elfSymbolTypeNames 7 (elfSymbolType symbol)]

def elf64RType (rela : Elf64Rela) : U64 := rela.rInfo &&& 0xffffffff

def printRelocation (rela : Elf64Rela) : Shown :=
  lookup elfRelocationTypeNames (elf64RType rela).toNat

/-! ## The parts of the file -/

variable (elf : ElfFile)

/-- The elements `[start, n)` of an array; `readelf` has set the pointer if there are any. -/
def elements {α : Type} (p : Option (Pointer α)) (start n : ℕ) : List α :=
  p.toList.flatMap fun p => (List.range' start (n - start)).map p.elem

def headers : List Elf64Ehdr := elements elf.header 0 1

def printProgramHeaders : List Shown :=
  (headers elf).flatMap fun header =>
    (elements elf.programHeaders 0 header.ePhnum.toNat).map fun phdr => printPhdrType phdr.pType

def printSectionHeaders : List Shown :=
  (headers elf).flatMap fun header =>
    (elements elf.sections shnBegin header.eShnum.toNat).map fun shdr =>
      printSectionType shdr.shType

/-- At most `rounds` entries from the `i`-th on, up to the `DT_NULL`. -/
def printDynamicFrom (dyns : Pointer Elf64Dyn) : ℕ → ℕ → List Shown
  | 0, _ => []
  | rounds + 1, i =>
    if (dyns.elem i).dTag ≠ dtNull then
      printDynTag (dyns.elem i) :: printDynamicFrom dyns rounds (i + 1)
    else []

def printDynamic (rounds : ℕ) : List Shown :=
  elf.dynamic.dynamic.toList.flatMap fun dyns => printDynamicFrom dyns rounds 0

def symbolTables : List ElfSymbolTable :=
  elf.symbolTables.toList.flatMap fun t => t.entries.take elf.nSymbolTables.toNat

def printSymbolTables : List Shown :=
  (symbolTables elf).flatMap fun table =>
    (elements table.symbols 1 table.nSymbols.toNat).flatMap printSymbol

def relTables : List ElfRelTable :=
  elf.relTables.toList.flatMap fun t => t.entries.take elf.nRelTables.toNat

def printRelocations : List Shown :=
  (relTables elf).flatMap fun table =>
    (elements table.relocations 0 table.nRelocations.toNat).map printRelocation

/-- What `mmap_print` prints of an entry. -/
def printMmapEntry (entry : MmapEntry) : List Shown :=
  match entry.type, entry.u with
  | .phdr, .phdr i => elf.programHeaders.toList.map fun phdrs => printPhdrType (phdrs.elem i).pType
  | .rel, .r table _ j => (relTables elf)[table]?.toList.flatMap fun table =>
      table.relocations.toList.map fun relas => printRelocation (relas.elem j.toNat)
  | _, _ => []

/-- How the calls of `mmap_get` go: whether the array can be allocated, and what is in it. -/
structure MmapCall where
  fuel : ℕ
  alloc : Bool
  memory : ℕ → MmapEntry
  start : ElfMmap.Filling

def printMmap (call : MmapCall) : List Shown :=
  match (ElfMmap.mmapGet elf call.fuel call.alloc call.memory).run call.start with
  | .ok true t =>
    (ElfMmap.mmapSort t.entries t.nEntries).toList.flatMap fun entries =>
      entries.flatMap (printMmapEntry elf)
  | _ => []

structure Flags where
  fileHeader : Bool
  programHeaders : Bool
  sectionHeaders : Bool
  dynamic : Bool
  symbols : Bool
  relocs : Bool
  mmap : Bool

def etExec : Elf64Half := 2

def etDyn : Elf64Half := 3

def isLoadable (header : Elf64Ehdr) : Bool := header.eType = etExec || header.eType = etDyn

/-- Print each part of the file, based on the flags. -/
def printElfFile (flags : Flags) (rounds : ℕ) (call : MmapCall) : List Shown :=
  (if flags.fileHeader then (headers elf).flatMap printElfHeader else [])
    ++ (if flags.programHeaders then printProgramHeaders elf else [])
    ++ (if flags.sectionHeaders then printSectionHeaders elf else [])
    ++ (if flags.dynamic then printDynamic elf rounds else [])
    ++ (if flags.symbols then printSymbolTables elf else [])
    ++ (if flags.relocs then printRelocations elf else [])
    ++ (if (headers elf).any isLoadable && flags.mmap then printMmap elf call else [])

/-- Every name that is looked up is in its table, and what has none has the fallback. -/
def NamesFound : Prop :=
  ∀ flags rounds call, ∀ shown ∈ printElfFile elf flags rounds call, shown.Ok

/-- The values for which the tool is right. -/
structure HeaderNamed (header : Elf64Ehdr) : Prop where
  «class» : (header.eIdent.getD 4 0).toNat ≤ 2
  endianness : (header.eIdent.getD 5 0).toNat ≤ 2
  version : (header.eIdent.getD 6 0).toNat ≤ 1
  osabi : (header.eIdent.getD 7 0).toNat ≤ 12 ∨ (header.eIdent.getD 7 0).toNat = 255
  type : header.eType.toNat ≤ 4
  machine : header.eMachine.toNat ≤ 8 ∨ header.eMachine.toNat = 62
  eVersion : header.eVersion.toNat ≤ 1

/-- Neither the binding, in the high half of the byte, nor the type lacks a name and a range. -/
structure InfoNamed (info : BitVec 8) : Prop where
  binding : ¬ (3 ≤ info.toNat / 16 ∧ info.toNat / 16 ≤ 9)
  type : ¬ (7 ≤ info.toNat % 16 ∧ info.toNat % 16 ≤ 9)

/-- The type of a relocation is the low half of its information. -/
def TypeNamed (info : U64) : Prop :=
  info.toNat % 2 ^ 32 ≤ 26 ∨ 32 ≤ info.toNat % 2 ^ 32 ∧ info.toNat % 2 ^ 32 ≤ 42

/-- No section but the first has the type after the last one, no dynamic tag is negative, and every
symbol and relocation has a binding and types that the tables or the reserved ranges have. -/
structure Named : Prop where
  header : ∀ ehdr, elf.header = some ehdr → HeaderNamed (ehdr.elem 0)
  sections : ∀ ehdr, elf.header = some ehdr → ∀ shdrs, elf.sections = some shdrs →
    ∀ i, 1 ≤ i → i < (ehdr.elem 0).eShnum.toNat → (shdrs.elem i).shType ≠ 16
  tags : ∀ dyns, elf.dynamic.dynamic = some dyns → ∀ i, (∀ k ≤ i, (dyns.elem k).dTag ≠ 0) →
    0 ≤ (dyns.elem i).dTag.toInt
  symbols : ∀ tables, elf.symbolTables = some tables →
    ∀ table ∈ tables.entries.take elf.nSymbolTables.toNat, ∀ symbols, table.symbols = some symbols →
      ∀ i, 1 ≤ i → i < table.nSymbols.toNat → InfoNamed (symbols.elem i).stInfo
  relocations : ∀ tables, elf.relTables = some tables →
    ∀ table ∈ tables.entries.take elf.nRelTables.toNat, ∀ relas, table.relocations = some relas →
      ∀ i < table.nRelocations.toNat, TypeNamed (relas.elem i).rInfo

end PrintElf

end SctOs
