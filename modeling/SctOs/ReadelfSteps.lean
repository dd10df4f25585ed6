import SctOs.Readelf

/-!
# What `readelf` asks for

The headers that an ELF file declares, and the calls of `elf_alloc` and `elf_read` that reading it
takes, one after the other. The conditions under which `readelf` does what it should are about the
headers that it reaches.
-/

namespace SctOs

/-- The section that holds the names of a symbol table. -/
def Elf64Shdr.names (shdr : Elf64Shdr) : ℕ := (shdr.shLink.setWidth 16).toNat

namespace Readelf

/-- A call that has to succeed, or a check of what was read. -/
inductive Step
  | alloc
  | read (offset size : U64)
  | check (ok : Bool)

/-- A buffer that is filled from the file. -/
def bufferSteps (offset size : U64) : List Step := [.alloc, .read offset size]

namespace Env

variable (env : Env)

/-! ## The headers -/

def ehdr : Elf64Ehdr :=
  CStruct.array Elf64Ehdr (env.buffer 0 (BitVec.ofNat 64 (sizeof Elf64Ehdr))) 0

def phdr : ℕ → Elf64Phdr :=
  CStruct.array Elf64Phdr (env.buffer env.ehdr.ePhoff (bytesOf Elf64Phdr env.ehdr.ePhnum))

def shdr : ℕ → Elf64Shdr :=
  CStruct.array Elf64Shdr (env.buffer env.ehdr.eShoff (bytesOf Elf64Shdr env.ehdr.eShnum))

def firstPhdr (type : Elf64Word) : Option ℕ :=
  (List.range env.ehdr.ePhnum.toNat).find? fun i => (env.phdr i).pType = type

def symbolIndices : List ℕ :=
  (List.range' 1 (env.ehdr.eShnum.toNat - 1)).filter fun i =>
    (env.shdr i).shType = shtSymtab ∨ (env.shdr i).shType = shtDynsym

def relIndices : List ℕ :=
  (List.range' 1 (env.ehdr.eShnum.toNat - 1)).filter fun i =>
    (env.shdr i).shType = shtRel ∨ (env.shdr i).shType = shtRela

/-- A copy of the section. -/
def sectionData (α : Type) [CStruct α] (i ptr : ℕ) : Pointer α :=
  ⟨ptr, (env.shdr i).shSize,
    CStruct.array α (env.buffer (env.shdr i).shOffset (env.shdr i).shSize)⟩

/-- A copy of the segment. -/
def phdrData (α : Type) [CStruct α] (i ptr : ℕ) : Pointer α :=
  ⟨ptr, (env.phdr i).pFilesz,
    CStruct.array α (env.buffer (env.phdr i).pOffset (env.phdr i).pFilesz)⟩

/-- The section's relocations, with the addend 0. -/
def converted (i ptr : ℕ) : Pointer Elf64Rela :=
  let nElems := (env.shdr i).shSize / BitVec.ofNat 64 (sizeof Elf64Shdr)
  ⟨ptr, BitVec.ofNat 64 (sizeof Elf64Rela) * nElems, fun j =>
    if j < nElems.toNat then ((env.sectionData Elf64Rel i ptr).elem j).toRela
    else CStruct.array Elf64Rela env.past j⟩

/-- The relocations of either kind of section. -/
def relocations (i ptr : ℕ) : Pointer Elf64Rela :=
  if (env.shdr i).shType = shtRela then env.sectionData Elf64Rela i ptr else env.converted i ptr

/-! ## The calls -/

def phdrSteps (i : ℕ) : List Step := bufferSteps (env.phdr i).pOffset (env.phdr i).pFilesz

def sectionSteps (i : ℕ) : List Step := bufferSteps (env.shdr i).shOffset (env.shdr i).shSize

/-- The contents of the first segment of a type. -/
def segmentSteps (type : Elf64Word) : List Step := (env.firstPhdr type).elim [] env.phdrSteps

/-- The ELF header and the program headers. -/
def programHeaderSteps : List Step :=
  [.read 0 (BitVec.ofNat 64 (sizeof Elf64Ehdr)),
      .check (env.ehdr.eIdent.take 4 = [0x7f, 0x45, 0x4c, 0x46])]
    ++ if env.ehdr.ePhnum = 0 then []
      else bufferSteps env.ehdr.ePhoff (bytesOf Elf64Phdr env.ehdr.ePhnum)

def headerSteps : List Step :=
  [.alloc] ++ env.programHeaderSteps ++ bufferSteps env.ehdr.eShoff (bytesOf Elf64Shdr env.ehdr.eShnum)

/-- The section names and the interpreter. -/
def nameSteps : List Step :=
  env.headerSteps ++ env.sectionSteps env.ehdr.eShstrndx.toNat ++ env.segmentSteps ptInterp

def symbolSteps (i : ℕ) : List Step := env.sectionSteps i ++ env.sectionSteps (env.shdr i).names

/-- The array and the tables of these sections. -/
def symbolTableSteps (is : List ℕ) : List Step := .alloc :: is.flatMap env.symbolSteps

def relSteps (i : ℕ) : List Step :=
  env.sectionSteps i ++ if (env.shdr i).shType = shtRela then [] else [.alloc]

def relTableSteps (is : List ℕ) : List Step := .alloc :: is.flatMap env.relSteps

/-- Up to the symbol tables. -/
def tableSteps : List Step := env.nameSteps ++ env.symbolTableSteps env.symbolIndices

/-- Up to the dynamic segment. -/
def dynamicSteps : List Step := env.tableSteps ++ env.segmentSteps ptDynamic

/-! ## Runs -/

def step : Step → Counts → Option Counts
  | .alloc, c => if env.alloc c.allocs then some { c with allocs := c.allocs + 1 } else none
  | .read offset size, c =>
    if env.Reads c.reads offset size then some { c with reads := c.reads + 1 } else none
  | .check ok, c => if ok then some c else none

/-- The number of calls after these, if they succeed. -/
def after (steps : List Step) (c : Counts) : Option Counts :=
  steps.foldlM (fun c s => env.step s c) c

/-- The calls succeed, as the first ones. -/
def Reaches (steps : List Step) : Prop := (env.after steps ⟨0, 0⟩).isSome

instance (steps : List Step) : Decidable (env.Reaches steps) := inferInstanceAs (Decidable (_ = _))

end Env

/-- `readelf` and then what it leaves in the world. -/
def Env.final (env : Env) : World :=
  match (readelf env).run World.init with
  | .ok _ w => w
  | .error _ w => w

/-- Every pointer that `elf_alloc` returned was passed to `elf_free` exactly once. -/
def World.FreedOnce (w : World) : Prop := ∀ ptr ∈ w.allocated, w.freed.count ptr = 1

instance : DecidablePred World.FreedOnce := fun w =>
  inferInstanceAs (Decidable (∀ ptr ∈ w.allocated, _))

/-- `readelf` and `free_elf_file` free all that they allocate, and an error leaves the `elf_file` as
`init_elf_file` does. -/
def Balanced (env : Env) : Prop :=
  ∃ err w w', (readelf env).run World.init = .ok err w ∧ freeElfFile.run w = .ok () w' ∧ w'.FreedOnce
    ∧ (err = true → w.elf = initElfFile)

/-- With the dynamic segment in the file, there is a dynamic symbol table. -/
def DynsymOk (env : Env) : Prop :=
  env.firstPhdr ptDynamic ≠ none → env.Reaches env.dynamicSteps →
    ∃ i ∈ env.symbolIndices, (env.shdr i).shType = shtDynsym

/-- The entries of each relocation section that is reached have a size. -/
def EntsizeOk (env : Env) : Prop :=
  ∀ before i after, env.relIndices = before ++ i :: after →
    env.Reaches (env.dynamicSteps ++ env.relTableSteps before) → (env.shdr i).shEntsize ≠ 0

/-- With the section headers in the file, the section names are one of the sections. -/
def ShstrndxOk (env : Env) : Prop :=
  env.Reaches env.headerSteps → env.ehdr.eShstrndx.toNat < env.ehdr.eShnum.toNat

/-- The names of each symbol table whose symbols are reached are one of the sections. -/
def LinksOk (env : Env) : Prop :=
  ∀ before i after, env.symbolIndices = before ++ i :: after →
    env.Reaches (env.nameSteps ++ env.symbolTableSteps before ++ env.sectionSteps i) →
      (env.shdr i).names < env.ehdr.eShnum.toNat

end Readelf

end SctOs
