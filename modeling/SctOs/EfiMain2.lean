import SctOs.KernelImage
import SctOs.Relocations
import SctOs.Translated

/-!
# The loader behind its page tables

`efi_main2` of `efi/opsys-loader.c`: from `set_cr3` on, the loader reads and writes physical memory
through the boot tables, and what it writes must not be the tables. `do_relocations` is here with
each of its accesses. What `bootloader_data` holds is given by value, and is in reach at both of its
addresses.
-/

namespace SctOs

namespace Loader

open Bytes Relocations

/-- The processor's translation with the tables at `cr3`. -/
def translation (cr3 : U64) : Translation 64 := fun phys v =>
  (walk phys cr3 v).map fun t => (t.paddr, t.writable)

/-- Why the kernel is not called. -/
inductive Fault
  /-- An access that the tables do not allow. -/
  | page (v : U64)
  /-- No program header is `PT_DYNAMIC`. -/
  | noDynamic
  | halt (e : Halt)
  deriving DecidableEq, Repr

section Through

variable (cr3 : U64) (phys : Memory)

def readThrough (v : U64) (n : ℕ) : Except Fault ℕ :=
  ((translation cr3).read phys v n).mapError .page

def loadThrough (v : U64) : Except Fault U64 := do
  return BitVec.ofNat 64 (← readThrough cr3 phys v 8)

def storeThrough (v x : U64) : Except Fault Memory :=
  ((translation cr3).write phys v 8 (byteOf x.toNat)).mapError .page

/-- The scan of at most some number of entries. `d_un` is read for three of the tags. -/
def scanThrough : ℕ → U64 → Found → Except Fault Found
  | 0, _, _ => .error (.halt .scanning)
  | n + 1, dyn, found => do
    let dTag ← loadThrough cr3 phys dyn
    if dTag = dtNull then return found
    let dUn ← if dTag = dtRela ∨ dTag = dtRelasz ∨ dTag = dtRelaent then
        loadThrough cr3 phys (dyn + 8)
      else pure 0
    let found ← (scanEntry found ⟨dTag, dUn⟩).mapError .halt
    scanThrough n (dyn + 16) found

def relocateThrough (rela : U64) : Except Fault Memory := do
  let rOffset ← loadThrough cr3 phys rela
  let rInfo ← loadThrough cr3 phys (rela + 8)
  if rInfo &&& 0xffffffff = rX8664Relative then
    let rAddend ← loadThrough cr3 phys (rela + 16)
    storeThrough cr3 phys (kernelBase + rOffset) (kernelBase + rAddend)
  else throw (.halt .type)

def doRelocationsThrough (fuel : ℕ) (dynamic : U64) : Except Fault Memory := do
  let found ← scanThrough cr3 phys fuel dynamic ⟨0, 0⟩
  if found.relas = 0 then return phys
  (List.range found.numRelas.toNat).foldlM
    (fun phys i => relocateThrough cr3 phys (found.relas + sizeofRela * BitVec.ofNat 64 i)) phys

/-- `offsetof(Elf64_Ehdr, e_phoff)`. -/
def ePhoffOffset : U64 := 32

/-- `offsetof(Elf64_Ehdr, e_phnum)`. -/
def ePhnumOffset : U64 := 56

/-- The virtual address of the first `PT_DYNAMIC` of the `n` headers from the `i`-th on, or NULL. -/
def findDynamic (phdrs : U64) : ℕ → ℕ → Except Fault U64
  | 0, _ => return 0
  | n + 1, i => do
    let pType ← readThrough cr3 phys (phdrPtr phdrs i) 4
    if BitVec.ofNat 32 pType ≠ ptDynamic then findDynamic phdrs n (i + 1)
    else loadThrough cr3 phys (phdrPtr phdrs i + pVaddrOffset)

end Through

/-- The call of the kernel: what it is called with, and what the loader put into
`bootloader_data` and memory. -/
structure Call where
  kernelMain : U64
  bootloaderData : U64
  ehdr : U64
  phdrs : U64
  mem : Memory

def efiMain2 (fuel : ℕ) (phys : Memory) (bootPageTable bootloaderData : U64)
    (data : BootloaderData) : Except Fault Call := do
  let cr3 := bootPageTable
  let bootloaderData := data.paddrBase + bootloaderData
  let ehdr := kernelBase
  let phdrs := kernelBase + (← loadThrough cr3 phys (ehdr + ePhoffOffset))
  let ePhnum ← readThrough cr3 phys (ehdr + ePhnumOffset) 2
  let dynamic ← findDynamic cr3 phys phdrs ePhnum 0
  if dynamic = 0 then throw .noDynamic
  let phys ← doRelocationsThrough cr3 phys fuel dynamic
  let kernelMain ← loadThrough cr3 phys (ehdr + eEntryOffset)
  return { kernelMain, bootloaderData, ehdr, phdrs, mem := phys }

end Loader

/-! ## The image that the file describes -/

namespace File

open Loader

variable (file : File)

/-- The segment that has the address in its part of the file. -/
def segmentAt (v : U64) : Option Elf64Phdr :=
  (loadsOf file.phdrs).find? fun ph => (v - (shift ph).pVaddr).toNat < ph.pFilesz.toNat

/-- What is at the addresses of the kernel, by the file alone. -/
def memory : Memory := fun v =>
  match file.segmentAt v with
  | some ph => file.byte (ph.pOffset.toNat + (v - (shift ph).pVaddr).toNat)
  | none => 0

/-- The image with its relocations done. -/
def relocated (relas : List Elf64Rela) : Memory :=
  Bytes.writeAll 8 file.memory (relas.map fun r => (r.target, r.value.toNat))

end File

namespace Loader

open Bytes Relocations

/-- The address is in the memory of a segment. -/
def InSegments (file : File) (v : U64) : Prop :=
  ∃ ph ∈ loadsOf file.phdrs, (v - (shift ph).pVaddr).toNat < ph.pMemsz.toNat

/-- The byte is in a segment's part of the file, and `load_kernel` does not rewrite it. -/
def InFile (file : File) (v : U64) : Prop :=
  (∃ ph ∈ loadsOf file.phdrs, (v - (shift ph).pVaddr).toNat < ph.pFilesz.toNat) ∧
    ¬ Rewritten file kernelBase v

/-- The address is in the memory of a segment that can be written. -/
def Writable (file : File) (v : U64) : Prop :=
  ∃ ph ∈ loadsOf file.phdrs, ph.pFlags &&& pfW ≠ 0 ∧
    (v - (shift ph).pVaddr).toNat < ph.pMemsz.toNat

/-- A kernel file that can be relocated: its first `PT_DYNAMIC` header names the dynamic table, both
tables are in the file, and what the relocations write can be written and is not the ELF header. -/
structure Relocatable (file : File) (dynamic : U64) (dyns : List Elf64Dyn) (ptr size : U64)
    (relas : List Elf64Rela) : Prop where
  header : ∃ ph, file.phdrs.find? (·.pType = ptDynamic) = some ph ∧
    dynamic = ph.pVaddr + kernelBase
  nonnull : dynamic ≠ 0
  tables : Tables file.memory dynamic dyns ptr size relas
  supported : Supported dyns relas
  dynInFile : ∀ i < 16 * dyns.length + 8, InFile file (dynamic + BitVec.ofNat 64 i)
  relaInFile : ∀ i < 24 * relas.length, InFile file (kernelBase + ptr + BitVec.ofNat 64 i)
  writable : ∀ r ∈ relas, ∀ i < 8, Writable file (r.target + BitVec.ofNat 64 i)
  ehdr : ∀ r ∈ relas, Apart r.target 8 kernelBase sizeofEhdr

end Loader

end SctOs
