import SctOs.FreeList
import SctOs.Ranges

/-!
# What a new address space maps

The page of `bootloader_data`, the free memory, the page of the APIC, the firmware's runtime
segments and the kernel's own segments; the pages of the RELRO segment end up read only.
-/

namespace SctOs

namespace BootloaderData

/-- The program headers that the loops over `e_phnum` read. -/
def headers (data : BootloaderData) : List Elf64Phdr := data.phdrs.take data.ePhnum.toNat

/-- The descriptors that the loops over `NumEntries` read. -/
def entries (data : BootloaderData) : List EfiMemoryDescriptor :=
  data.memoryMap.take data.numEntries.toNat

def loads (data : BootloaderData) : List Elf64Phdr :=
  data.headers.filter fun phdr => phdr.pType = ptLoad

/-- The header of the last RELRO segment. -/
def relro (data : BootloaderData) : Option Elf64Phdr :=
  (data.headers.filter fun phdr => phdr.pType = ptGnuRelro).getLast?

def runtimeEntries (data : BootloaderData) : List EfiMemoryDescriptor :=
  data.entries.filter fun memory => memory.attributes &&& efiMemoryRuntime ≠ 0

end BootloaderData

namespace Kernel

def descriptorRange (memory : EfiMemoryDescriptor) : PageRange :=
  ⟨memory.physicalStart, memory.virtualStart, memory.numberOfPages.toNat,
    runtimeFlags memory.type⟩

/-- The ranges that `newAddressSpace` maps before the kernel's segments. -/
def dataRanges (g : Globals) : List PageRange :=
  [⟨g.bootloaderData - g.data.paddrBase, g.bootloaderData, 1, pteRw⟩,
    ⟨g.data.freeMemory - g.data.paddrBase, g.data.freeMemory, g.data.nPages.toNat, pteRw⟩,
    ⟨g.apicPaddr, g.apicVaddr, 1, pteRw⟩]
  ++ g.data.runtimeEntries.map descriptorRange

/-- The ranges that `newAddressSpace` maps, in order. -/
def spaceRanges (g : Globals) : List PageRange :=
  dataRanges g ++ g.data.loads.map Elf64Phdr.range

def spaceRequests (g : Globals) : List Request := (spaceRanges g).flatMap PageRange.requests

/-- The pages that `newAddressSpace` makes read only. -/
def relroPages (data : BootloaderData) : List U64 :=
  match data.relro with
  | none => []
  | some phdr => (List.range (numPages phdr.pVaddr phdr.pMemsz).toNat).map fun i =>
    pageBase phdr.pVaddr + pageSize * BitVec.ofNat 64 i

/-- A page that the last RELRO segment touches. -/
def RelroPage (data : BootloaderData) (vpage : U64) : Prop :=
  ∃ phdr, data.relro = some phdr
    ∧ ∃ i < phdr.pMemsz.toNat, vpage = pageBase (phdr.pVaddr + BitVec.ofNat 64 i)

/-- The layout of a new address space: `vpage` leads to `ppage`, and may be written or not. -/
inductive SpaceMaps (g : Globals) : U64 → U64 → Prop → Prop
  | bootloaderData :
    SpaceMaps g g.bootloaderData (g.bootloaderData - g.data.paddrBase) True
  | freeMemory (i : ℕ) : i < g.data.nPages.toNat →
    SpaceMaps g (g.data.freeMemory + pageSize * BitVec.ofNat 64 i)
      (g.data.freeMemory + pageSize * BitVec.ofNat 64 i - g.data.paddrBase) True
  | apic : SpaceMaps g g.apicVaddr g.apicPaddr True
  | runtime (memory : EfiMemoryDescriptor) (i : ℕ) : memory ∈ g.data.entries →
    memory.attributes &&& efiMemoryRuntime ≠ 0 → i < memory.numberOfPages.toNat →
    SpaceMaps g (memory.virtualStart + pageSize * BitVec.ofNat 64 i)
      (memory.physicalStart + pageSize * BitVec.ofNat 64 i)
      (memory.type ∈ [EfiMemoryType.runtimeServicesData, .runtimeServicesCode, .memoryMappedIo,
        .memoryMappedIoPortSpace])
  | segment (phdr : Elf64Phdr) (i : ℕ) : phdr ∈ g.data.headers → phdr.pType = ptLoad →
    i < phdr.pMemsz.toNat →
    SpaceMaps g (pageBase (phdr.pVaddr + BitVec.ofNat 64 i))
      (pageBase phdr.pPaddr + (pageBase (phdr.pVaddr + BitVec.ofNat 64 i) - pageBase phdr.pVaddr))
      (phdr.pFlags &&& pfW ≠ 0
        ∧ ¬ RelroPage g.data (pageBase (phdr.pVaddr + BitVec.ofNat 64 i)))

/-- A layout that the tables can express: its ranges are page aligned, canonical and disjoint, their
physical pages lie below `2 ^ 48`, segments are not empty, and a RELRO segment lies in pages of
loaded ones. -/
structure SpaceOk (g : Globals) : Prop where
  aligned : ∀ r ∈ spaceRanges g, pageOffset r.vaddr = 0
  disjoint : (spaceRanges g).Pairwise PageRange.Disjoint
  canonical : ∀ vpage ppage w, SpaceMaps g vpage ppage w → Canonical vpage
  physical : ∀ vpage ppage w, SpaceMaps g vpage ppage w → ∃ f, ppage = frameAddr f
  nonempty : ∀ phdr ∈ g.data.headers, phdr.pType = ptLoad ∨ phdr.pType = ptGnuRelro →
    phdr.pMemsz ≠ 0
  covered : ∀ relro ∈ g.data.headers, relro.pType = ptGnuRelro →
    ∀ i < relro.pMemsz.toNat, ∃ phdr ∈ g.data.headers, phdr.pType = ptLoad
      ∧ ∃ j < phdr.pMemsz.toNat, pageBase (relro.pVaddr + BitVec.ofNat 64 i)
        = pageBase (phdr.pVaddr + BitVec.ofNat 64 j)

end Kernel

end SctOs
