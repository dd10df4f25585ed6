import SctOs.Loader

/-!
# What the boot page tables map

The Loader segments to themselves, `bootloader_data` and the free memory in the window on physical
memory, and the kernel in the high half.
-/

namespace SctOs

def EfiMemoryType.IsLoader (t : EfiMemoryType) : Prop := t = loaderCode ∨ t = loaderData

instance : DecidablePred EfiMemoryType.IsLoader := fun _ => inferInstanceAs (Decidable (_ ∨ _))

namespace Loader

/-- The arguments of `prepare_boot_page_tables`: the preliminary memory map, `bootloader_data` and
where it is, and the headers of the kernel. -/
structure Boot where
  memoryMap : List EfiMemoryDescriptor
  fits : memoryMap.length < 2 ^ 64
  bootloaderData : U64
  data : BootloaderData
  ePhnum : Elf64Half
  phdrs : List Elf64Phdr

namespace Boot

def numEntries (x : Boot) : U64 := BitVec.ofNat 64 x.memoryMap.length

/-- `bootloader_data` with the window determined. -/
def windowed (x : Boot) : BootloaderData := setWindow x.memoryMap x.numEntries x.data

/-- `bootloader_data` as it is left. -/
def final (x : Boot) : BootloaderData :=
  { x.windowed with freeMemory := x.windowed.paddrBase + x.data.freeMemory }

def loads (x : Boot) : List Elf64Phdr :=
  (x.phdrs.take x.ePhnum.toNat).filter fun phdr => phdr.pType = ptLoad

/-- A page of the free memory, by its physical address. -/
def freePage (x : Boot) (i : ℕ) : U64 := x.data.freeMemory + pageSize * BitVec.ofNat 64 i

def run (x : Boot) : Run (List U64) (U64 × BootloaderData) :=
  prepareBootPageTables x.memoryMap x.numEntries x.bootloaderData x.data x.ePhnum x.phdrs

end Boot

def identityRange (memory : EfiMemoryDescriptor) : PageRange :=
  ⟨memory.physicalStart, memory.physicalStart, memory.numberOfPages.toNat,
    if memory.type = .loaderData then pteRw else 0⟩

/-- The ranges in the window. -/
def windowRanges (x : Boot) : List PageRange :=
  [⟨x.bootloaderData, x.windowed.paddrBase + x.bootloaderData, 1, pteRw⟩,
    ⟨x.data.freeMemory, x.windowed.paddrBase + x.data.freeMemory, x.data.nPages.toNat, pteRw⟩]

/-- The ranges that `prepareBootPageTables` maps, in order. -/
def bootRanges (x : Boot) : List PageRange :=
  (x.memoryMap.filter fun m => m.type.IsLoader).map identityRange
  ++ (windowRanges x ++ x.loads.map Elf64Phdr.range)

def bootRequests (x : Boot) : List Request := (bootRanges x).flatMap PageRange.requests

/-- The layout of the boot tables: `vpage` leads to `ppage`, and may be written or not. -/
inductive BootMaps (x : Boot) : U64 → U64 → Prop → Prop
  | identity (memory : EfiMemoryDescriptor) (page : U64) : memory ∈ x.memoryMap →
    memory.type.IsLoader → page ∈ memory.pages →
    BootMaps x page page (memory.type = .loaderData)
  | bootloaderData :
    BootMaps x (x.windowed.paddrBase + x.bootloaderData) x.bootloaderData True
  | freeMemory (i : ℕ) : i < x.data.nPages.toNat →
    BootMaps x (x.windowed.paddrBase + x.freePage i) (x.freePage i) True
  | segment (phdr : Elf64Phdr) (i : ℕ) : phdr ∈ x.loads → i < phdr.pMemsz.toNat →
    BootMaps x (pageBase (phdr.pVaddr + BitVec.ofNat 64 i))
      (pageBase phdr.pPaddr + (pageBase (phdr.pVaddr + BitVec.ofNat 64 i) - pageBase phdr.pVaddr))
      (phdr.pFlags &&& pfW ≠ 0)

/-- The page is in a `LoaderData` segment. -/
def InLoaderData (ms : List EfiMemoryDescriptor) (page : U64) : Prop :=
  ∃ m ∈ ms, m.type = .loaderData ∧ page ∈ m.pages

instance (ms : List EfiMemoryDescriptor) : DecidablePred (InLoaderData ms) := fun page =>
  inferInstanceAs (Decidable (∃ m ∈ ms, m.type = .loaderData ∧ page ∈ m.pages))

/-- What the loader has when it prepares the tables: a map of physical memory whose Loader segments
lie in the window, `bootloader_data` and the free memory in different pages of them, and a kernel
whose segments touch different pages of the high half and lie in physical memory below `2 ^ 48`. -/
structure BootOk (x : Boot) : Prop where
  map : MapOk x.memoryMap
  small : x.windowed.paddrSize.toNat ≤ 2 ^ 46
  loader : ∀ m ∈ x.memoryMap, m.type.IsLoader → m.limit ≤ x.windowed.paddrSize.toNat
  bootloaderData : InLoaderData x.memoryMap x.bootloaderData
  freeMemory : ∀ i < x.data.nPages.toNat, InLoaderData x.memoryMap (x.freePage i)
  apart : ∀ i < x.data.nPages.toNat, x.freePage i ≠ x.bootloaderData
  segments : SegmentsOk x.loads
  physical : ∀ ph ∈ x.loads, (pageBase ph.pPaddr).toNat + 4096 * ph.range.pages ≤ 2 ^ 48

end Loader

end SctOs
