import SctOs.EfiMain
import SctOs.Ranges

/-!
# The loader's page tables

`prepare_boot_page_tables` of `efi/opsys-loader.c`. The firmware maps all memory to itself, so
pointers are physical addresses, and the pool is the pages that `AllocatePages` will answer.
-/

namespace SctOs

namespace Loader

/-- Allocate and zero pages of physical memory. -/
def allocatePages (nPages : U64) : Run (List U64) U64 := do
  match (← get).pool with
  | [] => throw .allocatePages
  | page :: pool =>
    modify fun s => { s with pool := pool }
    memset page 0 (nPages * pageSize)
    return page

def mapPage : U64 → U64 → U64 → U64 → Run (List U64) Unit :=
  mapPageWith (fun p => p) (allocatePages 1)

/-! ## The window on physical memory -/

/-- What `prepare_boot_page_tables` determines of memory. -/
structure Window where
  ramSize : U64
  paddrSize : U64
  mmioSize : U64

/-- Determine `ram_size`, `paddr_size` and `mmio_size` at the `i`-th descriptor. -/
def windowStep (memoryMap : List EfiMemoryDescriptor) (numEntries : U64) (w : Window) (i : ℕ) :
    Window :=
  let memory := memoryMap[i]!
  let w := if memory.type = .memoryMappedIo ∨ memory.type = .memoryMappedIoPortSpace then
    { w with mmioSize := w.mmioSize + memory.numberOfPages * pageSize } else w
  if BitVec.ofNat 64 i ≠ numEntries - 1 - 2 then w else
    let next := memoryMap[i + 1]!
    let paddrSize := next.physicalStart + next.numberOfPages * pageSize
    { w with
      paddrSize := paddrSize
      ramSize := if next.type = .conventionalMemory then
        memory.physicalStart + memory.numberOfPages * pageSize + next.numberOfPages * pageSize
        else paddrSize }

def window (memoryMap : List EfiMemoryDescriptor) (numEntries : U64) : Window :=
  (List.range numEntries.toNat).foldl (windowStep memoryMap numEntries) ⟨0, 0, 0⟩

/-- `bootloader_data` with the layout that follows from the map. -/
def setWindow (memoryMap : List EfiMemoryDescriptor) (numEntries : U64) (data : BootloaderData) :
    BootloaderData :=
  let w := window memoryMap numEntries
  { data with
    ramSize := w.ramSize
    paddrSize := w.paddrSize
    mmioSize := w.mmioSize
    paddrBase := kernelBase - w.paddrSize
    mmioBase := kernelBase - w.paddrSize - w.mmioSize }

/-- The end of the segment that the size of physical memory is taken from. -/
def windowLimit (memoryMap : List EfiMemoryDescriptor) : ℕ :=
  if 3 ≤ memoryMap.length then memoryMap[memoryMap.length - 2]!.limit else 0

/-- The window holds the memory: every segment but the MMIO ones ends within `paddr_size`, so that
its addresses are mapped from `paddr_base` on and below the kernel. -/
structure WindowOk (memoryMap : List EfiMemoryDescriptor) (data : BootloaderData) : Prop where
  covers : ∀ m ∈ memoryMap, ¬ m.type.IsMmio → m.limit ≤ data.paddrSize.toNat
  below : ∀ m ∈ memoryMap, ¬ m.type.IsMmio → ∀ a : U64, m.physicalStart.toNat ≤ a.toNat →
    a.toNat < m.limit → data.paddrBase.toNat ≤ (data.paddrBase + a).toNat
      ∧ (data.paddrBase + a).toNat < kernelBase.toNat

/-! ## Boot page tables -/

/-- Identity map a Loader segment. -/
def mapDescriptor (root : U64) (memory : EfiMemoryDescriptor) : Run (List U64) Unit :=
  if memory.type ≠ .loaderCode ∧ memory.type ≠ .loaderData then pure () else
    (List.range memory.numberOfPages.toNat).forM fun j =>
      let page := memory.physicalStart + pageSize * BitVec.ofNat 64 j
      mapPage root page page (if memory.type = .loaderData then pteRw else 0)

/-- Map a kernel segment to the high half. -/
def mapSegment (root : U64) (phdr : Elf64Phdr) : Run (List U64) Unit :=
  if phdr.pType ≠ ptLoad then pure () else
    (List.range (numPages phdr.pVaddr phdr.pMemsz).toNat).forM fun j =>
      mapPage root (pageBase phdr.pPaddr + pageSize * BitVec.ofNat 64 j)
        (pageBase phdr.pVaddr + pageSize * BitVec.ofNat 64 j)
        (if phdr.pFlags &&& pfW ≠ 0 then pteRw else 0)

/-- Prepare boot page tables with Loader segments identity mapped, `bootloader_data` mapped to the
physical memory region, and the kernel mapped to the high half. -/
def prepareBootPageTables (memoryMap : List EfiMemoryDescriptor) (numEntries bootloaderData : U64)
    (data : BootloaderData) (ePhnum : Elf64Half) (phdrs : List Elf64Phdr) :
    Run (List U64) (U64 × BootloaderData) := do
  let data := setWindow memoryMap numEntries data
  let root ← allocatePages 1
  (memoryMap.take numEntries.toNat).forM (mapDescriptor root)
  mapPage root bootloaderData (data.paddrBase + bootloaderData) pteRw
  (List.range data.nPages.toNat).forM fun i =>
    let page := data.freeMemory + pageSize * BitVec.ofNat 64 i
    mapPage root page (data.paddrBase + page) pteRw
  let data := { data with freeMemory := data.paddrBase + data.freeMemory }
  (phdrs.take ePhnum.toNat).forM (mapSegment root)
  return (root, data)

end Loader

end SctOs
