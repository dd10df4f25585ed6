import SctOs.Machine
import SctOs.Efi

/-!
# The kernel's memory management

`src/virtual-memory.c`. The memory is as the kernel sees it, through its virtual addresses, and the
pool is `free_list`, a pointer to the first free page or NULL. What `bootloader_data` points to is
only read here, and is given by value.
-/

namespace SctOs

/-- The globals the kernel reads: where `bootloader_data` points and what is there, and the part of
`cpu` that `init_apic` sets. -/
structure Globals where
  bootloaderData : U64
  data : BootloaderData
  apicPaddr : U64
  apicVaddr : U64

namespace Kernel

/-- Return an uninitialized new page. -/
def appNormal : BitVec 32 := 0

/-- Zero initialize the new page. -/
def appZero : BitVec 32 := 1 <<< 0

/-- Return the actual physical address of the new page. -/
def appFlat : BitVec 32 := 1 <<< 1

/-- Implies `appZero` and `appFlat`. -/
def appPte : BitVec 32 := 1 <<< 2

def freePhysicalPage (page : U64) : Run U64 Unit := do
  writeWord page (← get).pool
  modify fun s => { s with pool := page }

/-- The flags with those that `appPte` implies. -/
def appImplied (flags : BitVec 32) : BitVec 32 :=
  if flags &&& appPte ≠ 0 then flags ||| (appZero ||| appFlat) else flags

def allocatePhysicalPage (data : BootloaderData) (flags : BitVec 32) : Run U64 U64 := do
  let flags := appImplied flags
  if (← get).pool = 0 then throw .noFreePage
  let page := (← get).pool
  let next ← readWord page
  modify fun s => { s with pool := next }
  if flags &&& appZero ≠ 0 then memset page 0 pageSize
  if flags &&& appFlat ≠ 0 then return page - data.paddrBase
  return page

/-- Map `vpage` to `ppage`. -/
def mapPage (data : BootloaderData) : U64 → U64 → U64 → U64 → Run U64 Unit :=
  mapPageWith (fun p => data.paddrBase + p) (allocatePhysicalPage data appPte)

/-- The table one level down from `table` on the way to `vpage`. -/
def presentTable (data : BootloaderData) (table vpage : U64) (level : ℕ) : Run U64 U64 := do
  let e := table + 8 * pageLevelIndex vpage level
  if (← readWord e) &&& pteP = 0 then throw .notMapped
  return data.paddrBase + ((← readWord e) &&& pteAddrMask)

/-- Turn off the RW flag for the given virtual address. -/
def setVpageRo (data : BootloaderData) (addressSpace vpage : U64) : Run U64 Unit := do
  let level3 ← presentTable data addressSpace vpage 4
  let level2 ← presentTable data level3 vpage 3
  let level1 ← presentTable data level2 vpage 2
  let e := level1 + 8 * pageLevelIndex vpage 1
  if (← readWord e) &&& pteP = 0 then throw .notMapped
  writeWord e ((← readWord e) &&& ~~~pteRw)

/-- Map `n` pages at `vaddrStart` to `n` pages at `paddrStart`. -/
def mapRange (data : BootloaderData) (addressSpace paddrStart vaddrStart nPages flags : U64) :
    Run U64 Unit :=
  (List.range nPages.toNat).forM fun i =>
    mapPage data addressSpace (paddrStart + pageSize * BitVec.ofNat 64 i)
      (vaddrStart + pageSize * BitVec.ofNat 64 i) flags

/-- The flags a runtime segment is mapped with. -/
def runtimeFlags (t : EfiMemoryType) : U64 :=
  let flags := if t = .runtimeServicesData ∨ t = .memoryMappedIo ∨ t = .memoryMappedIoPortSpace
    then pteRw else 0
  if t = .runtimeServicesCode then flags ||| pteRw else flags

/-- Map a runtime segment. -/
def mapDescriptor (data : BootloaderData) (addressSpace : U64) (memory : EfiMemoryDescriptor) :
    Run U64 Unit :=
  if memory.attributes &&& efiMemoryRuntime = 0 then pure () else
    mapRange data addressSpace memory.physicalStart memory.virtualStart memory.numberOfPages
      (runtimeFlags memory.type)

/-- Map a kernel segment, and note the header if it is `PT_GNU_RELRO`. -/
def mapSegment (data : BootloaderData) (addressSpace : U64) (relro : Option Elf64Phdr)
    (phdr : Elf64Phdr) : Run U64 (Option Elf64Phdr) := do
  let relro := if phdr.pType = ptGnuRelro then some phdr else relro
  if phdr.pType ≠ ptLoad then return relro
  mapRange data addressSpace (pageBase phdr.pPaddr) (pageBase phdr.pVaddr)
    (numPages phdr.pVaddr phdr.pMemsz) (if phdr.pFlags &&& pfW ≠ 0 then pteRw else 0)
  return relro

/-- Make the pages of the RELRO segment read only. -/
def protectRelro (data : BootloaderData) (addressSpace : U64) : Option Elf64Phdr → Run U64 Unit
  | none => pure ()
  | some relro =>
    (List.range (numPages relro.pVaddr relro.pMemsz).toNat).forM fun i =>
      setVpageRo data addressSpace (pageBase relro.pVaddr + pageSize * BitVec.ofNat 64 i)

/-- Create a new address space. -/
def newAddressSpace (g : Globals) : Run U64 U64 := do
  let data := g.data
  let addressSpace ← allocatePhysicalPage data appZero
  if addressSpace = 0 then throw .noMem
  mapRange data addressSpace (g.bootloaderData - data.paddrBase) g.bootloaderData 1 pteRw
  mapRange data addressSpace (data.freeMemory - data.paddrBase) data.freeMemory data.nPages pteRw
  mapRange data addressSpace g.apicPaddr g.apicVaddr 1 pteRw
  (data.memoryMap.take data.numEntries.toNat).forM (mapDescriptor data addressSpace)
  let relro ← (data.phdrs.take data.ePhnum.toNat).foldlM (mapSegment data addressSpace) none
  protectRelro data addressSpace relro
  return addressSpace

/-- The part of `kernel_main` after `init_cpu`: start off with some initial memory, and take a page
of it for the new stack. -/
def kernelMain (data : BootloaderData) : Run U64 U64 := do
  (List.range data.nPages.toNat).forM fun i =>
    freePhysicalPage (data.freeMemory + pageSize * BitVec.ofNat 64 i)
  let newStack ← allocatePhysicalPage data appNormal
  if newStack = 0 then throw .noMem
  return newStack

end Kernel

end SctOs
