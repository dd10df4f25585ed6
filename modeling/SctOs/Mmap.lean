import SctOs.Efi
import SctOs.InPlace
import SctOs.Machine

/-!
# The memory map

`init_mmap` of `efi/opsys-loader.c`: reclaim and merge the descriptors of the final memory map in
their array, and give the runtime segments their virtual addresses.
-/

namespace SctOs

open InPlace

/-- The type a segment has for the system: it reclaims what the firmware leaves usable. -/
def EfiMemoryType.reclaim (t : EfiMemoryType) : EfiMemoryType :=
  if t ≠ reservedMemoryType ∧ t ≠ loaderCode ∧ t ≠ loaderData ∧ t ≠ runtimeServicesCode
      ∧ t ≠ runtimeServicesData ∧ t ≠ unusableMemory ∧ t ≠ memoryMappedIo
      ∧ t ≠ memoryMappedIoPortSpace then
    conventionalMemory
  else t

/-- The types of device memory. -/
def EfiMemoryType.IsMmio (t : EfiMemoryType) : Prop :=
  t = memoryMappedIo ∨ t = memoryMappedIoPortSpace

instance : DecidablePred EfiMemoryType.IsMmio := fun _ => inferInstanceAs (Decidable (_ ∨ _))

namespace EfiMemoryDescriptor

def reclaim (memory : EfiMemoryDescriptor) : EfiMemoryDescriptor :=
  { memory with type := memory.type.reclaim }

/-- `memory` can be merged into `prev`. -/
def Continues (prev memory : EfiMemoryDescriptor) : Prop :=
  memory.type = prev.type ∧ memory.attributes = prev.attributes
    ∧ memory.physicalStart = prev.physicalStart + prev.numberOfPages * pageSize

instance : DecidableRel Continues := fun _ _ => inferInstanceAs (Decidable (_ ∧ _ ∧ _))

def extend (prev memory : EfiMemoryDescriptor) : EfiMemoryDescriptor :=
  { prev with numberOfPages := prev.numberOfPages + memory.numberOfPages }

/-- Give a runtime segment its virtual address, `next` being that of the next MMIO segment. -/
def virtual (paddrBase : U64) (next : U64) (memory : EfiMemoryDescriptor) :
    EfiMemoryDescriptor × U64 :=
  if memory.type = .memoryMappedIo ∨ memory.type = .memoryMappedIoPortSpace then
    ({ memory with virtualStart := next }, next + memory.numberOfPages * pageSize)
  else if memory.attributes &&& efiMemoryRuntime ≠ 0 then
    ({ memory with virtualStart := memory.physicalStart + paddrBase }, next)
  else (memory, next)

end EfiMemoryDescriptor

open EfiMemoryDescriptor

/-- Parse and complete filling out the memory map. -/
def initMmap (data : BootloaderData) : Except Stop BootloaderData := do
  if data.numEntries = 0 then throw .noEntries
  let first := data.memoryMap[0]!
  if first.type ≠ .bootServicesCode ∨ first.physicalStart ≠ 0 ∨ first.numberOfPages ≠ 1 then
    throw .firstEntry
  let slots := data.memoryMap.set 0 { first with type := .unusableMemory }
  let merge := (List.range' 1 (data.numEntries.toNat - 1)).foldl
    (mergeStep reclaim Continues extend) ⟨slots, 0, 1⟩
  let (slots, _) := (List.range merge.newLength).foldl (scanStep (virtual data.paddrBase))
    (merge.slots, data.mmioBase)
  return { data with memoryMap := slots, numEntries := BitVec.ofNat 64 merge.newLength }

end SctOs
