import SctOs.Elf

/-!
# What the firmware and the loader hand over

The memory map's descriptors, and `struct bootloader_data`.
-/

namespace SctOs

inductive EfiMemoryType
  | reservedMemoryType
  | loaderCode
  | loaderData
  | bootServicesCode
  | bootServicesData
  | runtimeServicesCode
  | runtimeServicesData
  | conventionalMemory
  | unusableMemory
  | acpiReclaimMemory
  | acpiMemoryNVS
  | memoryMappedIo
  | memoryMappedIoPortSpace
  | palCode
  | other (value : BitVec 32)
  deriving DecidableEq, Repr

structure EfiMemoryDescriptor where
  type : EfiMemoryType
  physicalStart : U64
  virtualStart : U64
  numberOfPages : U64
  attributes : U64
  deriving DecidableEq, Repr

instance : Inhabited EfiMemoryDescriptor := ⟨⟨.reservedMemoryType, 0, 0, 0, 0⟩⟩

/-- The attribute of a segment that the firmware uses at run time. -/
def efiMemoryRuntime : U64 := 0x8000000000000000

/-- `struct bootloader_data`. The headers `ehdr` and `phdrs` point to are given by the number of
program headers and the headers themselves, and `MemoryMap` by the slots of its array. -/
structure BootloaderData where
  freeMemory : U64
  nPages : U64
  ramSize : U64
  paddrBase : U64
  paddrSize : U64
  mmioBase : U64
  mmioSize : U64
  ePhnum : Elf64Half
  phdrs : List Elf64Phdr
  numEntries : U64
  memoryMap : List EfiMemoryDescriptor
  deriving Inhabited

end SctOs
