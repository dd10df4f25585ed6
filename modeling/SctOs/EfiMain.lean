import SctOs.AddressSpace
import SctOs.Mmap

/-!
# The final memory map

Steps 5 to 7 of `efi_main`: acquire the final memory map, exit the boot services, and tell the
runtime services where they are mapped.
-/

namespace SctOs

open InPlace EfiMemoryDescriptor

/-- `sizeof(struct bootloader_data)`, without its memory map. -/
def sizeofBootloaderData : ℕ := 11 * 8

/-- The arguments of `SetVirtualAddressMap`. -/
structure VirtualAddressMap where
  memoryMapSize : U64
  descriptorSize : U64
  virtualMap : List EfiMemoryDescriptor

/-- The descriptors that the firmware finds in its arguments. -/
def VirtualAddressMap.descriptors (args : VirtualAddressMap) : List EfiMemoryDescriptor :=
  args.virtualMap.take (args.memoryMapSize.toNat / args.descriptorSize.toNat)

/-- Steps 5 to 7: `numEntries` is the length of the preliminary map, and `final` the map that the
firmware writes, in descriptors of `sizeof` bytes. -/
def efiMainMap (sizeof numEntries : U64) (data : BootloaderData)
    (final : List EfiMemoryDescriptor) : Except Stop (VirtualAddressMap × BootloaderData) := do
  if 2 * 4096 - sizeofBootloaderData < final.length * sizeof.toNat then throw .getMemoryMap
  let mmSize := BitVec.ofNat 64 (final.length * sizeof.toNat)
  let data ← initMmap { data with
    memoryMap := final ++ data.memoryMap.drop final.length
    numEntries := mmSize / sizeof }
  return (⟨numEntries * sizeof, sizeof, data.memoryMap⟩, data)

/-! ## The map as a list -/

namespace EfiMemoryDescriptor

def pages (memory : EfiMemoryDescriptor) : List U64 :=
  (List.range memory.numberOfPages.toNat).map fun i =>
    memory.physicalStart + pageSize * BitVec.ofNat 64 i

/-- The address after a descriptor's last page. -/
def limit (memory : EfiMemoryDescriptor) : ℕ :=
  memory.physicalStart.toNat + 4096 * memory.numberOfPages.toNat

/-- No page is described by both. -/
def Apart (m m' : EfiMemoryDescriptor) : Prop := m.pages.Disjoint m'.pages

instance : DecidableRel Apart := fun m m' =>
  decidable_of_iff (m.pages.all fun x => x ∉ m'.pages) (by simp [Apart, List.Disjoint])

/-- The segments are alike, and the second starts where the first ends. -/
def Mergeable (m m' : EfiMemoryDescriptor) : Prop :=
  m.type = m'.type ∧ m.attributes = m'.attributes
    ∧ m.physicalStart + 4096 * m.numberOfPages = m'.physicalStart

instance : DecidableRel Mergeable := fun _ _ => inferInstanceAs (Decidable (_ ∧ _ ∧ _))

/-- What a descriptor says of each of its pages. -/
def described (memory : EfiMemoryDescriptor) : List (U64 × EfiMemoryType × U64) :=
  memory.pages.map fun page => (page, memory.type, memory.attributes)

end EfiMemoryDescriptor

/-- The types of the segments that are not reclaimed. -/
def keptTypes : List EfiMemoryType :=
  [.reservedMemoryType, .loaderCode, .loaderData, .runtimeServicesCode, .runtimeServicesData,
    .unusableMemory, .memoryMappedIo, .memoryMappedIoPortSpace]

/-- A map with the types that the system gives its segments: the first is not used, and of the
others those that may be reclaimed are free. -/
def reclaimedMap : List EfiMemoryDescriptor → List EfiMemoryDescriptor
  | [] => []
  | first :: rest => { first with type := .unusableMemory } :: rest.map fun m =>
    { m with type := if m.type ∈ keptTypes then m.type else .conventionalMemory }

/-- The consecutive segments of a map merged. -/
def mergedMap (ms : List EfiMemoryDescriptor) : List EfiMemoryDescriptor :=
  match reclaimedMap ms with
  | [] => []
  | first :: rest => merged Continues extend first rest

/-- The number of segments of a map that cannot be merged into the one before. -/
def runs (ms : List EfiMemoryDescriptor) : ℕ :=
  match reclaimedMap ms with
  | [] => 0
  | first :: rest => breaks Mergeable first rest + 1

/-- The pages that the firmware uses at run time. -/
def runtimePages (ms : List EfiMemoryDescriptor) : List U64 :=
  (ms.filter fun m => m.attributes &&& efiMemoryRuntime ≠ 0).flatMap pages

/-- A map of physical memory: whole pages, none of them described twice. -/
structure MapOk (ms : List EfiMemoryDescriptor) : Prop where
  aligned : ∀ m ∈ ms, pageOffset m.physicalStart = 0
  bounded : ∀ m ∈ ms, m.limit ≤ 2 ^ 64
  disjoint : ms.Pairwise Apart

/-- What `init_mmap` makes of a map: the merged entries, with virtual addresses. -/
def finalEntries (data : BootloaderData) (ms : List EfiMemoryDescriptor) :
    List EfiMemoryDescriptor :=
  scanned (virtual data.paddrBase) data.mmioBase (mergedMap ms)

/-- `init_mmap`'s merging loop after `k` iterations. -/
def mergeLoop (data : BootloaderData) (k : ℕ) : Merge EfiMemoryDescriptor :=
  (List.range' 1 k).foldl (mergeStep reclaim Continues extend)
    ⟨data.memoryMap.set 0 { data.memoryMap[0]! with type := .unusableMemory }, 0, 1⟩

/-- The map's first entry is the NULL page, which the system does not use. -/
def NullPageFirst (ms : List EfiMemoryDescriptor) : Prop :=
  ∃ first rest, ms = first :: rest ∧ first.type = .bootServicesCode ∧ first.physicalStart = 0
    ∧ first.numberOfPages = 1

/-- The firmware is told of the entries that `init_mmap` left and of no other slots, and each page
it uses at run time is in one of them. -/
structure TellsMap (args : VirtualAddressMap) (data : BootloaderData)
    (final : List EfiMemoryDescriptor) : Prop where
  length : args.memoryMapSize.toNat / args.descriptorSize.toNat = data.numEntries.toNat
  entries : args.descriptors = data.entries
  once : ∀ page ∈ runtimePages final, (runtimePages args.descriptors).count page = 1

end SctOs
