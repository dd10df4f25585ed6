import SctOs.EfiMain
import SctOs.FreeList

/-!
# The layout of virtual memory

From low to high: the page of the APIC, the MMIO segments, the window on physical memory, and the
kernel. `init_mmap` gives the runtime segments their places in it.
-/

namespace SctOs

/-- The physical addresses of a segment. -/
def EfiMemoryDescriptor.physical (m : EfiMemoryDescriptor) : Span :=
  ⟨m.physicalStart.toNat, 4096 * m.numberOfPages.toNat⟩

/-- The virtual addresses of a runtime segment. -/
def EfiMemoryDescriptor.span (m : EfiMemoryDescriptor) : Span :=
  ⟨m.virtualStart.toNat, 4096 * m.numberOfPages.toNat⟩

def EfiMemoryDescriptor.Mmio (m : EfiMemoryDescriptor) : Bool := m.type.IsMmio

/-- The length of a map's MMIO segments. -/
def mmioBytes (ms : List EfiMemoryDescriptor) : ℕ :=
  ((ms.filter EfiMemoryDescriptor.Mmio).map fun m => 4096 * m.numberOfPages.toNat).sum

/-- A segment that the firmware uses at run time, in memory. -/
def EfiMemoryDescriptor.RuntimeMemory (m : EfiMemoryDescriptor) : Bool :=
  ¬ m.type.IsMmio ∧ m.attributes &&& efiMemoryRuntime ≠ 0

/-- What the loader hands over before `init_mmap`, with `bootloader_data` and the free memory at the
physical addresses `b` and `f`. -/
structure LayoutOk (data : BootloaderData) (b f : U64) : Prop where
  map : MapOk data.entries
  slots : data.numEntries.toNat ≤ data.memoryMap.length
  mmio : mmioBytes data.entries = data.mmioSize.toNat
  paddrBase : data.paddrBase = kernelBase - data.paddrSize
  mmioBase : data.mmioBase = data.paddrBase - data.mmioSize
  small : data.paddrSize.toNat + data.mmioSize.toNat ≤ 2 ^ 46
  bootloaderData : b.toNat + 4096 ≤ data.paddrSize.toNat
  freeMemory : data.freeMemory = data.paddrBase + f
    ∧ f.toNat + 4096 * data.nPages.toNat ≤ data.paddrSize.toNat
  runtime : ∀ m ∈ data.entries, m.RuntimeMemory → m.limit ≤ data.paddrSize.toNat
  apart : Span.Disjoint ⟨b.toNat, 4096⟩ ⟨f.toNat, 4096 * data.nPages.toNat⟩
  runtimeApart : ∀ m ∈ data.entries, m.RuntimeMemory →
    Span.Disjoint ⟨b.toNat, 4096⟩ m.physical
    ∧ Span.Disjoint ⟨f.toNat, 4096 * data.nPages.toNat⟩ m.physical
  segments : SegmentsOk data.loads

/-- The kernel's globals, given where the APIC is. -/
def globals (data : BootloaderData) (b apicPaddr : U64) : Globals :=
  ⟨data.paddrBase + b, data, apicPaddr, data.mmioBase - pageSize⟩

/-- The spans of the new address space: `bootloader_data`, the free memory, the APIC, the MMIO and
runtime segments, and the kernel. -/
def spans (data : BootloaderData) (b : U64) : List Span :=
  [⟨(data.paddrBase + b).toNat, 4096⟩, ⟨data.freeMemory.toNat, 4096 * data.nPages.toNat⟩,
    ⟨(data.mmioBase - pageSize).toNat, 4096⟩]
  ++ (data.entries.filter fun m => m.Mmio || m.RuntimeMemory).map EfiMemoryDescriptor.span
  ++ data.loads.map fun phdr => phdr.range.span

end SctOs
