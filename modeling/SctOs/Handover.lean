import SctOs.BootTables
import SctOs.FreeList

/-!
# From the loader to the kernel

The kernel finds `bootloader_data` in the window, as the loader left it but for the memory map, and
makes its own tables of the pages that it runs in.
-/

namespace SctOs

open Bytes Loader Kernel

/-- The kernel's globals, when the loader has prepared `x`. -/
structure HandedOver (x : Boot) (g : Globals) : Prop where
  bootloaderData : g.bootloaderData = x.windowed.paddrBase + x.bootloaderData
  data : g.data = { x.final with
    ePhnum := x.ePhnum
    phdrs := x.phdrs
    numEntries := g.data.numEntries
    memoryMap := g.data.memoryMap }

/-- The pages that the kernel runs in: its segments, `bootloader_data`, and the free memory, which
holds the stack and the tables. -/
inductive KernelPage (x : Boot) : U64 → Prop
  | segment (phdr : Elf64Phdr) (i : ℕ) : phdr ∈ x.loads →
    i < (numPages phdr.pVaddr phdr.pMemsz).toNat →
    KernelPage x (pageBase phdr.pVaddr + pageSize * BitVec.ofNat 64 i)
  | bootloaderData : KernelPage x (x.windowed.paddrBase + x.bootloaderData)
  | freeMemory (i : ℕ) : i < x.data.nPages.toNat →
    KernelPage x (x.windowed.paddrBase + x.freePage i)

/-- The addresses have the same page number, which is all that the tables look at. -/
def SamePage (v v' : U64) : Prop := frameOf v = frameOf v'

instance : DecidableRel SamePage := fun _ _ => inferInstanceAs (Decidable (_ = _))

/-- A page of the last RELRO header. -/
def ProtectedPage (data : BootloaderData) (v : U64) : Prop :=
  ∃ page ∈ relroPages data, SamePage v page

instance (data : BootloaderData) : DecidablePred (ProtectedPage data) := fun v =>
  decidable_of_iff ((relroPages data).any fun page => SamePage v page) (by simp [ProtectedPage])

/-- The addresses of a segment. -/
def Elf64Phdr.Mem (phdr : Elf64Phdr) (v : U64) : Prop :=
  ∃ i < phdr.pMemsz.toNat, v = phdr.pVaddr + BitVec.ofNat 64 i

/-- The page of `v` meets the segment, taken from the start of its first page on. -/
def Elf64Phdr.Touches (phdr : Elf64Phdr) (v : U64) : Prop :=
  ∃ i < (pageOffset phdr.pVaddr).toNat + phdr.pMemsz.toNat,
    SamePage v (pageBase phdr.pVaddr + BitVec.ofNat 64 i)

/-- The kernel's globals, when the loader has prepared `x` and then made `data` of the final memory
map. -/
def handover (x : Boot) (data : BootloaderData) (apicPaddr apicVaddr : U64) : Globals :=
  ⟨data.paddrBase + x.bootloaderData, { data with ePhnum := x.ePhnum, phdrs := x.phdrs }, apicPaddr,
    apicVaddr⟩

/-- The loader's tables of a list of requests. -/
def Loader.mapPages (root : U64) (qs : List Request) : Run (List U64) Unit :=
  qs.forM fun q => Loader.mapPage root q.ppage q.vpage q.flags

/-- The kernel's tables of a list of requests. -/
def Kernel.mapPages (data : BootloaderData) (root : U64) (qs : List Request) : Run U64 Unit :=
  qs.forM fun q => Kernel.mapPage data root q.ppage q.vpage q.flags

/-- A zeroed root table, and other pages that the firmware will hand out. -/
structure Loader.Fresh (root : Frame) (free : List Frame) (s : Machine (List U64)) : Prop where
  pool : s.pool = free.map frameAddr
  nodup : (root :: free).Nodup
  zero : SameAt s.mem (fun _ => 0) (frameAddr root) 4096

/-- The bytes of `bootloader_data` and of the entries of its memory map. -/
def dataBytes (sizeof : U64) (data : BootloaderData) : ℕ :=
  sizeofBootloaderData + data.numEntries.toNat * sizeof.toNat

/-- The first `n` bytes of physical memory from `a` on are seen through the window. -/
def Visible (base a : U64) (n : ℕ) (t : U64 → Option Mapping) : Prop :=
  ∀ i < n, ∃ w, t (base + (a + BitVec.ofNat 64 i)) = some ⟨a + BitVec.ofNat 64 i, w⟩

/-- The firmware has allocated two pages for `bootloader_data`: the first is a page of a `LoaderData`
segment, and the second is neither in the free memory nor in the pages of the kernel. -/
structure TwoPages (x : Boot) : Prop where
  loaderData : InLoaderData x.memoryMap x.bootloaderData
  frame : ∃ f, x.bootloaderData = frameAddr f
  freeMemory : ∀ i < x.data.nPages.toNat, ¬ SamePage (x.freePage i) (x.bootloaderData + pageSize)
  segments : ∀ ph ∈ x.loads, ∀ i < ph.range.pages,
    ¬ SamePage (ph.range.ppage i) (x.bootloaderData + pageSize)

end SctOs
