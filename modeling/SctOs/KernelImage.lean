import SctOs.BootTables
import SctOs.LoadKernel

/-!
# The kernel through the boot tables

`prepare_boot_page_tables` takes the headers from the loaded image, and later the image is read
through its tables.
-/

namespace SctOs

open Bytes

namespace Loader

/-- The arguments of `prepare_boot_page_tables`, with the headers of the loaded image. They are read
from it at each iteration, and not only once, but the tables are made in other pages, so that the
image stays as it is (`image_kept`). -/
def Boot.ofImage (x : Boot) (m : Memory) (ehdr phdrs : U64) : Boot :=
  { x with
    ePhnum := (ehdrAt m ehdr).ePhnum
    phdrs := phdrsAt m phdrs (ehdrAt m ehdr).ePhnum.toNat }

/-- The memory as it is read through the tables. -/
def seen (phys : Memory) (cr3 : U64) : Memory := fun v =>
  match walk phys cr3 v with
  | some t => phys t.paddr
  | none => 0

/-- The tables translate the `n` addresses from `v` on. -/
def Mapped (phys : Memory) (cr3 v : U64) (n : ℕ) : Prop :=
  ∀ i < n, (walk phys cr3 (v + BitVec.ofNat 64 i)).isSome

/-- The byte is of a field that `load_kernel` rewrites in the image at `ehdr`: `e_entry`, or the
`p_vaddr` and `p_paddr` of a header, which are next to each other. -/
def Rewritten (file : File) (ehdr x : U64) : Prop :=
  (x - (ehdr + 24)).toNat < 8 ∨ ∃ i < file.ehdr.ePhnum.toNat,
    (x - (ehdr + file.ehdr.ePhoff + BitVec.ofNat 64 (56 * i) + 16)).toNat < 16

/-- The program headers are in the first segment's part of the file, after the ELF header. -/
structure HeadersApart (file : File) : Prop extends HeadersLoaded file where
  after : sizeofEhdr ≤ file.ehdr.ePhoff.toNat

/-- A kernel file as the loader expects it: no segment has more of the file than it has memory, and
all of them are in the 1 GB above `KERNEL_BASE`. -/
structure KernelFile (file : File) : Prop extends HeadersApart file where
  filesz : ∀ ph ∈ loadsOf file.phdrs, ph.pFilesz.toNat ≤ ph.pMemsz.toNat
  high : ∀ ph ∈ loadsOf file.phdrs, kernelBase.toNat ≤ (shift ph).pVaddr.toNat
    ∧ (shift ph).pVaddr.toNat + ph.pMemsz.toNat ≤ 2 ^ 64

/-- The file's first segment starts at `KERNEL_BASE`, and the program headers end within its
1 GB. -/
structure HeadersAtBase (file : File) : Prop extends HeadersApart file where
  base : ∀ first ∈ file.phdrs.head?, first.pVaddr = 0
  high : file.ehdr.ePhoff.toNat + sizeofPhdr * file.ehdr.ePhnum.toNat ≤ 2 ^ 30

/-- The tables in some pages and the headers of the image at `e` have not been written to. -/
structure Kept (free : List Frame) (file : File) (e : U64) (m m' : Memory) : Prop where
  tables : ∀ f ∈ free, SameAt m' m (frameAddr f) 4096
  ehdr : SameAt m' m e sizeofEhdr
  phdrs : SameAt m' m (e + file.ehdr.ePhoff) (sizeofPhdr * file.ehdr.ePhnum.toNat)

end Loader

end SctOs
