import SctOs.Tables
import SctOs.Elf
import SctOs.Spans

/-!
# Ranges of pages

Both programs map ranges of pages, and a segment is mapped as the range of the pages it touches.
-/

namespace SctOs

/-- Pages at `vaddr` mapped to pages at `paddr`. -/
structure PageRange where
  paddr : U64
  vaddr : U64
  pages : ℕ
  flags : U64

namespace PageRange

def ppage (r : PageRange) (i : ℕ) : U64 := r.paddr + pageSize * BitVec.ofNat 64 i

def vpage (r : PageRange) (i : ℕ) : U64 := r.vaddr + pageSize * BitVec.ofNat 64 i

/-- The requests that mapping the range makes. -/
def requests (r : PageRange) : List Request :=
  (List.range r.pages).map fun i => ⟨r.ppage i, r.vpage i, r.flags⟩

/-- The virtual addresses of the range. -/
def span (r : PageRange) : Span := ⟨r.vaddr.toNat, 4096 * r.pages⟩

/-- No page is in both ranges. -/
def Disjoint (r r' : PageRange) : Prop :=
  ∀ i < r.pages, ∀ j < r'.pages, r.vpage i ≠ r'.vpage j

instance (r r' : PageRange) : Decidable (r.Disjoint r') :=
  inferInstanceAs (Decidable (∀ i < r.pages, ∀ j < r'.pages, _))

end PageRange

/-- The segment's pages, each to its page at `p_paddr`. -/
def Elf64Phdr.range (phdr : Elf64Phdr) : PageRange :=
  ⟨pageBase phdr.pPaddr, pageBase phdr.pVaddr, (numPages phdr.pVaddr phdr.pMemsz).toNat,
    if phdr.pFlags &&& pfW ≠ 0 then pteRw else 0⟩

/-- The kernel's segments: not empty, touching different pages, all of them in the high half. -/
structure SegmentsOk (phdrs : List Elf64Phdr) : Prop where
  nonempty : ∀ ph ∈ phdrs, ph.pMemsz ≠ 0
  high : ∀ ph ∈ phdrs, kernelBase.toNat ≤ ph.pVaddr.toNat
    ∧ ph.pVaddr.toNat + ph.pMemsz.toNat ≤ 2 ^ 64
  disjoint : phdrs.Pairwise fun ph ph' => ∀ i < ph.pMemsz.toNat, ∀ j < ph'.pMemsz.toNat,
    pageBase (ph.pVaddr + BitVec.ofNat 64 i) ≠ pageBase (ph'.pVaddr + BitVec.ofNat 64 j)

end SctOs
