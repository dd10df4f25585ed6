import SctOs.AddressSpace

/-!
# The kernel's start

`kernel_main` puts the free memory that the loader left on the free list and takes a page of it for
the new stack. `main2`, on that stack, makes a new address space and switches to it.
-/

namespace SctOs

namespace Kernel

/-- The pages of the free memory: `n + 1` frames from `f` on, in the window and not at NULL. -/
structure FreeMemory (g : Globals) (f : Frame) (n : ℕ) : Prop where
  pages : g.data.nPages.toNat = n + 1
  start : g.data.freeMemory = g.data.paddrBase + frameAddr f
  fits : f.toNat + (n + 1) ≤ 2 ^ 36
  nonnull : 0 ∉ (framesFrom f (n + 1)).map (g.data.paddrBase + frameAddr ·)

/-- What the kernel keeps in the window: `bootloader_data`, and the pages of the free memory, with
its stack, its tables and the free list. -/
def WindowPage (g : Globals) (page : U64) : Prop :=
  page = g.bootloaderData
    ∨ ∃ i < g.data.nPages.toNat, page = g.data.freeMemory + pageSize * BitVec.ofNat 64 i

/-- The tables of a new address space. -/
def spaceTables (g : Globals) : ℕ := tablesNeeded ((spaceRequests g).map Request.vpage)

end Kernel

end SctOs
