import SctOs.Kernel
import SctOs.Tables

/-!
# The free list and the calls on an address space

The free pages are linked through their own first words. A call maps a page or makes one read only.
-/

namespace SctOs

open Bytes

namespace Kernel

/-- The list from `head` is that of the pages. -/
def FreePages (m : Memory) : U64 → List U64 → Prop
  | head, [] => head = 0
  | head, page :: pages => head = page ∧ page ≠ 0 ∧ FreePages m (load m page) pages

/-- The page whose address, or with some flags its physical address, is `result`. -/
def pageOf (data : BootloaderData) (flags : BitVec 32) (result : U64) : U64 :=
  if flags &&& (appFlat ||| appPte) ≠ 0 then data.paddrBase + result else result

/-- A run of `free_physical_page` and `allocate_physical_page` from an empty list, with writes
outside the free pages, has left some pages free and some allocated. A page is freed when it is a
page, not NULL and not free. -/
inductive Reached (data : BootloaderData) : Machine U64 → Finset U64 → Finset U64 → Prop
  | start (m : Memory) : Reached data ⟨m, 0⟩ ∅ ∅
  | free {s s' : Machine U64} {free used : Finset U64} {page : U64} : Reached data s free used →
      page ≠ 0 → pageOffset page = 0 → page ∉ free → freePhysicalPage page s = .ok ((), s') →
      Reached data s' (insert page free) (used.erase page)
  | allocate {s s' : Machine U64} {free used : Finset U64} {flags : BitVec 32} {result : U64} :
      Reached data s free used → allocatePhysicalPage data flags s = .ok (result, s') →
      Reached data s' (free.erase (pageOf data flags result))
        (insert (pageOf data flags result) used)
  | write {s : Machine U64} {free used : Finset U64} {a : U64} (b : BitVec 8) :
      Reached data s free used → pageBase a ∉ free →
      Reached data { s with mem := Function.update s.mem a b } free used

/-- The list from `head` is that of the frames, reached through the window at `base`. -/
def FreeList (base : U64) (m : Memory) : U64 → List Frame → Prop
  | head, [] => head = 0
  | head, f :: fs =>
    head = base + frameAddr f ∧ head ≠ 0 ∧ FreeList base m (load m head) fs

/-- A memory of zeros in which some pages have been freed. -/
def freed (base : U64) (fs : List Frame) : Machine U64 :=
  fs.foldl (fun s f => ⟨store s.mem (base + frameAddr f) s.pool, base + frameAddr f⟩)
    ⟨fun _ => 0, 0⟩

/-- A call on an address space. -/
inductive Call
  | mapPage (ppage vpage flags : U64)
  | setVpageRo (vpage : U64)
  deriving DecidableEq

namespace Call

def vpage : Call → U64
  | mapPage _ v _ => v
  | setVpageRo v => v

/-- Virtual pages are canonical, physical ones below `2 ^ 48`, and the flags are `PTE_RW` or none. -/
def Ok : Call → Prop
  | mapPage p v fl =>
    (∃ f, p = frameAddr f) ∧ (fl = 0 ∨ fl = pteRw) ∧ Canonical v ∧ pageOffset v = 0
  | setVpageRo v => Canonical v ∧ pageOffset v = 0

def run (data : BootloaderData) (addressSpace : U64) : Call → Run U64 Unit
  | mapPage p v fl => Kernel.mapPage data addressSpace p v fl
  | setVpageRo v => Kernel.setVpageRo data addressSpace v

end Call

def runCalls (data : BootloaderData) (addressSpace : U64) (calls : List Call) : Run U64 Unit :=
  calls.forM (Call.run data addressSpace)

/-- The processor's walk of the tables of an address space, seen through the window. -/
def translate (base : U64) (root : Frame) (s : Machine U64) : U64 → Option Mapping :=
  walk (physical base s.mem) (frameAddr root)

/-- A zeroed root table off the free list. -/
structure Fresh (base : U64) (root : Frame) (free : List Frame) (s : Machine U64) :
    Prop where
  list : FreeList base s.mem s.pool free
  off : root ∉ free
  zero : SameAt s.mem (fun _ => 0) (base + frameAddr root) 4096

/-- What a call makes of an address's translation. -/
def Call.effect (v : U64) (old : Option Mapping) : Call → Option Mapping
  | mapPage p v' fl => if pageBase v = v' then some ⟨p + pageOffset v, fl = pteRw⟩ else old
  | setVpageRo v' => if pageBase v = v' then old.map fun t => { t with writable := false } else old

/-- The pages translated are those the calls map, each to its page, and can be written when mapped
so and not made read only since. -/
def MapsExactly (calls : List Call) (t : U64 → Option Mapping) : Prop :=
  ∀ v p w, t v = some ⟨p, w⟩ ↔
    ∃ before after q fl, calls = before ++ .mapPage q (pageBase v) fl :: after
      ∧ p = q + pageOffset v ∧ (w = true ↔ fl = pteRw ∧ .setVpageRo (pageBase v) ∉ after)

/-- The table pages in use are distinct, and none is on the free list. -/
def TablesApart (base : U64) (root : Frame) (free : List Frame) (s : Machine U64) : Prop :=
  ∀ p q a, p.length ≤ 3 → q.length ≤ 3 →
    tablePage (physical base s.mem) (frameAddr root) p = some a →
    (tablePage (physical base s.mem) (frameAddr root) q = some a → p = q)
      ∧ ∀ f ∈ free, a ≠ frameAddr f

end Kernel

end SctOs
