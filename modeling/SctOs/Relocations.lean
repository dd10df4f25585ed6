import SctOs.Elf

/-!
# The loader's own relocations

`do_relocations` of `efi/opsys-loader.c`, on the memory as the loader sees it after its page tables
are in use. The scan of the dynamic table is open ended, so it is given a number of entries after
which it is still running.
-/

namespace SctOs

open Bytes

/-! ## Dynamic tags -/

/-- End of array. -/
def dtNull : U64 := 0

/-- Address of the relocation table. -/
def dtRela : U64 := 7

/-- Size of the relocation table. -/
def dtRelasz : U64 := 8

/-- Size of a relocation entry. -/
def dtRelaent : U64 := 9

/-- Address of a table without addends. -/
def dtRel : U64 := 17

structure Elf64Dyn where
  dTag : U64
  dUn : U64
  deriving DecidableEq, Repr

structure Elf64Rela where
  rOffset : U64
  rInfo : U64
  rAddend : U64
  deriving DecidableEq, Repr

/-- `sizeof(Elf64_Rela)`. -/
def sizeofRela : U64 := 24

def Elf64Rela.type (rela : Elf64Rela) : U64 := rela.rInfo &&& 0xffffffff

def rX8664Relative : U64 := 8

/-- Where a relocation writes. -/
def Elf64Rela.target (rela : Elf64Rela) : U64 := kernelBase + rela.rOffset

/-- What it writes there. -/
def Elf64Rela.value (rela : Elf64Rela) : U64 := kernelBase + rela.rAddend

def dynAt (m : Memory) (a : U64) : Elf64Dyn := ⟨load m a, load m (a + 8)⟩

def relaAt (m : Memory) (a : U64) : Elf64Rela := ⟨load m a, load m (a + 8), load m (a + 16)⟩

namespace Relocations

/-- Where `do_relocations` halts. -/
inductive Halt
  /-- `DT_REL` is not supported. -/
  | rel
  /-- `DT_RELAENT` is not the size of an entry. -/
  | relaent
  /-- The type of an entry is not supported. -/
  | type
  /-- Not halted: the scan has still to find the end of the table. -/
  | scanning
  deriving DecidableEq, Repr

/-- The table and the number of its entries, as far as they are known. -/
structure Found where
  relas : U64
  numRelas : U64

/-- What the scan makes of an entry. -/
def scanEntry (found : Found) (dyn : Elf64Dyn) : Except Halt Found :=
  if dyn.dTag = dtRel then .error .rel
  else if dyn.dTag = dtRela then .ok { found with relas := kernelBase + dyn.dUn }
  else if dyn.dTag = dtRelasz then .ok { found with numRelas := dyn.dUn / sizeofRela }
  else if dyn.dTag = dtRelaent then
    if dyn.dUn ≠ sizeofRela then .error .relaent else .ok found
  else .ok found

/-- The scan of at most some number of entries. -/
def scan (m : Memory) : ℕ → U64 → Found → Except Halt Found
  | 0, _, _ => .error .scanning
  | n + 1, dyn, found =>
    if load m dyn = dtNull then .ok found
    else do scan m n (dyn + 16) (← scanEntry found (dynAt m dyn))

/-- One relocation. -/
def relocate (m : Memory) (rela : U64) : Except Halt Memory :=
  let offset := kernelBase + (relaAt m rela).rOffset
  if (relaAt m rela).type = rX8664Relative then
    .ok (store m offset (kernelBase + (relaAt m rela).rAddend))
  else .error .type

/-- `do_relocations`, scanning at most `fuel` entries of the dynamic table. -/
def doRelocations (fuel : ℕ) (m : Memory) (dynamic : U64) : Except Halt Memory := do
  let found ← scan m fuel dynamic ⟨0, 0⟩
  if found.relas = 0 then return m
  (List.range found.numRelas.toNat).foldlM
    (fun m i => relocate m (found.relas + sizeofRela * BitVec.ofNat 64 i)) m

/-! ## The tables as lists -/

/-- The entries before the `DT_NULL` that ends the table at an address. -/
def DynTable (m : Memory) : U64 → List Elf64Dyn → Prop
  | a, [] => load m a = dtNull
  | a, dyn :: dyns => dynAt m a = dyn ∧ dyn.dTag ≠ dtNull ∧ DynTable m (a + 16) dyns

/-- The relocations from an address on. -/
def RelaTable (m : Memory) : U64 → List Elf64Rela → Prop
  | _, [] => True
  | a, rela :: relas => relaAt m a = rela ∧ RelaTable m (a + sizeofRela) relas

/-- The entries with a tag. -/
def tagged (tag : U64) (dyns : List Elf64Dyn) : List Elf64Dyn := dyns.filter (·.dTag = tag)

/-- The tables of an image that can be relocated: the dynamic table names one relocation table,
within the kernel's addresses, and the relocations write apart from each other and from both
tables. -/
structure Tables (m : Memory) (dynamic : U64) (dyns : List Elf64Dyn) (ptr size : U64)
    (relas : List Elf64Rela) : Prop where
  dynTable : DynTable m dynamic dyns
  rela : tagged dtRela dyns = [⟨dtRela, ptr⟩]
  relasz : tagged dtRelasz dyns = [⟨dtRelasz, size⟩]
  high : kernelBase.toNat ≤ (kernelBase + ptr).toNat
  within : (kernelBase + ptr).toNat + size.toNat ≤ 2 ^ 64
  length : relas.length = (size / sizeofRela).toNat
  relaTable : RelaTable m (kernelBase + ptr) relas
  targets : relas.Pairwise fun r r' => Apart r.target 8 r'.target 8
  apart : ∀ r ∈ relas, Apart r.target 8 (kernelBase + ptr) (24 * relas.length)
  apartDyn : ∀ r ∈ relas, Apart r.target 8 dynamic (16 * (dyns.length + 1))

/-- The code supports the relocations. -/
structure Supported (dyns : List Elf64Dyn) (relas : List Elf64Rela) : Prop where
  rel : tagged dtRel dyns = []
  relaent : ∀ dyn ∈ tagged dtRelaent dyns, dyn.dUn = sizeofRela
  type : ∀ r ∈ relas, r.type = rX8664Relative

end Relocations

end SctOs
