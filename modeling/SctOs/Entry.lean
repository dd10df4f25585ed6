import SctOs.EfiMain2
import SctOs.MemString

/-!
# The kernel's first writes

`kernel_main` of `src/entry.c` up to `init_cpu`, with the tables that the loader left: it clears its
bss with `memset` and notes where `bootloader_data` is. The linker's symbols are given.
-/

namespace SctOs

namespace Loader

open Bytes

section Through

variable (cr3 : U64)

/-- `rep stos` with elements of `k` bytes. -/
def repStosThrough (k : ℕ) (data : BitVec 32) : ℕ → Memory → U64 → Except Fault Memory
  | 0, phys, _ => .ok phys
  | cnt + 1, phys, addr => do
    let phys ← ((translation cr3).write phys addr k (byteOf data.toNat)).mapError .page
    repStosThrough k data cnt phys (addr + BitVec.ofNat 64 k)

def memsetThrough (phys : Memory) (dst : U64) (c : BitVec 32) (n : U64) : Except Fault Memory :=
  if dst % 4 = 0 ∧ n % 4 = 0 then
    let c := c &&& 0xFF
    repStosThrough cr3 4 ((c <<< 24) ||| (c <<< 16) ||| (c <<< 8) ||| c) (n / 4).toNat phys dst
  else repStosThrough cr3 1 c n.toNat phys dst

end Through

/-- The linker's `__bss_start` and `_end`, and the variable `bootloader_data`. -/
structure KernelSymbols where
  bssStart : U64
  bssEnd : U64
  bootloaderData : U64

def KernelSymbols.bssSize (sym : KernelSymbols) : U64 := sym.bssEnd - sym.bssStart

/-- The part of `kernel_main` before `init_cpu`. -/
def kernelMain (sym : KernelSymbols) (cr3 : U64) (phys : Memory)
    (bootloaderDataIn : U64) : Except Fault Memory := do
  let phys ← memsetThrough cr3 phys sym.bssStart 0 sym.bssSize
  storeThrough cr3 phys sym.bootloaderData bootloaderDataIn

/-- The image with which the kernel's own code runs. -/
def started (file : File) (relas : List Elf64Rela) (sym : KernelSymbols) (bootloaderData : U64) :
    Memory :=
  store (fill (file.relocated relas) sym.bssStart sym.bssSize.toNat 0) sym.bootloaderData
    bootloaderData

/-- The bss can be written and has all that the segments do not take from the file. -/
structure BssOk (file : File) (sym : KernelSymbols) : Prop where
  writable : ∀ i < sym.bssSize.toNat, Writable file (sym.bssStart + BitVec.ofNat 64 i)
  rest : ∀ v, InSegments file v → file.segmentAt v = none →
    (v - sym.bssStart).toNat < sym.bssSize.toNat
  bootloaderData : ∀ i < 8, Writable file (sym.bootloaderData + BitVec.ofNat 64 i)

end Loader

end SctOs
