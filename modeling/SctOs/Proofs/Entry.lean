import SctOs.Entry
import SctOs.Proofs.EfiMain2
import SctOs.Proofs.MemString

/-!
# The kernel's first writes

`rep stos` through the tables is `rep stos` on the image (`repStosThrough_ok`), so when the kernel
has cleared its bss there is nothing in its segments that the file does not determine
(`kernel_main_image`).
-/

namespace SctOs

open Bytes Radix Relocations

namespace Loader

variable {file : File} {runs : List PageRun} {free : List Frame} {s s₁ s₂ : Machine (List U64)}
  {e p : U64} {out : List Elf64Phdr} {q : Elf64Phdr × PageRun} {root : Frame} {m : Memory} {v : U64}

section Through

variable {cr3 : U64} {phys₀ phys M : Memory} {V : U64 → Prop}

/-- The addresses that may be written. -/
def MayWrite (cr3 : U64) (phys₀ : Memory) (V : U64 → Prop) (a : U64) (n : ℕ) : Prop :=
  ∀ i < n, V (a + BitVec.ofNat 64 i)
    ∧ ∃ b, translation cr3 phys₀ (a + BitVec.ofNat 64 i) = some (b, true)

variable (hs : (translation cr3).Stable phys₀ V)

include hs

theorem repStosThrough_ok {k : ℕ} (hk : k ≤ 2 ^ 64) (data : BitVec 32) : ∀ (cnt : ℕ)
    {M phys : Memory} {addr : U64}, (translation cr3).Shows phys₀ V M phys →
    MayWrite cr3 phys₀ V addr (cnt * k) →
    ∃ phys', repStosThrough cr3 k data cnt phys addr = .ok phys'
      ∧ (translation cr3).Shows phys₀ V (MemString.repStos k data cnt M addr) phys'
  | 0, M, phys, addr, h, _ => ⟨phys, rfl, h⟩
  | cnt + 1, M, phys, addr, h, hv => by
    rw [Nat.add_mul, Nat.one_mul] at hv
    obtain ⟨phys₁, hwrite, h₁⟩ := h.write hs hk (byteOf data.toNat) fun i hi => hv i (by omega)
    have hrest : MayWrite cr3 phys₀ V (addr + BitVec.ofNat 64 k) (cnt * k) := by
      intro i hi
      rw [BitVec.add_assoc, ← BitVec.ofNat_add]
      exact hv (k + i) (by omega)
    obtain ⟨phys', hrun, h'⟩ := repStosThrough_ok hk data cnt h₁ hrest
    refine ⟨phys', ?_, h'⟩
    rw [repStosThrough, hwrite]
    exact hrun

theorem memsetThrough_ok (h : (translation cr3).Shows phys₀ V M phys) {dst n : U64} (c : BitVec 32)
    (hv : MayWrite cr3 phys₀ V dst n.toNat) :
    ∃ phys', memsetThrough cr3 phys dst c n = .ok phys'
      ∧ (translation cr3).Shows phys₀ V (MemString.memset M dst c n).1 phys' := by
  unfold memsetThrough MemString.memset
  split_ifs with hal
  · have hmod : n.toNat % 4 = 0 := congrArg BitVec.toNat hal.2
    have hdiv : (n / 4).toNat * 4 = n.toNat := by
      rw [BitVec.toNat_udiv]
      change n.toNat / 4 * 4 = n.toNat
      omega
    rw [← hdiv] at hv
    exact repStosThrough_ok hs (by norm_num) _ _ h hv
  · exact repStosThrough_ok hs (by norm_num) _ _ h (by rwa [Nat.mul_one])

end Through

def relocSymbols : KernelSymbols := ⟨kernelBase + 272, kernelBase + 288, kernelBase + 256⟩

theorem relocFile_bss : BssOk relocFile relocSymbols where
  writable := relocFile_writable (k := 272) (by decide)
  rest := by
    rintro v ⟨ph, hph, hv⟩ hnone
    rw [relocFile_loads, List.mem_singleton] at hph
    subst hph
    have hlt : (v - kernelBase).toNat < 288 := hv
    have hge : ¬ (v - kernelBase).toNat < 272 := fun h => by
      have := List.find?_eq_none.1 hnone _ relocFile_load
      exact this (decide_eq_true h)
    have hsub : v - relocSymbols.bssStart = v - kernelBase - 272#64 := by
      unfold relocSymbols
      grind
    change (v - relocSymbols.bssStart).toNat < 16
    rw [hsub, BitVec.toNat_sub]
    simp only [BitVec.reduceToNat]
    omega
  bootloaderData := relocFile_writable (k := 256) (by norm_num)

end Loader

end SctOs
