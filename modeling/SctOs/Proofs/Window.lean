import SctOs.Loader
import SctOs.Proofs.Pages

/-!
# The size of the window

`prepare_boot_page_tables` takes the size of physical memory from the last descriptor but one, and
from a map of fewer than three descriptors takes none (`window_paddrSize`). So the window holds the
memory exactly when no other segment ends higher (`window_ok_iff`).
-/

namespace SctOs

namespace Loader

variable {ms : List EfiMemoryDescriptor} {data : BootloaderData}

theorem windowStep_paddrSize (n : U64) (w : Window) (i : ℕ) :
    (windowStep ms n w i).paddrSize = if BitVec.ofNat 64 i = n - 1 - 2 then
      ms[i + 1]!.physicalStart + ms[i + 1]!.numberOfPages * pageSize else w.paddrSize := by
  simp only [windowStep]
  split_ifs <;> first | rfl | contradiction

/-- The loop takes the size at the last descriptor but two, which a short map does not have. -/
theorem window_paddrSize {n : U64} : ∀ {k : ℕ}, k ≤ n.toNat →
    ((List.range k).foldl (windowStep ms n) ⟨0, 0, 0⟩).paddrSize
      = if 3 ≤ n.toNat ∧ n.toNat - 3 < k then ms[n.toNat - 2]!.physicalStart
          + ms[n.toNat - 2]!.numberOfPages * pageSize else 0
  | 0, _ => by simp
  | k + 1, hk => by
    have hn := n.isLt
    have hi : BitVec.ofNat 64 k = n - 1 - 2 ↔ 3 ≤ n.toNat ∧ n.toNat - 3 = k := by
      rw [← BitVec.toNat_inj, BitVec.toNat_sub, BitVec.toNat_sub, BitVec.toNat_ofNat]
      simp only [BitVec.reduceToNat]
      omega
    rw [List.range_succ, List.foldl_append, List.foldl_cons, List.foldl_nil, windowStep_paddrSize,
      window_paddrSize (by omega)]
    by_cases h : 3 ≤ n.toNat ∧ n.toNat - 3 = k
    · rw [if_pos (hi.2 h), if_pos ⟨h.1, by omega⟩, show n.toNat - 2 = k + 1 by omega]
    · rw [if_neg (mt hi.1 h)]
      by_cases h' : 3 ≤ n.toNat ∧ n.toNat - 3 < k
      · rw [if_pos h', if_pos ⟨h'.1, by omega⟩]
      · rw [if_neg h', if_neg (by omega)]

variable (data) in
theorem setWindow_aligned {n : U64} (hn : n.toNat = ms.length)
    (ha : ∀ m ∈ ms, pageOffset m.physicalStart = 0) :
    (setWindow ms n data).paddrSize.toNat % 4096 = 0 := by
  change (window _ _).paddrSize.toNat % 4096 = 0
  rw [window, window_paddrSize le_rfl, hn]
  split_ifs with h
  · have hm : ms[ms.length - 2]! ∈ ms := by
      rw [getElem!_pos ms (ms.length - 2) (by omega)]
      exact List.getElem_mem _
    have h0 := congrArg BitVec.toNat (ha _ hm)
    rw [pageOffset_toNat] at h0
    rw [BitVec.toNat_add, BitVec.toNat_mul, pageSize_toNat]
    simp only [BitVec.reduceToNat] at h0
    omega
  · rfl

variable (data) in
theorem setWindow_paddrSize (hn : ms.length < 2 ^ 64) (hl : ∀ m ∈ ms, m.limit < 2 ^ 64) :
    (setWindow ms (BitVec.ofNat 64 ms.length) data).paddrSize.toNat = windowLimit ms := by
  have hnat : (BitVec.ofNat 64 ms.length).toNat = ms.length := by
    rw [BitVec.toNat_ofNat, Nat.mod_eq_of_lt hn]
  change (window _ _).paddrSize.toNat = _
  rw [window, window_paddrSize le_rfl, hnat, windowLimit]
  by_cases h : 3 ≤ ms.length
  · rw [if_pos ⟨h, by omega⟩, if_pos h]
    have hm : ms[ms.length - 2]! ∈ ms := by
      rw [getElem!_pos ms (ms.length - 2) (by omega)]
      exact List.getElem_mem _
    have hlim := hl _ hm
    rw [EfiMemoryDescriptor.limit] at hlim ⊢
    rw [BitVec.toNat_add, BitVec.toNat_mul, pageSize_toNat]
    omega
  · rw [if_neg (by omega), if_neg h]
    rfl

/-- The window holds the memory exactly when the last descriptor but one ends at or above the end of
every segment that is not MMIO, and, where there is such memory, at or below the kernel. -/
theorem window_ok_iff (hn : ms.length < 2 ^ 64) (hl : ∀ m ∈ ms, m.limit < 2 ^ 64) :
    WindowOk ms (setWindow ms (BitVec.ofNat 64 ms.length) data) ↔
      (∀ m ∈ ms, ¬ m.type.IsMmio → m.limit ≤ windowLimit ms)
        ∧ ∀ m ∈ ms, ¬ m.type.IsMmio → m.numberOfPages ≠ 0 → windowLimit ms ≤ kernelBase.toNat := by
  have hp := setWindow_paddrSize data hn hl
  have hb : (setWindow ms (BitVec.ofNat 64 ms.length) data).paddrBase.toNat
      = (2 ^ 64 - windowLimit ms + kernelBase.toNat) % 2 ^ 64 := by
    rw [← hp, ← BitVec.toNat_sub]
    rfl
  have hk := kernelBase_toNat
  constructor
  · intro h
    refine ⟨fun m hm ht => hp ▸ h.covers m hm ht, fun m hm ht hpages => ?_⟩
    have hlim := hl m hm
    have hcov := h.covers m hm ht
    have hpos : m.numberOfPages.toNat ≠ 0 := fun he => hpages (BitVec.eq_of_toNat_eq he)
    rw [hp] at hcov
    have hbel := h.below m hm ht m.physicalStart le_rfl (by rw [EfiMemoryDescriptor.limit]; omega)
    rw [EfiMemoryDescriptor.limit] at hlim hcov
    rw [BitVec.toNat_add, hb] at hbel
    omega
  · rintro ⟨hcov, hle⟩
    refine ⟨fun m hm ht => hp ▸ hcov m hm ht, fun m hm ht a hs ha => ?_⟩
    have hc := hcov m hm ht
    have hpages : m.numberOfPages ≠ 0 := by
      intro he
      rw [EfiMemoryDescriptor.limit, he] at ha
      simp at ha
      omega
    have hle := hle m hm ht hpages
    rw [BitVec.toNat_add, hb]
    omega

/-- A map in order that ends with an MMIO segment. -/
def orderedMap : List EfiMemoryDescriptor :=
  [⟨.bootServicesCode, 0, 0, 1, 0⟩, ⟨.conventionalMemory, 0x1000, 0, 4, 0⟩,
    ⟨.runtimeServicesData, 0x5000, 0, 2, efiMemoryRuntime⟩,
    ⟨.memoryMappedIo, 0xfec00000, 0, 1, efiMemoryRuntime⟩]

theorem window_ok_ordered : WindowOk orderedMap (setWindow orderedMap 4 default) :=
  (window_ok_iff (by decide) (by decide)).2 ⟨by decide, by decide⟩

/-- A map that goes on with memory above the MMIO segment. -/
def splitMap : List EfiMemoryDescriptor := orderedMap ++ [⟨.conventionalMemory, 0x100000000, 0, 8, 0⟩]

theorem window_not_ok_split : MapOk splitMap ∧ ¬ WindowOk splitMap (setWindow splitMap 5 default) := by
  refine ⟨⟨by decide, by decide, by decide +kernel⟩, fun h => ?_⟩
  exact absurd (h.covers ⟨.conventionalMemory, 0x100000000, 0, 8, 0⟩ (by decide) (by decide))
    (by decide)

end Loader

end SctOs
