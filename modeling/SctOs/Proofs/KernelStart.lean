import SctOs.KernelImage
import SctOs.KernelStart
import SctOs.Proofs.AddressSpace
import SctOs.Proofs.LoadKernel

/-!
# The kernel's start

Whatever is written to the new stack, the free list is that of the other pages, so the new address
space can be made exactly when they hold its tables (`kernel_starts`). After the switch the kernel
finds in the window what it left there.
-/

namespace SctOs

namespace Kernel

open Bytes Radix

variable {g : Globals} {f root : Frame} {n : ℕ} {s s' : Machine U64} {fs : List Frame}
  {st : Store Frame Index U64}

theorem spaceMaps_window {page : U64} (h : WindowPage g page) :
    SpaceMaps g page (page - g.data.paddrBase) True := by
  rcases h with rfl | ⟨i, hi, rfl⟩
  · exact .bootloaderData
  · exact .freeMemory i hi

/-- A new address space leads the window to physical memory. -/
theorem window_translate (hg : SpaceOk g) (hn : NewSpace g root s s' st fs) {v : U64}
    (hv : WindowPage g (pageBase v)) :
    translate g.data.paddrBase root s' v = some ⟨v - g.data.paddrBase, true⟩ := by
  have hW := spaceMaps_window hv
  have hc : Canonical v := pageBase_canonical.1 (hg.canonical _ _ _ hW)
  obtain ⟨r, hr, i, hi, hb, hp, hiff⟩ := hg.range_of_spaceMaps hW
  have hpath : path (r.vpage i) = path v := by rw [← hb, path_pageBase]
  have hsplit := Loader.pageOffset_add_pageBase v
  rw [hn.paged.translate_eq hc, (hn.value (path v) rfl _).2
    ⟨_, mem_spaceRequests.2 ⟨r, hr, i, hi, rfl⟩, hpath, rfl⟩, Option.map_some]
  refine congrArg some ((hg.mapping_eq hr hi v).trans ?_)
  rw [Mapping.mk.injEq, decide_eq_true_iff, hg.path_relro hc, ← hiff, ← hp]
  refine ⟨?_, trivial⟩
  grind

theorem newAddressSpace_iff (hg : SpaceOk g) (hl : FreeList g.data.paddrBase s.mem s.pool fs) :
    (∃ a s', newAddressSpace g s = .ok (a, s')) ↔ spaceTables g < fs.length := by
  constructor
  · rintro ⟨a, s', h⟩
    cases fs with
    | nil =>
      rw [newAddressSpace_empty hl] at h
      cases h
    | cons root free =>
      obtain ⟨s₁, hf, -, hrun⟩ := newAddressSpace_run hl
      obtain ⟨hp₁, he⟩ := hf.paged
      rw [hrun, bind_run] at h
      rcases h₂ : mapList g.data (g.data.paddrBase + frameAddr root) (spaceRequests g) s₁ with
        e | ⟨⟨⟩, s₂⟩
      · rw [h₂] at h
        cases h
      · exact Nat.lt_succ_of_le ((mapAll_ok_iff _ hp₁.models hp₁.sound he).1 ⟨s₂, h₂⟩).2
  · intro hlt
    refine newAddressSpace_ok hl hg.nodup hlt fun x hx => ?_
    obtain ⟨ph, hph, i, hi, rfl⟩ := hg.relro_load (hg.mem_relroPages.1 hx)
    have hr : ph.range ∈ spaceRanges g := List.mem_append_right _ (List.mem_map_of_mem hph)
    exact ⟨_, mem_spaceRequests.2 ⟨_, hr, i, hi, rfl⟩, rfl⟩

/-- The tables of a layout do not fit: the list runs out of pages. -/
theorem newAddressSpace_full (hg : SpaceOk g) (hl : FreeList g.data.paddrBase s.mem s.pool fs)
    (hlen : fs.length ≤ spaceTables g) : newAddressSpace g s = .error .noFreePage := by
  cases fs with
  | nil => exact newAddressSpace_empty hl
  | cons root free =>
    obtain ⟨s₁, hf, -, hrun⟩ := newAddressSpace_run hl
    obtain ⟨hp₁, he⟩ := hf.paged
    rw [hrun, bind_run]
    rcases h₂ : mapList g.data (g.data.paddrBase + frameAddr root) (spaceRequests g) s₁ with
      e | ⟨⟨⟩, s₂⟩
    · obtain rfl : e = .noFreePage := mapAll_error hp₁.models hp₁.sound he hg.nodup h₂
      rfl
    · exact absurd ((mapAll_ok_iff _ hp₁.models hp₁.sound he).1 ⟨s₂, h₂⟩).2 (Nat.not_le.2 hlen)

theorem FreeMemory.stack_off (hf : FreeMemory g f n) :
    f + BitVec.ofNat 36 n ∉ (framesFrom f n).reverse := by
  have hnd := framesFrom_nodup hf.fits
  rw [framesFrom, List.range_succ, List.map_append] at hnd
  exact fun h =>
    (List.disjoint_of_nodup_append hnd) (List.mem_reverse.1 h) (List.mem_singleton_self _)

theorem FreeMemory.freeList (hf : FreeMemory g f n) (hs : s.pool = 0) :
    ∃ t, kernelMain g.data s = .ok (g.data.freeMemory + pageSize * BitVec.ofNat 64 n, t)
      ∧ ∀ m, OnlyPages g.data.paddrBase (· = f + BitVec.ofNat 36 n) t.mem m →
        FreeList g.data.paddrBase m t.pool (framesFrom f n).reverse := by
  obtain ⟨t, hrun, hl, -⟩ := kernelMain_spec hf.pages hf.start hf.fits hs hf.nonnull
  refine ⟨t, hrun, fun m hm => hl.congr fun h hh => hm.sameAt ?_⟩
  rintro rfl
  exact hf.stack_off hh

/-- The kernel starts on the last page of the free memory. Whatever its stack has by then, the new
address space is made exactly when its tables and root fit in the other pages, and nothing else
stops it. The stack, the tables and the free pages are apart, and after the switch the window shows
what it did before. -/
theorem kernel_starts (hg : SpaceOk g) (hf : FreeMemory g f n) (hs : s.pool = 0) :
    ∃ t, kernelMain g.data s = .ok (g.data.freeMemory + pageSize * BitVec.ofNat 64 n, t)
      ∧ ∀ m, OnlyPages g.data.paddrBase (· = f + BitVec.ofNat 36 n) t.mem m →
        ((∃ a s', newAddressSpace g ⟨m, t.pool⟩ = .ok (a, s')) ↔ spaceTables g < n)
        ∧ (n ≤ spaceTables g → newAddressSpace g ⟨m, t.pool⟩ = .error .noFreePage)
        ∧ ∀ a s', newAddressSpace g ⟨m, t.pool⟩ = .ok (a, s') →
          ∃ root left, a = g.data.paddrBase + frameAddr root ∧ root ∈ framesFrom f n
            ∧ FreeList g.data.paddrBase s'.mem s'.pool left ∧ left ⊆ framesFrom f n
            ∧ TablesApart g.data.paddrBase root left s'
            ∧ SameAt s'.mem m (g.data.freeMemory + pageSize * BitVec.ofNat 64 n) 4096
            ∧ ∀ v, WindowPage g (pageBase v) →
              Loader.seen (physical g.data.paddrBase s'.mem) (frameAddr root) v = s'.mem v := by
  obtain ⟨t, hrun, hlist⟩ := hf.freeList hs
  refine ⟨t, hrun, fun m hm => ?_⟩
  have hl := hlist m hm
  have hiff := newAddressSpace_iff hg (s := ⟨m, t.pool⟩) hl
  have hlen : (framesFrom f n).reverse.length = n := by simp [framesFrom]
  rw [hlen] at hiff
  refine ⟨hiff, fun hle => newAddressSpace_full hg hl (hlen.trans_le hle), fun a s' h => ?_⟩
  obtain ⟨root, st, hroot, rfl, hn⟩ := newAddressSpace_spec hl h
  refine ⟨root, st.free, rfl, List.mem_reverse.1 hroot, hn.paged.models.pool, fun x hx =>
    List.mem_reverse.1 (hn.free.subset hx), hn.paged.tablesApart, ?_, fun v hv => ?_⟩
  · rw [hf.start, BitVec.add_assoc, ← frameAddr_add (by have := hf.fits; omega)]
    exact hn.only.sameAt hf.stack_off
  · have htr := window_translate hg hn hv
    rw [translate] at htr
    rw [Loader.seen, htr]
    exact congrArg s'.mem (by grind)

/-- A small kernel with nine pages of free memory. -/
def startKernel : Globals :=
  { smallKernel with data := { smallKernel.data with nPages := 9 } }

theorem startKernel_maps {v p : U64} {W : Prop} (h : SpaceMaps startKernel v p W) :
    (∃ W, SpaceMaps smallKernel v p W) ∨ ∃ i < 9, v = 0xffffffff00002000 + 4096 * BitVec.ofNat 64 i
      ∧ p = 0xffffffff00002000 + 4096 * BitVec.ofNat 64 i - 0xffffffff00000000 := by
  cases h with
  | bootloaderData => exact .inl ⟨_, .bootloaderData⟩
  | freeMemory i hi => exact .inr ⟨i, hi, rfl, rfl⟩
  | apic => exact .inl ⟨_, .apic⟩
  | runtime m i hm ha hi => exact .inl ⟨_, .runtime m i hm ha hi⟩
  | segment ph i hm ht hi => exact .inl ⟨_, .segment ph i hm ht hi⟩

theorem startKernel_ok : SpaceOk startKernel where
  aligned := by decide +kernel
  disjoint := by decide +kernel
  canonical v p W h := by
    rcases startKernel_maps h with ⟨W, h⟩ | ⟨i, hi, rfl, -⟩
    · exact smallKernel_ok.canonical _ _ _ h
    · clear h
      revert i
      decide
  physical v p W h := by
    rcases startKernel_maps h with ⟨W, h⟩ | ⟨i, hi, -, rfl⟩
    · exact smallKernel_ok.physical _ _ _ h
    · refine ⟨frameOf (0xffffffff00002000 + 4096 * BitVec.ofNat 64 i - 0xffffffff00000000), ?_⟩
      clear h
      revert i
      decide
  nonempty := by decide +kernel
  covered := by decide +kernel

theorem startKernel_memory : FreeMemory startKernel 2 8 :=
  ⟨by decide, by decide, by decide, by decide⟩

theorem kernel_starts_nine : ∃ t a s',
    kernelMain startKernel.data ⟨fun _ => 0xff, 0⟩ = .ok (0xffffffff0000a000, t)
      ∧ newAddressSpace startKernel t = .ok (a, s') := by
  obtain ⟨t, hrun, h⟩ := kernel_starts startKernel_ok startKernel_memory
    (s := ⟨fun _ => 0xff, 0⟩) rfl
  obtain ⟨hiff, -⟩ := h t.mem fun _ _ => rfl
  obtain ⟨a, s', hspace⟩ := hiff.2 (by decide +kernel)
  exact ⟨t, a, s', hrun, hspace⟩

end Kernel

end SctOs
