import SctOs.Proofs.Handover

/-!
# What RELRO protects

`new_address_space` takes the write permission from whole pages: those that the RELRO segment touches
(`protected_iff`). An address of a writable segment keeps it unless its page is one of these
(`relro_frame`), so data beside the RELRO segment can lose it (`relro_neighbour`).
-/

namespace SctOs

open Radix

namespace Kernel

variable {g : Globals} {t t' : Machine U64} {fs : List Frame} {relro ph : Elf64Phdr} {v a : U64}

theorem pageSize_mul (i : ℕ) : pageSize * BitVec.ofNat 64 i = BitVec.ofNat 64 (4096 * i) := by
  rw [pageSize, BitVec.ofNat_mul]
  rfl

theorem protected_iff (hr : g.data.relro = some relro) (hs : relro.pMemsz.toNat ≤ 2 ^ 48) :
    ProtectedPage g.data v ↔ relro.Touches v := by
  have hb := relro.pVaddr.isLt
  have hn : (numPages relro.pVaddr relro.pMemsz).toNat
      = (relro.pVaddr.toNat % 4096 + relro.pMemsz.toNat + 4095) / 4096 := numPages_toNat (by omega)
  unfold ProtectedPage relroPages Elf64Phdr.Touches
  rw [hr, pageOffset_toNat]
  dsimp only
  rw [hn]
  constructor
  · rintro ⟨page, hp, hv⟩
    obtain ⟨i, hi, rfl⟩ := List.mem_map.1 hp
    rw [List.mem_range] at hi
    refine ⟨4096 * i, by omega, ?_⟩
    rwa [← pageSize_mul]
  · rintro ⟨j, hj, hv⟩
    have hi : j / 4096 < (relro.pVaddr.toNat % 4096 + relro.pMemsz.toNat + 4095) / 4096 := by omega
    refine ⟨_, List.mem_map_of_mem (List.mem_range.2 hi), hv.trans ?_⟩
    rw [← BitVec.toNat_inj, frameOf_toNat, frameOf_toNat, BitVec.toNat_add, BitVec.toNat_add,
      pageBase_toNat, pageSize_mul, BitVec.toNat_ofNat, BitVec.toNat_ofNat]
    omega

theorem touches_mem (hv : ph.Mem v) : ph.Touches v := by
  obtain ⟨i, hi, rfl⟩ := hv
  refine ⟨(pageOffset ph.pVaddr).toNat + i, by omega, ?_⟩
  have hb : ph.pVaddr = pageBase ph.pVaddr + BitVec.ofNat 64 (pageOffset ph.pVaddr).toNat := by
    apply BitVec.eq_of_toNat_eq
    have := ph.pVaddr.isLt
    rw [BitVec.toNat_add, pageBase_toNat, BitVec.toNat_ofNat, pageOffset_toNat]
    omega
  rw [BitVec.ofNat_add, ← BitVec.add_assoc, ← hb]
  rfl

theorem and_pteRw (x : U64) : (x ||| pteRw) &&& pteRw = pteRw := by
  apply BitVec.eq_of_getLsbD_eq
  intro i _
  rw [BitVec.getLsbD_and, BitVec.getLsbD_or]
  cases x.getLsbD i <;> simp

/-- An address of a writable segment is mapped, and read only in a protected page. -/
theorem NewSpace.writable {root : Frame} {st : Store Frame Index U64}
    (hk : NewSpace g root t t' st fs) (hph : ph ∈ g.data.loads) (hw : ph.pFlags &&& pfW ≠ 0)
    (hc : ∀ v, ph.Mem v → Canonical v) (hv : ph.Mem v) :
    ∃ p, translate g.data.paddrBase root t' v = some ⟨p, decide (¬ ProtectedPage g.data v)⟩ := by
  have hcv := hc v hv
  obtain ⟨i, hi, rfl⟩ := hv
  have h0 : ph.pMemsz ≠ 0 := fun h => by simp [h] at hi
  obtain ⟨k, hk', he⟩ :=
    (touches h0 fun i hi => pageBase_canonical.2 (hc _ ⟨i, hi, rfl⟩)).2 ⟨i, hi, rfl⟩
  have hreq : (⟨ph.range.ppage k, ph.range.vpage k, ph.range.flags⟩ : Request) ∈ spaceRequests g :=
    mem_spaceRequests.2 ⟨_, List.mem_append_right _ (List.mem_map_of_mem hph), k, hk', rfl⟩
  have hpath : path (ph.range.vpage k) = path (ph.pVaddr + BitVec.ofNat 64 i) := by
    rw [← path_pageBase (ph.pVaddr + BitVec.ofNat 64 i), he]
    rfl
  rw [hk.paged.translate_eq hcv, (hk.value _ rfl _).2 ⟨_, hreq, hpath, rfl⟩, Option.map_some]
  by_cases hp : ProtectedPage g.data (ph.pVaddr + BitVec.ofNat 64 i)
  · rw [if_pos (mem_relro_iff.2 hp), mappingOf_readOnly]
    exact ⟨_, by rw [decide_eq_false (not_not.2 hp)]⟩
  · have hrw : (ph.range.ppage k ||| pteP ||| ph.range.flags) &&& pteRw ≠ 0 := by
      rw [(range_flags ph).2 hw, and_pteRw]
      decide
    rw [if_neg (mt mem_relro_iff.1 hp), Request.entry, mappingOf]
    exact ⟨_, by rw [decide_eq_true hrw, decide_eq_true hp]⟩

/-- After `new_address_space`, an address of a writable segment may be written unless its page is
one that the RELRO segment touches; the RELRO segment itself may only be read. -/
theorem relro_frame (hl : FreeList g.data.paddrBase t.mem t.pool fs)
    (h : newAddressSpace g t = .ok (a, t')) (hr : g.data.relro = some relro)
    (hph : ph ∈ g.data.loads) (hw : ph.pFlags &&& pfW ≠ 0) (hin : ∀ v, relro.Mem v → ph.Mem v)
    (hc : ∀ ph ∈ g.data.loads, ph.pFlags &&& pfW ≠ 0 → ∀ v, ph.Mem v → Canonical v) :
    ∃ root, a = g.data.paddrBase + frameAddr root
      ∧ (∀ ph ∈ g.data.loads, ph.pFlags &&& pfW ≠ 0 → ∀ v, ph.Mem v →
        ∃ p w, translate g.data.paddrBase root t' v = some ⟨p, w⟩ ∧ (w = true ↔ ¬ relro.Touches v))
      ∧ ∀ v, relro.Mem v → ∃ p, translate g.data.paddrBase root t' v = some ⟨p, false⟩ := by
  obtain ⟨root, st, -, rfl, hk⟩ := newAddressSpace_spec hl h
  have hs : relro.pMemsz.toNat ≤ 2 ^ 48 :=
    canonical_span fun i hi => hc ph hph hw _ (hin _ ⟨i, hi, rfl⟩)
  refine ⟨root, rfl, fun ph hph hw v hv => ?_, fun v hv => ?_⟩
  · obtain ⟨p, hp⟩ := hk.writable hph hw (hc ph hph hw) hv
    refine ⟨p, _, hp, ?_⟩
    rw [decide_eq_true_iff, protected_iff hr hs]
  · obtain ⟨p, hp⟩ := hk.writable hph hw (hc ph hph hw) (hin v hv)
    have ht : ProtectedPage g.data v := (protected_iff hr hs).2 (touches_mem hv)
    exact ⟨p, by rw [hp, decide_eq_false (not_not.2 ht)]⟩

/-- A kernel of one writable segment of 16 bytes across two pages. -/
def dataSegment : Elf64Phdr := ⟨ptLoad, pfW, 0, 0xffffffffc0000ff8, 0x5ff8, 16, 16, 8⟩

/-- The first bytes of it are RELRO. -/
def relroKernel (size : U64) : Globals := { smallKernel with data := { smallKernel.data with
  phdrs := [dataSegment, ⟨ptGnuRelro, 0, 0, 0xffffffffc0000ff8, 0x5ff8, size, size, 8⟩] } }

theorem relroKernel_fresh : FreeList smallKernel.data.paddrBase
    (freed smallKernel.data.paddrBase (framesFrom 16 9)).mem
    (freed smallKernel.data.paddrBase (framesFrom 16 9)).pool (framesFrom 16 9).reverse := by
  have hf : Fresh smallKernel.data.paddrBase 0 (framesFrom 16 9).reverse
    (freed smallKernel.data.paddrBase (framesFrom 16 9)) := freed_fresh _ (by decide) (by decide)
  exact hf.list

theorem relroKernel_ok {n : U64} (hs : n = 4 ∨ n = 8) : ∃ a t', newAddressSpace (relroKernel n)
    (freed smallKernel.data.paddrBase (framesFrom 16 9)) = .ok (a, t') := by
  refine newAddressSpace_ok relroKernel_fresh ?_ ?_ fun x hx => ?_
  · rcases hs with rfl | rfl <;> decide +kernel
  · rcases hs with rfl | rfl <;> decide +kernel
  · have hpages : relroPages (relroKernel n).data = [0xffffffffc0000000] := by
      rcases hs with rfl | rfl <;> decide +kernel
    rw [hpages, List.mem_singleton] at hx
    rw [hx]
    rcases hs with rfl | rfl <;> decide +kernel

theorem dataSegment_canonical {v : U64} (h : dataSegment.Mem v) : Canonical v := by
  obtain ⟨i, hi, rfl⟩ := h
  have hi : i < 16 := hi
  right
  rw [BitVec.toNat_add, BitVec.toNat_ofNat]
  change 2 ^ 64 - 2 ^ 47 ≤ (0xffffffffc0000ff8 + i % 2 ^ 64) % 2 ^ 64
  omega

theorem relro_mem_data {n v : U64} (hs : n = 4 ∨ n = 8) {relro : Elf64Phdr}
    (hr : (relroKernel n).data.relro = some relro) (h : relro.Mem v) : dataSegment.Mem v := by
  have he : relro = ⟨ptGnuRelro, 0, 0, 0xffffffffc0000ff8, 0x5ff8, n, n, 8⟩ := by
    rcases hs with rfl | rfl <;> exact (Option.some.inj hr).symm
  obtain ⟨i, hi, rfl⟩ := h
  rw [he] at hi ⊢
  refine ⟨i, lt_of_lt_of_le hi ?_, rfl⟩
  rcases hs with rfl | rfl <;> decide

theorem mem_relroKernel {n : U64} {ph : Elf64Phdr} : ph ∈ (relroKernel n).data.loads ↔
    ph = dataSegment := by
  have h : (relroKernel n).data.loads = [dataSegment] := rfl
  rw [h, List.mem_singleton]

theorem relro_frame_small : ∃ root t' p, newAddressSpace (relroKernel 8)
      (freed smallKernel.data.paddrBase (framesFrom 16 9))
        = .ok ((relroKernel 8).data.paddrBase + frameAddr root, t')
    ∧ translate (relroKernel 8).data.paddrBase root t' 0xffffffffc0001003 = some ⟨p, true⟩ := by
  obtain ⟨a, t', h⟩ := relroKernel_ok (n := 8) (.inr rfl)
  have hl : dataSegment ∈ (relroKernel 8).data.loads := mem_relroKernel.2 rfl
  obtain ⟨root, rfl, hw, -⟩ := relro_frame (g := relroKernel 8) relroKernel_fresh h rfl hl (by decide)
    (fun v => relro_mem_data (n := 8) (.inr rfl) rfl)
    fun ph hph _ v hv => dataSegment_canonical (mem_relroKernel.1 hph ▸ hv)
  obtain ⟨p, w, ht, hiff⟩ := hw dataSegment hl (by decide) 0xffffffffc0001003
    ⟨11, by decide, by decide⟩
  refine ⟨root, t', p, h, ht.trans ?_⟩
  rw [hiff.2]
  rintro ⟨i, hi, he⟩
  have hi : i < 0xff8 + 8 := hi
  have he := congrArg BitVec.toNat he
  rw [frameOf_toNat, frameOf_toNat, BitVec.toNat_add, BitVec.toNat_ofNat] at he
  change 0xffffffffc0001003 / 4096 % 2 ^ 36
    = (0xffffffffc0000000 + i % 2 ^ 64) % 2 ^ 64 / 4096 % 2 ^ 36 at he
  omega

/-- The rest of the page that the RELRO segment ends in is read only. -/
theorem relro_neighbour : ∃ root t' p, newAddressSpace (relroKernel 4)
      (freed smallKernel.data.paddrBase (framesFrom 16 9))
        = .ok ((relroKernel 4).data.paddrBase + frameAddr root, t')
    ∧ dataSegment.Mem 0xffffffffc0000ffc
    ∧ (∀ relro, (relroKernel 4).data.relro = some relro → ¬ relro.Mem 0xffffffffc0000ffc
      ∧ ∀ v, relro.Mem v → dataSegment.Mem v)
    ∧ translate (relroKernel 4).data.paddrBase root t' 0xffffffffc0000ffc = some ⟨p, false⟩ := by
  have hm : dataSegment.Mem 0xffffffffc0000ffc := ⟨4, by decide, by decide⟩
  obtain ⟨a, t', h⟩ := relroKernel_ok (n := 4) (.inl rfl)
  obtain ⟨root, st, -, rfl, hk⟩ := newAddressSpace_spec (g := relroKernel 4) relroKernel_fresh h
  have hl : dataSegment ∈ (relroKernel 4).data.loads := mem_relroKernel.2 rfl
  obtain ⟨p, ht⟩ := hk.writable hl (by decide) (fun v => dataSegment_canonical) hm
  have hp : ProtectedPage (relroKernel 4).data 0xffffffffc0000ffc :=
    (protected_iff rfl (by decide)).2 ⟨0, by decide, by decide⟩
  rw [decide_eq_false (not_not.2 hp)] at ht
  refine ⟨root, t', p, h, hm, fun relro hr => ⟨?_, fun v hv => ?_⟩, ht⟩
  swap
  · exact relro_mem_data (n := 4) (.inl rfl) hr hv
  rintro ⟨i, hi, he⟩
  obtain rfl := Option.some.inj hr
  have hi : i < 4 := hi
  interval_cases i <;> exact absurd he (by decide)

end Kernel

end SctOs
