import SctOs.VirtualLayout
import SctOs.Proofs.AddressSpace
import SctOs.Proofs.Mmap
import SctOs.Proofs.Spans

/-!
# The layout of virtual memory

The running sum of `init_mmap` lays the MMIO segments end to end (`tiles_scanned`), and the other
runtime segments are those of the firmware's map seen through the window (`runtime_physical`,
`mem_window`). So the parts of the new address space are disjoint, and it maps no page twice
(`virtual_layout`).
-/

namespace SctOs

open InPlace EfiMemoryDescriptor Span Kernel

variable {data data' : BootloaderData} {b f : U64} {ms : List EfiMemoryDescriptor}

/-! ## The MMIO segments -/

theorem mmioBytes_cons (m : EfiMemoryDescriptor) (ms : List EfiMemoryDescriptor) :
    mmioBytes (m :: ms)
      = (if m.Mmio then 4096 * m.numberOfPages.toNat else 0) + mmioBytes ms := by
  rw [mmioBytes, List.filter_cons]
  split_ifs
  · rfl
  · exact (Nat.zero_add _).symm

theorem mmio_iff {m : EfiMemoryDescriptor} : m.Mmio ↔ m.type.IsMmio := by
  rw [Mmio, decide_eq_true_iff]

theorem virtual_mmio (base next : U64) (m : EfiMemoryDescriptor) : m.virtual base next =
    if m.type.IsMmio then
      ({ m with virtualStart := next }, next + m.numberOfPages * pageSize)
    else if m.attributes &&& efiMemoryRuntime ≠ 0 then
      ({ m with virtualStart := m.physicalStart + base }, next)
    else (m, next) := rfl

/-- The running sum lays the MMIO segments end to end, in the order of the map. -/
theorem tiles_scanned (base : U64) : ∀ (ms : List EfiMemoryDescriptor) (next : U64),
    next.toNat + mmioBytes ms < 2 ^ 64 →
    Tiles next.toNat (next.toNat + mmioBytes ms)
      (((scanned (virtual base) next ms).filter Mmio).map EfiMemoryDescriptor.span)
  | [], _, _ => rfl
  | m :: ms, next, h => by
    rw [mmioBytes_cons] at h ⊢
    rw [scanned, virtual_mmio]
    by_cases hm : m.type.IsMmio
    · have hmm : m.Mmio := mmio_iff.2 hm
      rw [if_pos hmm] at h ⊢
      have hnext : (next + m.numberOfPages * pageSize).toNat
          = next.toNat + 4096 * m.numberOfPages.toNat := by
        rw [BitVec.toNat_add, BitVec.toNat_mul, pageSize_toNat]
        omega
      have ih := tiles_scanned base ms (next + m.numberOfPages * pageSize) (by omega)
      rw [hnext, Nat.add_assoc] at ih
      rw [if_pos hm, List.filter_cons_of_pos (by exact hmm), List.map_cons]
      exact ⟨rfl, ih⟩
    · have hmm : ¬ m.Mmio := fun h => hm (mmio_iff.1 h)
      rw [if_neg hmm, Nat.zero_add] at h ⊢
      have hf : ∀ m' : EfiMemoryDescriptor, m'.type = m.type → ¬ m'.Mmio := fun m' he h =>
        hm (he ▸ mmio_iff.1 h)
      rw [if_neg hm]
      split_ifs <;> rw [List.filter_cons_of_neg (by exact hf _ rfl)] <;>
        exact tiles_scanned base ms next h

theorem isMmio_reclaim (t : EfiMemoryType) : t.reclaim.IsMmio ↔ t.IsMmio := by
  rw [EfiMemoryType.reclaim]
  split_ifs with h
  · simp only [EfiMemoryType.IsMmio, h, or_self, reduceCtorEq]
  · rfl

/-- The length of the MMIO segments is that of what the map says of their pages. -/
theorem mmioBytes_eq (ms : List EfiMemoryDescriptor) :
    mmioBytes ms = 4096 * (ms.flatMap described).countP fun x => x.2.1.IsMmio := by
  induction ms with
  | nil => rfl
  | cons m ms ih =>
    have hc : m.described.countP (fun x => x.2.1.IsMmio)
        = if m.Mmio then m.numberOfPages.toNat else 0 := by
      rw [described, List.countP_map]
      split_ifs with h
      · refine (List.countP_eq_length.2 fun _ _ => h).trans ?_
        rw [pages, List.length_map, List.length_range]
      · exact List.countP_eq_zero.2 fun _ _ => h
    rw [mmioBytes_cons, ih, List.flatMap_cons, List.countP_append, hc]
    split_ifs <;> omega

theorem mmioBytes_reclaimedMap (h : NullPageFirst ms) :
    mmioBytes (reclaimedMap ms) = mmioBytes ms := by
  have hr : ∀ ms : List EfiMemoryDescriptor, mmioBytes (ms.map reclaim) = mmioBytes ms := by
    intro ms
    induction ms with
    | nil => rfl
    | cons m ms ih =>
      rw [List.map_cons, mmioBytes_cons, mmioBytes_cons, ih]
      simp only [mmio_iff, reclaim, isMmio_reclaim]
  obtain ⟨first, rest, rfl, ht, -⟩ := h
  rw [reclaimedMap_cons, mmioBytes_cons, mmioBytes_cons, hr]
  simp only [mmio_iff, ht, EfiMemoryType.IsMmio, reduceCtorEq, or_self]

theorem mmioBytes_mergedMap (h : NullPageFirst ms) (hn : total ms < 2 ^ 64) :
    mmioBytes (mergedMap ms) = mmioBytes ms := by
  rw [mmioBytes_eq, mergedMap_described hn, ← mmioBytes_eq, mmioBytes_reclaimedMap h]

/-! ## The other runtime segments -/

theorem runtimeMemory_iff {m : EfiMemoryDescriptor} :
    m.RuntimeMemory ↔ ¬ m.type.IsMmio ∧ m.attributes &&& efiMemoryRuntime ≠ 0 := by
  rw [RuntimeMemory, decide_eq_true_iff]

/-- The other runtime segments are mapped in the window on physical memory. -/
theorem filter_scanned (base : U64) : ∀ (ms : List EfiMemoryDescriptor) (next : U64),
    (scanned (virtual base) next ms).filter RuntimeMemory
      = (ms.filter RuntimeMemory).map fun m => { m with virtualStart := base + m.physicalStart }
  | [], _ => rfl
  | m :: ms, next => by
    have hf : ∀ v, RuntimeMemory { m with virtualStart := v } = m.RuntimeMemory := fun _ => rfl
    rw [scanned, virtual_mmio]
    split_ifs with hm ha
    · have hr : ¬ m.RuntimeMemory := fun h => (runtimeMemory_iff.1 h).1 hm
      rw [List.filter_cons_of_neg (by rwa [hf]), List.filter_cons_of_neg hr, filter_scanned]
    · have hr : m.RuntimeMemory := runtimeMemory_iff.2 ⟨hm, ha⟩
      rw [List.filter_cons_of_pos (by rwa [hf]), List.filter_cons_of_pos hr, filter_scanned,
        List.map_cons, BitVec.add_comm]
    · have hr : ¬ m.RuntimeMemory := fun h => (runtimeMemory_iff.1 h).2 (not_not.1 ha)
      rw [List.filter_cons_of_neg hr, List.filter_cons_of_neg hr, filter_scanned]

/-- A runtime segment of the final map is one of the merged map, seen through the window. -/
theorem mem_final_runtime {m : EfiMemoryDescriptor} (hm : m ∈ finalEntries data ms)
    (hr : m.RuntimeMemory) : ∃ m₀ ∈ mergedMap ms, m₀.RuntimeMemory
      ∧ m.span = ⟨(data.paddrBase + m₀.physicalStart).toNat, 4096 * m₀.numberOfPages.toNat⟩ := by
  have hm : m ∈ (finalEntries data ms).filter RuntimeMemory := List.mem_filter.2 ⟨hm, hr⟩
  rw [finalEntries, filter_scanned, List.mem_map] at hm
  obtain ⟨m₀, hm₀, rfl⟩ := hm
  rw [List.mem_filter] at hm₀
  exact ⟨m₀, hm₀.1, hm₀.2, rfl⟩

/-- The pages of a merged runtime segment are those of runtime segments. -/
theorem runtime_pages (h : NullPageFirst ms) (hn : total ms < 2 ^ 64) {m : EfiMemoryDescriptor}
    (hm : m ∈ mergedMap ms) (hr : m.RuntimeMemory) {x : U64} (hx : x ∈ m.pages) :
    ∃ m₀ ∈ ms, m₀.RuntimeMemory ∧ x ∈ m₀.pages := by
  have hd : (x, m.type, m.attributes) ∈ (reclaimedMap ms).flatMap described := by
    rw [← mergedMap_described hn]
    exact List.mem_flatMap.2 ⟨m, hm, List.mem_map_of_mem hx⟩
  obtain ⟨m₁, hm₁, hd⟩ := List.mem_flatMap.1 hd
  obtain ⟨y, hy, he⟩ := List.mem_map.1 hd
  obtain ⟨rfl, ht, ha⟩ : y = x ∧ m₁.type = m.type ∧ m₁.attributes = m.attributes := by
    simpa using he
  rw [runtimeMemory_iff, ← ht, ← ha] at hr
  obtain ⟨first, rest, rfl, hf, -⟩ := h
  rw [reclaimedMap_cons] at hm₁
  rcases List.mem_cons.1 hm₁ with rfl | hm₁
  · refine ⟨first, List.mem_cons_self .., runtimeMemory_iff.2 ⟨?_, hr.2⟩, hy⟩
    simp only [hf, EfiMemoryType.IsMmio, reduceCtorEq, or_self, not_false_eq_true]
  · obtain ⟨m₀, hm₀, rfl⟩ := List.mem_map.1 hm₁
    exact ⟨m₀, List.mem_cons_of_mem _ hm₀, runtimeMemory_iff.2 ⟨by
      rw [← isMmio_reclaim]
      exact hr.1, hr.2⟩, hy⟩

theorem mem_physical {m : EfiMemoryDescriptor} {k x : ℕ} (hk : k < 2 ^ 64)
    (h : ∀ p ∈ m.pages, p.toNat % 4096 = 0 ∧ p.toNat + 4096 ≤ k) :
    m.physical.Mem x ↔ ∃ p ∈ m.pages, p.toNat = x / 4096 * 4096 := by
  -- no page wraps, since the one before lies below `k`
  have hp : ∀ i < m.numberOfPages.toNat,
      (m.physicalStart + pageSize * BitVec.ofNat 64 i).toNat = m.physicalStart.toNat + 4096 * i := by
    intro i
    induction i with
    | zero => simp
    | succ i ih =>
      intro hi
      have hb := (h _ (mem_pages.2 ⟨i, by omega, rfl⟩)).2
      rw [ih (by omega)] at hb
      rw [BitVec.toNat_add, pageSize_mul_toNat (by omega)]
      omega
  have h0 : 0 < m.numberOfPages.toNat → m.physicalStart.toNat % 4096 = 0 := by
    intro hn
    have := (h _ (mem_pages.2 ⟨0, hn, rfl⟩)).1
    rw [hp 0 hn] at this
    omega
  simp only [Mem, EfiMemoryDescriptor.physical]
  constructor
  · intro hx
    have hi : (x - m.physicalStart.toNat) / 4096 < m.numberOfPages.toNat := by omega
    refine ⟨_, mem_pages.2 ⟨_, hi, rfl⟩, ?_⟩
    rw [hp _ hi]
    omega
  · rintro ⟨p, hm, hx⟩
    obtain ⟨i, hi, rfl⟩ := mem_pages.1 hm
    rw [hp i hi] at hx
    omega

/-! ## The window -/

theorem mem_window {base p : U64} {n k x : ℕ} (hb : base.toNat + k ≤ 2 ^ 64)
    (hp : Within 0 k ⟨p.toNat, n⟩) :
    Mem x ⟨(base + p).toNat, n⟩ ↔ base.toNat ≤ x ∧ Mem (x - base.toNat) ⟨p.toNat, n⟩ := by
  have hp := hp p.toNat
  simp only [Mem] at hp ⊢
  rw [BitVec.toNat_add]
  omega

theorem window_within {base p : U64} {n k : ℕ} (hb : base.toNat + k ≤ 2 ^ 64)
    (hp : Within 0 k ⟨p.toNat, n⟩) : Within base.toNat (base.toNat + k) ⟨(base + p).toNat, n⟩ := by
  intro x hx
  obtain ⟨hl, hx⟩ := (mem_window hb hp).1 hx
  have := hp _ hx
  omega

theorem window_disjoint {base p q : U64} {n n' k : ℕ} (hb : base.toNat + k ≤ 2 ^ 64)
    (hp : Within 0 k ⟨p.toNat, n⟩) (hq : Within 0 k ⟨q.toNat, n'⟩)
    (h : Span.Disjoint ⟨p.toNat, n⟩ ⟨q.toNat, n'⟩) :
    Span.Disjoint ⟨(base + p).toNat, n⟩ ⟨(base + q).toNat, n'⟩ := fun _ hx hx' =>
  h _ ((mem_window hb hp).1 hx).2 ((mem_window hb hq).1 hx').2

/-! ## The layout -/

namespace LayoutOk

variable (h : LayoutOk data b f) {m : EfiMemoryDescriptor} {x : ℕ}

include h

theorem bases : data.paddrBase.toNat + data.paddrSize.toNat = kernelBase.toNat
    ∧ data.mmioBase.toNat + data.mmioSize.toNat = data.paddrBase.toNat
    ∧ (data.mmioBase - pageSize).toNat + 4096 = data.mmioBase.toNat
    ∧ 2 ^ 64 - 2 ^ 47 ≤ (data.mmioBase - pageSize).toNat := by
  have hs := h.small
  have hp : data.paddrBase.toNat = 2 ^ 64 - 2 ^ 30 - data.paddrSize.toNat := by
    rw [h.paddrBase, BitVec.toNat_sub, kernelBase_toNat]
    omega
  have hm : data.mmioBase.toNat = data.paddrBase.toNat - data.mmioSize.toNat := by
    rw [h.mmioBase, BitVec.toNat_sub]
    omega
  rw [kernelBase_toNat, BitVec.toNat_sub, pageSize_toNat]
  omega

theorem runtime_page (hm : m ∈ data.entries) (hr : m.RuntimeMemory) {p : U64} (hp : p ∈ m.pages) :
    p.toNat % 4096 = 0 ∧ p.toNat + 4096 ≤ data.paddrSize.toNat :=
  h.map.page_le hm (h.runtime m hm hr) data.paddrSize.isLt hp

variable (hf : NullPageFirst data.entries)

include hf

theorem merged_page (hm : m ∈ mergedMap data.entries) (hr : m.RuntimeMemory) {p : U64}
    (hp : p ∈ m.pages) : p.toNat % 4096 = 0 ∧ p.toNat + 4096 ≤ data.paddrSize.toNat := by
  have ht := h.map.total_le
  obtain ⟨m₀, hm₀, hr₀, hp⟩ := runtime_pages hf (by omega) hm hr hp
  exact h.runtime_page hm₀ hr₀ hp

/-- A merged runtime segment lies in segments of the firmware's map. -/
theorem runtime_physical (hm : m ∈ mergedMap data.entries) (hr : m.RuntimeMemory)
    (hx : m.physical.Mem x) : x < data.paddrSize.toNat
      ∧ ∃ m₀ ∈ data.entries, m₀.RuntimeMemory ∧ m₀.physical.Mem x := by
  have ht := h.map.total_le
  obtain ⟨p, hp, hpx⟩ := (mem_physical data.paddrSize.isLt
    fun p hp => h.merged_page hf hm hr hp).1 hx
  have hb := h.merged_page hf hm hr hp
  obtain ⟨m₀, hm₀, hr₀, hp⟩ := runtime_pages hf (by omega) hm hr hp
  exact ⟨by omega, m₀, hm₀, hr₀, (mem_physical data.paddrSize.isLt
    fun p hp => h.runtime_page hm₀ hr₀ hp).2 ⟨p, hp, hpx⟩⟩

theorem runtime_within (hm : m ∈ mergedMap data.entries) (hr : m.RuntimeMemory) :
    Within 0 data.paddrSize.toNat m.physical := fun _ hx =>
  ⟨Nat.zero_le _, (h.runtime_physical hf hm hr hx).1⟩

theorem runtime_pairwise : ((mergedMap data.entries).filter RuntimeMemory).Pairwise
    fun m m' => m.physical.Disjoint m'.physical := by
  have ht := h.map.total_le
  have hnd := h.map.nodup
  rw [← mergedMap_pages (by omega), List.nodup_flatMap] at hnd
  refine (hnd.2.sublist List.filter_sublist).imp_of_mem fun {m m'} hm hm' hd x hx hx' => ?_
  rw [List.mem_filter] at hm hm'
  obtain ⟨p, hp, he⟩ := (mem_physical data.paddrSize.isLt
    fun p hp => h.merged_page hf hm.1 hm.2 hp).1 hx
  obtain ⟨q, hq, he'⟩ := (mem_physical data.paddrSize.isLt
    fun p hp => h.merged_page hf hm'.1 hm'.2 hp).1 hx'
  exact hd hp (BitVec.eq_of_toNat_eq (he.trans he'.symm) ▸ hq)

/-- The MMIO segments lie end to end below the window. -/
theorem mmio_tiles : Tiles data.mmioBase.toNat data.paddrBase.toNat
    (((finalEntries data data.entries).filter Mmio).map EfiMemoryDescriptor.span) := by
  have ht := h.map.total_le
  obtain ⟨-, hb, -⟩ := h.bases
  have hm := mmioBytes_mergedMap hf (by omega)
  rw [h.mmio] at hm
  have htiles := tiles_scanned data.paddrBase (mergedMap data.entries) data.mmioBase (by
    have := data.paddrBase.isLt
    omega)
  rwa [hm, hb] at htiles

theorem final_within (hm : m ∈ finalEntries data data.entries) (hr : m.RuntimeMemory) :
    m.span.Within data.paddrBase.toNat kernelBase.toNat := by
  obtain ⟨m₀, hm₀, hr₀, he⟩ := mem_final_runtime hm hr
  rw [he, ← h.bases.1]
  exact window_within (h.bases.1 ▸ kernelBase.isLt.le) (h.runtime_within hf hm₀ hr₀)

/-- The MMIO segments and the other runtime segments are disjoint. -/
theorem final_pairwise : (((finalEntries data data.entries).filter
    fun m => m.Mmio || m.RuntimeMemory).map EfiMemoryDescriptor.span).Pairwise Disjoint := by
  have htiles := h.mmio_tiles hf
  refine List.pairwise_map.2 (pairwise_filter_or (fun _ _ => Span.Disjoint.symm)
    (List.pairwise_map.1 htiles.pairwise) ?_ fun m hm hmm m' hm' hr => ?_)
  · rw [finalEntries, filter_scanned, List.pairwise_map]
    refine (h.runtime_pairwise hf).imp_of_mem fun {m m'} hm hm' hd => ?_
    rw [List.mem_filter] at hm hm'
    exact window_disjoint (h.bases.1 ▸ kernelBase.isLt.le) (h.runtime_within hf hm.1 hm.2)
      (h.runtime_within hf hm'.1 hm'.2) hd
  · exact disjoint_of_within le_rfl
      (htiles.within _ (List.mem_map_of_mem (List.mem_filter.2 ⟨hm, hmm⟩)))
      (h.final_within hf hm' hr)

omit hf in
theorem data_within : Within 0 data.paddrSize.toNat ⟨b.toNat, 4096⟩
    ∧ Within 0 data.paddrSize.toNat ⟨f.toNat, 4096 * data.nPages.toNat⟩ :=
  ⟨within_of_le (Nat.zero_le _) h.bootloaderData, within_of_le (Nat.zero_le _) h.freeMemory.2⟩

theorem data_apart {p : U64} {n : ℕ} (hp : Within 0 data.paddrSize.toNat ⟨p.toNat, n⟩)
    (hr : ∀ m ∈ data.entries, m.RuntimeMemory → Span.Disjoint ⟨p.toNat, n⟩ m.physical)
    (hm : m ∈ finalEntries data data.entries) (hmr : m.Mmio || m.RuntimeMemory) :
    Span.Disjoint ⟨(data.paddrBase + p).toNat, n⟩ m.span := by
  have hbase : data.paddrBase.toNat + data.paddrSize.toNat ≤ 2 ^ 64 :=
    h.bases.1 ▸ kernelBase.isLt.le
  rcases (Bool.or_eq_true_iff ..).1 hmr with hm' | hr'
  · exact (disjoint_of_within le_rfl ((h.mmio_tiles hf).within _
      (List.mem_map_of_mem (List.mem_filter.2 ⟨hm, hm'⟩))) (window_within hbase hp)).symm
  · obtain ⟨m₀, hm₀, hr₀, he⟩ := mem_final_runtime hm hr'
    rw [he]
    refine window_disjoint hbase hp (h.runtime_within hf hm₀ hr₀) fun x hx hx' => ?_
    obtain ⟨-, m₁, hm₁, hr₁, hx₁⟩ := h.runtime_physical hf hm₀ hr₀ hx'
    exact hr m₁ hm₁ hr₁ x hx hx₁

/-- The spans of the new address space are above the APIC's, and they are disjoint. -/
theorem spans_disjoint (he : data'.entries = finalEntries data data.entries)
    (hd : data' = { data with memoryMap := data'.memoryMap, numEntries := data'.numEntries }) :
    (∀ t ∈ spans data' b, t.Within (data.mmioBase - pageSize).toNat (2 ^ 64))
      ∧ (spans data' b).Pairwise Span.Disjoint := by
  obtain ⟨hk, hm, ha, -⟩ := h.bases
  have hbase : data.paddrBase.toNat + data.paddrSize.toNat ≤ 2 ^ 64 := hk ▸ kernelBase.isLt.le
  have hsp : spans data' b = [⟨(data.paddrBase + b).toNat, 4096⟩,
        ⟨(data.paddrBase + f).toNat, 4096 * data.nPages.toNat⟩,
        ⟨(data.mmioBase - pageSize).toNat, 4096⟩]
      ++ ((finalEntries data data.entries).filter fun m => m.Mmio || m.RuntimeMemory).map
        EfiMemoryDescriptor.span
      ++ data.loads.map fun phdr => phdr.range.span := by
    rw [spans, he, hd, ← h.freeMemory.1]
    rfl
  have hb := window_within hbase h.data_within.1
  have hfr := window_within hbase h.data_within.2
  have hap : Within (data.mmioBase - pageSize).toNat data.mmioBase.toNat
    ⟨(data.mmioBase - pageSize).toNat, 4096⟩ := within_of_le le_rfl ha.le
  have hfin : ∀ m ∈ finalEntries data data.entries, m.Mmio || m.RuntimeMemory →
      m.span.Within data.mmioBase.toNat kernelBase.toNat := by
    intro m hm' hmr
    rcases (Bool.or_eq_true_iff ..).1 hmr with hmm | hr
    · exact ((h.mmio_tiles hf).within _ (List.mem_map_of_mem (List.mem_filter.2 ⟨hm', hmm⟩))).mono
        le_rfl (by omega)
    · exact (h.final_within hf hm' hr).mono (by omega) le_rfl
  have hseg := fun t ht => (List.forall_mem_map.2 fun ph => h.segments.within) t ht
  have hlow : ∀ t ∈ [⟨(data.paddrBase + b).toNat, 4096⟩,
        ⟨(data.paddrBase + f).toNat, 4096 * data.nPages.toNat⟩,
        ⟨(data.mmioBase - pageSize).toNat, 4096⟩]
      ++ ((finalEntries data data.entries).filter fun m => m.Mmio || m.RuntimeMemory).map
        EfiMemoryDescriptor.span,
      t.Within (data.mmioBase - pageSize).toNat kernelBase.toNat := by
    simp only [List.forall_mem_append, List.forall_mem_cons, List.not_mem_nil, false_imp_iff,
      implies_true, and_true, List.forall_mem_map, List.mem_filter, and_imp]
    exact ⟨⟨hb.mono (by omega) hk.le, hfr.mono (by omega) hk.le, hap.mono le_rfl (by omega)⟩,
      fun m hm' hmr => (hfin m hm' hmr).mono (by omega) le_rfl⟩
  rw [hsp]
  refine ⟨List.forall_mem_append.2 ⟨fun t ht => (hlow t ht).mono le_rfl kernelBase.isLt.le,
    fun t ht => (hseg t ht).mono (by omega) le_rfl⟩, ?_⟩
  refine List.pairwise_append.2 ⟨List.pairwise_append.2 ⟨?_, h.final_pairwise hf, ?_⟩,
    h.segments.pairwise, fun t ht u hu => disjoint_of_within le_rfl (hlow t ht) (hseg u hu)⟩
  · simp only [List.pairwise_cons, List.forall_mem_cons, List.not_mem_nil, false_imp_iff,
      implies_true, and_true, List.Pairwise.nil]
    exact ⟨⟨window_disjoint hbase h.data_within.1 h.data_within.2 h.apart,
      (disjoint_of_within (by omega) hap hb).symm⟩, (disjoint_of_within (by omega) hap hfr).symm⟩
  · simp only [List.forall_mem_cons, List.not_mem_nil, false_imp_iff, implies_true, and_true,
      List.forall_mem_map, List.mem_filter, and_imp]
    exact ⟨fun m hm' => h.data_apart hf h.data_within.1 (fun m hm hr => (h.runtimeApart m hm hr).1)
        hm',
      fun m hm' => h.data_apart hf h.data_within.2 (fun m hm hr => (h.runtimeApart m hm hr).2) hm',
      fun m hm' hmr => disjoint_of_within le_rfl hap (hfin m hm' hmr)⟩

end LayoutOk

/-- Each range that `new_address_space` maps is one of the spans. -/
theorem spaceRanges_spans (data : BootloaderData) (b apicPaddr : U64) :
    ((spaceRanges (globals data b apicPaddr)).map PageRange.span).Sublist (spans data b) := by
  have hr : (data.runtimeEntries.map EfiMemoryDescriptor.span).Sublist
      ((data.entries.filter fun m => m.Mmio || m.RuntimeMemory).map EfiMemoryDescriptor.span) := by
    refine (List.monotone_filter_right _ fun m hm => ?_).map _
    rw [decide_eq_true_iff] at hm
    rw [Bool.or_eq_true_iff, mmio_iff, runtimeMemory_iff]
    tauto
  rw [spaceRanges, dataRanges, List.map_append, List.map_append, List.map_map, List.map_map]
  exact ((List.Sublist.refl _).append hr).append (List.Sublist.refl _)

/-- After `init_mmap`, the MMIO segments tile the range below the window on physical memory, the
other runtime segments lie in the window, the parts of the address space are disjoint, and so
`new_address_space` never maps a page twice. -/
theorem virtual_layout (h : LayoutOk data b f) (hi : initMmap data = .ok data') :
    Tiles data.mmioBase.toNat data.paddrBase.toNat
        ((data'.entries.filter Mmio).map EfiMemoryDescriptor.span)
      ∧ (∀ m ∈ data'.entries, m.RuntimeMemory →
        m.span.Within data.paddrBase.toNat kernelBase.toNat)
      ∧ (spans data' b).Pairwise Span.Disjoint
      ∧ ∀ apicPaddr s fs, FreeList data.paddrBase s.mem s.pool fs →
        newAddressSpace (globals data' b apicPaddr) s ≠ .error .remap := by
  obtain ⟨hf, he, -, hd⟩ := initMmap_spec h.slots hi
  obtain ⟨hw, hp⟩ := h.spans_disjoint hf he hd
  obtain ⟨-, -, -, hlo⟩ := h.bases
  refine ⟨he ▸ h.mmio_tiles hf, he ▸ fun m => h.final_within hf, hp, fun apicPaddr s fs hl => ?_⟩
  have hsub := spaceRanges_spans data' b apicPaddr
  have hb : data'.paddrBase = data.paddrBase := by rw [hd]
  have hl' : FreeList (globals data' b apicPaddr).data.paddrBase s.mem s.pool fs := by
    rwa [globals, hb]
  refine newAddressSpace_ne_remap hl' (spans_nodup (fun r hr => ?_)
    (hp.sublist hsub))
  exact (hw _ (hsub.subset (List.mem_map_of_mem hr))).mono hlo le_rfl

/-- A machine with a page of runtime data and two MMIO segments. -/
def smallLayout : BootloaderData where
  freeMemory := 0xffffffffbfff3000
  nPages := 4
  ramSize := 0x10000
  paddrBase := 0xffffffffbfff0000
  paddrSize := 0x10000
  mmioBase := 0xffffffffbffed000
  mmioSize := 0x3000
  ePhnum := 1
  phdrs := [⟨ptLoad, pfW, 0, 0xffffffffc0000ff8, 0x8ff8, 16, 16, 8⟩]
  numEntries := 4
  memoryMap := [⟨.bootServicesCode, 0, 0, 1, 0⟩,
    ⟨.runtimeServicesData, 0x1000, 0, 1, efiMemoryRuntime⟩,
    ⟨.memoryMappedIo, 0xfec00000, 0, 1, efiMemoryRuntime⟩,
    ⟨.memoryMappedIoPortSpace, 0xfee00000, 0, 2, efiMemoryRuntime⟩]

theorem smallLayout_ok : LayoutOk smallLayout 0x2000 0x3000 where
  map := ⟨by decide +kernel, by decide +kernel, by decide +kernel⟩
  slots := by decide
  mmio := by decide +kernel
  paddrBase := by decide
  mmioBase := by decide
  small := by decide
  bootloaderData := by decide
  freeMemory := by decide
  runtime := by decide +kernel
  apart := by decide
  runtimeApart := by decide +kernel
  segments := ⟨by decide +kernel, by decide +kernel, by decide +kernel⟩

/-- Its two MMIO segments fill the three pages below the window. -/
theorem virtual_layout_small : ∃ data', initMmap smallLayout = .ok data'
    ∧ Tiles 0xffffffffbffed000 0xffffffffbfff0000
      ((data'.entries.filter Mmio).map EfiMemoryDescriptor.span)
    ∧ newAddressSpace (globals data' 0x2000 0xfee00000)
      (freed smallLayout.paddrBase (framesFrom 3 4)) ≠ .error .remap := by
  have hf : Fresh smallLayout.paddrBase 0 (framesFrom 3 4).reverse
    (freed smallLayout.paddrBase (framesFrom 3 4)) := freed_fresh _ (by decide) (by decide)
  obtain ⟨ht, -, -, hr⟩ := virtual_layout smallLayout_ok rfl
  exact ⟨_, rfl, ht, hr _ _ _ hf.list⟩

end SctOs
