import SctOs.EfiMain
import SctOs.Proofs.InPlace
import SctOs.Proofs.Pages

/-!
# Merging the memory map

`init_mmap` leaves the merged map with its virtual addresses in a prefix of the slots
(`initMmap_spec`). Merging keeps what the map says of each page (`mergedMap_described`), and its
length is the number of runs (`length_mergedMap`). So the map that is left says the same of the same
pages (`init_mmap_merge`). The firmware is told of that map just when the one before had as many
entries (`tells_map_iff`).
-/

namespace SctOs

open InPlace EfiMemoryDescriptor

variable {data data' : BootloaderData} {ms : List EfiMemoryDescriptor}

theorem reclaim_eq (m : EfiMemoryDescriptor) : m.reclaim
    = { m with type := if m.type ∈ keptTypes then m.type else .conventionalMemory } := by
  obtain ⟨t, -, -, -, -⟩ := m
  cases t <;> rfl

theorem reclaimedMap_cons (first : EfiMemoryDescriptor) (rest : List EfiMemoryDescriptor) :
    reclaimedMap (first :: rest)
      = { first with type := .unusableMemory } :: rest.map reclaim := by
  rw [reclaimedMap, funext reclaim_eq]

theorem mergedMap_cons (first : EfiMemoryDescriptor) (rest : List EfiMemoryDescriptor) :
    mergedMap (first :: rest)
      = merged Continues extend { first with type := .unusableMemory } (rest.map reclaim) := by
  rw [mergedMap, reclaimedMap_cons]

theorem continues_iff (m m' : EfiMemoryDescriptor) : Continues m m' ↔ Mergeable m m' := by
  rw [Continues, Mergeable, eq_comm, eq_comm (a := m'.attributes), eq_comm (a := m'.physicalStart),
    BitVec.mul_comm 4096]
  rfl

/-- `init_mmap` on a map in the first slots of an array. -/
theorem initMmap_eq (data : BootloaderData) (first : EfiMemoryDescriptor)
    (rest tail : List EfiMemoryDescriptor)
    (hs : data.memoryMap = first :: (rest ++ tail)) (hn : data.numEntries.toNat = rest.length + 1)
    (hf : first.type = .bootServicesCode ∧ first.physicalStart = 0 ∧ first.numberOfPages = 1) :
    ∃ stale, initMmap data = .ok { data with
        memoryMap := scanned (virtual data.paddrBase) data.mmioBase (mergedMap (first :: rest))
          ++ (stale ++ tail)
        numEntries := BitVec.ofNat 64 (mergedMap (first :: rest)).length }
      ∧ (mergedMap (first :: rest)).length ≤ rest.length + 1 := by
  obtain ⟨stale, prev, hm, hl⟩ := mergeStep_run reclaim Continues extend rest [] [] tail
    { first with type := .unusableMemory }
  have h0 : data.numEntries ≠ 0 := by
    intro h
    rw [h] at hn
    simp at hn
  simp only [List.length_nil, Nat.add_zero, Nat.zero_add, List.nil_append] at hm
  have hsc := scanStep_run (f := virtual data.paddrBase) (mergedMap (first :: rest)) []
    (stale ++ tail) data.mmioBase
  rw [← mergedMap_cons] at hm hl
  refine ⟨stale, ?_, by simp only [List.length_nil] at hl; omega⟩
  simp only [List.length_nil, List.nil_append, ← List.range_eq_range'] at hsc
  have hc : ¬ (first.type ≠ .bootServicesCode ∨ first.physicalStart ≠ 0
      ∨ first.numberOfPages ≠ 1) := by simp [hf]
  simp only [initMmap, if_neg h0, hs, hn, Nat.add_sub_cancel, List.getElem!_cons_zero, if_neg hc,
    List.set_cons_zero, hm, hsc]
  rfl

/-- When `init_mmap` finishes, the entries are the merged ones with their virtual addresses, and
the rest of `bootloader_data` is as it was. -/
theorem initMmap_spec (hn : data.numEntries.toNat ≤ data.memoryMap.length)
    (h : initMmap data = .ok data') : NullPageFirst data.entries
      ∧ data'.entries = finalEntries data data.entries
      ∧ data'.numEntries.toNat = (mergedMap data.entries).length
      ∧ data' = { data with memoryMap := data'.memoryMap, numEntries := data'.numEntries } := by
  have h0 : data.numEntries ≠ 0 := by
    intro h0
    rw [initMmap, if_pos h0] at h
    cases h
  obtain ⟨n, hn'⟩ : ∃ n, data.numEntries.toNat = n + 1 := by
    refine Nat.exists_eq_succ_of_ne_zero fun h => h0 (BitVec.eq_of_toNat_eq h)
  rcases hm : data.memoryMap with _ | ⟨first, slots⟩
  · rw [hm, hn'] at hn
    simp at hn
  have hf : first.type = .bootServicesCode ∧ first.physicalStart = 0 ∧ first.numberOfPages = 1 := by
    by_contra hf
    have hc : first.type ≠ .bootServicesCode ∨ first.physicalStart ≠ 0
        ∨ first.numberOfPages ≠ 1 := by
      rw [not_and_or, not_and_or] at hf
      exact hf
    simp only [initMmap, if_neg h0, hm, List.getElem!_cons_zero, if_pos hc] at h
    cases h
  rw [hm, hn', List.length_cons] at hn
  have hle : n ≤ slots.length := by omega
  have he : data.entries = first :: slots.take n := by
    rw [BootloaderData.entries, hm, hn', List.take_succ_cons]
  obtain ⟨stale, hi, hl⟩ := initMmap_eq data first (slots.take n) (slots.drop n)
    (by rw [hm, List.take_append_drop]) (by rw [hn', List.length_take, Nat.min_eq_left hle]) hf
  rw [← he] at hi hl
  rw [hi, Except.ok.injEq] at h
  subst h
  have hlen : (mergedMap data.entries).length < 2 ^ 64 := by
    have := data.numEntries.isLt
    rw [List.length_take, Nat.min_eq_left hle] at hl
    omega
  have hnat : (BitVec.ofNat 64 (mergedMap data.entries).length).toNat
      = (mergedMap data.entries).length := by
    rw [BitVec.toNat_ofNat, Nat.mod_eq_of_lt hlen]
  refine ⟨⟨first, _, he, hf⟩, ?_, hnat, rfl⟩
  rw [BootloaderData.entries, hnat, finalEntries, List.take_left']
  exact length_scanned _ _ _

/-! ## What the map says -/

theorem continues_extend (p x y : EfiMemoryDescriptor) (h : Continues p x) :
    Continues (extend p x) y ↔ Continues x y := by
  obtain ⟨ht, ha, hs⟩ := h
  simp only [Continues, extend, ht, ha, hs, BitVec.add_mul, BitVec.add_assoc]

/-- The merged map has an entry for each run. -/
theorem length_mergedMap : (mergedMap ms).length = runs ms := by
  rw [mergedMap, runs]
  rcases reclaimedMap ms with _ | ⟨first, rest⟩
  · rfl
  · rw [length_merged continues_extend, breaks_congr continues_iff]

/-- The number of pages of a map. -/
def total (ms : List EfiMemoryDescriptor) : ℕ := (ms.map fun m => m.numberOfPages.toNat).sum

theorem total_cons (m : EfiMemoryDescriptor) (ms : List EfiMemoryDescriptor) :
    total (m :: ms) = m.numberOfPages.toNat + total ms := rfl

theorem total_reclaimedMap : total (reclaimedMap ms) = total ms := by
  cases ms with
  | nil => rfl
  | cons first rest =>
    rw [reclaimedMap, total, total, List.map_cons, List.map_cons, List.map_map]
    rfl

theorem pages_extend {p x : EfiMemoryDescriptor} (h : Continues p x)
    (hn : p.numberOfPages.toNat + x.numberOfPages.toNat < 2 ^ 64) :
    (extend p x).pages = p.pages ++ x.pages := by
  obtain ⟨-, -, hs⟩ := h
  have hsum : (p.numberOfPages + x.numberOfPages).toNat
      = p.numberOfPages.toNat + x.numberOfPages.toNat := by
    rw [BitVec.toNat_add, Nat.mod_eq_of_lt hn]
  simp only [pages, extend, hsum, List.range_add, List.map_append, List.map_map]
  congr 1
  refine List.map_congr_left fun i _ => ?_
  rw [Function.comp_apply, hs, BitVec.ofNat_add, BitVec.ofNat_toNat, BitVec.setWidth_eq]
  grind

theorem described_extend {p x : EfiMemoryDescriptor} (h : Continues p x)
    (hn : p.numberOfPages.toNat + x.numberOfPages.toNat < 2 ^ 64) :
    (extend p x).described = p.described ++ x.described := by
  rw [described, pages_extend h hn, List.map_append]
  obtain ⟨ht, ha, -⟩ := h
  simp only [described, ht, ha, extend]

/-- Merging keeps what the map says of each page, and the order of the pages. -/
theorem mergedMap_described (hn : total ms < 2 ^ 64) :
    (mergedMap ms).flatMap described = (reclaimedMap ms).flatMap described := by
  rw [← total_reclaimedMap] at hn
  rw [mergedMap]
  rcases hm : reclaimedMap ms with _ | ⟨first, rest⟩
  · rfl
  rw [hm] at hn
  refine merged_flatMap (fun p xs => total (p :: xs) < 2 ^ 64) ?_ ?_ first rest hn
  · intro p x xs hok hj
    rw [total_cons, total_cons] at hok
    refine ⟨described_extend hj (by omega), ?_⟩
    rw [total_cons, extend, BitVec.toNat_add, Nat.mod_eq_of_lt (by omega)]
    omega
  · intro p x xs hok
    rw [total_cons] at hok
    omega

/-- A segment that continues another ends where the two end. -/
theorem limit_extend {p x : EfiMemoryDescriptor} (h : Continues p x) (hp : p.limit < 2 ^ 64)
    (hx : x.limit < 2 ^ 64) :
    p.numberOfPages.toNat + x.numberOfPages.toNat < 2 ^ 64 ∧ (extend p x).limit = x.limit := by
  obtain ⟨-, -, hs⟩ := h
  have hs := congrArg BitVec.toNat hs
  rw [limit] at hp hx
  rw [BitVec.toNat_add, BitVec.toNat_mul, pageSize_toNat] at hs
  simp only [limit, extend, BitVec.toNat_add]
  omega

/-- So it is for segments that each end below `2 ^ 64`, however many pages they have together. -/
theorem mergedMap_described_of_limit (hl : ∀ m ∈ ms, m.limit < 2 ^ 64) :
    (mergedMap ms).flatMap described = (reclaimedMap ms).flatMap described := by
  have hl : ∀ m ∈ reclaimedMap ms, m.limit < 2 ^ 64 := by
    cases ms with
    | nil => exact hl
    | cons first rest =>
      rw [List.forall_mem_cons] at hl
      refine List.forall_mem_cons.2 ⟨hl.1, List.forall_mem_map.2 hl.2⟩
  rw [mergedMap]
  rcases hm : reclaimedMap ms with _ | ⟨first, rest⟩
  · rfl
  rw [hm] at hl
  refine merged_flatMap (fun p xs => ∀ m ∈ p :: xs, m.limit < 2 ^ 64) ?_ ?_ first rest hl
  · intro p x xs hok hj
    simp only [List.forall_mem_cons] at hok ⊢
    obtain ⟨hn, he⟩ := limit_extend hj hok.1 hok.2.1
    exact ⟨described_extend hj hn, he ▸ hok.2.1, hok.2.2⟩
  · intro p x xs hok
    exact fun m hm => hok m (List.mem_cons_of_mem _ hm)

theorem total_eq (ms : List EfiMemoryDescriptor) : total ms = (ms.flatMap described).length := by
  simp [total, List.length_flatMap, described, pages]

/-! ## Maps of physical memory -/

theorem mem_pages {m : EfiMemoryDescriptor} {x : U64} : x ∈ m.pages ↔
    ∃ i < m.numberOfPages.toNat, x = m.physicalStart + pageSize * BitVec.ofNat 64 i := by
  simp only [pages, List.mem_map, List.mem_range, eq_comm (a := x)]

theorem pages_nodup {m : EfiMemoryDescriptor} (h : m.limit ≤ 2 ^ 64) : m.pages.Nodup := by
  rw [limit] at h
  refine List.nodup_range.map_on fun i hi j hj he => ?_
  rw [List.mem_range] at hi hj
  have he := congrArg BitVec.toNat he
  rw [BitVec.toNat_add, BitVec.toNat_add, pageSize_mul_toNat (by omega),
    pageSize_mul_toNat (by omega)] at he
  omega

namespace MapOk

variable (hm : MapOk ms)

include hm

theorem nodup : (ms.flatMap pages).Nodup :=
  List.nodup_flatMap.2 ⟨fun m h => pages_nodup (hm.bounded m h), hm.disjoint⟩

/-- The pages of a segment that ends by `k` do. -/
theorem page_le {m : EfiMemoryDescriptor} (h : m ∈ ms) {k : ℕ} (hl : m.limit ≤ k) (hk : k < 2 ^ 64)
    {p : U64} (hp : p ∈ m.pages) : p.toNat % 4096 = 0 ∧ p.toNat + 4096 ≤ k := by
  obtain ⟨i, hi, rfl⟩ := mem_pages.1 hp
  have ha : m.physicalStart.toNat % 4096 = 0 := by
    rw [← pageOffset_toNat, hm.aligned m h]
    rfl
  rw [limit] at hl
  rw [BitVec.toNat_add, pageSize_mul_toNat (by omega)]
  omega

/-- There are no more pages than the address space has. -/
theorem total_le : total ms ≤ 2 ^ 52 := by
  have hlen : total ms = ((ms.flatMap pages).map fun x => x.toNat / 4096).length := by
    simp [total, List.length_flatMap, pages]
  have hmul : ∀ x ∈ ms.flatMap pages, x.toNat % 4096 = 0 := by
    intro x hx
    obtain ⟨m, hmm, hx⟩ := List.mem_flatMap.1 hx
    obtain ⟨i, -, rfl⟩ := mem_pages.1 hx
    have h0 : m.physicalStart.toNat % 4096 = 0 := by
      rw [← pageOffset_toNat, hm.aligned m hmm]
      rfl
    rw [BitVec.toNat_add, BitVec.toNat_mul, pageSize_toNat]
    omega
  have hnd : ((ms.flatMap pages).map fun x => x.toNat / 4096).Nodup := by
    refine hm.nodup.map_on fun x hx y hy he => BitVec.eq_of_toNat_eq ?_
    have := hmul x hx
    have := hmul y hy
    omega
  have hsub : ((ms.flatMap pages).map fun x => x.toNat / 4096) ⊆ List.range (2 ^ 52) := by
    intro k hk
    obtain ⟨x, -, rfl⟩ := List.mem_map.1 hk
    have := x.isLt
    rw [List.mem_range]
    omega
  have := (hnd.subperm hsub).length_le
  rw [List.length_range] at this
  omega

end MapOk

/-- The runtime pages are those described with the attribute. -/
theorem runtimePages_eq (ms : List EfiMemoryDescriptor) : runtimePages ms
      = ((ms.flatMap described).filter fun x => x.2.2 &&& efiMemoryRuntime ≠ 0).map Prod.fst := by
  induction ms with
  | nil => rfl
  | cons m ms ih =>
    rw [List.flatMap_cons, List.filter_append, List.map_append, ← ih]
    have hd : ∀ x ∈ m.described, x.2.2 = m.attributes := by
      intro x hx
      obtain ⟨page, -, rfl⟩ := List.mem_map.1 hx
      rfl
    by_cases h : m.attributes &&& efiMemoryRuntime = 0
    · have hf : m.described.filter (fun x => x.2.2 &&& efiMemoryRuntime ≠ 0) = [] :=
        List.filter_eq_nil_iff.2 fun x hx => by simpa [hd x hx] using h
      rw [hf, runtimePages, List.filter_cons_of_neg (by simpa using h)]
      rfl
    · have hf : m.described.filter (fun x => x.2.2 &&& efiMemoryRuntime ≠ 0) = m.described :=
        List.filter_eq_self.2 fun x hx => by simpa [hd x hx] using h
      have hp : m.described.map Prod.fst = m.pages := by simp [described, Function.comp_def]
      rw [hf, hp, runtimePages, List.filter_cons_of_pos (by simpa using h)]
      rfl

theorem described_pages (ms : List EfiMemoryDescriptor) :
    (ms.flatMap described).map Prod.fst = ms.flatMap pages := by
  rw [List.map_flatMap]
  refine congrArg (List.flatMap · ms) (funext fun m => ?_)
  rw [described, List.map_map]
  exact List.map_id _

theorem reclaimedMap_pages (ms : List EfiMemoryDescriptor) :
    (reclaimedMap ms).flatMap pages = ms.flatMap pages := by
  cases ms with
  | nil => rfl
  | cons first rest =>
    rw [reclaimedMap, List.flatMap_cons, List.flatMap_map]
    rfl

/-- Merging keeps the pages, in order. -/
theorem mergedMap_pages (hn : total ms < 2 ^ 64) :
    (mergedMap ms).flatMap pages = ms.flatMap pages := by
  rw [← described_pages, mergedMap_described hn, described_pages, reclaimedMap_pages]

theorem virtual_described (b next : U64) (m : EfiMemoryDescriptor) :
    (virtual b next m).1.described = m.described := by
  rw [virtual]
  split_ifs <;> rfl

theorem described_finalEntries (data : BootloaderData) (ms : List EfiMemoryDescriptor) :
    (finalEntries data ms).flatMap described = (mergedMap ms).flatMap described := by
  rw [List.flatMap_def, finalEntries, scanned_map (virtual_described _), ← List.flatMap_def]

theorem runtimePages_reclaimedMap (ms : List EfiMemoryDescriptor) :
    runtimePages (reclaimedMap ms) = runtimePages ms := by
  have hr : ∀ ms : List EfiMemoryDescriptor, runtimePages (ms.map reclaim) = runtimePages ms := by
    intro ms
    rw [runtimePages, List.filter_map, List.flatMap_map]
    rfl
  cases ms with
  | nil => rfl
  | cons first rest =>
    have hc : ∀ (m m' : EfiMemoryDescriptor) (ms ms' : List EfiMemoryDescriptor),
        runtimePages [m] = runtimePages [m'] → runtimePages ms = runtimePages ms' →
          runtimePages (m :: ms) = runtimePages (m' :: ms') := by
      intro m m' ms ms' h h'
      have hs : ∀ (m : EfiMemoryDescriptor) ms,
          runtimePages (m :: ms) = runtimePages [m] ++ runtimePages ms := by
        intro m ms
        rw [runtimePages, ← List.singleton_append, List.filter_append, List.flatMap_append]
        rfl
      rw [hs m, hs m', h, h']
    rw [reclaimedMap_cons]
    refine hc _ _ _ _ ?_ (hr rest)
    simp only [runtimePages, List.filter_cons, List.filter_nil]
    split_ifs <;> rfl

/-- The final entries describe the same runtime pages, in the same order. -/
theorem runtimePages_finalEntries (data : BootloaderData) (hn : total ms < 2 ^ 64) :
    runtimePages (finalEntries data ms) = runtimePages ms := by
  rw [runtimePages_eq, described_finalEntries, mergedMap_described hn, ← runtimePages_eq,
    runtimePages_reclaimedMap]

theorem runtimePages_nodup (hm : MapOk ms) : (runtimePages ms).Nodup :=
  hm.nodup.sublist (List.Sublist.flatMap List.filter_sublist _)

/-! ## The merge in place -/

/-- No entry of the final map continues the one before it. -/
theorem finalEntries_chain (data : BootloaderData) (ms : List EfiMemoryDescriptor) :
    (finalEntries data ms).IsChain fun m m' => ¬ Continues m m' := by
  have hv : ∀ next m, { (virtual data.paddrBase next m).1 with virtualStart := 0 }
      = { m with virtualStart := (0 : U64) } := by
    intro next m
    rw [virtual]
    split_ifs <;> rfl
  have hm : (mergedMap ms).IsChain fun m m' => ¬ Continues m m' := by
    rw [mergedMap]
    rcases reclaimedMap ms with _ | ⟨first, rest⟩
    · exact List.isChain_nil
    · refine merged_chain (fun q x y h => ?_) first rest
      simp only [Continues, extend]
  have hmap := scanned_map (d := fun m => { m with virtualStart := (0 : U64) }) hv data.mmioBase
    (mergedMap ms)
  have hi : ∀ xs : List EfiMemoryDescriptor, (xs.map fun m =>
      { m with virtualStart := (0 : U64) }).IsChain (fun m m' => ¬ Continues m m')
        ↔ xs.IsChain fun m m' => ¬ Continues m m' := fun xs => List.isChain_map _
  rw [finalEntries, ← hi, hmap, hi]
  exact hm

/-- What `init_mmap` returns counts the entries that the merging loop kept. -/
theorem initMmap_numEntries (h : initMmap data = .ok data') :
    data'.numEntries = BitVec.ofNat 64 (mergeLoop data (data.numEntries.toNat - 1)).newLength := by
  rw [initMmap] at h
  by_cases h0 : data.numEntries = 0
  · rw [if_pos h0] at h
    cases h
  · simp only [if_neg h0] at h
    split_ifs at h
    · cases h
    · exact Except.ok.inj h ▸ rfl

theorem length_mergedMap_le : (mergedMap ms).length ≤ ms.length := by
  rw [mergedMap]
  cases ms with
  | nil => exact le_rfl
  | cons first rest =>
    refine (length_merged_le _ _).trans ?_
    rw [List.length_map, List.length_cons]

/-- The merge leaves, in a prefix of the slots, entries that say of the same pages, in the same
order, what the firmware's map says with the types reclaimed; they have as many pages, and no two
neighbours could still be merged. A slot is read before it is written. -/
theorem init_mmap_merge (hn : data.numEntries.toNat ≤ data.memoryMap.length)
    (hl : ∀ m ∈ data.entries, m.limit < 2 ^ 64) (h : initMmap data = .ok data') :
    data'.numEntries.toNat ≤ data.numEntries.toNat
      ∧ data'.numEntries = BitVec.ofNat 64 (mergeLoop data (data.numEntries.toNat - 1)).newLength
      ∧ data'.entries.flatMap described = (reclaimedMap data.entries).flatMap described
      ∧ data'.entries.flatMap pages = data.entries.flatMap pages
      ∧ total data'.entries = total data.entries
      ∧ (data'.entries.IsChain fun m m' => ¬ Mergeable m m')
      ∧ ∀ i, 1 ≤ i → i < data.numEntries.toNat →
        (mergeLoop data (i - 1)).slots[i]? = data.memoryMap[i]? := by
  obtain ⟨⟨first, rest, he, hf⟩, hout, hlen, hd⟩ := initMmap_spec hn h
  have hdesc : data'.entries.flatMap described = (reclaimedMap data.entries).flatMap described := by
    rw [hout, described_finalEntries, mergedMap_described_of_limit hl]
  have hpages : data'.entries.flatMap pages = data.entries.flatMap pages := by
    rw [← described_pages, hdesc, described_pages, reclaimedMap_pages]
  have hcount : total data'.entries = total data.entries := by
    rw [total_eq, hdesc, ← total_eq, total_reclaimedMap]
  have hle : data'.numEntries.toNat ≤ data.numEntries.toNat := by
    rw [hlen]
    refine length_mergedMap_le.trans ?_
    rw [BootloaderData.entries, List.length_take]
    exact Nat.min_le_left _ _
  have hchain : data'.entries.IsChain fun m m' => ¬ Mergeable m m' := by
    rw [hout]
    exact (finalEntries_chain data _).imp fun m m' => mt (continues_iff m m').2
  refine ⟨hle, initMmap_numEntries h, hdesc, hpages, hcount, hchain, fun i hi hin => ?_⟩
  rcases hs : data.memoryMap with _ | ⟨m, slots⟩
  · rw [hs, List.length_nil] at hn
    omega
  have hk : i - 1 ≤ slots.length := by
    rw [hs, List.length_cons] at hn
    omega
  have hu := congrArg List.head? (mergeStep_unread reclaim Continues extend
    { m with type := .unusableMemory } slots hk)
  obtain ⟨k, rfl⟩ := Nat.exists_eq_add_of_le' hi
  rw [List.head?_drop, List.head?_drop] at hu
  rw [mergeLoop, hs, List.getElem!_cons_zero, List.set_cons_zero]
  exact hu

/-- A map of boot services memory, reclaimed, before free memory, and of the loader's. -/
def reclaimableMap : List EfiMemoryDescriptor :=
  [⟨.bootServicesCode, 0, 0, 1, 0⟩, ⟨.bootServicesData, 0x1000, 0, 1, 15⟩,
    ⟨.conventionalMemory, 0x2000, 0, 2, 15⟩, ⟨.loaderData, 0x4000, 0, 1, 15⟩]

/-- The slots that `init_mmap` leaves: the last is stale. -/
def reclaimableSlots : List EfiMemoryDescriptor :=
  [⟨.unusableMemory, 0, 0, 1, 0⟩, ⟨.conventionalMemory, 0x1000, 0, 3, 15⟩,
    ⟨.loaderData, 0x4000, 0, 1, 15⟩, ⟨.loaderData, 0x4000, 0, 1, 15⟩]

/-- The map in its buffer, and what is left of it. -/
def reclaimableData : BootloaderData :=
  { (default : BootloaderData) with memoryMap := reclaimableMap, numEntries := 4 }

def reclaimedData : BootloaderData :=
  { (default : BootloaderData) with memoryMap := reclaimableSlots, numEntries := 3 }

theorem init_mmap_merge_reclaimed : initMmap reclaimableData = .ok reclaimedData
    ∧ reclaimedData.entries.flatMap described = [(0, .unusableMemory, 0),
      (0x1000, .conventionalMemory, 15), (0x2000, .conventionalMemory, 15),
      (0x3000, .conventionalMemory, 15), (0x4000, .loaderData, 15)]
    ∧ reclaimedData.entries.IsChain fun m m' => ¬ Mergeable m m' := by
  obtain ⟨-, -, hdesc, -, -, hchain, -⟩ := init_mmap_merge
    (by decide : reclaimableData.numEntries.toNat ≤ _) (by decide +kernel)
    (rfl : initMmap reclaimableData = .ok reclaimedData)
  exact ⟨rfl, hdesc.trans (by decide +kernel), hchain⟩

/-! ## What the firmware is told -/

/-- When steps 5 to 7 finish, the array is what `init_mmap` made of the final map, and the size that
is passed is that of the preliminary map. -/
theorem efiMainMap_spec {sizeof numEntries : U64} {final : List EfiMemoryDescriptor}
    {args : VirtualAddressMap} (h0 : sizeof ≠ 0)
    (h : efiMainMap sizeof numEntries data final = .ok (args, data')) :
    NullPageFirst final ∧ data'.numEntries.toNat = runs final
      ∧ data'.entries = finalEntries data final
      ∧ data' = { data with memoryMap := data'.memoryMap, numEntries := data'.numEntries }
      ∧ args = ⟨numEntries * sizeof, sizeof, data'.memoryMap⟩ := by
  have hs : 0 < sizeof.toNat := Nat.pos_of_ne_zero fun h => h0 (BitVec.eq_of_toNat_eq h)
  rw [efiMainMap] at h
  split_ifs at h with hfit
  · cases h
  have hlen : (BitVec.ofNat 64 (final.length * sizeof.toNat) / sizeof).toNat = final.length := by
    rw [BitVec.toNat_udiv, BitVec.toNat_ofNat, Nat.mod_eq_of_lt (by omega),
      Nat.mul_div_cancel _ hs]
  have hent : (BootloaderData.entries { data with
      memoryMap := final ++ data.memoryMap.drop final.length
      numEntries := BitVec.ofNat 64 (final.length * sizeof.toNat) / sizeof }) = final := by
    rw [BootloaderData.entries, hlen, List.take_left]
  rcases hi : initMmap { data with
      memoryMap := final ++ data.memoryMap.drop final.length
      numEntries := BitVec.ofNat 64 (final.length * sizeof.toNat) / sizeof } with e | d
  · simp only [hi] at h
    cases h
  · simp only [hi] at h
    obtain ⟨rfl, rfl⟩ : (⟨numEntries * sizeof, sizeof, d.memoryMap⟩ : VirtualAddressMap) = args
      ∧ d = data' := by simpa using Except.ok.inj h
    obtain ⟨hf, he, hl, hd⟩ := initMmap_spec (by rw [hlen, List.length_append]; omega) hi
    rw [hent] at hf hl he
    exact ⟨hf, hl.trans length_mergedMap, he, hd, rfl⟩

/-- The firmware is told of exactly the final map when the preliminary map happened to have as
many entries as the final one has runs. -/
theorem tells_map_iff {sizeof numEntries : U64} {final : List EfiMemoryDescriptor}
    {args : VirtualAddressMap} (hf : MapOk final) (h0 : sizeof ≠ 0)
    (hn : numEntries.toNat * sizeof.toNat < 2 ^ 64)
    (h : efiMainMap sizeof numEntries data final = .ok (args, data')) :
    TellsMap args data' final ↔ numEntries.toNat = runs final := by
  have hs : 0 < sizeof.toNat := Nat.pos_of_ne_zero fun h => h0 (BitVec.eq_of_toNat_eq h)
  obtain ⟨-, hl, he, hd, rfl⟩ := efiMainMap_spec h0 h
  have hcount : (numEntries * sizeof).toNat / sizeof.toNat = numEntries.toNat := by
    rw [BitVec.toNat_mul, Nat.mod_eq_of_lt hn, Nat.mul_div_cancel _ hs]
  constructor
  · intro ht
    rw [← hl, ← ht.length]
    exact hcount.symm
  · intro hr
    have hpass : VirtualAddressMap.descriptors ⟨numEntries * sizeof, sizeof, data'.memoryMap⟩
        = data'.entries := by
      rw [VirtualAddressMap.descriptors, hcount, hr, ← hl]
      rfl
    refine ⟨by rw [hl, ← hr]; exact hcount, hpass, fun page hp => ?_⟩
    have htotal := hf.total_le
    rw [hpass, he, runtimePages_finalEntries data (by omega)]
    exact List.count_eq_one_of_mem (runtimePages_nodup hf) hp

/-- A map whose runtime segments are consecutive. -/
def twoPageMap : List EfiMemoryDescriptor :=
  [⟨.bootServicesCode, 0, 0, 1, 0⟩, ⟨.runtimeServicesData, 0x1000, 0, 1, efiMemoryRuntime⟩,
    ⟨.runtimeServicesData, 0x2000, 0, 1, efiMemoryRuntime⟩]

/-- The slots that `init_mmap` leaves: the third is stale. -/
def twoPageSlots : List EfiMemoryDescriptor :=
  [⟨.unusableMemory, 0, 0, 1, 0⟩, ⟨.runtimeServicesData, 0x1000, 0x1000, 2, efiMemoryRuntime⟩,
    ⟨.runtimeServicesData, 0x2000, 0, 1, efiMemoryRuntime⟩]

theorem twoPageMap_run (numEntries : U64) : efiMainMap 48 numEntries default twoPageMap
    = .ok (⟨numEntries * 48, 48, twoPageSlots⟩,
      { (default : BootloaderData) with memoryMap := twoPageSlots, numEntries := 2 }) := rfl

theorem twoPageMap_ok : MapOk twoPageMap where
  aligned := by decide +kernel
  bounded := by decide +kernel
  disjoint := by decide +kernel

/-- With two entries in the preliminary map, the firmware is told of the two that are left. -/
theorem tells_map_two : TellsMap ⟨2 * 48, 48, twoPageSlots⟩
    { (default : BootloaderData) with memoryMap := twoPageSlots, numEntries := 2 } twoPageMap :=
  (tells_map_iff twoPageMap_ok (by decide) (by decide) (twoPageMap_run 2)).2 (by decide)

/-- With three, it is told of the second page twice, once by a slot without a virtual address. -/
theorem tells_map_three : ∃ args data', efiMainMap 48 3 default twoPageMap = .ok (args, data')
    ∧ MapOk twoPageMap ∧ ¬ TellsMap args data' twoPageMap
    ∧ (runtimePages args.descriptors).count 0x2000 = 2
    ∧ (args.descriptors.drop 2).map virtualStart = [0] := by
  refine ⟨_, _, twoPageMap_run 3, twoPageMap_ok, fun h => ?_, by decide +kernel, by decide +kernel⟩
  exact absurd h.length (by decide)

end SctOs
