import SctOs.FreeList
import SctOs.Proofs.Walk

/-!
# Allocating from the free list

The list is determined by its head, so it has no page twice (`FreeList.nodup`), and it depends on
its own pages only (`FreeList.congr`). Taking a page for a table is taking the next frame of the
pool (`allocator`). Whatever is allocated, freed and written, the list stays that of the free pages
(`reached_free_list`).
-/

namespace SctOs

namespace Kernel

open Bytes Radix

variable {base : U64}

namespace FreePages

theorem unique {m : Memory} : ∀ {ps qs : List U64} {head : U64},
    FreePages m head ps → FreePages m head qs → ps = qs
  | [], [], _, _, _ => rfl
  | [], _ :: _, _, h, h' => absurd (h'.1.symm.trans h) h'.2.1
  | _ :: _, [], _, h, h' => absurd (h.1.symm.trans h') h.2.1
  | p :: ps, q :: qs, _, h, h' => by
    obtain rfl : p = q := h.1.symm.trans h'.1
    rw [h.2.2.unique h'.2.2]

theorem tail_of_mem {m : Memory} : ∀ {ps : List U64} {head p : U64}, FreePages m head ps → p ∈ ps →
    ∃ qs, qs.length < ps.length ∧ FreePages m p (p :: qs)
  | q :: ps, head, p, h, hp => by
    rcases List.mem_cons.1 hp with rfl | hp
    · exact ⟨ps, by simp, rfl, h.2⟩
    · obtain ⟨qs, hl, hq⟩ := h.2.2.tail_of_mem hp
      exact ⟨qs, by simp only [List.length_cons]; omega, hq⟩

theorem nodup {m : Memory} : ∀ {ps : List U64} {head : U64}, FreePages m head ps → ps.Nodup
  | [], _, _ => List.nodup_nil
  | p :: ps, head, h => by
    refine List.nodup_cons.2 ⟨fun hp => ?_, h.2.2.nodup⟩
    obtain ⟨qs, hl, hq⟩ := h.2.2.tail_of_mem hp
    obtain rfl := h.1
    have := congrArg List.length (h.unique hq)
    simp only [List.length_cons] at this
    omega

theorem congr {m m' : Memory} : ∀ {ps : List U64} {head : U64},
    (∀ p ∈ ps, SameAt m' m p 8) → FreePages m head ps → FreePages m' head ps
  | [], _, _, h => h
  | p :: ps, head, hs, h => by
    refine ⟨h.1, h.2.1, ?_⟩
    rw [load_congr (hs p List.mem_cons_self)]
    exact h.2.2.congr fun q hq => hs q (List.mem_cons_of_mem _ hq)

end FreePages

theorem freeList_iff {m : Memory} : ∀ {fs : List Frame} {head : U64},
    FreeList base m head fs ↔ FreePages m head (fs.map (base + frameAddr ·))
  | [], _ => Iff.rfl
  | f :: fs, head => by
    rw [FreeList, List.map_cons, FreePages, ← freeList_iff]
    constructor <;> rintro ⟨rfl, h⟩ <;> exact ⟨rfl, h⟩

theorem FreeList.nodup {m : Memory} {fs : List Frame} {head : U64} (h : FreeList base m head fs) :
    fs.Nodup := (freeList_iff.1 h).nodup.of_map

theorem FreeList.congr {m m' : Memory} {fs : List Frame} {head : U64}
    (hs : ∀ f ∈ fs, SameAt m' m (base + frameAddr f) 4096) (h : FreeList base m head fs) :
    FreeList base m' head fs :=
  freeList_iff.2 <| (freeList_iff.1 h).congr <| List.forall_mem_map.2 fun f hf =>
    (hs f hf).mono (by norm_num)

section Allocate

variable (data : BootloaderData) (s : Machine U64)

theorem allocate_empty (flags : BitVec 32) (h : s.pool = 0) :
    allocatePhysicalPage data flags s = .error .noFreePage := by
  unfold allocatePhysicalPage
  simp only [bind_run]
  change (if s.pool = 0 then _ else _ : Run U64 U64) s = _
  rw [ite_run, if_pos h]
  rfl

theorem allocate_run (flags : BitVec 32) (h : s.pool ≠ 0) :
    allocatePhysicalPage data flags s
      = .ok (if appImplied flags &&& appFlat ≠ 0 then s.pool - data.paddrBase else s.pool,
          ⟨if appImplied flags &&& appZero ≠ 0 then fill s.mem s.pool 4096 0 else s.mem,
            load s.mem s.pool⟩) := by
  unfold allocatePhysicalPage
  simp only [bind_run]
  change (if s.pool = 0 then _ else _ : Run U64 U64) s = _
  rw [ite_run, if_neg h]
  simp only [ite_run, bind_run]
  split_ifs <;> rfl

theorem allocate_pte (h : s.pool ≠ 0) :
    allocatePhysicalPage data appPte s
      = .ok (s.pool - data.paddrBase, ⟨fill s.mem s.pool 4096 0, load s.mem s.pool⟩) :=
  allocate_run data s appPte h

/-- Taking the first page zeroed, by its address in the window. -/
theorem allocate_zero (h : s.pool ≠ 0) :
    allocatePhysicalPage data appZero s
      = .ok (s.pool, ⟨fill s.mem s.pool 4096 0, load s.mem s.pool⟩) :=
  allocate_run data s appZero h

theorem allocate_normal (h : s.pool ≠ 0) :
    allocatePhysicalPage data appNormal s = .ok (s.pool, ⟨s.mem, load s.mem s.pool⟩) :=
  allocate_run data s appNormal h

end Allocate

theorem FreeList.take {m : Memory} {head : U64} {f : Frame} {fs : List Frame}
    (h : FreeList base m head (f :: fs)) :
    FreeList base (fill m head 4096 0) (load m head) fs := by
  refine h.2.2.congr fun g hg => sameAt_blit ?_
  rw [h.1]
  refine page_apart ?_
  rintro rfl
  exact (List.nodup_cons.1 h.nodup).1 hg

theorem FreeList.free {m : Memory} {head : U64} {f : Frame} {fs : List Frame}
    (h : FreeList base m head fs) (hf : f ∉ fs) (h0 : base + frameAddr f ≠ 0) :
    FreeList base (store m (base + frameAddr f) head) (base + frameAddr f) (f :: fs) := by
  refine ⟨rfl, h0, ?_⟩
  rw [load_store]
  refine h.congr fun g hg => sameAt_blit ?_
  have hne : g ≠ f := by rintro rfl; exact hf hg
  exact fun j hj => le_trans (by omega) (page_apart hne j hj)

/-- Freeing distinct pages puts them on the list, the last one first. -/
theorem freePhysicalPages_spec : ∀ {fs : List Frame} (gs : List Frame) (s : Machine U64),
    FreeList base s.mem s.pool gs → (fs.reverse ++ gs).Nodup →
    0 ∉ fs.map (base + frameAddr ·) →
    ∃ s', (fs.map (base + frameAddr ·)).forM freePhysicalPage s = .ok ((), s')
      ∧ FreeList base s'.mem s'.pool (fs.reverse ++ gs)
      ∧ OnlyPages base (· ∈ fs) s.mem s'.mem
  | [], gs, s, h, _, _ => ⟨s, rfl, h, fun _ _ => rfl⟩
  | f :: fs, gs, s, h, hnd, h0 => by
    rw [List.reverse_cons, List.append_assoc, List.singleton_append] at hnd ⊢
    have hf : f ∉ gs := (List.nodup_cons.1 (List.nodup_append.1 hnd).2.1).1
    rw [List.map_cons, List.mem_cons, not_or] at h0
    have h₁ := h.free hf (Ne.symm h0.1)
    obtain ⟨s', h', hl, ho⟩ := freePhysicalPages_spec _
      ⟨store s.mem (base + frameAddr f) s.pool, base + frameAddr f⟩ h₁ hnd h0.2
    refine ⟨s', ?_, hl, ?_⟩
    · rw [List.map_cons, forM_cons_run]
      exact h'
    · have hs := onlyPages_store base s.mem f 0 s.pool
      rw [slot_eq] at hs
      simp only [BitVec.toNat_zero, Nat.mul_zero, BitVec.ofNat_eq_ofNat] at hs
      exact OnlyPages.trans (by simpa using hs) ho (fun g hg => by simp [hg])
        fun g hg => List.mem_cons_of_mem _ hg

/-- The root outside the freed pages of a memory of zeros is fresh. -/
theorem freed_fresh (fs : List Frame) {root : Frame} (hnd : (root :: fs).Nodup)
    (h0 : 0 ∉ fs.map (base + frameAddr ·)) : Fresh base root fs.reverse (freed base fs) := by
  obtain ⟨hr, hnd⟩ := List.nodup_cons.1 hnd
  obtain ⟨s', h', hl, ho⟩ := freePhysicalPages_spec [] ⟨fun _ => 0, 0⟩ rfl (by simpa using hnd) h0
  have hrun : ∀ (fs : List Frame) (s : Machine U64),
      (fs.map (base + frameAddr ·)).forM freePhysicalPage s = .ok ((), fs.foldl
        (fun s f => ⟨store s.mem (base + frameAddr f) s.pool, base + frameAddr f⟩) s) := by
    intro fs
    induction fs with
    | nil => exact fun _ => rfl
    | cons f fs ih =>
      intro s
      rw [List.map_cons, forM_cons_run]
      exact ih _
  rw [hrun, Except.ok.injEq, Prod.mk.injEq] at h'
  obtain ⟨-, rfl⟩ := h'
  rw [List.append_nil] at hl
  exact ⟨hl, by simpa using hr, ho.sameAt hr⟩

/-- The kernel starts with its free memory on the list, less the page of its stack. -/
theorem kernelMain_spec {data : BootloaderData} {f : Frame} {s : Machine U64} {n : ℕ}
    (hn : data.nPages.toNat = n + 1) (hf : data.freeMemory = data.paddrBase + frameAddr f)
    (hle : f.toNat + (n + 1) ≤ 2 ^ 36) (hs : s.pool = 0)
    (h0 : 0 ∉ (framesFrom f (n + 1)).map (data.paddrBase + frameAddr ·)) :
    ∃ s', kernelMain data s = .ok (data.freeMemory + pageSize * BitVec.ofNat 64 n, s')
      ∧ FreeList data.paddrBase s'.mem s'.pool (framesFrom f n).reverse
      ∧ OnlyPages data.paddrBase (· ∈ framesFrom f (n + 1)) s.mem s'.mem := by
  obtain ⟨s', h', hl, ho⟩ := freePhysicalPages_spec [] s hs
    (by simpa using framesFrom_nodup hle) h0
  have hpage : ∀ i ≤ n, data.freeMemory + pageSize * BitVec.ofNat 64 i
      = data.paddrBase + frameAddr (f + BitVec.ofNat 36 i) := fun i hi => by
    rw [hf, frameAddr_add (by omega), BitVec.add_assoc]
  have hmap : (List.range (n + 1)).map (fun i => data.freeMemory + pageSize * BitVec.ofNat 64 i)
      = (framesFrom f (n + 1)).map (data.paddrBase + frameAddr ·) := by
    rw [framesFrom, List.map_map]
    refine List.map_congr_left fun i hi => ?_
    rw [List.mem_range] at hi
    exact hpage i (by omega)
  have hrun : (List.range (n + 1)).forM (fun i =>
      freePhysicalPage (data.freeMemory + pageSize * BitVec.ofNat 64 i)) s = .ok ((), s') := by
    rw [← h', ← hmap, List.forM_eq_forM, List.forM_eq_forM, List.forM_map]
  rw [List.append_nil, framesFrom, List.range_succ, List.map_append, List.reverse_append] at hl
  refine ⟨⟨s'.mem, load s'.mem s'.pool⟩, ?_, hl.2.2, ho⟩
  rw [hpage n le_rfl, ← hl.1]
  unfold kernelMain
  simp only [bind_run, hn, hrun, allocate_normal data s' hl.2.1, ite_run, if_neg hl.2.1, pure_run]

/-! ## Runs of the allocator -/

theorem aligned_apart {p q : U64} (hp : pageOffset p = 0) (hq : pageOffset q = 0) (h : q ≠ p) :
    Apart p 4096 q 4096 := by
  have hp := congrArg BitVec.toNat hp
  have hq := congrArg BitVec.toNat hq
  rw [pageOffset_toNat, BitVec.ofNat_eq_ofNat, BitVec.toNat_ofNat] at hp hq
  have hne : q.toNat ≠ p.toNat := fun he => h (BitVec.eq_of_toNat_eq he)
  have hd : (q - p).toNat = (2 ^ 64 - p.toNat + q.toNat) % 2 ^ 64 := BitVec.toNat_sub q p
  refine apart_of_sub ?_ ?_ <;> omega

section FreePages

variable {m : Memory} {head p : U64} {ps : List U64}

theorem FreePages.take (h : FreePages m head (p :: ps)) (ha : ∀ q ∈ p :: ps, pageOffset q = 0)
    (c : Prop) [Decidable c] :
    FreePages (if c then fill m p 4096 0 else m) (load m p) ps := by
  obtain ⟨-, -, ht⟩ := id h
  split_ifs
  · refine ht.congr fun q hq => (sameAt_blit (aligned_apart (ha p List.mem_cons_self)
      (ha q (List.mem_cons_of_mem _ hq)) ?_)).mono (by norm_num)
    rintro rfl
    exact (List.nodup_cons.1 h.nodup).1 hq
  · exact ht

theorem FreePages.free (h : FreePages m head ps) (ha : ∀ q ∈ p :: ps, pageOffset q = 0)
    (h0 : p ≠ 0) (hp : p ∉ ps) : FreePages (store m p head) p (p :: ps) := by
  refine ⟨rfl, h0, ?_⟩
  rw [load_store]
  refine h.congr fun q hq => sameAt_blit fun j hj => ?_
  have hne : q ≠ p := by rintro rfl; exact hp hq
  have := aligned_apart (ha p List.mem_cons_self) (ha q (List.mem_cons_of_mem _ hq)) hne j (by omega)
  omega

/-- A byte outside the free pages is in none of the links. -/
theorem FreePages.write (h : FreePages m head ps) (ha : ∀ q ∈ ps, pageOffset q = 0) {a : U64}
    (hp : pageBase a ∉ ps) (b : BitVec 8) : FreePages (Function.update m a b) head ps := by
  refine h.congr fun q hq i hi => Function.update_of_ne ?_ _ _
  rintro rfl
  have hq0 := congrArg BitVec.toNat (ha q hq)
  rw [pageOffset_toNat] at hq0
  rw [(page_split hq0 (by omega)).1] at hp
  exact hp hq

end FreePages

section Reached

variable {data : BootloaderData} {s : Machine U64} {free used : Finset U64}

/-- The flag `APP_PTE` implies the other two. -/
theorem appImplied_and {flag : BitVec 32} (hf : flag = appZero ∨ flag = appFlat)
    (flags : BitVec 32) : appImplied flags &&& flag ≠ 0 ↔ flags &&& (flag ||| appPte) ≠ 0 := by
  have hi : (appZero ||| appFlat) &&& flag ≠ 0 := by rcases hf with rfl | rfl <;> decide
  have h0 : ∀ x y : BitVec 32, x ||| y = 0 ↔ x = 0 ∧ y = 0 := fun _ _ => BitVec.or_eq_zero_iff
  rw [BitVec.and_or_distrib_left, Ne, Ne, h0, appImplied]
  split_ifs with hp
  · rw [BitVec.and_or_distrib_right, h0]
    exact ⟨fun _ h => hp h.2, fun _ h => hi h.2⟩
  · rw [not_not] at hp
    exact not_congr (and_iff_left hp).symm

/-- What holds of a run: the list is that of the free pages, and those are not allocated. -/
structure Listed (s : Machine U64) (free used : Finset U64) (ps : List U64) : Prop where
  list : FreePages s.mem s.pool ps
  aligned : ∀ p ∈ ps, pageOffset p = 0
  mem : ps.toFinset = free
  apart : Disjoint free used

variable (data) in
/-- What `allocate_physical_page` does with any flags. -/
theorem Listed.allocate {p : U64} {ps : List U64} (h : Listed s free used (p :: ps))
    (flags : BitVec 32) : ∃ result s', allocatePhysicalPage data flags s = .ok (result, s')
      ∧ result = (if flags &&& (appFlat ||| appPte) ≠ 0 then p - data.paddrBase else p)
      ∧ pageOf data flags result = p
      ∧ (flags &&& (appZero ||| appPte) ≠ 0 → SameAt s'.mem (fun _ => 0) p 4096)
      ∧ Listed s' (free.erase p) (insert p used) ps := by
  have hp : s.pool = p := h.list.1
  have hpn : p ∉ ps := (List.nodup_cons.1 h.list.nodup).1
  have hrun := allocate_run data s flags (hp.trans_ne h.list.2.1)
  simp only [appImplied_and (Or.inl rfl), appImplied_and (Or.inr rfl), hp] at hrun
  refine ⟨_, _, hrun, rfl, ?_, fun hz => ?_, h.list.take h.aligned _,
    fun q hq => h.aligned q (List.mem_cons_of_mem _ hq), ?_, ?_⟩
  · rw [pageOf]
    split_ifs
    · grind
    · rfl
  · simp only [if_pos hz]
    exact sameAt_fill _ _ _ (by norm_num)
  · rw [← h.mem, List.toFinset_cons, Finset.erase_insert (by simpa using hpn)]
  · rw [Finset.disjoint_insert_right]
    exact ⟨Finset.notMem_erase p free, h.apart.mono_left (Finset.erase_subset p free)⟩

theorem Reached.listed (h : Reached data s free used) : ∃ ps, Listed s free used ps := by
  induction h with
  | start m => exact ⟨[], rfl, by simp, rfl, Finset.disjoint_empty_left _⟩
  | @free s s' free used page h h0 ha hp hs ih =>
    obtain ⟨ps, hl⟩ := ih
    have hal : ∀ q ∈ page :: ps, pageOffset q = 0 := List.forall_mem_cons.2 ⟨ha, hl.aligned⟩
    have hpn : page ∉ ps := by rwa [← hl.mem, List.mem_toFinset] at hp
    obtain rfl : _ = s' := congrArg Prod.snd (Except.ok.inj hs)
    refine ⟨page :: ps, hl.list.free hal h0 hpn, hal, ?_, ?_⟩
    · rw [List.toFinset_cons, hl.mem]
    · rw [Finset.disjoint_insert_left]
      exact ⟨Finset.notMem_erase page used, hl.apart.mono_right (Finset.erase_subset page used)⟩
  | @allocate s s' free used flags result h hs ih =>
    obtain ⟨ps, hl⟩ := ih
    cases ps with
    | nil =>
      rw [allocate_empty data s flags hl.list] at hs
      cases hs
    | cons p ps =>
      obtain ⟨result', s'', hrun, -, hpage, -, hl'⟩ := hl.allocate data flags
      obtain ⟨rfl, rfl⟩ : result' = result ∧ s'' = s' := by simpa [hrun] using hs
      exact ⟨ps, hpage ▸ hl'⟩
  | @write s free used a b h ha ih =>
    obtain ⟨ps, hl⟩ := ih
    refine ⟨ps, hl.list.write hl.aligned ?_ b, hl.aligned, hl.mem, hl.apart⟩
    rwa [← hl.mem, List.mem_toFinset] at ha

/-- After every run the list is finite and has the free pages, each once; they are not allocated.
`allocate_physical_page` stops when there are none, and otherwise takes one of them, zeroed and by
its physical address if the flags say so. -/
theorem reached_free_list (h : Reached data s free used) :
    (∃ ps, FreePages s.mem s.pool ps ∧ ps.Nodup ∧ ∀ p, p ∈ ps ↔ p ∈ free)
      ∧ Disjoint free used
      ∧ (∀ flags, (∃ e, allocatePhysicalPage data flags s = .error e) ↔ free = ∅)
      ∧ ∀ flags result s', allocatePhysicalPage data flags s = .ok (result, s') →
        ∃ page ∈ free, page ∉ used
          ∧ result = (if flags &&& (appFlat ||| appPte) ≠ 0 then page - data.paddrBase else page)
          ∧ (flags &&& (appZero ||| appPte) ≠ 0 → SameAt s'.mem (fun _ => 0) page 4096)
          ∧ Reached data s' (free.erase page) (insert page used) := by
  obtain ⟨ps, hl⟩ := h.listed
  refine ⟨⟨ps, hl.list, hl.list.nodup, fun p => ?_⟩, hl.apart, fun flags => ?_, ?_⟩
  · rw [← hl.mem, List.mem_toFinset]
  · cases ps with
    | nil => exact iff_of_true ⟨_, allocate_empty data s flags hl.list⟩ hl.mem.symm
    | cons p ps =>
      obtain ⟨result, s', hrun, -⟩ := hl.allocate data flags
      refine iff_of_false (by simp [hrun]) ?_
      rw [← hl.mem]
      simp
  · intro flags result s' hs
    cases ps with
    | nil =>
      rw [allocate_empty data s flags hl.list] at hs
      cases hs
    | cons p ps =>
      obtain ⟨result', s'', hrun, hr, hpage, hz, hl'⟩ := hl.allocate data flags
      obtain ⟨rfl, rfl⟩ : result' = result ∧ s'' = s' := by simpa [hrun] using hs
      have hp : p ∈ free := by simp [← hl.mem]
      exact ⟨p, hp, Finset.disjoint_left.1 hl.apart hp, hr, hz, hpage ▸ h.allocate hs⟩

def highWindow : BootloaderData :=
  { (default : BootloaderData) with paddrBase := 0xffffffff00000000 }

def highPage (f : Frame) : U64 := highWindow.paddrBase + frameAddr f

/-- Three pages were freed, the last one was taken for a table, and its user wrote to it. -/
def tableTaken : Machine U64 :=
  ⟨Function.update (fill (freed highWindow.paddrBase [3, 5, 7]).mem (highPage 7) 4096 0)
    (highPage 7 + 16) 0xff, highPage 5⟩

theorem tableTaken_reached : Reached highWindow tableTaken {highPage 5, highPage 3} {highPage 7} := by
  have hfreed : Reached highWindow (freed highWindow.paddrBase [3, 5, 7])
      {highPage 7, highPage 5, highPage 3} ∅ :=
    .free (.free (.free (.start fun _ => 0) (by decide) (by decide) (by decide) rfl) (by decide)
      (by decide) (by decide) rfl) (by decide) (by decide) (by decide) rfl
  have hpool : load (freed highWindow.paddrBase [3, 5, 7]).mem (highPage 7) = highPage 5 :=
    load_store ..
  have htaken := hfreed.allocate (allocate_pte highWindow _ (by decide))
  have hpage : pageOf highWindow appPte
      ((freed highWindow.paddrBase [3, 5, 7]).pool - highWindow.paddrBase) = highPage 7 := by decide
  rw [hpage] at htaken
  have hwritten := htaken.write (a := highPage 7 + 16) 0xff (by decide)
  have hleft : ({highPage 7, highPage 5, highPage 3} : Finset U64).erase (highPage 7)
      = {highPage 5, highPage 3} := by decide
  rw [hleft] at hwritten
  rw [tableTaken, ← hpool]
  exact hwritten

theorem reached_free_list_taken :
    (∃ ps, FreePages tableTaken.mem tableTaken.pool ps ∧ ps.Nodup
      ∧ ∀ p, p ∈ ps ↔ p ∈ ({highPage 5, highPage 3} : Finset U64))
    ∧ ∀ result s', allocatePhysicalPage highWindow appZero tableTaken = .ok (result, s') →
      ∃ page ∈ ({highPage 5, highPage 3} : Finset U64), result = page
        ∧ SameAt s'.mem (fun _ => 0) page 4096 := by
  obtain ⟨hps, -, -, htake⟩ := reached_free_list tableTaken_reached
  refine ⟨hps, fun result s' h => ?_⟩
  obtain ⟨page, hpage, -, hresult, hzero, -⟩ := htake appZero result s' h
  exact ⟨page, hpage, hresult, hzero (by decide)⟩

end Reached

/-- The kernel's allocator of tables. -/
def allocator (data : BootloaderData) : Allocator U64 where
  base := data.paddrBase
  allocate := allocatePhysicalPage data appPte
  stop := .noFreePage
  Holds s fs := FreeList data.paddrBase s.mem s.pool fs
  empty s h := allocate_empty data s appPte h
  take s f fs h _ := by
    have ht := h.take
    refine ⟨load s.mem s.pool, ?_, ?_⟩
    · rw [allocate_pte data s h.2.1, h.1]
      have : data.paddrBase + frameAddr f - data.paddrBase = frameAddr f := by grind
      rw [this]
    · rwa [h.1] at ht ⊢
  stable s fs m h hm := h.congr hm

end Kernel

end SctOs
