import SctOs.BootTables
import SctOs.Proofs.Mmap
import SctOs.Proofs.Ranges
import SctOs.Proofs.Window

/-!
# The boot page tables

The loops of `prepare_boot_page_tables` make one list of requests (`boot_run`), and on what the
loader can have their pages are all different (`BootOk.nodup`). So it finishes when the firmware
has pages for the tables, and they translate that layout and nothing else.
-/

namespace SctOs

open Bytes Radix Span

namespace Loader

variable {x : Boot} {s s' : Machine (List U64)} {fs free : List Frame} {root : Frame}

/-! ## The firmware's pages -/

theorem allocatePages_one (s : Machine (List U64)) (f : Frame) (pool : List U64)
    (h : s.pool = frameAddr f :: pool) :
    allocatePages 1 s = .ok (frameAddr f, ⟨fill s.mem (frameAddr f) 4096 0, pool⟩) := by
  obtain ⟨m, p⟩ := s
  subst h
  rfl

theorem allocatePages_empty (s : Machine (List U64)) (n : U64) (h : s.pool = []) :
    allocatePages n s = .error .allocatePages := by
  obtain ⟨m, p⟩ := s
  subst h
  rfl

/-- The loader's allocator of tables. -/
def allocator : Allocator (List U64) where
  base := 0
  allocate := allocatePages 1
  stop := .allocatePages
  Holds s fs := s.pool = fs.map frameAddr
  empty s h := allocatePages_empty s 1 h
  take s f fs h _ := by
    have h0 : (0 : U64) + frameAddr f = frameAddr f := BitVec.zero_add _
    rw [h0]
    exact ⟨fs.map frameAddr, allocatePages_one s f _ h, rfl⟩
  stable _ _ _ h _ := h

/-- The loader's tables of a list of requests. -/
abbrev mapList (root : Frame) (qs : List Request) : Run (List U64) Unit :=
  mapAll (fun p => allocator.base + p) allocator.allocate (allocator.base + frameAddr root) qs

theorem mapPage_eq (root : Frame) (p v fl : U64) : mapPage (frameAddr root) p v fl
    = mapPageWith (fun p => allocator.base + p) allocator.allocate
      (allocator.base + frameAddr root) p v fl := by
  have h0 : ∀ p : U64, allocator.base + p = p := BitVec.zero_add
  simp only [h0]
  rfl

/-! ## The loops as one list of requests -/

theorem mapRange_eq (root : Frame) (r : PageRange) :
    (List.range r.pages).forM (fun i => mapPage (frameAddr root) (r.ppage i) (r.vpage i) r.flags)
      = mapList root r.requests := by
  simp only [mapPage_eq]
  exact mapAll_range r

theorem mapDescriptors_eq (root : Frame) (ms : List EfiMemoryDescriptor) :
    ms.forM (mapDescriptor (frameAddr root)) = mapList root
      (((ms.filter fun m => m.type.IsLoader).map identityRange).flatMap PageRange.requests) := by
  refine mapAll_ranges (fun m hm => ?_) (fun m hm => if_pos (not_or.1 hm)) ms
  exact (if_neg (not_and_or.2 (hm.imp not_not.2 not_not.2))).trans
    (mapRange_eq root (identityRange m))

theorem mapSegments_eq (root : Frame) (phs : List Elf64Phdr) :
    phs.forM (mapSegment (frameAddr root)) = mapList root
      (((phs.filter fun ph => ph.pType = ptLoad).map Elf64Phdr.range).flatMap
        PageRange.requests) := by
  refine mapAll_ranges (fun ph hl => ?_) (fun ph hl => if_pos hl) phs
  exact (if_neg (not_not.2 hl)).trans (mapRange_eq root ph.range)

/-- On a supply of pages, `prepare_boot_page_tables` takes the first for the root and maps the rest
from there. -/
theorem boot_run (hs : s.pool = (root :: free).map frameAddr) :
    x.run s = (do
      mapList root (bootRequests x)
      return (frameAddr root, x.final) : Run (List U64) (U64 × BootloaderData))
        ⟨fill s.mem (frameAddr root) 4096 0, free.map frameAddr⟩ := by
  have hb : mapPage (frameAddr root) x.bootloaderData (x.windowed.paddrBase + x.bootloaderData) pteRw
      = mapList root (PageRange.requests
        ⟨x.bootloaderData, x.windowed.paddrBase + x.bootloaderData, 1, pteRw⟩) := by
    rw [← mapRange_eq]
    simp only [List.range_one, List.forM_eq_forM, List.forM_cons, List.forM_nil, vpage_zero,
      ppage_zero]
    exact (bind_pure _).symm
  have hf : (List.range x.data.nPages.toNat).forM (fun i =>
        mapPage (frameAddr root) (x.data.freeMemory + pageSize * BitVec.ofNat 64 i)
          (x.windowed.paddrBase + (x.data.freeMemory + pageSize * BitVec.ofNat 64 i)) pteRw)
      = mapList root (PageRange.requests ⟨x.data.freeMemory,
        x.windowed.paddrBase + x.data.freeMemory, x.data.nPages.toNat, pteRw⟩) := by
    simp only [← BitVec.add_assoc]
    exact mapRange_eq root ⟨_, x.windowed.paddrBase + x.data.freeMemory, _, _⟩
  have hq : bootRequests x
      = ((x.memoryMap.filter fun m => m.type.IsLoader).map identityRange).flatMap PageRange.requests
      ++ (PageRange.requests ⟨x.bootloaderData, x.windowed.paddrBase + x.bootloaderData, 1, pteRw⟩
      ++ (PageRange.requests ⟨x.data.freeMemory,
        x.windowed.paddrBase + x.data.freeMemory, x.data.nPages.toNat, pteRw⟩
      ++ (x.loads.map Elf64Phdr.range).flatMap PageRange.requests)) := by
    simp only [bootRequests, bootRanges, windowRanges, List.flatMap_append, List.flatMap_cons,
      List.flatMap_nil, List.append_nil, List.append_assoc]
  have ht : x.memoryMap.take x.numEntries.toNat = x.memoryMap := by
    rw [Boot.numEntries, BitVec.toNat_ofNat, Nat.mod_eq_of_lt x.fits, List.take_length]
  rw [hq]
  simp only [mapList, mapAll_append, ← hb, ← hf, ← mapDescriptors_eq, Boot.loads, ← mapSegments_eq,
    bind_assoc]
  rw [Boot.run, prepareBootPageTables, ht]
  simp only [bind_run, allocatePages_one s root _ hs]
  rfl

theorem boot_empty (hs : s.pool = []) : x.run s = .error .allocatePages := by
  rw [Boot.run, prepareBootPageTables]
  simp only [bind_run, allocatePages_empty s 1 hs]

/-- The machine with the root taken from the supply. -/
abbrev rooted (s : Machine (List U64)) (root : Frame) (free : List Frame) : Machine (List U64) :=
  ⟨fill s.mem (frameAddr root) 4096 0, free.map frameAddr⟩

theorem rooted_models (s : Machine (List U64)) (hnd : (root :: free).Nodup) :
    Models allocator (rooted s root free) ⟨heapOf 0 (rooted s root free).mem, free⟩
      ∧ Sound links 3 root ⟨heapOf 0 (rooted s root free).mem, free⟩
      ∧ heapOf 0 (rooted s root free).mem root = fun _ => none := by
  refine models_fresh (A := allocator) (s := rooted s root free) ?_ rfl hnd
  have h0 : allocator.base + frameAddr root = frameAddr root := BitVec.zero_add _
  rw [h0]
  exact sameAt_fill _ _ _ (by norm_num)

/-- The entries of the boot tables: those of the requests. -/
structure BootSpace (x : Boot) (root : Frame) (s s' : Machine (List U64))
    (st' : Store Frame Index U64) (fs : List Frame) : Prop where
  models : Models allocator s' st'
  sound : Sound links 3 root st'
  only : OnlyPages 0 (· ∈ fs) s.mem s'.mem
  below : ∀ f, Below links st'.heap 3 root f → f ∈ fs
  value : ∀ p, p.length = 3 + 1 → ∀ e, lookup links st'.heap root p = some e ↔
    ∃ q ∈ bootRequests x, path q.vpage = p ∧ e = q.entry

theorem physical_zero (m : Memory) : physical 0 m = m := by
  funext p
  exact congrArg m (BitVec.zero_add p)

section BootSpace

variable {m : Memory} {st : Store Frame Index U64} (hb : BootSpace x root s s' st fs)
  (hm : ∀ f ∈ fs, SameAt m s'.mem (frameAddr f) 4096)

include hb hm

theorem BootSpace.heap_eq {f : Frame} (hf : Below links st.heap 3 root f) :
    heapOf 0 m f = st.heap f := by
  have h0 : (0 : U64) + frameAddr f = frameAddr f := BitVec.zero_add _
  rw [← hb.models.heap]
  refine heapOf_congr ?_
  change SameAt m s'.mem (0 + frameAddr f) 4096
  rw [h0]
  exact hm f (hb.below f hf)

/-- The tables lead to the requested pages as long as they are not written to. -/
theorem BootSpace.walk {q : Request} (hq : q ∈ bootRequests x) {v : U64} (hv : Canonical v)
    (hp : path q.vpage = path v) :
    SctOs.walk m (frameAddr root) v = some (mappingOf v q.entry) := by
  have htree := (tree_congr fun f hf => hb.heap_eq hm hf).2 hb.sound.tree
  have hwalk := walk_eq htree hv
  rw [lookup_congr le_rfl fun f hf => hb.heap_eq hm hf, (hb.value _ rfl _).2 ⟨q, hq, hp, rfl⟩,
    physical_zero] at hwalk
  exact hwalk

theorem BootSpace.walk_none {v : U64} (hp : ∀ q ∈ bootRequests x, path q.vpage ≠ path v) :
    SctOs.walk m (frameAddr root) v = none := by
  by_cases hv : Canonical v
  · have htree := (tree_congr fun f hf => hb.heap_eq hm hf).2 hb.sound.tree
    have hwalk := walk_eq htree hv
    rw [lookup_congr le_rfl fun f hf => hb.heap_eq hm hf, physical_zero] at hwalk
    rcases hl : lookup links st.heap root (path v) with - | e
    · rw [hwalk, hl]
      rfl
    · obtain ⟨q, hq, he, -⟩ := (hb.value _ rfl e).1 hl
      exact absurd he (hp q hq)
  · exact walk_noncanonical hv

end BootSpace

theorem boot_spec {a : U64} {d : BootloaderData} (hs : s.pool = fs.map frameAddr) (hnd : fs.Nodup)
    (h : x.run s = .ok ((a, d), s')) : ∃ root free st', fs = root :: free ∧ a = frameAddr root
      ∧ d = x.final ∧ mapList root (bootRequests x) (rooted s root free) = .ok ((), s')
      ∧ BootSpace x root s s' st' fs := by
  cases fs with
  | nil =>
    rw [boot_empty hs] at h
    cases h
  | cons root free =>
    rw [boot_run hs, bind_run] at h
    rcases h₁ : mapList root (bootRequests x) (rooted s root free) with e | ⟨⟨⟩, s₁⟩
    · rw [h₁] at h
      cases h
    rw [h₁] at h
    simp only [pure_run, Except.ok.injEq, Prod.mk.injEq] at h
    obtain ⟨⟨rfl, rfl⟩, rfl⟩ := h
    obtain ⟨hm, hsd, he⟩ := rooted_models s hnd
    obtain ⟨st', hm', hs', ⟨u, hg⟩, ho, hv⟩ := mapAll_models hm hsd h₁
    refine ⟨root, free, st', rfl, rfl, rfl, h₁, hm', hs', ?_, fun f hf => ?_, fun p hp e => ?_⟩
    · have h0 : (0 : U64) + frameAddr root = frameAddr root := BitVec.zero_add _
      have hf := onlyPages_fill 0 s.mem root
      rw [h0] at hf
      refine hf.trans ho ?_ fun _ hf => Used.fresh he hf
      rintro f rfl
      exact List.mem_cons_self
    · rcases (hg.2.1 f).1 hf with hf | hf
      · rw [(below_empty he).1 hf]
        exact List.mem_cons_self
      · have hfree : free = u ++ st'.free := hg.1
        rw [hfree]
        exact List.mem_cons_of_mem _ (List.mem_append_left _ hf)
    · rw [hv p hp, lookup_empty he]
      simp only [reduceCtorEq, Prod.mk.injEq, false_or, eq_comm (a := e)]

/-- When the loops finish, the pages have different paths. -/
theorem boot_paths (hnd : (root :: free).Nodup)
    (hl : mapList root (bootRequests x) (rooted s root free) = .ok ((), s')) :
    (((bootRequests x).map Request.vpage).map path).Nodup := by
  obtain ⟨hm, hsd, he⟩ := rooted_models s hnd
  exact ((mapAll_ok_iff _ hm hsd he).1 ⟨s', hl⟩).1

/-- It finishes when its pages have different paths and the firmware has pages for the tables. -/
theorem boot_ok (hs : s.pool = fs.map frameAddr) (hnd : fs.Nodup)
    (hp : (((bootRequests x).map Request.vpage).map path).Nodup)
    (hfree : tablesNeeded ((bootRequests x).map Request.vpage) < fs.length) :
    ∃ a s', x.run s = .ok ((a, x.final), s') := by
  cases fs with
  | nil => simp at hfree
  | cons root free =>
    obtain ⟨hm, hsd, he⟩ := rooted_models s hnd
    obtain ⟨s', h'⟩ := (mapAll_ok_iff _ hm hsd he).2 ⟨hp, Nat.lt_succ_iff.1 hfree⟩
    refine ⟨frameAddr root, s', ?_⟩
    have h' : mapList root (bootRequests x) (rooted s root free) = .ok ((), s') := h'
    rw [boot_run hs, bind_run, h']
    rfl

/-- Pages with different paths can only run out of tables. -/
theorem boot_error {e : Stop} (hs : s.pool = fs.map frameAddr) (hnd : fs.Nodup)
    (hp : (((bootRequests x).map Request.vpage).map path).Nodup) (h : x.run s = .error e) :
    e = .allocatePages := by
  cases fs with
  | nil =>
    rw [boot_empty hs] at h
    exact (Except.error.inj h).symm
  | cons root free =>
    obtain ⟨hm, hsd, he⟩ := rooted_models s hnd
    rw [boot_run hs, bind_run] at h
    rcases h₁ : mapList root (bootRequests x) (rooted s root free) with f | ⟨⟨⟩, s₁⟩
    · rw [h₁] at h
      obtain rfl := Except.error.inj h
      exact mapAll_error hm hsd he hp h₁
    · rw [h₁] at h
      cases h

/-! ## Layouts -/

theorem Boot.numEntries_toNat (x : Boot) : x.numEntries.toNat = x.memoryMap.length := by
  rw [numEntries, BitVec.toNat_ofNat, Nat.mod_eq_of_lt x.fits]

theorem mem_bootRanges {r : PageRange} : r ∈ bootRanges x ↔
    (∃ m ∈ x.memoryMap, m.type.IsLoader ∧ r = identityRange m) ∨ r ∈ windowRanges x
      ∨ ∃ ph ∈ x.loads, r = ph.range := by
  simp only [bootRanges, List.mem_append, List.mem_map, List.mem_filter, decide_eq_true_iff,
    and_assoc, eq_comm (a := r)]

theorem identity_page {m : EfiMemoryDescriptor} {p : U64} :
    p ∈ m.pages ↔ ∃ i < (identityRange m).pages, p = (identityRange m).vpage i := mem_pages

namespace BootOk

variable (h : BootOk x)

include h

theorem paddrBase_toNat :
    x.windowed.paddrBase.toNat + x.windowed.paddrSize.toNat = kernelBase.toNat := by
  have hs := h.small
  have hb : x.windowed.paddrBase = kernelBase - x.windowed.paddrSize := rfl
  rw [hb, BitVec.toNat_sub, kernelBase_toNat]
  omega

/-- The pages of Loader segments are below the end of the window. -/
theorem loader_page {m : EfiMemoryDescriptor} (hm : m ∈ x.memoryMap) (ht : m.type.IsLoader)
    {p : U64} (hp : p ∈ m.pages) :
    p.toNat % 4096 = 0 ∧ p.toNat + 4096 ≤ x.windowed.paddrSize.toNat :=
  h.map.page_le hm (h.loader m hm ht) x.windowed.paddrSize.isLt hp

/-- A range in the window maps pages of `LoaderData` segments, each to its address there. -/
theorem window_page {r : PageRange} (hr : r ∈ windowRanges x) {i : ℕ} (hi : i < r.pages) :
    r.vpage i = x.windowed.paddrBase + r.ppage i ∧ r.flags = pteRw
      ∧ InLoaderData x.memoryMap (r.ppage i) := by
  simp only [windowRanges, List.mem_cons, List.not_mem_nil, or_false] at hr
  rcases hr with rfl | rfl
  · obtain rfl : i = 0 := by simpa using hi
    rw [vpage_zero, ppage_zero]
    exact ⟨rfl, rfl, h.bootloaderData⟩
  · exact ⟨BitVec.add_assoc _ _ _, rfl, h.freeMemory i hi⟩

theorem identity_vpage {m : EfiMemoryDescriptor} (hm : m ∈ x.memoryMap) (ht : m.type.IsLoader)
    {i : ℕ} (hi : i < (identityRange m).pages) :
    ((identityRange m).vpage i).toNat % 4096 = 0 ∧ ((identityRange m).vpage i).toNat < 2 ^ 46 := by
  have hp := h.loader_page hm ht (identity_page.2 ⟨i, hi, rfl⟩)
  have hs := h.small
  omega

/-- A page of a `LoaderData` segment, seen through the window, lies there. -/
theorem window_addr {p : U64} (hp : InLoaderData x.memoryMap p) :
    (x.windowed.paddrBase + p).toNat % 4096 = 0
      ∧ 2 ^ 64 - 2 ^ 47 ≤ (x.windowed.paddrBase + p).toNat
      ∧ (x.windowed.paddrBase + p).toNat < kernelBase.toNat := by
  obtain ⟨m, hm, ht, hp⟩ := hp
  obtain ⟨h0, hle⟩ := h.loader_page hm (Or.inr ht) hp
  have hb := h.paddrBase_toNat
  have hs := h.small
  have ha := setWindow_aligned x.data x.numEntries_toNat h.map.aligned
  change x.windowed.paddrSize.toNat % 4096 = 0 at ha
  rw [kernelBase_toNat] at hb ⊢
  rw [BitVec.toNat_add]
  omega

theorem window_vpage {r : PageRange} (hr : r ∈ windowRanges x) {i : ℕ} (hi : i < r.pages) :
    (r.vpage i).toNat % 4096 = 0 ∧ 2 ^ 64 - 2 ^ 47 ≤ (r.vpage i).toNat
      ∧ (r.vpage i).toNat < kernelBase.toNat := by
  obtain ⟨hv, -, hp⟩ := h.window_page hr hi
  rw [hv]
  exact h.window_addr hp

theorem segment_vpage {ph : Elf64Phdr} (hph : ph ∈ x.loads) {i : ℕ} (hi : i < ph.range.pages) :
    (ph.range.vpage i).toNat % 4096 = 0 ∧ kernelBase.toNat ≤ (ph.range.vpage i).toNat := by
  obtain ⟨hv, hl, -⟩ := vpage_toNat (h.segments.within hph) hi
  have h0 : ph.range.vaddr.toNat = ph.pVaddr.toNat / 4096 * 4096 := pageBase_toNat _
  omega

theorem vpage_ok {r : PageRange} (hr : r ∈ bootRanges x) {i : ℕ} (hi : i < r.pages) :
    pageOffset (r.vpage i) = 0 ∧ Canonical (r.vpage i) := by
  have hok : (r.vpage i).toNat % 4096 = 0
      ∧ ((r.vpage i).toNat < 2 ^ 47 ∨ 2 ^ 64 - 2 ^ 47 ≤ (r.vpage i).toNat) := by
    have hk := kernelBase_toNat
    rcases mem_bootRanges.1 hr with ⟨m, hm, ht, rfl⟩ | hw | ⟨ph, hph, rfl⟩
    · have := h.identity_vpage hm ht hi
      omega
    · have := h.window_vpage hw hi
      omega
    · have := h.segment_vpage hph hi
      omega
  refine ⟨BitVec.eq_of_toNat_eq ?_, hok.2⟩
  rw [pageOffset_toNat, hok.1]
  rfl

theorem disjoint : (bootRanges x).Pairwise PageRange.Disjoint := by
  have hk := kernelBase_toNat
  refine List.pairwise_append.2 ⟨List.pairwise_map.2 ?_, List.pairwise_append.2 ⟨?_,
    List.pairwise_map.2 ?_, ?_⟩, ?_⟩
  · refine (h.map.disjoint.sublist List.filter_sublist).imp fun {m m'} hd i hi j hj he => ?_
    exact hd (identity_page.2 ⟨i, hi, rfl⟩) (identity_page.2 ⟨j, hj, he⟩)
  · simp only [windowRanges, List.pairwise_cons, List.forall_mem_cons, List.not_mem_nil,
      false_imp_iff, implies_true, and_true, List.Pairwise.nil]
    intro i hi j hj he
    obtain rfl : i = 0 := by simpa using hi
    have h0 := h.apart j hj
    rw [vpage_zero, PageRange.vpage] at he
    rw [Boot.freePage] at h0
    grind
  · refine h.segments.disjoint.imp_of_mem fun {ph ph'} hph hph' hd i hi j hj he => ?_
    obtain ⟨k, hk, he₁⟩ := (h.segments.touches hph).1 ⟨i, hi, rfl⟩
    obtain ⟨l, hl, he₂⟩ := (h.segments.touches hph').1 ⟨j, hj, rfl⟩
    exact hd k hk l hl (he₁ ▸ he₂ ▸ he)
  · intro r hr r' hr' i hi j hj he
    obtain ⟨ph, hph, rfl⟩ := List.mem_map.1 hr'
    have h₁ := h.window_vpage hr hi
    have h₂ := h.segment_vpage hph hj
    rw [he] at h₁
    omega
  · intro r hr r' hr' i hi j hj he
    obtain ⟨m, hm, rfl⟩ := List.mem_map.1 hr
    rw [List.mem_filter, decide_eq_true_iff] at hm
    have h₁ := h.identity_vpage hm.1 hm.2 hi
    rw [he] at h₁
    rcases List.mem_append.1 hr' with hw | hs
    · have h₂ := h.window_vpage hw hj
      omega
    · obtain ⟨ph, hph, rfl⟩ := List.mem_map.1 hs
      have h₂ := h.segment_vpage hph hj
      omega

theorem nodup : (((bootRequests x).map Request.vpage).map path).Nodup :=
  ranges_nodup (fun _ hr _ hi => (h.vpage_ok hr hi).1) (fun _ hr _ hi => (h.vpage_ok hr hi).2)
    h.disjoint

theorem ppage_frame {r : PageRange} (hr : r ∈ bootRanges x) {i : ℕ} (hi : i < r.pages) :
    ∃ f, r.ppage i = frameAddr f := by
  rcases mem_bootRanges.1 hr with ⟨m, hm, ht, rfl⟩ | hw | ⟨ph, hph, rfl⟩
  · have hv := h.identity_vpage hm ht hi
    exact exists_frame hv.1 (lt_trans hv.2 (by norm_num))
  · obtain ⟨-, -, m, hm, ht, hp⟩ := h.window_page hw hi
    have hp := h.loader_page hm (Or.inr ht) hp
    have hs := h.small
    exact exists_frame hp.1 (by omega)
  · have hp := h.physical ph hph
    have h0 := pageBase_toNat ph.pPaddr
    have hv : (ph.range.ppage i).toNat = (pageBase ph.pPaddr).toNat + 4096 * i := by
      have hr : ph.range.ppage i = pageBase ph.pPaddr + pageSize * BitVec.ofNat 64 i := rfl
      rw [hr, BitVec.toNat_add, pageSize_mul_toNat (by omega)]
      omega
    exact exists_frame (by omega) (by omega)

omit h in
theorem flags_cases {r : PageRange} (hr : r ∈ bootRanges x) : r.flags = 0 ∨ r.flags = pteRw := by
  rcases mem_bootRanges.1 hr with ⟨m, -, -, rfl⟩ | hw | ⟨ph, -, rfl⟩
  · rw [identityRange]
    split_ifs
    · exact Or.inr rfl
    · exact Or.inl rfl
  · simp only [windowRanges, List.mem_cons, List.not_mem_nil, or_false] at hw
    rcases hw with rfl | rfl <;> exact Or.inr rfl
  · rw [Elf64Phdr.range]
    split_ifs
    · exact Or.inr rfl
    · exact Or.inl rfl

theorem bootMaps_of_range {r : PageRange} (hr : r ∈ bootRanges x) {i : ℕ} (hi : i < r.pages) :
    ∃ W, BootMaps x (r.vpage i) (r.ppage i) W ∧ (W ↔ r.flags = pteRw) := by
  rcases mem_bootRanges.1 hr with ⟨m, hm, ht, rfl⟩ | hw | ⟨ph, hph, rfl⟩
  · refine ⟨_, .identity m _ hm ht (identity_page.2 ⟨i, hi, rfl⟩), ?_⟩
    rw [identityRange]
    split_ifs with hd
    · exact iff_of_true hd rfl
    · exact iff_of_false hd (show (0 : U64) ≠ pteRw by decide)
  · refine ⟨True, ?_, iff_of_true trivial (h.window_page hw hi).2.1⟩
    rw [(h.window_page hw hi).1]
    simp only [windowRanges, List.mem_cons, List.not_mem_nil, or_false] at hw
    rcases hw with rfl | rfl
    · obtain rfl : i = 0 := by simpa using hi
      rw [ppage_zero]
      exact .bootloaderData
    · exact .freeMemory i hi
  · obtain ⟨j, hj, he⟩ := (h.segments.touches hph).1 ⟨i, hi, rfl⟩
    refine ⟨_, ?_, (range_flags ph).symm⟩
    have hs := BootMaps.segment (x := x) ph j hph hj
    rwa [he, ppage_of_vpage he.symm]

theorem range_of_bootMaps {v p : U64} {W : Prop} (hb : BootMaps x v p W) :
    ∃ r ∈ bootRanges x, ∃ i < r.pages, v = r.vpage i ∧ p = r.ppage i ∧ (W ↔ r.flags = pteRw) := by
  cases hb with
  | identity m page hm ht hp =>
    obtain ⟨i, hi, rfl⟩ := identity_page.1 hp
    refine ⟨_, mem_bootRanges.2 (Or.inl ⟨m, hm, ht, rfl⟩), i, hi, rfl, rfl, ?_⟩
    rw [identityRange]
    split_ifs with hd
    · exact iff_of_true hd rfl
    · exact iff_of_false hd (show (0 : U64) ≠ pteRw by decide)
  | bootloaderData =>
    refine ⟨_, mem_bootRanges.2 (Or.inr (Or.inl (List.mem_cons_self ..))), 0, Nat.one_pos, ?_⟩
    rw [vpage_zero, ppage_zero]
    exact ⟨rfl, rfl, iff_of_true trivial rfl⟩
  | freeMemory i hi =>
    exact ⟨_, mem_bootRanges.2 (Or.inr (Or.inl (List.mem_cons_of_mem _ (List.mem_cons_self ..)))), i,
      hi, (BitVec.add_assoc _ _ _).symm, rfl, iff_of_true trivial rfl⟩
  | segment ph i hph hi =>
    obtain ⟨j, hj, he⟩ := (h.segments.touches hph).2 ⟨i, hi, rfl⟩
    exact ⟨_, mem_bootRanges.2 (Or.inr (Or.inr ⟨ph, hph, rfl⟩)), j, hj, he,
      (ppage_of_vpage he).symm, (range_flags ph).symm⟩

end BootOk

/-- The tables made from the requests translate the layout and nothing else. -/
theorem BootOk.translate (h : BootOk x) (hnd : (root :: free).Nodup)
    (hl : mapList root (bootRequests x) (rooted s root free) = .ok ((), s')) (v p : U64) (w : Bool) :
    walk s'.mem (frameAddr root) v = some ⟨p, w⟩ ↔
      ∃ q W, BootMaps x (pageBase v) q W ∧ p = q + pageOffset v ∧ (w = true ↔ W) := by
  obtain ⟨hm, hsd, he⟩ := rooted_models s hnd
  have ht := mapRanges_translate hm hsd he (fun _ hr _ hi => (h.vpage_ok hr hi).1)
    (fun _ hr _ hi => (h.vpage_ok hr hi).2) (fun _ hr _ hi => h.ppage_frame hr hi)
    (fun _ hr => BootOk.flags_cases hr) hl v p w
  change walk (SctOs.physical 0 s'.mem) _ _ = _ ↔ _ at ht
  rw [physical_zero] at ht
  rw [ht]
  constructor
  · rintro ⟨r, hr, i, hi, hb, hp, hw⟩
    obtain ⟨W, hW, hf⟩ := h.bootMaps_of_range hr hi
    exact ⟨_, W, hb ▸ hW, hp, hw.trans hf.symm⟩
  · rintro ⟨q, W, hW, rfl, hw⟩
    obtain ⟨r, hr, i, hi, hb, rfl, hf⟩ := h.range_of_bootMaps hW
    exact ⟨r, hr, i, hi, hb, rfl, hw.trans hf⟩

/-- On what the loader can have, `prepare_boot_page_tables` never maps a page twice; with enough
pages from the firmware it finishes, and its tables translate that layout and nothing else. -/
theorem boot_page_tables_layout (h : BootOk x) (hs : s.pool = fs.map frameAddr) (hnd : fs.Nodup) :
    x.run s ≠ .error .remap
      ∧ (tablesNeeded ((bootRequests x).map Request.vpage) < fs.length →
        ∃ root s', root ∈ fs ∧ x.run s = .ok ((frameAddr root, x.final), s')
          ∧ OnlyPages 0 (· ∈ fs) s.mem s'.mem
          ∧ ∀ v p w, walk s'.mem (frameAddr root) v = some ⟨p, w⟩ ↔
            ∃ q W, BootMaps x (pageBase v) q W ∧ p = q + pageOffset v ∧ (w = true ↔ W)) := by
  refine ⟨fun he => ?_, fun hfree => ?_⟩
  · cases boot_error hs hnd h.nodup he
  obtain ⟨a, s', hrun⟩ := boot_ok hs hnd h.nodup hfree
  obtain ⟨root, free, st', rfl, rfl, -, hl, hb⟩ := boot_spec hs hnd hrun
  exact ⟨root, s', List.mem_cons_self, hrun, hb.only, h.translate hnd hl⟩

/-- A machine with a page of loader code and twelve of loader data. -/
def smallBoot : Boot where
  memoryMap := [⟨.bootServicesCode, 0, 0, 1, 0⟩, ⟨.loaderCode, 0x1000, 0, 1, 0⟩,
    ⟨.loaderData, 0x2000, 0, 12, 0⟩, ⟨.conventionalMemory, 0xe000, 0, 2, 0⟩,
    ⟨.memoryMappedIo, 0xfec00000, 0, 1, efiMemoryRuntime⟩]
  fits := by decide
  bootloaderData := 0x2000
  data := { (default : BootloaderData) with freeMemory := 0x4000, nPages := 10 }
  ePhnum := 2
  phdrs := [⟨ptLoad, pfW, 0, 0xffffffffc0000ff8, 0xeff8, 16, 16, 8⟩,
    ⟨ptGnuRelro, 0, 0, 0xffffffffc0000ff8, 0xeff8, 8, 8, 8⟩]

theorem smallBoot_ok : BootOk smallBoot where
  map := ⟨by decide +kernel, by decide +kernel, by decide +kernel⟩
  small := by decide
  loader := by decide +kernel
  bootloaderData := by decide +kernel
  freeMemory := by decide +kernel
  apart := by decide +kernel
  segments := ⟨by decide +kernel, by decide +kernel, by decide +kernel⟩
  physical := by decide +kernel

/-- `bootloader_data` is seen through the window. -/
theorem boot_page_tables_layout_small : ∃ root s', root ∈ framesFrom 16 9
    ∧ smallBoot.run ⟨fun _ => 0, (framesFrom 16 9).map frameAddr⟩
      = .ok ((frameAddr root, smallBoot.final), s')
    ∧ walk s'.mem (frameAddr root) 0xffffffffbfff2005 = some ⟨0x2005, true⟩ := by
  obtain ⟨root, s', hr, hrun, -, ht⟩ := (boot_page_tables_layout smallBoot_ok
    (s := ⟨fun _ => 0, (framesFrom 16 9).map frameAddr⟩) rfl (by decide)).2 (by decide +kernel)
  exact ⟨root, s', hr, hrun, (ht _ _ _).2 ⟨0x2000, _, .bootloaderData, rfl, iff_of_true rfl trivial⟩⟩

end Loader

end SctOs
