import SctOs.AddressSpace
import SctOs.Proofs.KernelPaging
import SctOs.Proofs.Ranges

/-!
# A new address space

The loops of `new_address_space` make one list of requests (`newAddressSpace_eq`), so it succeeds
when their pages are different, the tables can be had and the RELRO pages are mapped
(`newAddressSpace_ok`), and then its entries are those of the requests, the RELRO ones read only
(`newAddressSpace_spec`). On a layout that the tables can express it translates that layout.
-/

namespace SctOs

namespace Kernel

open Bytes Radix

variable {g : Globals} {data : BootloaderData} {root : Frame} {s s' : Machine U64}
  {st st' : Store Frame Index U64}

/-! ## The loops as one list of requests -/

/-- The kernel's tables of a list of requests. -/
abbrev mapList (data : BootloaderData) (addressSpace : U64) (qs : List Request) : Run U64 Unit :=
  mapAll (fun p => data.paddrBase + p) (allocatePhysicalPage data appPte) addressSpace qs

theorem mapRange_eq (data : BootloaderData) (r p v n fl : U64) :
    mapRange data r p v n fl = mapList data r (PageRange.requests ⟨p, v, n.toNat, fl⟩) :=
  mapAll_range ⟨p, v, n.toNat, fl⟩

theorem mapDescriptors_eq (data : BootloaderData) (r : U64) (ms : List EfiMemoryDescriptor) :
    ms.forM (mapDescriptor data r)
      = mapList data r (((ms.filter fun m => m.attributes &&& efiMemoryRuntime ≠ 0).map
          descriptorRange).flatMap PageRange.requests) := by
  refine mapAll_ranges (fun m hm => ?_) (fun m hm => if_pos (not_not.1 hm)) ms
  exact (if_neg hm).trans (mapRange_eq ..)

theorem mapSegments_eq (data : BootloaderData) (r : U64) (phs : List Elf64Phdr)
    (relro : Option Elf64Phdr) : phs.foldlM (mapSegment data r) relro = (do
      mapList data r (((phs.filter fun ph => ph.pType = ptLoad).map
        Elf64Phdr.range).flatMap PageRange.requests)
      return ((phs.filter fun ph => ph.pType = ptGnuRelro).getLast?).or relro) := by
  let f (ph : Elf64Phdr) : Run U64 Unit :=
    if ph.pType ≠ ptLoad then pure () else mapList data r ph.range.requests
  have hf : mapSegment data r = fun relro ph => do
      f ph
      return if ph.pType = ptGnuRelro then some ph else relro := by
    funext relro ph
    simp only [mapSegment, mapRange_eq, f]
    by_cases hl : ph.pType = ptLoad
    · rw [if_neg (not_not.2 hl), if_neg (not_not.2 hl)]
      rfl
    · rw [if_pos hl, if_pos hl]
      rfl
  rw [hf, foldlM_note]
  exact congrArg (· >>= _) (mapAll_ranges (fun ph hl => if_neg (not_not.2 hl))
    (fun ph hl => if_pos hl) phs)

theorem protectRelro_eq (data : BootloaderData) (r : U64) :
    protectRelro data r data.relro = (relroPages data).forM (setVpageRo data r) := by
  rw [relroPages]
  cases data.relro with
  | none => rfl
  | some phdr => rw [protectRelro, List.forM_eq_forM, List.forM_eq_forM, List.forM_map]

/-- The loops of `new_address_space` make one list of requests. -/
theorem newAddressSpace_eq (g : Globals) : newAddressSpace g = (do
    let r ← allocatePhysicalPage g.data appZero
    if r = 0 then throw .noMem
    mapList g.data r (spaceRequests g)
    (relroPages g.data).forM (setVpageRo g.data r)
    return r) := by
  have hq : spaceRequests g = PageRange.requests
        ⟨g.bootloaderData - g.data.paddrBase, g.bootloaderData, (1 : U64).toNat, pteRw⟩
      ++ (PageRange.requests ⟨g.data.freeMemory - g.data.paddrBase, g.data.freeMemory,
        g.data.nPages.toNat, pteRw⟩
      ++ (PageRange.requests ⟨g.apicPaddr, g.apicVaddr, (1 : U64).toNat, pteRw⟩
      ++ ((g.data.runtimeEntries.map descriptorRange).flatMap PageRange.requests
      ++ (g.data.loads.map Elf64Phdr.range).flatMap PageRange.requests))) := by
    simp only [spaceRequests, spaceRanges, dataRanges, List.flatMap_append, List.flatMap_cons,
      List.flatMap_nil, List.append_nil, List.append_assoc]
    rfl
  simp only [newAddressSpace, hq, mapAll_append, mapRange_eq, mapDescriptors_eq, mapSegments_eq,
    ← protectRelro_eq, bind_assoc, pure_bind, Option.or_none]
  rfl

/-! ## Protecting pages -/

/-- What protecting some pages does: it clears the write bit of all of them, or one is missing. -/
theorem protectPages_run : ∀ (vs : List U64) {s : Machine U64} {st : Store Frame Index U64},
    Paged data root s st →
    (∃ s' st', vs.forM (setVpageRo data (data.paddrBase + frameAddr root)) s = .ok ((), s')
      ∧ Paged data root s' st' ∧ st'.free = st.free
      ∧ OnlyPages data.paddrBase (Used 3 root st) s.mem s'.mem
      ∧ (∀ x ∈ vs, (lookup links st.heap root (path x)).isSome)
      ∧ ∀ p, p.length = 3 + 1 → lookup links st'.heap root p
        = if p ∈ vs.map path then (lookup links st.heap root p).map (· &&& ~~~pteRw)
          else lookup links st.heap root p)
    ∨ (vs.forM (setVpageRo data (data.paddrBase + frameAddr root)) s = .error .notMapped
      ∧ ∃ x ∈ vs, lookup links st.heap root (path x) = none)
  | [], s, st, hp => Or.inl ⟨s, st, rfl, hp, rfl, OnlyPages.refl _ _ _, by simp, by simp⟩
  | v :: vs, s, st, hp => by
    have hlen : (path v).length = 3 + 1 := rfl
    have ho := setVpageRo_refines hp.models hp.sound v
    rw [forM_cons_run]
    rcases ha : amend links st root (· &&& ~~~pteRw) (path v) with e | st₁ <;> rw [ha] at ho
    · have hv : setVpageRo data (data.paddrBase + frameAddr root) v s = .error .notMapped := ho
      exact Or.inr ⟨by rw [hv], v, List.mem_cons_self, ((amend_error_iff hlen).1 ha).2⟩
    · obtain ⟨s₁, h₁, hm₁, ho₁⟩ := ho
      have hi := amend_spec hp.sound hlen ha
      have hfree : st₁.free = st.free := hi.grown.1.symm
      have hsome : (lookup links st.heap root (path v)).isSome := by
        rw [Option.isSome_iff_ne_none]
        intro hn
        rw [(amend_error_iff hlen).2 ⟨rfl, hn⟩] at ha
        cases ha
      have hkeep : ∀ x, (lookup links st₁.heap root (path x)).isSome
          = (lookup links st.heap root (path x)).isSome := by
        intro x
        rw [hi.value _ rfl]
        split_ifs with h
        · rw [h, Option.isSome_map]
        · rfl
      simp only [h₁]
      rcases protectPages_run vs ⟨hm₁, hi.sound⟩ with
        ⟨s', st', h', hp', hf', ho', hall, hl⟩ | ⟨he, x, hx, hn⟩
      · refine Or.inl ⟨s', st', h', hp', hf'.trans hfree,
          ho₁.trans ho' (fun _ h => h) fun _ h => Used.grown hi.grown h, ?_, fun p hp => ?_⟩
        · rintro x hx
          rcases List.mem_cons.1 hx with rfl | hx
          · exact hsome
          · exact hkeep x ▸ hall x hx
        · rw [hl p hp, hi.value p hp]
          simp only [List.map_cons, List.mem_cons]
          by_cases h1 : p = path v
          · subst h1
            simp only [true_or, if_true]
            split_ifs
            · simp [Option.map_map, Function.comp_def, BitVec.and_assoc]
            · rfl
          · simp only [h1, false_or, if_false]
      · refine Or.inr ⟨he, x, List.mem_cons_of_mem _ hx, ?_⟩
        rw [← Option.isNone_iff_eq_none, ← Option.not_isSome, ← hkeep, hn]
        rfl

/-! ## The new space -/

/-- On a free list, `new_address_space` takes the first page for the root, and maps and protects the
rest from there. -/
theorem newAddressSpace_run {free : List Frame}
    (hl : FreeList g.data.paddrBase s.mem s.pool (root :: free)) :
    ∃ s₁, Fresh g.data.paddrBase root free s₁
      ∧ OnlyPages g.data.paddrBase (· = root) s.mem s₁.mem
      ∧ newAddressSpace g s = (do
          mapList g.data (g.data.paddrBase + frameAddr root) (spaceRequests g)
          (relroPages g.data).forM (setVpageRo g.data (g.data.paddrBase + frameAddr root))
          return g.data.paddrBase + frameAddr root : Run U64 U64) s₁ := by
  have ha : s.pool = g.data.paddrBase + frameAddr root := hl.1
  have h0 : g.data.paddrBase + frameAddr root ≠ 0 := ha ▸ hl.2.1
  refine ⟨⟨fill s.mem s.pool 4096 0, load s.mem s.pool⟩,
    ⟨hl.take, (List.nodup_cons.1 hl.nodup).1, ?_⟩, ?_, ?_⟩
  · rw [ha]
    exact sameAt_fill _ _ _ (by norm_num)
  · rw [ha]
    exact onlyPages_fill _ _ _
  · rw [newAddressSpace_eq, bind_run, allocate_zero g.data s hl.2.1, ha]
    simp only [bind_run, ite_run, if_neg h0]

theorem newAddressSpace_empty (hl : FreeList g.data.paddrBase s.mem s.pool []) :
    newAddressSpace g s = .error .noFreePage := by
  rw [newAddressSpace_eq, bind_run, allocate_empty g.data s appZero hl]

/-- The entries of a new space: those of the requests, and read only at the RELRO pages. -/
structure NewSpace (g : Globals) (root : Frame) (s s' : Machine U64)
    (st' : Store Frame Index U64) (fs : List Frame) : Prop where
  paged : Paged g.data root s' st'
  free : st'.free <:+ fs
  only : OnlyPages g.data.paddrBase (· ∈ fs) s.mem s'.mem
  paths : (((spaceRequests g).map Request.vpage).map path).Nodup
  value : ∀ p, p.length = 3 + 1 → ∀ e, lookup links st'.heap root p = some e ↔
    ∃ q ∈ spaceRequests g, path q.vpage = p
      ∧ e = if p ∈ (relroPages g.data).map path then q.entry &&& ~~~pteRw else q.entry

theorem newAddressSpace_spec {a : U64} {fs : List Frame}
    (hl : FreeList g.data.paddrBase s.mem s.pool fs) (h : newAddressSpace g s = .ok (a, s')) :
    ∃ root st', root ∈ fs ∧ a = g.data.paddrBase + frameAddr root
      ∧ NewSpace g root s s' st' fs := by
  cases fs with
  | nil =>
    rw [newAddressSpace_empty hl] at h
    cases h
  | cons root free =>
    obtain ⟨s₁, hf, ho₁, hrun⟩ := newAddressSpace_run hl
    obtain ⟨hp₁, he⟩ := hf.paged
    rw [hrun, bind_run] at h
    rcases h₂ : mapList g.data (g.data.paddrBase + frameAddr root) (spaceRequests g) s₁ with
      e | ⟨⟨⟩, s₂⟩
    · rw [h₂] at h
      cases h
    rw [h₂] at h
    simp only [bind_run] at h
    obtain ⟨st₂, hm₂, hs₂, ⟨u, hg⟩, ho₂, hv₂⟩ := mapAll_models hp₁.models hp₁.sound h₂
    obtain ⟨hnd, -⟩ := (mapAll_ok_iff _ hp₁.models hp₁.sound he).1 ⟨s₂, h₂⟩
    rcases protectPages_run (relroPages g.data) ⟨hm₂, hs₂⟩ with
      ⟨s₃, st₃, h₃, hp₃, hfree, ho₃, -, hv₃⟩ | ⟨h₃, -⟩
    · rw [h₃] at h
      simp only [pure_run, Except.ok.injEq, Prod.mk.injEq] at h
      obtain ⟨rfl, rfl⟩ := h
      refine ⟨root, st₃, List.mem_cons_self, rfl, hp₃, ?_, ?_, hnd, fun p hp e => ?_⟩
      · rw [hfree]
        exact List.IsSuffix.trans ⟨u, hg.1.symm⟩ (List.suffix_cons _ _)
      · refine ho₁.trans (ho₂.trans ho₃ (fun _ hf => Used.fresh he hf)
          fun _ hf => Used.fresh he (Used.grown hg hf)) ?_ fun _ hf => hf
        rintro f rfl
        exact List.mem_cons_self
      · rw [hv₃ p hp]
        have hval : ∀ e, lookup links st₂.heap root p = some e ↔
            ∃ q ∈ spaceRequests g, path q.vpage = p ∧ e = q.entry := by
          intro e
          rw [hv₂ p hp, lookup_empty he]
          simp only [reduceCtorEq, Prod.mk.injEq, false_or, eq_comm (a := e)]
        split_ifs
        · rw [Option.map_eq_some_iff]
          simp only [hval]
          constructor
          · rintro ⟨_, ⟨q, hq, hqp, rfl⟩, rfl⟩
            exact ⟨q, hq, hqp, rfl⟩
          · rintro ⟨q, hq, hqp, rfl⟩
            exact ⟨_, ⟨q, hq, hqp, rfl⟩, rfl⟩
        · exact hval e
    · rw [h₃] at h
      cases h

/-- When `new_address_space` finishes: the pages have different paths, the free list holds their
tables and the root, and the RELRO pages are mapped. -/
theorem newAddressSpace_ok {fs : List Frame} (hl : FreeList g.data.paddrBase s.mem s.pool fs)
    (hnd : (((spaceRequests g).map Request.vpage).map path).Nodup)
    (hfree : tablesNeeded ((spaceRequests g).map Request.vpage) < fs.length)
    (hrelro : ∀ x ∈ relroPages g.data, ∃ q ∈ spaceRequests g, path q.vpage = path x) :
    ∃ a s', newAddressSpace g s = .ok (a, s') := by
  cases fs with
  | nil => simp at hfree
  | cons root free =>
    obtain ⟨s₁, hf, -, hrun⟩ := newAddressSpace_run hl
    obtain ⟨hp₁, he⟩ := hf.paged
    obtain ⟨s₂, h₂⟩ := (mapAll_ok_iff _ hp₁.models hp₁.sound he).2 ⟨hnd, Nat.lt_succ_iff.1 hfree⟩
    obtain ⟨st₂, hm₂, hs₂, -, -, hv₂⟩ := mapAll_models hp₁.models hp₁.sound h₂
    have h₂ : mapList g.data (g.data.paddrBase + frameAddr root) (spaceRequests g) s₁
      = .ok ((), s₂) := h₂
    rw [hrun, bind_run, h₂]
    simp only [bind_run]
    rcases protectPages_run (relroPages g.data) ⟨hm₂, hs₂⟩ with
      ⟨s₃, st₃, h₃, -⟩ | ⟨-, x, hx, hn⟩
    · rw [h₃]
      exact ⟨_, _, rfl⟩
    · obtain ⟨q, hq, hqx⟩ := hrelro x hx
      rw [(hv₂ (path x) rfl q.entry).2 (Or.inr ⟨q, hq, by rw [hqx]⟩)] at hn
      cases hn

/-- Where the pages have different paths, `new_address_space` never maps a page twice. -/
theorem newAddressSpace_ne_remap {fs : List Frame}
    (hl : FreeList g.data.paddrBase s.mem s.pool fs)
    (hnd : (((spaceRequests g).map Request.vpage).map path).Nodup) :
    newAddressSpace g s ≠ .error .remap := by
  cases fs with
  | nil =>
    rw [newAddressSpace_empty hl]
    simp
  | cons root free =>
    obtain ⟨s₁, hf, -, hrun⟩ := newAddressSpace_run hl
    obtain ⟨hp₁, he⟩ := hf.paged
    rw [hrun, bind_run]
    rcases h₂ : mapList g.data (g.data.paddrBase + frameAddr root) (spaceRequests g) s₁ with
      e | ⟨⟨⟩, s₂⟩
    · obtain rfl : e = .noFreePage := mapAll_error hp₁.models hp₁.sound he hnd h₂
      simp
    · obtain ⟨st₂, hm₂, hs₂, -⟩ := mapAll_models hp₁.models hp₁.sound h₂
      simp only [bind_run]
      rcases protectPages_run (relroPages g.data) ⟨hm₂, hs₂⟩ with
        ⟨s₃, st₃, h₃, -⟩ | ⟨h₃, -⟩ <;> rw [h₃] <;> simp [pure_run]

/-! ## Layouts -/

theorem mem_spaceRequests {q : Request} : q ∈ spaceRequests g ↔
    ∃ r ∈ spaceRanges g, ∃ i < r.pages, q = ⟨r.ppage i, r.vpage i, r.flags⟩ := by
  simp only [spaceRequests, List.mem_flatMap, mem_requests]

theorem mem_loads {ph : Elf64Phdr} :
    ph ∈ data.loads ↔ ph ∈ data.headers ∧ ph.pType = ptLoad := by
  simp [BootloaderData.loads]

theorem mem_runtimeEntries {m : EfiMemoryDescriptor} : m ∈ data.runtimeEntries ↔
    m ∈ data.entries ∧ m.attributes &&& efiMemoryRuntime ≠ 0 := by
  simp [BootloaderData.runtimeEntries]

theorem relro_mem {ph : Elf64Phdr} (h : data.relro = some ph) :
    ph ∈ data.headers ∧ ph.pType = ptGnuRelro := by
  have := List.mem_of_getLast? h
  simpa using this

/-- A runtime segment is writable for four types. -/
theorem runtimeFlags_eq (t : EfiMemoryType) : runtimeFlags t = pteRw ↔
    t ∈ [EfiMemoryType.runtimeServicesData, .runtimeServicesCode, .memoryMappedIo,
      .memoryMappedIoPortSpace] := by
  cases t <;> simp [runtimeFlags] <;> decide

theorem runtimeFlags_cases (t : EfiMemoryType) : runtimeFlags t = 0 ∨ runtimeFlags t = pteRw := by
  cases t <;> simp [runtimeFlags]

theorem mem_dataRanges {r : PageRange} : r ∈ dataRanges g ↔
    r = ⟨g.bootloaderData - g.data.paddrBase, g.bootloaderData, 1, pteRw⟩
      ∨ r = ⟨g.data.freeMemory - g.data.paddrBase, g.data.freeMemory, g.data.nPages.toNat, pteRw⟩
      ∨ r = ⟨g.apicPaddr, g.apicVaddr, 1, pteRw⟩
      ∨ ∃ m ∈ g.data.runtimeEntries, r = descriptorRange m := by
  simp only [dataRanges, List.mem_append, List.mem_cons, List.not_mem_nil, or_false,
    List.mem_map, or_assoc, eq_comm (b := r)]

theorem spaceRanges_flags : ∀ r ∈ spaceRanges g, r.flags = 0 ∨ r.flags = pteRw := by
  intro r hr
  rw [spaceRanges, List.mem_append, mem_dataRanges, List.mem_map] at hr
  rcases hr with (rfl | rfl | rfl | ⟨m, -, rfl⟩) | ⟨ph, -, rfl⟩
  · exact Or.inr rfl
  · exact Or.inr rfl
  · exact Or.inr rfl
  · exact runtimeFlags_cases _
  · rw [Elf64Phdr.range]
    split_ifs
    · exact Or.inr rfl
    · exact Or.inl rfl

namespace SpaceOk

variable (hg : SpaceOk g)

include hg

theorem load_touches {ph : Elf64Phdr} (hph : ph ∈ g.data.loads) {x : U64} :
    (∃ i < ph.range.pages, x = ph.range.vpage i) ↔
      ∃ i < ph.pMemsz.toNat, x = pageBase (ph.pVaddr + BitVec.ofNat 64 i) := by
  obtain ⟨hm, ht⟩ := mem_loads.1 hph
  exact touches (hg.nonempty ph hm (Or.inl ht))
    fun i hi => hg.canonical _ _ _ (.segment ph i hm ht hi)

/-- The pages protected are those of the last RELRO segment. -/
theorem mem_relroPages {x : U64} : x ∈ relroPages g.data ↔ RelroPage g.data x := by
  rw [relroPages, RelroPage]
  rcases hr : g.data.relro with _ | ph
  · simp
  obtain ⟨hm, ht⟩ := relro_mem hr
  have ht' := touches (v := ph.pVaddr) (x := x) (hg.nonempty ph hm (Or.inr ht)) fun i hi => by
    obtain ⟨ph', hm', ht', j, hj, he⟩ := hg.covered ph hm ht i hi
    rw [he]
    exact hg.canonical _ _ _ (.segment ph' j hm' ht' hj)
  simp only [List.mem_map, List.mem_range, Option.some.injEq, exists_eq_left']
  rw [← ht']
  simp only [eq_comm (a := x)]

theorem relro_load {x : U64} (hx : RelroPage g.data x) :
    ∃ ph ∈ g.data.loads, ∃ i < ph.range.pages, x = ph.range.vpage i := by
  obtain ⟨relro, hr, i, hi, rfl⟩ := hx
  obtain ⟨hm, ht⟩ := relro_mem hr
  obtain ⟨ph, hm', ht', j, hj, he⟩ := hg.covered relro hm ht i hi
  have hl := mem_loads.2 ⟨hm', ht'⟩
  exact ⟨ph, hl, (hg.load_touches hl).2 ⟨j, hj, he⟩⟩

theorem not_relro {r : PageRange} (hr : r ∈ dataRanges g) {i : ℕ} (hi : i < r.pages) :
    ¬ RelroPage g.data (r.vpage i) := by
  intro hx
  obtain ⟨ph, hph, j, hj, he⟩ := hg.relro_load hx
  have hd := (List.pairwise_append.1 hg.disjoint).2.2 r hr _ (List.mem_map_of_mem hph)
  exact hd i hi j hj he

/-- A page of a range is a page of the layout; only the kernel's segments have RELRO pages. -/
theorem spaceMaps_of_range {r : PageRange} (hr : r ∈ spaceRanges g) {i : ℕ} (hi : i < r.pages) :
    ∃ W, SpaceMaps g (r.vpage i) (r.ppage i) W
      ∧ (W ↔ r.flags = pteRw ∧ ¬ RelroPage g.data (r.vpage i)) := by
  rcases List.mem_append.1 hr with hr | hr
  · have hnr := hg.not_relro hr hi
    rcases mem_dataRanges.1 hr with rfl | rfl | rfl | ⟨m, hm, rfl⟩
    · obtain rfl : i = 0 := by simpa using hi
      rw [vpage_zero, ppage_zero] at *
      exact ⟨True, .bootloaderData, iff_of_true trivial ⟨rfl, hnr⟩⟩
    · refine ⟨True, ?_, iff_of_true trivial ⟨rfl, hnr⟩⟩
      have he : g.data.freeMemory - g.data.paddrBase + pageSize * BitVec.ofNat 64 i
        = g.data.freeMemory + pageSize * BitVec.ofNat 64 i - g.data.paddrBase := by grind
      rw [PageRange.ppage, he]
      exact .freeMemory i hi
    · obtain rfl : i = 0 := by simpa using hi
      rw [vpage_zero, ppage_zero] at *
      exact ⟨True, .apic, iff_of_true trivial ⟨rfl, hnr⟩⟩
    · obtain ⟨hm, ha⟩ := mem_runtimeEntries.1 hm
      refine ⟨_, .runtime m i hm ha hi, ?_⟩
      rw [← runtimeFlags_eq]
      exact (and_iff_left hnr).symm
  · obtain ⟨ph, hph, rfl⟩ := List.mem_map.1 hr
    obtain ⟨hm, ht⟩ := mem_loads.1 hph
    obtain ⟨j, hj, he⟩ := (hg.load_touches hph).1 ⟨i, hi, rfl⟩
    refine ⟨_, ?_, Iff.rfl⟩
    have hs := SpaceMaps.segment (g := g) ph j hm ht hj
    rwa [range_flags, he, ppage_of_vpage he.symm]

theorem range_of_spaceMaps {v p : U64} {W : Prop} (h : SpaceMaps g v p W) :
    ∃ r ∈ spaceRanges g, ∃ i < r.pages, v = r.vpage i ∧ p = r.ppage i
      ∧ (W ↔ r.flags = pteRw ∧ ¬ RelroPage g.data v) := by
  have hdata : ∀ r ∈ dataRanges g, ∀ i < r.pages, ∀ W, (W ↔ r.flags = pteRw) →
      ∃ r' ∈ spaceRanges g, ∃ j < r'.pages, r.vpage i = r'.vpage j ∧ r.ppage i = r'.ppage j
        ∧ (W ↔ r'.flags = pteRw ∧ ¬ RelroPage g.data (r.vpage i)) :=
    fun r hr i hi W hW => ⟨r, List.mem_append_left _ hr, i, hi, rfl, rfl, by
      rw [hW, and_iff_left (hg.not_relro hr hi)]⟩
  cases h with
  | bootloaderData =>
    have := hdata _ (mem_dataRanges.2 (Or.inl rfl)) 0 (by simp) True (by simp)
    rwa [vpage_zero, ppage_zero] at this
  | freeMemory i hi =>
    have := hdata _ (mem_dataRanges.2 (Or.inr (Or.inl rfl))) i hi True (by simp)
    have he : g.data.freeMemory - g.data.paddrBase + pageSize * BitVec.ofNat 64 i
      = g.data.freeMemory + pageSize * BitVec.ofNat 64 i - g.data.paddrBase := by grind
    rwa [PageRange.ppage, he] at this
  | apic =>
    have := hdata _ (mem_dataRanges.2 (Or.inr (Or.inr (Or.inl rfl)))) 0 (by simp) True (by simp)
    rwa [vpage_zero, ppage_zero] at this
  | runtime m i hm ha hi =>
    refine hdata (descriptorRange m) (mem_dataRanges.2 (Or.inr (Or.inr (Or.inr ⟨m, ?_, rfl⟩)))) i hi
      _ (runtimeFlags_eq m.type).symm
    exact mem_runtimeEntries.2 ⟨hm, ha⟩
  | segment ph i hm ht hi =>
    have hph := mem_loads.2 ⟨hm, ht⟩
    obtain ⟨j, hj, he⟩ := (hg.load_touches hph).2 ⟨i, hi, rfl⟩
    refine ⟨ph.range, List.mem_append_right _ (List.mem_map_of_mem hph), j, hj, he,
      (ppage_of_vpage he).symm, ?_⟩
    rw [range_flags]

theorem range_canonical {r : PageRange} (hr : r ∈ spaceRanges g) {i : ℕ} (hi : i < r.pages) :
    Canonical (r.vpage i) := by
  obtain ⟨W, h, -⟩ := hg.spaceMaps_of_range hr hi
  exact hg.canonical _ _ _ h

theorem nodup : (((spaceRequests g).map Request.vpage).map path).Nodup :=
  ranges_nodup (fun r hr i _ => vpage_aligned (hg.aligned r hr) i)
    (fun _ hr _ hi => hg.range_canonical hr hi) hg.disjoint

theorem path_relro {v : U64} (hv : Canonical v) :
    path v ∈ (relroPages g.data).map path ↔ RelroPage g.data (pageBase v) := by
  rw [List.mem_map]
  constructor
  · rintro ⟨x, hx, he⟩
    have hx := hg.mem_relroPages.1 hx
    obtain ⟨ph, hph, i, hi, rfl⟩ := hg.relro_load hx
    have hr : ph.range ∈ spaceRanges g := List.mem_append_right _ (List.mem_map_of_mem hph)
    rwa [(path_eq_page hv (hg.range_canonical hr hi) (vpage_aligned (hg.aligned _ hr) i)).1 he.symm]
  · intro hx
    exact ⟨_, hg.mem_relroPages.2 hx, path_pageBase v⟩

theorem mapping_eq {r : PageRange} (hr : r ∈ spaceRanges g) {i : ℕ} (hi : i < r.pages) (v : U64) :
    mappingOf v (if path v ∈ (relroPages g.data).map path
        then (r.ppage i ||| pteP ||| r.flags) &&& ~~~pteRw else r.ppage i ||| pteP ||| r.flags)
      = ⟨r.ppage i + pageOffset v, r.flags = pteRw ∧ ¬ path v ∈ (relroPages g.data).map path⟩ := by
  obtain ⟨W, hW, -⟩ := hg.spaceMaps_of_range hr hi
  obtain ⟨f, hf⟩ := hg.physical _ _ _ hW
  rw [hf]
  split_ifs with h
  · rw [mappingOf_readOnly, mappingOf_entry v f (spaceRanges_flags r hr)]
    simp [h]
  · rw [mappingOf_entry v f (spaceRanges_flags r hr)]
    simp [h]

end SpaceOk

/-- On any layout that the tables can express, with enough free pages, `new_address_space` makes
tables that translate that layout and nothing else, and changes free pages only. -/
theorem new_address_space_layout (hg : SpaceOk g) {fs : List Frame}
    (hl : FreeList g.data.paddrBase s.mem s.pool fs)
    (hfree : tablesNeeded ((spaceRequests g).map Request.vpage) < fs.length) :
    ∃ root s', root ∈ fs ∧ newAddressSpace g s = .ok (g.data.paddrBase + frameAddr root, s')
      ∧ OnlyPages g.data.paddrBase (· ∈ fs) s.mem s'.mem
      ∧ ∀ v p w, translate g.data.paddrBase root s' v = some ⟨p, w⟩ ↔
        ∃ q W, SpaceMaps g (pageBase v) q W ∧ p = q + pageOffset v ∧ (w = true ↔ W) := by
  obtain ⟨a, s', h⟩ := newAddressSpace_ok hl hg.nodup hfree fun x hx => by
    obtain ⟨ph, hph, i, hi, rfl⟩ := hg.relro_load (hg.mem_relroPages.1 hx)
    exact ⟨_, mem_spaceRequests.2 ⟨_, List.mem_append_right _ (List.mem_map_of_mem hph), i, hi, rfl⟩,
      rfl⟩
  obtain ⟨root, st', hroot, rfl, hn⟩ := newAddressSpace_spec hl h
  refine ⟨root, s', hroot, h, hn.only, fun v p w => ?_⟩
  by_cases hv : Canonical v
  · rw [hn.paged.translate_eq hv, Option.map_eq_some_iff]
    constructor
    · rintro ⟨e, he, hm⟩
      obtain ⟨q, hq, hqp, rfl⟩ := (hn.value _ rfl _).1 he
      obtain ⟨r, hr, i, hi, rfl⟩ := mem_spaceRequests.1 hq
      have hb := (path_eq_page hv (hg.range_canonical hr hi)
        (vpage_aligned (hg.aligned _ hr) i)).1 hqp.symm
      obtain ⟨W, hW, hiff⟩ := hg.spaceMaps_of_range hr hi
      have hmap := (hg.mapping_eq hr hi v).symm.trans hm
      simp only [Mapping.mk.injEq] at hmap
      refine ⟨_, W, hb ▸ hW, hmap.1.symm, ?_⟩
      rw [hiff, ← hmap.2, decide_eq_true_iff, hg.path_relro hv, hb]
    · rintro ⟨q, W, hW, rfl, hw⟩
      obtain ⟨r, hr, i, hi, hb, rfl, hiff⟩ := hg.range_of_spaceMaps hW
      have hp : path (r.vpage i) = path v := by rw [← hb, path_pageBase]
      refine ⟨_, (hn.value (path v) rfl _).2 ⟨_, mem_spaceRequests.2 ⟨r, hr, i, hi, rfl⟩, hp, rfl⟩,
        (hg.mapping_eq hr hi v).trans ?_⟩
      rw [Mapping.mk.injEq, Bool.eq_iff_iff, hw, hiff, decide_eq_true_iff, hg.path_relro hv]
      exact ⟨rfl, Iff.rfl⟩
  · rw [translate_noncanonical hv]
    simp only [reduceCtorEq, false_iff]
    rintro ⟨q, W, hW, -⟩
    exact hv (pageBase_canonical.1 (hg.canonical _ _ _ hW))

/-- A kernel of one segment across two pages, the first of them RELRO. -/
def smallKernel : Globals where
  bootloaderData := 0xffffffff00001000
  apicPaddr := 0xfee00000
  apicVaddr := 0xfffffffe00000000
  data :=
    { (default : BootloaderData) with
      freeMemory := 0xffffffff00002000
      nPages := 3
      paddrBase := 0xffffffff00000000
      ePhnum := 2
      phdrs := [⟨ptLoad, pfW, 0, 0xffffffffc0000ff8, 0x5ff8, 16, 16, 8⟩,
        ⟨ptGnuRelro, 0, 0, 0xffffffffc0000ff8, 0x5ff8, 8, 8, 8⟩]
      numEntries := 2
      memoryMap := [⟨.runtimeServicesData, 0x7000, 0xfffffffe00001000, 2, efiMemoryRuntime⟩,
        ⟨.conventionalMemory, 0x9000, 0, 100, 0⟩] }

def smallKernelPages : List (U64 × U64) :=
  [(0xffffffff00001000, 0x1000), (0xffffffff00002000, 0x2000), (0xffffffff00003000, 0x3000),
    (0xffffffff00004000, 0x4000), (0xfffffffe00000000, 0xfee00000), (0xfffffffe00001000, 0x7000),
    (0xfffffffe00002000, 0x8000), (0xffffffffc0000000, 0x5000), (0xffffffffc0001000, 0x6000)]

theorem smallKernel_maps {v p : U64} {W : Prop} (h : SpaceMaps smallKernel v p W) :
    (v, p) ∈ smallKernelPages := by
  cases h with
  | bootloaderData => decide
  | freeMemory i hi =>
    have hi : i < 3 := hi
    interval_cases i <;> decide
  | apic => decide
  | runtime m i hm ha hi =>
    have hm : m ∈ [(⟨.runtimeServicesData, 0x7000, 0xfffffffe00001000, 2, efiMemoryRuntime⟩ :
      EfiMemoryDescriptor), ⟨.conventionalMemory, 0x9000, 0, 100, 0⟩] := hm
    simp only [List.mem_cons, List.not_mem_nil, or_false] at hm
    rcases hm with rfl | rfl
    · have hi : i < 2 := hi
      interval_cases i <;> decide
    · exact absurd rfl ha
  | segment ph i hm ht hi =>
    have hm : ph ∈ [(⟨ptLoad, pfW, 0, 0xffffffffc0000ff8, 0x5ff8, 16, 16, 8⟩ : Elf64Phdr),
      ⟨ptGnuRelro, 0, 0, 0xffffffffc0000ff8, 0x5ff8, 8, 8, 8⟩] := hm
    simp only [List.mem_cons, List.not_mem_nil, or_false] at hm
    rcases hm with rfl | rfl
    · have hi : i < 16 := hi
      interval_cases i <;> decide
    · exact absurd ht (by decide)

theorem smallKernel_ok : SpaceOk smallKernel where
  aligned := by decide +kernel
  disjoint := by decide +kernel
  canonical v p W h := by
    have hc : smallKernelPages.all (fun x => Canonical x.1) := by decide
    simpa using List.all_eq_true.1 hc _ (smallKernel_maps h)
  physical v p W h := by
    have hp : smallKernelPages.all (fun x => x.2 = frameAddr (frameOf x.2)) := by decide
    exact ⟨_, by simpa using List.all_eq_true.1 hp _ (smallKernel_maps h)⟩
  nonempty := by decide +kernel
  covered := by decide +kernel

/-- The segment keeps its second page writable. -/
theorem new_address_space_layout_small : ∃ root s', root ∈ (framesFrom 16 9).reverse
    ∧ newAddressSpace smallKernel (freed smallKernel.data.paddrBase (framesFrom 16 9))
      = .ok (smallKernel.data.paddrBase + frameAddr root, s')
    ∧ translate smallKernel.data.paddrBase root s' 0xffffffffc0001003 = some ⟨0x6003, true⟩ := by
  have hf : Fresh smallKernel.data.paddrBase 0 (framesFrom 16 9).reverse
    (freed smallKernel.data.paddrBase (framesFrom 16 9)) := freed_fresh _ (by decide) (by decide)
  obtain ⟨root, s', hr, h, -, ht⟩ := new_address_space_layout smallKernel_ok hf.list
    (by decide +kernel)
  refine ⟨root, s', hr, h, (ht _ _ _).2 ⟨0x6000, _, .segment ⟨ptLoad, pfW, 0, 0xffffffffc0000ff8,
    0x5ff8, 16, 16, 8⟩ 8 (by decide) rfl (by decide), rfl, ?_⟩⟩
  refine iff_of_true rfl ⟨by decide, ?_⟩
  rintro ⟨ph, hph, i, hi, he⟩
  obtain rfl : (⟨ptGnuRelro, 0, 0, 0xffffffffc0000ff8, 0x5ff8, 8, 8, 8⟩ : Elf64Phdr) = ph :=
    Option.some.inj hph
  have hi : i < 8 := hi
  interval_cases i <;> exact absurd he (by decide)

end Kernel

end SctOs
