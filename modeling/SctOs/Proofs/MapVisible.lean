import SctOs.Proofs.Handover

/-!
# The memory map through the window

The final memory map goes on from the page of `bootloader_data` into a second page, but both
programs map only the first. So the kernel can read the map exactly when it ends in the first page,
and that page has a place in the address space (`map_visible_iff`).
-/

namespace SctOs

open Bytes Radix Loader Kernel

variable {x : Boot} {data : BootloaderData} {s s₁ : Machine (List U64)} {t t₁ : Machine U64}
  {apicPaddr apicVaddr : U64}

theorem handover_ok (hd : data = { x.final with
      memoryMap := data.memoryMap
      numEntries := data.numEntries }) : HandedOver x (handover x data apicPaddr apicVaddr) := by
  have hb : data.paddrBase = x.windowed.paddrBase := by rw [hd, Boot.final]
  refine ⟨?_, ?_⟩
  · rw [handover, hb]
  · rw [handover, BootloaderData.mk.injEq]
    simp only [and_true]
    rw [hd]
    simp only [and_self]

/-! ## The window's addresses -/

theorem windowed_paddrBase (x : Boot) :
    x.windowed.paddrBase = kernelBase - BitVec.ofNat 64 (windowLimit x.memoryMap) := by
  have hn := x.numEntries_toNat
  have hp : x.windowed.paddrSize = BitVec.ofNat 64 (windowLimit x.memoryMap) := by
    change (window _ _).paddrSize = _
    rw [window, window_paddrSize le_rfl, hn, windowLimit]
    by_cases h : 3 ≤ x.memoryMap.length
    · rw [if_pos ⟨h, by omega⟩, if_pos h, EfiMemoryDescriptor.limit]
      apply BitVec.eq_of_toNat_eq
      rw [BitVec.toNat_add, BitVec.toNat_mul, pageSize_toNat, BitVec.toNat_ofNat]
      omega
    · rw [if_neg (by omega), if_neg h]
      rfl
  rw [← hp]
  rfl

theorem windowed_aligned (h : MapOk x.memoryMap) : x.windowed.paddrBase.toNat % 4096 = 0 := by
  have ha := setWindow_aligned x.data x.numEntries_toNat h.aligned
  change x.windowed.paddrSize.toNat % 4096 = 0 at ha
  have hb : x.windowed.paddrBase = kernelBase - x.windowed.paddrSize := rfl
  rw [hb, BitVec.toNat_sub, kernelBase_toNat]
  omega

/-- A byte of the first page, through the window. -/
theorem window_split (h : MapOk x.memoryMap) (h2 : TwoPages x) {i : ℕ} (hi : i < 4096) :
    pageBase (x.windowed.paddrBase + (x.bootloaderData + BitVec.ofNat 64 i))
        = x.windowed.paddrBase + x.bootloaderData
      ∧ pageOffset (x.windowed.paddrBase + (x.bootloaderData + BitVec.ofNat 64 i))
        = BitVec.ofNat 64 i := by
  obtain ⟨f, hf⟩ := h2.frame
  have ha := windowed_aligned h
  rw [← BitVec.add_assoc]
  refine page_split ?_ hi
  rw [hf, BitVec.toNat_add, frameAddr_toNat]
  omega

/-! ## The pages of `bootloader_data` -/

/-- The request for the first page. -/
def windowRequest (x : Boot) : Request :=
  ⟨x.bootloaderData, x.windowed.paddrBase + x.bootloaderData, pteRw⟩

theorem windowRequest_mem (x : Boot) : windowRequest x ∈ (windowRanges x
    ++ x.loads.map Elf64Phdr.range).flatMap PageRange.requests := by
  refine List.mem_flatMap.2 ⟨_, List.mem_append_left _ (List.mem_cons_self ..),
    mem_requests.2 ⟨0, Nat.one_pos, ?_⟩⟩
  rw [ppage_zero, vpage_zero]
  rfl

/-- A page that the loader maps twice, to itself and into the window, is not in the same place. -/
theorem window_ne_identity (h2 : TwoPages x)
    (hnd : (((bootRequests x).map Request.vpage).map path).Nodup) :
    path (x.windowed.paddrBase + x.bootloaderData) ≠ path x.bootloaderData := by
  obtain ⟨m, hm, ht, hp⟩ := h2.loaderData
  obtain ⟨i, hi, he⟩ := identity_page.1 hp
  rw [bootRequests, bootRanges, List.flatMap_append, List.map_append, List.map_append,
    List.nodup_append] at hnd
  refine hnd.2.2 _ ?_ _ ?_ ∘ Eq.symm
  · refine List.mem_map_of_mem (List.mem_map.2 ⟨⟨_, _, _⟩, List.mem_flatMap.2
      ⟨identityRange m, ?_, mem_requests.2 ⟨i, hi, rfl⟩⟩, he.symm⟩)
    exact List.mem_map_of_mem (List.mem_filter.2 ⟨hm, decide_eq_true (Or.inr ht)⟩)
  · exact List.mem_map_of_mem (List.mem_map_of_mem (windowRequest_mem x))

theorem entry_frame {r : PageRange} (hr : r ∈ bootRanges x) (i : ℕ) :
    frameOf (Request.entry ⟨r.ppage i, r.vpage i, r.flags⟩) = frameOf (r.ppage i) := by
  have hf : r.flags.toNat < 4096 := by
    rcases BootOk.flags_cases hr with h | h <;> rw [h] <;> decide
  rw [Request.entry, frameOf_or hf, frameOf_or (by decide)]

/-- No page is requested at the second page's place in the window that is the second page. -/
theorem second_page_request (h : MapOk x.memoryMap) (h2 : TwoPages x)
    (hnd : (((bootRequests x).map Request.vpage).map path).Nodup) {q : Request}
    (hq : q ∈ bootRequests x)
    (hp : path q.vpage = path (x.windowed.paddrBase + (x.bootloaderData + pageSize))) :
    frameOf q.entry ≠ frameOf (x.bootloaderData + pageSize) := by
  obtain ⟨r, hr, hq⟩ := List.mem_flatMap.1 hq
  obtain ⟨i, hi, rfl⟩ := mem_requests.1 hq
  rw [entry_frame hr]
  obtain ⟨f, hf⟩ := h2.frame
  have ha := windowed_aligned h
  have hlt := f.isLt
  rcases mem_bootRanges.1 hr with ⟨m, hm, ht, rfl⟩ | hw | ⟨ph, hph, rfl⟩
  · -- an identity mapped page: the window would be all of the address space
    intro he
    have he : path ((identityRange m).vpage i) = path (x.bootloaderData + pageSize) :=
      path_eq_iff_samePage.2 he
    refine window_ne_identity h2 hnd ?_
    rw [he] at hp
    rw [path_eq_iff, hf] at hp ⊢
    rw [BitVec.toNat_add, BitVec.toNat_add, BitVec.toNat_add, frameAddr_toNat, pageSize_toNat] at hp
    rw [BitVec.toNat_add, frameAddr_toNat]
    omega
  · simp only [windowRanges, List.mem_cons, List.not_mem_nil, or_false] at hw
    rcases hw with rfl | rfl
    · obtain rfl : i = 0 := by simpa using hi
      rw [ppage_zero, hf, Ne, ← BitVec.toNat_inj, frameOf_toNat, frameOf_toNat, BitVec.toNat_add,
        frameAddr_toNat, pageSize_toNat]
      omega
    · exact h2.freeMemory i hi
  · exact h2.segments ph hph i hi

section Visible

variable {root root' : Frame} {free gs : List Frame} {st st' : Store Frame Index U64}
  (h : MapOk x.memoryMap) (h2 : TwoPages x) (hb : BootSpace x root s s₁ st (root :: free))

include h h2 hb

/-- The bytes of the first page are seen through the window in both tables, when the window is in
the address space. -/
theorem first_page_visible (hg : HandedOver x (handover x data apicPaddr apicVaddr))
    (hk : NewSpace (handover x data apicPaddr apicVaddr) root' t t₁ st' gs)
    (hc : Canonical (x.windowed.paddrBase + x.bootloaderData)) {n : ℕ} (hn : n ≤ 4096) :
    Visible x.windowed.paddrBase x.bootloaderData n (walk s₁.mem (frameAddr root))
      ∧ Visible x.windowed.paddrBase x.bootloaderData n (translate data.paddrBase root' t₁) := by
  have hpath : ∀ i < 4096, path (x.windowed.paddrBase + x.bootloaderData)
      = path (x.windowed.paddrBase + (x.bootloaderData + BitVec.ofNat 64 i)) := by
    intro i hi
    rw [← path_pageBase (_ + (_ + _)), (window_split h h2 hi).1]
  have hboot : ∀ i < 4096, walk s₁.mem (frameAddr root)
      (x.windowed.paddrBase + (x.bootloaderData + BitVec.ofNat 64 i))
        = some ⟨x.bootloaderData + BitVec.ofNat 64 i, true⟩ := by
    intro i hi
    obtain ⟨hp, ho⟩ := window_split h h2 hi
    obtain ⟨f, hf⟩ := h2.frame
    have hq : windowRequest x ∈ bootRequests x := by
      rw [bootRequests, bootRanges, List.flatMap_append]
      exact List.mem_append_right _ (windowRequest_mem x)
    rw [← hp, pageBase_canonical] at hc
    rw [hb.walk (fun _ _ _ _ => rfl) hq hc (hpath i hi), Request.entry, windowRequest, hf,
      mappingOf_entry _ _ (Or.inr rfl), ← hf, ho]
    rfl
  refine ⟨fun i hi => ⟨_, hboot i (by omega)⟩, fun i hi => ?_⟩
  have hsame : SamePage (x.windowed.paddrBase + (x.bootloaderData + BitVec.ofNat 64 i))
      (x.windowed.paddrBase + x.bootloaderData) :=
    path_eq_iff_samePage.1 (hpath i (by omega)).symm
  obtain ⟨-, he⟩ := tables_agree hg hb hk .bootloaderData hsame
  rw [hboot i (by omega)] at he
  exact ⟨_, he⟩

/-- The first byte of the second page is not seen in the boot tables. -/
theorem second_page_hidden (hnd : (((bootRequests x).map Request.vpage).map path).Nodup) (w : Bool) :
    walk s₁.mem (frameAddr root) (x.windowed.paddrBase + (x.bootloaderData + pageSize))
      ≠ some ⟨x.bootloaderData + pageSize, w⟩ := by
  intro hw
  have hc : Canonical (x.windowed.paddrBase + (x.bootloaderData + pageSize)) := by
    by_contra hc
    rw [walk_noncanonical hc] at hw
    cases hw
  obtain ⟨q, hq, hp⟩ : ∃ q ∈ bootRequests x,
      path q.vpage = path (x.windowed.paddrBase + (x.bootloaderData + pageSize)) := by
    by_contra! hq
    rw [hb.walk_none (fun _ _ _ _ => rfl) hq] at hw
    cases hw
  rw [hb.walk (fun _ _ _ _ => rfl) hq hc hp, mappingOf, and_pteAddrMask, Option.some.injEq,
    Mapping.mk.injEq] at hw
  obtain ⟨f, hf⟩ := h2.frame
  have ha := windowed_aligned h
  have h0 : pageOffset (x.windowed.paddrBase + (x.bootloaderData + pageSize)) = 0 := by
    apply BitVec.eq_of_toNat_eq
    rw [pageOffset_toNat, hf, BitVec.toNat_add, BitVec.toNat_add, frameAddr_toNat, pageSize_toNat]
    simp only [BitVec.reduceToNat]
    omega
  have hz : frameAddr (frameOf q.entry) + 0 = frameAddr (frameOf q.entry) := BitVec.add_zero _
  rw [h0, hz] at hw
  exact second_page_request h h2 hnd hq hp (by rw [← hw.1, frameOf_frameAddr])

end Visible

/-- When the loader and the kernel have made their tables, `bootloader_data` and the final memory
map are seen through the window in both exactly when they end in the first page and that page has a
place in the address space, `paddr_size` below the kernel. -/
theorem map_visible_iff {fs gs : List Frame} {a a' sizeof numEntries : U64} {d : BootloaderData}
    {final : List EfiMemoryDescriptor} {args : VirtualAddressMap} (h : MapOk x.memoryMap)
    (h2 : TwoPages x) (hs : s.pool = fs.map frameAddr) (hnd : fs.Nodup)
    (hboot : x.run s = .ok ((a, d), s₁)) (h0 : sizeof ≠ 0)
    (hmap : efiMainMap sizeof numEntries d final = .ok (args, data))
    (ht : FreeList data.paddrBase t.mem t.pool gs)
    (hkernel : newAddressSpace (handover x data apicPaddr apicVaddr) t = .ok (a', t₁)) :
    ∃ root root', a = frameAddr root ∧ a' = data.paddrBase + frameAddr root'
      ∧ ((Visible data.paddrBase x.bootloaderData (dataBytes sizeof data)
            (walk s₁.mem (frameAddr root))
          ∧ Visible data.paddrBase x.bootloaderData (dataBytes sizeof data)
            (translate data.paddrBase root' t₁))
        ↔ dataBytes sizeof data ≤ 4096
          ∧ Canonical (kernelBase - BitVec.ofNat 64 (windowLimit x.memoryMap)
            + x.bootloaderData)) := by
  obtain ⟨root, free, st, rfl, rfl, rfl, hl, hb⟩ := boot_spec hs hnd hboot
  obtain ⟨root', st', -, rfl, hk⟩ := newAddressSpace_spec ht hkernel
  obtain ⟨-, -, -, hd, -⟩ := efiMainMap_spec h0 hmap
  have hbase : data.paddrBase = x.windowed.paddrBase := by rw [hd, Boot.final]
  refine ⟨root, root', rfl, rfl, ?_⟩
  rw [← windowed_paddrBase]
  constructor
  · rintro ⟨hv, -⟩
    rw [hbase] at hv
    constructor
    · by_contra hn
      obtain ⟨w, hw⟩ := hv 4096 (by omega)
      exact second_page_hidden h h2 hb (boot_paths hnd hl) w hw
    · by_contra hc
      obtain ⟨w, hw⟩ := hv 0 (by unfold dataBytes sizeofBootloaderData; omega)
      rw [BitVec.add_zero, walk_noncanonical hc] at hw
      cases hw
  · rintro ⟨hn, hc⟩
    have hv := first_page_visible h h2 hb (handover_ok hd) hk hc hn
    rwa [← hbase] at hv

/-! ## Two machines -/

theorem smallBoot_two : TwoPages smallBoot :=
  ⟨by decide +kernel, ⟨2, by decide⟩, by decide +kernel, by decide +kernel⟩

theorem smallBoot_run : ∃ a s₁, smallBoot.run ⟨fun _ => 0, (framesFrom 16 9).map frameAddr⟩
    = .ok ((a, smallBoot.final), s₁) :=
  boot_ok rfl (by decide) smallBoot_ok.nodup (by decide +kernel)

/-- The kernel's globals after `smallBoot` and a final map. -/
abbrev smallGlobals (data : BootloaderData) : Globals :=
  handover smallBoot data 0xfee00000 0xffffffffbffee000

/-- The loader has made `data` of a final map without runtime segments. -/
structure FromSmallBoot (data : BootloaderData) : Prop where
  final : data = { smallBoot.final with
    memoryMap := data.memoryMap
    numEntries := data.numEntries }
  runtime : data.runtimeEntries = []

/-- The kernel makes its tables from ten pages. -/
theorem FromSmallBoot.run (hd : FromSmallBoot data) :
    FreeList data.paddrBase (freed data.paddrBase (framesFrom 4 10)).mem
        (freed data.paddrBase (framesFrom 4 10)).pool (framesFrom 4 10).reverse
      ∧ ∃ a t₁, newAddressSpace (smallGlobals data) (freed data.paddrBase (framesFrom 4 10))
        = .ok (a, t₁) := by
  have hb : data.paddrBase = smallBoot.windowed.paddrBase := by rw [hd.final, Boot.final]
  have hq : spaceRequests (smallGlobals data) = spaceRequests smallHandover := by
    have hr₁ : (smallGlobals data).data.runtimeEntries = [] := hd.runtime
    have hr₂ : smallHandover.data.runtimeEntries = [] := by decide +kernel
    rw [spaceRequests, spaceRequests, spaceRanges_eq (handover_ok hd.final),
      spaceRanges_eq smallHandover_ok, hr₁, hr₂]
    rfl
  have hp : relroPages (smallGlobals data).data = relroPages smallHandover.data := rfl
  have hrelro : relroPages smallHandover.data = [0xffffffffc0000000] := by decide +kernel
  have hf : Fresh data.paddrBase 0 (framesFrom 4 10).reverse
      (freed data.paddrBase (framesFrom 4 10)) := by
    rw [hb]
    exact freed_fresh _ (by decide +kernel) (by decide +kernel)
  refine ⟨hf.list, newAddressSpace_ok (g := smallGlobals data) hf.list ?_ ?_ ?_⟩
  · rw [hq]
    decide +kernel
  · rw [hq]
    decide +kernel
  · rw [hp, hrelro, hq]
    intro page hpage
    rw [List.mem_singleton] at hpage
    subst hpage
    decide +kernel

theorem exists_of_isOk {ε α : Type} {e : Except ε α} (h : e.isOk) : ∃ a, e = .ok a := by
  cases e with
  | error => cases h
  | ok a => exact ⟨a, rfl⟩

/-- A map whose entries cannot be merged. -/
def stripedMap (n : ℕ) : List EfiMemoryDescriptor :=
  ⟨.bootServicesCode, 0, 0, 1, 0⟩ :: (List.range n).map fun i =>
    ⟨if i % 2 = 0 then .conventionalMemory else .reservedMemoryType,
      pageSize * BitVec.ofNat 64 (i + 1), 0, 1, 0⟩

/-- A map of two entries is in the first page. -/
theorem map_visible_two : ∃ a s₁ args data a' t₁ root root',
    smallBoot.run ⟨fun _ => 0, (framesFrom 16 9).map frameAddr⟩ = .ok ((a, smallBoot.final), s₁)
      ∧ efiMainMap 48 2 smallBoot.final (stripedMap 1) = .ok (args, data)
      ∧ newAddressSpace (smallGlobals data) (freed data.paddrBase (framesFrom 4 10)) = .ok (a', t₁)
      ∧ Visible data.paddrBase 0x2000 184 (walk s₁.mem (frameAddr root))
      ∧ Visible data.paddrBase 0x2000 184 (translate data.paddrBase root' t₁) := by
  obtain ⟨a, s₁, hboot⟩ := smallBoot_run
  obtain ⟨⟨args, data⟩, hmap⟩ := exists_of_isOk
    (show (efiMainMap 48 2 smallBoot.final (stripedMap 1)).isOk by decide +kernel)
  obtain ⟨-, hn, he, hd, -⟩ := efiMainMap_spec (by decide) hmap
  have hr : data.runtimeEntries = [] := by
    rw [BootloaderData.runtimeEntries, he]
    decide +kernel
  obtain ⟨hf, a', t₁, hkernel⟩ := FromSmallBoot.run ⟨hd, hr⟩
  obtain ⟨root, root', -, -, hiff⟩ := map_visible_iff smallBoot_ok.map smallBoot_two rfl (by decide)
    hboot (by decide) hmap hf hkernel
  have hb : dataBytes 48 data = 184 := by
    rw [dataBytes, hn]
    decide +kernel
  rw [hb] at hiff
  obtain ⟨hv, hv'⟩ := hiff.2 ⟨by norm_num, by decide +kernel⟩
  exact ⟨a, s₁, args, data, a', t₁, root, root', hboot, hmap, hkernel, hv, hv'⟩

/-- A map of 84 entries of 48 bytes fits the buffer, and its last bytes are not seen. -/
theorem map_visible_not_long : ∃ root s₁ args data a' t₁, BootOk smallBoot ∧ TwoPages smallBoot
    ∧ smallBoot.run ⟨fun _ => 0, (framesFrom 16 9).map frameAddr⟩
      = .ok ((frameAddr root, smallBoot.final), s₁)
    ∧ MapOk (stripedMap 83)
    ∧ efiMainMap 48 84 smallBoot.final (stripedMap 83) = .ok (args, data)
    ∧ newAddressSpace (smallGlobals data) (freed data.paddrBase (framesFrom 4 10)) = .ok (a', t₁)
    ∧ ¬ Visible data.paddrBase smallBoot.bootloaderData (dataBytes 48 data)
      (walk s₁.mem (frameAddr root)) := by
  obtain ⟨a, s₁, hboot⟩ := smallBoot_run
  obtain ⟨⟨args, data⟩, hmap⟩ := exists_of_isOk
    (show (efiMainMap 48 84 smallBoot.final (stripedMap 83)).isOk by decide +kernel)
  obtain ⟨-, hn, he, hd, -⟩ := efiMainMap_spec (by decide) hmap
  have hr : data.runtimeEntries = [] := by
    rw [BootloaderData.runtimeEntries, he]
    decide +kernel
  obtain ⟨-, a', t₁, hkernel⟩ := FromSmallBoot.run ⟨hd, hr⟩
  obtain ⟨root, free, st, hfs, rfl, -, hl, hspace⟩ := boot_spec rfl (by decide) hboot
  have hb : dataBytes 48 data = 4120 := by
    rw [dataBytes, hn]
    decide +kernel
  have hbase : data.paddrBase = smallBoot.windowed.paddrBase := by rw [hd, Boot.final]
  refine ⟨root, s₁, args, data, a', t₁, smallBoot_ok, smallBoot_two, hboot,
    ⟨by decide +kernel, by decide +kernel, by decide +kernel⟩, hmap, hkernel, fun hv => ?_⟩
  obtain ⟨w, hw⟩ := hv 4096 (by rw [hb]; norm_num)
  rw [hbase] at hw
  exact second_page_hidden smallBoot_ok.map smallBoot_two (hfs ▸ hspace) smallBoot_ok.nodup w hw

end SctOs
