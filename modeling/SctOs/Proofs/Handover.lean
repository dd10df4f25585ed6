import SctOs.Handover
import SctOs.Proofs.AddressSpace
import SctOs.Proofs.BootTables

/-!
# From the loader to the kernel

The two versions of `map_page` make tables that translate alike (`map_page_equivalent`). The loader
and the kernel make the same requests for the pages that the kernel runs in (`shared_request`), so
when both finish, the pages lead to the same physical ones in both tables (`same_pages`).
-/

namespace SctOs

open Bytes Radix Loader Kernel

/-! ## Both versions of `map_page` -/

section MapPages

variable {data : BootloaderData} {s : Machine (List U64)} {t : Machine U64} {root root' : Frame}
  {free free' : List Frame} {qs before : List Request}

theorem Loader.mapPages_eq (root : Frame) (qs : List Request) :
    Loader.mapPages (frameAddr root) qs = mapList root qs := by
  rw [Loader.mapPages, mapList, mapAll]
  refine congrArg qs.forM (funext fun q => ?_)
  exact Loader.mapPage_eq root _ _ _

theorem Kernel.mapPages_eq (root : U64) (qs : List Request) : Kernel.mapPages data root qs
      = mapAll (fun p => (Kernel.allocator data).base + p) (Kernel.allocator data).allocate root qs :=
  rfl

/-- Both versions of `map_page` make tables with the same translation, and refuse the same
request. -/
theorem map_page_equivalent (hs : Loader.Fresh root free s)
    (ht : Kernel.Fresh data.paddrBase root' free' t)
    (hn : tablesNeeded (qs.map Request.vpage) ≤ free.length)
    (hn' : tablesNeeded (qs.map Request.vpage) ≤ free'.length) (hb : before <+: qs) :
    (Loader.mapPages (frameAddr root) before s = .error .remap
        ∧ Kernel.mapPages data (data.paddrBase + frameAddr root') before t = .error .remap)
      ∨ ∃ s' t', Loader.mapPages (frameAddr root) before s = .ok ((), s')
        ∧ Kernel.mapPages data (data.paddrBase + frameAddr root') before t = .ok ((), t')
        ∧ ∀ v, walk s'.mem (frameAddr root) v = translate data.paddrBase root' t' v := by
  have hle := tablesNeeded_mono (List.map_subset Request.vpage hb.subset)
  have h0 : Loader.allocator.base + frameAddr root = frameAddr root := BitVec.zero_add _
  obtain ⟨hm, hsound, he⟩ := models_fresh (A := Loader.allocator) (h0.symm ▸ hs.zero) hs.pool
    hs.nodup
  obtain ⟨hm', hsound', he'⟩ := models_fresh (A := Kernel.allocator data) ht.zero ht.list
    (List.nodup_cons.2 ⟨ht.off, ht.list.nodup⟩)
  have hok := mapAll_ok_iff before hm hsound he
  have hok' := mapAll_ok_iff before hm' hsound' he'
  rw [and_iff_left (hle.trans hn)] at hok
  rw [and_iff_left (hle.trans hn')] at hok'
  rw [Loader.mapPages_eq, Kernel.mapPages_eq]
  by_cases hnd : ((before.map Request.vpage).map path).Nodup
  · obtain ⟨s', h⟩ := hok.2 hnd
    obtain ⟨t', h'⟩ := hok'.2 hnd
    refine Or.inr ⟨s', t', h, h', fun v => ?_⟩
    by_cases hv : Canonical v
    · have hw := mapAll_translate hm hsound he h hv
      change ∀ m, walk (physical 0 s'.mem) _ v = _ ↔ _ at hw
      rw [physical_zero] at hw
      exact Option.ext fun m => (hw m).trans (mapAll_translate hm' hsound' he' h' hv m).symm
    · rw [walk_noncanonical hv, translate_noncanonical hv]
  · refine Or.inl ⟨?_, ?_⟩
    · rcases h : mapList root before s with e | ⟨⟨⟩, s'⟩
      · exact congrArg _ (mapAll_remap hm hsound he (hle.trans hn) h)
      · exact absurd (hok.1 ⟨s', h⟩) hnd
    · rcases h : mapAll _ _ _ before t with e | ⟨⟨⟩, t'⟩
      · exact congrArg _ (mapAll_remap hm' hsound' he' (hle.trans hn') h)
      · exact absurd (hok'.1 ⟨t', h⟩) hnd

/-- A page requested twice is refused by both. -/
def twicePage : List Request := [⟨0x7000, 0x5000, pteRw⟩, ⟨0x8000, 0x5000, 0⟩]

theorem map_page_equivalent_twice :
    Loader.mapPages (frameAddr 0) twicePage ⟨fun _ => 0, [1, 2, 3].map frameAddr⟩ = .error .remap
      ∧ Kernel.mapPages highWindow (highWindow.paddrBase + frameAddr 0) twicePage
        (freed highWindow.paddrBase [2, 3, 4]) = .error .remap := by
  have hs : Loader.Fresh 0 [1, 2, 3] ⟨fun _ => 0, [1, 2, 3].map frameAddr⟩ :=
    ⟨rfl, by decide, fun i _ => rfl⟩
  have ht : Kernel.Fresh highWindow.paddrBase 0 [4, 3, 2] (freed highWindow.paddrBase [2, 3, 4]) :=
    freed_fresh [2, 3, 4] (by decide) (by decide)
  have h := map_page_equivalent hs ht (by decide +kernel) (by decide +kernel)
    (List.prefix_refl twicePage)
  have hr : (Loader.mapPages (frameAddr 0) twicePage
      ⟨fun _ => 0, [1, 2, 3].map frameAddr⟩).toBool = false := by decide +kernel
  refine h.resolve_right ?_
  rintro ⟨s', t', hl, -⟩
  rw [hl] at hr
  cases hr

end MapPages

variable {x : Boot} {g : Globals}

theorem path_eq_iff_samePage {v v' : U64} : path v = path v' ↔ SamePage v v' := by
  rw [path_eq_iff, SamePage, ← BitVec.toNat_inj, frameOf_toNat, frameOf_toNat]

theorem mem_relro_iff {data : BootloaderData} {v : U64} :
    path v ∈ (relroPages data).map path ↔ ProtectedPage data v := by
  simp only [ProtectedPage, List.mem_map, eq_comm (b := path v), path_eq_iff_samePage]

/-- The kernel's ranges are the loader's, the APIC and the runtime segments. -/
theorem spaceRanges_eq (hg : HandedOver x g) : spaceRanges g
    = windowRanges x ++ (⟨g.apicPaddr, g.apicVaddr, 1, pteRw⟩
      :: g.data.runtimeEntries.map descriptorRange) ++ x.loads.map Elf64Phdr.range := by
  obtain ⟨hb, hd⟩ := hg
  have hpb : g.data.paddrBase = x.windowed.paddrBase := by rw [hd, Boot.final]
  have hfm : g.data.freeMemory = x.windowed.paddrBase + x.data.freeMemory := by
    rw [hd, Boot.final]
  have hn : g.data.nPages = x.data.nPages := by rw [hd, Boot.final, Boot.windowed, setWindow]
  have hl : g.data.loads = x.loads := by
    rw [hd, BootloaderData.loads, BootloaderData.headers, Boot.loads]
  have hcancel : ∀ a b : U64, a + b - a = b := fun a b => by grind
  rw [spaceRanges, dataRanges, hb, hfm, hpb, hn, hl, hcancel, hcancel, windowRanges]
  rfl

/-- The ranges that both programs map. -/
theorem shared_range (hg : HandedOver x g) {r : PageRange}
    (hr : r ∈ windowRanges x ∨ ∃ ph ∈ x.loads, r = ph.range) :
    r ∈ bootRanges x ∧ r ∈ spaceRanges g := by
  rw [mem_bootRanges, spaceRanges_eq hg, List.mem_append, List.mem_append]
  refine ⟨Or.inr hr, ?_⟩
  rcases hr with hr | ⟨ph, hph, rfl⟩
  · exact Or.inl (Or.inl hr)
  · exact Or.inr (List.mem_map_of_mem hph)

/-- Both programs map the pages that the kernel runs in, by the same requests. -/
theorem shared_request (hg : HandedOver x g) {page : U64} (hp : KernelPage x page) :
    ∃ q ∈ bootRequests x, q ∈ spaceRequests g ∧ q.vpage = page := by
  have hreq : ∀ r, r ∈ windowRanges x ∨ (∃ ph ∈ x.loads, r = ph.range) → ∀ i < r.pages,
      ∃ q ∈ bootRequests x, q ∈ spaceRequests g ∧ q.vpage = r.vpage i := by
    intro r hr i hi
    obtain ⟨hb, hk⟩ := shared_range hg hr
    have hq : (⟨r.ppage i, r.vpage i, r.flags⟩ : Request) ∈ r.requests :=
      mem_requests.2 ⟨i, hi, rfl⟩
    exact ⟨_, List.mem_flatMap.2 ⟨r, hb, hq⟩, List.mem_flatMap.2 ⟨r, hk, hq⟩, rfl⟩
  cases hp with
  | segment ph i hph hi => exact hreq _ (Or.inr ⟨ph, hph, rfl⟩) i hi
  | bootloaderData =>
    have := hreq _ (Or.inl (List.mem_cons_self ..)) 0 Nat.one_pos
    rwa [vpage_zero] at this
  | freeMemory i hi =>
    have := hreq _ (Or.inl (List.mem_cons_of_mem _ (List.mem_cons_self ..))) i hi
    rwa [PageRange.vpage, BitVec.add_assoc] at this

/-- An address of a page that the kernel runs in has the same translation in both tables, but for
the write permission of RELRO pages. -/
theorem tables_agree {s s₁ : Machine (List U64)} {t t₁ : Machine U64} {fs gs : List Frame}
    {root root' : Frame} {st st' : Store Frame Index U64} (hg : HandedOver x g)
    (hb : BootSpace x root s s₁ st fs) (hk : NewSpace g root' t t₁ st' gs) {page v : U64}
    (hp : KernelPage x page) (hv : SamePage v page) :
    (Canonical v → (walk s₁.mem (frameAddr root) v).isSome)
      ∧ translate g.data.paddrBase root' t₁ v
        = (walk s₁.mem (frameAddr root) v).map fun m => { m with
            writable := m.writable ∧ ¬ ProtectedPage g.data v } := by
  obtain ⟨q, hqb, hqk, rfl⟩ := shared_request hg hp
  have hpath : path q.vpage = path v := (path_eq_iff_samePage.2 hv).symm
  by_cases hc : Canonical v
  · have hw : walk s₁.mem (frameAddr root) v = some (mappingOf v q.entry) := by
      have htree := hb.sound.tree
      rw [← hb.models.heap] at htree
      have hwalk := walk_eq htree hc
      rw [hb.models.heap, (hb.value _ rfl _).2 ⟨q, hqb, hpath, rfl⟩] at hwalk
      change walk (physical 0 s₁.mem) _ _ = _ at hwalk
      rwa [physical_zero] at hwalk
    rw [hk.paged.translate_eq hc, (hk.value _ rfl _).2 ⟨q, hqk, hpath, rfl⟩, hw]
    refine ⟨fun _ => rfl, ?_⟩
    rw [Option.map_some]
    by_cases h : ProtectedPage g.data v
    · rw [if_pos (mem_relro_iff.2 h), mappingOf_readOnly]
      simp [h]
    · rw [if_neg (mt mem_relro_iff.1 h)]
      simp [h]
  · rw [translate_noncanonical hc, walk_noncanonical hc]
    exact ⟨fun h => absurd h hc, rfl⟩

/-- When both programs finish, each page that the kernel runs in leads to the same physical page in
the boot tables and in the kernel's, and may be written in the kernel's as in the boot tables unless
it is a RELRO page. -/
theorem same_pages {s s₁ : Machine (List U64)} {t t₁ : Machine U64} {fs gs : List Frame}
    {a a' : U64} {d : BootloaderData} (hs : s.pool = fs.map frameAddr) (hnd : fs.Nodup)
    (hboot : x.run s = .ok ((a, d), s₁)) (hg : HandedOver x g)
    (ht : FreeList g.data.paddrBase t.mem t.pool gs)
    (hkernel : newAddressSpace g t = .ok (a', t₁)) :
    ∃ root root', a = frameAddr root ∧ a' = g.data.paddrBase + frameAddr root'
      ∧ ∀ page, KernelPage x page → ∀ v, SamePage v page →
        (Canonical v → (walk s₁.mem (frameAddr root) v).isSome)
        ∧ translate g.data.paddrBase root' t₁ v
          = (walk s₁.mem (frameAddr root) v).map fun m => { m with
              writable := m.writable ∧ ¬ ProtectedPage g.data v } := by
  obtain ⟨root, free, st, rfl, rfl, -, -, hb⟩ := boot_spec hs hnd hboot
  obtain ⟨root', st', -, rfl, hk⟩ := newAddressSpace_spec ht hkernel
  exact ⟨root, root', rfl, rfl, fun page hp v hv => tables_agree hg hb hk hp hv⟩

/-- What the kernel finds after `smallBoot`, with no runtime segments. -/
def smallHandover : Globals where
  bootloaderData := 0xffffffffbfff2000
  data := { smallBoot.final with ePhnum := 2, phdrs := smallBoot.phdrs }
  apicPaddr := 0xfee00000
  apicVaddr := 0xffffffffbffee000

theorem smallHandover_ok : HandedOver smallBoot smallHandover := ⟨by decide +kernel, rfl⟩

/-- The kernel's first page becomes read only at the switch. -/
theorem same_pages_small : ∃ root root' s₁ t₁,
    smallBoot.run ⟨fun _ => 0, (framesFrom 16 9).map frameAddr⟩
        = .ok ((frameAddr root, smallBoot.final), s₁)
      ∧ newAddressSpace smallHandover (freed smallHandover.data.paddrBase (framesFrom 4 10))
        = .ok (smallHandover.data.paddrBase + frameAddr root', t₁)
      ∧ (walk s₁.mem (frameAddr root) 0xffffffffc0000ff8).isSome
      ∧ translate smallHandover.data.paddrBase root' t₁ 0xffffffffc0000ff8
        = (walk s₁.mem (frameAddr root) 0xffffffffc0000ff8).map fun m =>
          { m with writable := false } := by
  obtain ⟨a, s₁, hboot⟩ := boot_ok (x := smallBoot)
    (s := ⟨fun _ => 0, (framesFrom 16 9).map frameAddr⟩) rfl (by decide) smallBoot_ok.nodup
    (by decide +kernel)
  have hf : Fresh smallHandover.data.paddrBase 0 (framesFrom 4 10).reverse
    (freed smallHandover.data.paddrBase (framesFrom 4 10)) :=
      freed_fresh _ (by decide +kernel) (by decide +kernel)
  have hrelro : relroPages smallHandover.data = [0xffffffffc0000000] := by decide +kernel
  obtain ⟨a', t₁, hkernel⟩ := newAddressSpace_ok hf.list (by decide +kernel) (by decide +kernel)
    fun page hpage => by
      rw [hrelro, List.mem_singleton] at hpage
      subst hpage
      decide +kernel
  obtain ⟨root, root', rfl, rfl, hp⟩ := same_pages rfl (by decide) hboot smallHandover_ok hf.list
    hkernel
  obtain ⟨hsome, heq⟩ := hp _ (.segment ⟨ptLoad, pfW, 0, 0xffffffffc0000ff8, 0xeff8, 16, 16, 8⟩ 0
    (by decide) (by decide)) 0xffffffffc0000ff8 (by decide)
  have hprot : ProtectedPage smallHandover.data 0xffffffffc0000ff8 := by decide +kernel
  refine ⟨root, root', s₁, t₁, hboot, hkernel, hsome (by decide), heq.trans ?_⟩
  simp only [hprot, not_true_eq_false, and_false, decide_false]

end SctOs
