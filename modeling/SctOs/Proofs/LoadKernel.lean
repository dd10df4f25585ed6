import SctOs.LoadKernel
import SctOs.Proofs.Elf
import SctOs.Proofs.MapPage
import SctOs.Proofs.Pages

/-!
# Loading the kernel

`load_elf_pages` places the segments at the firmware's pages, in order, and lays their parts of the
file there (`loadElfPages_ok`). Of the other headers it finds the physical address when they start
in the first page of their segment (`load_elf_pages_paddr_iff`).
-/

namespace SctOs

open Bytes

namespace Loader

variable {file : File} {s s' : Machine (List U64)} {phdrs out : List Elf64Phdr}

/-! ## Reading -/

theorem read_ok {offset : U64} {n : ℕ} {b : ℕ → BitVec 8} (h : file.read offset n = .ok b) :
    ∀ i < n, b i = file.byte (offset.toNat + i) := by
  unfold File.read at h
  split_ifs at h with hlt
  obtain rfl := Except.ok.inj h
  intro i hi
  unfold File.position at hlt ⊢
  split_ifs at hlt ⊢
  · omega
  · rfl

theorem elfRead_ok {buffer offset size : U64}
    (h : elfRead file buffer offset size s = .ok ((), s')) : s' = { s with
      mem := blit s.mem buffer size.toNat fun i => file.byte (offset.toNat + i) } := by
  unfold elfRead at h
  rw [bind_run] at h
  rcases hr : file.read offset size.toNat with e | b
  · rw [hr] at h
    cases h
  · rw [hr] at h
    obtain rfl := (Prod.mk.inj (Except.ok.inj h)).2
    have hb := read_ok hr
    refine congrArg (fun m => (⟨m, s.pool⟩ : Machine (List U64))) (funext fun x => ?_)
    rw [blit_apply, blit_apply]
    split_ifs with hx
    · exact hb _ hx
    · rfl

/-! ## The segments' pages -/

theorem shift_pType (ph : Elf64Phdr) : (shift ph).pType = ph.pType := by
  unfold shift
  split_ifs <;> rfl

theorem placed_pType (ph : Elf64Phdr) (page : U64) : (placed ph page).pType = ph.pType :=
  shift_pType ph

theorem shift_load {ph : Elf64Phdr} (h : ph.pType = ptLoad) :
    shift ph = { ph with pVaddr := ph.pVaddr + kernelBase } := by
  have hs : ph.pType ≠ ptGnuStack := by
    rw [h]
    decide
  unfold shift
  rw [if_pos hs]

theorem loadSegment_shift (ph : Elf64Phdr) : loadSegment file ph = (do
    if (shift ph).pType ≠ ptLoad then return shift ph
    let page ← bsAllocatePages (numPages (shift ph).pVaddr (shift ph).pMemsz)
    let phdr := { shift ph with pPaddr := page + pageOffset (shift ph).pVaddr }
    elfRead file phdr.pPaddr phdr.pOffset phdr.pFilesz
    return phdr) := rfl

/-- A header is only shifted, or it is placed at the firmware's next page. -/
theorem loadSegment_ok {ph o : Elf64Phdr} (h : loadSegment file ph s = .ok (o, s')) :
    (ph.pType ≠ ptLoad ∧ o = shift ph ∧ s' = s) ∨ (ph.pType = ptLoad ∧ ∃ page pool,
      s.pool = page :: pool ∧ o = placed ph page ∧ s' = ⟨patchAll s.mem [o.image file], pool⟩) := by
  rw [loadSegment_shift] at h
  simp only [ite_run] at h
  split_ifs at h with hl
  · obtain ⟨rfl, rfl⟩ := Prod.mk.inj (Except.ok.inj h)
    exact Or.inl ⟨(shift_pType ph).symm.trans_ne hl, rfl, rfl⟩
  refine Or.inr ⟨(shift_pType ph).symm.trans (not_not.1 hl), ?_⟩
  obtain ⟨m, pool⟩ := s
  cases pool with
  | nil => cases h
  | cons page pool =>
    have hb : bsAllocatePages (numPages (shift ph).pVaddr (shift ph).pMemsz) ⟨m, page :: pool⟩
      = .ok (page, ⟨m, pool⟩) := rfl
    simp only [bind_run, hb] at h
    rcases hr : elfRead file (page + pageOffset (shift ph).pVaddr) (shift ph).pOffset
      (shift ph).pFilesz ⟨m, pool⟩ with e | ⟨⟨⟩, s₁⟩
    · rw [hr] at h
      cases h
    · rw [hr] at h
      obtain ⟨rfl, rfl⟩ := Prod.mk.inj (Except.ok.inj h)
      exact ⟨page, pool, rfl, rfl, elfRead_ok hr⟩

theorem loadsOf_cons (ph : Elf64Phdr) (phdrs : List Elf64Phdr) : loadsOf (ph :: phdrs)
    = if ph.pType = ptLoad then ph :: loadsOf phdrs else loadsOf phdrs := by
  simp only [loadsOf, List.filter_cons, decide_eq_true_eq]

theorem place_other {ph : Elf64Phdr} (h : ph.pType ≠ ptLoad) (phdrs : List Elf64Phdr)
    (pages : List U64) : place (ph :: phdrs) pages = shift ph :: place phdrs pages := by
  rw [place.eq_def]
  exact if_pos h

theorem place_load {ph : Elf64Phdr} (h : ph.pType = ptLoad) (phdrs : List Elf64Phdr) (page : U64)
    (pages : List U64) : place (ph :: phdrs) (page :: pages) = placed ph page :: place phdrs pages := by
  rw [place.eq_def]
  exact if_neg (not_not.2 h)

/-- The first loop places the segments and lays their parts of the file there. -/
theorem loadSegments_ok : ∀ {phdrs out : List Elf64Phdr} {s s' : Machine (List U64)},
    phdrs.mapM (loadSegment file) s = .ok (out, s') → out = place phdrs s.pool
      ∧ s'.mem = patchAll s.mem ((loadsOf out).map (Elf64Phdr.image file))
      ∧ (loadsOf phdrs).length ≤ s.pool.length ∧ s'.pool = s.pool.drop (loadsOf phdrs).length
  | [], out, s, s', h => by
    obtain ⟨rfl, rfl⟩ := Prod.mk.inj (Except.ok.inj h)
    exact ⟨rfl, rfl, Nat.zero_le _, rfl⟩
  | ph :: phdrs, out, s, s', h => by
    rw [List.mapM_cons, bind_run] at h
    rcases h₁ : loadSegment file ph s with e | ⟨o, s₁⟩
    · rw [h₁] at h
      cases h
    rw [h₁] at h
    simp only [bind_run] at h
    rcases h₂ : phdrs.mapM (loadSegment file) s₁ with e | ⟨os, s₂⟩
    · rw [h₂] at h
      cases h
    rw [h₂] at h
    obtain ⟨rfl, rfl⟩ := Prod.mk.inj (Except.ok.inj h)
    obtain ⟨rfl, hm, hle, hp⟩ := loadSegments_ok h₂
    rcases loadSegment_ok h₁ with ⟨hl, rfl, rfl⟩ | ⟨hl, page, pool, hpool, rfl, rfl⟩
    · rw [place_other hl, loadsOf_cons, shift_pType, if_neg hl, loadsOf_cons, if_neg hl]
      exact ⟨rfl, hm, hle, hp⟩
    · rw [hpool, place_load hl, loadsOf_cons, placed_pType, if_pos hl, loadsOf_cons, if_pos hl]
      exact ⟨rfl, hm, Nat.succ_le_succ hle, hp⟩

theorem setPaddr_load {ph : Elf64Phdr} (h : ph.pType = ptLoad) : setPaddr phdrs ph = ph := by
  unfold setPaddr
  rw [if_pos h]

theorem setPaddr_pType (ph : Elf64Phdr) : (setPaddr phdrs ph).pType = ph.pType := by
  unfold setPaddr
  split_ifs <;> rfl

/-- The second loop leaves the segments as they are. -/
theorem loadsOf_setPaddr (phdrs : List Elf64Phdr) : ∀ phs : List Elf64Phdr,
    loadsOf (phs.map (setPaddr phdrs)) = loadsOf phs
  | [] => rfl
  | ph :: phs => by
    rw [List.map_cons, loadsOf_cons, setPaddr_pType, loadsOf_setPaddr phdrs phs, loadsOf_cons]
    split_ifs with h
    · rw [setPaddr_load h]
    · rfl

theorem loadElfPages_ok (h : loadElfPages file phdrs s = .ok (out, s')) :
    out = (place phdrs s.pool).map (setPaddr (place phdrs s.pool))
      ∧ s'.mem = patchAll s.mem ((loadsOf out).map (Elf64Phdr.image file))
      ∧ (loadsOf phdrs).length ≤ s.pool.length ∧ s'.pool = s.pool.drop (loadsOf phdrs).length := by
  unfold loadElfPages at h
  rw [bind_run] at h
  rcases h₁ : phdrs.mapM (loadSegment file) s with e | ⟨os, s₁⟩
  · rw [h₁] at h
    cases h
  rw [h₁] at h
  obtain ⟨rfl, rfl⟩ := Prod.mk.inj (Except.ok.inj h)
  obtain ⟨rfl, hm, hle, hp⟩ := loadSegments_ok h₁
  rw [loadsOf_setPaddr]
  exact ⟨rfl, hm, hle, hp⟩

/-! ## The other headers' addresses -/

/-- A segment is at the offset in its first physical page that it has in its first virtual one. -/
theorem place_offset : ∀ {phdrs : List Elf64Phdr} {pages : List U64},
    (∀ page ∈ pages, pageOffset page = 0) → ∀ ph ∈ place phdrs pages, ph.pType = ptLoad →
      ph.pPaddr = pageBase ph.pPaddr + pageOffset ph.pVaddr
  | ph :: phdrs, pages, ha, o, ho, hl => by
    by_cases ht : ph.pType = ptLoad
    · cases pages with
      | nil =>
        rw [place.eq_def] at ho
        simp only [ne_eq, ht, not_true_eq_false, if_false, List.not_mem_nil] at ho
      | cons page pages =>
        obtain ⟨hp, ha⟩ := List.forall_mem_cons.1 ha
        rw [place_load ht] at ho
        rcases List.mem_cons.1 ho with rfl | ho
        · have h0 := congrArg BitVec.toNat hp
          rw [pageOffset_toNat] at h0
          have hlt := pageOffset_toNat (shift ph).pVaddr
          have hb := (page_split h0 (i := (pageOffset (shift ph).pVaddr).toNat) (by omega)).1
          rw [BitVec.ofNat_toNat, BitVec.setWidth_eq] at hb
          change page + pageOffset _ = pageBase (page + pageOffset _) + pageOffset _
          rw [hb]
          rfl
        · exact place_offset ha o ho hl
    · rw [place_other ht] at ho
      rcases List.mem_cons.1 ho with rfl | ho
      · exact absurd ((shift_pType ph).symm.trans hl) ht
      · exact place_offset ha o ho hl

theorem inRange_iff {base size x : U64} : InRange base size x ↔ base.toNat ≤ x.toNat
    ∧ x.toNat < base.toNat + size.toNat ∧ base.toNat + size.toNat < 2 ^ 64 := by
  have hb := base.isLt
  have hs := size.isLt
  simp only [InRange, BitVec.le_def, BitVec.lt_def, BitVec.toNat_add]
  omega

theorem last_toNat (v size : U64) : (v + size - 1).toNat
    = (v.toNat + size.toNat + (2 ^ 64 - 1)) % 2 ^ 64 := by
  have hv := v.isLt
  have hs := size.isLt
  rw [BitVec.toNat_sub, BitVec.toNat_add]
  simp only [BitVec.reduceToNat]
  omega

/-- The segments that the code's test finds for a range that does not wrap are those that hold it
and end below `2 ^ 64`. -/
theorem segmentOf_eq_host {ph : Elf64Phdr} (h0 : ph.pMemsz ≠ 0)
    (hw : ph.pVaddr.toNat + ph.pMemsz.toNat ≤ 2 ^ 64) : segmentOf phdrs ph = host phdrs ph := by
  have hs : ph.pMemsz.toNat ≠ 0 := fun he => h0 (BitVec.eq_of_toNat_eq he)
  refine find?_congr fun seg _ => decide_eq_decide.2 ?_
  rw [inRange_iff, inRange_iff, last_toNat, Covers, and_assoc (a := seg.pType = ptLoad)]
  exact and_congr_right fun _ => by omega

/-- When no segment holds the range, it finds those to which the range wraps. -/
theorem segmentOf_eq_wraps {ph : Elf64Phdr} (h : ∀ seg ∈ phdrs, ¬ Covers seg ph) :
    segmentOf phdrs ph = phdrs.find? fun seg => Wraps seg ph := by
  refine find?_congr fun seg hseg => decide_eq_decide.2 ?_
  have hv := ph.pVaddr.isLt
  have hm := ph.pMemsz.isLt
  rw [inRange_iff, inRange_iff, last_toNat, Wraps]
  refine and_congr_right fun hl => ?_
  have hc : ¬ (seg.pVaddr.toNat ≤ ph.pVaddr.toNat
      ∧ ph.pVaddr.toNat + ph.pMemsz.toNat ≤ seg.pVaddr.toNat + seg.pMemsz.toNat) :=
    fun hc => h seg hseg ⟨hl, hc⟩
  omega

theorem pageOffset_add_pageBase (v : U64) : pageOffset v + pageBase v = v := by
  have := v.isLt
  apply BitVec.eq_of_toNat_eq
  rw [BitVec.toNat_add, pageOffset_toNat, pageBase_toNat]
  omega

theorem pageOffset_add_eq_zero {v p : U64} : pageOffset v + pageBase p = 0 ↔
    pageOffset v = 0 ∧ pageBase p = 0 := by
  have := p.isLt
  simp only [← BitVec.toNat_inj, BitVec.toNat_add, pageOffset_toNat, pageBase_toNat,
    BitVec.reduceToNat]
  omega

/-- The address made from a page offset and a page base is the distance into the segment further on
just when both start in the same page. -/
theorem segment_paddr_iff {seg ph : Elf64Phdr}
    (h : seg.pPaddr = pageBase seg.pPaddr + pageOffset seg.pVaddr) :
    pageOffset ph.pVaddr + pageBase seg.pPaddr = seg.pPaddr + (ph.pVaddr - seg.pVaddr) ↔
      pageBase ph.pVaddr = pageBase seg.pVaddr := by
  have hv := pageOffset_add_pageBase ph.pVaddr
  have hs := pageOffset_add_pageBase seg.pVaddr
  generalize pageBase seg.pPaddr = b at h ⊢
  rw [h]
  constructor <;> intro he <;> grind

/-- `load_elf_pages` gives a header that is not a segment the physical address of its first byte
just when it starts in the first page of the segment that holds it, and zero when none does just
when its range does not wrap. -/
theorem load_elf_pages_paddr_iff (ha : ∀ page ∈ s.pool, pageOffset page = 0)
    (h : loadElfPages file phdrs s = .ok (out, s')) {i : ℕ} {ph o : Elf64Phdr}
    (hi : (place phdrs s.pool)[i]? = some ph) (ho : out[i]? = some o) (ht : ph.pType ≠ ptLoad) :
    PaddrOk (place phdrs s.pool) ph o.pPaddr ↔ SamePageOk (place phdrs s.pool) ph := by
  obtain ⟨rfl, -⟩ := loadElfPages_ok h
  rw [List.getElem?_map, hi, Option.map_some, Option.some.injEq] at ho
  subst ho
  have hoff : ∀ seg ∈ place phdrs s.pool, seg.pType = ptLoad →
    seg.pPaddr = pageBase seg.pPaddr + pageOffset seg.pVaddr := place_offset ha
  generalize place phdrs s.pool = placed at hoff ⊢
  have hp : (setPaddr placed ph).pPaddr = ((segmentOf placed ph).map fun seg =>
      pageOffset ph.pVaddr + pageBase seg.pPaddr).getD 0 := by
    rw [setPaddr, if_neg ht]
    rcases segmentOf placed ph with - | seg <;> rfl
  -- inside a segment, the one found is the one that holds the header
  have hin : ph.pMemsz ≠ 0 → ∀ seg ∈ host placed ph,
      ((setPaddr placed ph).pPaddr = seg.pPaddr + (ph.pVaddr - seg.pVaddr) ↔
        pageBase ph.pVaddr = pageBase seg.pVaddr) := by
    intro h0 seg hseg
    have hc := List.find?_some hseg
    rw [decide_eq_true_iff] at hc
    obtain ⟨⟨hl, hlo, hhi⟩, hend⟩ := hc
    rw [hp, segmentOf_eq_host h0 (by omega), Option.mem_def.1 hseg]
    exact segment_paddr_iff (hoff seg (List.mem_of_find?_eq_some hseg) hl)
  -- outside, the one found is one that the range wraps to
  have hout : (∀ seg ∈ placed, ¬ Covers seg ph) → ((setPaddr placed ph).pPaddr = 0 ↔
      ∀ seg ∈ placed.find? (fun seg => Wraps seg ph),
        pageOffset ph.pVaddr = 0 ∧ pageBase seg.pPaddr = 0) := by
    intro hc
    rw [hp, segmentOf_eq_wraps hc]
    rcases placed.find? (fun seg => Wraps seg ph) with - | seg
    · simp
    · simp only [Option.mem_def, Option.some.injEq, forall_eq']
      exact pageOffset_add_eq_zero
  constructor
  · rintro ⟨h₁, h₂⟩
    exact ⟨fun h0 seg hseg => (hin h0 seg hseg).1 (h₁ h0 seg hseg),
      fun hc => (hout hc).1 (h₂ hc)⟩
  · rintro ⟨h₁, h₂⟩
    exact ⟨fun h0 seg hseg => (hin h0 seg hseg).2 (h₁ h0 seg hseg),
      fun hc => (hout hc).2 (h₂ hc)⟩

/-- A segment of three pages, and a dynamic header in it. -/
def dynamicPhdrs (vaddr : U64) : List Elf64Phdr :=
  [⟨ptLoad, 0, 0, 0, 0, 0, 0x3000, 8⟩, ⟨ptDynamic, 0, 0, vaddr, 0, 0, 0x100, 8⟩]

theorem load_dynamicPhdrs (vaddr : U64) : ∃ out s',
    loadElfPages [] (dynamicPhdrs vaddr) ⟨fun _ => 0, [0x100000]⟩ = .ok (out, s') := ⟨_, _, rfl⟩

theorem load_elf_pages_paddr_iff_dynamic : ∃ out s' ph o,
    loadElfPages [] (dynamicPhdrs 0x800) ⟨fun _ => 0, [0x100000]⟩ = .ok (out, s')
      ∧ (place (dynamicPhdrs 0x800) [0x100000])[1]? = some ph ∧ out[1]? = some o
      ∧ o.pPaddr = 0x100800 ∧ PaddrOk (place (dynamicPhdrs 0x800) [0x100000]) ph o.pPaddr := by
  obtain ⟨out, s', h⟩ := load_dynamicPhdrs 0x800
  have hout := (loadElfPages_ok h).1
  have hi : (place (dynamicPhdrs 0x800) [0x100000])[1]?
    = some ⟨ptDynamic, 0, 0, 0xffffffffc0000800, 0, 0, 0x100, 8⟩ := by decide +kernel
  have ho : out[1]? = some ⟨ptDynamic, 0, 0, 0xffffffffc0000800, 0x100800, 0, 0x100, 8⟩ := by
    rw [hout]
    decide +kernel
  have hhost : host (place (dynamicPhdrs 0x800) [0x100000])
    ⟨ptDynamic, 0, 0, 0xffffffffc0000800, 0, 0, 0x100, 8⟩
      = some ⟨ptLoad, 0, 0, 0xffffffffc0000000, 0x100000, 0, 0x3000, 8⟩ := by decide +kernel
  have ha : ∀ page ∈ [(0x100000 : U64)], pageOffset page = 0 := List.forall_mem_singleton.2 rfl
  refine ⟨out, s', _, _, h, hi, ho, rfl, (load_elf_pages_paddr_iff ha h hi ho (by decide)).2
    ⟨fun _ seg hseg => ?_, fun hc => ?_⟩⟩
  · obtain rfl := Option.some.inj (hhost.symm.trans hseg)
    decide +kernel
  · exact absurd (by decide +kernel) (hc _ (List.mem_of_find?_eq_some hhost))

/-- A header in the segment's third page gets the address of the first. -/
theorem load_elf_pages_third_page : ∃ out s' ph o,
    loadElfPages [] (dynamicPhdrs 0x2000) ⟨fun _ => 0, [0x100000]⟩ = .ok (out, s')
      ∧ (place (dynamicPhdrs 0x2000) [0x100000])[1]? = some ph ∧ out[1]? = some o
      ∧ o.pPaddr = 0x100000
      ∧ ¬ PaddrOk (place (dynamicPhdrs 0x2000) [0x100000]) ph o.pPaddr := by
  obtain ⟨out, s', h⟩ := load_dynamicPhdrs 0x2000
  have hout := (loadElfPages_ok h).1
  have hi : (place (dynamicPhdrs 0x2000) [0x100000])[1]?
    = some ⟨ptDynamic, 0, 0, 0xffffffffc0002000, 0, 0, 0x100, 8⟩ := by decide +kernel
  have ho : out[1]? = some ⟨ptDynamic, 0, 0, 0xffffffffc0002000, 0x100000, 0, 0x100, 8⟩ := by
    rw [hout]
    decide +kernel
  have hhost : host (place (dynamicPhdrs 0x2000) [0x100000])
    ⟨ptDynamic, 0, 0, 0xffffffffc0002000, 0, 0, 0x100, 8⟩
      = some ⟨ptLoad, 0, 0, 0xffffffffc0000000, 0x100000, 0, 0x3000, 8⟩ := by decide +kernel
  refine ⟨out, s', _, _, h, hi, ho, rfl, fun hok => ?_⟩
  have := hok.inside (by decide) _ hhost
  revert this
  decide +kernel

end Loader

end SctOs
