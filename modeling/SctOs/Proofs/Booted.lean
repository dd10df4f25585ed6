import SctOs.EfiMain2
import SctOs.Proofs.KernelImage
import SctOs.Proofs.Translated

/-!
# The kernel's segments through the boot tables

The boot tables lead each address of a segment to its place in the firmware's pages, no two to the
same place and none to the tables (`Booted.stable`). What is read there is the image that the file
describes (`Booted.seen_eq`), with the headers that `load_kernel` left (`Booted.phdrs_seen`).
-/

namespace SctOs

open Bytes Radix

namespace Loader

variable {file : File} {runs : List PageRun} {free : List Frame} {s s₁ s₂ : Machine (List U64)}
  {e p : U64} {out : List Elf64Phdr} {mid : Machine (List U64)} {q q' : Elf64Phdr × PageRun}
  {root : Frame} {st : Store Frame Index U64} {m m' : Memory} {y : Boot} {v : U64}

theorem view_translation (m : Memory) (cr3 : U64) : (translation cr3).view m = seen m cr3 := by
  funext v
  rw [Translation.view, translation, seen]
  cases walk m cr3 v <;> rfl

theorem shows_seen {cr3 : U64} {V : U64 → Prop} : (translation cr3).Shows m V (seen m cr3) m := by
  rw [← view_translation]
  exact Translation.Shows.start

theorem seen_of_shows {cr3 : U64} {V : U64 → Prop} {phys₀ phys M : Memory}
    (h : (translation cr3).Shows phys₀ V M phys) (hv : V v) : seen phys cr3 v = M v := by
  rw [← view_translation]
  exact h.inside v hv

theorem walk_congr {cr3 : U64} (h : translation cr3 m' v = translation cr3 m v) :
    walk m' cr3 v = walk m cr3 v := by
  refine Option.map_injective (f := fun t : Mapping => (t.paddr, t.writable)) ?_ h
  rintro ⟨a, w⟩ ⟨a', w'⟩ hp
  obtain ⟨rfl, rfl⟩ := Prod.mk.inj hp
  rfl

/-! ## Where the segments are -/

/-- Where the byte of a segment at an address is loaded. -/
def placeOf (q : Elf64Phdr × PageRun) (v : U64) : U64 :=
  (loadedAt q).pPaddr + (v - (shift q.1).pVaddr)

/-- The address is in the memory of a segment. -/
def InMemory (q : Elf64Phdr × PageRun) (v : U64) : Prop :=
  (v - (shift q.1).pVaddr).toNat < q.1.pMemsz.toNat

theorem placeOf_eq (q : Elf64Phdr × PageRun) (v : U64) : placeOf q v
    = (loadedAt q).pPaddr + BitVec.ofNat 64 (v - (shift q.1).pVaddr).toNat := by
  rw [placeOf, BitVec.ofNat_toNat, BitVec.setWidth_eq]

theorem placeOf_inj {v v' : U64} (h : placeOf q v = placeOf q v') : v = v' := by
  unfold placeOf at h
  grind

theorem placeOf_inPages (hp : Placement file runs free s.pool) (hb : Bounded file.phdrs)
    (hq : q ∈ segments file runs) (hv : InMemory q v) : InPages q.2.frames (placeOf q v) := by
  have hsz := memsz_le hp hb hq
  unfold InMemory at hv
  rw [placeOf_eq, pPaddr_add]
  exact PageRun.inPages (by omega)

theorem inPages_frame {fs : List Frame} {f : Frame} {i : ℕ} (hf : f ∈ fs) (hi : i < 4096) :
    InPages fs (frameAddr f + BitVec.ofNat 64 i) := by
  refine ⟨f, hf, BitVec.eq_of_toNat_eq ?_⟩
  rw [pageBase_toNat, BitVec.toNat_add, frameAddr_toNat, BitVec.toNat_ofNat]
  omega

theorem inRuns (hq : q ∈ segments file runs) {x : U64} (hx : InPages q.2.frames x) :
    InPages (runs.flatMap PageRun.frames) x := by
  obtain ⟨f, hf, hx⟩ := hx
  exact ⟨f, List.mem_flatMap.2 ⟨_, (mem_segments hq).2, hf⟩, hx⟩

theorem segments_unique {x : U64} (hp : Placement file runs free s.pool)
    (hq : q ∈ segments file runs) (hq' : q' ∈ segments file runs) (hx : InPages q.2.frames x)
    (hx' : InPages q'.2.frames x) : q = q' := by
  by_contra hne
  have : Std.Symm fun q q' : Elf64Phdr × PageRun => q.2.frames.Disjoint q'.2.frames :=
    ⟨fun _ _ hd => hd.symm⟩
  have hd := hp.pairwise.forall hq hq' hne
  exact InPages.disjoint hd hx hx'

theorem exists_segment {ph : Elf64Phdr} (hp : Placement file runs free s.pool)
    (hph : ph ∈ loadsOf file.phdrs) : ∃ run, (ph, run) ∈ segments file runs := by
  obtain ⟨i, hi, rfl⟩ := List.getElem_of_mem hph
  have hi' : i < runs.length := hp.length ▸ hi
  exact ⟨runs[i], List.mem_iff_getElem.2 ⟨i, by simp [segments, hi, hi'], by simp [segments]⟩⟩

theorem inSegments_iff (hp : Placement file runs free s.pool) :
    InSegments file v ↔ ∃ q ∈ segments file runs, InMemory q v := by
  constructor
  · rintro ⟨ph, hph, hv⟩
    obtain ⟨run, hq⟩ := exists_segment hp hph
    exact ⟨_, hq, hv⟩
  · rintro ⟨q, hq, hv⟩
    exact ⟨q.1, (mem_segments hq).1, hv⟩

/-! ## The tables -/

theorem writable_entry (ppage : U64) : (ppage ||| pteP ||| pteRw) &&& pteRw ≠ 0 := by
  have h : (ppage ||| pteP ||| pteRw) &&& pteRw = pteRw := by
    ext i hi
    simp only [BitVec.getElem_and, BitVec.getElem_or]
    cases pteRw[i] <;> simp
  rw [h]
  decide

/-- The kernel is loaded, with its headers in the first segment `q`, and mapped from `root` on, and
`m` still has the pages of both. -/
structure Booted (file : File) (runs : List PageRun) (free : List Frame)
    (s s₁ s₂ : Machine (List U64)) (q : Elf64Phdr × PageRun) (out : List Elf64Phdr) (root : Frame)
    (m : Memory) : Prop where
  kernel : KernelFile file
  base : HeadersAtBase file
  placement : Placement file runs free s.pool
  loaded : ∃ e p mid, Loaded file runs free s s₁ e p out mid q
  space : ∃ y st, BootSpace y root s₁ s₂ st free ∧ y.loads = (segments file runs).map loadedAt
  kept : ∀ x, InPages (runs.flatMap PageRun.frames ++ free) x → m x = s₂.mem x

namespace Booted

variable (b : Booted file runs free s s₁ s₂ q out root m)

include b

theorem bounded : Bounded file.phdrs := b.kernel.bounded

theorem high (hq' : q' ∈ segments file runs) (hv : InMemory q' v) :
    kernelBase.toNat ≤ v.toNat := by
  have hh := b.kernel.high q'.1 (mem_segments hq').1
  unfold InMemory at hv
  rw [← offset_self (shift q'.1).pVaddr v, BitVec.toNat_add, BitVec.toNat_ofNat]
  omega

theorem canonical (hq' : q' ∈ segments file runs) (hv : InMemory q' v) : Canonical v := by
  have hh := b.high hq' hv
  rw [kernelBase_toNat] at hh
  right
  omega

/-- The request that maps the page of an address. -/
theorem request (hload : y.loads = (segments file runs).map loadedAt)
    (hq' : q' ∈ segments file runs) (hv : InMemory q' v) :
    ∃ r ∈ bootRequests y, path r.vpage = path v ∧ (q'.1.pFlags &&& pfW ≠ 0 → r.flags = pteRw) := by
  have hrun := memsz_le b.placement b.bounded hq'
  have hstart : startOf q' = (loadedAt q').pVaddr.toNat % 4096 := pageOffset_toNat _
  have hflags : (loadedAt q').pFlags = q'.1.pFlags ∧ (loadedAt q').pMemsz = q'.1.pMemsz := by
    rw [loadedAt, placed, shift_load (segment_load hq')]
    exact ⟨rfl, rfl⟩
  unfold InMemory at hv
  generalize hi : (v - (shift q'.1).pVaddr).toNat = i at hv
  have hvi : v = (loadedAt q').pVaddr + BitVec.ofNat 64 i := by
    rw [← hi]
    exact (offset_self _ v).symm
  have hidx : (startOf q' + i) / 4096 < (loadedAt q').range.pages := by
    have hpages : (loadedAt q').range.pages = q'.2.pages := by
      rw [b.placement.pages q' hq', Elf64Phdr.range, hflags.2]
      rfl
    omega
  refine ⟨⟨(loadedAt q').range.ppage _, (loadedAt q').range.vpage _, (loadedAt q').range.flags⟩,
    List.mem_flatMap.2 ⟨_, mem_bootRanges.2 (Or.inr (Or.inr ⟨_,
      hload ▸ List.mem_map_of_mem hq', rfl⟩)), mem_requests.2 ⟨_, hidx, rfl⟩⟩, ?_, fun hw => ?_⟩
  · rw [hvi, ← path_pageBase (_ + BitVec.ofNat 64 i), pageBase_add, ← hstart]
    rfl
  · rw [← hflags.1] at hw
    exact if_pos hw

/-- An address of a segment leads to its place, whatever is written outside the tables. -/
theorem leads (hq' : q' ∈ segments file runs) (hv : InMemory q' v) :
    ∃ w, (q'.1.pFlags &&& pfW ≠ 0 → w = true) ∧
      ∀ m', (∀ f ∈ free, SameAt m' s₂.mem (frameAddr f) 4096) →
        translation (frameAddr root) m' v = some (placeOf q' v, w) := by
  obtain ⟨y, st, hy, hload⟩ := b.space
  obtain ⟨r, hr, hpath, hw⟩ := b.request hload hq' hv
  refine ⟨(mappingOf v r.entry).writable, fun hf => ?_, fun m' hm' => ?_⟩
  · rw [mappingOf, Request.entry, hw hf]
    exact decide_eq_true (writable_entry _)
  have hvi := offset_self (shift q'.1).pVaddr v
  have hc := b.canonical hq' hv
  have hwalk := hy.walk hm' hr hc hpath
  have hi : (v - (shift q'.1).pVaddr).toNat < q'.1.pMemsz.toNat := hv
  rw [← hvi] at hc
  obtain ⟨w, hw⟩ := segment_walk b.placement b.bounded hload hy hm' hq' hi hc
  have hpaddr := congrArg (Option.map Mapping.paddr) (hwalk.symm.trans (hvi ▸ hw))
  rw [translation, hwalk, placeOf_eq]
  exact congrArg some (Prod.ext (Option.some.inj hpaddr) rfl)

theorem tables_kept : ∀ f ∈ free, SameAt m s₂.mem (frameAddr f) 4096 := by
  intro f hf i hi
  exact b.kept _ (inPages_frame (List.mem_append_right _ hf) hi)

theorem lead (hq' : q' ∈ segments file runs) (hv : InMemory q' v) :
    ∃ w, (q'.1.pFlags &&& pfW ≠ 0 → w = true) ∧
      translation (frameAddr root) m v = some (placeOf q' v, w) := by
  obtain ⟨w, hw, h⟩ := b.leads hq' hv
  exact ⟨w, hw, h m b.tables_kept⟩

/-- The segment that has an address is the only one. -/
theorem unique {q₁ q₂ : Elf64Phdr × PageRun} (hq₁ : q₁ ∈ segments file runs)
    (hq₂ : q₂ ∈ segments file runs) (hv₁ : InMemory q₁ v) (hv₂ : InMemory q₂ v) : q₁ = q₂ := by
  obtain ⟨w₁, -, h₁⟩ := b.lead hq₁ hv₁
  obtain ⟨w₂, -, h₂⟩ := b.lead hq₂ hv₂
  have hplace : placeOf q₁ v = placeOf q₂ v := (Prod.mk.inj (Option.some.inj (h₁.symm.trans h₂))).1
  have hx := placeOf_inPages b.placement b.bounded hq₁ hv₁
  rw [hplace] at hx
  exact segments_unique b.placement hq₁ hq₂ hx (placeOf_inPages b.placement b.bounded hq₂ hv₂)

theorem reached {a : U64} (h : (translation (frameAddr root)).Reached m (InSegments file) a) :
    InPages (runs.flatMap PageRun.frames) a := by
  obtain ⟨v, hv, ha⟩ := h
  obtain ⟨q', hq', hv⟩ := (inSegments_iff b.placement).1 hv
  obtain ⟨w, -, hlead⟩ := b.lead hq' hv
  rw [hlead] at ha
  obtain rfl := Option.some.inj ha
  exact inRuns hq' (placeOf_inPages b.placement b.bounded hq' hv)

theorem stable : (translation (frameAddr root)).Stable m (InSegments file) where
  mapped v hv := by
    obtain ⟨q', hq', hv⟩ := (inSegments_iff b.placement).1 hv
    obtain ⟨w, -, h⟩ := b.lead hq' hv
    rw [h]
    rfl
  inj v v' hv hv' h := by
    obtain ⟨q₁, hq₁, hv⟩ := (inSegments_iff b.placement).1 hv
    obtain ⟨q₂, hq₂, hv'⟩ := (inSegments_iff b.placement).1 hv'
    obtain ⟨w₁, -, h₁⟩ := b.lead hq₁ hv
    obtain ⟨w₂, -, h₂⟩ := b.lead hq₂ hv'
    have hplace : placeOf q₁ v = placeOf q₂ v' := by simpa [h₁, h₂] using h
    have hx := placeOf_inPages b.placement b.bounded hq₁ hv
    rw [hplace] at hx
    obtain rfl := segments_unique b.placement hq₁ hq₂ hx
      (placeOf_inPages b.placement b.bounded hq₂ hv')
    exact placeOf_inj hplace
  kept m' hm' v hv := by
    obtain ⟨q', hq', hv⟩ := (inSegments_iff b.placement).1 hv
    obtain ⟨w, -, h⟩ := b.leads hq' hv
    have hfree : ∀ f ∈ free, SameAt m' s₂.mem (frameAddr f) 4096 := by
      intro f hf i hi
      rw [← b.tables_kept f hf i hi]
      refine hm' _ fun hreached => ?_
      refine InPages.disjoint (List.disjoint_of_nodup_append b.placement.nodup)
        (b.reached hreached) (inPages_frame hf hi)
    rw [h m' hfree, h m b.tables_kept]

/-! ## The image -/

theorem first_vaddr : q ∈ segments file runs ∧ (shift q.1).pVaddr = kernelBase := by
  obtain ⟨e, p, mid, hl⟩ := b.loaded
  refine ⟨hl.segment, ?_⟩
  rw [shift_load (segment_load hl.segment), b.base.base q.1 hl.first]
  exact BitVec.zero_add _

theorem placed_byte {k : ℕ} : placeOf q (kernelBase + BitVec.ofNat 64 k)
    = (loadedAt q).pPaddr + BitVec.ofNat 64 k := by
  rw [placeOf, b.first_vaddr.2]
  grind

theorem first_inMemory {k : ℕ} (hk : k < q.1.pFilesz.toNat) :
    InMemory q (kernelBase + BitVec.ofNat 64 k) := by
  have hle := b.bounded.filesz q.1 (mem_segments b.first_vaddr.1).1
  have hlt := q.1.pFilesz.isLt
  rw [InMemory, b.first_vaddr.2, BitVec.add_comm, BitVec.add_sub_cancel, BitVec.toNat_ofNat]
  omega

/-- What the loader rewrote it sees at the addresses of the headers. -/
theorem rewritten {e p : U64} (hl : Loaded file runs free s s₁ e p out mid q)
    (hq' : q' ∈ segments file runs) (hv : InMemory q' v) (h : Rewritten file e (placeOf q' v)) :
    Rewritten file kernelBase v := by
  obtain ⟨hafter, hend, hsz⟩ := hl.fields_lt b.placement b.bounded b.base.toHeadersApart
  have hehdr := b.base.ehdr q.1 hl.first
  unfold sizeofEhdr at hehdr
  -- the rewritten byte is in the first segment's pages
  have hfirst : ∀ k < q.1.pFilesz.toNat, placeOf q' v = e + BitVec.ofNat 64 k →
      v = kernelBase + BitVec.ofNat 64 k := by
    intro k hk hx
    rw [hl.ehdr, ← b.placed_byte] at hx
    have hpage := placeOf_inPages b.placement b.bounded hq' hv
    rw [hx] at hpage
    obtain rfl := segments_unique b.placement hq' hl.segment hpage
      (placeOf_inPages b.placement b.bounded hl.segment (b.first_inMemory hk))
    exact placeOf_inj hx
  rcases h with h | ⟨j, hj, h⟩
  · left
    generalize ht : (placeOf q' v - (e + 24)).toNat = t at h
    have hx := offset_self (e + 24) (placeOf q' v)
    have h24 : (24 : U64) = BitVec.ofNat 64 24 := rfl
    rw [ht, h24, BitVec.add_assoc, ← BitVec.ofNat_add] at hx
    rw [hfirst _ (by omega) hx.symm, BitVec.ofNat_add, ← BitVec.add_assoc, ← h24,
      BitVec.add_comm (_ + _),
      BitVec.add_sub_cancel, BitVec.toNat_ofNat]
    omega
  · right
    refine ⟨j, hj, ?_⟩
    rw [vaddr_add] at h
    generalize ht : (placeOf q' v
      - (e + BitVec.ofNat 64 (file.ehdr.ePhoff.toNat + 56 * j + 16))).toNat = t at h
    have hx := offset_self (e + BitVec.ofNat 64 (file.ehdr.ePhoff.toNat + 56 * j + 16))
      (placeOf q' v)
    rw [ht, BitVec.add_assoc, ← BitVec.ofNat_add] at hx
    rw [hfirst _ (by omega) hx.symm, vaddr_add, BitVec.ofNat_add, ← BitVec.add_assoc,
      BitVec.add_comm (_ + _), BitVec.add_sub_cancel, BitVec.toNat_ofNat]
    omega

theorem segmentAt_eq (hq' : q' ∈ segments file runs)
    (hv : (v - (shift q'.1).pVaddr).toNat < q'.1.pFilesz.toNat) :
    file.segmentAt v = some q'.1 := by
  have hle := fun ph hph => b.bounded.filesz ph hph
  have hmem : InMemory q' v := lt_of_lt_of_le hv (hle _ (mem_segments hq').1)
  unfold File.segmentAt
  rcases hf : (loadsOf file.phdrs).find? (fun ph =>
    (v - (shift ph).pVaddr).toNat < ph.pFilesz.toNat) with - | ph
  · exact absurd hv (by simpa using List.find?_eq_none.1 hf _ (mem_segments hq').1)
  · have hph := List.mem_of_find?_eq_some hf
    have hlt : (v - (shift ph).pVaddr).toNat < ph.pFilesz.toNat := by
      simpa using List.find?_some hf
    obtain ⟨run, hq₁⟩ := exists_segment b.placement hph
    rw [← b.unique hq₁ hq' (lt_of_lt_of_le hlt (hle ph hph)) hmem]

/-- What the loader reads at the addresses of the kernel. -/
theorem seen_eq (hv : InFile file v) : seen m (frameAddr root) v = file.memory v := by
  obtain ⟨⟨ph, hph, hlt⟩, hx⟩ := hv
  obtain ⟨e, p, mid, hl⟩ := b.loaded
  obtain ⟨y, st, hy, hload⟩ := b.space
  obtain ⟨run, hq'⟩ := exists_segment b.placement hph
  have hmem : InMemory (ph, run) v := lt_of_lt_of_le hlt (b.bounded.filesz ph hph)
  have hx' : ¬ Rewritten file e (placeOf (ph, run) v) := fun h => hx (b.rewritten hl hq' hmem h)
  obtain ⟨w, -, hlead⟩ := b.lead hq' hmem
  have hkept := b.kept (placeOf (ph, run) v) (by
    obtain ⟨f, hf, hin⟩ := inRuns hq' (placeOf_inPages b.placement b.bounded hq' hmem)
    exact ⟨f, List.mem_append_left _ hf, hin⟩)
  have himage := image_at b.placement b.bounded hq' hlt (m := s.mem)
  rw [← view_translation, Translation.view_of_some hlead, hkept, placeOf_eq,
    image_kept b.placement b.bounded hy hq' hlt, ← placeOf_eq, hl.frame hx', hl.read, placeOf_eq,
    himage, File.memory, b.segmentAt_eq hq' hlt]

theorem seen_first {k : ℕ} (hk : k < q.1.pFilesz.toNat) :
    seen m (frameAddr root) (kernelBase + BitVec.ofNat 64 k)
      = s₁.mem ((loadedAt q).pPaddr + BitVec.ofNat 64 k) := by
  obtain ⟨y, st, hy, -⟩ := b.space
  have hq := b.first_vaddr.1
  have hmem := b.first_inMemory hk
  obtain ⟨w, -, hlead⟩ := b.lead hq hmem
  have hkept := b.kept _ (by
    obtain ⟨f, hf, hin⟩ := inRuns hq (placeOf_inPages b.placement b.bounded hq hmem)
    exact ⟨f, List.mem_append_left _ hf, hin⟩)
  rw [← view_translation, Translation.view_of_some hlead, hkept, b.placed_byte,
    image_kept b.placement b.bounded hy hq hk]

theorem ehdr_seen : ehdrAt (seen m (frameAddr root)) kernelBase
    = { file.ehdr with eEntry := file.ehdr.eEntry + kernelBase } := by
  obtain ⟨e, p, mid, hl⟩ := b.loaded
  have hsz := b.base.ehdr q.1 hl.first
  rw [← hl.ehdrAt_eq b.placement b.bounded b.base.toHeadersApart hsz, hl.ehdr]
  exact ehdr_congr fun i hi => b.seen_first (hi.trans_le hsz)

theorem phdrs_seen : phdrsAt (seen m (frameAddr root)) (kernelBase + file.ehdr.ePhoff)
    file.ehdr.ePhnum.toNat = out := by
  obtain ⟨e, p, mid, hl⟩ := b.loaded
  have hend := b.base.phdrs q.1 hl.first
  have hoff : ∀ (a : U64) (k : ℕ), a + file.ehdr.ePhoff + BitVec.ofNat 64 (0 + k)
      = a + BitVec.ofNat 64 (file.ehdr.ePhoff.toNat + k) := by
    intro a k
    rw [Nat.zero_add, BitVec.ofNat_add, BitVec.ofNat_toNat, BitVec.setWidth_eq, BitVec.add_assoc]
  rw [← hl.phdrsAt_eq b.placement b.bounded b.base.toHeadersApart, hl.phdrs]
  refine phdrs_congr fun k hk => ?_
  rw [bytesFrom, bytesFrom, hoff, hoff, hl.ehdr]
  exact b.seen_first (by omega)

/-- The bytes of both headers are in the memory of a segment. -/
theorem first_inSegments {k : ℕ} (hk : k < q.1.pFilesz.toNat) :
    InSegments file (kernelBase + BitVec.ofNat 64 k) :=
  (inSegments_iff b.placement).2 ⟨q, b.first_vaddr.1, b.first_inMemory hk⟩

end Booted

end Loader

end SctOs
