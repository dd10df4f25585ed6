import SctOs.Proofs.LoadKernel

/-!
# Where the kernel is loaded

When each segment's part of the file fits in its memory, the parts lie in different pages of the
firmware's, so that memory holds all of them (`image_at`). `load_kernel` then finds the headers at
the start of the first segment (`loadKernel_spec`), and writes to no other pages
(`load_kernel_in_pages`).
-/

namespace SctOs

open Bytes

namespace Loader

variable {file : File} {s s' : Machine (List U64)} {phdrs out : List Elf64Phdr}

/-! ## The headers in the file -/

theorem phdrs_length (file : File) : file.phdrs.length = file.ehdr.ePhnum.toNat := by
  unfold File.phdrs phdrsOfBytes
  rw [List.length_map, List.length_range]

theorem readProgramHeaders_ok {e : Elf64Ehdr} (h : readProgramHeaders file = .ok (e, phdrs)) :
    e = file.ehdr ∧ e.VerifyMagic ∧ phdrs = file.phdrs := by
  unfold readProgramHeaders at h
  rcases hr : file.read 0 sizeofEhdr with e | b
  · rw [hr] at h
    cases h
  rw [hr] at h
  have he : Elf64Ehdr.ofBytes b = file.ehdr := ehdr_congr fun i hi => by
    simpa using read_ok hr i hi
  change (if ¬ (Elf64Ehdr.ofBytes b).VerifyMagic then _ else _) = _ at h
  rw [he] at h
  split_ifs at h with hm h0 h0
  · cases h
    refine ⟨rfl, hm, ?_⟩
    unfold File.phdrs
    rw [h0]
    rfl
  · dsimp only at h
    rcases hr' : file.read file.ehdr.ePhoff (sizeofPhdr * file.ehdr.ePhnum.toNat) with e | b'
    · rw [hr'] at h
      cases h
    rw [hr'] at h
    cases h
    exact ⟨rfl, hm, phdrs_congr fun k hk => by rw [Nat.zero_add, read_ok hr' k hk]⟩
  · cases h
  · cases h

/-! ## The segments and their pages -/

variable {runs : List PageRun} {free : List Frame}

theorem loadsOf_place : ∀ (phdrs : List Elf64Phdr) (pages : List U64),
    loadsOf (place phdrs pages) = (loadsOf phdrs).zipWith placed pages
  | [], _ => rfl
  | ph :: phdrs, pages => by
    by_cases hl : ph.pType = ptLoad
    · cases pages with
      | nil =>
        rw [place.eq_def]
        simp only [ne_eq, hl, not_true_eq_false, if_false, List.zipWith_nil_right]
        rfl
      | cons page pages =>
        rw [place_load hl, loadsOf_cons, placed_pType, if_pos hl, loadsOf_cons, if_pos hl,
          loadsOf_place phdrs pages, List.zipWith_cons_cons]
    · rw [place_other hl, loadsOf_cons, shift_pType, if_neg hl, loadsOf_cons, if_neg hl,
        loadsOf_place phdrs pages]

namespace PageRun

variable {run run' : PageRun} {x : U64}

theorem base_toNat (run : PageRun) : run.base.toNat = run.first.toNat * 4096 := frameAddr_toNat _

theorem inPages_iff : InPages run.frames x ↔
    run.base.toNat ≤ x.toNat ∧ x.toNat < run.base.toNat + 4096 * run.pages := by
  have hfits := run.fits
  have hx := x.isLt
  rw [base_toNat]
  constructor
  · rintro ⟨f, hf, hb⟩
    obtain ⟨i, hi, rfl⟩ := List.mem_map.1 hf
    rw [List.mem_range] at hi
    have hn := congrArg BitVec.toNat hb
    rw [pageBase_toNat, frameAddr_toNat, BitVec.toNat_add, BitVec.toNat_ofNat] at hn
    omega
  · intro h
    refine ⟨run.first + BitVec.ofNat 36 (x.toNat / 4096 - run.first.toNat),
      List.mem_map_of_mem (List.mem_range.2 (by omega)), BitVec.eq_of_toNat_eq ?_⟩
    rw [pageBase_toNat, frameAddr_toNat, BitVec.toNat_add, BitVec.toNat_ofNat]
    omega

/-- The bytes from somewhere in the first page on. -/
theorem offset_toNat {i : ℕ} (hi : i < 4096 * run.pages) :
    (run.base + BitVec.ofNat 64 i).toNat = run.base.toNat + i := by
  have hfits := run.fits
  rw [BitVec.toNat_add, BitVec.toNat_ofNat, base_toNat]
  omega

theorem inPages {i : ℕ} (hi : i < 4096 * run.pages) :
    InPages run.frames (run.base + BitVec.ofNat 64 i) := by
  rw [inPages_iff, offset_toNat hi]
  omega

end PageRun

theorem InPages.disjoint {fs gs : List Frame} {x : U64} (hd : fs.Disjoint gs) (hx : InPages fs x) :
    ¬ InPages gs x := by
  rintro ⟨g, hg, hb'⟩
  obtain ⟨f, hf, hb⟩ := hx
  obtain rfl := frameAddr_inj (hb.symm.trans hb')
  exact hd hf hg

theorem mem_segments {q : Elf64Phdr × PageRun} (hq : q ∈ segments file runs) :
    q.1 ∈ loadsOf file.phdrs ∧ q.2 ∈ runs := List.of_mem_zip hq

namespace Placement

variable (hp : Placement file runs free s.pool)

include hp

theorem loadsOf_eq : loadsOf (place file.phdrs s.pool) = (segments file runs).map loadedAt := by
  have hlen : (loadsOf file.phdrs).length = (runs.map PageRun.base).length := by
    rw [List.length_map, hp.length]
  have htake : (loadsOf file.phdrs).zipWith placed (runs.map PageRun.base ++ free.map frameAddr)
      = (loadsOf file.phdrs).zipWith placed (runs.map PageRun.base) := by
    have h : (loadsOf file.phdrs ++ []).zipWith placed (runs.map PageRun.base ++ free.map frameAddr)
      = _ := List.zipWith_append hlen
    rwa [List.append_nil, List.zipWith_nil_left, List.append_nil] at h
  rw [loadsOf_place, hp.pool, htake, segments, List.zip, List.map_zipWith, List.zipWith_map_right]

theorem pairwise : (segments file runs).Pairwise fun q q' => q.2.frames.Disjoint q'.2.frames := by
  have hruns := (List.nodup_flatMap.1 (List.nodup_append.1 hp.nodup).1).2
  rw [← List.pairwise_map (f := Prod.snd) (R := fun r r' : PageRun => r.frames.Disjoint r'.frames)]
  rw [segments, List.map_snd_zip (by rw [hp.length])]
  exact hruns

end Placement

section Bounded

variable (hp : Placement file runs free s.pool) (hb : Bounded file.phdrs)
  {q : Elf64Phdr × PageRun} (hq : q ∈ segments file runs)

theorem pPaddr_add (q : Elf64Phdr × PageRun) (i : ℕ) :
    (loadedAt q).pPaddr + BitVec.ofNat 64 i = q.2.base + BitVec.ofNat 64 (startOf q + i) := by
  rw [BitVec.ofNat_add, startOf, BitVec.ofNat_toNat, BitVec.setWidth_eq, ← BitVec.add_assoc]
  rfl

theorem startOf_eq (hl : q.1.pType = ptLoad) : startOf q = (pageOffset q.1.pVaddr).toNat := by
  have := kernelBase_toNat
  rw [startOf, shift_load hl, pageOffset_toNat, pageOffset_toNat, BitVec.toNat_add]
  omega

theorem segment_load (hq : q ∈ segments file runs) : q.1.pType = ptLoad := by
  have := (List.mem_filter.1 (mem_segments hq).1).2
  rwa [decide_eq_true_iff] at this

include hp hb hq

/-- The firmware's pages hold a segment's memory. -/
theorem memsz_le : startOf q + q.1.pMemsz.toNat ≤ 4096 * q.2.pages := by
  have hm := hb.memsz q.1 (mem_segments hq).1
  rw [← startOf_eq (segment_load hq)] at hm
  have hs : startOf q = (shift q.1).pVaddr.toNat % 4096 := pageOffset_toNat _
  rw [hp.pages q hq, numPages_toNat (by omega)]
  omega

theorem filesz_le : startOf q + q.1.pFilesz.toNat ≤ 4096 * q.2.pages :=
  le_trans (Nat.add_le_add_left (hb.filesz q.1 (mem_segments hq).1) _) (memsz_le hp hb hq)

theorem inPages {i : ℕ} (hi : i < q.1.pFilesz.toNat) :
    InPages q.2.frames ((loadedAt q).pPaddr + BitVec.ofNat 64 i) := by
  have := filesz_le hp hb hq
  rw [pPaddr_add]
  exact PageRun.inPages (by omega)

theorem image_inPages {x : U64} (hx : ((loadedAt q).image file).Mem x) : InPages q.2.frames x := by
  have hsz : (loadedAt q).pFilesz = q.1.pFilesz := by
    rw [loadedAt, placed, shift_load (segment_load hq)]
  have hi : (x - (loadedAt q).pPaddr).toNat < q.1.pFilesz.toNat := hsz ▸ hx
  have := inPages hp hb hq hi
  rwa [offset_self] at this

omit hq

theorem image_pairwise (x : U64) : ((segments file runs).map fun q => (loadedAt q).image file).Pairwise
    fun p q => p.Mem x → ¬ q.Mem x := by
  refine List.pairwise_map.2 (hp.pairwise.imp_of_mem fun {q q'} hq hq' hd hx hx' => ?_)
  exact InPages.disjoint hd (image_inPages hp hb hq hx) (image_inPages hp hb hq' hx')

include hq

theorem image_at {m : Memory} {i : ℕ} (hi : i < q.1.pFilesz.toNat) :
    patchAll m ((segments file runs).map fun q => (loadedAt q).image file)
      ((loadedAt q).pPaddr + BitVec.ofNat 64 i) = file.byte (q.1.pOffset.toNat + i) := by
  have hs := shift_load (segment_load hq)
  have hlt := q.1.pFilesz.isLt
  have hsub : ((loadedAt q).pPaddr + BitVec.ofNat 64 i - (loadedAt q).pPaddr).toNat = i := by
    rw [BitVec.add_comm, BitVec.add_sub_cancel, BitVec.toNat_ofNat, Nat.mod_eq_of_lt (by omega)]
  have hmem : ((loadedAt q).image file).Mem ((loadedAt q).pPaddr + BitVec.ofNat 64 i) := by
    change (_ - (loadedAt q).pPaddr).toNat < (placed q.1 q.2.base).pFilesz.toNat
    rw [hsub, placed, hs]
    exact hi
  rw [patchAll_at (image_pairwise hp hb _) _ (List.mem_map_of_mem hq) hmem]
  change file.byte ((placed q.1 q.2.base).pOffset.toNat + (_ - (loadedAt q).pPaddr).toNat) = _
  rw [hsub, placed, hs]

end Bounded

/-! ## Fixing up the headers -/

/-- The loop writes the two words of each header. -/
theorem fixup_run (p : U64) : ∀ (xs : List (Elf64Phdr × ℕ)) (s : Machine (List U64)),
    xs.forM (fun (phdr, i) => do
        writeWord (phdrPtr p i + pPaddrOffset) phdr.pPaddr
        writeWord (phdrPtr p i + pVaddrOffset) phdr.pVaddr : _ → Run (List U64) Unit) s
      = .ok ((), { s with mem := writeAll 8 s.mem (xs.flatMap fun (phdr, i) =>
        [(phdrPtr p i + pPaddrOffset, phdr.pPaddr.toNat),
          (phdrPtr p i + pVaddrOffset, phdr.pVaddr.toNat)]) })
  | [], _ => rfl
  | x :: xs, s => by
    rw [forM_cons_run]
    exact fixup_run p xs _

/-- `load_kernel` loads the segments and fixes up the headers in the first one. -/
theorem loadKernel_ok {e p : U64} (h : loadKernel file s = .ok ((e, p), s')) : ∃ out s₁ first rest,
    loadElfPages file file.phdrs s = .ok (out, s₁) ∧ out = first :: rest ∧ first.pType = ptLoad
      ∧ first.pOffset = 0 ∧ e = first.pPaddr ∧ p = e + (ehdrAt s₁.mem e).ePhoff
      ∧ s' = ⟨writeAll 8 s₁.mem (fixups e p (load s₁.mem (e + eEntryOffset) + kernelBase) out),
        s₁.pool⟩ := by
  unfold loadKernel at h
  rcases hr : readProgramHeaders file with e | ⟨hdr, phdrs⟩
  · rw [hr] at h
    cases h
  obtain ⟨rfl, -, rfl⟩ := readProgramHeaders_ok hr
  have hpure : (liftM (Except.ok (file.ehdr, file.phdrs) : Except Stop _) : Run (List U64) _)
    = pure (file.ehdr, file.phdrs) := rfl
  rw [hr, hpure, pure_bind] at h
  simp only [bind_run] at h
  rcases hl : loadElfPages file file.phdrs s with e | ⟨out, s₁⟩
  · rw [hl] at h
    cases h
  rw [hl] at h
  cases out with
  | nil => cases h
  | cons first rest =>
    simp only [ite_run] at h
    split_ifs at h with hf
    · simp only [bind_run, fixup_run, readWord_run, writeWord_run, pure_run] at h
      obtain ⟨he, rfl⟩ := Prod.mk.inj (Except.ok.inj h)
      obtain ⟨rfl, rfl⟩ := Prod.mk.inj he
      refine ⟨_, s₁, first, rest, rfl, rfl, hf.1, hf.2, rfl, rfl, ?_⟩
      rw [fixups, writeAll_cons]
      rfl
    · cases h

/-- `load_elf_pages` lays the segments' parts of the file at their pages. -/
theorem loadElfPages_placed (hp : Placement file runs free s.pool)
    (h : loadElfPages file file.phdrs s = .ok (out, s')) :
    loadsOf out = (segments file runs).map loadedAt
      ∧ s'.mem = patchAll s.mem ((segments file runs).map fun q => (loadedAt q).image file)
      ∧ s'.pool = free.map frameAddr := by
  obtain ⟨hout, hmem, -, hpool⟩ := loadElfPages_ok h
  have hloads : loadsOf out = (segments file runs).map loadedAt := by
    rw [hout, loadsOf_setPaddr, hp.loadsOf_eq]
  refine ⟨hloads, ?_, ?_⟩
  · rw [hmem, hloads, List.map_map]
    rfl
  · rw [hpool, hp.pool, ← hp.length]
    exact List.drop_left' (by rw [List.length_map])

theorem place_length : ∀ {phdrs : List Elf64Phdr} {pages : List U64},
    (loadsOf phdrs).length ≤ pages.length → (place phdrs pages).length = phdrs.length
  | [], _, _ => rfl
  | ph :: phdrs, pages, h => by
    rw [loadsOf_cons] at h
    split_ifs at h with hl
    · cases pages with
      | nil => cases h
      | cons page pages =>
        rw [place_load hl, List.length_cons, place_length (Nat.le_of_succ_le_succ h),
          List.length_cons]
    · rw [place_other hl, List.length_cons, place_length h, List.length_cons]

theorem out_length (h : loadElfPages file phdrs s = .ok (out, s')) : out.length = phdrs.length := by
  obtain ⟨rfl, -, hle, -⟩ := loadElfPages_ok h
  rw [List.length_map, place_length hle]

theorem phdrPtr_add (e o : U64) (j k : ℕ) : phdrPtr (e + o) j + BitVec.ofNat 64 k
    = e + BitVec.ofNat 64 (o.toNat + sizeofPhdr * j + k) := by
  rw [phdrPtr, BitVec.ofNat_add, BitVec.ofNat_add, BitVec.ofNat_toNat, BitVec.setWidth_eq,
    BitVec.add_assoc, BitVec.add_assoc, BitVec.add_assoc]

theorem vaddr_add (e o : U64) (j : ℕ) : e + o + BitVec.ofNat 64 (56 * j) + 16
    = e + BitVec.ofNat 64 (o.toNat + 56 * j + 16) := phdrPtr_add e o j 16

theorem fixups_ptr (e p entry : U64) (phdrs : List Elf64Phdr) : fixups e p entry phdrs
    = (e + eEntryOffset, entry.toNat) :: phdrs.zipIdx.flatMap fun (phdr, i) =>
        [(phdrPtr p i + pPaddrOffset, phdr.pPaddr.toNat),
          (phdrPtr p i + pVaddrOffset, phdr.pVaddr.toNat)] := rfl

theorem mem_fixups {e p entry : U64} {w : U64 × ℕ} : w ∈ fixups e p entry out ↔
    w = (e + eEntryOffset, entry.toNat) ∨ ∃ j o, out[j]? = some o
      ∧ (w = (phdrPtr p j + pPaddrOffset, o.pPaddr.toNat)
        ∨ w = (phdrPtr p j + pVaddrOffset, o.pVaddr.toNat)) := by
  rw [fixups_ptr, List.mem_cons, List.mem_flatMap]
  refine or_congr_right ⟨?_, ?_⟩
  · rintro ⟨⟨o, j⟩, hj, hw⟩
    exact ⟨j, o, List.mk_mem_zipIdx_iff_getElem?.1 hj, by simpa using hw⟩
  · rintro ⟨j, o, hj, hw⟩
    exact ⟨(o, j), List.mk_mem_zipIdx_iff_getElem?.2 hj, by simpa using hw⟩

theorem fixups_offset {e o entry : U64} {w : U64 × ℕ} (hw : w ∈ fixups e (e + o) entry out) :
    ∃ k, w.1 = e + BitVec.ofNat 64 k ∧ (k = 24 ∨ ∃ j < out.length,
      k = o.toNat + sizeofPhdr * j + 24 ∨ k = o.toNat + sizeofPhdr * j + 16) := by
  rcases mem_fixups.1 hw with rfl | ⟨j, ph, hj, hw⟩
  · exact ⟨24, rfl, Or.inl rfl⟩
  have hlt : j < out.length := (List.getElem?_eq_some_iff.1 hj).1
  rcases hw with rfl | rfl
  · exact ⟨_, phdrPtr_add e o j 24, Or.inr ⟨j, hlt, Or.inl rfl⟩⟩
  · exact ⟨_, phdrPtr_add e o j 16, Or.inr ⟨j, hlt, Or.inr rfl⟩⟩

section FirstSegment

variable {s₁ : Machine (List U64)} {first : Elf64Phdr} {rest : List Elf64Phdr}
  (hp : Placement file runs free s.pool)
  (hl : loadElfPages file file.phdrs s = .ok (first :: rest, s₁)) (hf : first.pType = ptLoad)

include hp hl hf

theorem first_segment : ∃ q segs, segments file runs = q :: segs ∧ file.phdrs.head? = some q.1
    ∧ runs.head? = some q.2 ∧ first = loadedAt q := by
  obtain ⟨hout, -, -, -⟩ := loadElfPages_ok hl
  have hlen := hp.length
  have hpool := hp.pool
  unfold segments
  generalize file.phdrs = phdrs at hout hlen ⊢
  cases phdrs with
  | nil => cases hout
  | cons ph phs =>
    by_cases ht : ph.pType = ptLoad
    · rw [loadsOf_cons, if_pos ht] at hlen ⊢
      cases runs with
      | nil => cases hlen
      | cons run runs =>
        have hpl : (placed ph run.base).pType = ptLoad := (placed_pType _ _).trans ht
        rw [hpool, List.map_cons, List.cons_append, place_load ht, List.map_cons,
          setPaddr_load hpl] at hout
        exact ⟨(ph, run), _, rfl, rfl, rfl, (List.cons.inj hout).1⟩
    · rw [place_other ht, List.map_cons] at hout
      rw [(List.cons.inj hout).1, setPaddr_pType, shift_pType] at hf
      exact absurd hf ht

end FirstSegment

/-- What `load_kernel` leaves, when the headers are in the part of the file that the first segment
`q` loads: `mid` is the machine before the fix-ups, and `out` the headers. -/
structure Loaded (file : File) (runs : List PageRun) (free : List Frame) (s s' : Machine (List U64))
    (e p : U64) (out : List Elf64Phdr) (mid : Machine (List U64)) (q : Elf64Phdr × PageRun) :
    Prop where
  pages : loadElfPages file file.phdrs s = .ok (out, mid)
  segment : q ∈ segments file runs
  first : file.phdrs.head? = some q.1
  run : runs.head? = some q.2
  offset : q.1.pOffset = 0
  length : out.length = file.ehdr.ePhnum.toNat
  loads : loadsOf out = (segments file runs).map loadedAt
  ehdr : e = (loadedAt q).pPaddr
  phdrs : p = e + file.ehdr.ePhoff
  read : mid.mem = patchAll s.mem ((segments file runs).map fun q => (loadedAt q).image file)
  final : s'.mem = writeAll 8 mid.mem (fixups e p (file.ehdr.eEntry + kernelBase) out)
  pool : s'.pool = free.map frameAddr

theorem load_eq_field (m : Memory) (a : U64) (i : ℕ) :
    load m (a + BitVec.ofNat 64 i) = field 64 (bytesFrom m a) i := by
  rw [field, number_bytesFrom]
  rfl

theorem loadKernel_spec {e p : U64} (hp : Placement file runs free s.pool) (hb : Bounded file.phdrs)
    (hh : HeadersLoaded file) (h : loadKernel file s = .ok ((e, p), s')) :
    ∃ out mid q, Loaded file runs free s s' e p out mid q := by
  obtain ⟨out, mid, first, rest, hl, hout, hf, ho, he, hphdrs, rfl⟩ := loadKernel_ok h
  subst hout
  obtain ⟨q, segs, hseg, hhead, hrun, rfl⟩ := first_segment hp hl hf
  have hq : q ∈ segments file runs := hseg ▸ List.mem_cons_self
  have hlen := out_length hl
  obtain ⟨hloads, hmem, hpool⟩ := loadElfPages_placed hp hl
  have hs := shift_load (segment_load hq)
  have ho : q.1.pOffset = 0 := by
    rw [loadedAt, placed, hs] at ho
    exact ho
  -- the first segment's bytes are the file's from the start
  have hehdr : ehdrAt mid.mem e = file.ehdr := ehdr_congr fun i hi => by
    have hsz := hh.ehdr q.1 hhead
    have := image_at hp hb hq (m := s.mem) (i := i) (by omega)
    rw [ho] at this
    rw [bytesFrom, he, hmem]
    simpa using this
  have hentry : load mid.mem (e + eEntryOffset) = file.ehdr.eEntry := by
    rw [← hehdr]
    exact load_eq_field mid.mem e 24
  refine ⟨_, mid, q, hl, hq, hhead, hrun, ho, ?_, hloads, he, ?_, hmem, ?_, hpool⟩
  · rw [hlen, phdrs_length]
  · rw [hphdrs, hehdr]
  · rw [hentry]

/-- When the file's bytes fit in the segments and the headers are in the first one, `load_kernel`
writes only to the pages allocated for the segments: each segment's part of the file to its own
pages, and the words it fixes up to those of the first. -/
theorem load_kernel_in_pages {e p : U64} (hp : Placement file runs free s.pool)
    (hb : Bounded file.phdrs) (hh : HeadersLoaded file)
    (h : loadKernel file s = .ok ((e, p), s')) : ∃ out mid run entry,
      loadElfPages file file.phdrs s = .ok (out, mid) ∧ runs.head? = some run
      ∧ mid.mem = patchAll s.mem ((segments file runs).map fun q => (loadedAt q).image file)
      ∧ (∀ q ∈ segments file runs, ∀ x, ((loadedAt q).image file).Mem x → InPages q.2.frames x)
      ∧ s'.mem = writeAll 8 mid.mem (fixups e p entry out)
      ∧ p = e + file.ehdr.ePhoff ∧ out.length = file.ehdr.ePhnum.toNat
      ∧ ∀ w ∈ fixups e p entry out, ∀ i < 8, InPages run.frames (w.1 + BitVec.ofNat 64 i) := by
  obtain ⟨out, mid, q, hl⟩ := loadKernel_spec hp hb hh h
  refine ⟨out, mid, q.2, _, hl.pages, hl.run, hl.read,
    fun q hq x hx => image_inPages hp hb hq hx, hl.final, hl.phdrs, hl.length, fun w hw i hi => ?_⟩
  have hsz := hh.ehdr q.1 hl.first
  have hpsz := hh.phdrs q.1 hl.first
  rw [hl.phdrs] at hw
  obtain ⟨k, hk, hkle⟩ := fixups_offset hw
  rw [hk, hl.ehdr, BitVec.add_assoc, ← BitVec.ofNat_add]
  refine inPages hp hb hl.segment ?_
  rw [hl.length] at hkle
  unfold sizeofEhdr at hsz
  unfold sizeofPhdr at hpsz hkle
  rcases hkle with rfl | ⟨j, hj, rfl | rfl⟩ <;> omega

/-- The `n` bytes of a number. -/
def leBytes (n v : ℕ) : List (BitVec 8) := (List.range n).map (byteOf v)

/-- A kernel of one segment, which loads `filesz` bytes of the 120 of the file at `vaddr`. -/
def kernelFile (vaddr filesz memsz : ℕ) : File :=
  [0x7f, 0x45, 0x4c, 0x46] ++ leBytes 20 0 ++ leBytes 8 0x1000 ++ leBytes 8 64 ++ leBytes 16 0
    ++ leBytes 8 1 ++ leBytes 4 1 ++ leBytes 4 5 ++ leBytes 8 0 ++ leBytes 8 vaddr ++ leBytes 8 0
    ++ leBytes 8 filesz ++ leBytes 8 memsz ++ leBytes 8 0x1000

/-- One page at `0x10000` for the segment, and the ones after it for the tables. -/
def onePage : PageRun := ⟨16, 1, by decide⟩

def kernelPool : List U64 := [onePage].map PageRun.base ++ (framesFrom 17 9).map frameAddr

theorem kernelFile_bounded : Bounded (kernelFile 0 120 120).phdrs :=
  ⟨by decide +kernel, by decide +kernel⟩

theorem kernelFile_headers : HeadersLoaded (kernelFile 0 120 120) :=
  ⟨by decide +kernel, by decide +kernel⟩

theorem kernelFile_placement :
    Placement (kernelFile 0 120 120) [onePage] (framesFrom 17 9) kernelPool :=
  ⟨rfl, by decide +kernel, by decide +kernel, by decide +kernel⟩

theorem kernelFile_loads : ∃ e p s',
    loadKernel (kernelFile 0 120 120) ⟨fun _ => 0, kernelPool⟩ = .ok ((e, p), s') := by
  have h : (loadKernel (kernelFile 0 120 120) ⟨fun _ => 0, kernelPool⟩).toBool = true := by
    decide +kernel
  rcases hl : loadKernel (kernelFile 0 120 120) ⟨fun _ => 0, kernelPool⟩ with e | ⟨⟨e, p⟩, s'⟩
  · rw [hl] at h
    cases h
  · exact ⟨e, p, s', rfl⟩

theorem load_kernel_in_pages_one : ∃ e p s' out mid entry, ∃ run : PageRun,
    loadKernel (kernelFile 0 120 120) ⟨fun _ => 0, kernelPool⟩ = .ok ((e, p), s')
      ∧ loadElfPages (kernelFile 0 120 120) (kernelFile 0 120 120).phdrs ⟨fun _ => 0, kernelPool⟩
        = .ok (out, mid)
      ∧ s'.mem = writeAll 8 mid.mem (fixups e p entry out)
      ∧ ∀ w ∈ fixups e p entry out, ∀ i < 8, InPages run.frames (w.1 + BitVec.ofNat 64 i) := by
  obtain ⟨e, p, s', h⟩ := kernelFile_loads
  obtain ⟨out, mid, run, entry, hl, -, -, -, hs, -, -, hf⟩ :=
    load_kernel_in_pages kernelFile_placement kernelFile_bounded kernelFile_headers h
  exact ⟨e, p, s', out, mid, entry, run, h, hl, hs, hf⟩

/-- A segment at the end of a page, with more of the file than it has memory. -/
theorem load_kernel_past_pages :
    Placement (kernelFile 0xfc0 120 1) [onePage] (framesFrom 17 9) kernelPool
      ∧ (loadKernel (kernelFile 0xfc0 120 1) ⟨fun _ => 0, kernelPool⟩).toBool
      ∧ ∃ out mid, loadElfPages (kernelFile 0xfc0 120 1) (kernelFile 0xfc0 120 1).phdrs
          ⟨fun _ => 0, kernelPool⟩ = .ok (out, mid)
        ∧ mid.mem = patchAll (fun _ => 0) ((segments (kernelFile 0xfc0 120 1) [onePage]).map
          fun q => (loadedAt q).image (kernelFile 0xfc0 120 1))
        ∧ ∃ q ∈ segments (kernelFile 0xfc0 120 1) [onePage], ∃ x,
          ((loadedAt q).image (kernelFile 0xfc0 120 1)).Mem x ∧ ¬ InPages q.2.frames x := by
  have hp : Placement (kernelFile 0xfc0 120 1) [onePage] (framesFrom 17 9) kernelPool :=
    ⟨rfl, by decide +kernel, by decide +kernel, by decide +kernel⟩
  have hseg : segments (kernelFile 0xfc0 120 1) [onePage]
      = [(⟨1, 5, 0, 0xfc0, 0, 120, 1, 0x1000⟩, onePage)] := by
    have hph : loadsOf (kernelFile 0xfc0 120 1).phdrs = [⟨1, 5, 0, 0xfc0, 0, 120, 1, 0x1000⟩] := by
      decide +kernel
    rw [segments, hph]
    rfl
  have hok : (loadElfPages (kernelFile 0xfc0 120 1) (kernelFile 0xfc0 120 1).phdrs
    ⟨fun _ => 0, kernelPool⟩).toBool = true := by decide +kernel
  refine ⟨hp, by decide +kernel, ?_⟩
  rcases hl : loadElfPages (kernelFile 0xfc0 120 1) (kernelFile 0xfc0 120 1).phdrs
    ⟨fun _ => 0, kernelPool⟩ with e | ⟨out, mid⟩
  · rw [hl] at hok
    cases hok
  refine ⟨out, mid, rfl, (loadElfPages_placed hp hl).2.1, _, hseg ▸ List.mem_singleton_self _,
    0x11037, ?_, ?_⟩
  · change (_ - _ : U64).toNat < (120#64).toNat
    decide +kernel
  · decide +kernel

end Loader

end SctOs
