import SctOs.KernelImage
import SctOs.Proofs.BootTables
import SctOs.Proofs.Placement

/-!
# The kernel through the boot tables

`load_kernel` changes the rewritten fields of the image and nothing else (`Loaded.frame`), so the
headers in it are the file's with those fields set (`Loaded.ehdrAt_eq`, `Loaded.phdrsAt_eq`). They are
what `prepare_boot_page_tables` maps (`Loaded.loads_eq`), so that the image is read through its
tables where the file says (`kernel_image`), and the headers where `efi_main2` reads them
(`headers_at_base`).
-/

namespace SctOs

open Bytes Radix

namespace Loader

variable {file : File} {runs : List PageRun} {free : List Frame} {s s₁ s₂ : Machine (List U64)}
  {phdrs out : List Elf64Phdr} {e p : U64} {mid : Machine (List U64)} {q : Elf64Phdr × PageRun}
  {x : Boot}

/-! ## The fix-ups -/

/-- The words of program headers after the ELF header do not overlap it or each other. -/
theorem fixups_pairwise {o entry : U64} (h : sizeofEhdr ≤ o.toNat)
    (hend : o.toNat + sizeofPhdr * out.length ≤ 2 ^ 64) :
    (fixups e (e + o) entry out).Pairwise fun y z => Apart y.1 8 z.1 8 := by
  unfold sizeofEhdr at h
  have hlt : ∀ y ∈ out.zipIdx, y.2 < out.length := fun y hy => by
    simpa using List.snd_lt_of_mem_zipIdx hy
  have hsnd : out.zipIdx.Pairwise fun y z => y.2 < z.2 := by
    rw [← List.pairwise_map (f := Prod.snd) (R := fun i j : ℕ => i < j), List.zipIdx_map_snd]
    exact List.pairwise_lt_range' ..
  have hword : ∀ y : Elf64Phdr × ℕ, ∀ w ∈ [(phdrPtr (e + o) y.2 + pPaddrOffset, y.1.pPaddr.toNat),
      (phdrPtr (e + o) y.2 + pVaddrOffset, y.1.pVaddr.toNat)], ∃ k, w.1 = e + BitVec.ofNat 64 k
        ∧ o.toNat + sizeofPhdr * y.2 + 16 ≤ k ∧ k ≤ o.toNat + sizeofPhdr * y.2 + 24 := by
    intro y w hw
    simp only [List.mem_cons, List.not_mem_nil, or_false] at hw
    rcases hw with rfl | rfl
    · exact ⟨_, phdrPtr_add e o y.2 24, by omega, le_rfl⟩
    · exact ⟨_, phdrPtr_add e o y.2 16, le_rfl, by omega⟩
  unfold sizeofPhdr at hend hword
  refine List.pairwise_cons.2 ⟨fun w hw => ?_, List.pairwise_flatMap.2 ⟨fun y hy => ?_, ?_⟩⟩
  · obtain ⟨y, hy, hw⟩ := List.mem_flatMap.1 hw
    obtain ⟨k, hk, hlo, hhi⟩ := hword y w hw
    have hy := hlt y hy
    rw [hk]
    exact apart_offset (i := 24) (by omega) (by norm_num) (by omega)
  · have hy := hlt y hy
    refine List.pairwise_pair.2 ?_
    change Apart (phdrPtr (e + o) y.2 + BitVec.ofNat 64 24) 8
      (phdrPtr (e + o) y.2 + BitVec.ofNat 64 16) 8
    exact apart_offset (by omega) (by norm_num) (by norm_num)
  · refine hsnd.imp_of_mem fun {y z} hy hz hyz w hw w' hw' => ?_
    obtain ⟨k, hk, hlo, hhi⟩ := hword y w hw
    obtain ⟨k', hk', hlo', hhi'⟩ := hword z w' hw'
    have hz := hlt z hz
    rw [hk, hk']
    exact apart_offset (by omega) (by omega) (by omega)

/-! ## The headers in the image -/

/-- Each header of the second list is the first's at another address. -/
def Moved (ph o : Elf64Phdr) : Prop := o = { ph with pVaddr := o.pVaddr, pPaddr := o.pPaddr }

theorem moved_shift (ph : Elf64Phdr) : Moved ph (shift ph) := by
  unfold Moved shift
  split_ifs <;> rfl

theorem moved_placed (ph : Elf64Phdr) (page : U64) : Moved ph (placed ph page) := by
  unfold Moved placed shift
  split_ifs <;> rfl

theorem Moved.setPaddr {ph o : Elf64Phdr} (h : Moved ph o) : Moved ph (setPaddr phdrs o) := by
  unfold Loader.setPaddr
  split_ifs with hl
  · exact h
  · unfold Moved at h ⊢
    rw [h]

theorem moved_place : ∀ {phdrs : List Elf64Phdr} {pages : List U64},
    (loadsOf phdrs).length ≤ pages.length → List.Forall₂ Moved phdrs (place phdrs pages)
  | [], _, _ => List.Forall₂.nil
  | ph :: phdrs, pages, h => by
    rw [loadsOf_cons] at h
    split_ifs at h with hl
    · cases pages with
      | nil => cases h
      | cons page pages =>
        rw [place_load hl]
        exact .cons (moved_placed ph page) (moved_place (Nat.le_of_succ_le_succ h))
    · rw [place_other hl]
      exact .cons (moved_shift ph) (moved_place h)

theorem moved_out (h : loadElfPages file phdrs s = .ok (out, s₁)) : List.Forall₂ Moved phdrs out := by
  obtain ⟨rfl, -, hle, -⟩ := loadElfPages_ok h
  rw [List.forall₂_map_right_iff]
  exact (moved_place hle).imp fun _ _ hm => hm.setPaddr

namespace Loaded

variable (hl : Loaded file runs free s s₁ e p out mid q) (hp : Placement file runs free s.pool)
  (hb : Bounded file.phdrs) (ha : HeadersApart file)

include hl

theorem frame {x : U64} (hx : ¬ Rewritten file e x) : s₁.mem x = mid.mem x := by
  rw [hl.final]
  refine writeAll_frame fun w hw => ?_
  have hx₁ := fun h => hx (Or.inl h)
  have hx₂ := fun j hj h => hx (Or.inr ⟨j, hj, h⟩)
  rcases mem_fixups.1 hw with rfl | ⟨j, o, hj, hw⟩
  · exact Nat.le_of_not_lt hx₁
  have hlt : j < out.length := (List.getElem?_eq_some_iff.1 hj).1
  have hout : 16 ≤ (x - (phdrPtr (e + file.ehdr.ePhoff) j + pVaddrOffset)).toNat :=
    Nat.le_of_not_lt (hx₂ j (hl.length ▸ hlt))
  rw [← hl.phdrs] at hout
  rcases hw with rfl | rfl
  · -- `p_paddr` is the second half of the bytes from `p_vaddr` on
    have he : x - (phdrPtr p j + pPaddrOffset) = x - (phdrPtr p j + pVaddrOffset) - 8#64 := by
      unfold pPaddrOffset pVaddrOffset
      grind
    have hlt := (x - (phdrPtr p j + pVaddrOffset)).isLt
    rw [he, BitVec.toNat_sub]
    simp only [BitVec.reduceToNat]
    omega
  · exact le_trans (by norm_num) hout

include hp hb ha

theorem fields_lt : 64 ≤ file.ehdr.ePhoff.toNat
    ∧ file.ehdr.ePhoff.toNat + 56 * file.ehdr.ePhnum.toNat ≤ q.1.pFilesz.toNat
    ∧ q.1.pFilesz.toNat ≤ 2 ^ 48 := by
  have hend := ha.phdrs q.1 hl.first
  have hsz := filesz_le hp hb hl.segment
  have hfits := q.2.fits
  refine ⟨ha.after, hend, by omega⟩

/-- A byte of the image that is in no rewritten field is the file's. -/
theorem byte {k : ℕ} (hk : k < q.1.pFilesz.toNat) (he : k < 24 ∨ 32 ≤ k)
    (hph : ∀ j < file.ehdr.ePhnum.toNat, k < file.ehdr.ePhoff.toNat + 56 * j + 16
      ∨ file.ehdr.ePhoff.toNat + 56 * j + 32 ≤ k) :
    s₁.mem (e + BitVec.ofNat 64 k) = file.byte k := by
  obtain ⟨-, hend, hsz⟩ := hl.fields_lt hp hb ha
  have hx : ¬ Rewritten file e (e + BitVec.ofNat 64 k) := by
    rintro (h | ⟨j, hj, h⟩)
    · exact absurd h (Nat.not_lt.2 (offset_outside (i := 24) he (by norm_num) (by omega)))
    · rw [vaddr_add] at h
      have := hph j hj
      exact absurd h (Nat.not_lt.2 (offset_outside (by omega) (by omega) (by omega)))
  rw [hl.frame hx, hl.read, hl.ehdr, image_at hp hb hl.segment hk, hl.offset]
  exact congrArg file.byte (Nat.zero_add k)

theorem word {w : U64 × ℕ} (hw : w ∈ fixups e p (file.ehdr.eEntry + kernelBase) out)
    (hlt : w.2 < 2 ^ 64) : readLE s₁.mem w.1 8 = w.2 := by
  obtain ⟨hafter, hend, hsz⟩ := hl.fields_lt hp hb ha
  rw [hl.final]
  refine writeAll_read (by norm_num) ?_ hw hlt
  rw [hl.phdrs]
  refine fixups_pairwise hafter ?_
  rw [hl.length, sizeofPhdr]
  omega

/-- The ELF header in the image is the file's with its entry point in the high half. -/
theorem ehdrAt_eq (hsz : sizeofEhdr ≤ q.1.pFilesz.toNat) :
    ehdrAt s₁.mem e = { file.ehdr with eEntry := file.ehdr.eEntry + kernelBase } := by
  obtain ⟨hafter, -, -⟩ := hl.fields_lt hp hb ha
  unfold sizeofEhdr at hsz
  have hbyte : ∀ k < 64, k < 24 ∨ 32 ≤ k → bytesFrom s₁.mem e k = file.byte k := fun k hk he =>
    hl.byte hp hb ha (by omega) he fun j _ => Or.inl (by omega)
  have hf : ∀ w i, i + w / 8 ≤ 24 ∨ 32 ≤ i → i + w / 8 ≤ 64 →
      field w (bytesFrom s₁.mem e) i = field w file.byte i := fun w i hi hle =>
    field_congr fun j hj => hbyte (i + j) (by omega) (by omega)
  have hid : (List.range 16).map (bytesFrom s₁.mem e) = (List.range 16).map file.byte :=
    List.map_congr_left fun i hi => hbyte i (by
      rw [List.mem_range] at hi
      omega) (by
      rw [List.mem_range] at hi
      omega)
  have hentry : field 64 (bytesFrom s₁.mem e) 24 = file.ehdr.eEntry + kernelBase := by
    rw [← load_eq_field, load]
    have := hl.word hp hb ha (mem_fixups.2 (Or.inl rfl)) (BitVec.isLt _)
    change BitVec.ofNat 64 (readLE s₁.mem (e + eEntryOffset) 8) = _
    rw [this, BitVec.ofNat_toNat, BitVec.setWidth_eq]
  unfold ehdrAt File.ehdr Elf64Ehdr.ofBytes
  rw [hid, hentry, hf 16 16, hf 16 18, hf 32 20, hf 64 32, hf 64 40, hf 32 48, hf 16 52, hf 16 54,
    hf 16 56, hf 16 58, hf 16 60, hf 16 62] <;> norm_num
  rfl

/-- The program headers in the image are those that `load_elf_pages` made. -/
theorem phdrsAt_eq : phdrsAt s₁.mem p file.ehdr.ePhnum.toNat = out := by
  obtain ⟨hafter, hend, hsz⟩ := hl.fields_lt hp hb ha
  have hlen : (phdrsAt s₁.mem p file.ehdr.ePhnum.toNat).length = out.length := by
    rw [hl.length, phdrsAt, phdrsOfBytes, List.length_map, List.length_range]
  refine List.ext_getElem hlen fun j hj hjo => ?_
  have hjn : j < file.ehdr.ePhnum.toNat := hl.length ▸ hjo
  have hjf : j < file.phdrs.length := phdrs_length file ▸ hjn
  have hmoved : Moved file.phdrs[j] out[j] := (moved_out hl.pages).get hjf hjo
  have hfile : file.phdrs[j] = Elf64Phdr.ofBytes fun k =>
      file.byte (file.ehdr.ePhoff.toNat + sizeofPhdr * j + k) := by
    simp only [File.phdrs, phdrsOfBytes, List.getElem_map, List.getElem_range]
  have himage : (phdrsAt s₁.mem p file.ehdr.ePhnum.toNat)[j] = Elf64Phdr.ofBytes fun k =>
      bytesFrom s₁.mem p (0 + sizeofPhdr * j + k) := by
    simp only [phdrsAt, phdrsOfBytes, List.getElem_map, List.getElem_range]
  have haddr : ∀ k, bytesFrom s₁.mem p (0 + sizeofPhdr * j + k)
      = s₁.mem (e + BitVec.ofNat 64 (file.ehdr.ePhoff.toNat + sizeofPhdr * j + k)) := by
    intro k
    rw [bytesFrom, hl.phdrs, ← phdrPtr_add, phdrPtr, Nat.zero_add, BitVec.ofNat_add,
      BitVec.add_assoc (e + _)]
  have hbyte : ∀ k < 56, k < 16 ∨ 32 ≤ k → bytesFrom s₁.mem p (0 + sizeofPhdr * j + k)
      = file.byte (file.ehdr.ePhoff.toNat + sizeofPhdr * j + k) := by
    intro k hk hout
    rw [haddr]
    unfold sizeofPhdr
    exact hl.byte hp hb ha (by omega) (by omega) fun i _ => by omega
  have hf : ∀ w i, i + w / 8 ≤ 16 ∨ 32 ≤ i → i + w / 8 ≤ 56 →
      field w (fun k => bytesFrom s₁.mem p (0 + sizeofPhdr * j + k)) i
        = field w (fun k => file.byte (file.ehdr.ePhoff.toNat + sizeofPhdr * j + k)) i :=
    fun w i hi hle => field_congr fun l hl => hbyte (i + l) (by omega) (by omega)
  have hword : ∀ (i : ℕ) (v : U64),
      (phdrPtr p j + BitVec.ofNat 64 i, v.toNat) ∈ fixups e p (file.ehdr.eEntry + kernelBase) out →
      field 64 (fun k => bytesFrom s₁.mem p (0 + sizeofPhdr * j + k)) i = v := by
    intro i v hw
    have hread := hl.word hp hb ha hw v.isLt
    have hnum : number (fun k => bytesFrom s₁.mem p (0 + sizeofPhdr * j + k)) i 8
        = number (bytesFrom s₁.mem p) (sizeofPhdr * j + i) 8 :=
      number_congr fun l _ => congrArg (bytesFrom s₁.mem p) (by omega)
    rw [field, show 64 / 8 = 8 from rfl, hnum, number_bytesFrom, BitVec.ofNat_add,
      ← BitVec.add_assoc]
    change BitVec.ofNat 64 (readLE s₁.mem (phdrPtr p j + BitVec.ofNat 64 i) 8) = v
    rw [hread, BitVec.ofNat_toNat, BitVec.setWidth_eq]
  have hjo' : out[j]? = some out[j] := List.getElem?_eq_getElem hjo
  have hpaddr := hword 24 out[j].pPaddr (mem_fixups.2 (Or.inr ⟨j, _, hjo', Or.inl rfl⟩))
  have hvaddr := hword 16 out[j].pVaddr (mem_fixups.2 (Or.inr ⟨j, _, hjo', Or.inr rfl⟩))
  rw [himage, hmoved, hfile]
  unfold Elf64Phdr.ofBytes
  rw [hpaddr, hvaddr, hf 32 0, hf 32 4, hf 64 8, hf 64 32, hf 64 40, hf 64 48] <;> norm_num

/-- The boot tables are made from the headers that `load_elf_pages` made. -/
theorem ofImage_eq (x : Boot) (hsz : sizeofEhdr ≤ q.1.pFilesz.toNat) :
    (x.ofImage s₁.mem e p).ePhnum = file.ehdr.ePhnum ∧ (x.ofImage s₁.mem e p).phdrs = out := by
  have he := hl.ehdrAt_eq hp hb ha hsz
  have hn : (ehdrAt s₁.mem e).ePhnum = file.ehdr.ePhnum := by rw [he]
  refine ⟨hn, ?_⟩
  change phdrsAt s₁.mem p (ehdrAt s₁.mem e).ePhnum.toNat = out
  rw [hn]
  exact hl.phdrsAt_eq hp hb ha

theorem loads_eq (x : Boot) (hsz : sizeofEhdr ≤ q.1.pFilesz.toNat) :
    (x.ofImage s₁.mem e p).loads = (segments file runs).map loadedAt := by
  obtain ⟨hn, hout⟩ := hl.ofImage_eq hp hb ha x hsz
  rw [Boot.loads, hn, hout, ← hl.length, List.take_length]
  exact hl.loads

end Loaded

/-! ## Small kernels -/

/-- The headers of the image that `load_kernel` leaves of a small kernel. -/
def smallImage (file : File) : Option (Elf64Half × List Elf64Phdr) :=
  (loadKernel file ⟨fun _ => 0, kernelPool⟩).toOption.map fun r =>
    ((smallBoot.ofImage r.2.mem r.1.1 r.1.2).ePhnum, (smallBoot.ofImage r.2.mem r.1.1 r.1.2).phdrs)

/-- A kernel of one page whose image has the headers `phdrs`, and for which nine pages of tables are
enough. -/
structure SmallKernel (file : File) (n : Elf64Half) (phdrs : List Elf64Phdr) : Prop where
  placement : Placement file [onePage] (framesFrom 17 9) kernelPool
  image : smallImage file = some (n, phdrs)
  nodup : (((bootRequests { smallBoot with ePhnum := n, phdrs := phdrs }).map
    Request.vpage).map path).Nodup
  tables : tablesNeeded ((bootRequests { smallBoot with ePhnum := n, phdrs := phdrs }).map
    Request.vpage) < 9

/-- A small kernel is loaded and mapped by the headers of its image. -/
theorem SmallKernel.boots {n : Elf64Half} {phdrs : List Elf64Phdr}
    (h : SmallKernel file n phdrs) : ∃ e p s₁ root d s₂,
      loadKernel file ⟨fun _ => 0, kernelPool⟩ = .ok ((e, p), s₁)
        ∧ (smallBoot.ofImage s₁.mem e p).run s₁ = .ok ((root, d), s₂)
        ∧ smallBoot.ofImage s₁.mem e p = { smallBoot with ePhnum := n, phdrs := phdrs }
        ∧ s₁.pool = (framesFrom 17 9).map frameAddr := by
  have hi := h.image
  unfold smallImage at hi
  rcases hl : loadKernel file ⟨fun _ => 0, kernelPool⟩ with err | ⟨⟨e, p⟩, s₁⟩
  · rw [hl] at hi
    cases hi
  rw [hl] at hi
  have hx : smallBoot.ofImage s₁.mem e p = { smallBoot with ePhnum := n, phdrs := phdrs } := by
    obtain ⟨rfl, rfl⟩ := Prod.mk.inj (Option.some.inj hi)
    rfl
  have hpool : s₁.pool = (framesFrom 17 9).map frameAddr := by
    obtain ⟨out, mid, first, rest, hpages, -, -, -, -, -, rfl⟩ := loadKernel_ok hl
    exact (loadElfPages_placed h.placement hpages).2.2
  obtain ⟨root, s₂, hrun⟩ := boot_ok hpool (by decide) (hx ▸ h.nodup) (hx ▸ h.tables)
  exact ⟨e, p, s₁, root, _, s₂, rfl, hrun, hx, hpool⟩

theorem kernelFile_small : SmallKernel (kernelFile 0 120 120) 1
    [⟨1, 5, 0, 0xffffffffc0000000, 0x10000, 120, 120, 0x1000⟩] :=
  ⟨kernelFile_placement, by decide +kernel, by decide +kernel, by decide +kernel⟩

/-! ## The image through the tables -/

/-- A segment's bytes lead to where they were loaded, in tables made from its header. -/
theorem segment_walk {root : Frame} {st : Store Frame Index U64} {m : Memory} {y : Boot}
    (hp : Placement file runs free s.pool) (hb : Bounded file.phdrs)
    (hload : y.loads = (segments file runs).map loadedAt) (hy : BootSpace y root s₁ s₂ st free)
    (hm : ∀ f ∈ free, SameAt m s₂.mem (frameAddr f) 4096) (hq : q ∈ segments file runs) {i : ℕ}
    (hi : i < q.1.pMemsz.toNat) (hc : Canonical ((loadedAt q).pVaddr + BitVec.ofNat 64 i)) :
    ∃ w, walk m (frameAddr root) ((loadedAt q).pVaddr + BitVec.ofNat 64 i)
      = some ⟨(loadedAt q).pPaddr + BitVec.ofNat 64 i, w⟩ := by
  have hsz := memsz_le hp hb hq
  have hfits := q.2.fits
  have hstart : startOf q = (loadedAt q).pVaddr.toNat % 4096 := pageOffset_toNat _
  have hload' : loadedAt q ∈ y.loads := hload ▸ List.mem_map_of_mem hq
  have hmemsz : (loadedAt q).pMemsz = q.1.pMemsz := by
    rw [loadedAt, placed, shift_load (segment_load hq)]
  -- the page of the range that the byte is in
  have hidx : (startOf q + i) / 4096 < (loadedAt q).range.pages := by
    have hpages : (loadedAt q).range.pages = q.2.pages := by
      rw [hp.pages q hq, Elf64Phdr.range, hmemsz]
      rfl
    omega
  generalize hn : (startOf q + i) / 4096 = n at hidx
  have hreq : (⟨(loadedAt q).range.ppage n, (loadedAt q).range.vpage n, (loadedAt q).range.flags⟩
      : Request) ∈ bootRequests y :=
    List.mem_flatMap.2 ⟨_, mem_bootRanges.2 (Or.inr (Or.inr ⟨_, hload', rfl⟩)),
      mem_requests.2 ⟨n, hidx, rfl⟩⟩
  have hpath : path ((loadedAt q).range.vpage n)
      = path ((loadedAt q).pVaddr + BitVec.ofNat 64 i) := by
    rw [← path_pageBase (_ + _), pageBase_add, ← hstart, hn]
    rfl
  have hbase : pageBase (loadedAt q).pPaddr = frameAddr q.2.first := by
    have h0 : q.2.base.toNat % 4096 = 0 := by
      rw [PageRun.base_toNat]
      omega
    have hlt : startOf q < 4096 := hstart ▸ Nat.mod_lt _ (by norm_num)
    have := (page_split h0 hlt).1
    rw [startOf, BitVec.ofNat_toNat, BitVec.setWidth_eq] at this
    exact this
  have hppage : (loadedAt q).range.ppage n = frameAddr (q.2.first + BitVec.ofNat 36 n) := by
    rw [frameAddr_add (by omega), ← hbase]
    rfl
  have hflags : (loadedAt q).range.flags = 0 ∨ (loadedAt q).range.flags = pteRw := by
    unfold Elf64Phdr.range
    split_ifs
    · exact Or.inr rfl
    · exact Or.inl rfl
  refine ⟨(loadedAt q).range.flags = pteRw, ?_⟩
  rw [hy.walk hm hreq hc hpath, Request.entry, hppage, mappingOf_entry _ _ hflags,
    Option.some.injEq, Mapping.mk.injEq, pPaddr_add]
  refine ⟨?_, rfl⟩
  apply BitVec.eq_of_toNat_eq
  rw [PageRun.offset_toNat (by omega), PageRun.base_toNat, BitVec.toNat_add, frameAddr_toNat,
    pageOffset_toNat, BitVec.toNat_add, BitVec.toNat_add, BitVec.toNat_ofNat, BitVec.toNat_ofNat]
  omega

/-- Pages that the tables are not in keep their bytes. -/
theorem onlyPages_apart {fs : List Frame} {m m' : Memory} {a : U64}
    (h : OnlyPages 0 (· ∈ fs) m m') (ha : ¬ InPages fs a) : m' a = m a := by
  refine h a fun f hf => ?_
  have hz : (0 : U64) + frameAddr f = frameAddr f := BitVec.zero_add _
  rw [hz]
  by_contra hlt
  have h0 : (frameAddr f).toNat % 4096 = 0 := by
    rw [frameAddr_toNat]
    omega
  have := (page_split h0 (Nat.lt_of_not_le hlt)).1
  rw [offset_self] at this
  exact ha ⟨f, hf, this⟩

theorem image_kept {st : Store Frame Index U64} {root : Frame} {y : Boot}
    (hp : Placement file runs free s.pool) (hb : Bounded file.phdrs)
    (hy : BootSpace y root s₁ s₂ st free) (hq : q ∈ segments file runs) {i : ℕ}
    (hi : i < q.1.pFilesz.toNat) : s₂.mem ((loadedAt q).pPaddr + BitVec.ofNat 64 i)
      = s₁.mem ((loadedAt q).pPaddr + BitVec.ofNat 64 i) := by
  refine onlyPages_apart hy.only (InPages.disjoint (fun f hf hfree => ?_) (inPages hp hb hq hi))
  exact (List.disjoint_of_nodup_append hp.nodup)
    (List.mem_flatMap.2 ⟨_, (mem_segments hq).2, hf⟩) hfree

theorem KernelFile.bounded (hk : KernelFile file) : Bounded file.phdrs := by
  refine ⟨hk.filesz, fun ph hph => ?_⟩
  have hh := hk.high ph hph
  have := pageOffset_toNat ph.pVaddr
  rw [kernelBase_toNat] at hh
  omega

theorem Placement.free_nodup (hp : Placement file runs free s.pool) : free.Nodup :=
  (List.nodup_append.1 hp.nodup).2.1

/-- When the kernel is loaded and the boot tables are prepared, each byte of each segment is found
where the segment was loaded, and holds the file's byte unless `load_kernel` rewrote it. -/
theorem kernel_image {root : U64} {d : BootloaderData} (hk : KernelFile file)
    (hp : Placement file runs free s.pool) (hload : loadKernel file s = .ok ((e, p), s₁))
    (hboot : (x.ofImage s₁.mem e p).run s₁ = .ok ((root, d), s₂)) :
    ∀ q ∈ segments file runs, ∀ i < q.1.pMemsz.toNat,
      (∃ w, walk s₂.mem root ((loadedAt q).pVaddr + BitVec.ofNat 64 i)
        = some ⟨(loadedAt q).pPaddr + BitVec.ofNat 64 i, w⟩)
      ∧ (i < q.1.pFilesz.toNat → ¬ Rewritten file e ((loadedAt q).pPaddr + BitVec.ofNat 64 i) →
        s₂.mem ((loadedAt q).pPaddr + BitVec.ofNat 64 i) = file.byte (q.1.pOffset.toNat + i)) := by
  have hb := hk.bounded
  obtain ⟨out, mid, first, hl⟩ := loadKernel_spec hp hb hk.toHeadersLoaded hload
  have hsz := hk.ehdr first.1 hl.first
  obtain ⟨root, rest, st, hfree, rfl, -, -, hy⟩ := boot_spec hl.pool hp.free_nodup hboot
  intro q hq i hi
  refine ⟨segment_walk hp hb (hl.loads_eq hp hb hk.toHeadersApart x hsz) hy
    (fun f _ j _ => rfl) hq hi ?_, fun hif hx => ?_⟩
  · have hh := hk.high q.1 (mem_segments hq).1
    have hv : (loadedAt q).pVaddr = (shift q.1).pVaddr := rfl
    rw [kernelBase_toNat] at hh
    right
    rw [BitVec.toNat_add, BitVec.toNat_ofNat, hv]
    omega
  · rw [image_kept hp hb hy hq hif, hl.frame hx, hl.read, image_at hp hb hq hif]

/-- The file's second byte is read at `KERNEL_BASE + 1`. -/
theorem kernel_image_one : ∃ e p s₁ root d s₂ w,
    loadKernel (kernelFile 0 120 120) ⟨fun _ => 0, kernelPool⟩ = .ok ((e, p), s₁)
      ∧ (smallBoot.ofImage s₁.mem e p).run s₁ = .ok ((root, d), s₂)
      ∧ walk s₂.mem root 0xffffffffc0000001 = some ⟨0x10001, w⟩ ∧ s₂.mem 0x10001 = 0x45 := by
  obtain ⟨e, p, s₁, root, d, s₂, hl, hrun, -⟩ := kernelFile_small.boots
  have hk : KernelFile (kernelFile 0 120 120) :=
    ⟨⟨kernelFile_headers, by decide +kernel⟩, by decide +kernel, by decide +kernel⟩
  have hseg : segments (kernelFile 0 120 120) [onePage]
      = [(⟨1, 5, 0, 0, 0, 120, 120, 0x1000⟩, onePage)] := by
    rw [segments, show loadsOf (kernelFile 0 120 120).phdrs
      = [⟨1, 5, 0, 0, 0, 120, 120, 0x1000⟩] by decide +kernel]
    rfl
  obtain ⟨⟨w, hw⟩, hbyte⟩ := kernel_image hk kernelFile_placement hl hrun _
    (hseg ▸ List.mem_singleton_self _) 1 (by decide)
  have he : e = 0x10000 := by
    obtain ⟨out, mid, q, h⟩ := loadKernel_spec kernelFile_placement kernelFile_bounded
      kernelFile_headers hl
    have hq := h.segment
    rw [hseg] at hq
    rw [h.ehdr, List.mem_singleton.1 hq]
    decide +kernel
  have hx : ¬ Rewritten (kernelFile 0 120 120) e 0x10001 := by
    rw [he]
    rintro (h | ⟨j, hj, h⟩)
    · revert h
      decide +kernel
    · revert j
      decide +kernel
  exact ⟨e, p, s₁, root, d, s₂, w, hl, hrun, hw, (hbyte (by decide) hx).trans (by decide +kernel)⟩

/-- A kernel whose program header begins in the ELF header. -/
def overlapFile : File :=
  [0x7f, 0x45, 0x4c, 0x46] ++ leBytes 20 0 ++ leBytes 4 0x1000 ++ leBytes 4 1 ++ leBytes 8 28
    ++ leBytes 16 0 ++ leBytes 4 1 ++ leBytes 8 84 ++ leBytes 8 84 ++ leBytes 8 0

/-- The fix-ups of such a kernel overwrite its headers, and it is not mapped. -/
theorem kernel_image_overlap : HeadersLoaded overlapFile
      ∧ (∀ ph ∈ loadsOf overlapFile.phdrs, ph.pFilesz.toNat ≤ ph.pMemsz.toNat
        ∧ kernelBase.toNat ≤ (shift ph).pVaddr.toNat
        ∧ (shift ph).pVaddr.toNat + ph.pMemsz.toNat ≤ 2 ^ 64)
      ∧ Placement overlapFile [onePage] (framesFrom 17 9) kernelPool
      ∧ ∃ e p s₁ root d s₂, loadKernel overlapFile ⟨fun _ => 0, kernelPool⟩ = .ok ((e, p), s₁)
        ∧ (smallBoot.ofImage s₁.mem e p).run s₁ = .ok ((root, d), s₂)
        ∧ ∃ q ∈ segments overlapFile [onePage], 0 < q.1.pMemsz.toNat
          ∧ walk s₂.mem root (loadedAt q).pVaddr = none := by
  have hsmall : SmallKernel overlapFile 0 [] :=
    ⟨⟨rfl, by decide +kernel, by decide +kernel, by decide +kernel⟩, by decide +kernel,
      by decide +kernel, by decide +kernel⟩
  refine ⟨⟨by decide +kernel, by decide +kernel⟩, by decide +kernel, hsmall.placement, ?_⟩
  obtain ⟨e, p, s₁, root, d, s₂, hl, hrun, hx, hpool⟩ := hsmall.boots
  obtain ⟨root, free, st, -, rfl, -, -, hy⟩ := boot_spec hpool (by decide) hrun
  have hloads : loadsOf overlapFile.phdrs = [⟨1, 28, 0, 0, 1 <<< 32, 84, 84, 0⟩] := by decide +kernel
  refine ⟨e, p, s₁, _, d, s₂, hl, hrun, (⟨1, 28, 0, 0, 1 <<< 32, 84, 84, 0⟩, onePage), ?_, by decide,
    ?_⟩
  · rw [segments, hloads]
    exact List.mem_singleton_self _
  · refine hy.walk_none (fun f _ i _ => rfl) ?_
    rw [hx]
    decide +kernel

/-! ## The headers at `KERNEL_BASE` -/

section base

variable {y : Boot} {root : Frame} {st : Store Frame Index U64} {m : Memory} {i : ℕ}

/-- The bytes of the first segment are found from `KERNEL_BASE` on. -/
theorem base_walk (hl : Loaded file runs free s s₁ e p out mid q) (ha : HeadersAtBase file)
    (hb : Bounded file.phdrs) (hp : Placement file runs free s.pool)
    (hload : y.loads = (segments file runs).map loadedAt) (hy : BootSpace y root s₁ s₂ st free)
    (hm : ∀ f ∈ free, SameAt m s₂.mem (frameAddr f) 4096) (hi : i < q.1.pFilesz.toNat)
    (hlt : i < 2 ^ 30) : ∃ w, walk m (frameAddr root) (kernelBase + BitVec.ofNat 64 i)
      = some ⟨e + BitVec.ofNat 64 i, w⟩ := by
  have hmemsz := hb.filesz q.1 (mem_segments hl.segment).1
  have hbase : (loadedAt q).pVaddr = kernelBase := by
    change (shift q.1).pVaddr = _
    rw [shift_load (segment_load hl.segment), ha.base q.1 hl.first]
    exact BitVec.zero_add _
  have hc : Canonical ((loadedAt q).pVaddr + BitVec.ofNat 64 i) := by
    right
    rw [hbase, BitVec.toNat_add, BitVec.toNat_ofNat, kernelBase_toNat]
    omega
  rw [← hbase, hl.ehdr]
  exact segment_walk hp hb hload hy hm hl.segment (by omega) hc

/-- They are read as they were loaded, as long as they are not written to. -/
theorem base_seen (hl : Loaded file runs free s s₁ e p out mid q) (ha : HeadersAtBase file)
    (hb : Bounded file.phdrs) (hp : Placement file runs free s.pool)
    (hload : y.loads = (segments file runs).map loadedAt) (hy : BootSpace y root s₁ s₂ st free)
    (hm : ∀ f ∈ free, SameAt m s₂.mem (frameAddr f) 4096) (hi : i < q.1.pFilesz.toNat)
    (hlt : i < 2 ^ 30) (hsame : m (e + BitVec.ofNat 64 i) = s₂.mem (e + BitVec.ofNat 64 i)) :
    seen m (frameAddr root) (kernelBase + BitVec.ofNat 64 i) = s₁.mem (e + BitVec.ofNat 64 i) := by
  obtain ⟨w, hw⟩ := base_walk hl ha hb hp hload hy hm hi hlt
  have hkept := image_kept hp hb hy hl.segment hi
  rw [← hl.ehdr] at hkept
  rw [seen, hw]
  exact hsame.trans hkept

end base

theorem phoff_add (a phoff : U64) (k : ℕ) :
    a + phoff + BitVec.ofNat 64 k = a + BitVec.ofNat 64 (phoff.toNat + k) := by
  rw [BitVec.ofNat_add, BitVec.ofNat_toNat, BitVec.setWidth_eq, BitVec.add_assoc]

/-- The headers are read at `KERNEL_BASE` as `load_kernel` fixed them up, with the addresses by
which the kernel is mapped, as long as they and the tables are not written to. -/
theorem headers_at_base {root : U64} {d : BootloaderData} {m : Memory} (ha : HeadersAtBase file)
    (hb : Bounded file.phdrs) (hp : Placement file runs free s.pool)
    (hload : loadKernel file s = .ok ((e, p), s₁))
    (hboot : (x.ofImage s₁.mem e p).run s₁ = .ok ((root, d), s₂))
    (hm : Kept free file e s₂.mem m) :
    Mapped m root kernelBase sizeofEhdr
      ∧ Mapped m root (kernelBase + file.ehdr.ePhoff) (sizeofPhdr * file.ehdr.ePhnum.toNat)
      ∧ ehdrAt (seen m root) kernelBase = ehdrAt s₁.mem e
      ∧ ehdrAt s₁.mem e = { file.ehdr with eEntry := file.ehdr.eEntry + kernelBase }
      ∧ phdrsAt (seen m root) (kernelBase + (ehdrAt (seen m root) kernelBase).ePhoff)
          (ehdrAt (seen m root) kernelBase).ePhnum.toNat
        = (x.ofImage s₁.mem e p).phdrs
      ∧ (x.ofImage s₁.mem e p).loads = (segments file runs).map loadedAt
      ∧ ∃ out mid, loadElfPages file file.phdrs s = .ok (out, mid)
        ∧ (x.ofImage s₁.mem e p).phdrs = out := by
  obtain ⟨out, mid, q, hl⟩ := loadKernel_spec hp hb ha.toHeadersLoaded hload
  have hsz := ha.ehdr q.1 hl.first
  have hloads := hl.loads_eq hp hb ha.toHeadersApart x hsz
  have hehdr := hl.ehdrAt_eq hp hb ha.toHeadersApart hsz
  have hphdrs := (hl.ofImage_eq hp hb ha.toHeadersApart x hsz).2
  obtain ⟨root, rest, st, hfree, rfl, -, -, hy⟩ := boot_spec hl.pool hp.free_nodup hboot
  have hend := ha.phdrs q.1 hl.first
  have hhigh := ha.high
  have hwalk {i : ℕ} (hi : i < q.1.pFilesz.toNat) (hlt : i < 2 ^ 30) :
      (walk m (frameAddr root) (kernelBase + BitVec.ofNat 64 i)).isSome := by
    obtain ⟨w, hw⟩ := base_walk hl ha hb hp hloads hy hm.tables hi hlt
    rw [hw]
    rfl
  have hseen {i : ℕ} (hi : i < q.1.pFilesz.toNat) (hlt : i < 2 ^ 30) :=
    base_seen hl ha hb hp hloads hy hm.tables hi hlt
  unfold sizeofEhdr at hsz
  have hseenEhdr : ehdrAt (seen m (frameAddr root)) kernelBase = ehdrAt s₁.mem e :=
    ehdr_congr fun i hi => by
      have hsame := hm.ehdr i hi
      unfold sizeofEhdr at hi
      exact hseen (by omega) (by omega) hsame
  have hphoff : (ehdrAt (seen m (frameAddr root)) kernelBase).ePhoff = file.ehdr.ePhoff := by
    rw [hseenEhdr, hehdr]
  have hphnum : (ehdrAt (seen m (frameAddr root)) kernelBase).ePhnum = file.ehdr.ePhnum := by
    rw [hseenEhdr, hehdr]
  refine ⟨fun i hi => ?_, fun i hi => ?_, hseenEhdr, hehdr, ?_, hloads, out, mid, hl.pages, hphdrs⟩
  · unfold sizeofEhdr at hi
    exact hwalk (by omega) (by omega)
  · rw [phoff_add]
    exact hwalk (by omega) (by omega)
  · rw [hphoff, hphnum, hphdrs, ← hl.phdrsAt_eq hp hb ha.toHeadersApart]
    refine phdrs_congr fun k hk => ?_
    have hsame := hm.phdrs k hk
    rw [phoff_add] at hsame
    rw [bytesFrom, bytesFrom, Nat.zero_add, phoff_add, hl.phdrs, phoff_add]
    exact hseen (by omega) (by omega) hsame

theorem headers_at_base_one : ∃ e p s₁ root d s₂,
    loadKernel (kernelFile 0 120 120) ⟨fun _ => 0, kernelPool⟩ = .ok ((e, p), s₁)
      ∧ (smallBoot.ofImage s₁.mem e p).run s₁ = .ok ((root, d), s₂)
      ∧ (ehdrAt (seen s₂.mem root) kernelBase).eEntry = 0xffffffffc0001000
      ∧ phdrsAt (seen s₂.mem root) (kernelBase + (ehdrAt (seen s₂.mem root) kernelBase).ePhoff)
          (ehdrAt (seen s₂.mem root) kernelBase).ePhnum.toNat
        = (smallBoot.ofImage s₁.mem e p).phdrs := by
  obtain ⟨e, p, s₁, root, d, s₂, hl, hrun, -⟩ := kernelFile_small.boots
  have ha : HeadersAtBase (kernelFile 0 120 120) :=
    ⟨⟨kernelFile_headers, by decide +kernel⟩, by decide +kernel, by decide +kernel⟩
  obtain ⟨-, -, hehdr, hfix, hphdrs, -⟩ := headers_at_base ha kernelFile_bounded
    kernelFile_placement hl hrun (m := s₂.mem)
    ⟨fun f _ i _ => rfl, fun i _ => rfl, fun i _ => rfl⟩
  refine ⟨e, p, s₁, root, d, s₂, hl, hrun, ?_, hphdrs⟩
  rw [hehdr, hfix]
  decide +kernel

/-- A kernel that starts a page above `KERNEL_BASE`: there are no headers to read. -/
theorem headers_at_base_above :
    Placement (kernelFile 0x1000 120 120) [onePage] (framesFrom 17 9) kernelPool
      ∧ ∃ e p s₁ root d s₂,
        loadKernel (kernelFile 0x1000 120 120) ⟨fun _ => 0, kernelPool⟩ = .ok ((e, p), s₁)
        ∧ (smallBoot.ofImage s₁.mem e p).run s₁ = .ok ((root, d), s₂)
        ∧ ¬ Mapped s₂.mem root kernelBase sizeofEhdr := by
  have hsmall : SmallKernel (kernelFile 0x1000 120 120) 1
      [⟨1, 5, 0, 0xffffffffc0001000, 0x10000, 120, 120, 0x1000⟩] :=
    ⟨⟨rfl, by decide +kernel, by decide +kernel, by decide +kernel⟩, by decide +kernel,
      by decide +kernel, by decide +kernel⟩
  obtain ⟨e, p, s₁, root, d, s₂, hl, hrun, hx, hpool⟩ := hsmall.boots
  obtain ⟨root, free, st, -, rfl, -, -, hy⟩ := boot_spec hpool (by decide) hrun
  refine ⟨hsmall.placement, e, p, s₁, _, d, s₂, hl, hrun, fun hmapped => ?_⟩
  have h0 := hmapped 0 (by decide)
  rw [hy.walk_none (fun f _ i _ => rfl) (by rw [hx]; decide +kernel)] at h0
  cases h0

end Loader

end SctOs
