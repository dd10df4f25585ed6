import SctOs.Proofs.Booted
import SctOs.Proofs.Relocations

/-!
# The loader behind its page tables

Within the segments, what `efi_main2` reads and writes through the boot tables it reads and writes
on the image: the scan of the dynamic table and the loop over the relocations are those on a plain
memory (`scanThrough_eq`, `relocateThrough_run`), and the tables it goes through stay as they are.
-/

namespace SctOs

open Bytes Radix Relocations

namespace Loader

variable {file : File} {runs : List PageRun} {free : List Frame} {s s₁ s₂ : Machine (List U64)}
  {e p : U64} {out : List Elf64Phdr} {q : Elf64Phdr × PageRun} {root : Frame} {m m' : Memory}
  {v : U64}

/-! ## The addresses in the headers -/

theorem setPaddr_pVaddr (phdrs : List Elf64Phdr) (o : Elf64Phdr) :
    (setPaddr phdrs o).pVaddr = o.pVaddr := by
  unfold setPaddr
  split_ifs <;> rfl

theorem place_vaddrs : ∀ {phdrs : List Elf64Phdr} {pages : List U64},
    (loadsOf phdrs).length ≤ pages.length →
    (place phdrs pages).map (fun o => (o.pType, o.pVaddr))
      = phdrs.map fun ph => (ph.pType, (shift ph).pVaddr)
  | [], _, _ => rfl
  | ph :: phdrs, pages, h => by
    rw [loadsOf_cons] at h
    split_ifs at h with hl
    · cases pages with
      | nil => cases h
      | cons page pages =>
        rw [place_load hl, List.map_cons, List.map_cons, place_vaddrs (Nat.le_of_succ_le_succ h),
          placed_pType]
        rfl
    · rw [place_other hl, List.map_cons, List.map_cons, place_vaddrs h, shift_pType]

/-- `load_elf_pages` moves the header of the dynamic table with the kernel. -/
theorem out_dynamic (h : loadElfPages file file.phdrs s = .ok (out, s₁)) {ph : Elf64Phdr}
    (hd : file.phdrs.find? (·.pType = ptDynamic) = some ph) :
    ((out.find? (·.pType = ptDynamic)).map (·.pVaddr)).getD 0 = ph.pVaddr + kernelBase := by
  obtain ⟨rfl, -, hle, -⟩ := loadElfPages_ok h
  have hkeys := place_vaddrs hle
  have hfind : ∀ (key : Elf64Phdr → Elf64Word × U64) (hdrs : List Elf64Phdr),
      (∀ o, (key o).1 = o.pType) → (hdrs.find? (·.pType = ptDynamic)).map (fun o => (key o).2)
        = ((hdrs.map key).find? (·.1 = ptDynamic)).map (·.2) := by
    intro key hdrs hkey
    rw [List.find?_map, Option.map_map]
    simp only [Function.comp_def, hkey]
  have hout := hfind (fun o => (o.pType, o.pVaddr))
    ((place file.phdrs s.pool).map (setPaddr (place file.phdrs s.pool))) fun _ => rfl
  have hset : (fun o : Elf64Phdr => (o.pType, o.pVaddr)) ∘ setPaddr (place file.phdrs s.pool)
      = fun o => (o.pType, o.pVaddr) :=
    funext fun o => Prod.ext (setPaddr_pType o) (setPaddr_pVaddr _ o)
  rw [List.map_map, hset, hkeys,
    ← hfind (fun ph => (ph.pType, (shift ph).pVaddr)) file.phdrs fun _ => rfl, hd] at hout
  have hne : ph.pType ≠ ptGnuStack := by
    have : ph.pType = ptDynamic := by simpa using List.find?_some hd
    rw [this]
    decide
  rw [hout]
  change (shift ph).pVaddr = _
  rw [shift, if_pos hne]

/-! ## Reading and relocating through the tables -/

theorem dynTable_congr {dyns : List Elf64Dyn} {a : U64} (hs : SameAt m' m a (16 * dyns.length + 8))
    (h : DynTable m a dyns) : DynTable m' a dyns := by
  induction dyns generalizing a with
  | nil =>
    rw [DynTable] at h ⊢
    rw [load_congr (hs.mono (by omega)), h]
  | cons dyn dyns ih =>
    rw [List.length_cons] at hs
    have h0 : load m' a = load m a := load_congr (hs.mono (by omega))
    have h8 : load m' (a + 8) = load m (a + 8) := load_congr (hs.sub (d := 8) (by omega))
    refine ⟨?_, h.2.1, ih (hs.sub (d := 16) (by omega)) h.2.2⟩
    rw [← h.1, dynAt, dynAt, h0, h8]

/-- What the scan makes of an entry of which it read only what it uses. -/
theorem scanEntry_unused (found : Found) (dyn : Elf64Dyn)
    (h : ¬ (dyn.dTag = dtRela ∨ dyn.dTag = dtRelasz ∨ dyn.dTag = dtRelaent)) :
    scanEntry found ⟨dyn.dTag, 0⟩ = scanEntry found dyn := by
  simp only [not_or] at h
  simp only [scanEntry, if_neg h.1, if_neg h.2.1, if_neg h.2.2]

/-- The `i`-th of the program headers from an address on. -/
def phdrAt (m : Memory) (p : U64) (i : ℕ) : Elf64Phdr :=
  Elf64Phdr.ofBytes (bytesFrom m (phdrPtr p i))

theorem phdrAt_pType (m : Memory) (p : U64) (i : ℕ) :
    (phdrAt m p i).pType = BitVec.ofNat 32 (readLE m (phdrPtr p i) 4) := by
  have h := number_bytesFrom m (phdrPtr p i) 4 0
  rw [BitVec.add_zero] at h
  exact congrArg (BitVec.ofNat 32) h

theorem phdrsAt_eq_map (m : Memory) (p : U64) (n : ℕ) :
    phdrsAt m p n = (List.range' 0 n).map (phdrAt m p) := by
  rw [phdrsAt, phdrsOfBytes, List.range_eq_range']
  refine List.map_congr_left fun i _ => phdr_congr fun k _ => ?_
  rw [bytesFrom, bytesFrom, phdrPtr, Nat.zero_add, BitVec.ofNat_add, BitVec.add_assoc]

section Through

variable {cr3 : U64} {phys₀ phys M : Memory} {V : U64 → Prop} {n fuel : ℕ} {found : Found}
  {dyns : List Elf64Dyn} {relas : List Elf64Rela}
  (hs : (translation cr3).Stable phys₀ V) (h : (translation cr3).Shows phys₀ V M phys)

include hs h

theorem readThrough_eq (hv : ∀ i < n, V (v + BitVec.ofNat 64 i)) :
    readThrough cr3 phys v n = pure (readLE M v n) := by
  rw [readThrough, h.read hs hv]
  rfl

theorem loadThrough_eq (hv : ∀ i < 8, V (v + BitVec.ofNat 64 i)) :
    loadThrough cr3 phys v = pure (load M v) := by
  rw [loadThrough, readThrough_eq hs h hv]
  rfl

theorem storeThrough_ok {x : U64} (hv : ∀ i < 8, V (v + BitVec.ofNat 64 i)
      ∧ ∃ a, translation cr3 phys₀ (v + BitVec.ofNat 64 i) = some (a, true)) :
    ∃ phys', storeThrough cr3 phys v x = .ok phys'
      ∧ (translation cr3).Shows phys₀ V (store M v x) phys' := by
  obtain ⟨phys', hw, h'⟩ := h.write hs (by norm_num) (byteOf x.toNat) hv
  exact ⟨phys', by rw [storeThrough, hw]; rfl, h'⟩

theorem scanThrough_eq {a : U64} (ht : DynTable M a dyns) (hf : dyns.length < fuel)
    (hv : ∀ i < 16 * dyns.length + 8, V (a + BitVec.ofNat 64 i)) :
    scanThrough cr3 phys fuel a found = (dyns.foldlM scanEntry found).mapError .halt := by
  induction dyns generalizing fuel a found with
  | nil =>
    obtain ⟨n, rfl⟩ := Nat.exists_eq_add_of_lt hf
    rw [DynTable] at ht
    rw [scanThrough, loadThrough_eq hs h fun i hi => hv i (by omega), pure_bind, if_pos ht]
    rfl
  | cons dyn dyns ih =>
    obtain ⟨n, rfl⟩ := Nat.exists_eq_add_of_lt hf
    rw [List.length_cons] at hv
    obtain ⟨he, h0, ht⟩ := ht
    have hsub : ∀ d k, d + k ≤ 16 * (dyns.length + 1) + 8 →
        ∀ i < k, V (a + BitVec.ofNat 64 d + BitVec.ofNat 64 i) := by
      intro d k hk i hi
      rw [BitVec.add_assoc, ← BitVec.ofNat_add]
      exact hv (d + i) (by omega)
    have htag : load M a = dyn.dTag := by rw [← he, dynAt]
    have hval : load M (a + 8) = dyn.dUn := by rw [← he, dynAt]
    have hrest : ∀ entry, scanEntry found entry = scanEntry found dyn →
        ((scanEntry found entry).mapError Fault.halt >>= fun found =>
          scanThrough cr3 phys (dyns.length + 1 + n) (a + 16) found)
        = (scanEntry found dyn >>= fun found => dyns.foldlM scanEntry found).mapError .halt := by
      intro entry hentry
      rw [hentry]
      cases scanEntry found dyn with
      | error e => rfl
      | ok found' => exact ih ht (by omega) (hsub 16 _ (by omega))
    rw [scanThrough, loadThrough_eq hs h fun i hi => hv i (by omega), pure_bind, htag, if_neg h0,
      loadThrough_eq hs h (v := a + 8) (hsub 8 8 (by omega)), hval, List.foldlM_cons]
    split_ifs with hused
    · exact hrest _ rfl
    · exact hrest _ (scanEntry_unused _ _ hused)

theorem relocateThrough_ok {rela : U64} {r : Elf64Rela} (hr : relaAt M rela = r)
    (ht : r.type = rX8664Relative) (hv : ∀ i < 24, V (rela + BitVec.ofNat 64 i))
    (hw : ∀ i < 8, V (r.target + BitVec.ofNat 64 i)
      ∧ ∃ a, translation cr3 phys₀ (r.target + BitVec.ofNat 64 i) = some (a, true)) :
    ∃ phys', relocateThrough cr3 phys rela = .ok phys'
      ∧ (translation cr3).Shows phys₀ V (store M r.target r.value) phys' := by
  obtain ⟨phys', hstore, h'⟩ := storeThrough_ok hs h (x := r.value) hw
  have hfield : ∀ d, d + 8 ≤ 24 → ∀ i < 8, V (rela + BitVec.ofNat 64 d + BitVec.ofNat 64 i) := by
    intro d hd i hi
    rw [BitVec.add_assoc, ← BitVec.ofNat_add]
    exact hv (d + i) (by omega)
  refine ⟨phys', ?_, h'⟩
  subst hr
  rw [relocateThrough, loadThrough_eq hs h fun i hi => hv i (by omega), pure_bind,
    loadThrough_eq hs h (v := rela + 8) (hfield 8 (by norm_num)), pure_bind]
  refine (if_pos ht).trans ?_
  rw [loadThrough_eq hs h (v := rela + 16) (hfield 16 (by norm_num)), pure_bind]
  exact hstore

omit h in
/-- The loop applies the relocations as they stand in the table, since it does not write there. -/
theorem relocateThrough_run {t : U64} {i : ℕ} (h : (translation cr3).Shows phys₀ V M phys)
    (ht : RelaTable M (t + sizeofRela * BitVec.ofNat 64 i) relas)
    (ha : ∀ r ∈ relas, Apart r.target 8 (t + sizeofRela * BitVec.ofNat 64 i) (24 * relas.length))
    (hty : ∀ r ∈ relas, r.type = rX8664Relative)
    (hv : ∀ k < 24 * relas.length, V (t + sizeofRela * BitVec.ofNat 64 i + BitVec.ofNat 64 k))
    (hw : ∀ r ∈ relas, ∀ k < 8, V (r.target + BitVec.ofNat 64 k)
      ∧ ∃ a, translation cr3 phys₀ (r.target + BitVec.ofNat 64 k) = some (a, true)) :
    ∃ phys', (List.range' i relas.length).foldlM
        (fun phys i => relocateThrough cr3 phys (t + sizeofRela * BitVec.ofNat 64 i)) phys
        = .ok phys'
      ∧ (translation cr3).Shows phys₀ V (writeAll 8 M (writes relas)) phys' := by
  induction relas generalizing i M phys with
  | nil => exact ⟨phys, rfl, h⟩
  | cons rela relas ih =>
    rw [List.length_cons] at ha hv
    obtain ⟨phys₁, h₁, hshows⟩ := relocateThrough_ok hs h ht.1 (hty _ List.mem_cons_self)
      (fun k hk => hv k (by omega)) (hw _ List.mem_cons_self)
    have hlater : ∀ r ∈ rela :: relas,
        Apart r.target 8 (t + sizeofRela * BitVec.ofNat 64 (i + 1)) (24 * relas.length) := by
      intro r hr
      rw [rela_succ]
      exact (ha r hr).sub (d := 24) (by omega)
    have htable : RelaTable (store M rela.target rela.value)
        (t + sizeofRela * BitVec.ofNat 64 (i + 1)) relas := by
      refine RelaTable.congr (sameAt_blit (hlater rela List.mem_cons_self)) ?_
      rw [rela_succ]
      exact ht.2
    have hreads : ∀ k < 24 * relas.length,
        V (t + sizeofRela * BitVec.ofNat 64 (i + 1) + BitVec.ofNat 64 k) := by
      intro k hk
      have := hv (24 + k) (by omega)
      rw [BitVec.ofNat_add, ← BitVec.add_assoc] at this
      rw [rela_succ]
      exact this
    obtain ⟨phys', hrun, h'⟩ := ih hshows htable (fun r hr => hlater r (List.mem_cons_of_mem _ hr))
      (fun r hr => hty r (List.mem_cons_of_mem _ hr)) hreads
      fun r hr => hw r (List.mem_cons_of_mem _ hr)
    refine ⟨phys', ?_, h'⟩
    rw [List.length_cons, List.range'_succ, List.foldlM_cons, h₁]
    exact hrun

/-- `do_relocations` through the tables is `do_relocations`. -/
theorem doRelocationsThrough_ok {dynamic ptr size : U64} (ht : Tables M dynamic dyns ptr size relas)
    (hsup : Supported dyns relas) (hf : dyns.length < fuel)
    (hd : ∀ i < 16 * dyns.length + 8, V (dynamic + BitVec.ofNat 64 i))
    (hr : ∀ i < 24 * relas.length, V (kernelBase + ptr + BitVec.ofNat 64 i))
    (hw : ∀ r ∈ relas, ∀ k < 8, V (r.target + BitVec.ofNat 64 k)
      ∧ ∃ a, translation cr3 phys₀ (r.target + BitVec.ofNat 64 k) = some (a, true)) :
    ∃ phys', doRelocationsThrough cr3 phys fuel dynamic = .ok phys'
      ∧ (translation cr3).Shows phys₀ V (writeAll 8 M (writes relas)) phys' := by
  have h0 : kernelBase + ptr ≠ 0 := by
    intro h0
    have := ht.high
    rw [h0, kernelBase_toNat] at this
    simp at this
  have hstart : kernelBase + ptr + sizeofRela * BitVec.ofNat 64 0 = kernelBase + ptr :=
    BitVec.add_zero _
  have htable := ht.relaTable
  have hapart := ht.apart
  rw [← hstart] at htable hapart hr
  have hscan : scanThrough cr3 phys fuel dynamic ⟨0, 0⟩
      = (dyns.foldlM scanEntry ⟨0, 0⟩).mapError .halt := scanThrough_eq hs h ht.dynTable hf hd
  rw [scanEntries_ok ⟨0, 0⟩ hsup.rel hsup.relaent, ht.rela, ht.relasz] at hscan
  obtain ⟨phys', hrun, h'⟩ := relocateThrough_run hs (i := 0) h htable hapart hsup.type
    hr hw
  rw [← List.range_eq_range', ht.length] at hrun
  refine ⟨phys', ?_, h'⟩
  rw [doRelocationsThrough, hscan]
  exact (if_neg h0).trans hrun

/-- The loop finds the first `PT_DYNAMIC`. -/
theorem findDynamic_eq {p : U64} {i : ℕ}
    (hv : ∀ j, i ≤ j → j < i + n → ∀ k < 24, V (phdrPtr p j + BitVec.ofNat 64 k)) :
    findDynamic cr3 phys p n i = pure (((((List.range' i n).map (phdrAt M p)).find?
      (·.pType = ptDynamic)).map (·.pVaddr)).getD 0) := by
  induction n generalizing i with
  | zero => rfl
  | succ n ih =>
    have hi := hv i le_rfl (by omega)
    have htype : BitVec.ofNat 32 (readLE M (phdrPtr p i) 4) = (phdrAt M p i).pType :=
      (phdrAt_pType M p i).symm
    have hvaddr : load M (phdrPtr p i + pVaddrOffset) = (phdrAt M p i).pVaddr :=
      load_eq_field M _ 16
    rw [findDynamic, readThrough_eq hs h fun k hk => hi k (by omega), pure_bind, htype,
      List.range'_succ, List.map_cons, List.find?_cons,
      ih fun j hj hlt => hv j (by omega) (by omega)]
    by_cases hd : (phdrAt M p i).pType = ptDynamic
    · rw [if_neg (not_not.2 hd), loadThrough_eq hs h fun k hk => ?_, hvaddr]
      · simp only [hd, decide_true]
        rfl
      · have hin := hi (16 + k) (by omega)
        rw [BitVec.ofNat_add, ← BitVec.add_assoc] at hin
        exact hin
    · rw [if_pos hd]
      simp only [hd, decide_false]

end Through

/-! ## The whole -/

namespace Booted

variable (b : Booted file runs free s s₁ s₂ q out root m) {dynamic ptr size : U64}
  {dyns : List Elf64Dyn} {relas : List Elf64Rela}
  (hr : Relocatable file dynamic dyns ptr size relas)

include b

theorem inFile (hv : InFile file v) : InSegments file v := by
  obtain ⟨⟨ph, hph, hlt⟩, -⟩ := hv
  exact ⟨ph, hph, lt_of_lt_of_le hlt (b.bounded.filesz ph hph)⟩

theorem writable (hv : Writable file v) : InSegments file v
    ∧ ∃ a, translation (frameAddr root) m v = some (a, true) := by
  obtain ⟨ph, hph, hw, hlt⟩ := hv
  obtain ⟨run, hq'⟩ := exists_segment b.placement hph
  obtain ⟨w, hw', hlead⟩ := b.lead hq' hlt
  rw [hw' hw] at hlead
  exact ⟨⟨ph, hph, hlt⟩, _, hlead⟩

theorem ehdr_inSegments {k n : ℕ} (hk : k + n ≤ 64) :
    ∀ i < n, InSegments file (kernelBase + BitVec.ofNat 64 k + BitVec.ofNat 64 i) := by
  obtain ⟨e, p, mid, hl⟩ := b.loaded
  have hsz := b.base.ehdr q.1 hl.first
  unfold sizeofEhdr at hsz
  intro i hi
  rw [BitVec.add_assoc, ← BitVec.ofNat_add]
  exact b.first_inSegments (by omega)

theorem ePhoff_read : loadThrough (frameAddr root) m (kernelBase + ePhoffOffset)
    = pure file.ehdr.ePhoff := by
  have hv : load (seen m (frameAddr root)) (kernelBase + ePhoffOffset)
      = (ehdrAt (seen m (frameAddr root)) kernelBase).ePhoff := load_eq_field _ _ 32
  rw [loadThrough_eq b.stable shows_seen (v := kernelBase + ePhoffOffset)
    (b.ehdr_inSegments (k := 32) (by norm_num)), hv, b.ehdr_seen]

theorem ePhnum_read : readThrough (frameAddr root) m (kernelBase + ePhnumOffset) 2
    = pure file.ehdr.ePhnum.toNat := by
  have hnum : (ehdrAt (seen m (frameAddr root)) kernelBase).ePhnum
      = BitVec.ofNat 16 (readLE (seen m (frameAddr root)) (kernelBase + ePhnumOffset) 2) :=
    congrArg (BitVec.ofNat 16) (number_bytesFrom _ _ 2 56)
  rw [b.ehdr_seen] at hnum
  have hlt := readLE_lt (seen m (frameAddr root)) 2 (kernelBase + ePhnumOffset)
  have hnum : file.ehdr.ePhnum.toNat = _ := congrArg BitVec.toNat hnum
  rw [readThrough_eq b.stable shows_seen (v := kernelBase + ePhnumOffset)
    (b.ehdr_inSegments (k := 56) (by norm_num)), hnum,
    BitVec.toNat_ofNat, Nat.mod_eq_of_lt (by omega)]

theorem dynamic_found {ph : Elf64Phdr} (hd : file.phdrs.find? (·.pType = ptDynamic) = some ph) :
    findDynamic (frameAddr root) m (kernelBase + file.ehdr.ePhoff) file.ehdr.ePhnum.toNat 0
      = pure (ph.pVaddr + kernelBase) := by
  obtain ⟨e, p, mid, hl⟩ := b.loaded
  have hend := b.base.phdrs q.1 hl.first
  unfold sizeofPhdr at hend
  rw [findDynamic_eq b.stable shows_seen fun j _ hj k hk => ?_, ← phdrsAt_eq_map, b.phdrs_seen,
    out_dynamic hl.pages hd]
  rw [phdrPtr_add, sizeofPhdr]
  exact b.first_inSegments (by omega)

include hr

theorem tables : Tables (seen m (frameAddr root)) dynamic dyns ptr size relas := by
  have hsame : ∀ {a : U64} {n : ℕ}, (∀ i < n, InFile file (a + BitVec.ofNat 64 i)) →
      SameAt (seen m (frameAddr root)) file.memory a n := fun h i hi => b.seen_eq (h i hi)
  exact hr.tables.perm (.refl _) (.refl _) (dynTable_congr (hsame hr.dynInFile) hr.tables.dynTable)
    (hr.tables.relaTable.congr (hsame hr.relaInFile))

/-- `do_relocations` finds the tables and runs to the end. -/
theorem relocates {fuel : ℕ} (hf : dyns.length < fuel) :
    ∃ m', doRelocationsThrough (frameAddr root) m fuel dynamic = .ok m'
      ∧ (translation (frameAddr root)).Shows m (InSegments file)
        (writeAll 8 (seen m (frameAddr root)) (writes relas)) m' := by
  exact doRelocationsThrough_ok b.stable shows_seen (b.tables hr) hr.supported hf
    (fun i hi => b.inFile (hr.dynInFile i hi)) (fun i hi => b.inFile (hr.relaInFile i hi))
    fun r hm k hk => b.writable (hr.writable r hm k hk)

/-- The entry point is not relocated. -/
theorem entry_read {m' : Memory} (h : (translation (frameAddr root)).Shows m (InSegments file)
      (writeAll 8 (seen m (frameAddr root)) (writes relas)) m') :
    loadThrough (frameAddr root) m' (kernelBase + eEntryOffset)
      = pure (file.ehdr.eEntry + kernelBase) := by
  have hsame : SameAt (writeAll 8 (seen m (frameAddr root)) (writes relas))
      (seen m (frameAddr root)) (kernelBase + BitVec.ofNat 64 24) 8 := by
    intro i hi
    refine writeAll_frame (List.forall_mem_map.2 fun r hm => ?_)
    rw [BitVec.add_assoc, ← BitVec.ofNat_add]
    exact hr.ehdr r hm (24 + i) (by unfold sizeofEhdr; omega)
  have hv : load (seen m (frameAddr root)) (kernelBase + eEntryOffset)
      = (ehdrAt (seen m (frameAddr root)) kernelBase).eEntry := load_eq_field _ _ 24
  rw [loadThrough_eq b.stable h (v := kernelBase + eEntryOffset)
    (b.ehdr_inSegments (k := 24) (by norm_num))]
  refine congrArg pure ((load_congr hsame).trans ?_)
  rw [b.ehdr_seen] at hv
  exact hv

/-- `efi_main2` runs to the call of the kernel. -/
theorem efiMain2_ok {fuel : ℕ} (bootloaderData : U64) (data : BootloaderData)
    (hf : dyns.length < fuel) :
    ∃ m', efiMain2 fuel m (frameAddr root) bootloaderData data = .ok
        ⟨file.ehdr.eEntry + kernelBase, data.paddrBase + bootloaderData, kernelBase,
          kernelBase + file.ehdr.ePhoff, m'⟩
      ∧ (translation (frameAddr root)).Shows m (InSegments file)
        (writeAll 8 (seen m (frameAddr root)) (writes relas)) m' := by
  obtain ⟨m', hrel, hshows⟩ := b.relocates hr hf
  obtain ⟨ph, hph, hdyn⟩ := hr.header
  refine ⟨m', ?_, hshows⟩
  rw [efiMain2, b.ePhoff_read, pure_bind, b.ePhnum_read, pure_bind, b.dynamic_found hph, pure_bind,
    ← hdyn, if_neg hr.nonnull, hrel]
  change (loadThrough (frameAddr root) m' (kernelBase + eEntryOffset) >>= _) = _
  rw [b.entry_read hr hshows]
  rfl

theorem relocated_eq (hv : InFile file v) :
    writeAll 8 (seen m (frameAddr root)) (writes relas) v = file.relocated relas v :=
  writeAll_perm (by norm_num) (.refl _) (writes_pairwise hr.tables) (b.seen_eq hv)

end Booted

/-- What `load_kernel` and the boot tables leave, with the pages of both kept since. -/
theorem booted {x : Boot} {root : U64} {d : BootloaderData} (hk : KernelFile file)
    (ha : HeadersAtBase file) (hp : Placement file runs free s.pool)
    (hload : loadKernel file s = .ok ((e, p), s₁))
    (hboot : (x.ofImage s₁.mem e p).run s₁ = .ok ((root, d), s₂))
    (hm : ∀ a, InPages (runs.flatMap PageRun.frames ++ free) a → m a = s₂.mem a) :
    ∃ q out r, root = frameAddr r ∧ Booted file runs free s s₁ s₂ q out r m := by
  obtain ⟨out, mid, q, hl⟩ := loadKernel_spec hp hk.bounded ha.toHeadersLoaded hload
  have hsz := ha.ehdr q.1 hl.first
  have hloads := hl.loads_eq hp hk.bounded ha.toHeadersApart x hsz
  obtain ⟨r, rest, st, hfree, hroot, -, -, hy⟩ := boot_spec hl.pool hp.free_nodup hboot
  exact ⟨q, out, r, hroot, hk, ha, hp, ⟨e, p, mid, hl⟩, ⟨_, st, hy, hloads⟩, hm⟩

/-- A kernel of one segment, with a dynamic table at 176 that names one relocation, at 240, of the
word at 264, and 16 bytes that are not in the file. -/
def relocFile : File :=
  [0x7f, 0x45, 0x4c, 0x46] ++ leBytes 20 0 ++ leBytes 8 0x100 ++ leBytes 8 64 ++ leBytes 16 0
    ++ leBytes 8 2 ++ leBytes 4 1 ++ leBytes 4 7 ++ leBytes 24 0 ++ leBytes 8 272 ++ leBytes 8 288
    ++ leBytes 8 0x1000 ++ leBytes 4 2 ++ leBytes 4 6 ++ leBytes 8 176 ++ leBytes 8 176
    ++ leBytes 8 0 ++ leBytes 8 64 ++ leBytes 8 64 ++ leBytes 8 8
    ++ leBytes 8 7 ++ leBytes 8 240 ++ leBytes 8 8 ++ leBytes 8 24 ++ leBytes 8 9 ++ leBytes 8 24
    ++ leBytes 16 0 ++ leBytes 8 264 ++ leBytes 8 8 ++ leBytes 8 0x20 ++ leBytes 8 0

/-- What its headers say. -/
theorem relocFile_headers :
    relocFile.phdrs = [⟨1, 7, 0, 0, 0, 272, 288, 0x1000⟩, ⟨2, 6, 176, 176, 0, 64, 64, 8⟩]
      ∧ loadsOf relocFile.phdrs = [⟨1, 7, 0, 0, 0, 272, 288, 0x1000⟩]
      ∧ relocFile.ehdr.ePhoff = 64 ∧ relocFile.ehdr.ePhnum = 2
      ∧ relocFile.ehdr.eEntry = 0x100 := by
  decide +kernel

theorem relocFile_small : SmallKernel relocFile 2
    [⟨1, 7, 0, 0xffffffffc0000000, 0x10000, 272, 288, 0x1000⟩,
      ⟨2, 6, 176, 0xffffffffc00000b0, 0x100b0, 64, 64, 8⟩] :=
  ⟨⟨rfl, by decide +kernel, by decide +kernel, by decide +kernel⟩, by decide +kernel,
    by decide +kernel, by decide +kernel⟩

theorem relocFile_base : HeadersAtBase relocFile :=
  ⟨⟨⟨by decide +kernel, by decide +kernel⟩, by decide +kernel⟩, by decide +kernel,
    by decide +kernel⟩

theorem relocFile_kernel : KernelFile relocFile :=
  ⟨relocFile_base.toHeadersApart, by decide +kernel, by decide +kernel⟩

theorem relocFile_loads : loadsOf relocFile.phdrs = [⟨1, 7, 0, 0, 0, 272, 288, 0x1000⟩] :=
  relocFile_headers.2.1

theorem relocFile_load :
    (⟨1, 7, 0, 0, 0, 272, 288, 0x1000⟩ : Elf64Phdr) ∈ loadsOf relocFile.phdrs := by
  rw [relocFile_loads]
  exact List.mem_singleton_self _

theorem relocFile_memory : relocFile.memory = fun v =>
    if (v - kernelBase).toNat < 272 then relocFile.byte (v - kernelBase).toNat else 0 := by
  funext v
  rw [File.memory, File.segmentAt, relocFile_loads, List.find?_singleton]
  have hshift : (shift ⟨1, 7, 0, 0, 0, 272, 288, 0x1000⟩).pVaddr = kernelBase := by decide
  simp only [hshift]
  by_cases hv : (v - kernelBase).toNat < 272
  · simp only [BitVec.reduceToNat, hv, decide_true, if_true, hshift]
    exact congrArg relocFile.byte (Nat.zero_add _)
  · simp only [BitVec.reduceToNat, hv, decide_false, if_false]
    rfl

def relocDyns : List Elf64Dyn := [⟨dtRela, 240⟩, ⟨dtRelasz, 24⟩, ⟨dtRelaent, 24⟩]

def relocRelas : List Elf64Rela := [⟨264, 8, 0x20⟩]

theorem relocFile_writable {k n : ℕ} (hn : k + n ≤ 288) :
    ∀ i < n, Writable relocFile (kernelBase + BitVec.ofNat 64 k + BitVec.ofNat 64 i) := by
  intro i hi
  refine ⟨_, relocFile_load, by decide, ?_⟩
  change (kernelBase + BitVec.ofNat 64 k + BitVec.ofNat 64 i - kernelBase).toNat < 288
  rw [BitVec.add_assoc, ← BitVec.ofNat_add, BitVec.add_comm, BitVec.add_sub_cancel,
    BitVec.toNat_ofNat]
  omega

/-- Past the headers nothing is rewritten. -/
theorem relocFile_inFile {k n : ℕ} (hk : 176 ≤ k) (hn : k + n ≤ 272) :
    ∀ i < n, InFile relocFile (kernelBase + BitVec.ofNat 64 k + BitVec.ofNat 64 i) := by
  intro i hi
  obtain ⟨-, -, hoff, hnum, -⟩ := relocFile_headers
  rw [BitVec.add_assoc, ← BitVec.ofNat_add]
  refine ⟨⟨_, relocFile_load, ?_⟩, ?_⟩
  · change (kernelBase + BitVec.ofNat 64 (k + i) - kernelBase).toNat < 272
    rw [BitVec.add_comm, BitVec.add_sub_cancel, BitVec.toNat_ofNat]
    omega
  · rintro (h | ⟨j, hj, h⟩)
    · exact absurd h (Nat.not_lt.2 (offset_outside (i := 24) (by omega) (by norm_num) (by omega)))
    · rw [hnum] at hj
      have hj : j < 2 := hj
      rw [vaddr_add, hoff] at h
      simp only [BitVec.reduceToNat] at h
      exact absurd h (Nat.not_lt.2 (offset_outside (by omega) (by omega) (by omega)))

theorem relocFile_tables :
    Tables relocFile.memory (kernelBase + 176) relocDyns 240 24 relocRelas where
  dynTable := by
    rw [relocFile_memory]
    simp only [relocDyns, DynTable]
    decide +kernel
  rela := by decide
  relasz := by decide
  high := by decide
  within := by decide
  length := by decide
  relaTable := by
    rw [relocFile_memory]
    simp only [relocRelas, RelaTable]
    decide +kernel
  targets := by decide +kernel
  apart := by decide +kernel
  apartDyn := by decide +kernel

theorem relocFile_relocatable :
    Relocatable relocFile (kernelBase + 176) relocDyns 240 24 relocRelas where
  header := ⟨⟨2, 6, 176, 176, 0, 64, 64, 8⟩, by rw [relocFile_headers.1]; decide, by decide⟩
  nonnull := by decide
  tables := relocFile_tables
  supported := ⟨by decide, by decide, by decide⟩
  dynInFile := relocFile_inFile le_rfl (by decide)
  relaInFile := relocFile_inFile (k := 240) (by norm_num) (by decide)
  writable := by
    intro r hr
    rw [relocRelas, List.mem_singleton] at hr
    rw [hr]
    exact relocFile_writable (k := 264) (by norm_num)
  ehdr := by decide +kernel

end Loader

end SctOs
