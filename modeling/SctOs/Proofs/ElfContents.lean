import SctOs.Proofs.Elf
import SctOs.Proofs.Readelf
import SctOs.Proofs.Related

/-!
# What was read is what the file holds

A buffer has the file's structures in it as far as it goes (`array_buffer`), so the headers that
`readelf` reaches are those of the file. A well-formed file is read whole (`readelf_wellFormed`).
What is read of a relocation section is too little without addends (`convertRelToRela_iff`), and what
is said of it depends on the size of an entry in its header (`readRelocations_fit_iff`).
-/

namespace SctOs

namespace Readelf

open Bytes (bytesLE)

variable {env : Env}

/-! ## Structures -/

/-- A structure is read from its own bytes only. -/
class LawfulCStruct (α : Type) [CStruct α] : Prop where
  congr : ∀ {b b' : ℕ → BitVec 8}, (∀ k < sizeof α, b k = b' k) →
    (CStruct.ofBytes b : α) = CStruct.ofBytes b'

theorem fields_congr {size : ℕ} {b b' : ℕ → BitVec 8} (h : ∀ k < size, b k = b' k) :
    ∀ w i, i + w / 8 ≤ size → field w b i = field w b' i := fun w i hi =>
  field_congr fun j hj => h (i + j) (by omega)

instance : LawfulCStruct (BitVec 8) := ⟨fun h => h 0 Nat.one_pos⟩

instance : LawfulCStruct Elf64Ehdr := ⟨ehdr_congr⟩

instance : LawfulCStruct Elf64Phdr := ⟨phdr_congr⟩

instance : LawfulCStruct Elf64Shdr := ⟨fun {b b'} h => by
  have hf := fields_congr h
  dsimp only [CStruct.ofBytes]
  rw [hf 32 0, hf 32 4, hf 64 8, hf 64 16, hf 64 24, hf 64 32, hf 32 40, hf 32 44, hf 64 48, hf 64 56]
    <;> decide⟩

instance : LawfulCStruct Elf64Sym := ⟨fun {b b'} h => by
  have hf := fields_congr h
  have h4 : b 4 = b' 4 := h 4 (by decide)
  have h5 : b 5 = b' 5 := h 5 (by decide)
  dsimp only [CStruct.ofBytes]
  rw [hf 32 0, hf 16 6, hf 64 8, hf 64 16, h4, h5] <;> decide⟩

instance : LawfulCStruct Elf64Rel := ⟨fun {b b'} h => by
  have hf := fields_congr h
  dsimp only [CStruct.ofBytes]
  rw [hf 64 0, hf 64 8] <;> decide⟩

instance : LawfulCStruct Elf64Rela := ⟨fun {b b'} h => by
  have hf := fields_congr h
  dsimp only [CStruct.ofBytes]
  rw [hf 64 0, hf 64 8, hf 64 16] <;> decide⟩

instance : LawfulCStruct Elf64Dyn := ⟨fun {b b'} h => by
  have hf := fields_congr h
  dsimp only [CStruct.ofBytes]
  rw [hf 64 0, hf 64 8] <;> decide⟩

section Structures

variable {α : Type} [CStruct α] [LawfulCStruct α]

theorem array_buffer {offset size : U64} {j : ℕ} (hj : sizeof α * (j + 1) ≤ size.toNat) :
    CStruct.array α (env.buffer offset size) j = env.file.array α offset j := by
  refine LawfulCStruct.congr fun k hk => ?_
  unfold Env.buffer
  rw [if_pos (by rw [Nat.mul_succ] at hj; omega)]

omit [LawfulCStruct α] in
theorem bytesOf_toNat (hs : sizeof α ≤ 64) (n : Elf64Half) :
    (bytesOf α n).toNat = sizeof α * n.toNat := by
  have hn := n.isLt
  have : sizeof α * n.toNat ≤ 64 * n.toNat := Nat.mul_le_mul_right _ hs
  rw [bytesOf, BitVec.toNat_ofNat, Nat.mod_eq_of_lt (by omega)]

omit [LawfulCStruct α] in
theorem lt_of_array (hs : sizeof α ≤ 64) (h0 : 0 < sizeof α) {n : Elf64Half} {j : ℕ}
    (hj : sizeof α * (j + 1) ≤ (bytesOf α n).toNat) : j < n.toNat := by
  rw [bytesOf_toNat hs] at hj
  exact Nat.le_of_mul_le_mul_left hj h0

theorem array_headers (hs : sizeof α ≤ 64) {offset : U64} {n : Elf64Half} {i : ℕ} (hi : i < n.toNat) :
    CStruct.array α (env.buffer offset (bytesOf α n)) i = env.file.array α offset i := by
  refine array_buffer ?_
  rw [bytesOf_toNat hs]
  exact Nat.mul_le_mul_left _ hi

end Structures

/-! ## Headers -/

theorem ehdr_eq (env : Env) : env.ehdr = env.file.ehdr := by
  have h : env.ehdr = env.file.array Elf64Ehdr 0 0 := array_buffer (by decide)
  rw [h]
  refine ehdr_congr fun i hi => ?_
  simp

theorem phdr_eq {i : ℕ} (hi : i < env.file.ehdr.ePhnum.toNat) : env.phdr i = env.file.phdr i := by
  unfold Env.phdr File.phdr
  rw [ehdr_eq]
  exact array_headers (by decide) hi

theorem shdr_eq {i : ℕ} (hi : i < env.file.ehdr.eShnum.toNat) : env.shdr i = env.file.shdr i := by
  unfold Env.shdr File.shdr
  rw [ehdr_eq]
  exact array_headers (by decide) hi

theorem firstPhdr_eq (type : Elf64Word) : env.firstPhdr type = env.file.firstPhdr type := by
  unfold Env.firstPhdr File.firstPhdr
  rw [ehdr_eq]
  refine find?_congr fun i hi => ?_
  rw [phdr_eq (List.mem_range.1 hi)]

theorem filter_lt {file : File} {p : ℕ → Bool} {i : ℕ}
    (h : i ∈ (List.range' 1 (file.ehdr.eShnum.toNat - 1)).filter p) :
    i < file.ehdr.eShnum.toNat := by
  have hi := List.mem_range'_1.1 (List.mem_of_mem_filter h)
  omega

theorem filter_sections (p : Elf64Word → Bool) :
    ((List.range' 1 (env.ehdr.eShnum.toNat - 1)).filter fun i => p (env.shdr i).shType)
      = (List.range' 1 (env.file.ehdr.eShnum.toNat - 1)).filter fun i =>
        p (env.file.shdr i).shType := by
  rw [ehdr_eq]
  refine List.filter_congr fun i hi => ?_
  rw [shdr_eq (sectionIndices_lt hi)]

theorem symbolIndices_eq : env.symbolIndices = env.file.symbolIndices :=
  filter_sections fun type => type = shtSymtab ∨ type = shtDynsym

theorem relIndices_eq : env.relIndices = env.file.relIndices :=
  filter_sections fun type => type = shtRel ∨ type = shtRela

theorem dynsym_eq : env.dynsym = env.file.dynsym := by
  unfold Env.dynsym File.dynsym
  rw [symbolIndices_eq]
  refine findIdx?_congr fun i hi => ?_
  rw [shdr_eq (filter_lt hi)]

/-! ## Buffers -/

theorem holds_section {α : Type} [CStruct α] [LawfulCStruct α] {i : ℕ}
    (hi : i < env.file.ehdr.eShnum.toNat) (ptr : ℕ) :
    HoldsSection env.file i (some (env.sectionData α i ptr)) := by
  refine ⟨_, rfl, ?_⟩
  rw [← shdr_eq hi]
  exact ⟨rfl, fun j hj => array_buffer hj⟩

theorem holds_segment {α : Type} [CStruct α] [LawfulCStruct α] {type : Elf64Word}
    {p : Option (Pointer α)} (h : IsSegment env type p) : HoldsSegment env.file type p := by
  unfold IsSegment at h
  unfold HoldsSegment
  rw [firstPhdr_eq] at h
  rcases hi : env.file.firstPhdr type with - | i <;> rw [hi] at h
  · exact h
  · obtain ⟨ptr, rfl⟩ := h
    rw [← firstPhdr_eq] at hi
    have hlt := firstPhdr_lt hi
    rw [ehdr_eq] at hlt
    refine ⟨_, rfl, ?_⟩
    rw [← phdr_eq hlt]
    exact ⟨rfl, fun j hj => array_buffer hj⟩

/-- The low bits of a link to a section are all of it. -/
theorem names_eq {shdr : Elf64Shdr} {n : Elf64Half} (h : shdr.shLink.toNat < n.toNat) :
    shdr.names = shdr.shLink.toNat := by
  have hn := n.isLt
  rw [Elf64Shdr.names, BitVec.toNat_setWidth, Nat.mod_eq_of_lt (by omega)]

theorem symbols_from {i : ℕ} {t : ElfSymbolTable} (hi : i ∈ env.file.symbolIndices)
    (h : SymbolsWellFormed env.file i) (ht : IsSymbolTable env i t) : SymbolsFrom env.file i t := by
  have he := shdr_eq (filter_lt hi)
  obtain ⟨ptr, hs⟩ := ht.symbols
  obtain ⟨ptr', hn⟩ := ht.names
  rw [he, names_eq h.link] at hn
  refine ⟨ht.sectionIndex, ?_, ?_, ?_⟩
  · have hc := h.count
    rw [ht.nSymbols, he, BitVec.toNat_setWidth, BitVec.toNat_udiv]
    exact Nat.mod_eq_of_lt hc
  · rw [hs]
    exact holds_section (filter_lt hi) ptr
  · rw [hn]
    exact holds_section h.link ptr'

theorem rels_from {i : ℕ} {t : ElfRelTable} (hi : i ∈ env.file.relIndices)
    (h : RelsWellFormed env.file i) (ht : IsRelTable env i t) : RelsFrom env.file i t := by
  have he := shdr_eq (filter_lt hi)
  obtain ⟨ptr, hr⟩ := ht.relocations
  rw [Env.relocations, he, if_pos h.rela] at hr
  refine ⟨ht.sectionIndex, ?_, ?_⟩
  · rw [ht.nRelocations, he, h.entsize, BitVec.toNat_udiv]
    rfl
  · rw [hr]
    exact holds_section (filter_lt hi) ptr

theorem parsed_from (h : WellFormed env.file) {elf : ElfFile} (hp : Parsed env elf) :
    ReadFrom env.file elf := by
  obtain ⟨p, hh, he⟩ := hp.header
  obtain ⟨ptr, hs⟩ := hp.sections
  obtain ⟨sptr, hn⟩ := hp.sectionNames
  obtain ⟨tptr, ts, hts, hst⟩ := hp.symbolTables
  obtain ⟨rptr, rs, hrs, hrt⟩ := hp.relTables
  have hph := hp.programHeaders
  rw [ehdr_eq] at he hph hs hn
  rw [symbolIndices_eq] at hst
  rw [relIndices_eq] at hrt
  refine ⟨⟨p, hh, he⟩, ?_,
    ⟨_, hs, rfl, fun j hj => shdr_eq (lt_of_array (by decide) (by decide) hj)⟩, ?_,
    holds_segment hp.interpreter, holds_segment hp.dynamic, ?_, ?_, ⟨tptr, ts, hts, ?_⟩, ?_,
    ⟨rptr, rs, hrs, ?_⟩⟩
  · split_ifs at hph ⊢
    · exact hph
    · obtain ⟨ptr, hph⟩ := hph
      exact ⟨_, hph, rfl, fun j hj => phdr_eq (lt_of_array (by decide) (by decide) hj)⟩
  · rw [hn]
    exact holds_section h.shstrndx sptr
  · rw [hp.symbolTable, firstPhdr_eq, dynsym_eq]
  · rw [hp.nSymbolTables, symbolIndices_eq]
  · exact hst.imp_of_mem fun i hi t => symbols_from hi (h.symbols i hi)
  · rw [hp.nRelTables, relIndices_eq]
  · exact hrt.imp_of_mem fun i hi t => rels_from hi (h.rels i hi)

/-! ## Well-formed files -/

/-- The step is taken whenever it is. -/
def Step.Ok (env : Env) : Step → Prop
  | .alloc => ∀ n, env.alloc n = true
  | .read offset size => ∀ n, env.Reads n offset size
  | .check ok => ok = true

theorem step_ok {s : Step} (h : s.Ok env) (c : Counts) : ∃ c', env.step s c = some c' := by
  cases s with
  | alloc => exact ⟨_, if_pos (h c.allocs)⟩
  | read offset size => exact ⟨_, if_pos (h c.reads)⟩
  | check ok => exact ⟨c, if_pos h⟩

theorem after_ok : ∀ {steps : List Step} (c : Counts), (∀ s ∈ steps, s.Ok env) →
    (env.after steps c).isSome
  | [], _, _ => rfl
  | s :: steps, c, h => by
    obtain ⟨hs, hss⟩ := List.forall_mem_cons.1 h
    obtain ⟨c', hc⟩ := step_ok hs c
    rw [← List.singleton_append, Env.after_append]
    have h1 : env.after [s] c = some c' := by
      rw [Env.after, List.foldlM_cons, hc]
      rfl
    rw [h1]
    exact after_ok c' hss

section Succeeds

variable (ha : ∀ n, env.alloc n = true) (hr : ∀ n, env.read n = true)
include ha hr

theorem buffer_ok {offset size : U64} (h : env.file.Inside offset size) :
    ∀ s ∈ bufferSteps offset size, s.Ok env := by
  intro s hs
  rcases List.mem_cons.1 hs with rfl | hs
  · exact ha
  · rw [List.mem_singleton.1 hs]
    exact fun n => ⟨hr n, .inr h⟩

theorem section_ok {i : ℕ} (hi : i < env.file.ehdr.eShnum.toNat) (h : env.file.SectionInside i) :
    ∀ s ∈ env.sectionSteps i, s.Ok env := by
  unfold Env.sectionSteps
  rw [shdr_eq hi]
  exact buffer_ok ha hr h

theorem segment_ok {type : Elf64Word} (h : env.file.SegmentInside type) :
    ∀ s ∈ env.segmentSteps type, s.Ok env := by
  unfold Env.segmentSteps
  rcases hi : env.firstPhdr type with - | i
  · exact fun s hs => absurd hs List.not_mem_nil
  · have hlt := firstPhdr_lt hi
    rw [ehdr_eq] at hlt
    dsimp only [Option.elim]
    unfold Env.phdrSteps
    rw [phdr_eq hlt]
    rw [firstPhdr_eq] at hi
    exact buffer_ok ha hr (h i hi)

theorem symbols_ok {i : ℕ} (hi : i < env.file.ehdr.eShnum.toNat) (h : SymbolsWellFormed env.file i) :
    ∀ s ∈ env.symbolSteps i, s.Ok env := by
  unfold Env.symbolSteps
  rw [shdr_eq hi, names_eq h.link]
  exact List.forall_mem_append.2 ⟨section_ok ha hr hi h.symbols, section_ok ha hr h.link h.names⟩

theorem rels_ok {i : ℕ} (hi : i < env.file.ehdr.eShnum.toNat) (h : RelsWellFormed env.file i) :
    ∀ s ∈ env.relSteps i, s.Ok env := by
  unfold Env.relSteps
  rw [shdr_eq hi, if_pos h.rela, List.append_nil]
  exact section_ok ha hr hi h.inside

theorem headers_ok (h : WellFormed env.file) : ∀ s ∈ env.headerSteps, s.Ok env := by
  unfold Env.headerSteps Env.programHeaderSteps
  rw [ehdr_eq]
  have hread : Step.Ok env (.read 0 (BitVec.ofNat 64 (sizeof Elf64Ehdr))) := fun n =>
    ⟨hr n, .inr ((Nat.zero_add _).trans_le h.header)⟩
  have hcheck : Step.Ok env (.check (decide env.file.ehdr.VerifyMagic)) := decide_eq_true h.magic
  refine List.forall_mem_append.2 ⟨List.forall_mem_append.2 ⟨List.forall_mem_singleton.2 ha,
    List.forall_mem_append.2 ⟨?_, ?_⟩⟩, buffer_ok ha hr h.sections⟩
  · exact List.forall_mem_cons.2 ⟨hread, List.forall_mem_singleton.2 hcheck⟩
  · split_ifs with h0
    · exact fun s hs => absurd hs List.not_mem_nil
    · exact buffer_ok ha hr (h.programHeaders h0)

theorem all_ok (h : WellFormed env.file) : ∀ s ∈ env.allSteps, s.Ok env := by
  have htables : ∀ {steps : ℕ → List Step} {is : List ℕ}, (∀ i ∈ is, ∀ s ∈ steps i, s.Ok env) →
      ∀ s ∈ Step.alloc :: is.flatMap steps, s.Ok env := fun hi =>
    List.forall_mem_cons.2 ⟨ha, fun s hs => by
      obtain ⟨i, hmem, hs⟩ := List.mem_flatMap.1 hs
      exact hi i hmem s hs⟩
  unfold Env.allSteps Env.dynamicSteps Env.tableSteps Env.nameSteps Env.symbolTableSteps
    Env.relTableSteps
  rw [symbolIndices_eq, relIndices_eq]
  simp only [List.forall_mem_append]
  refine ⟨⟨⟨⟨⟨headers_ok ha hr h, ?_⟩, segment_ok ha hr h.interpreter⟩, htables fun i hi => ?_⟩,
    segment_ok ha hr h.dynamic⟩, htables fun i hi => ?_⟩
  · rw [ehdr_eq]
    exact section_ok ha hr h.shstrndx h.sectionNames
  · exact symbols_ok ha hr (filter_lt hi) (h.symbols i hi)
  · exact rels_ok ha hr (filter_lt hi) (h.rels i hi)

end Succeeds

theorem dynsymOk_of_wellFormed (h : WellFormed env.file) : DynsymOk env := by
  intro hd _
  rw [firstPhdr_eq] at hd
  obtain ⟨i, hi, ht⟩ := h.dynsym hd
  rw [symbolIndices_eq]
  exact ⟨i, hi, by rw [shdr_eq (filter_lt hi), ht]⟩

theorem entsizeOk_of_wellFormed (h : WellFormed env.file) : EntsizeOk env := by
  intro before i rest hi _
  rw [relIndices_eq] at hi
  have hmem : i ∈ env.file.relIndices := hi ▸ List.mem_append_right _ List.mem_cons_self
  rw [shdr_eq (filter_lt hmem), (h.rels i hmem).entsize]
  decide

/-- A well-formed file is read whole. -/
theorem readelf_wellFormed (h : WellFormed env.file) (ha : ∀ n, env.alloc n = true)
    (hr : ∀ n, env.read n = true) :
    ∃ w, (readelf env).run World.init = .ok false w ∧ ReadFrom env.file w.elf := by
  have hs : env.Reaches env.allSteps := after_ok _ (all_ok ha hr h)
  obtain ⟨r, he, hrun⟩ := readelf_ends env
  cases he with
  | read _ parsed => exact ⟨_, hrun, parsed_from h parsed⟩
  | failed _ steps => exact absurd hs steps
  | freed _ _ _ _ dynsym => exact absurd (dynsymOk_of_wellFormed h) dynsym
  | divided entsize => exact absurd (entsizeOk_of_wellFormed h) entsize

/-- Two segments, the section names, a dynamic symbol table and a relocation table. -/
def wholeFile : File := .ofHeaders
  [⟨ptInterp, 0, 368, 0, 0, 4, 4, 0⟩, ⟨ptDynamic, 0, 372, 0, 0, 16, 16, 0⟩]
  [.at 0 368 4 0, .at shtDynsym 388 24 24, .at shtRela 412 24 24]
  (bytesLE 4 47 ++ bytesLE 16 5 ++ bytesLE 24 1 ++ bytesLE 24 2)

theorem wholeFile_wellFormed : WellFormed wholeFile := by
  have hs : wholeFile.symbolIndices = [1] := by decide +kernel
  have hr : wholeFile.relIndices = [2] := by decide +kernel
  refine ⟨by decide +kernel, by decide +kernel, by decide +kernel, by decide +kernel,
    by decide +kernel, by decide +kernel, ?_, ?_, by decide +kernel, fun i hi => ?_, fun i hi => ?_⟩
  · unfold File.SegmentInside
    decide +kernel
  · unfold File.SegmentInside
    decide +kernel
  · rw [hs] at hi
    rw [List.mem_singleton.1 hi]
    exact ⟨by decide +kernel, by decide +kernel, by decide +kernel, by decide +kernel⟩
  · rw [hr] at hi
    rw [List.mem_singleton.1 hi]
    exact ⟨by decide +kernel, by decide +kernel, by decide +kernel⟩

theorem wholeFile_read : ∃ w, (readelf (.ofFile wholeFile)).run World.init = .ok false w
    ∧ ReadFrom wholeFile w.elf :=
  @readelf_wellFormed (.ofFile wholeFile) wholeFile_wellFormed (fun _ => rfl) fun _ => rfl

/-- A dynamic symbol table, and no dynamic segment. -/
def symbolsFile : File := .ofHeaders [] [.at 0 192 0 0, .at shtDynsym 192 24 24] (bytesLE 24 1)

theorem symbolsFile_wellFormed : WellFormed symbolsFile := by
  have hs : symbolsFile.symbolIndices = [1] := by decide +kernel
  have hr : symbolsFile.relIndices = [] := by decide +kernel
  refine ⟨by decide +kernel, by decide +kernel, by decide +kernel, by decide +kernel,
    by decide +kernel, by decide +kernel, ?_, ?_, by decide +kernel, fun i hi => ?_, fun i hi => ?_⟩
  · unfold File.SegmentInside
    decide +kernel
  · unfold File.SegmentInside
    decide +kernel
  · rw [hs] at hi
    rw [List.mem_singleton.1 hi]
    exact ⟨by decide +kernel, by decide +kernel, by decide +kernel, by decide +kernel⟩
  · rw [hr] at hi
    cases hi

/-- The dynamic symbol table is only looked for with a dynamic segment. -/
theorem dynsym_without_dynamic : WellFormed symbolsFile ∧ symbolsFile.dynsym = some 0
    ∧ ∃ w, (readelf (.ofFile symbolsFile)).run World.init = .ok false w
      ∧ w.elf.dynamic.symbolTable = none := by
  refine ⟨symbolsFile_wellFormed, by decide +kernel, ?_⟩
  obtain ⟨err, w, h, hw⟩ := exists_of_returns
    (p := fun err w => !err && w.elf.dynamic.symbolTable = none)
    (r := (readelf (.ofFile symbolsFile)).run World.init) (by decide +kernel)
  rw [Bool.and_eq_true, Bool.not_eq_true', decide_eq_true_iff] at hw
  exact ⟨w, hw.1 ▸ h, hw.2⟩

/-! ## Relocations without addends -/

/-- The table has an entry with the addend 0 for each of the section's relocations. -/
structure Converted (file : File) (i : ℕ) (t : ElfRelTable) (p : Pointer Elf64Rela) (n : ℕ) :
    Prop where
  relocations : t.relocations = some p
  size : p.size.toNat = sizeof Elf64Rela * n
  elem : ∀ j < n, (p.elem j).rOffset = (file.array Elf64Rel (file.shdr i).shOffset j).rOffset
    ∧ (p.elem j).rInfo = (file.array Elf64Rel (file.shdr i).shOffset j).rInfo
    ∧ (p.elem j).rAddend = 0
  nRelocations : (file.shdr i).shEntsize = BitVec.ofNat 64 (sizeof Elf64Rel) →
    t.nRelocations.toNat = n

/-- One of the tables is that of section `i`, with all its relocations. -/
def HasConverted (file : File) (i : ℕ) (elf : ElfFile) : Prop :=
  ∃ table, elf.relTables = some table ∧ ∃ t ∈ table.entries, t.sectionIndex = some i
    ∧ ∃ p, Converted file i t p ((file.shdr i).shSize.toNat / sizeof Elf64Rel)

theorem parsed_of_ok {w : World} (h : (readelf env).run World.init = .ok false w) :
    Parsed env w.elf := by
  obtain ⟨r, he, hr⟩ := readelf_ends env
  rw [hr] at h
  cases he with
  | read _ parsed =>
    cases h
    exact parsed
  | failed => cases h
  | freed => cases h
  | divided => cases h

theorem relaSize_toNat (size : U64) : (BitVec.ofNat 64 (sizeof Elf64Rela)
    * (size / BitVec.ofNat 64 (sizeof Elf64Shdr))).toNat = sizeof Elf64Rela * (size.toNat / 64) := by
  have hs := size.isLt
  change 24 % 2 ^ 64 * (size.toNat / 64) % 2 ^ 64 = 24 * (size.toNat / 64)
  omega

/-- The number of relocations is counted in section headers. -/
theorem converted_iff {i : ℕ} {t : ElfRelTable} (hi : i ∈ env.file.relIndices)
    (hrel : (env.file.shdr i).shType = shtRel) (ht : IsRelTable env i t) :
    (∃ p, Converted env.file i t p ((env.file.shdr i).shSize.toNat / sizeof Elf64Rel))
      ↔ (env.file.shdr i).shSize.toNat < sizeof Elf64Rel := by
  have he := shdr_eq (filter_lt hi)
  have hne : ¬ (env.file.shdr i).shType = shtRela := by
    rw [hrel]
    decide
  obtain ⟨ptr, hr⟩ := ht.relocations
  have hn := ht.nRelocations
  rw [Env.relocations, he, if_neg hne] at hr
  rw [he] at hn
  have hsize : (env.converted i ptr).size.toNat
      = sizeof Elf64Rela * ((env.file.shdr i).shSize.toNat / 64) := by
    rw [← relaSize_toNat, ← he]
    rfl
  constructor
  · rintro ⟨p, hp, hps, -⟩
    rw [hr, Option.some.injEq] at hp
    rw [← hp, hsize] at hps
    have hq := Nat.eq_of_mul_eq_mul_left (by decide) hps
    change _ / 64 = _ / 16 at hq
    change _ < 16
    omega
  · intro hlt
    rw [Nat.div_eq_of_lt hlt]
    refine ⟨_, hr, ?_, fun j hj => absurd hj (Nat.not_lt_zero j), fun hent => ?_⟩
    · have : (env.file.shdr i).shSize.toNat < 64 := hlt.trans (by decide)
      rw [hsize, Nat.div_eq_of_lt this]
    · rw [hn, hent, BitVec.toNat_udiv]
      exact Nat.div_eq_of_lt hlt

theorem convertRelToRela_iff {w : World} (h : (readelf env).run World.init = .ok false w) {i : ℕ}
    (hi : i ∈ env.file.relIndices) (hrel : (env.file.shdr i).shType = shtRel) :
    HasConverted env.file i w.elf ↔ (env.file.shdr i).shSize.toNat < sizeof Elf64Rel := by
  obtain ⟨ptr, tables, ht, hf⟩ := (parsed_of_ok h).relTables
  rw [relIndices_eq] at hf
  unfold HasConverted
  rw [ht]
  constructor
  · rintro ⟨table, heq, t, hmem, hsec, hc⟩
    cases heq
    obtain ⟨i', hi', ht'⟩ := hf.flip.exists_of_mem hmem
    have hii := ht'.sectionIndex
    rw [hsec, Option.some.injEq] at hii
    subst hii
    exact (converted_iff hi hrel ht').1 hc
  · intro hlt
    obtain ⟨t, hmem, ht'⟩ := hf.exists_of_mem hi
    exact ⟨_, rfl, t, hmem, ht'.sectionIndex, (converted_iff hi hrel ht').2 hlt⟩

/-- The section names, and a section with one relocation. -/
def relFile : File := .ofHeaders [] [.at 0 192 0 0, .at shtRel 192 16 16] (bytesLE 16 1)

theorem relFile_read : ∃ w, (readelf (.ofFile relFile)).run World.init = .ok false w
    ∧ (w.elf.relTables.map fun t => t.entries.map fun t => t.relocations.map Pointer.size)
      = some [some 0] := by
  obtain ⟨err, w, h, hw⟩ := exists_of_returns
    (p := fun err w => !err && (w.elf.relTables.map fun t => t.entries.map fun t =>
      t.relocations.map Pointer.size) = some [some 0])
    (r := (readelf (.ofFile relFile)).run World.init) (by decide +kernel)
  rw [Bool.and_eq_true, Bool.not_eq_true', decide_eq_true_iff] at hw
  exact ⟨w, hw.1 ▸ h, hw.2⟩

theorem relFile_iff : ∃ w, (readelf (.ofFile relFile)).run World.init = .ok false w
    ∧ (HasConverted relFile 1 w.elf ↔ (relFile.shdr 1).shSize.toNat < sizeof Elf64Rel) := by
  obtain ⟨w, h, -⟩ := relFile_read
  exact ⟨w, h, @convertRelToRela_iff (.ofFile relFile) w h 1 (by decide +kernel) (by decide +kernel)⟩

/-- No relocation is converted. -/
theorem relocation_lost : ∃ w, (readelf (.ofFile relFile)).run World.init = .ok false w
    ∧ 1 ∈ relFile.relIndices ∧ (relFile.shdr 1).shType = shtRel ∧ ¬ HasConverted relFile 1 w.elf := by
  obtain ⟨w, h, hw⟩ := relFile_read
  refine ⟨w, h, by decide +kernel, by decide +kernel, ?_⟩
  rintro ⟨table, ht, t, hmem, -, p, hp, hps, -⟩
  rw [ht, Option.map_some, Option.some.injEq] at hw
  have h0 : t.relocations.map Pointer.size ∈ [some (0 : U64)] := hw ▸ List.mem_map_of_mem hmem
  rw [hp, Option.map_some, List.mem_singleton, Option.some.injEq] at h0
  rw [h0] at hps
  exact absurd hps (by decide +kernel)

/-! ## Sizes of entries -/

/-- As many entries as the section says it has are in it. -/
def EntriesFit (shdr : Elf64Shdr) : Prop :=
  (shdr.shSize / shdr.shEntsize).toNat * sizeof Elf64Rela ≤ shdr.shSize.toNat

/-- The buffer has the relocations of the table in it. -/
def InBuffer (shdr : Elf64Shdr) (t : ElfRelTable) : Prop :=
  ∃ p, t.relocations = some p ∧ p.size = shdr.shSize
    ∧ t.nRelocations.toNat * sizeof Elf64Rela ≤ p.size.toNat

/-- The relocations are read without a division by zero, and each table from a section with addends
is in its buffer. -/
structure RelsFit (env : Env) (w : World) : Prop where
  divide : ∀ w', (readRelocations env).run w ≠ .error .divide w'
  inBuffer : ∀ w', (readRelocations env).run w = .ok () w' →
    ∀ table, w'.elf.relTables = some table → ∀ t ∈ table.entries, ∀ i, t.sectionIndex = some i →
      (env.shdr i).shType = shtRela → InBuffer (env.shdr i) t

theorem inBuffer_iff {i : ℕ} {t : ElfRelTable} (hrela : (env.shdr i).shType = shtRela)
    (ht : IsRelTable env i t) : InBuffer (env.shdr i) t ↔ EntriesFit (env.shdr i) := by
  obtain ⟨ptr, hr⟩ := ht.relocations
  rw [Env.relocations, if_pos hrela] at hr
  unfold InBuffer EntriesFit
  rw [ht.nRelocations, hr]
  constructor
  · rintro ⟨p, hp, hs, hle⟩
    rwa [hs] at hle
  · exact fun hle => ⟨_, rfl, rfl, hle⟩

theorem readRelocations_fit_iff {w : World} (h : HasHeaders env w.elf) (hn : w.elf.nRelTables = 0)
    (ht : w.elf.relTables = none) : RelsFit env w ↔ EntsizeFrom env w.counts
      ∧ ((env.after (env.relTableSteps env.relIndices) w.counts).isSome → ∀ i ∈ env.relIndices,
        (env.shdr i).shType = shtRela → EntriesFit (env.shdr i)) := by
  obtain ⟨ptr, tables, w', hr, t, hf, hs⟩ | ⟨w', hr, t, hs⟩ | ⟨w', hr, -, hs⟩ :=
    readRelocations_spec h hn ht
  · have htab : w'.elf.relTables = some ⟨ptr, tables⟩ := by
      rw [t.elf]
      rfl
    constructor
    · refine fun hfit => ⟨hs, fun _ i hi hrela => ?_⟩
      obtain ⟨table, hmem, ht'⟩ := hf.exists_of_mem hi
      exact (inBuffer_iff hrela ht').1 (hfit.inBuffer w' hr _ htab table hmem i ht'.sectionIndex hrela)
    · rintro ⟨-, hfit⟩
      refine ⟨fun w'' heq => ?_, fun w'' heq table htab' t' hmem i hsec hrela => ?_⟩
      · rw [hr] at heq
        cases heq
      · rw [hr] at heq
        cases heq
        rw [htab] at htab'
        cases htab'
        obtain ⟨i', hi', ht'⟩ := hf.flip.exists_of_mem hmem
        have hii := ht'.sectionIndex
        rw [hsec, Option.some.injEq] at hii
        subst hii
        exact (inBuffer_iff hrela ht').2 (hfit (by rw [t.counts]; rfl) i hi' hrela)
  · refine iff_of_true ⟨fun w'' heq => ?_, fun w'' heq => ?_⟩ ⟨hs, fun hsome => ?_⟩
    · rw [hr] at heq
      cases heq
    · rw [hr] at heq
      cases heq
    · rw [t.counts] at hsome
      cases hsome
  · exact iff_of_false (fun h => h.divide w' hr) fun h => hs h.1

/-- The headers of a file are in memory. -/
def World.ofHeaders (env : Env) : World := { World.init with elf := { initElfFile with
  header := some ⟨0, BitVec.ofNat 64 (sizeof Elf64Ehdr), fun _ => env.ehdr⟩
  sections := some ⟨1, bytesOf Elf64Shdr env.ehdr.eShnum, env.shdr⟩ } }

theorem ofHeaders_hasHeaders (h : env.ehdr.ePhnum = 0) : HasHeaders env (World.ofHeaders env).elf :=
  ⟨⟨_, rfl, rfl⟩, fun hn => absurd h hn, _, rfl⟩

/-- The section names, and one relocation with an addend. -/
def relaFile : File := .ofHeaders [] [.at 0 192 0 0, .at shtRela 192 24 24] (bytesLE 24 1)

theorem relaFile_fit : RelsFit (.ofFile relaFile) (World.ofHeaders (.ofFile relaFile)) := by
  have hone : ∀ i ∈ (Env.ofFile relaFile).relIndices, i = 1 := by decide +kernel
  have hh : HasHeaders (.ofFile relaFile) (World.ofHeaders (.ofFile relaFile)).elf :=
    ofHeaders_hasHeaders (by decide +kernel)
  refine (readRelocations_fit_iff hh rfl rfl).2 ⟨?_, fun _ i hi _ => ?_⟩
  · intro before i rest h _
    rw [hone i (h ▸ List.mem_append_right _ List.mem_cons_self)]
    decide +kernel
  · rw [hone i hi]
    unfold EntriesFit
    decide +kernel

/-- The section names, and relocations whose entries have no size. -/
def noEntsizeFile : File := .ofHeaders [] [.at 0 192 0 0, .at shtRela 192 0 0] []

theorem entsize_divides :
    ¬ RelsFit (.ofFile noEntsizeFile) (World.ofHeaders (.ofFile noEntsizeFile)) := by
  have hstop : Stops ((readRelocations (.ofFile noEntsizeFile)).run
      (World.ofHeaders (.ofFile noEntsizeFile))) .divide = true := by decide +kernel
  rcases hr : (readRelocations (.ofFile noEntsizeFile)).run (World.ofHeaders (.ofFile noEntsizeFile))
    with ⟨a, w⟩ | ⟨stop, w⟩ <;> rw [hr] at hstop
  · cases hstop
  · rw [of_decide_eq_true hstop] at hr
    exact fun h => h.divide w hr

end Readelf

end SctOs
