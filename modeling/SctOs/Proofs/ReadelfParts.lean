import SctOs.Proofs.ReadelfRels

/-!
# Reading the parts of the file

The parts of the file, read one after the other from `init_elf_file`, end in one of four ways
(`Ends`, `parts_end`): the file is read, a step has failed and the `elf_file` owns what is to be
freed, the dynamic segment has been freed but is kept, or a number of relocations is divided by
zero. `readelf_ends` says what becomes of each.
-/

namespace SctOs

open Ledger

namespace Readelf

variable {env : Env} {w w' : World}

/-! ## What an `elf_file` owns -/

/-- What `free_elf_file` frees, in its order. -/
def ElfFile.owned (elf : ElfFile) : List ℕ :=
  (elf.header.map Pointer.ptr).toList ++ (elf.programHeaders.map Pointer.ptr).toList
    ++ (elf.sections.map Pointer.ptr).toList ++ (elf.sectionNames.map Pointer.ptr).toList
    ++ (elf.interpreter.map Pointer.ptr).toList ++ (elf.dynamic.dynamic.map Pointer.ptr).toList
    ++ elf.symbolTables.elim [] (fun t => t.entries.flatMap ElfSymbolTable.owned ++ [t.ptr])
    ++ elf.relTables.elim [] (fun t => t.entries.flatMap ElfRelTable.owned ++ [t.ptr])

/-- The numbers of tables are those of the entries. -/
structure Fits (elf : ElfFile) : Prop where
  symbolTables : elf.nSymbolTables.toNat = elf.symbolTables.elim 0 fun t => t.entries.length
  relTables : elf.nRelTables.toNat = elf.relTables.elim 0 fun t => t.entries.length

theorem freeEntries_run {α : Type} {free : α → M Unit} {owned : α → List ℕ}
    (h : ∀ a w, (free a).run w = .ok () (w.free (owned a))) {n : Elf64Half} {t : Option (Table α)}
    (hn : n.toNat = t.elim 0 fun t => t.entries.length) (w : World) :
    (freeEntries free n t).run w
      = .ok () (w.free (t.elim [] fun t => t.entries.flatMap owned ++ [t.ptr])) := by
  unfold freeEntries
  rcases t with - | t
  · have h0 : n = 0 := BitVec.eq_of_toNat_eq hn
    rw [entries, if_pos h0]
    rfl
  · have he : (entries n (some t)).run w = .ok t.entries w := by
      dsimp only [Option.elim] at hn
      rw [entries, hn, List.take_length]
      rfl
    rw [bind_ok he, bind_ok (forM_free h _ w), elfFree_run]
    dsimp only [Option.elim]
    rw [World.free_append]
    rfl

theorem freeElfFile_run (h : Fits w.elf) : freeElfFile.run w = .ok () (w.free w.elf.owned) := by
  unfold freeElfFile ElfFile.owned
  rw [get_bind]
  simp only [World.free_append]
  rw [bind_ok (elfFree_run _ w), bind_ok (elfFree_run _ _), bind_ok (elfFree_run _ _),
    bind_ok (elfFree_run _ _), bind_ok (elfFree_run _ _), bind_ok (elfFree_run _ _),
    bind_ok (freeEntries_run freeSymbolTable_run h.symbolTables _),
    freeEntries_run freeRelTable_run h.relTables]

/-! ## States -/

/-- What is to be freed is what the `elf_file` owns. -/
structure Sound (w : World) : Prop where
  owes : w.Owes w.elf.owned
  fits : Fits w.elf

theorem Sound.init : Sound World.init := ⟨⟨Owed.nil, by simp [World.init]⟩, rfl, rfl⟩

theorem Sound.took {steps : List Step} {elf : ElfFile} {new : List ℕ} {out : List (Headers × ℕ)}
    (hs : Sound w) (t : Took env steps w w' elf new out) (hf : Fits elf)
    (hp : (new ++ w.elf.owned).Perm elf.owned) : Sound w' := by
  have ho := (t.moved.owes w.elf.owned hs.owes).perm hp
  rw [← t.elf] at ho hf
  exact ⟨ho, hf⟩

theorem Sound.failed {steps : List Step} {out : List (Headers × ℕ)} (hs : Sound w)
    (t : Failed env steps w w' w.elf [] out) : Sound w' := by
  have ho := t.moved.owes w.elf.owned hs.owes
  have hf := hs.fits
  rw [← t.elf] at ho hf
  exact ⟨ho, hf⟩

/-- Everything is freed by `free_elf_file`. -/
theorem Sound.freedOnce (hs : Sound w) :
    freeElfFile.run w = .ok () (w.free w.elf.owned) ∧ (w.free w.elf.owned).FreedOnce := by
  refine ⟨freeElfFile_run hs.fits, fun ptr hptr => ?_⟩
  have h := (moved_free w.elf.owned w).owes [] (by rw [List.append_nil]; exact hs.owes)
  exact h.1.once hptr

/-! ## What has been read -/

/-- The headers have been read. -/
structure ParsedHeaders (env : Env) (elf : ElfFile) : Prop where
  header : ∃ p, elf.header = some p ∧ p.elem 0 = env.ehdr
  programHeaders : if env.ehdr.ePhnum = 0 then elf.programHeaders = none
    else ∃ ptr, elf.programHeaders = some ⟨ptr, bytesOf Elf64Phdr env.ehdr.ePhnum, env.phdr⟩
  sections : ∃ ptr, elf.sections = some ⟨ptr, bytesOf Elf64Shdr env.ehdr.eShnum, env.shdr⟩

structure ParsedNames (env : Env) (elf : ElfFile) : Prop extends ParsedHeaders env elf where
  sectionNames : ∃ ptr, elf.sectionNames
    = some (env.sectionData (BitVec 8) env.ehdr.eShstrndx.toNat ptr)

structure ParsedInterpreter (env : Env) (elf : ElfFile) : Prop extends ParsedNames env elf where
  interpreter : IsSegment env ptInterp elf.interpreter

structure ParsedSymbols (env : Env) (elf : ElfFile) : Prop extends ParsedInterpreter env elf where
  nSymbolTables : elf.nSymbolTables.toNat = env.symbolIndices.length
  symbolTables : ∃ ptr tables, elf.symbolTables = some ⟨ptr, tables⟩
    ∧ List.Forall₂ (IsSymbolTable env) env.symbolIndices tables

structure ParsedDynamic (env : Env) (elf : ElfFile) : Prop extends ParsedSymbols env elf where
  dynamic : IsSegment env ptDynamic elf.dynamic.dynamic
  symbolTable : elf.dynamic.symbolTable = (env.firstPhdr ptDynamic).bind fun _ => env.dynsym

/-- The `elf_file` is what the headers say. -/
structure Parsed (env : Env) (elf : ElfFile) : Prop extends ParsedDynamic env elf where
  nRelTables : elf.nRelTables.toNat = env.relIndices.length
  relTables : ∃ ptr tables, elf.relTables = some ⟨ptr, tables⟩
    ∧ List.Forall₂ (IsRelTable env) env.relIndices tables

theorem ParsedHeaders.hasHeaders {elf : ElfFile} (h : ParsedHeaders env elf) : HasHeaders env elf := by
  refine ⟨h.header, fun hn => ?_, h.sections⟩
  have := h.programHeaders
  rwa [if_neg hn] at this

/-! ## What is still to be read -/

structure NoRels (elf : ElfFile) : Prop where
  nRelTables : elf.nRelTables = 0
  relTables : elf.relTables = none

structure NoDynamic (elf : ElfFile) : Prop extends NoRels elf where
  dynamic : elf.dynamic = ⟨none, none⟩

structure NoSymbols (elf : ElfFile) : Prop extends NoDynamic elf where
  nSymbolTables : elf.nSymbolTables = 0
  symbolTables : elf.symbolTables = none

structure NoInterpreter (elf : ElfFile) : Prop extends NoSymbols elf where
  interpreter : elf.interpreter = none

structure NoNames (elf : ElfFile) : Prop extends NoInterpreter elf where
  sectionNames : elf.sectionNames = none

/-- The indices that were used outside the headers are those of section names. -/
structure Outside (env : Env) (w : World) : Prop where
  nil : w.outside = [] ↔ ShstrndxOk env ∧ LinksOk env
  mem : ∀ x ∈ w.outside, x = (.sections, env.ehdr.eShstrndx.toNat)
    ∨ ∃ i ∈ env.symbolIndices, x = (.sections, (env.shdr i).names)

/-- All the calls. -/
def Env.allSteps (env : Env) : List Step := env.dynamicSteps ++ env.relTableSteps env.relIndices

/-- How the parts of the file are read. -/
inductive Ends (env : Env) : EStateM.Result Exit World Bool → Prop
  | read {w : World} (sound : Sound w) (parsed : Parsed env w.elf)
    (steps : env.Reaches env.allSteps) (dynsym : DynsymOk env) (entsize : EntsizeOk env)
    (outside : Outside env w) : Ends env (.ok false w)
  | failed {w : World} (sound : Sound w) (steps : ¬ env.Reaches env.allSteps)
    (dynsym : DynsymOk env) (entsize : EntsizeOk env) (outside : Outside env w) :
    Ends env (.error .error w)
  | freed {w : World} {p : Pointer Elf64Dyn} (fits : Fits w.elf)
    (dynamic : w.elf.dynamic.dynamic = some p) (mem : p.ptr ∈ w.freed)
    (alloc : p.ptr ∈ w.allocated) (dynsym : ¬ DynsymOk env)
    (outside : Outside env w) : Ends env (.error .error w)
  | divided {w : World} (entsize : ¬ EntsizeOk env) (outside : Outside env w) :
    Ends env (.error .divide w)

/-! ## Steps that are not reached -/

theorem Env.missed {steps : List Step} (h : env.after steps ⟨0, 0⟩ = none) (steps' : List Step) :
    env.after (steps ++ steps') ⟨0, 0⟩ = none := by
  rw [Env.after_append, h]
  rfl

theorem Env.not_reaches {steps : List Step} (h : env.after steps ⟨0, 0⟩ = none) (steps' : List Step) :
    ¬ env.Reaches (steps ++ steps') := by
  rw [Env.Reaches, Env.missed h]
  simp

theorem Env.reaches_after {steps : List Step} {c : Counts} (h : env.after steps ⟨0, 0⟩ = some c)
    (steps' : List Step) : env.Reaches (steps ++ steps') ↔ (env.after steps' c).isSome := by
  rw [Env.Reaches, Env.after_append, h]
  rfl

theorem tables_missed (h : env.after env.nameSteps ⟨0, 0⟩ = none) :
    env.after env.tableSteps ⟨0, 0⟩ = none := Env.missed h _

theorem dynamic_missed (h : env.after env.tableSteps ⟨0, 0⟩ = none) :
    env.after env.dynamicSteps ⟨0, 0⟩ = none := Env.missed h _

theorem dynsymOk_of_missed (h : env.after env.dynamicSteps ⟨0, 0⟩ = none) : DynsymOk env := by
  intro _ hr
  rw [Env.Reaches, h] at hr
  cases hr

theorem entsizeOk_of_missed (h : env.after env.dynamicSteps ⟨0, 0⟩ = none) : EntsizeOk env :=
  fun _ _ _ _ hr => absurd hr (Env.not_reaches h _)

theorem linksOk_of_missed (h : env.after env.nameSteps ⟨0, 0⟩ = none) : LinksOk env := by
  intro before i rest _ hr
  rw [List.append_assoc] at hr
  exact absurd hr (Env.not_reaches h _)

/-! ## The parts, from the last to the first -/

theorem Outside.of_eq {w' : World} (h : Outside env w) (he : w'.outside = w.outside) :
    Outside env w' := ⟨by rw [he]; exact h.nil, by rw [he]; exact h.mem⟩

theorem rels_end (hc : env.after env.dynamicSteps ⟨0, 0⟩ = some w.counts) (hs : Sound w)
    (hp : ParsedDynamic env w.elf) (hn : NoRels w.elf) (hd : DynsymOk env) (ho : Outside env w) :
    Ends env ((readRelocations env >>= fun _ => pure false).run w) := by
  have hfrom : EntsizeFrom env w.counts ↔ EntsizeOk env := by
    unfold EntsizeFrom EntsizeOk
    simp only [Env.reaches_after hc]
  have hlen : (BitVec.ofNat 16 env.relIndices.length).toNat = env.relIndices.length :=
    sections_length env.ehdr
  obtain ⟨ptr, tables, w₁, h₁, t₁, ht, he⟩ | ⟨w₁, h₁, t₁, he⟩ | ⟨w₁, h₁, hout, he⟩ :=
    readRelocations_spec hp.hasHeaders hn.nRelTables hn.relTables
  · rw [bind_ok h₁]
    refine .read (hs.took t₁ ⟨hs.fits.symbolTables, hlen.trans ht.length_eq⟩ ?_) ?_ ?_ hd
      (hfrom.1 he) (ho.of_eq t₁.moved.outside)
    · unfold ElfFile.owned
      dsimp only [ElfFile.withRels]
      rw [hn.relTables]
      dsimp only [Option.elim]
      rw [List.append_nil]
      exact List.perm_append_comm
    · rw [t₁.elf]
      exact ⟨⟨⟨⟨⟨⟨hp.header, hp.programHeaders, hp.sections⟩, hp.sectionNames⟩, hp.interpreter⟩,
        hp.nSymbolTables, hp.symbolTables⟩, hp.dynamic, hp.symbolTable⟩, hlen, ptr, tables, rfl, ht⟩
    · rw [Env.allSteps, Env.reaches_after hc, t₁.counts]
      rfl
  · rw [bind_error h₁]
    refine .failed (hs.failed t₁) ?_ hd (hfrom.1 he) (ho.of_eq t₁.moved.outside)
    rw [Env.allSteps, Env.reaches_after hc, t₁.counts]
    simp
  · rw [bind_error h₁]
    exact .divided (fun h => he (hfrom.2 h)) (ho.of_eq hout)

theorem dynsym_ne_none : env.dynsym ≠ none ↔
    ∃ i ∈ env.symbolIndices, (env.shdr i).shType = shtDynsym := by
  unfold Env.dynsym
  rw [ne_eq, List.findIdx?_eq_none_iff]
  simp

theorem dynamic_end (hc : env.after env.tableSteps ⟨0, 0⟩ = some w.counts) (hs : Sound w)
    (hp : ParsedSymbols env w.elf) (hn : NoDynamic w.elf) (ho : Outside env w) :
    Ends env ((readDynamic env >>= fun _ => readRelocations env >>= fun _ => pure false).run w) := by
  obtain ⟨ptr, tables, htab, ht⟩ := hp.symbolTables
  have hcd : ∀ {w' : World} {elf : ElfFile} {new : List ℕ} {out : List (Headers × ℕ)},
      Took env (env.segmentSteps ptDynamic) w w' elf new out →
        env.after env.dynamicSteps ⟨0, 0⟩ = some w'.counts := by
    intro w' elf new out t
    rw [Env.dynamicSteps, Env.after_append, hc]
    exact t.counts
  obtain ⟨p, w₁, h₁, t₁, hseg, hd⟩ | ⟨w₁, h₁, t₁⟩ | ⟨p, w₁, h₁, t₁, hmem, hseg, hd⟩ :=
    readDynamic_spec hp.hasHeaders htab (hp.nSymbolTables.trans ht.length_eq) ht hn.dynamic
  · rw [bind_ok h₁]
    refine rels_end (hcd t₁) (hs.took t₁ ⟨hs.fits.symbolTables, hs.fits.relTables⟩ ?_) ?_ ?_
      (fun hne _ => dynsym_ne_none.1 (hd hne)) (ho.of_eq t₁.moved.outside)
    · unfold ElfFile.owned
      rw [hn.dynamic]
      rw [List.perm_iff_count]
      intro x
      simp only [List.count_append, Option.map_none, Option.toList_none, List.count_nil]
      omega
    · rw [t₁.elf]
      exact ⟨⟨⟨⟨⟨hp.header, hp.programHeaders, hp.sections⟩, hp.sectionNames⟩, hp.interpreter⟩,
        hp.nSymbolTables, hp.symbolTables⟩, hseg, rfl⟩
    · rw [t₁.elf]
      exact ⟨hn.nRelTables, hn.relTables⟩
  · rw [bind_error h₁]
    have hm : env.after env.dynamicSteps ⟨0, 0⟩ = none := by
      rw [Env.dynamicSteps, Env.after_append, hc]
      exact t₁.counts
    exact .failed (hs.failed t₁) (Env.not_reaches hm _) (dynsymOk_of_missed hm)
      (entsizeOk_of_missed hm) (ho.of_eq t₁.moved.outside)
  · rw [bind_error h₁]
    have howes := t₁.moved.owes _ hs.owes
    refine .freed ?_ ?_ hmem (howes.1.mem_freed hmem) (fun hok => ?_) (ho.of_eq t₁.moved.outside)
    · rw [t₁.elf]
      exact ⟨hs.fits.symbolTables, hs.fits.relTables⟩
    · rw [t₁.elf]
    · exact dynsym_ne_none.2 (hok hseg (by rw [Env.Reaches, hcd t₁]; rfl)) hd

theorem symbols_end (hc : env.after env.nameSteps ⟨0, 0⟩ = some w.counts) (hs : Sound w)
    (hp : ParsedInterpreter env w.elf) (hn : NoSymbols w.elf)
    (ho : w.outside = outsideSections env env.ehdr.eShstrndx.toNat)
    (hr : env.Reaches env.headerSteps) :
    Ends env ((readSymbolTables env >>= fun _ => readDynamic env >>= fun _ =>
      readRelocations env >>= fun _ => pure false).run w) := by
  have hlen : (BitVec.ofNat 16 env.symbolIndices.length).toNat = env.symbolIndices.length :=
    sections_length env.ehdr
  -- the links are used from here on
  have houtside : ∀ {w' : World} {out : List (Headers × ℕ)}, NamesUse env w.counts out →
      w'.outside = out ++ w.outside → Outside env w' := by
    intro w' out hu he
    rw [ho] at he
    refine ⟨?_, fun x hx => ?_⟩
    · rw [he, List.append_eq_nil_iff, hu.nil, outsideSections_nil, and_comm]
      refine and_congr ⟨fun h _ => h, fun h => h hr⟩ ?_
      unfold LinksOk
      simp only [List.append_assoc, Env.reaches_after hc]
    · rw [he] at hx
      rcases List.mem_append.1 hx with hx | hx
      · exact .inr (hu.mem x hx)
      · exact .inl (mem_outsideSections hx)
  obtain ⟨ptr, tables, out, w₁, h₁, t₁, ht, hu⟩ | ⟨out, w₁, h₁, t₁, hu⟩ :=
    readSymbolTables_spec hp.hasHeaders hn.nSymbolTables hn.symbolTables
  · rw [bind_ok h₁]
    refine dynamic_end ?_ (hs.took t₁ ⟨hlen.trans ht.length_eq, hs.fits.relTables⟩ ?_) ?_ ?_
      (houtside hu t₁.moved.outside)
    · rw [Env.tableSteps, Env.after_append, hc]
      exact t₁.counts
    · unfold ElfFile.owned
      dsimp only [ElfFile.withSymbols]
      rw [hn.symbolTables, List.perm_iff_count]
      intro x
      simp only [List.count_append, Option.elim, List.count_nil]
      omega
    · rw [t₁.elf]
      exact ⟨⟨⟨⟨hp.header, hp.programHeaders, hp.sections⟩, hp.sectionNames⟩, hp.interpreter⟩,
        hlen, ptr, tables, rfl, ht⟩
    · rw [t₁.elf]
      exact ⟨⟨hn.nRelTables, hn.relTables⟩, hn.dynamic⟩
  · rw [bind_error h₁]
    have hm : env.after env.dynamicSteps ⟨0, 0⟩ = none := by
      refine dynamic_missed ?_
      rw [Env.tableSteps, Env.after_append, hc]
      exact t₁.counts
    exact .failed (hs.failed t₁) (Env.not_reaches hm _) (dynsymOk_of_missed hm)
      (entsizeOk_of_missed hm) (houtside hu t₁.moved.outside)

/-- Nothing of the section names has been missed so far. -/
theorem outside_missed (hm : env.after env.nameSteps ⟨0, 0⟩ = none)
    (ho : w.outside = outsideSections env env.ehdr.eShstrndx.toNat)
    (hr : env.Reaches env.headerSteps) : Outside env w := by
  refine ⟨?_, fun x hx => .inl (mem_outsideSections (ho ▸ hx))⟩
  rw [ho, outsideSections_nil]
  exact ⟨fun h => ⟨fun _ => h, linksOk_of_missed hm⟩, fun h => h.1 hr⟩

theorem interpreter_end
    (hc : env.after (env.headerSteps ++ env.sectionSteps env.ehdr.eShstrndx.toNat) ⟨0, 0⟩
      = some w.counts) (hs : Sound w) (hp : ParsedNames env w.elf) (hn : NoInterpreter w.elf)
    (ho : w.outside = outsideSections env env.ehdr.eShstrndx.toNat)
    (hr : env.Reaches env.headerSteps) :
    Ends env ((readInterpreter env >>= fun _ => readSymbolTables env >>= fun _ =>
      readDynamic env >>= fun _ => readRelocations env >>= fun _ => pure false).run w) := by
  obtain ⟨p, w₁, h₁, t₁, hseg⟩ | ⟨w₁, h₁, t₁⟩ := readInterpreter_spec hp.hasHeaders hn.interpreter
  · rw [bind_ok h₁]
    refine symbols_end ?_ (hs.took t₁ ⟨hs.fits.symbolTables, hs.fits.relTables⟩ ?_) ?_ ?_
      (t₁.moved.outside.trans ho) hr
    · rw [Env.nameSteps, Env.after_append, hc]
      exact t₁.counts
    · unfold ElfFile.owned
      rw [hn.interpreter, List.perm_iff_count]
      intro x
      simp only [List.count_append, Option.map_none, Option.toList_none, List.count_nil]
      omega
    · rw [t₁.elf]
      exact ⟨⟨⟨hp.header, hp.programHeaders, hp.sections⟩, hp.sectionNames⟩, hseg⟩
    · rw [t₁.elf]
      exact ⟨⟨⟨hn.nRelTables, hn.relTables⟩, hn.dynamic⟩, hn.nSymbolTables, hn.symbolTables⟩
  · rw [bind_error h₁]
    have hm : env.after env.nameSteps ⟨0, 0⟩ = none := by
      rw [Env.nameSteps, Env.after_append, hc]
      exact t₁.counts
    have hm' := dynamic_missed (tables_missed hm)
    exact .failed (hs.failed t₁) (Env.not_reaches hm' _) (dynsymOk_of_missed hm')
      (entsizeOk_of_missed hm') (outside_missed hm (t₁.moved.outside.trans ho) hr)

theorem names_end (hc : env.after env.headerSteps ⟨0, 0⟩ = some w.counts) (hs : Sound w)
    (hp : ParsedHeaders env w.elf) (hn : NoNames w.elf) (ho : w.outside = []) :
    Ends env ((readSectionNames env >>= fun _ => readInterpreter env >>= fun _ =>
      readSymbolTables env >>= fun _ => readDynamic env >>= fun _ =>
        readRelocations env >>= fun _ => pure false).run w) := by
  have hr : env.Reaches env.headerSteps := by
    rw [Env.Reaches, hc]
    rfl
  have hout : ∀ {w' : World}, w'.outside = outsideSections env env.ehdr.eShstrndx.toNat ++ w.outside →
      w'.outside = outsideSections env env.ehdr.eShstrndx.toNat := fun h => by
    rw [h, ho, List.append_nil]
  have hcn : ∀ {c : Option Counts},
      env.after (env.sectionSteps env.ehdr.eShstrndx.toNat) w.counts = c →
        env.after (env.headerSteps ++ env.sectionSteps env.ehdr.eShstrndx.toNat) ⟨0, 0⟩ = c := by
    rintro c rfl
    rw [Env.after_append, hc]
    rfl
  obtain ⟨p, w₁, h₁, t₁⟩ | ⟨w₁, h₁, t₁⟩ :=
    hp.hasHeaders.readSectionData_spec (BitVec 8) env.ehdr.eShstrndx.toNat
  · have h₂ : (readSectionNames env).run w = .ok () { w₁ with elf := { w₁.elf with
        sectionNames := some (env.sectionData (BitVec 8) env.ehdr.eShstrndx.toNat p) } } := by
      rw [readSectionNames, bind_ok hp.hasHeaders.header_run, bind_ok h₁, modifyElf_run]
    have t₂ := t₁.modifyElf fun elf => { elf with
      sectionNames := some (env.sectionData (BitVec 8) env.ehdr.eShstrndx.toNat p) }
    rw [bind_ok h₂]
    refine interpreter_end (hcn t₂.counts)
      (hs.took t₂ ⟨hs.fits.symbolTables, hs.fits.relTables⟩ ?_) ?_ ?_ (hout t₂.moved.outside) hr
    · unfold ElfFile.owned
      rw [hn.sectionNames, List.perm_iff_count]
      intro x
      simp only [List.count_append, Option.map_none, Option.map_some, Option.toList_none,
        Option.toList_some, List.count_nil, Env.sectionData]
      omega
    · rw [t₂.elf]
      exact ⟨⟨hp.header, hp.programHeaders, hp.sections⟩, p, rfl⟩
    · rw [t₂.elf]
      exact ⟨⟨⟨⟨hn.nRelTables, hn.relTables⟩, hn.dynamic⟩, hn.nSymbolTables, hn.symbolTables⟩,
        hn.interpreter⟩
  · have h₂ : (readSectionNames env).run w = .error .error w₁ := by
      rw [readSectionNames, bind_ok hp.hasHeaders.header_run, bind_error h₁]
    rw [bind_error h₂]
    have hm : env.after env.nameSteps ⟨0, 0⟩ = none := Env.missed (hcn t₁.counts) _
    have hm' := dynamic_missed (tables_missed hm)
    exact .failed (hs.failed t₁) (Env.not_reaches hm' _) (dynsymOk_of_missed hm')
      (entsizeOk_of_missed hm') (outside_missed hm (hout t₁.moved.outside) hr)

/-! ## The headers -/

/-- The ELF header in its buffer. -/
def ehdrAt (env : Env) (ptr : ℕ) : Pointer Elf64Ehdr :=
  let size := BitVec.ofNat 64 (sizeof Elf64Ehdr)
  ⟨ptr, size, CStruct.array Elf64Ehdr (env.buffer 0 size)⟩

theorem readProgramHeaders_spec (env : Env) (w : World) (ptr : ℕ)
    (hp : w.elf.programHeaders = none) :
    (∃ ph w', (readProgramHeaders env ptr).run w = .ok () w'
      ∧ Took env (env.programHeaderSteps) w w' { w.elf with
        header := some (ehdrAt env ptr)
        programHeaders := ph } (ph.map Pointer.ptr).toList []
      ∧ (if env.ehdr.ePhnum = 0 then ph = none
        else ∃ ptr, ph = some ⟨ptr, bytesOf Elf64Phdr env.ehdr.ePhnum, env.phdr⟩))
    ∨ ∃ header w', (readProgramHeaders env ptr).run w = .error .error w'
      ∧ Failed env (env.programHeaderSteps) w w' { w.elf with header := header } [] []
      ∧ (header = w.elf.header ∨ header = some (ehdrAt env ptr)) := by
  unfold readProgramHeaders Env.programHeaderSteps
  rw [List.cons_append, List.cons_append, List.nil_append]
  obtain ⟨w₁, h₁, t₁⟩ | ⟨w₁, h₁, t₁⟩ := elfRead_spec env w 0 (BitVec.ofNat 64 (sizeof Elf64Ehdr))
  swap
  · exact .inr ⟨w.elf.header, w₁, bind_error h₁, t₁.stop _, .inl rfl⟩
  have t₂ := t₁.modifyElf fun elf => { elf with header := some (ehdrAt env ptr) }
  obtain ⟨w₂, hw₂⟩ : ∃ w₂ : World, w₂ = { w₁ with elf := { w₁.elf with
    header := some (ehdrAt env ptr) } } := ⟨_, rfl⟩
  rw [← hw₂] at t₂
  have hh : w₂.elf.header = some (ehdrAt env ptr) := by rw [t₂.elf]
  have hrun : header.run w₂ = .ok env.ehdr w₂ := Readelf.header_run hh
  have h₂ : (modifyElf fun elf => { elf with header := some ⟨ptr, BitVec.ofNat 64 (sizeof Elf64Ehdr),
      CStruct.array Elf64Ehdr (env.buffer 0 (BitVec.ofNat 64 (sizeof Elf64Ehdr)))⟩ }).run w₁
        = .ok () w₂ := by
    rw [hw₂, modifyElf_run]
    rfl
  rw [bind_ok h₁, bind_ok h₂, bind_ok hrun]
  by_cases hm : env.ehdr.VerifyMagic
  swap
  · rw [if_pos hm]
    refine .inr ⟨_, w₂, rfl, ⟨?_, t₂.elf, t₂.moved⟩, .inr rfl⟩
    have hf : decide (env.ehdr.eIdent.take 4 = [0x7f, 0x45, 0x4c, 0x46]) = false :=
      decide_eq_false hm
    rw [← List.singleton_append, Env.after_append, t₂.counts]
    simp only [Env.after, Env.step, hf]
    rfl
  have t₃ : Took env [.read 0 (BitVec.ofNat 64 (sizeof Elf64Ehdr)), .check env.ehdr.VerifyMagic] w w₂
      { w.elf with header := some (ehdrAt env ptr) } [] [] := by
    refine ⟨?_, t₂.elf, t₂.moved⟩
    rw [← List.singleton_append, Env.after_append, t₂.counts]
    simp [Env.after, Env.step, hm]
  rw [if_neg (not_not.2 hm)]
  by_cases hn : env.ehdr.ePhnum = 0
  · rw [if_pos hn, if_pos hn]
    exact .inl ⟨none, w₂, rfl, ⟨t₃.counts, by rw [t₃.elf, ← hp], t₃.moved.owes, t₃.moved.outside⟩,
      by rw [if_pos hn]⟩
  rw [if_neg hn, if_neg hn]
  obtain ⟨q, w₃, h₃, t₄⟩ | ⟨w₃, h₃, t₄⟩ := elfRead2_spec env w₂ Elf64Phdr env.ehdr.ePhoff
    (bytesOf Elf64Phdr env.ehdr.ePhnum)
  · rw [t₃.elf] at t₄
    have t₅ := (t₃.trans t₄).modifyElf fun elf => { elf with
      programHeaders := some ⟨q, bytesOf Elf64Phdr env.ehdr.ePhnum, env.phdr⟩ }
    rw [bind_ok h₃]
    refine .inl ⟨some ⟨q, _, env.phdr⟩, _, modifyElf_run _ w₃, t₅, ?_⟩
    rw [if_neg hn]
    exact ⟨q, rfl⟩
  · rw [t₃.elf] at t₄
    exact .inr ⟨_, w₃, bind_error h₃, t₃.trans t₄, .inr rfl⟩

/-- How the headers are read: all of them, or what was read of them is owned. -/
inductive HeadersEnd (env : Env) : EStateM.Result Exit World Unit → Prop
  | read {w : World} (counts : env.after env.headerSteps ⟨0, 0⟩ = some w.counts) (sound : Sound w)
    (parsed : ParsedHeaders env w.elf) (rest : NoNames w.elf) (outside : w.outside = []) :
    HeadersEnd env (.ok () w)
  | failed {w : World} (counts : env.after env.headerSteps ⟨0, 0⟩ = none) (sound : Sound w)
    (outside : w.outside = []) : HeadersEnd env (.error .error w)

/-- The `elf_file` with only the ELF header and the program headers. -/
def withHeader (header : Pointer Elf64Ehdr) (programHeaders : Option (Pointer Elf64Phdr)) :
    ElfFile :=
  { initElfFile with header := some header, programHeaders := programHeaders }

theorem owned_withHeader (p : Pointer Elf64Ehdr) (ph : Option (Pointer Elf64Phdr)) :
    (withHeader p ph).owned = p.ptr :: (ph.map Pointer.ptr).toList := by
  simp [ElfFile.owned, withHeader, initElfFile]

theorem owned_sections (p : Pointer Elf64Ehdr) (ph : Option (Pointer Elf64Phdr))
    (sections : Pointer Elf64Shdr) :
    ({ withHeader p ph with sections := some sections } : ElfFile).owned
      = p.ptr :: (ph.map Pointer.ptr).toList ++ [sections.ptr] := by
  simp [ElfFile.owned, withHeader, initElfFile]

theorem noNames_sections (p : Pointer Elf64Ehdr) (ph : Option (Pointer Elf64Phdr))
    (sections : Option (Pointer Elf64Shdr)) :
    NoNames { withHeader p ph with sections := sections } :=
  ⟨⟨⟨⟨⟨rfl, rfl⟩, rfl⟩, rfl, rfl⟩, rfl⟩, rfl⟩

theorem sections_end (ptr : ℕ) {ph : Option (Pointer Elf64Phdr)}
    (helf : w.elf = withHeader (ehdrAt env ptr) ph) (hph : if env.ehdr.ePhnum = 0 then ph = none
      else ∃ ptr, ph = some ⟨ptr, bytesOf Elf64Phdr env.ehdr.ePhnum, env.phdr⟩)
    (hc : env.after ([.alloc] ++ env.programHeaderSteps) ⟨0, 0⟩ = some w.counts) (hs : Sound w)
    (ho : w.outside = []) :
    HeadersEnd env ((header >>= fun ehdr => elfRead2 env ehdr.eShoff
      (bytesOf Elf64Shdr ehdr.eShnum) >>= fun sections =>
        modifyElf fun elf => { elf with sections := some sections }).run w) := by
  have hrun : header.run w = .ok env.ehdr w := Readelf.header_run (p := ehdrAt env ptr)
    (by rw [helf]; rfl)
  have hsteps : env.after env.headerSteps ⟨0, 0⟩ = env.after (bufferSteps env.ehdr.eShoff
      (bytesOf Elf64Shdr env.ehdr.eShnum)) w.counts := by
    rw [Env.headerSteps, Env.after_append, hc]
    rfl
  rw [bind_ok hrun]
  obtain ⟨q, w₁, h₁, t₁⟩ | ⟨w₁, h₁, t₁⟩ := elfRead2_spec env w Elf64Shdr env.ehdr.eShoff
    (bytesOf Elf64Shdr env.ehdr.eShnum)
  · rw [bind_ok h₁, modifyElf_run]
    have t₂ := t₁.modifyElf fun elf => { elf with
      sections := some ⟨q, bytesOf Elf64Shdr env.ehdr.eShnum, env.shdr⟩ }
    have he := t₂.elf
    rw [helf] at he
    refine .read (hsteps.trans t₂.counts)
      (hs.took t₂ ⟨hs.fits.symbolTables, hs.fits.relTables⟩ ?_) ?_ ?_ (t₂.moved.outside.trans ho)
    · rw [helf, owned_withHeader, owned_sections]
      exact List.perm_append_comm
    · exact (congrArg (ParsedHeaders env) he).mpr ⟨⟨_, rfl, rfl⟩, hph, q, rfl⟩
    · exact (congrArg NoNames he).mpr (noNames_sections ..)
  · rw [bind_error h₁]
    exact .failed (hsteps.trans t₁.counts) (hs.failed t₁) (t₁.moved.outside.trans ho)

theorem programHeaders_end {p : Pointer Elf64Ehdr} (helf : w.elf = withHeader p none)
    (hc : env.after [.alloc] ⟨0, 0⟩ = some w.counts) (hs : Sound w) (ho : w.outside = []) :
    HeadersEnd env ((readProgramHeaders env p.ptr >>= fun _ => header >>= fun ehdr =>
      elfRead2 env ehdr.eShoff (bytesOf Elf64Shdr ehdr.eShnum) >>= fun sections =>
        modifyElf fun elf => { elf with sections := some sections }).run w) := by
  have hsteps : ∀ {c : Option Counts}, env.after env.programHeaderSteps w.counts = c →
      env.after ([.alloc] ++ env.programHeaderSteps) ⟨0, 0⟩ = c := by
    rintro c rfl
    rw [Env.after_append, hc]
    rfl
  have hnone : w.elf.programHeaders = none := by
    rw [helf]
    rfl
  obtain ⟨ph, w₁, h₁, t₁, hph⟩ | ⟨hdr, w₁, h₁, t₁, hhdr⟩ :=
    readProgramHeaders_spec env w p.ptr hnone
  · have he := t₁.elf
    rw [helf] at he
    rw [bind_ok h₁]
    refine sections_end p.ptr he hph (hsteps t₁.counts)
      (hs.took t₁ ⟨hs.fits.symbolTables, hs.fits.relTables⟩ ?_) (t₁.moved.outside.trans ho)
    have howned := owned_withHeader (ehdrAt env p.ptr) ph
    rw [helf, owned_withHeader]
    exact (List.perm_append_singleton _ _).trans (howned.symm ▸ .refl _)
  · rw [bind_error h₁]
    refine .failed (Env.missed (hsteps t₁.counts) _) ⟨?_, ?_⟩ (t₁.moved.outside.trans ho)
    · -- the header that is owned is the same buffer
      have howned : w₁.elf.owned = w.elf.owned := by
        rw [t₁.elf, helf]
        rcases hhdr with rfl | rfl
        · rw [helf]
        · rfl
      rw [howned]
      exact t₁.moved.owes _ hs.owes
    · rw [t₁.elf]
      exact ⟨hs.fits.symbolTables, hs.fits.relTables⟩

theorem headers_end (env : Env) : HeadersEnd env ((readHeaders env).run World.init) := by
  unfold readHeaders
  obtain ⟨ptr, w₁, h₁, t₁⟩ | ⟨w₁, h₁, t₁⟩ := elfAlloc_spec env World.init
    (BitVec.ofNat 64 (sizeof Elf64Ehdr))
  · let p : Pointer Elf64Ehdr :=
      ⟨ptr, BitVec.ofNat 64 (sizeof Elf64Ehdr), CStruct.array Elf64Ehdr env.past⟩
    have t₂ := t₁.modifyElf fun elf => { elf with header := some p }
    rw [bind_ok h₁]
    dsimp only
    rw [bind_ok (modifyElf_run _ w₁)]
    exact programHeaders_end (p := p) t₂.elf t₂.counts
      (Sound.init.took t₂ ⟨rfl, rfl⟩ (List.Perm.refl _)) t₂.moved.outside
  · rw [bind_ok h₁]
    refine .failed ?_ (Sound.init.failed t₁) t₁.moved.outside
    rw [Env.headerSteps, List.append_assoc]
    exact Env.missed t₁.counts _

/-! ## The whole -/

theorem parts_end (env : Env) :
    Ends env ((readHeaders env >>= fun _ => readSectionNames env >>= fun _ =>
      readInterpreter env >>= fun _ => readSymbolTables env >>= fun _ => readDynamic env >>= fun _ =>
        readRelocations env >>= fun _ => pure false).run World.init) := by
  have hend := headers_end env
  generalize h : (readHeaders env).run World.init = r at hend
  cases hend with
  | read hc hs hp hn ho =>
    rw [bind_ok h]
    exact names_end hc hs hp hn ho
  | failed hc hs ho =>
    rw [bind_error h]
    have hn : env.after env.nameSteps ⟨0, 0⟩ = none := by
      rw [Env.nameSteps, List.append_assoc]
      exact Env.missed hc _
    have hd := dynamic_missed (tables_missed hn)
    have hr : ¬ env.Reaches env.headerSteps := by
      rw [Env.Reaches, hc]
      simp
    refine .failed hs (Env.not_reaches hd _) (dynsymOk_of_missed hd) (entsizeOk_of_missed hd) ⟨?_, ?_⟩
    · exact ⟨fun _ => ⟨fun h => absurd h hr, linksOk_of_missed hn⟩, fun _ => ho⟩
    · simp [ho]

/-- The world after `free_elf_file` and `init_elf_file`. -/
def World.giveUp (w : World) : World := { w.free w.elf.owned with elf := initElfFile }

theorem Ends.fits {w : World} (h : Ends env (.error .error w)) : Fits w.elf := by
  cases h with
  | failed sound => exact sound.fits
  | freed fits => exact fits

/-- An error in one of the parts is cleaned up, and the rest is returned. -/
theorem readelf_ends (env : Env) : ∃ r, Ends env r ∧ (readelf env).run World.init = match r with
    | .error .error w => .ok true w.giveUp
    | r => r := by
  have he := parts_end env
  refine ⟨_, he, ?_⟩
  unfold readelf
  rw [handle_run]
  generalize EStateM.run _ World.init = r at he ⊢
  rcases r with ⟨b, w⟩ | ⟨e, w⟩
  · rfl
  · cases e with
    | error =>
      dsimp only
      rw [bind_ok (freeElfFile_run he.fits)]
      rfl
    | divide => rfl
    | null => rfl

end Readelf

end SctOs
