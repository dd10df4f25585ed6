import SctOs.PrintElf
import SctOs.Proofs.ElfContents
import SctOs.Proofs.ElfMmap

/-!
# Names of enumerated values

A name is found just when its index is one of those the table is given by (`lookup_ok`). So each
value that is printed has the name, the number or the category that it should have, but for those
that some guard lets through or that none is there for (`namesFound_iff`).
-/

namespace SctOs

namespace PrintElf

open Counter Readelf

/-! ## Tables -/

theorem le_foldr_max : ∀ {l : List ℕ} {x : ℕ}, x ∈ l → x ≤ l.foldr max 0
  | y :: l, x, h => by
    rw [List.foldr_cons]
    rcases List.mem_cons.1 h with rfl | h
    · exact le_max_left ..
    · exact (le_foldr_max h).trans (le_max_right ..)

theorem designated_getElem? {names : List (ℕ × String)} {i : ℕ} (h : i ∈ names.map Prod.fst) :
    (designated names)[i]? = some (names.lookup i) := by
  have hlt : i < (names.map (·.1 + 1)).foldr max 0 := by
    obtain ⟨p, hp, rfl⟩ := List.mem_map.1 h
    exact Nat.lt_of_succ_le (le_foldr_max (List.mem_map.2 ⟨p, hp, rfl⟩))
  simp [designated, hlt]

theorem lookup_isSome : ∀ (names : List (ℕ × String)) (i : ℕ),
    (names.lookup i).isSome ↔ i ∈ names.map Prod.fst
  | [], i => by simp
  | (j, s) :: names, i => by
    rw [List.lookup_cons, List.map_cons, List.mem_cons]
    by_cases h : i = j
    · simp [h]
    · have hb : (i == j) = false := by simpa using h
      simp only [hb, lookup_isSome names i, h, false_or]

theorem mem_of_designated {names : List (ℕ × String)} {i : ℕ} {s : String}
    (h : (designated names)[i]? = some (some s)) : i ∈ names.map Prod.fst := by
  rw [designated, List.getElem?_map] at h
  obtain ⟨j, hj, hs⟩ := Option.map_eq_some_iff.1 h
  obtain ⟨hlt, rfl⟩ := List.getElem?_eq_some_iff.1 hj
  rw [List.getElem_range] at hs
  rw [← lookup_isSome, hs]
  rfl

theorem lookup_ok (names : List (ℕ × String)) (i : ℤ) :
    (lookup names i).Ok ↔ 0 ≤ i ∧ i.toNat ∈ names.map Prod.fst := by
  unfold lookup
  by_cases hi : i < 0
  · rw [if_pos hi]
    exact ⟨False.elim, fun h => absurd h.1 (by omega)⟩
  rw [if_neg hi]
  by_cases hmem : i.toNat ∈ names.map Prod.fst
  · obtain ⟨s, hs⟩ := Option.isSome_iff_exists.1 ((lookup_isSome names i.toNat).2 hmem)
    rw [designated_getElem? hmem, hs]
    exact ⟨fun _ => ⟨by omega, hmem⟩, fun _ => trivial⟩
  · refine ⟨fun h => absurd ?_ hmem, fun h => absurd h.2 hmem⟩
    rcases hs : (designated names)[i.toNat]? with _ | _ | s <;> rw [hs] at h
    · exact h.elim
    · exact h.elim
    · exact mem_of_designated hs

theorem lookup_nat_ok (names : List (ℕ × String)) (i : ℕ) :
    (lookup names i).Ok ↔ i ∈ names.map Prod.fst := by
  rw [lookup_ok, Int.toNat_natCast]
  exact and_iff_right (Int.natCast_nonneg i)

theorem lookup_range_ok {names : List (ℕ × String)} {n : ℕ}
    (hnames : names.map Prod.fst = List.range n) (i : ℕ) : (lookup names i).Ok ↔ i < n := by
  rw [lookup_nat_ok, hnames, List.mem_range]

/-! ## Values -/

theorem printElfHeader_ok (header : Elf64Ehdr) :
    (∀ shown ∈ printElfHeader header, shown.Ok) ↔ HeaderNamed header := by
  have hclass : elfClassNames.map Prod.fst = List.range 3 := rfl
  have hendianness : elfEndiannessNames.map Prod.fst = List.range 3 := rfl
  have hversion : elfVersionNames.map Prod.fst = List.range 2 := rfl
  have hosabi : elfOsabiNames.map Prod.fst = List.range 13 ++ [255] := rfl
  have htype : elfTypeNames.map Prod.fst = List.range 5 := rfl
  have hmachine : elfMachineNames.map Prod.fst = List.range 9 ++ [62] := rfl
  unfold printElfHeader Ident eiClass eiEndianness eiVersion eiOsabi
  rw [List.forall_mem_cons, List.forall_mem_cons, List.forall_mem_cons, List.forall_mem_cons,
    List.forall_mem_cons, List.forall_mem_cons, List.forall_mem_singleton,
    lookup_range_ok hclass, lookup_range_ok hendianness, lookup_range_ok hversion,
    lookup_nat_ok elfOsabiNames, hosabi, lookup_range_ok htype, lookup_nat_ok elfMachineNames,
    hmachine, lookup_range_ok hversion]
  simp only [List.mem_append, List.mem_range, List.mem_singleton]
  constructor
  · rintro ⟨h1, h2, h3, h4, h5, h6, h7⟩
    exact ⟨by omega, by omega, by omega, by omega, by omega, by omega, by omega⟩
  · rintro ⟨h1, h2, h3, h4, h5, h6, h7⟩
    exact ⟨by omega, by omega, by omega, by omega, by omega, by omega, by omega⟩

theorem printPhdrType_ok (type : Elf64Word) : (printPhdrType type).Ok := by
  have hnames : elfSegmentTypeNames.map Prod.fst = List.range 10 := rfl
  unfold printPhdrType
  split_ifs with h1 h2
  · have := BitVec.lt_def.1 h1
    simp [ptNum] at this
    exact (lookup_range_ok hnames _).2 (by omega)
  · refine (lookup_range_ok hnames _).2 ?_
    unfold ptNum ptGnuStack ptGnuRelro at *
    bv_omega
  · trivial

theorem printSectionType_ok (type : Elf64Word) : (printSectionType type).Ok ↔ type ≠ 16 := by
  have hnames : elfSectionTypeNames.map Prod.fst = List.range 16 := rfl
  unfold printSectionType
  split_ifs with h1 h2 h3
  · rw [lookup_range_ok hnames]
    bv_omega
  all_goals
    refine ⟨fun _ => ?_, fun _ => trivial⟩
    rintro rfl
    exact absurd h1 (by decide)

/-- Only negative tags are let through. -/
theorem printDynTag_ok (dyn : Elf64Dyn) : (printDynTag dyn).Ok ↔ 0 ≤ dyn.dTag.toInt := by
  unfold printDynTag
  split_ifs with h
  · have hnames : elfDynTagNames.map Prod.fst = List.range 29 := rfl
    rw [lookup_ok, hnames, List.mem_range]
    omega
  · exact ⟨fun _ => by omega, fun _ => trivial⟩

theorem printSymbolEnum_ok {names : List (ℕ × String)} {num : BitVec 8}
    (hnames : names.map Prod.fst = List.range num.toNat) {value : BitVec 8}
    (hvalue : value.toNat < 16) : (printSymbolEnum names num value).Ok ↔
      ¬ (num.toNat ≤ value.toNat ∧ value.toNat ≤ 9) := by
  unfold printSymbolEnum
  split_ifs with h1 h2 h3
  · rw [lookup_range_ok hnames]
    have := BitVec.lt_def.1 h1
    omega
  · exact ⟨fun _ => by bv_omega, fun _ => trivial⟩
  · exact ⟨fun _ => by bv_omega, fun _ => trivial⟩
  · refine ⟨False.elim, fun h => h ⟨?_, ?_⟩⟩ <;> bv_omega

theorem elf64RType_toNat (rela : Elf64Rela) :
    (elf64RType rela).toNat = rela.rInfo.toNat % 2 ^ 32 := by
  rw [elf64RType, BitVec.toNat_and]
  exact Nat.and_two_pow_sub_one_eq_mod _ 32

theorem printRelocation_ok (rela : Elf64Rela) :
    (printRelocation rela).Ok ↔ TypeNamed rela.rInfo := by
  have hnames : elfRelocationTypeNames.map Prod.fst = List.range 27 ++ List.range' 32 11 := rfl
  unfold printRelocation TypeNamed
  rw [lookup_nat_ok, hnames, List.mem_append, List.mem_range, List.mem_range'_1, elf64RType_toNat]
  omega

theorem elfSymbolBinding_toNat (symbol : Elf64Sym) :
    (elfSymbolBinding symbol).toNat = symbol.stInfo.toNat / 16 := by
  rw [elfSymbolBinding, BitVec.toNat_ushiftRight, Nat.shiftRight_eq_div_pow]

theorem elfSymbolType_toNat (symbol : Elf64Sym) :
    (elfSymbolType symbol).toNat = symbol.stInfo.toNat % 16 := by
  rw [elfSymbolType, BitVec.toNat_and]
  exact Nat.and_two_pow_sub_one_eq_mod _ 4

theorem printSymbol_ok (symbol : Elf64Sym) :
    (∀ shown ∈ printSymbol symbol, shown.Ok) ↔ InfoNamed symbol.stInfo := by
  have hbinding : elfSymbolBindingNames.map Prod.fst = List.range (3 : BitVec 8).toNat := rfl
  have htype : elfSymbolTypeNames.map Prod.fst = List.range (7 : BitVec 8).toNat := rfl
  have hb := elfSymbolBinding_toNat symbol
  have ht := elfSymbolType_toNat symbol
  have hlt := symbol.stInfo.isLt
  unfold printSymbol
  rw [List.forall_mem_cons, List.forall_mem_singleton,
    printSymbolEnum_ok hbinding (by omega), printSymbolEnum_ok htype (by omega), hb, ht]
  exact ⟨fun ⟨h, h'⟩ => ⟨h, h'⟩, fun ⟨h, h'⟩ => ⟨h, h'⟩⟩

/-! ## The parts of the file -/

variable {elf : ElfFile}

theorem mem_elements {α : Type} {p : Option (Pointer α)} {start n : ℕ} {a : α} :
    a ∈ elements p start n ↔ ∃ q, p = some q ∧ ∃ i, start ≤ i ∧ i < n ∧ a = q.elem i := by
  simp only [elements, List.mem_flatMap, Option.mem_toList, List.mem_map, List.mem_range'_1]
  constructor
  · rintro ⟨q, rfl, i, hi, rfl⟩
    exact ⟨q, rfl, i, by omega, by omega, rfl⟩
  · rintro ⟨q, rfl, i, h1, h2, rfl⟩
    exact ⟨q, rfl, i, by omega, rfl⟩

theorem forall_elements {α : Type} {p : Option (Pointer α)} {start n : ℕ} {P : α → Prop} :
    (∀ a ∈ elements p start n, P a) ↔
      ∀ q, p = some q → ∀ i, start ≤ i → i < n → P (q.elem i) := by
  constructor
  · exact fun h q hq i hs hi => h _ (mem_elements.2 ⟨q, hq, i, hs, hi, rfl⟩)
  · rintro h a ha
    obtain ⟨q, hq, i, hs, hi, rfl⟩ := mem_elements.1 ha
    exact h q hq i hs hi

theorem forall_headers {P : Elf64Ehdr → Prop} :
    (∀ header ∈ headers elf, P header) ↔ ∀ ehdr, elf.header = some ehdr → P (ehdr.elem 0) := by
  rw [headers, forall_elements]
  constructor
  · exact fun h ehdr hehdr => h ehdr hehdr 0 le_rfl Nat.one_pos
  · rintro h ehdr hehdr i - hi
    rw [Nat.lt_one_iff.1 hi]
    exact h ehdr hehdr

theorem printProgramHeaders_ok : ∀ shown ∈ printProgramHeaders elf, shown.Ok := by
  intro shown h
  simp only [printProgramHeaders, List.mem_flatMap, List.mem_map] at h
  obtain ⟨header, -, phdr, -, rfl⟩ := h
  exact printPhdrType_ok _

theorem printSectionHeaders_ok : (∀ shown ∈ printSectionHeaders elf, shown.Ok) ↔
    ∀ ehdr, elf.header = some ehdr → ∀ shdrs, elf.sections = some shdrs →
      ∀ i, 1 ≤ i → i < (ehdr.elem 0).eShnum.toNat → (shdrs.elem i).shType ≠ 16 := by
  unfold printSectionHeaders
  simp only [List.forall_mem_flatMap, List.forall_mem_map, printSectionType_ok, forall_headers,
    forall_elements, shnBegin]

theorem printSymbolTables_ok : (∀ shown ∈ printSymbolTables elf, shown.Ok) ↔
    ∀ tables, elf.symbolTables = some tables →
      ∀ table ∈ tables.entries.take elf.nSymbolTables.toNat,
        ∀ symbols, table.symbols = some symbols →
          ∀ i, 1 ≤ i → i < table.nSymbols.toNat → InfoNamed (symbols.elem i).stInfo := by
  unfold printSymbolTables symbolTables
  simp only [List.forall_mem_flatMap, printSymbol_ok, forall_elements, Option.mem_toList]

theorem printRelocations_ok : (∀ shown ∈ printRelocations elf, shown.Ok) ↔
    ∀ tables, elf.relTables = some tables →
      ∀ table ∈ tables.entries.take elf.nRelTables.toNat,
        ∀ relas, table.relocations = some relas →
          ∀ i < table.nRelocations.toNat, TypeNamed (relas.elem i).rInfo := by
  unfold printRelocations relTables
  simp only [List.forall_mem_flatMap, List.forall_mem_map, printRelocation_ok, forall_elements,
    Option.mem_toList, Nat.zero_le, true_imp_iff]

/-- The entries that are printed are those before the first null. -/
theorem mem_printDynamicFrom {dyns : Pointer Elf64Dyn} {shown : Shown} : ∀ {rounds i : ℕ},
    shown ∈ printDynamicFrom dyns rounds i ↔
      ∃ j < rounds, (∀ k ≤ j, (dyns.elem (i + k)).dTag ≠ dtNull) ∧
        shown = printDynTag (dyns.elem (i + j))
  | 0, i => by simp [printDynamicFrom]
  | rounds + 1, i => by
    unfold printDynamicFrom
    split_ifs with hnull
    · rw [List.mem_cons, mem_printDynamicFrom]
      constructor
      · rintro (rfl | ⟨j, hj, htags, rfl⟩)
        · exact ⟨0, by omega, fun k hk => by rwa [Nat.le_zero.1 hk], rfl⟩
        · refine ⟨j + 1, by omega, fun k hk => ?_, by rw [Nat.add_right_comm, Nat.add_assoc]⟩
          rcases k with _ | k
          · exact hnull
          · have := htags k (by omega)
            rwa [Nat.add_right_comm, Nat.add_assoc] at this
      · rintro ⟨_ | j, hj, htags, rfl⟩
        · exact .inl rfl
        · refine .inr ⟨j, by omega, fun k hk => ?_, by rw [Nat.add_right_comm, Nat.add_assoc]⟩
          rw [Nat.add_right_comm, Nat.add_assoc]
          exact htags (k + 1) (by omega)
    · refine ⟨fun h => absurd h List.not_mem_nil, fun ⟨j, _, htags, _⟩ => ?_⟩
      exact absurd (htags 0 (Nat.zero_le j)) hnull

theorem printDynamic_ok : (∀ rounds, ∀ shown ∈ printDynamic elf rounds, shown.Ok) ↔
    ∀ dyns, elf.dynamic.dynamic = some dyns →
      ∀ i, (∀ k ≤ i, (dyns.elem k).dTag ≠ dtNull) → 0 ≤ (dyns.elem i).dTag.toInt := by
  have hmem : ∀ {rounds : ℕ} {shown : Shown}, shown ∈ printDynamic elf rounds ↔
      ∃ dyns, elf.dynamic.dynamic = some dyns ∧ ∃ j < rounds,
        (∀ k ≤ j, (dyns.elem k).dTag ≠ dtNull) ∧ shown = printDynTag (dyns.elem j) := by
    intro rounds shown
    simp only [printDynamic, List.mem_flatMap, Option.mem_toList, mem_printDynamicFrom,
      Nat.zero_add]
  constructor
  · intro h dyns hdyns i htags
    exact (printDynTag_ok _).1
      (h (i + 1) _ (hmem.2 ⟨dyns, hdyns, i, Nat.lt_succ_self i, htags, rfl⟩))
  · intro h rounds shown hshown
    obtain ⟨dyns, hdyns, j, -, htags, rfl⟩ := hmem.1 hshown
    exact (printDynTag_ok _).2 (h dyns hdyns j htags)

/-! ## The memory map -/

/-- Each entry is from a table whose values are right. -/
theorem printMmapEntry_ok (h : ∀ shown ∈ printRelocations elf, shown.Ok) {entry : MmapEntry}
    (he : ElfMmap.Origin elf entry) : ∀ shown ∈ printMmapEntry elf entry, shown.Ok := by
  cases he with
  | none hnone => simp [printMmapEntry, hnone]
  | phdr i phdr =>
    intro shown hmem
    obtain ⟨phdrs, -, rfl⟩ := List.mem_map.1 hmem
    exact printPhdrType_ok _
  | shdr shdr => exact fun _ hmem => absurd hmem List.not_mem_nil
  | sym i symbol => exact fun _ hmem => absurd hmem List.not_mem_nil
  | @rel i j table p symTable hi ht hj hp =>
    intro shown hmem
    have hj' : (BitVec.ofNat 64 j).toNat = j :=
      Nat.mod_eq_of_lt (hj.trans table.nRelocations.isLt)
    obtain ⟨tables, htables, ht⟩ := Option.bind_eq_some_iff.1 ht
    have hget : (relTables elf)[i]? = some table := by
      simp [relTables, htables, hi, ht]
    obtain rfl : shown = printRelocation (p.elem j) := by
      simpa [printMmapEntry, ElfMmap.relEntry, hget, hp, hj'] using hmem
    refine h _ (List.mem_flatMap.2 ⟨table, List.mem_of_getElem? hget, ?_⟩)
    exact List.mem_map_of_mem (mem_elements.2 ⟨p, hp, j, Nat.zero_le j, hj, rfl⟩)

theorem printMmap_ok (h : ∀ shown ∈ printRelocations elf, shown.Ok) (call : MmapCall) :
    ∀ shown ∈ printMmap elf call, shown.Ok := by
  intro shown hmem
  unfold printMmap at hmem
  split at hmem
  · rename_i t hr
    simp only [List.mem_flatMap, Option.mem_toList] at hmem
    obtain ⟨sorted, hsorted, entry, hentry, hmem⟩ := hmem
    have horigin := ElfMmap.mmapGet_origins hr entry (InsertionSort.sort_subset hsorted hentry)
    exact printMmapEntry_ok h horigin shown hmem
  · exact absurd hmem List.not_mem_nil

/-! ## The tool -/

/-- With one flag for each part. -/
theorem namesFound_parts : NamesFound elf ↔
    (∀ header ∈ headers elf, ∀ shown ∈ printElfHeader header, shown.Ok) ∧
    (∀ shown ∈ printSectionHeaders elf, shown.Ok) ∧
    (∀ rounds, ∀ shown ∈ printDynamic elf rounds, shown.Ok) ∧
    (∀ shown ∈ printSymbolTables elf, shown.Ok) ∧
    ∀ shown ∈ printRelocations elf, shown.Ok := by
  constructor
  · intro h
    let call : MmapCall := ⟨0, false, fun _ => ⟨0, 0, .none, .uninitialized⟩, ⟨0, [], 0, []⟩⟩
    have hall := fun rounds shown => h ⟨true, true, true, true, true, true, false⟩ rounds call shown
    simp only [printElfFile, if_true, List.mem_append, Bool.and_false] at hall
    refine ⟨fun header hheader shown hmem => hall 0 shown ?_, fun shown hmem => hall 0 shown ?_,
      fun rounds shown hmem => hall rounds shown ?_, fun shown hmem => hall 0 shown ?_,
      fun shown hmem => hall 0 shown ?_⟩
    · have := List.mem_flatMap.2 ⟨header, hheader, hmem⟩
      tauto
    all_goals tauto
  · rintro ⟨hheader, hsections, hdynamic, hsymbols, hrelocs⟩ flags rounds call
    unfold printElfFile
    simp only [List.forall_mem_append]
    have hpart : ∀ {flag : Bool} {part : List Shown}, (∀ shown ∈ part, shown.Ok) →
        ∀ shown ∈ if flag then part else [], shown.Ok := by
      intro flag part h
      cases flag
      · exact fun _ hmem => absurd hmem List.not_mem_nil
      · exact h
    exact ⟨⟨⟨⟨⟨⟨hpart (List.forall_mem_flatMap.2 hheader), hpart printProgramHeaders_ok⟩,
      hpart hsections⟩, hpart (hdynamic rounds)⟩, hpart hsymbols⟩, hpart hrelocs⟩,
      hpart (printMmap_ok hrelocs call)⟩

/-- Just these values are let through. -/
theorem namesFound_iff (elf : ElfFile) : NamesFound elf ↔ Named elf := by
  rw [namesFound_parts, printSectionHeaders_ok, printDynamic_ok, printSymbolTables_ok,
    printRelocations_ok]
  simp only [printElfHeader_ok, forall_headers]
  constructor
  · rintro ⟨h1, h2, h3, h4, h5⟩
    exact ⟨h1, h2, h3, h4, h5⟩
  · rintro ⟨h1, h2, h3, h4, h5⟩
    exact ⟨h1, h2, h3, h4, h5⟩

/-- With a section of the type after the last one. -/
def sectionFile : File := .ofHeaders [] [.at 0 192 0 0, .at 16 192 0 0] []

theorem namesFound_false : ¬ ∀ env w, (readelf env).run World.init = .ok false w →
    NamesFound w.elf := by
  intro h
  obtain ⟨err, w, hr, hw⟩ := exists_of_returns
    (p := fun err w => !err && (headers w.elf).any fun header =>
      (elements w.elf.sections shnBegin header.eShnum.toNat).any fun shdr => shdr.shType = 16)
    (r := (readelf (.ofFile sectionFile)).run World.init) (by decide +kernel)
  rw [Bool.and_eq_true, Bool.not_eq_true', List.any_eq_true] at hw
  obtain ⟨rfl, header, hheader, hany⟩ := hw
  obtain ⟨shdr, hshdr, htype⟩ := List.any_eq_true.1 hany
  obtain ⟨ehdr, hehdr, i, -, hi, rfl⟩ := mem_elements.1 hheader
  obtain rfl := Nat.lt_one_iff.1 hi
  obtain ⟨shdrs, hshdrs, j, hj, hlt, rfl⟩ := mem_elements.1 hshdr
  have hsections := printSectionHeaders_ok.1 (namesFound_parts.1 (h _ w hr)).2.1
  exact hsections ehdr hehdr shdrs hshdrs j hj hlt (of_decide_eq_true htype)

end PrintElf

end SctOs
