import SctOs.ElfMmap
import SctOs.Proofs.Counters
import SctOs.Proofs.InsertionSort

/-!
# The memory map of an ELF file

The counting loops and the filling loops go through the same entries, so that the filling loops
write each index once (`mmapGet_fills`). The loop that clears the array has a 16-bit counter, and it
ends exactly when there are less than 2^16 entries (`mmapGet_ends_iff`). Even where the tables have
not the declared lengths, the entries are from the tables (`mmapGet_origins`). The sort by address
is stable and stays in the array (`mmapSort_stable`).
-/

namespace SctOs

namespace ElfMmap

open Counter Readelf Stateful

variable {elf : ElfFile} {c : Contents} {fuel : ℕ} {alloc : Bool} {memory : ℕ → MmapEntry}
  {s t : Filling}

/-! ## Loops -/

/-- The fuel is enough for each counter. -/
abbrev Does {α : Type} (fuel : ℕ) (x : M α) (s : Filling) (a : α) (t : Filling) : Prop :=
  Gives .outOfFuel (2 ^ 64 ≤ fuel) x s a t

theorem forLoop_does {α : Type} {w start bound n : ℕ} {body : ℕ → M Unit} {state : List α → Filling}
    {out : ℕ → List α} (hb : bound < 2 ^ w) (hw : w ≤ 64) (hs : start < 2 ^ w) {l : List α}
    (hbody : ∀ i < bound, ∀ l : List α, (l ++ out i).length ≤ n →
      Does fuel (body i) (state l) () (state (l ++ out i)))
    (hn : (l ++ (List.range' start (bound - start)).flatMap out).length ≤ n) :
    Does fuel (forLoop fuel w start bound body) (state l) ()
      (state (l ++ (List.range' start (bound - start)).flatMap out)) := by
  have hle : 2 ^ w ≤ 2 ^ 64 := Nat.pow_le_pow_right (by omega) hw
  have hstart : (BitVec.ofNat w start).toNat = start := Nat.mod_eq_of_lt hs
  have hf : 2 ^ 64 ≤ fuel → bound - (BitVec.ofNat w start).toNat < fuel := fun hf => by omega
  have h := loop_gives hb (fun i => hbody i.toNat) hf (by rwa [hstart])
  rwa [hstart] at h

/-- The entries of the array `l` from `start` on, one after the other. -/
theorem range_flatMap {α β : Type} (l : List α) (f : α × ℕ → List β) : ∀ (m : List α) (k : ℕ),
    (∀ i, l[k + i]? = m[i]?) →
    (List.range' k m.length).flatMap (fun i => l[i]?.toList.flatMap fun a => f (a, i)) =
      (m.zipIdx k).flatMap f
  | [], k, _ => by simp
  | a :: m, k, h => by
    have hm : ∀ i, l[k + 1 + i]? = m[i]? := fun i => by
      have hi := h (i + 1)
      rwa [List.getElem?_cons_succ, Nat.add_comm i, ← Nat.add_assoc] at hi
    have ha : l[k]? = some a := h 0
    rw [List.length_cons, List.range'_succ, List.flatMap_cons, range_flatMap l f m (k + 1) hm, ha,
      List.zipIdx_cons, List.flatMap_cons, Option.toList_some, List.flatMap_singleton]

theorem pass_does {α β : Type} {w start bound n : ℕ} {body : ℕ → M Unit} {state : List β → Filling}
    {f : α × ℕ → List β} {l : List α} (hl : bound = l.length) (hb : bound < 2 ^ w) (hw : w ≤ 64)
    (hs : start < 2 ^ w) (hbody : ∀ i a, l[i]? = some a → ∀ m : List β, (m ++ f (a, i)).length ≤ n →
      Does fuel (body i) (state m) () (state (m ++ f (a, i)))) {m : List β}
    (hn : (m ++ ((l.drop start).zipIdx start).flatMap f).length ≤ n) :
    Does fuel (forLoop fuel w start bound body) (state m) ()
      (state (m ++ ((l.drop start).zipIdx start).flatMap f)) := by
  have hd := range_flatMap l f (l.drop start) start fun i => (List.getElem?_drop ..).symm
  rw [List.length_drop, ← hl] at hd
  rw [← hd] at hn ⊢
  refine forLoop_does hb hw hs (fun i hi m hm => ?_) hn
  obtain ⟨a, ha⟩ : ∃ a, l[i]? = some a := ⟨_, List.getElem?_eq_getElem (hl ▸ hi)⟩
  rw [ha, Option.toList_some, List.flatMap_singleton] at hm ⊢
  exact hbody i a ha m hm

/-! ## The tables -/

theorem deref_does {α : Type} {a : α} {o : Option α} (h : o = some a) :
    Does fuel (deref o) s a s := by
  subst h
  exact gives_pure

theorem elem_does {α : Type} {a : α} {i : ℕ} {o : Option (Pointer α)}
    (h : o.map (·.elem i) = some a) : Does fuel (do return (← deref o).elem i) s a s := by
  obtain ⟨p, hp, ha⟩ := Option.map_eq_some_iff.1 h
  subst ha
  exact gives_bind (deref_does hp) gives_pure

theorem getElem?_lt {α : Type} {l : List α} {i : ℕ} {a : α} (h : l[i]? = some a) : i < l.length :=
  (List.getElem?_eq_some_iff.1 h).1

section tables

variable (h : HasTables elf c)

include h

theorem header_does : ∃ ehdr, ehdr.ePhnum.toNat = c.programHeaders.length ∧
    ehdr.eShnum.toNat = c.sections.length ∧ ∀ s, Does fuel (header elf) s ehdr s := by
  obtain ⟨p, hp, hph, hsh⟩ := h.header
  exact ⟨p.elem 0, hph, hsh, fun s => gives_bind (deref_does hp) gives_pure⟩

theorem programHeader_does {i : ℕ} {phdr : Elf64Phdr} (hi : c.programHeaders[i]? = some phdr) :
    Does fuel (programHeader elf i) s phdr s :=
  elem_does ((h.programHeaders i (getElem?_lt hi)).trans hi)

theorem sectionAt_does {i : ℕ} {shdr : Elf64Shdr} (hi : c.sections[i]? = some shdr) :
    Does fuel (sectionAt elf i) s shdr s :=
  elem_does ((h.sections i (getElem?_lt hi)).trans hi)

theorem symbolTable_does {i : ℕ} {symbols : List Elf64Sym}
    (hi : c.symbolTables[i]? = some symbols) :
    ∃ table, SymbolTable table symbols ∧ ∀ s, Does fuel (symbolTable elf i) s table s := by
  obtain ⟨tables, ht, table, htable, hs⟩ := h.symbolTables i symbols hi
  exact ⟨table, hs, fun s => gives_bind (deref_does ht) (deref_does htable)⟩

theorem relTable_does {i : ℕ} {relocations : Relocations}
    (hi : c.relTables[i]? = some relocations) :
    ∃ table, RelTable elf c table relocations ∧ ∀ s, Does fuel (relTable elf i) s table s := by
  obtain ⟨tables, ht, table, htable, hr⟩ := h.relTables i relocations hi
  exact ⟨table, hr, fun s => gives_bind (deref_does ht) (deref_does htable)⟩

end tables

theorem getSymbolTable_eq {ndx : ℕ} : ∀ {o : Option ℕ}, FirstIn elf ndx o →
    getSymbolTable elf ndx = o := by
  intro o h
  rcases ht : elf.symbolTables with _ | tables
  · cases o with
    | none => rw [getSymbolTable, ht, Option.bind_none]
    | some k => simp [FirstIn, tableSection, ht] at h
  have hget : ∀ {i : ℕ} {table : ElfSymbolTable},
      (tables.entries.take elf.nSymbolTables.toNat)[i]? = some table →
        i < elf.nSymbolTables.toNat ∧ tableSection elf i = table.sectionIndex := by
    intro i table hi
    rw [List.getElem?_take] at hi
    split_ifs at hi with hlt
    exact ⟨hlt, by rw [tableSection, ht, Option.bind_some, hi]; rfl⟩
  rw [getSymbolTable, ht, Option.bind_some]
  cases o with
  | none =>
    refine List.findIdx?_eq_none_iff.2 fun table hmem => decide_eq_false ?_
    obtain ⟨i, hi⟩ := List.mem_iff_getElem?.1 hmem
    obtain ⟨hlt, hs⟩ := hget hi
    exact hs ▸ h i hlt
  | some k =>
    obtain ⟨hk, hsec, hfirst⟩ := h
    obtain ⟨table, htable, hsec⟩ := Option.bind_eq_some_iff.1 hsec
    rw [ht, Option.bind_some] at htable
    have hlen : k < (tables.entries.take elf.nSymbolTables.toNat).length :=
      List.length_take ▸ lt_min hk (getElem?_lt htable)
    refine List.findIdx?_eq_some_iff_getElem.2 ⟨hlen, decide_eq_true ?_, fun i hi => ?_⟩
    · rw [List.getElem_take, (List.getElem?_eq_some_iff.1 htable).2]
      exact hsec
    · have hi' := hget (List.getElem?_eq_getElem (hi.trans hlen))
      rw [decide_eq_true_iff]
      exact hi'.2 ▸ hfirst i hi

/-! ## The entries -/

def phdrEntries : Elf64Phdr × ℕ → List MmapEntry := fun (phdr, i) => [phdrEntry i phdr]

def sectionEntries : Elf64Shdr × ℕ → List MmapEntry := fun (shdr, _) =>
  if shdr.shFlags &&& shfAlloc ≠ 0 then [shdrEntry shdr] else []

def symbolEntries : List Elf64Sym × ℕ → List MmapEntry := fun (symbols, i) =>
  symbols.map (symEntry i)

def relocationEntries : Relocations × ℕ → List MmapEntry := fun (table, i) =>
  table.entries.zipIdx.map fun (rela, j) => relEntry i table.symTable j rela

theorem mmap_eq : c.mmap = ((c.programHeaders.drop 1).zipIdx 1).flatMap phdrEntries ++
    (c.sections.drop 0).zipIdx.flatMap sectionEntries ++
    (c.symbolTables.drop 0).zipIdx.flatMap symbolEntries ++
    (c.relTables.drop 0).zipIdx.flatMap relocationEntries := by
  have hp : ((c.programHeaders.drop 1).zipIdx 1).flatMap phdrEntries =
      c.programHeaders.zipIdx.tail.map fun (header, i) => phdrEntry i header := by
    rw [List.map_eq_flatMap]
    rcases c.programHeaders with _ | ⟨phdr, phdrs⟩ <;> rfl
  have hs : (c.sections.drop 0).zipIdx.flatMap sectionEntries =
      (c.sections.filter (·.shFlags &&& 2 ≠ 0)).map shdrEntry := by
    have hflag : shfAlloc = 2 := rfl
    rw [List.drop_zero]
    generalize 0 = k
    induction c.sections generalizing k with
    | nil => rfl
    | cons shdr shdrs ih =>
      rw [List.zipIdx_cons, List.flatMap_cons, ih]
      simp only [sectionEntries, hflag, List.filter_cons, decide_eq_true_eq]
      split_ifs <;> rfl
  rw [hp, hs]
  rfl

/-! ## Counting -/

/-- The state when these entries are counted. -/
def counted (s : Filling) (l : List MmapEntry) : Filling :=
  { s with nEntries := BitVec.ofNat 64 l.length }

theorem countEntries_run {n : U64} {l m : List MmapEntry} (hn : n.toNat = m.length) :
    (countEntries n).run (counted s l) = .ok () (counted s (l ++ m)) := by
  have : BitVec.ofNat 64 l.length + n = BitVec.ofNat 64 (l ++ m).length := by
    rw [List.length_append, BitVec.ofNat_add, ← hn, BitVec.ofNat_toNat, BitVec.setWidth_eq]
  show EStateM.Result.ok () _ = _
  simp [counted, this]

theorem countSections_does (h : HasTables elf c) (l : List MmapEntry) :
    Does fuel (countSections elf fuel) (counted s l) ()
      (counted s (l ++ (c.sections.drop 0).zipIdx.flatMap sectionEntries)) := by
  obtain ⟨ehdr, -, hn, hehdr⟩ := header_does h
  refine gives_bind (hehdr _) (pass_does hn (by omega) (by omega) (by omega) ?_ le_rfl)
  intro i shdr hi m _
  refine gives_bind (sectionAt_does h hi) ?_
  unfold sectionEntries
  dsimp only
  split_ifs
  · exact gives_of_run (countEntries_run rfl)
  · rw [List.append_nil]
    exact gives_pure

theorem countSymbols_does (h : HasTables elf c) (l : List MmapEntry) :
    Does fuel (countSymbols elf fuel) (counted s l) ()
      (counted s (l ++ (c.symbolTables.drop 0).zipIdx.flatMap symbolEntries)) := by
  refine pass_does h.nSymbolTables (by omega) (by omega) (by omega) ?_ le_rfl
  intro i symbols hi m _
  obtain ⟨table, htable, hrun⟩ := symbolTable_does h hi
  refine gives_bind (hrun _) (gives_of_run (countEntries_run ?_))
  have hlt : table.nSymbols.toNat < 2 ^ 64 := table.nSymbols.isLt.trans (by omega)
  rw [BitVec.toNat_setWidth, Nat.mod_eq_of_lt hlt, htable.1, symbolEntries, List.length_map]

theorem countRelocations_does (h : HasTables elf c) (l : List MmapEntry) :
    Does fuel (countRelocations elf fuel) (counted s l) ()
      (counted s (l ++ (c.relTables.drop 0).zipIdx.flatMap relocationEntries)) := by
  refine pass_does h.nRelTables (by omega) (by omega) (by omega) ?_ le_rfl
  intro i relocations hi m _
  obtain ⟨table, htable, hrun⟩ := relTable_does h hi
  refine gives_bind (hrun _) (gives_of_run (countEntries_run ?_))
  rw [htable.1, relocationEntries, List.length_map, List.length_zipIdx]

theorem sum_map_le {α : Type} {f : α → ℕ} {k : ℕ} : ∀ {l : List α}, (∀ a ∈ l, f a ≤ k) →
    (l.map f).sum ≤ l.length * k
  | [], _ => by simp
  | a :: l, h => by
    obtain ⟨ha, hl⟩ := List.forall_mem_cons.1 h
    have := sum_map_le hl
    rw [List.map_cons, List.sum_cons, List.length_cons, Nat.succ_mul]
    omega

theorem zipIdx_map {α β : Type} (l : List α) (f : α → β) :
    (l.zipIdx.map fun (a, _) => f a) = l.map f := by
  calc (l.zipIdx.map fun (a, _) => f a) = (l.zipIdx.map Prod.fst).map f := (List.map_map ..).symm
    _ = l.map f := by rw [List.zipIdx_map_fst]

theorem mmap_length : c.mmap.length = c.programHeaders.length - 1 +
    (c.sections.filter (·.shFlags &&& 2 ≠ 0)).length +
    (c.symbolTables.map List.length).sum + (c.relTables.map (·.entries.length)).sum := by
  rw [← zipIdx_map c.symbolTables, ← zipIdx_map c.relTables]
  simp [Contents.mmap, List.length_flatMap, Nat.add_assoc]

theorem mmap_length_lt (h : HasTables elf c) : c.mmap.length < 2 ^ 64 := by
  obtain ⟨p, -, hp, hs⟩ := h.header
  have hphdrs := (p.elem 0).ePhnum.isLt
  have hshdrs := (p.elem 0).eShnum.isLt
  have hn := elf.nSymbolTables.isLt
  have hfilter := List.length_filter_le (·.shFlags &&& 2 ≠ 0) c.sections
  have hsymbols : (c.symbolTables.map List.length).sum ≤ c.symbolTables.length * 2 ^ 32 := by
    refine sum_map_le fun symbols hmem => ?_
    obtain ⟨i, hi⟩ := List.mem_iff_getElem?.1 hmem
    obtain ⟨tables, -, table, -, htable, -⟩ := h.symbolTables i symbols hi
    exact htable ▸ table.nSymbols.isLt.le
  have hrels := h.memory
  rw [h.nSymbolTables] at hn
  rw [mmap_length]
  omega

theorem countMmap_does (h : HasTables elf c) :
    Does fuel (countMmap elf fuel) s () (counted s c.mmap) := by
  obtain ⟨ehdr, hp, -, hehdr⟩ := header_does h
  have hphdrs : (if ehdr.ePhnum = 0 then 0 else (ehdr.ePhnum - 1).setWidth 64) =
      BitVec.ofNat 64 (((c.programHeaders.drop 1).zipIdx 1).flatMap phdrEntries).length := by
    have hlen : (((c.programHeaders.drop 1).zipIdx 1).flatMap phdrEntries).length =
        ehdr.ePhnum.toNat - 1 := by
      simp [phdrEntries, List.length_flatMap, hp]
    rw [hlen]
    split_ifs with h0
    · rw [h0]
      rfl
    · bv_omega
  rw [mmap_eq]
  refine gives_bind (hehdr s) (gives_bind (a := ()) (t := counted s _) (gives_of_run ?_)
    (gives_bind (countSections_does h _)
      (gives_bind (countSymbols_does h _) (countRelocations_does h _))))
  show EStateM.Result.ok () _ = _
  rw [hphdrs]
  rfl

/-! ## Filling -/

/-- The state when these entries are in the array that was `old`. -/
def filled (s : Filling) (old l : List MmapEntry) : Filling where
  nEntries := s.nEntries
  entries := l ++ old.drop l.length
  entryI := BitVec.ofNat 64 l.length
  written := ((List.range l.length).map (BitVec.ofNat 64)).reverse ++ s.written

section filling

variable {old l : List MmapEntry} (ho : old.length < 2 ^ 64)

include ho

theorem put_run {entry : MmapEntry} (hn : (l ++ [entry]).length ≤ old.length) :
    (put entry).run (filled s old l) = .ok () (filled s old (l ++ [entry])) := by
  rw [List.length_append, List.length_singleton] at hn
  have hi : (BitVec.ofNat 64 l.length).toNat = l.length := by
    rw [BitVec.toNat_ofNat, Nat.mod_eq_of_lt (by omega)]
  have hset : (l ++ old.drop l.length).set l.length entry =
      l ++ [entry] ++ old.drop (l.length + 1) := by
    rw [List.set_append_right _ _ le_rfl, Nat.sub_self, List.drop_eq_getElem_cons (by omega),
      List.set_cons_zero, List.append_assoc, List.singleton_append]
  show EStateM.Result.ok () _ = _
  simp [filled, hi, hset, List.range_succ, BitVec.ofNat_add]

theorem fillPhdrs_does (h : HasTables elf c)
    (hn : (l ++ ((c.programHeaders.drop 1).zipIdx 1).flatMap phdrEntries).length ≤ old.length) :
    Does fuel (fillPhdrs elf fuel) (filled s old l) ()
      (filled s old (l ++ ((c.programHeaders.drop 1).zipIdx 1).flatMap phdrEntries)) := by
  obtain ⟨ehdr, hp, -, hehdr⟩ := header_does h
  refine gives_bind (hehdr _) (pass_does hp (by omega) (by omega) (by omega) ?_ hn)
  intro i phdr hi m hm
  exact gives_bind (programHeader_does h hi) (gives_of_run (put_run ho hm))

theorem fillSections_does (h : HasTables elf c)
    (hn : (l ++ (c.sections.drop 0).zipIdx.flatMap sectionEntries).length ≤ old.length) :
    Does fuel (fillSections elf fuel) (filled s old l) ()
      (filled s old (l ++ (c.sections.drop 0).zipIdx.flatMap sectionEntries)) := by
  obtain ⟨ehdr, -, hs, hehdr⟩ := header_does h
  refine gives_bind (hehdr _) (pass_does hs (by omega) (by omega) (by omega) ?_ hn)
  intro i shdr hi m hm
  refine gives_bind (sectionAt_does h hi) ?_
  unfold sectionEntries at hm ⊢
  dsimp only at hm ⊢
  split_ifs at hm ⊢
  · exact gives_of_run (put_run ho hm)
  · rw [List.append_nil]
    exact gives_pure

theorem fillSymbols_does (h : HasTables elf c)
    (hn : (l ++ (c.symbolTables.drop 0).zipIdx.flatMap symbolEntries).length ≤ old.length) :
    Does fuel (fillSymbols elf fuel) (filled s old l) ()
      (filled s old (l ++ (c.symbolTables.drop 0).zipIdx.flatMap symbolEntries)) := by
  refine pass_does h.nSymbolTables (by omega) (by omega) (by omega) ?_ hn
  intro i symbols hi m hm
  obtain ⟨table, ⟨hlen, hsymbols⟩, hrun⟩ := symbolTable_does h hi
  have hsym : symbolEntries (symbols, i) = ((symbols.drop 0).zipIdx).flatMap
      fun (symbol, _) => [symEntry i symbol] := by
    calc symbolEntries (symbols, i) = symbols.zipIdx.map fun (symbol, _) => symEntry i symbol :=
          (zipIdx_map ..).symm
      _ = _ := List.map_eq_flatMap
  rw [hsym] at hm ⊢
  refine gives_bind (hrun _) (pass_does hlen (by omega) (by omega) (by omega) ?_ hm)
  intro j symbol hj m hm
  obtain ⟨p, hp, hsymbol⟩ := Option.map_eq_some_iff.1 ((hsymbols j (getElem?_lt hj)).trans hj)
  subst hsymbol
  exact gives_bind (deref_does hp) (gives_of_run (put_run ho hm))

theorem fillRelocations_does (h : HasTables elf c)
    (hn : (l ++ (c.relTables.drop 0).zipIdx.flatMap relocationEntries).length ≤ old.length) :
    Does fuel (fillRelocations elf fuel) (filled s old l) ()
      (filled s old (l ++ (c.relTables.drop 0).zipIdx.flatMap relocationEntries)) := by
  refine pass_does h.nRelTables (by omega) (by omega) (by omega) ?_ hn
  intro i relocations hi m hm
  obtain ⟨table, ⟨hlen, hrelocations, k, hk, shdr, hshdr, hsym⟩, hrun⟩ := relTable_does h hi
  have hrel : relocationEntries (relocations, i) = ((relocations.entries.drop 0).zipIdx).flatMap
      fun (rela, j) => [relEntry i relocations.symTable j rela] := List.map_eq_flatMap
  rw [hrel, ← getSymbolTable_eq hsym] at hm ⊢
  refine gives_bind (hrun _) (gives_bind (deref_does hk) (gives_bind (sectionAt_does h hshdr)
    (pass_does hlen (by omega) (by omega) (by omega) ?_ hm)))
  intro j rela hj m hm
  obtain ⟨p, hp, hrela⟩ :=
    Option.map_eq_some_iff.1 ((hrelocations j (getElem?_lt hj)).trans hj)
  subst hrela
  exact gives_bind (deref_does hp) (gives_of_run (put_run ho hm))

theorem fillMmap_does (h : HasTables elf c) (hold : old.length = c.mmap.length)
    (hs : s.entries = old) :
    Does fuel (fillMmap elf fuel) s () (filled s old c.mmap) := by
  have hp := mmap_eq (c := c)
  have hlen : ∀ {l m : List MmapEntry}, (l ++ m).length ≤ old.length → l.length ≤ old.length :=
    fun h => (List.length_append ▸ Nat.le_add_right _ _).trans h
  have hn := hold.ge
  rw [hp] at hn ⊢
  refine gives_bind (a := ()) (t := filled s old []) (gives_of_run ?_)
    (gives_bind (fillPhdrs_does ho h (hlen (hlen (hlen hn))))
      (gives_bind (fillSections_does ho h (hlen (hlen hn)))
        (gives_bind (fillSymbols_does ho h (hlen hn)) (fillRelocations_does ho h hn))))
  show EStateM.Result.ok () _ = _
  simp [filled, hs]

end filling

/-! ## Clearing -/

/-- The state when these indices are cleared. -/
def cleared (s : Filling) (l : List ℕ) : Filling :=
  { s with entries := l.foldl (fun entries i => entries.modify i MmapEntry.clear) s.entries }

theorem cleared_length : ∀ (l : List ℕ) (s : Filling),
    (cleared s l).entries.length = s.entries.length
  | [], _ => rfl
  | i :: l, s => (cleared_length l (cleared s [i])).trans (List.length_modify ..)

theorem clearEntry_run (i : ℕ) (l : List ℕ) :
    (clearEntry i).run (cleared s l) = .ok () (cleared s (l ++ [i])) := by
  show EStateM.Result.ok () _ = _
  simp [cleared, List.foldl_append]

theorem clearEntries_does (fuel : ℕ) (hn : s.nEntries.toNat < 2 ^ 16) :
    Does fuel (clearEntries fuel) s () (cleared s (List.range s.nEntries.toNat)) := by
  have h := @forLoop_does fuel _ 16 0 s.nEntries.toNat _ clearEntry (cleared s) (fun i => [i]) hn
    (by omega) (by omega) [] (fun i _ l _ => gives_of_run (clearEntry_run i l)) le_rfl
  rwa [Nat.sub_zero, ← List.range_eq_range', List.flatMap_singleton', List.nil_append] at h

theorem cleared_type : ∀ {l : List ℕ} {s : Filling} {i : ℕ} {e : MmapEntry},
    (cleared s l).entries[i]? = some e →
    (i ∈ l ∨ ∀ e, s.entries[i]? = some e → e.type = .none) → e.type = .none
  | [], s, i, e, he, h => h.resolve_left (List.not_mem_nil) e he
  | j :: l, s, i, e, he, h => by
    refine cleared_type (s := cleared s [j]) (l := l) (i := i) he ?_
    by_cases hi : i ∈ l
    · exact .inl hi
    right
    intro e he
    have hj : (cleared s [j]).entries = s.entries.modify j MmapEntry.clear := rfl
    rw [hj, List.getElem?_modify] at he
    obtain ⟨e', he', rfl⟩ := Option.map_eq_some_iff.1 he
    split_ifs with hji
    · rfl
    · have hne : i ∉ j :: l := fun hm => (List.mem_cons.1 hm).elim (fun h => hji h.symm) hi
      exact h.resolve_left hne e' he'

theorem clearEntries_stuck (hn : 2 ^ 16 ≤ s.nEntries.toNat) :
    ∃ t, (clearEntries fuel).run s = .error .outOfFuel t :=
  loop_stuck hn (fun _ _ => ⟨_, rfl⟩) fuel _ s

/-! ## `mmap_get` -/

theorem alloc_length {n : ℕ} (hn : n < 2 ^ 16) :
    ((List.range ((sizeofMmapEntry * BitVec.ofNat 64 n).toNat / 48)).map memory).length = n := by
  have hmul : (sizeofMmapEntry * BitVec.ofNat 64 n).toNat = 48 * n := by
    rw [BitVec.toNat_mul, BitVec.toNat_ofNat, Nat.mod_eq_of_lt (by omega : n < 2 ^ 64)]
    exact Nat.mod_eq_of_lt (by change 48 * _ < _; omega)
  rw [List.length_map, List.length_range, hmul, Nat.mul_div_cancel_left _ (by omega)]

theorem mmapGet_does (fuel : ℕ) (memory : ℕ → MmapEntry) (s : Filling) (h : HasTables elf c)
    (hn : c.mmap.length < 2 ^ 16) :
    ∃ old, old.length = c.mmap.length ∧ Does fuel (mmapGet elf fuel true memory) s true
      (filled { s with nEntries := BitVec.ofNat 64 c.mmap.length } old c.mmap) := by
  let array : Filling := { counted s c.mmap with entries := (List.range
    ((sizeofMmapEntry * BitVec.ofNat 64 c.mmap.length).toNat / 48)).map memory }
  have hcount : array.nEntries.toNat < 2 ^ 16 := by
    change c.mmap.length % 2 ^ 64 < 2 ^ 16
    omega
  have hclear := clearEntries_does fuel hcount
  have hold : (cleared array (List.range array.nEntries.toNat)).entries.length = c.mmap.length :=
    (cleared_length _ array).trans (alloc_length hn)
  refine ⟨_, hold, gives_bind (countMmap_does h) ?_⟩
  rw [if_pos rfl]
  exact gives_bind (a := ()) (t := array) (gives_of_run rfl) (gives_bind hclear
    (gives_bind (fillMmap_does (by omega) h hold rfl) gives_pure))

theorem mmapGet_stuck (fuel : ℕ) (memory : ℕ → MmapEntry) (s : Filling) (h : HasTables elf c)
    (hn : 2 ^ 16 ≤ c.mmap.length) :
    ∃ t, (mmapGet elf fuel true memory).run s = .error .outOfFuel t := by
  have hlt := mmap_length_lt h
  refine stuck_bind (countMmap_does h) ?_
  rw [if_pos rfl]
  refine stuck_bind (gives_of_run rfl : Gives _ True _ _ () _) (bind_stuck (clearEntries_stuck ?_))
  change 2 ^ 16 ≤ c.mmap.length % 2 ^ 64
  omega

theorem mmapGet_alloc (h : HasTables elf c)
    (hr : (mmapGet elf fuel alloc memory).run s = .ok true t) : alloc = true := by
  by_contra ha
  have hfalse : Does fuel (mmapGet elf fuel alloc memory) s false (counted s c.mmap) := by
    refine gives_bind (countMmap_does h) ?_
    rw [if_neg ha]
    exact gives_pure
  exact absurd (gives_unique hfalse hr).1 (by simp)

theorem mmap_type {entry : MmapEntry} (he : entry ∈ c.mmap) : entry.type ≠ .none := by
  simp only [Contents.mmap, List.mem_append, List.mem_map, List.mem_flatMap] at he
  rcases he with ((⟨_, _, rfl⟩ | ⟨_, _, rfl⟩) | ⟨_, _, _, _, rfl⟩) | ⟨_, _, _, _, rfl⟩ <;>
    exact MmapEntryType.noConfusion

/-- A counter of 16 bits does not reach every number of entries. -/
theorem mmapGet_ends_iff (h : HasTables elf c) :
    (∃ fuel, ∀ t, (mmapGet elf fuel true memory).run s ≠ .error .outOfFuel t) ↔
      c.mmap.length < 2 ^ 16 := by
  constructor
  · rintro ⟨fuel, hf⟩
    by_contra hn
    obtain ⟨t, ht⟩ := mmapGet_stuck fuel memory s h (by omega)
    exact hf t ht
  · intro hn
    obtain ⟨old, -, hrun⟩ := mmapGet_does (2 ^ 64) memory s h hn
    refine ⟨2 ^ 64, fun t ht => ?_⟩
    rw [gives_run hrun le_rfl] at ht
    cases ht

/-- An array that is returned has been filled entry by entry. -/
theorem mmapGet_fills (h : HasTables elf c)
    (hr : (mmapGet elf fuel alloc memory).run s = .ok true t) :
    t.written.reverse = s.written.reverse ++ (List.range t.nEntries.toNat).map (BitVec.ofNat 64) ∧
      t.nEntries.toNat = t.entries.length ∧ t.entries = c.mmap ∧
      ∀ entry ∈ t.entries, entry.type ≠ .none := by
  obtain rfl := mmapGet_alloc h hr
  have hn : c.mmap.length < 2 ^ 16 := by
    by_contra hn
    obtain ⟨u, hu⟩ := mmapGet_stuck fuel memory s h (by omega)
    rw [hu] at hr
    cases hr
  obtain ⟨old, hold, hrun⟩ := mmapGet_does fuel memory s h hn
  obtain ⟨-, rfl⟩ := gives_unique hrun hr
  have hlen : (BitVec.ofNat 64 c.mmap.length).toNat = c.mmap.length :=
    Nat.mod_eq_of_lt (mmap_length_lt h)
  have hentries : c.mmap ++ old.drop c.mmap.length = c.mmap := by
    rw [← hold, List.drop_length, List.append_nil]
  refine ⟨?_, ?_, hentries, fun entry he => mmap_type (c := c) (hentries ▸ he)⟩
  · change (((List.range c.mmap.length).map (BitVec.ofNat 64)).reverse ++ s.written).reverse =
      s.written.reverse ++ (List.range (BitVec.ofNat 64 c.mmap.length).toNat).map (BitVec.ofNat 64)
    rw [hlen, List.reverse_append, List.reverse_reverse]
  · exact hlen.trans (congrArg List.length hentries).symm

theorem arrayOf_elem {α : Type} {l : List α} {a : α} {i : ℕ} (hi : i < l.length) :
    (some (arrayOf l a)).map (·.elem i) = l[i]? := by
  simp [arrayOf, List.getElem?_eq_getElem hi]

theorem symbols_hasTables (n : Elf64Word) :
    HasTables (symbolsFile n) (symbolsContents n.toNat) where
  header := ⟨_, rfl, rfl, rfl⟩
  programHeaders _ hi := arrayOf_elem hi
  sections _ hi := arrayOf_elem hi
  nSymbolTables := rfl
  symbolTables
    | 0, symbols, h => by
      obtain rfl : List.replicate n.toNat _ = symbols := Option.some.inj h
      refine ⟨_, rfl, _, rfl, List.length_replicate.symm, fun j hj => ?_⟩
      rw [List.getElem?_replicate_of_lt (hj.trans_eq List.length_replicate)]
      rfl
    | _ + 1, _, h => by simp [symbolsContents] at h
  nRelTables := rfl
  relTables
    | 0, relocations, h => by
      obtain rfl : _ = relocations := Option.some.inj h
      exact ⟨_, rfl, _, rfl, rfl, fun | 0, _ => rfl, 3, rfl, _, rfl, Nat.one_pos, rfl, by simp⟩
    | _ + 1, _, h => by simp [symbolsContents] at h
  memory := show 24 * 1 ≤ 2 ^ 64 by omega

theorem symbols_length (n : ℕ) : (symbolsContents n).mmap.length = n + 3 := by
  have hsections : (symbolsShdrs.filter (·.shFlags &&& 2 ≠ 0)).length = 1 := by decide
  rw [mmap_length]
  simp only [symbolsContents, hsections, List.map_singleton, List.sum_singleton,
    List.length_replicate]
  change 1 + 1 + n + 1 = n + 3
  omega

/-- With 2^16 symbols, there is no end. -/
theorem mmapGet_endless : HasTables (symbolsFile 0x10000) (symbolsContents 0x10000) ∧
    ∀ fuel memory s, ∃ t, (mmapGet (symbolsFile 0x10000) fuel true memory).run s =
      .error .outOfFuel t := by
  refine ⟨symbols_hasTables 0x10000, fun fuel memory s =>
    mmapGet_stuck fuel memory s (symbols_hasTables 0x10000) ?_⟩
  rw [symbols_length]
  decide

theorem mmapGet_ends_some : ∃ fuel, ∀ t, (mmapGet (symbolsFile 2) fuel true fun _ =>
    ⟨7, 7, .none, .uninitialized⟩).run ⟨0, [], 0, []⟩ ≠ .error .outOfFuel t :=
  (mmapGet_ends_iff (symbols_hasTables 2)).2 (by decide)

theorem mmapGet_fills_some : ∃ t, (mmapGet (symbolsFile 2) 8 true fun _ =>
    ⟨7, 7, .none, .uninitialized⟩).run ⟨0, [], 0, []⟩ = .ok true t ∧
    t.entries = [⟨0x1000, 0x3000, .phdr, .phdr 1⟩, ⟨0x1000, 0x3000, .shdr, .section 1⟩,
      ⟨0x2000, 0x2008, .sym, .symbol 0 0⟩, ⟨0x2000, 0x2008, .sym, .symbol 0 0⟩,
      ⟨0x1008, 0x1008, .rel, .r 0 (some 0) 0⟩] :=
  have hr : (mmapGet (symbolsFile 2) 8 true fun _ => ⟨7, 7, .none, .uninitialized⟩).run
    ⟨0, [], 0, []⟩ = .ok true ⟨5, (symbolsContents 2).mmap, 5, [4, 3, 2, 1, 0]⟩ := by rfl
  ⟨_, hr, (mmapGet_fills (symbols_hasTables 2) hr).2.2.1.trans (by decide)⟩

/-! ## Where the entries come from -/

/-- Without a type, or an entry of one of the tables. -/
inductive Origin (elf : ElfFile) : MmapEntry → Prop
  | none {entry} (h : entry.type = .none) : Origin elf entry
  | phdr (i phdr) : Origin elf (phdrEntry i phdr)
  | shdr (shdr) : Origin elf (shdrEntry shdr)
  | sym (i symbol) : Origin elf (symEntry i symbol)
  | rel {i j table p} (symTable) (hi : i < elf.nRelTables.toNat)
    (ht : (elf.relTables.bind (·.entries[i]?)) = some table) (hj : j < table.nRelocations.toNat)
    (hp : table.relocations = some p) : Origin elf (relEntry i symTable j (p.elem j))

def Origins (elf : ElfFile) (s : Filling) : Prop := ∀ entry ∈ s.entries, Origin elf entry

theorem forLoop_keeps {P : Filling → Prop} {w start bound : ℕ} {body : ℕ → M Unit}
    (hbody : ∀ i < bound, Keeps (fun _ => False) P (body i)) :
    Keeps (fun _ => False) P (forLoop fuel w start bound body) :=
  loop_keeps (fun i hi => hbody i.toNat hi) fuel _

theorem deref_reads {α : Type} (o : Option α) :
    Reads (o = some ·) (deref o : M α) := by
  rintro s a t h
  cases o <;> cases h
  exact ⟨rfl, rfl⟩

theorem elem_keeps {P : Filling → Prop} {α : Type} (o : Option (Pointer α)) (i : ℕ) :
    Keeps (fun _ => False) P (do return (← deref o).elem i : M α) :=
  reads_bind (deref_reads o) fun _ _ => .pure _

theorem entry_reads {α β : Type} (o : Option α) (f : α → Option β) :
    Reads (o.bind f = some ·) (do deref (f (← deref o)) : M β) := by
  intro s b u h
  obtain ⟨a, t, ha, hb⟩ := run_bind_ok.1 h
  obtain ⟨rfl, rfl⟩ := deref_reads o s a t ha
  exact deref_reads (f a) _ b u hb

theorem put_keeps {entry : MmapEntry} (h : Origin elf entry) :
    Keeps (fun _ => False) (Origins elf) (put entry) := by
  refine keeps_of_ok fun s a t hrun hs entry' hmem => ?_
  cases hrun
  rcases List.mem_or_eq_of_mem_set hmem with hmem | rfl
  · exact hs entry' hmem
  · exact h

theorem fillPhdrs_keeps : Keeps (fun _ => False) (Origins elf) (fillPhdrs elf fuel) :=
  (elem_keeps _ _).bind fun _ => forLoop_keeps fun i _ =>
    (elem_keeps _ _).bind fun phdr => put_keeps (.phdr i phdr)

theorem fillSections_keeps : Keeps (fun _ => False) (Origins elf) (fillSections elf fuel) := by
  refine (elem_keeps _ _).bind fun _ => forLoop_keeps fun i _ =>
    (elem_keeps _ _).bind fun shdr => ?_
  split_ifs
  · exact put_keeps (.shdr shdr)
  · exact .pure _

theorem fillSymbols_keeps : Keeps (fun _ => False) (Origins elf) (fillSymbols elf fuel) :=
  forLoop_keeps fun i _ => reads_bind (entry_reads elf.symbolTables (·.entries[i]?)) fun _ _ =>
    forLoop_keeps fun _ _ => reads_bind (deref_reads _) fun _ _ => put_keeps (.sym i _)

theorem fillRelocations_keeps : Keeps (fun _ => False) (Origins elf) (fillRelocations elf fuel) :=
  forLoop_keeps fun i hi => reads_bind (entry_reads elf.relTables (·.entries[i]?)) fun _ ht =>
    reads_bind (deref_reads _) fun k _ => (elem_keeps elf.sections k).bind fun _ =>
      forLoop_keeps fun _ hj => reads_bind (deref_reads _) fun _ hp =>
        put_keeps (.rel _ hi ht hj hp)

theorem clearEntries_ends (hr : (clearEntries fuel).run s = .ok () t) :
    s.nEntries.toNat < 2 ^ 16 := by
  by_contra hn
  obtain ⟨u, hu⟩ := @clearEntries_stuck fuel s (by omega)
  rw [hu] at hr
  cases hr

theorem clearEntries_type (hlen : s.entries.length = s.nEntries.toNat)
    (hr : (clearEntries fuel).run s = .ok () t) : ∀ entry ∈ t.entries, entry.type = .none := by
  obtain ⟨-, rfl⟩ := gives_unique (clearEntries_does fuel (clearEntries_ends hr)) hr
  intro entry hmem
  obtain ⟨i, hi, rfl⟩ := List.getElem_of_mem hmem
  refine cleared_type (List.getElem?_eq_getElem hi) (.inl (List.mem_range.2 ?_))
  rwa [cleared_length, hlen] at hi

theorem fillMmap_keeps : Keeps (fun _ => False) (Origins elf) (fillMmap elf fuel) := by
  refine Keeps.bind (keeps_of_ok fun s a t hr hs => ?_) fun _ => fillPhdrs_keeps.bind fun _ =>
    fillSections_keeps.bind fun _ => fillSymbols_keeps.bind fun _ => fillRelocations_keeps
  cases hr
  exact hs

/-- Whatever is in the tables, there is nothing else in an array that is returned. -/
theorem mmapGet_origins (hr : (mmapGet elf fuel alloc memory).run s = .ok true t) :
    Origins elf t := by
  obtain ⟨-, counted, -, hr⟩ := run_bind_ok.1 hr
  split_ifs at hr with ha
  · obtain ⟨_, array, harray, hr⟩ := run_bind_ok.1 hr
    obtain ⟨_, cleared, hclear, hr⟩ := run_bind_ok.1 hr
    obtain ⟨_, t', hfill, hr⟩ := run_bind_ok.1 hr
    obtain rfl : t' = t := by
      cases hr
      rfl
    refine fillMmap_keeps.ok hfill fun entry hmem => .none ?_
    refine clearEntries_type ?_ hclear entry hmem
    have hn := clearEntries_ends hclear
    cases harray
    have hlen := @alloc_length memory _ hn
    rwa [BitVec.ofNat_toNat, BitVec.setWidth_eq] at hlen
  · cases hr

/-! ## `mmap_sort` -/

instance : Std.Total Before := ⟨fun a b => by unfold Before; bv_omega⟩

instance : IsTrans MmapEntry Before := ⟨fun a b c => by unfold Before; bv_omega⟩

/-- What is behind the array is neither read nor written. -/
theorem mmapSort_stable (entries : List MmapEntry) (n : U64) (hn : n.toNat = entries.length) :
    ∃ sorted, (∀ rest, mmapSort (entries ++ rest) n = some (sorted ++ rest)) ∧
      sorted.Perm entries ∧ sorted.Pairwise (·.addr ≤ ·.addr) ∧
      ∀ addr, sorted.filter (·.addr = addr) = entries.filter (·.addr = addr) := by
  refine ⟨InsertionSort.sorted Before entries, fun rest => ?_, InsertionSort.sorted_perm entries,
    ?_, fun addr => InsertionSort.sorted_stable (fun a b ha hb => ?_) entries⟩
  · rw [mmapSort, hn]
    exact InsertionSort.sort_eq entries rest
  · refine (InsertionSort.sorted_pairwise entries).imp fun h => ?_
    unfold Before at h
    bv_omega
  · rw [decide_eq_true_eq] at ha hb
    unfold Before
    bv_omega

theorem mmapSort_stable_three : ∃ sorted, mmapSort [⟨8, 8, .sym, .symbol 0 1⟩,
    ⟨4, 4, .sym, .symbol 0 2⟩, ⟨4, 4, .sym, .symbol 0 3⟩] 3 = some sorted ∧
    sorted.Pairwise (·.addr ≤ ·.addr) := by
  obtain ⟨sorted, hrun, -, hsorted, -⟩ := mmapSort_stable [⟨8, 8, .sym, .symbol 0 1⟩,
    ⟨4, 4, .sym, .symbol 0 2⟩, ⟨4, 4, .sym, .symbol 0 3⟩] 3 rfl
  exact ⟨sorted, by simpa using hrun [], hsorted⟩

end ElfMmap

end SctOs
