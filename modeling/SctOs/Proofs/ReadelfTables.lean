import SctOs.Proofs.ReadelfRun

/-!
# The symbol tables and the relocations

The loops that fill the tables take their steps in the order of the sections
(`fillSymbolTables_spec`, `fillRelTables_spec`). When one fails, what the entries own is freed, and
the `elf_file` is as it was before the loop (`readSymbolTables_spec`, `readRelocations_spec`).
-/

namespace SctOs

open Ledger

namespace Readelf

variable {env : Env} {w : World}

/-! ## Each that is reached -/

/-- `p` of each of `is` that is reached, where each takes its `steps`, and `p` is needed after
`need` of them. -/
def Each (env : Env) (steps need : ℕ → List Step) (p : ℕ → Prop) (is : List ℕ) (c : Counts) :
    Prop :=
  ∀ before i rest, is = before ++ i :: rest →
    (env.after (before.flatMap steps ++ need i) c).isSome → p i

theorem each_nil {steps need : ℕ → List Step} {p : ℕ → Prop} {c : Counts} :
    Each env steps need p [] c := by
  intro before i rest h
  simp at h

theorem each_cons {steps need : ℕ → List Step} {p : ℕ → Prop} {i : ℕ} {is : List ℕ} {c : Counts} :
    Each env steps need p (i :: is) c ↔ ((env.after (need i) c).isSome → p i)
      ∧ ∀ c', env.after (steps i) c = some c' → Each env steps need p is c' := by
  constructor
  · refine fun h => ⟨h [] i is rfl, fun c' hc before j rest he hs => ?_⟩
    refine h (i :: before) j rest (by rw [he]; rfl) ?_
    rw [List.flatMap_cons, List.append_assoc, Env.after_append, hc]
    exact hs
  · rintro ⟨hi, his⟩ before j rest he hs
    rcases before with - | ⟨k, before⟩
    · obtain ⟨rfl, rfl⟩ := List.cons.inj he
      exact hi hs
    · obtain ⟨rfl, rfl⟩ := List.cons.inj he
      rw [List.flatMap_cons, List.append_assoc, Env.after_append] at hs
      rcases hc : env.after (steps i) c with - | c'
      · rw [hc] at hs
        cases hs
      · rw [hc] at hs
        exact his c' hc before j rest rfl hs

/-! ## Tables -/

def ElfSymbolTable.owned (t : ElfSymbolTable) : List ℕ :=
  (t.symbols.map Pointer.ptr).toList ++ (t.names.map Pointer.ptr).toList

def ElfRelTable.owned (t : ElfRelTable) : List ℕ := (t.relocations.map Pointer.ptr).toList

theorem freeSymbolTable_run (t : ElfSymbolTable) (w : World) :
    (freeSymbolTable t).run w = .ok () (w.free t.owned) := by
  rw [freeSymbolTable, bind_ok (elfFree_run _ w), elfFree_run, ElfSymbolTable.owned,
    World.free_append]

theorem freeRelTable_run (t : ElfRelTable) (w : World) :
    (freeRelTable t).run w = .ok () (w.free t.owned) := elfFree_run _ w

/-- The array and all that its entries own are freed. -/
theorem freeTable_run {α : Type} {free : α → M Unit} {owned : α → List ℕ}
    (h : ∀ a w, (free a).run w = .ok () (w.free (owned a))) {n : Elf64Half} {t : Table α}
    (hn : n.toNat = t.entries.length) (w : World) :
    (freeTable free n (some t)).run w = .ok () (w.free (t.entries.flatMap owned ++ [t.ptr])) := by
  rw [freeTable, hn, List.take_length, bind_ok (forM_free h _ w), elfFree_run, World.free_append]
  rfl

theorem modify_done {α : Type} (f : α → α) (t : α) (rest : List α) :
    ∀ done : List α, (done ++ t :: rest).modify done.length f = done ++ f t :: rest
  | [] => rfl
  | a :: done => congrArg (a :: ·) (modify_done f t rest done)

def ElfFile.withSymbols (elf : ElfFile) (ptr : ℕ) (entries : List ElfSymbolTable) : ElfFile :=
  { elf with symbolTables := some ⟨ptr, entries⟩ }

def ElfFile.withRels (elf : ElfFile) (ptr : ℕ) (entries : List ElfRelTable) : ElfFile :=
  { elf with relTables := some ⟨ptr, entries⟩ }

theorem modifyElf_run (f : ElfFile → ElfFile) (w : World) :
    (modifyElf f).run w = .ok () { w with elf := f w.elf } := rfl

theorem modifyElf_of {elf : ElfFile} {w : World} (h : w.elf = elf) (f : ElfFile → ElfFile) :
    (modifyElf f).run w = .ok () { w with elf := f elf } := by
  rw [← h, modifyElf_run]

theorem updateSymbolTable_spec {steps : List Step} {w w₁ : World} {elf : ElfFile} {ptr : ℕ}
    {done rest : List ElfSymbolTable} {t : ElfSymbolTable} {new : List ℕ}
    {out : List (Headers × ℕ)}
    (h : Took env steps w w₁ (elf.withSymbols ptr (done ++ t :: rest)) new out)
    (f : ElfSymbolTable → ElfSymbolTable) :
    ∃ w₂, (updateSymbolTable done.length f).run w₁ = .ok () w₂
      ∧ Took env steps w w₂ (elf.withSymbols ptr (done ++ f t :: rest)) new out := by
  refine ⟨_, modifyElf_run _ w₁, h.counts, ?_, h.moved.owes, h.moved.outside⟩
  dsimp only
  rw [h.elf]
  simp only [ElfFile.withSymbols, Option.map_some, modify_done]

theorem updateRelTable_spec {steps : List Step} {w w₁ : World} {elf : ElfFile} {ptr : ℕ}
    {done rest : List ElfRelTable} {t : ElfRelTable} {new : List ℕ} {out : List (Headers × ℕ)}
    (h : Took env steps w w₁ (elf.withRels ptr (done ++ t :: rest)) new out)
    (f : ElfRelTable → ElfRelTable) :
    ∃ w₂, (updateRelTable done.length f).run w₁ = .ok () w₂
      ∧ Took env steps w w₂ (elf.withRels ptr (done ++ f t :: rest)) new out := by
  refine ⟨_, modifyElf_run _ w₁, h.counts, ?_, h.moved.owes, h.moved.outside⟩
  dsimp only
  rw [h.elf]
  simp only [ElfFile.withRels, Option.map_some, modify_done]

/-! ## Symbol tables -/

/-- The table of a section, as the file has it. -/
structure IsSymbolTable (env : Env) (i : ℕ) (t : ElfSymbolTable) : Prop where
  sectionIndex : t.sectionIndex = some i
  nSymbols : t.nSymbols = ((env.shdr i).shSize / BitVec.ofNat 64 (sizeof Elf64Sym)).setWidth 32
  symbols : ∃ ptr, t.symbols = some (env.sectionData Elf64Sym i ptr)
  names : ∃ ptr, t.names = some (env.sectionData (BitVec 8) (env.shdr i).names ptr)

/-- The indices that are used outside the sections are those of the names. -/
structure LinkUse (env : Env) (is : List ℕ) (c : Counts) (out : List (Headers × ℕ)) : Prop where
  nil : out = [] ↔ Each env env.symbolSteps env.sectionSteps
    (fun i => (env.shdr i).names < env.ehdr.eShnum.toNat) is c
  mem : ∀ x ∈ out, ∃ i ∈ is, x = (.sections, (env.shdr i).names)

theorem outsideSections_nil {i : ℕ} :
    outsideSections env i = [] ↔ i < env.ehdr.eShnum.toNat := by
  unfold outsideSections
  split_ifs with h <;> simp [h]

theorem mem_outsideSections {i : ℕ} {x : Headers × ℕ} (h : x ∈ outsideSections env i) :
    x = (.sections, i) := by
  unfold outsideSections at h
  split_ifs at h
  · cases h
  · exact List.mem_singleton.1 h

theorem LinkUse.symbols {i : ℕ} {is : List ℕ} {c : Counts}
    (h : env.after (env.sectionSteps i) c = none) : LinkUse env (i :: is) c [] := by
  refine ⟨⟨fun _ => each_cons.2 ⟨fun hs => ?_, fun c' hc => ?_⟩, fun _ => rfl⟩, by simp⟩
  · rw [h] at hs
    cases hs
  · rw [Env.symbolSteps, Env.after_append, h] at hc
    cases hc

theorem LinkUse.names {i : ℕ} {is : List ℕ} {c c' : Counts}
    (h : env.after (env.sectionSteps i) c = some c')
    (h' : env.after (env.sectionSteps (env.shdr i).names) c' = none) :
    LinkUse env (i :: is) c (outsideSections env (env.shdr i).names) := by
  refine ⟨?_, fun x hx => ⟨i, List.mem_cons_self .., mem_outsideSections hx⟩⟩
  rw [outsideSections_nil, each_cons, h]
  refine ⟨fun hi => ⟨fun _ => hi, fun c'' hc => ?_⟩, fun hi => hi.1 rfl⟩
  rw [Env.symbolSteps, Env.after_append, h, Option.bind_some, h'] at hc
  cases hc

theorem LinkUse.cons {i : ℕ} {is : List ℕ} {c c' c'' : Counts} {out : List (Headers × ℕ)}
    (h : env.after (env.sectionSteps i) c = some c')
    (h' : env.after (env.sectionSteps (env.shdr i).names) c' = some c'')
    (hl : LinkUse env is c'' out) :
    LinkUse env (i :: is) c (out ++ outsideSections env (env.shdr i).names) := by
  have hs : env.after (env.symbolSteps i) c = some c'' := by
    rw [Env.symbolSteps, Env.after_append, h, Option.bind_some, h']
  refine ⟨?_, fun x hx => ?_⟩
  · rw [List.append_eq_nil_iff, hl.nil, outsideSections_nil, each_cons, h, hs]
    simp only [Option.isSome_some, forall_const, Option.some.injEq, forall_eq', and_comm]
  · rcases List.mem_append.1 hx with hx | hx
    · obtain ⟨j, hj, he⟩ := hl.mem x hx
      exact ⟨j, List.mem_cons_of_mem _ hj, he⟩
    · exact ⟨i, List.mem_cons_self .., mem_outsideSections hx⟩

theorem HasHeaders.withSymbols {elf : ElfFile} (h : HasHeaders env elf) (ptr : ℕ)
    (entries : List ElfSymbolTable) : HasHeaders env (elf.withSymbols ptr entries) :=
  ⟨h.header, h.programHeaders, h.sections⟩

theorem HasHeaders.withRels {elf : ElfFile} (h : HasHeaders env elf) (ptr : ℕ)
    (entries : List ElfRelTable) : HasHeaders env (elf.withRels ptr entries) :=
  ⟨h.header, h.programHeaders, h.sections⟩

/-- The symbol tables among the sections. -/
def symbolsOf (env : Env) (is : List ℕ) : List ℕ :=
  is.filter fun i => isSymbolTable (env.shdr i).shType

/-- The relocations among the sections. -/
def relsOf (env : Env) (is : List ℕ) : List ℕ := is.filter fun i => isRelTable (env.shdr i).shType

theorem Ran.perm {steps : List Step} {w w' : World} {counts : Option Counts} {elf : ElfFile}
    {new new' : List ℕ} {out : List (Headers × ℕ)} (h : Ran env steps w w' counts elf new out)
    (hp : new.Perm new') : Ran env steps w w' counts elf new' out :=
  ⟨h.counts, h.elf, fun ptrs hw => (h.moved.owes ptrs hw).perm (hp.append_right ptrs),
    h.moved.outside⟩

/-- Entries with NULL members own nothing. -/
theorem owned_replicate {α : Type} {owned : α → List ℕ} {t : α} (h : owned t = []) (n : ℕ) :
    (List.replicate n t).flatMap owned = [] := by
  rw [List.flatMap_eq_nil_iff]
  intro t' ht
  rw [List.eq_of_mem_replicate ht, h]

/-- One entry takes the steps of its section, or keeps what it has read. -/
theorem fillSymbolTable_spec {elf : ElfFile} (h : HasHeaders env elf) {ptr i : ℕ}
    {done rest : List ElfSymbolTable} {w : World} (hi : i < env.ehdr.eShnum.toNat)
    (hw : w.elf = elf.withSymbols ptr (done ++ ⟨none, 0, none, none⟩ :: rest)) :
    (∃ t w', (fillSymbolTable env done.length i (env.shdr i)).run w = .ok () w'
      ∧ Took env (env.symbolSteps i) w w' (elf.withSymbols ptr (done ++ t :: rest)) t.owned
        (outsideSections env (env.shdr i).names)
      ∧ IsSymbolTable env i t
      ∧ ∀ is out, LinkUse env is w'.counts out →
        LinkUse env (i :: is) w.counts (out ++ outsideSections env (env.shdr i).names))
    ∨ ∃ t out w', (fillSymbolTable env done.length i (env.shdr i)).run w = .error .error w'
      ∧ Failed env (env.symbolSteps i) w w' (elf.withSymbols ptr (done ++ t :: rest)) t.owned out
      ∧ ∀ is, LinkUse env (i :: is) w.counts out := by
  unfold fillSymbolTable
  obtain ⟨n, hn⟩ : ∃ n : Elf64Word, n
    = ((env.shdr i).shSize / BitVec.ofNat 64 (sizeof Elf64Sym)).setWidth 32 := ⟨_, rfl⟩
  rw [← hn]
  have t₀ := Ran.refl env w
  rw [hw] at t₀
  obtain ⟨w₁, h₁, t₁⟩ := updateSymbolTable_spec t₀ fun t => { t with
    sectionIndex := some i
    nSymbols := n }
  rw [bind_ok h₁]
  have hh₁ : HasHeaders env w₁.elf := by
    rw [t₁.elf]
    exact h.withSymbols _ _
  have hout : outsideSections env i = [] := outsideSections_nil.2 hi
  obtain ⟨p, w₂, h₂, t₂⟩ | ⟨w₂, h₂, t₂⟩ := hh₁.readSectionData_spec Elf64Sym i
  swap
  · rw [t₁.elf, hout] at t₂
    exact .inr ⟨⟨some i, n, none, none⟩, [], w₂, bind_error h₂,
      (t₁.trans t₂).stop (env.sectionSteps (env.shdr i).names),
      fun is => LinkUse.symbols (t₁.trans t₂).counts⟩
  rw [t₁.elf, hout] at t₂
  obtain ⟨w₃, h₃, t₃⟩ := updateSymbolTable_spec (t₁.trans t₂) fun t => { t with
    symbols := some (env.sectionData Elf64Sym i p) }
  have hc : env.after (env.sectionSteps i) w.counts = some w₃.counts := t₃.counts
  rw [bind_ok h₂, bind_ok h₃]
  have hh₃ : HasHeaders env w₃.elf := by
    rw [t₃.elf]
    exact h.withSymbols _ _
  obtain ⟨q, w₄, h₄, t₄⟩ | ⟨w₄, h₄, t₄⟩ :=
    hh₃.readSectionData_spec (BitVec 8) (env.shdr i).names
  swap
  · rw [t₃.elf] at t₄
    have t₅ := t₃.trans t₄
    simp only [List.append_nil] at t₅
    exact .inr ⟨⟨some i, n, some (env.sectionData Elf64Sym i p), none⟩, _, w₄, bind_error h₄, t₅,
      fun is => LinkUse.names hc t₄.counts⟩
  rw [t₃.elf] at t₄
  obtain ⟨w₅, h₅, t₅⟩ := updateSymbolTable_spec (t₃.trans t₄) fun t => { t with
    names := some (env.sectionData (BitVec 8) (env.shdr i).names q) }
  have hc' : env.after (env.sectionSteps (env.shdr i).names) w₃.counts = some w₅.counts := by
    have := t₅.counts
    rwa [Env.after_append, List.nil_append, hc, Option.bind_some] at this
  simp only [List.append_nil] at t₅
  refine .inl ⟨⟨some i, n, some (env.sectionData Elf64Sym i p),
    some (env.sectionData (BitVec 8) (env.shdr i).names q)⟩, w₅, ?_, t₅.perm ?_,
    ⟨rfl, hn, ⟨p, rfl⟩, ⟨q, rfl⟩⟩, fun is out hl => hl.cons hc hc'⟩
  · exact (bind_ok h₄).trans h₅
  · exact List.Perm.swap p q []

theorem fillSymbolTables_spec {elf : ElfFile} (h : HasHeaders env elf) (ptr : ℕ) :
    ∀ (is : List ℕ) (done : List ElfSymbolTable) {w : World},
      (∀ i ∈ is, i < env.ehdr.eShnum.toNat) → w.elf = elf.withSymbols ptr
        (done ++ List.replicate (symbolsOf env is).length ⟨none, 0, none, none⟩) →
      (∃ tables out w', (fillSymbolTables env done.length is).run w = .ok () w'
        ∧ Took env ((symbolsOf env is).flatMap env.symbolSteps) w w'
          (elf.withSymbols ptr (done ++ tables)) (tables.flatMap ElfSymbolTable.owned) out
        ∧ List.Forall₂ (IsSymbolTable env) (symbolsOf env is) tables
        ∧ LinkUse env (symbolsOf env is) w.counts out)
      ∨ ∃ tables out w', (fillSymbolTables env done.length is).run w = .error .error w'
        ∧ Failed env ((symbolsOf env is).flatMap env.symbolSteps) w w'
          (elf.withSymbols ptr (done ++ tables)) (tables.flatMap ElfSymbolTable.owned) out
        ∧ tables.length = (symbolsOf env is).length
        ∧ LinkUse env (symbolsOf env is) w.counts out
  | [], done, w, _, hw => by
    have t := Ran.refl env w
    rw [hw] at t
    exact .inl ⟨[], [], w, rfl, t, List.Forall₂.nil, ⟨fun _ => each_nil, fun _ => rfl⟩, by simp⟩
  | i :: is, done, w, his, hw => by
    obtain ⟨hi, his⟩ := List.forall_mem_cons.1 his
    have hh : HasHeaders env w.elf := by
      rw [hw]
      exact h.withSymbols _ _
    rw [fillSymbolTables, bind_ok (hh.sectionAt_inside hi)]
    rcases hp : isSymbolTable (env.shdr i).shType
    · have hs : symbolsOf env (i :: is) = symbolsOf env is := List.filter_cons_of_neg (by simp [hp])
      rw [if_neg (by simp), hs]
      rw [hs] at hw
      exact fillSymbolTables_spec h ptr is done his hw
    rw [if_pos rfl]
    have hs : symbolsOf env (i :: is) = i :: symbolsOf env is := List.filter_cons_of_pos hp
    rw [hs, List.length_cons, List.replicate_succ] at hw
    rw [hs, List.flatMap_cons, List.length_cons]
    obtain ⟨t, w₁, h₁, t₁, ht, hl₁⟩ | ⟨t, out, w₁, h₁, t₁, hl₁⟩ := fillSymbolTable_spec h hi hw
    swap
    · refine .inr ⟨t :: List.replicate (symbolsOf env is).length ⟨none, 0, none, none⟩, out, w₁,
        bind_error h₁, ?_, by simp, hl₁ _⟩
      rw [List.flatMap_cons, owned_replicate rfl, List.append_nil]
      exact t₁.stop _
    have ih := fillSymbolTables_spec h ptr is (done ++ [t]) (w := w₁) his
      (by rw [t₁.elf, List.append_assoc]; rfl)
    simp only [List.length_append, List.length_singleton, List.append_assoc,
      List.singleton_append] at ih
    rw [bind_ok h₁]
    obtain ⟨tables, out, w₂, h₂, t₂, hf, hl⟩ | ⟨tables, out, w₂, h₂, t₂, hlen, hl⟩ := ih
    · exact .inl ⟨t :: tables, _, w₂, h₂, (t₁.trans t₂).perm List.perm_append_comm,
        List.Forall₂.cons ht hf, hl₁ _ _ hl⟩
    · exact .inr ⟨t :: tables, _, w₂, h₂, (t₁.trans t₂).perm List.perm_append_comm,
        congrArg (· + 1) hlen, hl₁ _ _ hl⟩

/-! ## The array of symbol tables -/

theorem count_symbols (elf : ElfFile) : ∀ n : ℕ, ElfFile.countSymbolTable^[n] elf
    = { elf with nSymbolTables := elf.nSymbolTables + BitVec.ofNat 16 n }
  | 0 => by simp
  | n + 1 => by
    rw [Function.iterate_succ_apply', count_symbols elf n, ElfFile.countSymbolTable,
      BitVec.ofNat_add, ← BitVec.add_assoc]
    rfl

/-- There are fewer sections than a counter can count. -/
theorem sections_length {p : ℕ → Bool} (ehdr : Elf64Ehdr) :
    (BitVec.ofNat 16 ((sectionIndices ehdr).filter p).length).toNat
      = ((sectionIndices ehdr).filter p).length := by
  have hle := List.length_filter_le p (sectionIndices ehdr)
  have hlt := ehdr.eShnum.isLt
  unfold sectionIndices at hle ⊢
  rw [List.length_range'] at hle
  rw [BitVec.toNat_ofNat, Nat.mod_eq_of_lt (by omega)]

theorem countSymbols_run (h : HasHeaders env w.elf) (hn : w.elf.nSymbolTables = 0) :
    (countSections isSymbolTable ElfFile.countSymbolTable (sectionIndices env.ehdr)).run w
      = .ok () { w with
        elf := { w.elf with nSymbolTables := BitVec.ofNat 16 env.symbolIndices.length } } := by
  have hc := countSections_run (p := isSymbolTable) (c := ElfFile.countSymbolTable)
    (fun elf he => ⟨he.header, he.programHeaders, he.sections⟩) h fun i hi => sectionIndices_lt hi
  rw [hc, count_symbols, hn, symbolIndices_filter]
  exact congrArg (fun n => EStateM.Result.ok () { w with elf := { w.elf with nSymbolTables := n } })
    (BitVec.zero_add _)

theorem symbolsOf_indices : symbolsOf env (sectionIndices env.ehdr) = env.symbolIndices :=
  symbolIndices_filter.symm

/-- The indices that are used outside the sections, when the tables are still to be read. -/
structure NamesUse (env : Env) (c : Counts) (out : List (Headers × ℕ)) : Prop where
  nil : out = [] ↔ ∀ before i rest, env.symbolIndices = before ++ i :: rest →
    (env.after (env.symbolTableSteps before ++ env.sectionSteps i) c).isSome →
      (env.shdr i).names < env.ehdr.eShnum.toNat
  mem : ∀ x ∈ out, ∃ i ∈ env.symbolIndices, x = (.sections, (env.shdr i).names)

theorem after_alloc_none {c : Counts} (h : env.after [.alloc] c = none) (steps : List Step) :
    env.after (.alloc :: steps) c = none := by
  rw [← List.singleton_append, Env.after_append, h]
  rfl

theorem after_alloc_some {c c' : Counts} (h : env.after [.alloc] c = some c')
    (steps : List Step) : env.after (.alloc :: steps) c = env.after steps c' := by
  rw [← List.singleton_append, Env.after_append, h]
  rfl

theorem NamesUse.none {c : Counts} (h : env.after [.alloc] c = none) : NamesUse env c [] := by
  refine ⟨⟨fun _ before i rest _ hs => ?_, fun _ => rfl⟩, by simp⟩
  rw [Env.symbolTableSteps, List.cons_append, after_alloc_none h] at hs
  cases hs

theorem LinkUse.namesUse {c c' : Counts} {out : List (Headers × ℕ)}
    (h : env.after [.alloc] c = some c') (hl : LinkUse env env.symbolIndices c' out) :
    NamesUse env c out := by
  refine ⟨hl.nil.trans ?_, hl.mem⟩
  simp only [Each, Env.symbolTableSteps, List.cons_append, after_alloc_some h]

theorem freeSymbolTables_run {steps : List Step} {w w₁ : World} {elf : ElfFile} {n : Elf64Half}
    {ptr : ℕ} {tables : List ElfSymbolTable} {out : List (Headers × ℕ)}
    (h : Failed env steps w w₁ ({ elf with nSymbolTables := n }.withSymbols ptr tables)
      (tables.flatMap ElfSymbolTable.owned ++ [ptr]) out)
    (hn : n.toNat = tables.length) (he : elf.nSymbolTables = 0) (ht : elf.symbolTables = none) :
    ∃ w₂, freeSymbolTables.run w₁ = .ok () w₂ ∧ Failed env steps w w₂ elf [] out := by
  have hreset : { elf with nSymbolTables := 0, symbolTables := none } = elf := by rw [← he, ← ht]
  refine ⟨{ w₁.free (tables.flatMap ElfSymbolTable.owned ++ [ptr]) with elf := elf }, ?_, h.counts,
    rfl, h.free.moved.owes, h.free.moved.outside⟩
  rw [freeSymbolTables, get_bind]
  dsimp only
  rw [h.elf]
  dsimp only [ElfFile.withSymbols]
  rw [bind_ok (freeTable_run freeSymbolTable_run hn w₁), modifyElf_of h.free.elf]
  dsimp only [ElfFile.withSymbols]
  rw [hreset]

theorem freeSymbolTables_none (ht : w.elf.symbolTables = none) : freeSymbolTables.run w
    = .ok () { w with elf := { w.elf with symbolTables := none, nSymbolTables := 0 } } := by
  rw [freeSymbolTables, get_bind]
  dsimp only
  rw [ht]
  rfl

/-- An array is allocated and put into the `elf_file`, or nothing changes. -/
theorem allocTable_spec (env : Env) (w : World) (size : U64) (f : ℕ → ElfFile → ElfFile) :
    let alloc : M Unit := do
      match ← elfAlloc env size with
      | none => throw .error
      | some ptr => modifyElf (f ptr)
    (∃ ptr w', alloc.run w = .ok () w' ∧ Took env [.alloc] w w' (f ptr w.elf) [ptr] [])
    ∨ ∃ w', alloc.run w = .error .error w' ∧ Failed env [.alloc] w w' w.elf [] [] := by
  intro alloc
  obtain ⟨ptr, w₁, h₁, t₁⟩ | ⟨w₁, h₁, t₁⟩ := elfAlloc_spec env w size
  · exact .inl ⟨ptr, _, (bind_ok h₁).trans (modifyElf_run _ w₁), t₁.modifyElf (f ptr)⟩
  · exact .inr ⟨w₁, bind_ok h₁, t₁⟩

theorem allocSymbolTables_spec (env : Env) (w : World) :
    (∃ ptr w', (allocSymbolTables env).run w = .ok () w'
      ∧ Took env [.alloc] w w' (w.elf.withSymbols ptr
        (List.replicate w.elf.nSymbolTables.toNat ⟨none, 0, none, none⟩)) [ptr] [])
    ∨ ∃ w', (allocSymbolTables env).run w = .error .error w'
      ∧ Failed env [.alloc] w w' w.elf [] [] := by
  unfold allocSymbolTables
  rw [get_bind]
  exact allocTable_spec env w _ fun ptr elf => elf.withSymbols ptr _

/-- All the symbol tables are read, or none is left. -/
theorem readSymbolTables_spec (h : HasHeaders env w.elf) (hn : w.elf.nSymbolTables = 0)
    (ht : w.elf.symbolTables = none) :
    (∃ ptr tables out w', (readSymbolTables env).run w = .ok () w'
      ∧ Took env (env.symbolTableSteps env.symbolIndices) w w' ({ w.elf with
          nSymbolTables := BitVec.ofNat 16 env.symbolIndices.length }.withSymbols ptr tables)
        (tables.flatMap ElfSymbolTable.owned ++ [ptr]) out
      ∧ List.Forall₂ (IsSymbolTable env) env.symbolIndices tables
      ∧ NamesUse env w.counts out)
    ∨ ∃ out w', (readSymbolTables env).run w = .error .error w'
      ∧ Failed env (env.symbolTableSteps env.symbolIndices) w w' w.elf [] out
      ∧ NamesUse env w.counts out := by
  have hlen : (BitVec.ofNat 16 env.symbolIndices.length).toNat = env.symbolIndices.length := by
    rw [symbolIndices_filter]
    exact sections_length env.ehdr
  unfold readSymbolTables
  rw [bind_ok h.header_run]
  dsimp only
  rw [bind_ok (countSymbols_run h hn)]
  obtain ⟨elf, he⟩ : ∃ elf : ElfFile, elf
    = { w.elf with nSymbolTables := BitVec.ofNat 16 env.symbolIndices.length } := ⟨_, rfl⟩
  rw [← he]
  have hh : HasHeaders env elf := by
    rw [he]
    exact ⟨h.header, h.programHeaders, h.sections⟩
  have hn₀ : elf.nSymbolTables.toNat = env.symbolIndices.length := by rw [he, hlen]
  obtain ⟨ptr, w₁, h₁, t₁⟩ | ⟨w₁, h₁, t₁⟩ := allocSymbolTables_spec env { w with elf := elf }
  swap
  · have ht₁ : w₁.elf.symbolTables = none := by rw [t₁.elf, he, ht]
    refine .inr ⟨[], _, onError_error (bind_error h₁) (freeSymbolTables_none ht₁),
      ⟨after_alloc_none t₁.counts _, ?_, t₁.moved.owes, t₁.moved.outside⟩, NamesUse.none t₁.counts⟩
    dsimp only
    rw [t₁.elf, he, ← hn, ← ht]
  dsimp only at t₁
  rw [hn₀] at t₁
  have hfill := fillSymbolTables_spec hh ptr (sectionIndices env.ehdr) [] (w := w₁)
    (fun i hi => sectionIndices_lt hi)
  rw [symbolsOf_indices] at hfill
  specialize hfill t₁.elf
  obtain ⟨tables, out, w₂, h₂, t₂, hf, hl⟩ | ⟨tables, out, w₂, h₂, t₂, hlen', hl⟩ := hfill
  · have t₃ := t₁.trans t₂
    rw [List.append_nil] at t₃
    exact .inl ⟨ptr, tables, out, w₂, onError_ok ((bind_ok h₁).trans h₂),
      ⟨t₃.counts, t₃.elf, t₃.moved.owes, t₃.moved.outside⟩, hf, hl.namesUse t₁.counts⟩
  · have t₃ := t₁.trans t₂
    rw [List.append_nil, he] at t₃
    obtain ⟨w₃, h₃, t₄⟩ := freeSymbolTables_run t₃ (hlen.trans hlen'.symm) hn ht
    exact .inr ⟨out, w₃, onError_error ((bind_ok h₁).trans h₂) h₃,
      ⟨t₄.counts, t₄.elf, t₄.moved.owes, t₄.moved.outside⟩, hl.namesUse t₁.counts⟩

/-! ## Segments -/

/-- The contents of the first segment of a type, if there is one. -/
def IsSegment {α : Type} [CStruct α] (env : Env) (type : Elf64Word) (p : Option (Pointer α)) : Prop :=
  match env.firstPhdr type with
  | none => p = none
  | some i => ∃ ptr, p = some (env.phdrData α i ptr)

theorem firstPhdr_lt {type : Elf64Word} {i : ℕ} (h : env.firstPhdr type = some i) :
    i < env.ehdr.ePhnum.toNat := mem_phdrIndices.1 (List.mem_of_find?_eq_some h)

theorem HasHeaders.firstPhdr_eq (h : HasHeaders env w.elf) (type : Elf64Word) :
    (firstPhdr type (phdrIndices env.ehdr)).run w = .ok (env.firstPhdr type) w :=
  h.firstPhdr_run type fun _ hi => mem_phdrIndices.1 hi

theorem readInterpreter_spec (h : HasHeaders env w.elf) (hn : w.elf.interpreter = none) :
    (∃ p w', (readInterpreter env).run w = .ok () w'
      ∧ Took env (env.segmentSteps ptInterp) w w' { w.elf with interpreter := p }
        (p.map Pointer.ptr).toList []
      ∧ IsSegment env ptInterp p)
    ∨ ∃ w', (readInterpreter env).run w = .error .error w'
      ∧ Failed env (env.segmentSteps ptInterp) w w' w.elf [] [] := by
  unfold readInterpreter IsSegment Env.segmentSteps
  rw [bind_ok h.header_run, bind_ok (h.firstPhdr_eq ptInterp)]
  rcases hi : env.firstPhdr ptInterp with - | i
  · exact .inl ⟨none, w, rfl, ⟨rfl, by rw [← hn], fun _ hw => hw, rfl⟩, rfl⟩
  · dsimp only [Option.elim]
    obtain ⟨p, w₁, h₁, t₁⟩ | ⟨w₁, h₁, t₁⟩ := h.readPhdrData_spec (BitVec 8) (firstPhdr_lt hi)
    · rw [bind_ok h₁]
      exact .inl ⟨_, _, modifyElf_run _ w₁, t₁.modifyElf fun elf => { elf with
        interpreter := some (env.phdrData (BitVec 8) i p) }, p, rfl⟩
    · exact .inr ⟨w₁, bind_error h₁, t₁⟩

/-! ## The dynamic segment -/

/-- The place of the first dynamic symbol table. -/
def Env.dynsym (env : Env) : Option ℕ :=
  env.symbolIndices.findIdx? fun i => (env.shdr i).shType = shtDynsym

theorem firstDynsym_run (h : HasHeaders env w.elf) :
    ∀ {is : List ℕ} {tables : List ElfSymbolTable} (k : ℕ), (∀ i ∈ is, i < env.ehdr.eShnum.toNat) →
      List.Forall₂ (IsSymbolTable env) is tables → (firstDynsym k tables).run w
        = .ok ((is.findIdx? fun i => (env.shdr i).shType = shtDynsym).map (· + k)) w
  | [], [], _, _, _ => rfl
  | i :: is, t :: tables, k, hi, ht => by
    obtain ⟨hi, his⟩ := List.forall_mem_cons.1 hi
    obtain ⟨ht, hts⟩ := List.forall₂_cons.1 ht
    rw [firstDynsym, ht.sectionIndex, List.findIdx?_cons]
    change (sectionAt i >>= _).run w = _
    rw [bind_ok (h.sectionAt_inside hi)]
    by_cases hd : (env.shdr i).shType = shtDynsym
    · rw [if_pos hd, if_pos (by simpa using hd), Option.map_some, Nat.zero_add]
      rfl
    · rw [if_neg hd, if_neg (by simpa using hd), firstDynsym_run h (k + 1) his hts, Option.map_map]
      congr 2
      funext j
      exact Nat.add_right_comm j k 1

/-- The symbol table is noted, once the segment's contents are there. -/
theorem findDynsym_run (h : HasHeaders env w.elf) {ptr : ℕ} {tables : List ElfSymbolTable}
    (hs : w.elf.symbolTables = some ⟨ptr, tables⟩)
    (hn : w.elf.nSymbolTables.toNat = tables.length)
    (ht : List.Forall₂ (IsSymbolTable env) env.symbolIndices tables) :
    (do
      let elf := (← get).elf
      match ← firstDynsym 0 (← entries elf.nSymbolTables elf.symbolTables) with
      | some table => modifyElf fun elf => { elf with dynamic.symbolTable := some table }
      | none => if elf.dynamic.symbolTable = none then throw .error else return : M Unit).run w
      = match env.dynsym with
        | some j => .ok () { w with elf := { w.elf with dynamic.symbolTable := some j } }
        | none => if w.elf.dynamic.symbolTable = none then .error .error w else .ok () w := by
  have he : (entries w.elf.nSymbolTables w.elf.symbolTables).run w = .ok tables w := by
    rw [hs, entries, hn, List.take_length]
    rfl
  have hf := firstDynsym_run h 0 (fun i hi => sectionIndices_lt (List.mem_filter.1 hi).1) ht
  change _ = EStateM.Result.ok (env.dynsym.map id) w at hf
  rw [Option.map_id, id] at hf
  rw [get_bind, bind_ok he, bind_ok hf]
  rcases env.dynsym with - | j
  · dsimp only
    split_ifs <;> rfl
  · exact modifyElf_run _ w

/-- What an error frees, and what is kept. -/
theorem freeDynamic_run (w : World) :
    (do
      elfFree ((← get).elf.dynamic.dynamic.map Pointer.ptr)
      modifyElf fun elf => { elf with dynamic.symbolTable := none } : M Unit).run w
      = .ok () { w.free (w.elf.dynamic.dynamic.map Pointer.ptr).toList with
        elf := { w.elf with dynamic.symbolTable := none } } := by
  rw [get_bind, bind_ok (elfFree_run _ w), modifyElf_run]
  rfl

/-- The dynamic segment is read, or nothing is kept, unless its contents are read with no dynamic
symbol table: they are freed and kept. -/
theorem readDynamic_spec (h : HasHeaders env w.elf) {ptr : ℕ} {tables : List ElfSymbolTable}
    (hs : w.elf.symbolTables = some ⟨ptr, tables⟩)
    (hn : w.elf.nSymbolTables.toNat = tables.length)
    (ht : List.Forall₂ (IsSymbolTable env) env.symbolIndices tables)
    (hd : w.elf.dynamic = ⟨none, none⟩) :
    (∃ p w', (readDynamic env).run w = .ok () w'
      ∧ Took env (env.segmentSteps ptDynamic) w w' { w.elf with
        dynamic := ⟨p, (env.firstPhdr ptDynamic).bind fun _ => env.dynsym⟩ }
        (p.map Pointer.ptr).toList []
      ∧ IsSegment env ptDynamic p
      ∧ (env.firstPhdr ptDynamic ≠ none → env.dynsym ≠ none))
    ∨ (∃ w', (readDynamic env).run w = .error .error w'
      ∧ Failed env (env.segmentSteps ptDynamic) w w' w.elf [] [])
    ∨ ∃ p w', (readDynamic env).run w = .error .error w'
      ∧ Took env (env.segmentSteps ptDynamic) w w' { w.elf with dynamic := ⟨some p, none⟩ } [] []
      ∧ p.ptr ∈ w'.freed ∧ env.firstPhdr ptDynamic ≠ none ∧ env.dynsym = none := by
  unfold readDynamic IsSegment Env.segmentSteps
  rw [bind_ok h.header_run, bind_ok (h.firstPhdr_eq ptDynamic)]
  rcases hi : env.firstPhdr ptDynamic with - | i
  · refine .inl ⟨none, w, rfl, ?_, rfl, fun hne => absurd rfl hne⟩
    dsimp only [Option.elim, Option.bind]
    rw [← hd]
    exact Ran.refl env w
  dsimp only [Option.elim, Option.bind]
  obtain ⟨p, w₁, h₁, t₁⟩ | ⟨w₁, h₁, t₁⟩ := h.readPhdrData_spec Elf64Dyn (firstPhdr_lt hi)
  · have t₂ := t₁.modifyElf fun elf => { elf with
      dynamic.dynamic := some (env.phdrData Elf64Dyn i p) }
    obtain ⟨w₂, hw₂⟩ : ∃ w₂, w₂ = { w₁ with elf := { w₁.elf with
      dynamic.dynamic := some (env.phdrData Elf64Dyn i p) } } := ⟨_, rfl⟩
    have h₂ : (modifyElf fun elf => { elf with
        dynamic.dynamic := some (env.phdrData Elf64Dyn i p) }).run w₁ = .ok () w₂ :=
      hw₂ ▸ modifyElf_run _ w₁
    rw [← hw₂] at t₂
    have helf : w₂.elf = { w.elf with dynamic := ⟨some (env.phdrData Elf64Dyn i p), none⟩ } := by
      rw [t₂.elf, hd]
    have hh : HasHeaders env w₂.elf := by
      rw [helf]
      exact ⟨h.header, h.programHeaders, h.sections⟩
    have hs₂ : w₂.elf.symbolTables = some ⟨ptr, tables⟩ := by rwa [helf]
    have hn₂ : w₂.elf.nSymbolTables.toNat = tables.length := by rwa [helf]
    have h₃ := findDynsym_run hh hs₂ hn₂ ht
    rw [helf] at h₃
    rcases hdyn : env.dynsym with - | j
    · rw [hdyn] at h₃
      have hfreed := freeDynamic_run w₂
      rw [helf] at hfreed
      exact .inr (.inr ⟨env.phdrData Elf64Dyn i p, _, onError_error
        ((bind_ok h₁).trans ((bind_ok h₂).trans h₃)) hfreed,
        ⟨t₂.counts, rfl, t₂.free.moved.owes, t₂.free.moved.outside⟩, List.mem_cons_self .., by simp,
        rfl⟩)
    · rw [hdyn] at h₃
      exact .inl ⟨some (env.phdrData Elf64Dyn i p), _, onError_ok
        ((bind_ok h₁).trans ((bind_ok h₂).trans h₃)),
        ⟨t₂.counts, rfl, t₂.moved.owes, t₂.moved.outside⟩, ⟨p, rfl⟩, by simp⟩
  · have hfreed := freeDynamic_run w₁
    have hkept : ({ w.elf with dynamic.symbolTable := none } : ElfFile) = w.elf :=
      congrArg (fun t => ({ w.elf with dynamic.symbolTable := t } : ElfFile))
        (congrArg ElfDynamic.symbolTable hd).symm
    rw [t₁.elf, hkept, hd] at hfreed
    exact .inr (.inl ⟨_, onError_error (bind_error h₁) hfreed, t₁.counts, rfl, t₁.moved.owes,
      t₁.moved.outside⟩)

end Readelf

end SctOs
