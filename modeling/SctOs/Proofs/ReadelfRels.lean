import SctOs.Proofs.ReadelfTables

/-!
# The relocations

`fillRelTables_spec` follows the loop of `read_relocations`, which divides by the size of an entry
before it reads one, and `readRelocations_spec` is what is left of it: all the tables, none, or a
division by zero.
-/

namespace SctOs

open Ledger

namespace Readelf

variable {env : Env} {w : World}

/-- The table of a section, as the file has it. -/
structure IsRelTable (env : Env) (i : ℕ) (t : ElfRelTable) : Prop where
  sectionIndex : t.sectionIndex = some i
  nRelocations : t.nRelocations = (env.shdr i).shSize / (env.shdr i).shEntsize
  relocations : ∃ ptr, t.relocations = some (env.relocations i ptr)

theorem convertRelToRela_spec (h : HasHeaders env w.elf) {i : ℕ} (hi : i < env.ehdr.eShnum.toNat) :
    (∃ ptr w', (convertRelToRela env i).run w = .ok (env.converted i ptr) w'
      ∧ Took env (env.sectionSteps i ++ [.alloc]) w w' w.elf [ptr] [])
    ∨ ∃ w', (convertRelToRela env i).run w = .error .error w'
      ∧ Failed env (env.sectionSteps i ++ [.alloc]) w w' w.elf [] [] := by
  unfold convertRelToRela
  have hout : outsideSections env i = [] := outsideSections_nil.2 hi
  obtain ⟨p, w₁, h₁, t₁⟩ | ⟨w₁, h₁, t₁⟩ := h.readSectionData_spec Elf64Rel i
  swap
  · rw [hout] at t₁
    exact .inr ⟨w₁, bind_error h₁, t₁.stop _⟩
  rw [hout] at t₁
  have hh : HasHeaders env w₁.elf := by
    rw [t₁.elf]
    exact h
  rw [bind_ok h₁, bind_ok (hh.sectionAt_inside hi)]
  dsimp only
  obtain ⟨q, w₂, h₂, t₂⟩ | ⟨w₂, h₂, t₂⟩ := elfAlloc_spec env w₁ (BitVec.ofNat 64 (sizeof Elf64Rela)
    * ((env.shdr i).shSize / BitVec.ofNat 64 (sizeof Elf64Shdr)))
  · rw [t₁.elf] at t₂
    have t₃ := (t₁.trans t₂).perm (List.Perm.swap p q [])
    refine .inl ⟨q, w₂.free [p], ?_, t₃.counts, t₃.elf, ?_, t₃.moved.outside⟩
    · rw [bind_ok h₂]
      dsimp only
      rw [bind_ok (elfFree_run _ w₂)]
      rfl
    · exact (t₃.moved.trans ((moved_free [p] w₂).frame [q])).owes
  · rw [t₁.elf] at t₂
    refine .inr ⟨w₂.free [p], ?_, (t₁.trans t₂).free⟩
    rw [bind_ok h₂]
    dsimp only
    rw [bind_ok (elfFree_run _ w₂)]
    rfl

theorem readRelTable_spec (h : HasHeaders env w.elf) {i : ℕ} (hi : i < env.ehdr.eShnum.toNat) :
    (∃ ptr w', (readRelTable env i (env.shdr i)).run w = .ok (env.relocations i ptr) w'
      ∧ Took env (env.relSteps i) w w' w.elf [ptr] [])
    ∨ ∃ w', (readRelTable env i (env.shdr i)).run w = .error .error w'
      ∧ Failed env (env.relSteps i) w w' w.elf [] [] := by
  unfold readRelTable Env.relSteps Env.relocations
  split_ifs with hr
  · have := h.readSectionData_spec Elf64Rela i
    rwa [outsideSections_nil.2 hi, ← List.append_nil (env.sectionSteps i)] at this
  · exact convertRelToRela_spec h hi

/-- One entry takes the steps of its section, or keeps what it has read; it divides by zero before
any. -/
theorem fillRelTable_spec {elf : ElfFile} (h : HasHeaders env elf) {ptr i : ℕ}
    {done rest : List ElfRelTable} {w : World} (hi : i < env.ehdr.eShnum.toNat)
    (hw : w.elf = elf.withRels ptr (done ++ ⟨none, 0, none⟩ :: rest)) :
    (∃ t w', (fillRelTable env done.length i (env.shdr i)).run w = .ok () w'
      ∧ Took env (env.relSteps i) w w' (elf.withRels ptr (done ++ t :: rest)) t.owned []
      ∧ IsRelTable env i t ∧ (env.shdr i).shEntsize ≠ 0)
    ∨ (∃ t w', (fillRelTable env done.length i (env.shdr i)).run w = .error .error w'
      ∧ Failed env (env.relSteps i) w w' (elf.withRels ptr (done ++ t :: rest)) t.owned []
      ∧ (env.shdr i).shEntsize ≠ 0)
    ∨ ∃ w', (fillRelTable env done.length i (env.shdr i)).run w = .error .divide w'
      ∧ w'.outside = w.outside ∧ (env.shdr i).shEntsize = 0 := by
  unfold fillRelTable
  have t₀ := Ran.refl env w
  rw [hw] at t₀
  obtain ⟨w₁, h₁, t₁⟩ := updateRelTable_spec t₀ fun t => { t with sectionIndex := some i }
  rw [bind_ok h₁]
  by_cases hz : (env.shdr i).shEntsize = 0
  · rw [if_pos hz]
    exact .inr (.inr ⟨w₁, rfl, t₁.moved.outside, hz⟩)
  rw [if_neg hz]
  obtain ⟨w₂, h₂, t₂⟩ := updateRelTable_spec t₁ fun t => { t with
    nRelocations := (env.shdr i).shSize / (env.shdr i).shEntsize }
  rw [bind_ok h₂]
  have hh : HasHeaders env w₂.elf := by
    rw [t₂.elf]
    exact h.withRels _ _
  obtain ⟨p, w₃, h₃, t₃⟩ | ⟨w₃, h₃, t₃⟩ := readRelTable_spec hh hi
  · rw [t₂.elf] at t₃
    obtain ⟨w₄, h₄, t₄⟩ := updateRelTable_spec (t₂.trans t₃) fun t => { t with
      relocations := some (env.relocations i p) }
    rw [bind_ok h₃, h₄]
    refine .inl ⟨_, w₄, rfl, t₄.perm ?_, ⟨rfl, rfl, p, rfl⟩, hz⟩
    dsimp only [ElfRelTable.owned, Option.map, Option.toList]
    unfold Env.relocations
    split_ifs <;> rfl
  · rw [t₂.elf] at t₃
    exact .inr (.inl ⟨_, w₃, bind_error h₃, t₂.trans t₃, hz⟩)

/-- The entries of each section that is reached have a size. -/
abbrev Sized (env : Env) : List ℕ → Counts → Prop :=
  Each env env.relSteps (fun _ => []) fun i => (env.shdr i).shEntsize ≠ 0

theorem sized_cons {i : ℕ} {is : List ℕ} {c : Counts} : Sized env (i :: is) c
    ↔ (env.shdr i).shEntsize ≠ 0 ∧ ∀ c', env.after (env.relSteps i) c = some c' → Sized env is c' := by
  refine each_cons.trans (and_congr_left' ⟨fun h => h rfl, fun h _ => h⟩)

theorem fillRelTables_spec {elf : ElfFile} (h : HasHeaders env elf) (ptr : ℕ) :
    ∀ (is : List ℕ) (done : List ElfRelTable) {w : World},
      (∀ i ∈ is, i < env.ehdr.eShnum.toNat) → w.elf = elf.withRels ptr
        (done ++ List.replicate (relsOf env is).length ⟨none, 0, none⟩) →
      (∃ tables w', (fillRelTables env done.length is).run w = .ok () w'
        ∧ Took env ((relsOf env is).flatMap env.relSteps) w w'
          (elf.withRels ptr (done ++ tables)) (tables.flatMap ElfRelTable.owned) []
        ∧ List.Forall₂ (IsRelTable env) (relsOf env is) tables
        ∧ Sized env (relsOf env is) w.counts)
      ∨ (∃ tables w', (fillRelTables env done.length is).run w = .error .error w'
        ∧ Failed env ((relsOf env is).flatMap env.relSteps) w w'
          (elf.withRels ptr (done ++ tables)) (tables.flatMap ElfRelTable.owned) []
        ∧ tables.length = (relsOf env is).length
        ∧ Sized env (relsOf env is) w.counts)
      ∨ ∃ w', (fillRelTables env done.length is).run w = .error .divide w'
        ∧ w'.outside = w.outside ∧ ¬ Sized env (relsOf env is) w.counts
  | [], done, w, _, hw => by
    have t := Ran.refl env w
    rw [hw] at t
    exact .inl ⟨[], w, rfl, t, List.Forall₂.nil, each_nil⟩
  | i :: is, done, w, his, hw => by
    obtain ⟨hi, his⟩ := List.forall_mem_cons.1 his
    have hh : HasHeaders env w.elf := by
      rw [hw]
      exact h.withRels _ _
    rw [fillRelTables, bind_ok (hh.sectionAt_inside hi)]
    rcases hp : isRelTable (env.shdr i).shType
    · have hs : relsOf env (i :: is) = relsOf env is := List.filter_cons_of_neg (by simp [hp])
      rw [if_neg (by simp), hs]
      rw [hs] at hw
      exact fillRelTables_spec h ptr is done his hw
    rw [if_pos rfl]
    have hs : relsOf env (i :: is) = i :: relsOf env is := List.filter_cons_of_pos hp
    rw [hs, List.length_cons, List.replicate_succ] at hw
    rw [hs, List.flatMap_cons, List.length_cons, sized_cons]
    obtain ⟨t, w₁, h₁, t₁, ht, hz⟩ | ⟨t, w₁, h₁, t₁, hz⟩ | ⟨w₁, h₁, hout, hz⟩ :=
      fillRelTable_spec h hi hw
    · have ih := fillRelTables_spec h ptr is (done ++ [t]) (w := w₁) his
        (by rw [t₁.elf, List.append_assoc]; rfl)
      simp only [List.length_append, List.length_singleton, List.append_assoc,
        List.singleton_append] at ih
      have hc : ∀ {c'}, env.after (env.relSteps i) w.counts = some c' → c' = w₁.counts :=
        fun hc => Option.some.inj (hc.symm.trans t₁.counts)
      rw [bind_ok h₁]
      obtain ⟨tables, w₂, h₂, t₂, hf, hl⟩ | ⟨tables, w₂, h₂, t₂, hlen, hl⟩ | ⟨w₂, h₂, hout, hl⟩ := ih
      · exact .inl ⟨t :: tables, w₂, h₂, (t₁.trans t₂).perm List.perm_append_comm,
          List.Forall₂.cons ht hf, hz, fun c' h' => hc h' ▸ hl⟩
      · exact .inr (.inl ⟨t :: tables, w₂, h₂, (t₁.trans t₂).perm List.perm_append_comm,
          congrArg (· + 1) hlen, hz, fun c' h' => hc h' ▸ hl⟩)
      · exact .inr (.inr ⟨w₂, h₂, hout.trans t₁.moved.outside, fun h' => hl (h'.2 _ t₁.counts)⟩)
    · refine .inr (.inl ⟨t :: List.replicate (relsOf env is).length ⟨none, 0, none⟩, w₁,
        bind_error h₁, ?_, by simp, hz, fun c' hc => ?_⟩)
      · rw [List.flatMap_cons, owned_replicate rfl, List.append_nil]
        exact t₁.stop _
      · rw [t₁.counts] at hc
        cases hc
    · exact .inr (.inr ⟨w₁, bind_error h₁, hout, fun h' => h'.1 hz⟩)

/-! ## The array of relocation tables -/

theorem count_rels (elf : ElfFile) : ∀ n : ℕ, ElfFile.countRelTable^[n] elf
    = { elf with nRelTables := elf.nRelTables + BitVec.ofNat 16 n }
  | 0 => by simp
  | n + 1 => by
    rw [Function.iterate_succ_apply', count_rels elf n, ElfFile.countRelTable,
      BitVec.ofNat_add, ← BitVec.add_assoc]
    rfl

theorem countRels_run (h : HasHeaders env w.elf) (hn : w.elf.nRelTables = 0) :
    (countSections isRelTable ElfFile.countRelTable (sectionIndices env.ehdr)).run w
      = .ok () { w with
        elf := { w.elf with nRelTables := BitVec.ofNat 16 env.relIndices.length } } := by
  have hc := countSections_run (p := isRelTable) (c := ElfFile.countRelTable)
    (fun elf he => ⟨he.header, he.programHeaders, he.sections⟩) h fun i hi => sectionIndices_lt hi
  rw [hc, count_rels, hn, relIndices_filter]
  exact congrArg (fun n => EStateM.Result.ok () { w with elf := { w.elf with nRelTables := n } })
    (BitVec.zero_add _)

theorem relsOf_indices : relsOf env (sectionIndices env.ehdr) = env.relIndices :=
  relIndices_filter.symm

theorem freeRelTables_run {steps : List Step} {w w₁ : World} {elf : ElfFile} {n : Elf64Half}
    {ptr : ℕ} {tables : List ElfRelTable} {out : List (Headers × ℕ)}
    (h : Failed env steps w w₁ ({ elf with nRelTables := n }.withRels ptr tables)
      (tables.flatMap ElfRelTable.owned ++ [ptr]) out)
    (hn : n.toNat = tables.length) (he : elf.nRelTables = 0) (ht : elf.relTables = none) :
    ∃ w₂, freeRelTables.run w₁ = .ok () w₂ ∧ Failed env steps w w₂ elf [] out := by
  have hreset : { elf with nRelTables := 0, relTables := none } = elf := by rw [← he, ← ht]
  refine ⟨{ w₁.free (tables.flatMap ElfRelTable.owned ++ [ptr]) with elf := elf }, ?_, h.counts,
    rfl, h.free.moved.owes, h.free.moved.outside⟩
  rw [freeRelTables, get_bind]
  dsimp only
  rw [h.elf]
  dsimp only [ElfFile.withRels]
  rw [bind_ok (freeTable_run freeRelTable_run hn w₁), modifyElf_of h.free.elf]
  dsimp only [ElfFile.withRels]
  rw [hreset]

theorem freeRelTables_none (ht : w.elf.relTables = none) : freeRelTables.run w
    = .ok () { w with elf := { w.elf with relTables := none, nRelTables := 0 } } := by
  rw [freeRelTables, get_bind]
  dsimp only
  rw [ht]
  rfl

theorem allocRelTables_spec (env : Env) (w : World) :
    (∃ ptr w', (allocRelTables env).run w = .ok () w'
      ∧ Took env [.alloc] w w' (w.elf.withRels ptr
        (List.replicate w.elf.nRelTables.toNat ⟨none, 0, none⟩)) [ptr] [])
    ∨ ∃ w', (allocRelTables env).run w = .error .error w'
      ∧ Failed env [.alloc] w w' w.elf [] [] := by
  unfold allocRelTables
  rw [get_bind]
  exact allocTable_spec env w _ fun ptr elf => elf.withRels ptr _

/-- The entries of each section that is reached have a size, when the tables are still to be read. -/
def EntsizeFrom (env : Env) (c : Counts) : Prop :=
  ∀ before i rest, env.relIndices = before ++ i :: rest →
    (env.after (env.relTableSteps before) c).isSome → (env.shdr i).shEntsize ≠ 0

theorem entsizeFrom_none {c : Counts} (h : env.after [.alloc] c = none) : EntsizeFrom env c := by
  intro before i rest _ hs
  rw [Env.relTableSteps, after_alloc_none h] at hs
  cases hs

theorem entsizeFrom_some {c c' : Counts} (h : env.after [.alloc] c = some c') :
    EntsizeFrom env c ↔ Sized env env.relIndices c' := by
  unfold EntsizeFrom Sized Each Env.relTableSteps
  simp only [after_alloc_some h, List.append_nil]

/-- All the relocations are read, or none is left, or their number is divided by zero. -/
theorem readRelocations_spec (h : HasHeaders env w.elf) (hn : w.elf.nRelTables = 0)
    (ht : w.elf.relTables = none) :
    (∃ ptr tables w', (readRelocations env).run w = .ok () w'
      ∧ Took env (env.relTableSteps env.relIndices) w w' ({ w.elf with
          nRelTables := BitVec.ofNat 16 env.relIndices.length }.withRels ptr tables)
        (tables.flatMap ElfRelTable.owned ++ [ptr]) []
      ∧ List.Forall₂ (IsRelTable env) env.relIndices tables ∧ EntsizeFrom env w.counts)
    ∨ (∃ w', (readRelocations env).run w = .error .error w'
      ∧ Failed env (env.relTableSteps env.relIndices) w w' w.elf [] []
      ∧ EntsizeFrom env w.counts)
    ∨ ∃ w', (readRelocations env).run w = .error .divide w' ∧ w'.outside = w.outside
      ∧ ¬ EntsizeFrom env w.counts := by
  have hlen : (BitVec.ofNat 16 env.relIndices.length).toNat = env.relIndices.length := by
    rw [relIndices_filter]
    exact sections_length env.ehdr
  unfold readRelocations
  rw [bind_ok h.header_run]
  dsimp only
  rw [bind_ok (countRels_run h hn)]
  obtain ⟨elf, he⟩ : ∃ elf : ElfFile, elf
    = { w.elf with nRelTables := BitVec.ofNat 16 env.relIndices.length } := ⟨_, rfl⟩
  rw [← he]
  have hh : HasHeaders env elf := by
    rw [he]
    exact ⟨h.header, h.programHeaders, h.sections⟩
  have hn₀ : elf.nRelTables.toNat = env.relIndices.length := by rw [he, hlen]
  obtain ⟨ptr, w₁, h₁, t₁⟩ | ⟨w₁, h₁, t₁⟩ := allocRelTables_spec env { w with elf := elf }
  swap
  · have ht₁ : w₁.elf.relTables = none := by rw [t₁.elf, he, ht]
    refine .inr (.inl ⟨_, onError_error (bind_error h₁) (freeRelTables_none ht₁),
      ⟨after_alloc_none t₁.counts _, ?_, t₁.moved.owes, t₁.moved.outside⟩,
      entsizeFrom_none t₁.counts⟩)
    dsimp only
    rw [t₁.elf, he, ← hn, ← ht]
  dsimp only at t₁
  rw [hn₀] at t₁
  have hfrom : EntsizeFrom env w.counts ↔ Sized env env.relIndices w₁.counts :=
    entsizeFrom_some t₁.counts
  rw [hfrom]
  have hfill := fillRelTables_spec hh ptr (sectionIndices env.ehdr) [] (w := w₁)
    (fun i hi => sectionIndices_lt hi)
  rw [relsOf_indices] at hfill
  specialize hfill t₁.elf
  obtain ⟨tables, w₂, h₂, t₂, hf, hl⟩ | ⟨tables, w₂, h₂, t₂, hlen', hl⟩ | ⟨w₂, h₂, hout, hl⟩ := hfill
  · have t₃ := t₁.trans t₂
    exact .inl ⟨ptr, tables, w₂, onError_ok ((bind_ok h₁).trans h₂),
      ⟨t₃.counts, t₃.elf, t₃.moved.owes, t₃.moved.outside⟩, hf, hl⟩
  · have t₃ := t₁.trans t₂
    rw [he] at t₃
    obtain ⟨w₃, h₃, t₄⟩ := freeRelTables_run t₃ (hlen.trans hlen'.symm) hn ht
    exact .inr (.inl ⟨w₃, onError_error ((bind_ok h₁).trans h₂) h₃,
      ⟨t₄.counts, t₄.elf, t₄.moved.owes, t₄.moved.outside⟩, hl⟩)
  · exact .inr (.inr ⟨w₂, onError_divide ((bind_ok h₁).trans h₂), hout.trans t₁.moved.outside, hl⟩)

end Readelf

end SctOs
