import SctOs.Proofs.Ledger
import SctOs.ReadelfSteps

/-!
# One call after the other

What each call of `readelf` does to the world: `Ran` gives the calls it stands for, the `elf_file` it
leaves, the pointers that are owned besides and the indices that were used outside the headers. Each
function is run in a world, and either takes all its steps or fails (`elfRead2_spec`,
`readSectionData_spec`, `readPhdrData_spec`).
-/

namespace SctOs

open Ledger

namespace Readelf

section Monad

variable {α β : Type} {x : M α} {f : α → M β} {cleanup : M Unit} {a : α} {e : Exit}
  {w w' : World}

theorem bind_ok (h : x.run w = .ok a w') : (x >>= f).run w = (f a).run w' := by
  rw [EStateM.run_bind, h]

theorem bind_error (h : x.run w = .error e w') : (x >>= f).run w = .error e w' := by
  rw [EStateM.run_bind, h]

theorem handle_run (y : M α) : (handle x y).run w = match x.run w with
    | .error .error w' => y.run w'
    | r => r := rfl

theorem onError_ok (h : x.run w = .ok a w') : (onError x cleanup).run w = .ok a w' := by
  rw [onError, handle_run, h]

theorem onError_divide (h : x.run w = .error .divide w') :
    (onError x cleanup).run w = .error .divide w' := by
  rw [onError, handle_run, h]

theorem onError_error {v : World} (h : x.run w = .error .error v) (hc : cleanup.run v = .ok () w') :
    (onError x cleanup).run w = .error .error w' := by
  rw [onError, handle_run, h]
  dsimp only
  rw [bind_ok hc]
  rfl

end Monad

/-! ## Pointers that are owned -/

/-- All that `elf_alloc` returned has been freed once, but for these. -/
def World.Owes (w : World) (ptrs : List ℕ) : Prop :=
  Owed w.allocated w.freed ptrs ∧ ∀ ptr ∈ w.allocated, ptr < w.counts.allocs

/-- From `w` to `w'`, `old` have become `new`, and `out` were used outside the headers. -/
structure Moved (old new : List ℕ) (out : List (Headers × ℕ)) (w w' : World) : Prop where
  owes : ∀ ptrs, w.Owes (old ++ ptrs) → w'.Owes (new ++ ptrs)
  outside : w'.outside = out ++ w.outside

theorem Moved.refl (w : World) : Moved [] [] [] w w := ⟨fun _ h => h, rfl⟩

theorem Moved.trans {old mid new : List ℕ} {out out' : List (Headers × ℕ)} {w w₁ w₂ : World}
    (h : Moved old mid out w w₁) (h' : Moved mid new out' w₁ w₂) :
    Moved old new (out' ++ out) w w₂ :=
  ⟨fun ptrs hw => h'.owes ptrs (h.owes ptrs hw),
    by rw [h'.outside, h.outside, List.append_assoc]⟩

theorem Moved.frame {old new : List ℕ} {out : List (Headers × ℕ)} {w w' : World}
    (h : Moved old new out w w') (ptrs : List ℕ) : Moved (old ++ ptrs) (new ++ ptrs) out w w' := by
  refine ⟨fun more hw => ?_, h.outside⟩
  rw [List.append_assoc] at hw ⊢
  exact h.owes _ hw

theorem World.Owes.perm {w : World} {ptrs ptrs' : List ℕ} (h : w.Owes ptrs) (hp : ptrs.Perm ptrs') :
    w.Owes ptrs' := ⟨h.1.perm hp, h.2⟩

/-- The world when these have been freed, one after the other. -/
def World.free (ptrs : List ℕ) (w : World) : World := { w with freed := ptrs.reverse ++ w.freed }

theorem World.free_append (ptrs ptrs' : List ℕ) (w : World) :
    w.free (ptrs ++ ptrs') = (w.free ptrs).free ptrs' := by
  unfold World.free
  rw [List.reverse_append, List.append_assoc]

theorem moved_free (ptrs : List ℕ) (w : World) : Moved ptrs [] [] w (w.free ptrs) :=
  ⟨fun _ hw => ⟨hw.1.free, hw.2⟩, rfl⟩

theorem elfFree_run (ptr : Option ℕ) (w : World) :
    (elfFree ptr).run w = .ok () (w.free ptr.toList) := by
  cases ptr <;> rfl

theorem forM_free {α : Type} {free : α → M Unit} {owned : α → List ℕ}
    (h : ∀ a w, (free a).run w = .ok () (w.free (owned a))) :
    ∀ (as : List α) (w : World), (as.forM free).run w = .ok () (w.free (as.flatMap owned))
  | [], _ => rfl
  | a :: as, w => by
    rw [List.forM, bind_ok (h a w), forM_free h as, List.flatMap_cons, World.free_append]

/-! ## Steps -/

theorem Env.after_append (env : Env) (steps steps' : List Step) (c : Counts) :
    env.after (steps ++ steps') c = (env.after steps c).bind (env.after steps') :=
  List.foldlM_append

/-- From `w` to `w'`: the steps end with `counts`. -/
structure Ran (env : Env) (steps : List Step) (w w' : World) (counts : Option Counts)
    (elf : ElfFile) (new : List ℕ) (out : List (Headers × ℕ)) : Prop where
  counts : env.after steps w.counts = counts
  elf : w'.elf = elf
  moved : Moved [] new out w w'

/-- All the steps were taken. -/
abbrev Took (env : Env) (steps : List Step) (w w' : World) := Ran env steps w w' (some w'.counts)

/-- One of the steps failed. -/
abbrev Failed (env : Env) (steps : List Step) (w w' : World) := Ran env steps w w' none

section Ran

variable {env : Env} {steps steps' : List Step} {w w₁ w₂ : World} {counts : Option Counts}
  {elf elf' : ElfFile} {new new' : List ℕ} {out out' : List (Headers × ℕ)}

theorem Ran.refl (env : Env) (w : World) : Took env [] w w w.elf [] [] := ⟨rfl, rfl, Moved.refl w⟩

theorem Ran.trans (h : Took env steps w w₁ elf new out)
    (h' : Ran env steps' w₁ w₂ counts elf' new' out') :
    Ran env (steps ++ steps') w w₂ counts elf' (new' ++ new) (out' ++ out) :=
  ⟨by rw [Env.after_append, h.counts]; exact h'.counts, h'.elf, h.moved.trans (h'.moved.frame new)⟩

/-- Once a step has failed, the later ones are not taken. -/
theorem Ran.stop (h : Failed env steps w w₁ elf new out) (steps' : List Step) :
    Failed env (steps ++ steps') w w₁ elf new out :=
  ⟨by rw [Env.after_append, h.counts]; rfl, h.elf, h.moved⟩

theorem Ran.modifyElf (h : Took env steps w w₁ elf new out) (f : ElfFile → ElfFile) :
    Took env steps w { w₁ with elf := f w₁.elf } (f elf) new out :=
  ⟨h.counts, by rw [← h.elf], h.moved.owes, h.moved.outside⟩

theorem Ran.free (h : Ran env steps w w₁ counts elf new out) :
    Ran env steps w (w₁.free new) counts elf [] out :=
  ⟨h.counts, h.elf, h.moved.trans (moved_free new w₁)⟩

end Ran

/-! ## The user's functions -/

section Calls

variable (env : Env) (w : World)

theorem elfAlloc_spec (size : U64) :
    (∃ ptr w', (elfAlloc env size).run w = .ok (some ptr) w' ∧ Took env [.alloc] w w' w.elf [ptr] [])
      ∨ ∃ w', (elfAlloc env size).run w = .ok none w' ∧ Failed env [.alloc] w w' w.elf [] [] := by
  rcases h : env.alloc w.counts.allocs
  · refine .inr ⟨{ w with counts.allocs := w.counts.allocs + 1 }, ?_, ?_, rfl, ?_, rfl⟩
    · simp only [EStateM.run, elfAlloc, h, Bool.false_eq_true, if_false]
    · simp [Env.after, Env.step, h]
    · exact fun _ hw => ⟨hw.1, fun p hp => (hw.2 p hp).trans (Nat.lt_succ_self _)⟩
  · refine .inl ⟨w.counts.allocs, { w with
      counts.allocs := w.counts.allocs + 1
      allocated := w.counts.allocs :: w.allocated }, ?_, ?_, rfl, fun _ hw => ⟨?_, ?_⟩, rfl⟩
    · simp only [EStateM.run, elfAlloc, h, if_true]
    · simp [Env.after, Env.step, h]
    · exact hw.1.alloc fun hp => (hw.2 _ hp).false
    · exact List.forall_mem_cons.2
        ⟨Nat.lt_succ_self _, fun p hp => (hw.2 p hp).trans (Nat.lt_succ_self _)⟩

theorem elfRead_spec (offset size : U64) :
    (∃ w', (elfRead env offset size).run w = .ok (env.buffer offset size) w'
        ∧ Took env [.read offset size] w w' w.elf [] [])
      ∨ ∃ w', (elfRead env offset size).run w = .error .error w'
        ∧ Failed env [.read offset size] w w' w.elf [] [] := by
  by_cases h : env.Reads w.counts.reads offset size
  · refine .inl ⟨{ w with counts.reads := w.counts.reads + 1 }, ?_, ?_, rfl, fun _ hw => hw, rfl⟩
    · simp only [EStateM.run, elfRead, h, if_true]
    · simp [Env.after, Env.step, h]
  · refine .inr ⟨{ w with counts.reads := w.counts.reads + 1 }, ?_, ?_, rfl, fun _ hw => hw, rfl⟩
    · simp only [EStateM.run, elfRead, h, if_false]
    · simp [Env.after, Env.step, h]

/-- A buffer is filled, or nothing is allocated. -/
theorem elfRead2_spec (α : Type) [CStruct α] (offset size : U64) :
    (∃ ptr w', (elfRead2 env offset size).run w =
        .ok ⟨ptr, size, CStruct.array α (env.buffer offset size)⟩ w'
        ∧ Took env (bufferSteps offset size) w w' w.elf [ptr] [])
      ∨ ∃ w', (elfRead2 env offset size : M (Pointer α)).run w = .error .error w'
        ∧ Failed env (bufferSteps offset size) w w' w.elf [] [] := by
  unfold elfRead2
  obtain ⟨ptr, w₁, h₁, t₁⟩ | ⟨w₁, h₁, t₁⟩ := elfAlloc_spec env w size
  · obtain ⟨w₂, h₂, t₂⟩ | ⟨w₂, h₂, t₂⟩ := elfRead_spec env w₁ offset size
    · rw [t₁.elf] at t₂
      exact .inl ⟨ptr, w₂, by rw [bind_ok h₁, bind_ok (onError_ok h₂)]; rfl, t₁.trans t₂⟩
    · rw [t₁.elf] at t₂
      refine .inr ⟨w₂.free [ptr], ?_, (t₁.trans t₂).free⟩
      rw [bind_ok h₁, bind_error (onError_error h₂ (elfFree_run (some ptr) w₂))]
      rfl
  · exact .inr ⟨w₁, by rw [bind_ok h₁]; rfl, t₁.stop _⟩

end Calls

/-! ## Headers -/

/-- The headers have been read. -/
structure HasHeaders (env : Env) (elf : ElfFile) : Prop where
  header : ∃ p, elf.header = some p ∧ p.elem 0 = env.ehdr
  programHeaders : env.ehdr.ePhnum ≠ 0 → ∃ ptr,
    elf.programHeaders = some ⟨ptr, bytesOf Elf64Phdr env.ehdr.ePhnum, env.phdr⟩
  sections : ∃ ptr, elf.sections = some ⟨ptr, bytesOf Elf64Shdr env.ehdr.eShnum, env.shdr⟩

/-- The index, if it is not one of a section. -/
def outsideSections (env : Env) (i : ℕ) : List (Headers × ℕ) :=
  if i < env.ehdr.eShnum.toNat then [] else [(.sections, i)]

section Headers

variable {env : Env} {w : World}

theorem get_bind {α : Type} (f : World → M α) : (get >>= f).run w = (f w).run w := rfl

theorem header_run {p : Pointer Elf64Ehdr} (h : w.elf.header = some p) :
    header.run w = .ok (p.elem 0) w := by
  rw [header, get_bind, h]
  rfl

theorem HasHeaders.header_run (h : HasHeaders env w.elf) : Readelf.header.run w = .ok env.ehdr w := by
  obtain ⟨p, hp, he⟩ := h.header
  rw [Readelf.header_run hp, he]

theorem useIndex_inside {array : Headers} {i n : ℕ} (h : i < n) :
    (useIndex array i n).run w = .ok () w := by
  rw [useIndex, if_pos h]
  rfl

theorem HasHeaders.programHeader_run (h : HasHeaders env w.elf) {i : ℕ}
    (hi : i < env.ehdr.ePhnum.toNat) : (programHeader i).run w = .ok (env.phdr i) w := by
  obtain ⟨ptr, hp⟩ := h.programHeaders fun h0 => by simp [h0] at hi
  rw [programHeader, bind_ok h.header_run, bind_ok (useIndex_inside hi), get_bind, hp]
  rfl

theorem HasHeaders.sectionAt_inside (h : HasHeaders env w.elf) {i : ℕ}
    (hi : i < env.ehdr.eShnum.toNat) : (sectionAt i).run w = .ok (env.shdr i) w := by
  obtain ⟨ptr, hp⟩ := h.sections
  rw [sectionAt, bind_ok h.header_run, bind_ok (useIndex_inside hi), get_bind, hp]
  rfl

/-- A section header is read wherever the index is. -/
theorem HasHeaders.sectionAt_spec (h : HasHeaders env w.elf) (i : ℕ) :
    ∃ w', (sectionAt i).run w = .ok (env.shdr i) w'
      ∧ Took env [] w w' w.elf [] (outsideSections env i) := by
  by_cases hi : i < env.ehdr.eShnum.toNat
  · refine ⟨w, h.sectionAt_inside hi, ?_⟩
    rw [outsideSections, if_pos hi]
    exact Ran.refl env w
  · obtain ⟨ptr, hp⟩ := h.sections
    refine ⟨{ w with outside := (.sections, i) :: w.outside }, ?_, ?_⟩
    · rw [sectionAt, bind_ok h.header_run, useIndex, if_neg hi]
      change (deref w.elf.sections >>= _).run _ = _
      rw [hp]
      rfl
    · rw [outsideSections, if_neg hi]
      exact ⟨rfl, rfl, fun _ hw => hw, rfl⟩

theorem HasHeaders.readPhdrData_spec (h : HasHeaders env w.elf) (α : Type) [CStruct α] {i : ℕ}
    (hi : i < env.ehdr.ePhnum.toNat) :
    (∃ ptr w', (readPhdrData env i).run w = .ok (env.phdrData α i ptr) w'
        ∧ Took env (env.phdrSteps i) w w' w.elf [ptr] [])
      ∨ ∃ w', (readPhdrData env i : M (Pointer α)).run w = .error .error w'
        ∧ Failed env (env.phdrSteps i) w w' w.elf [] [] := by
  unfold readPhdrData
  rw [bind_ok (h.programHeader_run hi)]
  exact elfRead2_spec env w α _ _

theorem HasHeaders.readSectionData_spec (h : HasHeaders env w.elf) (α : Type) [CStruct α] (i : ℕ) :
    (∃ ptr w', (readSectionData env i).run w = .ok (env.sectionData α i ptr) w'
        ∧ Took env (env.sectionSteps i) w w' w.elf [ptr] (outsideSections env i))
      ∨ ∃ w', (readSectionData env i : M (Pointer α)).run w = .error .error w'
        ∧ Failed env (env.sectionSteps i) w w' w.elf [] (outsideSections env i) := by
  unfold readSectionData
  obtain ⟨w₁, h₁, t₁⟩ := h.sectionAt_spec i
  rw [bind_ok h₁]
  obtain ⟨ptr, w₂, h₂, t₂⟩ | ⟨w₂, h₂, t₂⟩ := elfRead2_spec env w₁ α (env.shdr i).shOffset
    (env.shdr i).shSize
  · rw [t₁.elf] at t₂
    exact .inl ⟨ptr, w₂, h₂, t₁.trans t₂⟩
  · rw [t₁.elf] at t₂
    exact .inr ⟨w₂, h₂, t₁.trans t₂⟩

/-! ## Loops over the headers -/

theorem HasHeaders.firstPhdr_run (h : HasHeaders env w.elf) (type : Elf64Word) :
    ∀ {is : List ℕ}, (∀ i ∈ is, i < env.ehdr.ePhnum.toNat) →
      (firstPhdr type is).run w = .ok (is.find? fun i => (env.phdr i).pType = type) w
  | [], _ => rfl
  | i :: is, hi => by
    obtain ⟨hi, his⟩ := List.forall_mem_cons.1 hi
    rw [firstPhdr, bind_ok (h.programHeader_run hi)]
    by_cases ht : (env.phdr i).pType = type
    · rw [if_pos ht, List.find?_cons_of_pos (by simpa using ht)]
      rfl
    · rw [if_neg ht, List.find?_cons_of_neg (by simpa using ht)]
      exact h.firstPhdr_run type his

theorem countSections_run {p : Elf64Word → Bool} {c : ElfFile → ElfFile}
    (hc : ∀ elf, HasHeaders env elf → HasHeaders env (c elf)) :
    ∀ {is : List ℕ} {w : World}, HasHeaders env w.elf → (∀ i ∈ is, i < env.ehdr.eShnum.toNat) →
      (countSections p c is).run w = .ok () { w with
        elf := c^[(is.filter fun i => p (env.shdr i).shType).length] w.elf }
  | [], _, _, _ => rfl
  | i :: is, w, h, hi => by
    obtain ⟨hi, his⟩ := List.forall_mem_cons.1 hi
    rw [countSections, bind_ok (h.sectionAt_inside hi)]
    rcases hp : p (env.shdr i).shType
    · rw [if_neg (by simp), List.filter_cons_of_neg (by simp [hp])]
      exact countSections_run hc h his
    · rw [if_pos rfl, List.filter_cons_of_pos (by simp [hp])]
      exact countSections_run hc (w := { w with elf := c w.elf }) (hc _ h) his

theorem mem_phdrIndices {ehdr : Elf64Ehdr} {i : ℕ} : i ∈ phdrIndices ehdr ↔ i < ehdr.ePhnum.toNat :=
  List.mem_range

theorem sectionIndices_lt {ehdr : Elf64Ehdr} {i : ℕ} (hi : i ∈ sectionIndices ehdr) :
    i < ehdr.eShnum.toNat := by
  unfold sectionIndices shnBegin at hi
  rw [List.mem_range'_1] at hi
  omega

theorem symbolIndices_filter : env.symbolIndices
    = (sectionIndices env.ehdr).filter fun i => isSymbolTable (env.shdr i).shType :=
  List.filter_congr fun _ _ => Bool.decide_or _ _

theorem relIndices_filter : env.relIndices
    = (sectionIndices env.ehdr).filter fun i => isRelTable (env.shdr i).shType :=
  List.filter_congr fun _ _ => Bool.decide_or _ _

end Headers

end Readelf

end SctOs
