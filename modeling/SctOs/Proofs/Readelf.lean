import SctOs.ElfContents
import SctOs.Proofs.ReadelfParts

/-!
# Reading the whole file

When everything is freed once (`readelf_balanced_iff`): the dynamic segment is freed twice without a
dynamic symbol table, since `read_dynamic` does not give it up, and nothing is freed after a division
by zero. The indices of sections that are used are checked against no number of sections
(`readelf_indices`).
-/

namespace SctOs

namespace Readelf

variable {env : Env}

/-! ## Results -/

/-- The result is a value, with this. -/
def Returns {α : Type} (r : EStateM.Result Exit World α) (p : α → World → Bool) : Bool :=
  match r with
  | .ok a w => p a w
  | .error _ _ => false

/-- The result is this stop. -/
def Stops {α : Type} (r : EStateM.Result Exit World α) (stop : Exit) : Bool :=
  match r with
  | .ok _ _ => false
  | .error e _ => e = stop

theorem exists_of_returns {α : Type} {r : EStateM.Result Exit World α} {p : α → World → Bool}
    (h : Returns r p = true) : ∃ a w, r = .ok a w ∧ p a w = true := by
  rcases r with ⟨a, w⟩ | ⟨e, w⟩
  · exact ⟨a, w, rfl, h⟩
  · cases h

/-! ## What is freed -/

theorem Sound.giveUp {w : World} (hs : Sound w) : w.giveUp.FreedOnce := hs.freedOnce.2

/-- What `init_elf_file` leaves is not freed again. -/
theorem freeElfFile_giveUp (w : World) : freeElfFile.run w.giveUp = .ok () w.giveUp :=
  freeElfFile_run ⟨rfl, rfl⟩

/-- A pointer that is freed but kept is freed twice. -/
theorem not_freedOnce {w : World} {ptr : ℕ} (ho : ptr ∈ w.elf.owned) (hf : ptr ∈ w.freed)
    (ha : ptr ∈ w.allocated) : ¬ w.giveUp.FreedOnce := by
  intro h
  have h1 : (w.elf.owned.reverse ++ w.freed).count ptr = 1 := h ptr ha
  rw [List.count_append, List.count_reverse] at h1
  have := List.one_le_count_iff.2 ho
  have := List.one_le_count_iff.2 hf
  omega

theorem dynamic_owned {elf : ElfFile} {p : Pointer Elf64Dyn} (h : elf.dynamic.dynamic = some p) :
    p.ptr ∈ elf.owned := by
  unfold ElfFile.owned
  rw [h]
  simp

theorem readelf_balanced_iff (env : Env) : Balanced env ↔ DynsymOk env ∧ EntsizeOk env := by
  obtain ⟨r, he, hr⟩ := readelf_ends env
  unfold Balanced
  rw [hr]
  cases he with
  | @read w sound _ _ dynsym entsize =>
    obtain ⟨hf, ho⟩ := sound.freedOnce
    exact iff_of_true ⟨false, w, _, rfl, hf, ho, fun h => nomatch h⟩ ⟨dynsym, entsize⟩
  | @failed w sound _ dynsym entsize =>
    exact iff_of_true ⟨true, w.giveUp, _, rfl, freeElfFile_giveUp w, sound.giveUp, fun _ => rfl⟩
      ⟨dynsym, entsize⟩
  | @freed w p fits dynamic mem alloc dynsym =>
    refine iff_of_false ?_ fun h => dynsym h.1
    rintro ⟨err, w', w'', h, hf, ho, -⟩
    cases h
    rw [freeElfFile_giveUp] at hf
    cases hf
    exact not_freedOnce (dynamic_owned dynamic) mem alloc ho
  | divided entsize =>
    refine iff_of_false ?_ fun h => entsize h.2
    rintro ⟨err, w', w'', h, -⟩
    cases h

/-- A dynamic segment, and no symbols. -/
def withoutDynsym : File := .ofHeaders [⟨ptDynamic, 0, 0, 0, 0, 0, 0, 0⟩] [.at 0 0 0 0] []

theorem dynamic_freed_twice : ¬ Balanced (.ofFile withoutDynsym) := by
  rintro ⟨err, w, w', h, hf, ho, -⟩
  have hr : Returns ((readelf (.ofFile withoutDynsym) >>= fun _ => freeElfFile).run World.init)
      (fun _ w => !decide w.FreedOnce) = true := by decide +kernel
  rw [bind_ok h, hf] at hr
  exact absurd ho (by simpa [Returns] using hr)

/-! ## Indices -/

theorem Outside.giveUp {w : World} (h : Outside env w) : Outside env w.giveUp := h.of_eq rfl

/-- All the program headers that are used have been loaded, and so have the sections but for those of
section names. -/
theorem readelf_indices (env : Env) :
    (env.final.outside = [] ↔ ShstrndxOk env ∧ LinksOk env)
      ∧ ∀ x ∈ env.final.outside, x = (.sections, env.ehdr.eShstrndx.toNat)
        ∨ ∃ i ∈ env.symbolIndices, x = (.sections, (env.shdr i).names) := by
  obtain ⟨r, he, hr⟩ := readelf_ends env
  have ho : Outside env env.final := by
    unfold Env.final
    rw [hr]
    cases he with
    | read _ _ _ _ _ outside => exact outside
    | failed _ _ _ _ outside => exact outside.giveUp
    | freed _ _ _ _ _ outside => exact outside.giveUp
    | divided _ outside => exact outside
  exact ⟨ho.nil, ho.mem⟩

/-- A file without sections is read, and its section names are looked up. -/
theorem section_names_outside : ∃ w, (readelf (.ofFile (.ofHeaders [] [] []))).run World.init
    = .ok false w ∧ w.outside = [(.sections, 0)] := by
  obtain ⟨err, w, h, hw⟩ := exists_of_returns (p := fun err w => !err && w.outside = [(.sections, 0)])
    (r := (readelf (.ofFile (.ofHeaders [] [] []))).run World.init) (by decide +kernel)
  rw [Bool.and_eq_true, Bool.not_eq_true', decide_eq_true_iff] at hw
  exact ⟨w, hw.1 ▸ h, hw.2⟩

end Readelf

end SctOs
