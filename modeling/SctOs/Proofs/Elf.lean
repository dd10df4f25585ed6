import SctOs.Elf
import SctOs.Proofs.Bytes

/-!
# Headers in bytes

A header is read from its own bytes only (`ehdr_congr`, `phdr_congr`), and a search through the
headers sees no others.
-/

namespace SctOs

open Bytes

theorem field_congr {w i i' : ℕ} {b b' : ℕ → BitVec 8} (h : ∀ j < w / 8, b (i + j) = b' (i' + j)) :
    field w b i = field w b' i' := by
  unfold field
  rw [number_congr h]

theorem ehdr_congr {b b' : ℕ → BitVec 8} (h : ∀ i < sizeofEhdr, b i = b' i) :
    Elf64Ehdr.ofBytes b = Elf64Ehdr.ofBytes b' := by
  have hf : ∀ w i, i + w / 8 ≤ 64 → field w b i = field w b' i := fun w i hi =>
    field_congr fun j hj => h (i + j) (by unfold sizeofEhdr; omega)
  have hid : (List.range 16).map b = (List.range 16).map b' :=
    List.map_congr_left fun i hi => h i (by
      rw [List.mem_range] at hi
      unfold sizeofEhdr
      omega)
  unfold Elf64Ehdr.ofBytes
  rw [hid, hf 16 16, hf 16 18, hf 32 20, hf 64 24, hf 64 32, hf 64 40, hf 32 48, hf 16 52, hf 16 54,
    hf 16 56, hf 16 58, hf 16 60, hf 16 62] <;> norm_num

theorem phdr_congr {b b' : ℕ → BitVec 8} (h : ∀ i < sizeofPhdr, b i = b' i) :
    Elf64Phdr.ofBytes b = Elf64Phdr.ofBytes b' := by
  have hf : ∀ w i, i + w / 8 ≤ 56 → field w b i = field w b' i := fun w i hi =>
    field_congr fun j hj => h (i + j) (by unfold sizeofPhdr; omega)
  unfold Elf64Phdr.ofBytes
  rw [hf 32 0, hf 32 4, hf 64 8, hf 64 16, hf 64 24, hf 64 32, hf 64 40, hf 64 48] <;> norm_num

theorem phdrs_congr {b b' : ℕ → BitVec 8} {i i' n : ℕ}
    (h : ∀ k < sizeofPhdr * n, b (i + k) = b' (i' + k)) :
    phdrsOfBytes b i n = phdrsOfBytes b' i' n := by
  refine List.map_congr_left fun j hj => phdr_congr fun k hk => ?_
  rw [List.mem_range] at hj
  unfold sizeofPhdr at h hk ⊢
  have := h (56 * j + k) (by omega)
  rwa [← Nat.add_assoc, ← Nat.add_assoc] at this

/-! ## Searches -/

theorem find?_congr {α : Type} {p q : α → Bool} : ∀ {xs : List α}, (∀ x ∈ xs, p x = q x) →
    xs.find? p = xs.find? q
  | [], _ => rfl
  | x :: xs, h => by
    obtain ⟨hx, hs⟩ := List.forall_mem_cons.1 h
    rw [List.find?_cons, List.find?_cons, hx, find?_congr hs]

theorem findIdx?_congr {α : Type} {p q : α → Bool} : ∀ {xs : List α}, (∀ x ∈ xs, p x = q x) →
    xs.findIdx? p = xs.findIdx? q
  | [], _ => rfl
  | x :: xs, h => by
    obtain ⟨hx, hs⟩ := List.forall_mem_cons.1 h
    rw [List.findIdx?_cons, List.findIdx?_cons, hx, findIdx?_congr hs]

end SctOs
