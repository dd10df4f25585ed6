import SctOs.Tables
import SctOs.Proofs.Pages
import SctOs.Proofs.Radix

/-!
# The tables in memory

Entries lie apart, so writing one sets one word of the heap (`heapOf_store`), and filling a page
with zeros clears one table (`heapOf_fill`).
-/

namespace SctOs

open Bytes Radix

theorem pageLevelIndex_eq (v : U64) (level : ℕ) :
    pageLevelIndex v level = (pathIndex v level).setWidth 64 := by
  apply BitVec.eq_of_toNat_eq
  simp only [pageLevelIndex, pathIndex, BitVec.toNat_and, BitVec.toNat_ushiftRight,
    BitVec.toNat_setWidth, BitVec.extractLsb'_toNat]
  rw [show (0x1ff : U64).toNat = 2 ^ 9 - 1 from rfl, Nat.and_two_pow_sub_one_eq_mod]
  omega

theorem slot_toNat (f : Frame) (i : Index) :
    (frameAddr f + 8 * i.setWidth 64).toNat = f.toNat * 4096 + 8 * i.toNat := by
  have hf := f.isLt
  have hi := i.isLt
  rw [BitVec.toNat_add, BitVec.toNat_mul, frameAddr_toNat, BitVec.toNat_setWidth]
  simp only [BitVec.reduceToNat]
  omega

/-- The distance between two places of the window does not depend on the base. -/
theorem window_sub (base x y : U64) : base + x - (base + y) = x - y := by
  rw [BitVec.sub_eq_add_neg, BitVec.neg_add, BitVec.sub_eq_add_neg]
  grind

theorem slot_apart {base : U64} {f g : Frame} {i j : Index} (h : ¬ (g = f ∧ j = i)) :
    Apart (slot base f i) 8 (slot base g j) 8 := by
  have hf := slot_toNat f i
  have hg := slot_toNat g j
  have hne : f.toNat * 4096 + 8 * i.toNat ≠ g.toNat * 4096 + 8 * j.toNat := by
    intro he
    have hi := i.isLt
    have hj := j.isLt
    exact h ⟨BitVec.eq_of_toNat_eq (by omega), BitVec.eq_of_toNat_eq (by omega)⟩
  have hd : (slot base g j - slot base f i).toNat
      = (2 ^ 64 - (f.toNat * 4096 + 8 * i.toNat) + (g.toNat * 4096 + 8 * j.toNat)) % 2 ^ 64 := by
    rw [slot, slot, BitVec.add_assoc, BitVec.add_assoc, window_sub, BitVec.toNat_sub, hf, hg]
  have hlf := f.isLt
  have hlg := g.isLt
  have hi := i.isLt
  have hj := j.isLt
  refine apart_of_sub ?_ ?_ <;> omega

theorem page_apart {base : U64} {f g : Frame} (h : g ≠ f) :
    Apart (base + frameAddr f) 4096 (base + frameAddr g) 4096 := by
  have hne : f.toNat ≠ g.toNat := fun he => h (BitVec.eq_of_toNat_eq he).symm
  have hd : (base + frameAddr g - (base + frameAddr f)).toNat
      = (2 ^ 64 - f.toNat * 4096 + g.toNat * 4096) % 2 ^ 64 := by
    rw [window_sub, BitVec.toNat_sub, frameAddr_toNat, frameAddr_toNat]
  have hlf := f.isLt
  have hlg := g.isLt
  refine apart_of_sub ?_ ?_ <;> omega

theorem slot_eq (base : U64) (f : Frame) (i : Index) :
    slot base f i = base + frameAddr f + BitVec.ofNat 64 (8 * i.toNat) := by
  rw [slot]
  congr 1

theorem load_congr {m m' : Memory} {a : U64} (h : SameAt m m' a 8) : load m a = load m' a := by
  rw [load, load, readLE_congr h]

theorem load_store (m : Memory) (a v : U64) : load (store m a v) a = v := by
  have hv : v.toNat < 256 ^ 8 := by have := v.isLt; omega
  rw [load, store, readLE_writeLE (by decide) hv, BitVec.ofNat_toNat, BitVec.setWidth_eq]

theorem load_store_apart {m : Memory} {a b v : U64} (h : Apart a 8 b 8) :
    load (store m a v) b = load m b := load_congr (sameAt_blit h)

theorem heapOf_congr {base : U64} {m m' : Memory} {f : Frame}
    (h : SameAt m m' (base + frameAddr f) 4096) : heapOf base m f = heapOf base m' f := by
  funext i
  have hi := i.isLt
  have hs : SameAt m m' (slot base f i) 8 := by
    rw [slot_eq]
    exact h.sub (by omega)
  simp only [heapOf, load_congr hs]

theorem heapOf_store {base : U64} {m : Memory} {f : Frame} {i : Index} {e : U64}
    (he : e &&& pteP ≠ 0) :
    heapOf base (store m (slot base f i) e) = put (heapOf base m) f i e := by
  funext g j
  by_cases h : g = f ∧ j = i
  · obtain ⟨rfl, rfl⟩ := h
    simp only [heapOf, load_store, if_neg he, put_self]
  · simp only [heapOf, load_store_apart (slot_apart h), put, if_neg h]

theorem heapOf_fill (base : U64) (m : Memory) (f : Frame) :
    heapOf base (fill m (base + frameAddr f) 4096 0) = clear (heapOf base m) f := by
  funext g j
  by_cases h : g = f
  · subst h
    have hj := j.isLt
    have hz : load (fill m (base + frameAddr g) 4096 0) (slot base g j) = 0 := by
      rw [load, slot_eq, readLE_zero]
      · rfl
      · intro i hi
        rw [BitVec.add_assoc, ← BitVec.ofNat_add]
        exact blit_at (by omega) (by omega)
    simp only [heapOf, hz, clear, if_true]
    rfl
  · rw [fill, heapOf_congr (sameAt_blit (page_apart h))]
    simp [clear, h]

end SctOs
