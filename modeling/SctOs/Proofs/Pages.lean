import SctOs.Pages
import SctOs.Proofs.Bytes

/-!
# Arithmetic of pages and entries

An entry made from a page and flag bits names that page (`frameOf_entry`), and a canonical page is
determined by its four indices (`path_inj`).
-/

namespace SctOs

open Bytes

theorem frameAddr_toNat (f : Frame) : (frameAddr f).toNat = f.toNat * 4096 := by
  have := f.isLt
  simp only [frameAddr, BitVec.toNat_shiftLeft, BitVec.toNat_setWidth, Nat.shiftLeft_eq]
  omega

theorem frameAddr_inj {f g : Frame} (h : frameAddr f = frameAddr g) : f = g := by
  have := congrArg BitVec.toNat h
  rw [frameAddr_toNat, frameAddr_toNat] at this
  exact BitVec.eq_of_toNat_eq (by omega)

theorem frameOf_toNat (e : U64) : (frameOf e).toNat = e.toNat / 4096 % 2 ^ 36 := by
  simp [frameOf, BitVec.extractLsb'_toNat, Nat.shiftRight_eq_div_pow]

/-- Masking an entry leaves the address of its frame. -/
theorem and_pteAddrMask (e : U64) : e &&& pteAddrMask = frameAddr (frameOf e) := by
  have hm : ∀ i : Fin 64, pteAddrMask.getLsbD i = decide (12 ≤ i.val ∧ i.val < 48) := by decide
  apply BitVec.eq_of_getLsbD_eq
  intro i hi
  rw [BitVec.getLsbD_and, hm ⟨i, hi⟩]
  simp only [frameAddr, frameOf, BitVec.getLsbD_shiftLeft, BitVec.getLsbD_setWidth,
    BitVec.getLsbD_extractLsb', hi, decide_true, Bool.true_and]
  by_cases h1 : i < 12
  · simp [h1, show ¬ 12 ≤ i by omega]
  · by_cases h2 : i < 48
    · simp [h1, h2, show 12 ≤ i by omega, show i - 12 < 64 by omega, show i - 12 < 36 by omega]
    · simp [h1, h2, show ¬ i - 12 < 36 by omega]

theorem frameOf_frameAddr (f : Frame) : frameOf (frameAddr f) = f := by
  have := f.isLt
  apply BitVec.eq_of_toNat_eq
  rw [frameOf_toNat, frameAddr_toNat]
  omega

/-! ## Flags -/

theorem getLsbD_small {x : U64} (hx : x.toNat < 4096) {i : ℕ} (hi : 12 ≤ i) :
    x.getLsbD i = false := by
  have hp : 2 ^ 12 ≤ 2 ^ i := Nat.pow_le_pow_right (by omega) hi
  exact Nat.testBit_lt_two_pow (by omega)

theorem frameOf_or {x y : U64} (hy : y.toNat < 4096) : frameOf (x ||| y) = frameOf x := by
  apply BitVec.eq_of_getLsbD_eq
  intro i hi
  simp only [frameOf, BitVec.getLsbD_extractLsb', BitVec.getLsbD_or,
    getLsbD_small hy (Nat.le_add_right 12 i), Bool.or_false]

theorem frameAddr_and_small {f : Frame} {y : U64} (hy : y.toNat < 4096) :
    frameAddr f &&& y = 0 := by
  apply BitVec.eq_of_getLsbD_eq
  intro i hi
  by_cases h : i < 12
  · simp [frameAddr, h]
  · simp [getLsbD_small hy (by omega : 12 ≤ i)]

theorem or_and_self (x y : U64) : (x ||| y) &&& y = y := by
  apply BitVec.eq_of_getLsbD_eq
  intro i _
  simp only [BitVec.getLsbD_and, BitVec.getLsbD_or]
  cases x.getLsbD i <;> simp

theorem entry_present (x fl : U64) : (x ||| pteP ||| fl) &&& pteP ≠ 0 := by
  have : (x ||| pteP ||| fl) &&& pteP = pteP := by
    rw [BitVec.or_assoc, BitVec.or_comm pteP fl, ← BitVec.or_assoc, or_and_self]
  rw [this]
  decide

theorem frameOf_entry {f : Frame} {fl : U64} (hfl : fl.toNat < 4096) :
    frameOf (frameAddr f ||| pteP ||| fl) = f := by
  rw [frameOf_or hfl, frameOf_or (by decide), frameOf_frameAddr]

/-- Bits of an entry below its address are those of its flags. -/
theorem entry_and_small {f : Frame} {fl y : U64} (hy : y.toNat < 4096) :
    (frameAddr f ||| pteP ||| fl) &&& y = (pteP ||| fl) &&& y := by
  rw [BitVec.or_assoc, BitVec.and_or_distrib_right, frameAddr_and_small hy]
  exact BitVec.zero_or

/-! ## Pages -/

theorem pageOffset_toNat (x : U64) : (pageOffset x).toNat = x.toNat % 4096 := by
  rw [pageOffset, BitVec.toNat_and, show (pageSize - 1).toNat = 2 ^ 12 - 1 from rfl,
    Nat.and_two_pow_sub_one_eq_mod]

theorem pageBase_toNat (x : U64) : (pageBase x).toNat = x.toNat / 4096 * 4096 := by
  have h : pageBase x = (x >>> 12) <<< 12 := by
    have hm : ∀ i : Fin 64, (pageSize - 1).getLsbD i = decide (i.val < 12) := by decide
    apply BitVec.eq_of_getLsbD_eq
    intro i hi
    rw [pageBase, BitVec.getLsbD_and, BitVec.getLsbD_not, hm ⟨i, hi⟩]
    by_cases h : i < 12
    · simp [h]
    · simp [h, hi, show 12 + (i - 12) = i by omega]
  have := x.isLt
  rw [h, BitVec.toNat_shiftLeft, BitVec.toNat_ushiftRight, Nat.shiftRight_eq_div_pow,
    Nat.shiftLeft_eq]
  omega

theorem pageSize_toNat : pageSize.toNat = 4096 := rfl

theorem pageBase_add (v : U64) (i : ℕ) : pageBase (v + BitVec.ofNat 64 i)
    = pageBase v + pageSize * BitVec.ofNat 64 ((v.toNat % 4096 + i) / 4096) := by
  apply BitVec.eq_of_toNat_eq
  rw [pageBase_toNat, BitVec.toNat_add, BitVec.toNat_add, BitVec.toNat_mul, pageBase_toNat,
    pageSize_toNat, BitVec.toNat_ofNat, BitVec.toNat_ofNat]
  omega

theorem page_split {p : U64} (h : p.toNat % 4096 = 0) {i : ℕ} (hi : i < 4096) :
    pageBase (p + BitVec.ofNat 64 i) = p ∧ pageOffset (p + BitVec.ofNat 64 i) = BitVec.ofNat 64 i := by
  constructor <;> apply BitVec.eq_of_toNat_eq
  · rw [pageBase_toNat, BitVec.toNat_add, BitVec.toNat_ofNat]
    omega
  · rw [pageOffset_toNat, BitVec.toNat_add, BitVec.toNat_ofNat]
    omega

/-- The macro's subtraction and its rounding up wrap together. -/
theorem numPages_mod (v size : U64) :
    (numPages v size).toNat = (v.toNat % 4096 + size.toNat + 4095) % 2 ^ 64 / 4096 := by
  have hv := v.isLt
  rw [numPages, nextPage, BitVec.toNat_udiv, pageBase_toNat, BitVec.toNat_add, BitVec.toNat_sub,
    BitVec.toNat_sub, BitVec.toNat_add, pageBase_toNat, pageSize_toNat]
  simp only [BitVec.reduceToNat]
  omega

theorem numPages_toNat {v size : U64} (h : v.toNat % 4096 + size.toNat + 4095 < 2 ^ 64) :
    (numPages v size).toNat = (v.toNat % 4096 + size.toNat + 4095) / 4096 := by
  rw [numPages_mod, Nat.mod_eq_of_lt h]

/-- The pages that `numPages` counts are those with an address of the range. -/
theorem numPages_touches {v size x : U64} (h0 : size ≠ 0)
    (h : v.toNat % 4096 + size.toNat + 4095 < 2 ^ 64) :
    (∃ i < (numPages v size).toNat, x = pageBase v + pageSize * BitVec.ofNat 64 i) ↔
      ∃ i < size.toNat, x = pageBase (v + BitVec.ofNat 64 i) := by
  have hs : size.toNat ≠ 0 := fun he => h0 (BitVec.eq_of_toNat_eq he)
  rw [numPages_toNat h]
  constructor
  · rintro ⟨i, hi, rfl⟩
    refine ⟨4096 * i - v.toNat % 4096, by omega, ?_⟩
    rw [pageBase_add]
    congr 3
    omega
  · rintro ⟨i, hi, rfl⟩
    exact ⟨(v.toNat % 4096 + i) / 4096, by omega, pageBase_add v i⟩

/-- Canonical addresses one after the other are no more than there are. -/
theorem canonical_span {v : U64} {n : ℕ}
    (h : ∀ i < n, Canonical (v + BitVec.ofNat 64 i)) : n ≤ 2 ^ 48 := by
  by_contra hn
  have hv := v.isLt
  have h0 := h 0 (by omega)
  have hc := h ((2 ^ 64 + 2 ^ 47 - v.toNat) % 2 ^ 64)
  simp only [Canonical, BitVec.toNat_add, BitVec.toNat_ofNat] at h0 hc
  omega

theorem pageSize_mul_toNat {i : ℕ} (h : i < 2 ^ 52) :
    (pageSize * BitVec.ofNat 64 i).toNat = i * 4096 := by
  rw [BitVec.toNat_mul, pageSize_toNat, BitVec.toNat_ofNat]
  omega

theorem frameAddr_add {f : Frame} {i : ℕ} (h : f.toNat + i < 2 ^ 36) :
    frameAddr (f + BitVec.ofNat 36 i) = frameAddr f + pageSize * BitVec.ofNat 64 i := by
  apply BitVec.eq_of_toNat_eq
  rw [frameAddr_toNat, BitVec.toNat_add, BitVec.toNat_add, pageSize_mul_toNat (by omega),
    frameAddr_toNat, BitVec.toNat_ofNat]
  omega

theorem framesFrom_nodup {f : Frame} {n : ℕ} (h : f.toNat + n ≤ 2 ^ 36) :
    (framesFrom f n).Nodup := by
  refine List.nodup_range.map_on fun i hi j hj he => ?_
  simp only [List.mem_range] at hi hj
  have := congrArg BitVec.toNat he
  rw [BitVec.toNat_add, BitVec.toNat_add, BitVec.toNat_ofNat, BitVec.toNat_ofNat] at this
  omega

theorem exists_frame {p : U64} (h0 : p.toNat % 4096 = 0) (h : p.toNat < 2 ^ 48) :
    ∃ f, p = frameAddr f := by
  refine ⟨frameOf p, BitVec.eq_of_toNat_eq ?_⟩
  rw [frameAddr_toNat, frameOf_toNat]
  omega

theorem kernelBase_toNat : kernelBase.toNat = 2 ^ 64 - 2 ^ 30 := by decide

end SctOs
