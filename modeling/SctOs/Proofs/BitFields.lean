import Mathlib.Tactic

/-!
# Bit fields

The bits `[lo, lo + len)` of a word: as a mask of the word (`fieldMask`), and masked out and shifted
either way.
-/

namespace BitFields

variable {w : ℕ}

/-- The word whose set bits are `[lo, lo + len)`. -/
def fieldMask (w lo len : ℕ) : BitVec w := BitVec.ofNat w (2 ^ len - 1) <<< lo

theorem getLsbD_fieldMask (lo len i : ℕ) :
    (fieldMask w lo len).getLsbD i = decide (i < w ∧ lo ≤ i ∧ i < lo + len) := by
  unfold fieldMask
  rw [BitVec.getLsbD_shiftLeft, BitVec.getLsbD_ofNat, Nat.testBit_two_pow_sub_one]
  by_cases hw : i < w
  · by_cases hl : lo ≤ i
    · have h1 : i - lo < w := by omega
      have h2 : ¬ i < lo := by omega
      simp only [hw, hl, h1, h2, decide_true, decide_false, Bool.not_false, Bool.true_and,
        true_and, decide_eq_decide]
      omega
    · simp [hl]
  · simp [hw]

theorem getLsbD_and_fieldMask (x : BitVec w) (lo len i : ℕ) :
    (x &&& fieldMask w lo len).getLsbD i = (decide (lo ≤ i ∧ i < lo + len) && x.getLsbD i) := by
  by_cases hw : i < w
  · simp only [BitVec.getLsbD_and, getLsbD_fieldMask, hw, true_and, Bool.and_comm]
  · simp [BitVec.getLsbD_of_ge _ _ (Nat.le_of_not_lt hw)]

theorem getLsbD_field_shiftLeft (x : BitVec w) (lo len k i : ℕ) :
    ((x &&& fieldMask w lo len) <<< k).getLsbD i
      = (decide (i < w ∧ lo + k ≤ i ∧ i < lo + k + len) && x.getLsbD (i - k)) := by
  rw [BitVec.getLsbD_shiftLeft, getLsbD_and_fieldMask]
  by_cases hk : i < k
  · have h : ¬ lo + k ≤ i := by omega
    simp [hk, h]
  · have h1 : lo ≤ i - k ↔ lo + k ≤ i := by omega
    have h2 : i - k < lo + len ↔ i < lo + k + len := by omega
    simp [hk, h1, h2, Bool.and_assoc]

theorem getLsbD_field_ushiftRight (x : BitVec w) (lo len k i : ℕ) :
    ((x &&& fieldMask w lo len) >>> k).getLsbD i
      = (decide (lo ≤ k + i ∧ k + i < lo + len) && x.getLsbD (k + i)) := by
  rw [BitVec.getLsbD_ushiftRight, getLsbD_and_fieldMask]

end BitFields
