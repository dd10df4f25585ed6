import SctOs.Proofs.Pages

/-!
# The pages of a range

`NUM_PAGES` against the pages that have an address of the range. It wraps to none when a range meets
both the first page and the last, and counts the page of an empty range that starts inside one
(`pageCount_iff`).
-/

namespace SctOs

/-- The pages with an address of `[base, base + size)`. -/
def pagesSpanned (base size : U64) : Set U64 :=
  {p | ∃ a : U64, base.toNat ≤ a.toNat ∧ a.toNat < base.toNat + size.toNat ∧ p = pageBase a}

/-- The pages from the base's on, as many as `NUM_PAGES` says. -/
def pagesCounted (base size : U64) : Set U64 :=
  {p | ∃ k < (numPages base size).toNat, p = pageBase base + BitVec.ofNat 64 k * pageSize}

def PageCount (base size : U64) : Prop :=
  (numPages base size).toNat = (pagesSpanned base size).ncard ∧
    pagesCounted base size = pagesSpanned base size

theorem mem_pagesSpanned {base size p : U64} (h : base.toNat + size.toNat ≤ 2 ^ 64) :
    p ∈ pagesSpanned base size ↔ ∃ i < size.toNat, p = pageBase (base + BitVec.ofNat 64 i) := by
  unfold pagesSpanned
  rw [Set.mem_ofPred_eq]
  constructor
  · rintro ⟨a, h1, h2, rfl⟩
    refine ⟨a.toNat - base.toNat, by omega, congrArg pageBase (BitVec.eq_of_toNat_eq ?_)⟩
    rw [BitVec.toNat_add, BitVec.toNat_ofNat]
    omega
  · rintro ⟨i, hi, rfl⟩
    have : (base + BitVec.ofNat 64 i).toNat = base.toNat + i := by
      rw [BitVec.toNat_add, BitVec.toNat_ofNat]
      omega
    exact ⟨_, by omega, by omega, rfl⟩

theorem pagesSpanned_empty {base size : U64} (h : size = 0) : pagesSpanned base size = ∅ := by
  subst h
  ext p
  simp only [pagesSpanned, Set.mem_ofPred_eq, Set.mem_empty_iff_false, iff_false]
  rintro ⟨a, h1, h2, -⟩
  simp at h2
  omega

theorem pagesCounted_ncard {base size : U64} :
    (pagesCounted base size).ncard = (numPages base size).toNat := by
  have hn : (numPages base size).toNat ≤ 2 ^ 52 := by
    have := (nextPage (base + size - 1 - pageBase base)).isLt
    rw [numPages, BitVec.toNat_udiv, pageSize_toNat]
    omega
  have himage : pagesCounted base size
      = (fun k => pageBase base + BitVec.ofNat 64 k * pageSize)
        '' ↑(Finset.range (numPages base size).toNat) := by
    ext p
    simp [pagesCounted, eq_comm]
  rw [himage, Set.InjOn.ncard_image, Set.ncard_coe_finset, Finset.card_range]
  intro k hk l hl he
  simp only [Finset.coe_range, Set.mem_Iio] at hk hl
  have h1 : pageSize * BitVec.ofNat 64 k = pageSize * BitVec.ofNat 64 l := by
    rw [BitVec.mul_comm, BitVec.mul_comm pageSize]
    exact (BitVec.add_right_inj _).1 he
  have h2 := congrArg BitVec.toNat h1
  rw [pageSize_mul_toNat (by omega), pageSize_mul_toNat (by omega)] at h2
  omega

theorem pageOffset_eq_zero {base : U64} : pageOffset base = 0 ↔ base.toNat % 4096 = 0 := by
  rw [← pageOffset_toNat]
  exact ⟨fun h => by simp [h], fun h => BitVec.eq_of_toNat_eq h⟩

theorem pageCount_of_fits {base size : U64} (h : base.toNat + size.toNat ≤ 2 ^ 64) (h0 : size ≠ 0)
    (hf : base.toNat % 4096 + size.toNat ≤ 2 ^ 64 - 4096) : PageCount base size := by
  have hset : pagesCounted base size = pagesSpanned base size := by
    ext p
    rw [mem_pagesSpanned h, ← numPages_touches h0 (by omega)]
    simp only [pagesCounted, Set.mem_ofPred_eq, BitVec.mul_comm]
  exact ⟨by rw [← hset, pagesCounted_ncard], hset⟩

theorem pageCount_of_aligned {base : U64} (ho : base.toNat % 4096 = 0) : PageCount base 0 := by
  have hcount : (numPages base 0).toNat = 0 := by
    rw [numPages_mod, ho]
    rfl
  have hset : pagesCounted base 0 = pagesSpanned base 0 := by
    rw [pagesSpanned_empty rfl]
    unfold pagesCounted
    simp only [hcount, Nat.not_lt_zero, false_and, exists_false, Set.ofPred_false]
  exact ⟨by rw [← hset, pagesCounted_ncard], hset⟩

/-- An empty range inside a page is counted as that page. -/
theorem not_pageCount_inside {base : U64} (ho : base.toNat % 4096 ≠ 0) : ¬ PageCount base 0 := by
  intro hc
  have h0 := hc.1
  rw [pagesSpanned_empty rfl, Set.ncard_empty, numPages_mod,
    show (0 : U64).toNat = 0 from rfl] at h0
  omega

/-- The last page of all makes the rounding up wrap. -/
theorem not_pageCount_wraps {base size : U64} (h : base.toNat + size.toNat ≤ 2 ^ 64)
    (hw : 2 ^ 64 - 4096 < base.toNat % 4096 + size.toNat) : ¬ PageCount base size := by
  intro hc
  have hcount : (numPages base size).toNat = 0 := by
    rw [numPages_mod]
    omega
  have hmem : pageBase base ∈ pagesSpanned base size := ⟨base, by omega, by omega, rfl⟩
  rw [← hc.2] at hmem
  simp [pagesCounted, hcount] at hmem

/-- `NUM_PAGES` is right on the empty ranges that start a page, and on the others unless they meet
the first page and the last. -/
theorem pageCount_iff (base size : U64) (h : base.toNat + size.toNat ≤ 2 ^ 64) :
    PageCount base size ↔
      if size = 0 then pageOffset base = 0
      else (pageOffset base).toNat + size.toNat ≤ 2 ^ 64 - 4096 := by
  rw [pageOffset_eq_zero, pageOffset_toNat]
  split_ifs with h0
  · subst h0
    exact ⟨fun hc => not_not.1 fun ho => not_pageCount_inside ho hc, pageCount_of_aligned⟩
  · exact ⟨fun hc => not_lt.1 fun hw => not_pageCount_wraps h hw hc, pageCount_of_fits h h0⟩

theorem pageCount_unaligned : PageCount 0x1ff8 0x10 ↔
    if (0x10 : U64) = 0 then pageOffset 0x1ff8 = 0
    else (pageOffset 0x1ff8).toNat + (0x10 : U64).toNat ≤ 2 ^ 64 - 4096 :=
  pageCount_iff 0x1ff8 0x10 (by simp)

theorem pageCount_false :
    ¬ ∀ base size : U64, base.toNat + size.toNat ≤ 2 ^ 64 → PageCount base size :=
  fun h => not_pageCount_inside (by simp) (h 0x800 0 (by simp))

end SctOs
