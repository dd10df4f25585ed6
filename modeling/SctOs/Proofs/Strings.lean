import SctOs.Strings
import SctOs.Proofs.CStrings

/-!
# String comparison

`strncmp` stops at the first difference or at the end of `p`, which comes before its bound. So
`strcmp` compares as the lexicographic order of unsigned bytes does (`strcmp_order`).
-/

namespace SctOs

open CString

/-- The sign of a comparison result is that of the order of the two lists. -/
def Orders (r : ℤ) (p q : List (BitVec 8)) : Prop :=
  (r = 0 ↔ p = q) ∧ (r < 0 ↔ p < q) ∧ (0 < r ↔ q < p)

theorem strncmp_next {c : BitVec 8} {n : BitVec 64} (hn : n ≠ 0#64) (hc : c ≠ 0#8)
    (p q : List (BitVec 8)) : strncmp (c :: p) (c :: q) n = strncmp p q (n - 1) := by
  unfold strncmp
  rw [strncmpLoop, if_neg hn, if_neg hc, if_pos rfl]

theorem strncmp_stop {c d : BitVec 8} {n : BitVec 64} (hn : n ≠ 0#64) (h : c = 0#8 ∨ c ≠ d)
    (p q : List (BitVec 8)) :
    strncmp (c :: p) (d :: q) n = some ((c.toNat : ℤ) - d.toNat) := by
  have hloop : strncmpLoop (c :: p) (d :: q) n = some (c :: p, d :: q, n) := by
    rw [strncmpLoop, if_neg hn]
    by_cases h0 : c = 0#8
    · rw [if_pos h0]
    · rw [if_neg h0]
      exact if_neg (h.resolve_left h0)
  unfold strncmp
  rw [hloop]
  exact if_neg hn

theorem orders_cons {c : BitVec 8} {r : ℤ} {p q : List (BitVec 8)} (h : Orders r p q) :
    Orders r (c :: p) (c :: q) := by
  unfold Orders at h ⊢
  simpa [List.cons_lt_cons_iff] using h

theorem orders_ne {c d : BitVec 8} (h : c ≠ d) (p q : List (BitVec 8)) :
    Orders ((c.toNat : ℤ) - d.toNat) (c :: p) (d :: q) := by
  have hne : c.toNat ≠ d.toNat := fun he => h (BitVec.eq_of_toNat_eq he)
  unfold Orders
  simp only [List.cons_lt_cons_iff, List.cons.injEq, h, h.symm, false_and, or_false, iff_false,
    BitVec.lt_def]
  omega

theorem ne_zero_of_lt {k : ℕ} {n : BitVec 64} (h : k < n.toNat) : n ≠ 0#64 := by
  rintro rfl
  exact absurd h (Nat.not_lt_zero k)

/-- Comparing two strings with a bound beyond the first one's end. -/
theorem strncmp_orders : ∀ (p q : List (BitVec 8)) (n : BitVec 64), (∀ c ∈ p, c ≠ 0#8) →
    (∀ c ∈ q, c ≠ 0#8) → p.length < n.toNat →
    ∃ r, strncmp (p ++ [0#8]) (q ++ [0#8]) n = some r ∧ Orders r p q
  | [], q, n, _, hq, hn => by
    have hn0 := ne_zero_of_lt hn
    rcases q with _ | ⟨d, q⟩
    · exact ⟨0, strncmp_stop hn0 (.inl rfl) [] [], by simp [Orders]⟩
    · have hd : d.toNat ≠ 0 := fun he => hq d List.mem_cons_self (BitVec.eq_of_toNat_eq he)
      refine ⟨_, strncmp_stop hn0 (.inl rfl) [] _, ?_⟩
      unfold Orders
      simp
      omega
  | c :: p, [], n, hp, _, hn => by
    have hn0 := ne_zero_of_lt hn
    have hc := hp c List.mem_cons_self
    have hc' : c.toNat ≠ 0 := fun he => hc (BitVec.eq_of_toNat_eq he)
    refine ⟨_, strncmp_stop hn0 (.inr hc) _ [], ?_⟩
    unfold Orders
    simp
    omega
  | c :: p, d :: q, n, hp, hq, hn => by
    have hn0 := ne_zero_of_lt hn
    by_cases hcd : c = d
    · subst hcd
      have hlen : p.length < (n - 1).toNat := by
        have := n.isLt
        rw [List.length_cons] at hn
        rw [BitVec.toNat_sub]
        simp only [BitVec.reduceToNat]
        omega
      obtain ⟨r, hr, ho⟩ := strncmp_orders p q (n - 1)
        (fun x hx => hp x (List.mem_cons_of_mem c hx))
        (fun x hx => hq x (List.mem_cons_of_mem c hx)) hlen
      exact ⟨r, (strncmp_next hn0 (hp c List.mem_cons_self) _ _).trans hr, orders_cons ho⟩
    · exact ⟨_, strncmp_stop hn0 (.inr hcd) _ _, orders_ne hcd p q⟩

/-- Both lengths are those of `p`, so the bound is just beyond its terminator. -/
theorem strcmp_eq (p : CString 8) (q : List (BitVec 8)) :
    strcmp p.object q = strncmp p.object q (BitVec.ofNat 64 p.chars.length + 1) := by
  unfold strcmp strlen
  rw [lengthFrom_object]
  simp

theorem strcmp_order (p q : CString 8) :
    ∃ r, strcmp p.object q.object = some r ∧ Orders r p.chars q.chars := by
  have hp := p.length_lt le_rfl
  rw [strcmp_eq]
  refine strncmp_orders _ _ _ p.nonzero q.nonzero ?_
  rw [BitVec.toNat_add, BitVec.toNat_ofNat]
  simp only [BitVec.reduceToNat]
  omega

end SctOs
