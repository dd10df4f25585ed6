import SctOs.CStrings

/-!
# Strings that end in a zero

The object of a string is its characters one after the other, none of them zero, and then the
terminator; its length is found at the terminator (`lengthFrom_object`).
-/

namespace CString

variable {w : ℕ}

theorem lengthFrom_append : ∀ (cs : List (BitVec w)) (n : BitVec 64), (∀ c ∈ cs, c ≠ 0#w) →
    lengthFrom (cs ++ [0#w]) n = some (n + BitVec.ofNat 64 cs.length)
  | [], n, _ => by simp [lengthFrom]
  | c :: cs, n, h => by
    have hc := h c List.mem_cons_self
    have ih := lengthFrom_append cs (n + 1) fun d hd => h d (List.mem_cons_of_mem c hd)
    rw [List.cons_append, lengthFrom, if_neg hc, ih, List.length_cons, BitVec.add_assoc,
      Nat.add_comm, ← BitVec.ofNat_add_ofNat]
    rfl

theorem lengthFrom_object (s : CString w) :
    lengthFrom s.object 0 = some (BitVec.ofNat 64 s.chars.length) := by
  rw [object, lengthFrom_append _ _ s.nonzero]
  simp

theorem length_lt (s : CString w) (hw : 8 ≤ w) : s.chars.length + 1 < 2 ^ 63 := by
  have h1 : 1 ≤ w / 8 := by omega
  exact lt_of_le_of_lt (Nat.le_mul_of_pos_right _ h1) s.fits

end CString
