import Mathlib.Data.List.Count
import Mathlib.Data.List.Nodup
import SctOs.Ledger

/-!
# Ledgers

Allocating and freeing keep the books (`Owed.alloc`, `Owed.free`), and when nothing is owed, all that
was allocated has been freed once (`Owed.once`).
-/

namespace Ledger

open scoped List

variable {ι : Type*} {allocated freed ps qs : List ι} {p : ι}

theorem Owed.nil : Owed ([] : List ι) [] [] := ⟨List.Perm.refl _, List.nodup_nil⟩

theorem Owed.alloc (h : Owed allocated freed ps) (hp : p ∉ allocated) :
    Owed (p :: allocated) freed (p :: ps) :=
  ⟨h.1.cons p, List.nodup_cons.2 ⟨hp, h.2⟩⟩

theorem Owed.perm (h : Owed allocated freed ps) (hp : ps ~ qs) : Owed allocated freed qs :=
  ⟨(hp.symm.append_right freed).trans h.1, h.2⟩

/-- What is owed can be freed in any order. -/
theorem Owed.free (h : Owed allocated freed (qs ++ ps)) : Owed allocated (qs.reverse ++ freed) ps := by
  refine ⟨?_, h.2⟩
  calc ps ++ (qs.reverse ++ freed) ~ qs.reverse ++ (ps ++ freed) := by
        rw [← List.append_assoc, ← List.append_assoc]
        exact List.perm_append_comm.append_right freed
    _ ~ qs ++ (ps ++ freed) := (List.reverse_perm qs).append_right _
    _ ~ allocated := by rw [← List.append_assoc]; exact h.1

theorem Owed.once [DecidableEq ι] (h : Owed allocated freed []) (hp : p ∈ allocated) :
    freed.count p = 1 := by
  have hc : freed.count p = allocated.count p := h.1.count_eq p
  rw [hc, List.count_eq_one_of_mem h.2 hp]

theorem Owed.mem_freed (h : Owed allocated freed ps) (hp : p ∈ freed) : p ∈ allocated :=
  h.1.subset (List.mem_append_right _ hp)

end Ledger
