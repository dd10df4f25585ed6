import SctOs.Stacks
import SctOs.Proofs.Bytes

/-!
# Stacks

What is pushed is on top of what was there (`Stacked.push`), and a part of the memory that stays the
same keeps the stack (`Stacked.congr`).
-/

namespace Bytes

variable {w k : ℕ} {m m' : Mem w}

theorem Stacked.congr : ∀ {sp : BitVec w} {vs : List ℕ}, Stacked k m sp vs →
    SameAt m m' sp (k * vs.length) → Stacked k m' sp vs
  | _, [], _, _ => trivial
  | sp, v :: vs, ⟨hv, hvs⟩, hs => by
    rw [List.length_cons, Nat.mul_succ, Nat.add_comm] at hs
    refine ⟨?_, hvs.congr (hs.sub le_rfl)⟩
    rw [← hv]
    exact (readLE_congr (hs.mono (Nat.le_add_right _ _))).symm

theorem Stacked.push {sp : BitVec w} {v : ℕ} {vs : List ℕ} (h : Stacked k m sp vs)
    (hlen : k * (vs.length + 1) ≤ 2 ^ w) (hv : v < 256 ^ k) :
    Stacked k (writeLE m (sp - BitVec.ofNat w k) k v) (sp - BitVec.ofNat w k) (v :: vs) := by
  rw [Nat.mul_succ] at hlen
  have hsp : sp - BitVec.ofNat w k + BitVec.ofNat w k = sp := BitVec.sub_add_cancel ..
  refine ⟨readLE_writeLE (by omega) hv, ?_⟩
  rw [hsp]
  have hapart := apart_offset (a := sp - BitVec.ofNat w k) (i := 0) (n := k) (j := k)
    (k := k * vs.length) (by omega) (by omega) (by omega)
  rw [BitVec.add_zero, hsp] at hapart
  exact h.congr (sameAt_blit hapart).symm

theorem Stacked.get : ∀ {sp : BitVec w} {vs : List ℕ}, Stacked k m sp vs → ∀ {i v : ℕ},
    vs[i]? = some v → readLE m (sp + BitVec.ofNat w (k * i)) k = v
  | sp, v :: vs, ⟨hv, _⟩, 0, v', hi => by
    rw [Nat.mul_zero, BitVec.add_zero, hv]
    exact Option.some.inj hi
  | sp, v :: vs, ⟨_, hvs⟩, i + 1, v', hi => by
    rw [Nat.mul_succ, Nat.add_comm, BitVec.ofNat_add, ← BitVec.add_assoc]
    exact hvs.get hi

theorem Stacked.drop : ∀ {sp : BitVec w} {us vs : List ℕ}, Stacked k m sp (us ++ vs) →
    Stacked k m (sp + BitVec.ofNat w (k * us.length)) vs
  | sp, [], vs, h => by rwa [List.length_nil, Nat.mul_zero, BitVec.add_zero]
  | sp, u :: us, vs, ⟨_, h⟩ => by
    rw [List.length_cons, Nat.mul_succ, Nat.add_comm, BitVec.ofNat_add, ← BitVec.add_assoc]
    exact h.drop

end Bytes
