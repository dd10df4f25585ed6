import SctOs.Translated
import SctOs.Proofs.Bytes

/-!
# Memories behind a translation

As long as a program stays within addresses that lead to different places and not to the tables,
its reads and writes are those on a plain memory (`Shows.read`, `Shows.write`).
-/

namespace Bytes

namespace Translation

variable {w : ℕ} {tr : Translation w} {phys₀ phys m : Mem w} {V : BitVec w → Prop} {v : BitVec w}
  {n : ℕ}

theorem view_of_some {t : BitVec w × Bool} (h : tr phys v = some t) : tr.view phys v = phys t.1 := by
  rw [view, h]

theorem Shows.start : tr.Shows phys₀ V (tr.view phys₀) phys₀ := ⟨fun _ _ => rfl, fun _ _ => rfl⟩

section Stable

variable (hs : tr.Stable phys₀ V)

include hs

theorem Shows.leads (h : tr.Shows phys₀ V m phys) (hv : V v) : tr phys v = tr phys₀ v :=
  hs.kept phys h.outside v hv

/-- A read within the addresses is a read of `m`. -/
theorem Shows.read (h : tr.Shows phys₀ V m phys) (hv : ∀ i < n, V (v + BitVec.ofNat w i)) :
    tr.read phys v n = .ok (readLE m v n) := by
  have hmapped : ∀ i < n, (tr phys (v + BitVec.ofNat w i)).isSome := fun i hi => by
    rw [h.leads hs (hv i hi)]
    exact hs.mapped _ (hv i hi)
  rw [Translation.read, if_pos hmapped,
    readLE_congr (m := tr.view phys) fun i hi => h.inside _ (hv i hi)]

theorem Shows.poke (h : tr.Shows phys₀ V m phys) (hv : V v) {a : BitVec w}
    (ha : tr phys₀ v = some (a, true)) (b : BitVec 8) :
    ∃ phys', tr.poke phys v b = .ok phys' ∧ tr.Shows phys₀ V (Function.update m v b) phys' := by
  have hlead : tr phys v = some (a, true) := (h.leads hs hv).trans ha
  have hreached : tr.Reached phys₀ V a := ⟨v, hv, by rw [ha]; rfl⟩
  have hout : ∀ x, ¬ tr.Reached phys₀ V x → Function.update phys a b x = phys₀ x := by
    intro x hx
    have hne : x ≠ a := fun hxa => hx (hxa ▸ hreached)
    rw [Function.update_of_ne hne, h.outside x hx]
  refine ⟨Function.update phys a b, by rw [Translation.poke, hlead], hout, fun u hu => ?_⟩
  obtain ⟨t, ht⟩ := Option.isSome_iff_exists.1 (hs.mapped u hu)
  rw [view_of_some ((hs.kept _ hout u hu).trans ht)]
  by_cases huv : u = v
  · subst huv
    obtain rfl := Option.some.inj (ht.symm.trans ha)
    rw [Function.update_self, Function.update_self]
  · have hne : t.1 ≠ a := fun hta => huv (hs.inj u v hu hv (by rw [ht, ha, ← hta]; rfl))
    rw [Function.update_of_ne hne, Function.update_of_ne huv, ← h.inside u hu,
      view_of_some ((h.leads hs hu).trans ht)]

/-- A write within the addresses that may be written is a write of `m`. -/
theorem Shows.write (h : tr.Shows phys₀ V m phys) (hn : n ≤ 2 ^ w) (f : ℕ → BitVec 8)
    (hv : ∀ i < n, V (v + BitVec.ofNat w i) ∧
      ∃ a, tr phys₀ (v + BitVec.ofNat w i) = some (a, true)) :
    ∃ phys', tr.write phys v n f = .ok phys' ∧ tr.Shows phys₀ V (blit m v n f) phys' := by
  induction n with
  | zero => exact ⟨phys, rfl, blit_zero ▸ h⟩
  | succ n ih =>
    obtain ⟨phys₁, hwrite, h₁⟩ := ih (by omega) fun i hi => hv i (by omega)
    obtain ⟨hlast, a, ha⟩ := hv n (Nat.lt_succ_self n)
    obtain ⟨phys₂, hpoke, h₂⟩ := h₁.poke hs hlast ha (f n)
    rw [blit_succ hn]
    refine ⟨phys₂, ?_, h₂⟩
    rw [Translation.write, List.range_succ, List.foldlM_append]
    change (tr.write phys v n f).bind _ = _
    rw [hwrite]
    change (tr.poke phys₁ _ _).bind _ = _
    rw [hpoke]
    rfl

end Stable

end Translation

end Bytes
