import SctOs.Counters
import SctOs.Proofs.Stateful

/-!
# Loops with a counter

With a bound below `2 ^ w` and enough fuel, a loop adds what its turns add (`loop_gives`). With
another bound it is stuck with any fuel (`loop_stuck`): a counter narrower than its bound wraps
around.
-/

namespace Counter

open Stateful

variable {ε σ α β : Type} {w bound fuel : ℕ} {stuck : ε} {enough : Prop}
  {body : BitVec w → EStateM ε σ Unit}

theorem next_toNat {i : BitVec w} (hi : i.toNat + 1 < 2 ^ w) : (i + 1).toNat = i.toNat + 1 := by
  have hw : 1 < 2 ^ w := by omega
  have h1 : (1 : BitVec w).toNat = 1 := by
    rw [BitVec.ofNat_eq_ofNat, BitVec.toNat_ofNat, Nat.mod_eq_of_lt hw]
  rw [BitVec.toNat_add, h1, Nat.mod_eq_of_lt hi]

/-! ## What a run gives -/

section gives

variable {x : EStateM ε σ α} {f : α → EStateM ε σ β} {s t u : σ} {a : α} {b : β}

theorem gives_of_run (h : x.run s = .ok a t) : Gives stuck enough x s a t := .inl h

theorem gives_pure : Gives stuck enough (pure a : EStateM ε σ α) s a s := gives_of_run rfl

theorem gives_bind (hx : Gives stuck enough x s a t) (hf : Gives stuck enough (f a) t b u) :
    Gives stuck enough (x >>= f) s b u := by
  unfold Gives
  rw [EStateM.run_bind]
  rcases hx with hx | ⟨he, s', hx⟩ <;> rw [hx]
  · exact hf
  · exact .inr ⟨he, s', rfl⟩

theorem gives_run (h : Gives stuck enough x s a t) (he : enough) : x.run s = .ok a t :=
  h.resolve_right fun hn => hn.1 he

/-- What it returns is the same with any fuel. -/
theorem gives_unique {a' : α} {t' : σ} (h : Gives stuck enough x s a t)
    (hx : x.run s = .ok a' t') : a' = a ∧ t' = t := by
  rcases h with h | ⟨-, s', h⟩ <;> rw [h] at hx <;> cases hx
  exact ⟨rfl, rfl⟩

theorem stuck_bind (hx : Gives stuck enough x s a t)
    (hf : ∃ u, (f a).run t = .error stuck u) : ∃ u, (x >>= f).run s = .error stuck u := by
  obtain ⟨u, hu⟩ := hf
  rw [EStateM.run_bind]
  rcases hx with hx | ⟨-, s', hx⟩ <;> rw [hx]
  · exact ⟨u, hu⟩
  · exact ⟨s', rfl⟩

theorem bind_stuck (hx : ∃ t, x.run s = .error stuck t) :
    ∃ t, (x >>= f).run s = .error stuck t := by
  obtain ⟨t, ht⟩ := hx
  exact ⟨t, by rw [EStateM.run_bind, ht]⟩

end gives

/-! ## Loops -/

/-- What each turn adds, the loop adds all of. -/
theorem loop_gives {state : List α → σ} {out : ℕ → List α} {n : ℕ} (hb : bound < 2 ^ w)
    (hbody : ∀ i : BitVec w, i.toNat < bound → ∀ l : List α, (l ++ out i.toNat).length ≤ n →
      Gives stuck enough (body i) (state l) () (state (l ++ out i.toNat))) :
    ∀ {fuel : ℕ} {i : BitVec w} {l : List α}, (enough → bound - i.toNat < fuel) →
      (l ++ (List.range' i.toNat (bound - i.toNat)).flatMap out).length ≤ n →
      Gives stuck enough (loop stuck bound body fuel i) (state l) ()
        (state (l ++ (List.range' i.toNat (bound - i.toNat)).flatMap out))
  | 0, i, l, hf, _ => .inr ⟨fun he => absurd (hf he) (Nat.not_lt_zero _), _, rfl⟩
  | fuel + 1, i, l, hf, hn => by
    unfold loop
    split_ifs with hi
    · have hnext := next_toNat (i := i) (by omega)
      have hk : bound - i.toNat = bound - (i + 1).toNat + 1 := by omega
      rw [hk, List.range'_succ, List.flatMap_cons, ← hnext, ← List.append_assoc] at hn ⊢
      have hle : (l ++ out i.toNat).length ≤ n :=
        (List.length_append ▸ Nat.le_add_right _ _).trans hn
      refine gives_bind (hbody i hi l hle) (loop_gives hb hbody (fun he => ?_) hn)
      have := hf he
      omega
    · have h0 : bound - i.toNat = 0 := by omega
      rw [h0, List.range'_zero, List.flatMap_nil, List.append_nil]
      exact gives_pure

/-- A bound that the counter never reaches. -/
theorem loop_stuck (hb : 2 ^ w ≤ bound)
    (hbody : ∀ (i : BitVec w) (s : σ), ∃ t, (body i).run s = .ok () t) :
    ∀ (fuel : ℕ) (i : BitVec w) (s : σ), ∃ t, (loop stuck bound body fuel i).run s = .error stuck t
  | 0, i, s => ⟨s, rfl⟩
  | fuel + 1, i, s => by
    have hi : i.toNat < bound := i.isLt.trans_le hb
    obtain ⟨t, ht⟩ := hbody i s
    unfold loop
    rw [if_pos hi, EStateM.run_bind, ht]
    exact loop_stuck hb hbody fuel (i + 1) t

/-- A loop keeps what each turn keeps. -/
theorem loop_keeps {counts : ε → Prop} {P : σ → Prop}
    (hbody : ∀ i : BitVec w, i.toNat < bound → Keeps counts P (body i)) :
    ∀ (fuel : ℕ) (i : BitVec w), Keeps counts P (loop stuck bound body fuel i)
  | 0, _ => .throw _
  | fuel + 1, i => by
    unfold loop
    split_ifs with hi
    · exact (hbody i hi).bind fun _ => loop_keeps hbody fuel (i + 1)
    · exact .pure ()

end Counter
