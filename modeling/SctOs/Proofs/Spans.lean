import SctOs.Spans

/-!
# Spans

Spans that tile a range lie in it (`Tiles.within`) and are disjoint (`Tiles.pairwise`). Spans on two
sides of a number are disjoint (`disjoint_of_within`), and a list of disjoint spans can be put
together from its parts (`pairwise_filter_or`).
-/

namespace Span

theorem disjoint_iff {s t : Span} : s.Disjoint t ↔
    s.length = 0 ∨ t.length = 0 ∨ s.start + s.length ≤ t.start ∨ t.start + t.length ≤ s.start := by
  simp only [Disjoint, Mem]
  constructor
  · intro h
    have := h (max s.start t.start)
    omega
  · intro h x
    omega

instance : DecidableRel Disjoint := fun _ _ => decidable_of_iff _ disjoint_iff.symm

theorem Disjoint.symm {s t : Span} (h : s.Disjoint t) : t.Disjoint s := fun x ht hs => h x hs ht

theorem disjoint_of_within {a b c d : ℕ} {s t : Span} (hbc : b ≤ c) (hs : s.Within a b)
    (ht : t.Within c d) : s.Disjoint t := by
  intro x hx hx'
  have := hs x hx
  have := ht x hx'
  omega

theorem Within.mono {a a' b b' : ℕ} {s : Span} (h : s.Within a b) (ha : a' ≤ a) (hb : b ≤ b') :
    s.Within a' b' := by
  intro x hx
  have := h x hx
  omega

theorem within_of_le {a b n k : ℕ} (ha : a ≤ n) (hb : n + k ≤ b) : Within a b ⟨n, k⟩ := by
  intro x hx
  simp only [Mem] at hx
  omega

namespace Tiles

theorem le : ∀ {ss : List Span} {a b : ℕ}, Tiles a b ss → a ≤ b
  | [], _, _, h => Nat.le_of_eq h
  | s :: ss, a, b, ⟨_, h⟩ => by
    have := le h
    omega

theorem within : ∀ {ss : List Span} {a b : ℕ}, Tiles a b ss → ∀ s ∈ ss, s.Within a b
  | s :: ss, a, b, ⟨h, hs⟩, t, ht => by
    rcases List.mem_cons.1 ht with rfl | ht
    · exact within_of_le (Nat.le_of_eq h.symm) (h ▸ le hs)
    · exact (within hs t ht).mono (by omega) le_rfl

theorem pairwise : ∀ {ss : List Span} {a b : ℕ}, Tiles a b ss → ss.Pairwise Disjoint
  | [], _, _, _ => List.Pairwise.nil
  | s :: ss, a, b, ⟨h, hs⟩ => by
    refine List.pairwise_cons.2 ⟨fun t ht => ?_, pairwise hs⟩
    exact disjoint_of_within le_rfl (within_of_le (Nat.le_of_eq h.symm) (by rw [h])) (within hs t ht)

end Tiles

/-- A symmetric relation holds among elements of two kinds when it holds in each kind and from one
to the other. -/
theorem pairwise_filter_or {α : Type*} {R : α → α → Prop} (hR : ∀ x y, R x y → R y x)
    {p q : α → Bool} {xs : List α} (hp : (xs.filter p).Pairwise R) (hq : (xs.filter q).Pairwise R)
    (hpq : ∀ x ∈ xs, p x → ∀ y ∈ xs, q y → R x y) :
    (xs.filter fun x => p x || q x).Pairwise R := by
  have hperm := List.filter_append_perm p (xs.filter fun x => p x || q x)
  rw [← hperm.pairwise_iff (fun {x y} => hR x y), List.filter_filter, List.filter_filter,
    List.pairwise_append]
  have hl : (xs.filter fun x => p x && (p x || q x)) = xs.filter p :=
    List.filter_congr fun x _ => by cases p x <;> simp
  have hr : (xs.filter fun x => !p x && (p x || q x)).Sublist (xs.filter q) := by
    refine List.monotone_filter_right _ fun x => ?_
    cases p x <;> simp
  rw [hl]
  refine ⟨hp, hq.sublist hr, fun x hx y hy => ?_⟩
  rw [List.mem_filter] at hx
  obtain ⟨hy, hqy⟩ := List.mem_filter.1 (hr.subset hy)
  exact hpq x hx.1 hx.2 y hy hqy

end Span
