import Mathlib.Data.List.Forall2

/-!
# Related lists

What holds of two lists related element by element: an element has a partner (`exists_of_mem`), and
the partners of two relations meet at their common element (`trans_of`, `both`).
-/

namespace List.Forall₂

variable {α β γ : Type} {r s : α → β → Prop} {as : List α} {bs : List β} {cs : List γ}

theorem exists_of_mem {a : α} (h : Forall₂ r as bs) (ha : a ∈ as) : ∃ b ∈ bs, r a b := by
  induction h with
  | nil => cases ha
  | cons hab _ ih =>
    rcases List.mem_cons.1 ha with rfl | ha
    · exact ⟨_, List.mem_cons_self, hab⟩
    · obtain ⟨b, hb, hr⟩ := ih ha
      exact ⟨b, List.mem_cons_of_mem _ hb, hr⟩

theorem imp_of_mem (h : Forall₂ r as bs) (hr : ∀ a ∈ as, ∀ b, r a b → s a b) : Forall₂ s as bs := by
  rw [List.forall₂_iff_zip] at h ⊢
  exact ⟨h.1, fun hab => hr _ (List.of_mem_zip hab).1 _ (h.2 hab)⟩

theorem trans_of {t : α → γ → Prop} {p : β → γ → Prop} (hr : Forall₂ r as bs)
    (ht : Forall₂ t as cs) (h : ∀ a b c, r a b → t a c → p b c) : Forall₂ p bs cs := by
  induction hr generalizing cs with
  | nil =>
    cases ht
    exact .nil
  | cons hab _ ih =>
    cases ht with
    | cons hac ht => exact .cons (h _ _ _ hab hac) (ih ht)

theorem both (hr : Forall₂ r as bs) (hs : Forall₂ s as bs) : ∀ a ∈ as, ∃ b, r a b ∧ s a b := by
  induction hr with
  | nil => exact fun a ha => absurd ha List.not_mem_nil
  | cons hab _ ih =>
    cases hs with
    | cons hab' hs => exact List.forall_mem_cons.2 ⟨⟨_, hab, hab'⟩, ih hs⟩

theorem zip_zipWith {p : α × β → γ → Prop} {f : α → β → γ} :
    ∀ {as : List α} {bs : List β}, (∀ a ∈ as, ∀ b, p (a, b) (f a b)) →
      Forall₂ p (as.zip bs) (List.zipWith f as bs)
  | [], _, _ => by simp
  | _ :: _, [], _ => by simp
  | a :: as, b :: bs, h => by
    obtain ⟨ha, has⟩ := List.forall_mem_cons.1 h
    exact .cons (ha b) (zip_zipWith has)

end List.Forall₂
