import SctOs.Chains

/-!
# Linked lists

A list by links is unique (`chain_unique`) and has no element twice (`chain_nodup`). Lists that
start alike can be told apart when they are put together (`flatten_inj`).
-/

namespace Chains

variable {α : Type} {next : α → Option α} {stop a b : α} {l m : List α}

theorem chain_unique (h : Chain next stop a l) (h' : Chain next stop a m) : l = m := by
  induction h generalizing m with
  | nil =>
    cases h' with
    | nil => rfl
    | cons hne => exact absurd rfl hne
  | cons hne hnext _ ih =>
    cases h' with
    | nil => exact absurd rfl hne
    | cons _ hnext' hl =>
      cases hnext.symm.trans hnext'
      rw [ih hl]

theorem chain_mem (h : Chain next stop a l) (hb : b ∈ l) :
    ∃ m, Chain next stop b m ∧ m.length ≤ l.length := by
  induction h with
  | nil => cases hb
  | @cons a c l hne hnext hl ih =>
    rcases List.mem_cons.1 hb with rfl | hb
    · exact ⟨b :: l, .cons hne hnext hl, Nat.le_refl _⟩
    · obtain ⟨m, hm, hle⟩ := ih hb
      exact ⟨m, hm, Nat.le_succ_of_le hle⟩

theorem chain_nodup (h : Chain next stop a l) : l.Nodup := by
  induction h with
  | nil => exact List.nodup_nil
  | @cons a c l hne hnext hl ih =>
    refine List.nodup_cons.2 ⟨fun ha => ?_, ih⟩
    obtain ⟨m, hm, hle⟩ := chain_mem hl ha
    have heq := chain_unique (.cons hne hnext hl) hm
    rw [← heq, List.length_cons] at hle
    omega

theorem flatten_head {ls ms : List (List α)}
    (h : List.Forall₂ (fun l m => l.head? = m.head?) ls ms) :
    ls.flatten.head? = ms.flatten.head? := by
  induction h with
  | nil => rfl
  | cons hhead _ ih => simp [List.head?_append, hhead, ih]

/-- The heads of lists show where each of them starts. -/
theorem flatten_inj {ls ms : List (List α)}
    (h : List.Forall₂ (fun l m => l.head? = m.head?) ls ms) (heq : ls.flatten = ms.flatten)
    (hnodup : ms.flatten.Nodup) : ls = ms := by
  induction h with
  | nil => rfl
  | @cons l m ls ms hhead hrest ih =>
    rw [List.flatten_cons, List.flatten_cons] at heq
    rw [List.flatten_cons] at hnodup
    have hlm : l = m := by
      rcases hms : ms.flatten with _ | ⟨b, ys⟩
      · have hls : ls.flatten = [] :=
          List.head?_eq_none_iff.1 (by rw [flatten_head hrest, hms]; rfl)
        rwa [hls, hms, List.append_nil, List.append_nil] at heq
      · obtain ⟨xs, hls⟩ : ∃ xs, ls.flatten = b :: xs :=
          List.head?_eq_some_iff.1 (by rw [flatten_head hrest, hms]; rfl)
        rw [hms] at hnodup
        rw [hls, hms] at heq
        -- The head of what follows occurs once.
        have hb := (List.nodup_middle.1 hnodup).notMem
        rw [List.mem_append, not_or] at hb
        exact ((List.append_cons_inj_of_notMem hb.1 hb.2).1 heq.symm).1.symm
    rw [hlm] at heq ⊢
    rw [ih (List.append_cancel_left heq) (List.nodup_append.1 hnodup).2.1]

end Chains
