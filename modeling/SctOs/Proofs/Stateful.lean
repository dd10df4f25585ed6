import SctOs.Stateful

/-!
# Runs that may stop

A sequence ends when its first part and then the rest do (`run_bind_ok`), so it keeps what all its
parts keep (`Keeps.bind`).
-/

namespace Stateful

variable {ε σ α β : Type} {counts : ε → Prop} {P : σ → Prop} {Q : α → Prop} {x : EStateM ε σ α}
  {f : α → EStateM ε σ β} {s t u : σ} {a : α} {b : β}

theorem run_bind_eq (h : x.run s = .ok a t) : (x >>= f).run s = (f a).run t := by
  rw [EStateM.run_bind, h]

theorem run_bind_ok : (x >>= f).run s = .ok b u ↔
    ∃ a t, x.run s = .ok a t ∧ (f a).run t = .ok b u := by
  rw [EStateM.run_bind]
  rcases x.run s with ⟨a, t⟩ | ⟨e, t⟩ <;> simp

theorem Keeps.ok (h : Keeps counts P x) (hr : x.run s = .ok a t) (hs : P s) : P t := by
  have h := h s hs
  rw [hr] at h
  exact h

theorem Keeps.final (h : Keeps (fun _ => True) P x) (hs : P s) : P (final (x.run s)) := by
  have h := h s hs
  rcases hr : x.run s with ⟨a, t⟩ | ⟨e, t⟩ <;> rw [hr] at h
  · exact h
  · exact h trivial

theorem keeps_of_final (h : ∀ s, P s → P (final (x.run s))) : Keeps counts P x := by
  intro s hs
  have h := h s hs
  rcases hr : x.run s with ⟨a, t⟩ | ⟨e, t⟩ <;> rw [hr] at h
  · exact h
  · exact fun _ => h

theorem keeps_of_ok (h : ∀ s a t, x.run s = .ok a t → P s → P t) :
    Keeps (fun _ => False) P x := by
  intro s hs
  rcases hr : x.run s with ⟨a, t⟩ | ⟨e, t⟩
  · exact h s a t hr hs
  · exact False.elim

theorem Keeps.pure (a : α) : Keeps counts P (Pure.pure a : EStateM ε σ α) := fun _ h => h

theorem Keeps.throw (e : ε) : Keeps counts P (MonadExcept.throw e : EStateM ε σ α) := fun _ h _ => h

theorem Keeps.bind (hx : Keeps counts P x) (hf : ∀ a, Keeps counts P (f a)) :
    Keeps counts P (x >>= f) := by
  intro s hs
  have h := hx s hs
  rw [EStateM.run_bind]
  rcases hr : x.run s with ⟨a, t⟩ | ⟨e, t⟩ <;> rw [hr] at h
  · exact hf a t h
  · exact h

theorem reads_bind (hx : Reads Q x) (hf : ∀ a, Q a → Keeps (fun _ => False) P (f a)) :
    Keeps (fun _ => False) P (x >>= f) := by
  refine keeps_of_ok fun s b u h hs => ?_
  obtain ⟨a, t, hxt, hfu⟩ := run_bind_ok.1 h
  obtain ⟨rfl, ha⟩ := hx s a t hxt
  exact (hf a ha).ok hfu hs

end Stateful
