import SctOs.Proofs.Walk

/-!
# Mapping many pages

A list of requests in an empty space succeeds exactly when their pages have different paths and the
pool holds the tables they need (`mapAll_ok_iff`), and then a page is translated exactly when it was
requested (`mapAll_translate`).
-/

namespace SctOs

open Bytes Radix

variable {σ : Type} {A : Allocator σ}

theorem forM_append_run {α : Type} (f : α → Run σ Unit) : ∀ (xs ys : List α) (s : Machine σ),
    ((xs ++ ys).forM f) s = match xs.forM f s with
      | .ok (_, s') => ys.forM f s'
      | .error e => .error e
  | [], _, _ => rfl
  | x :: xs, ys, s => by
    rw [List.cons_append, forM_cons_run, forM_cons_run]
    rcases f x s with e | ⟨-, s'⟩
    · rfl
    · exact forM_append_run f xs ys s'

theorem mapAll_append (ptr : U64 → U64) (allocate : Run σ U64) (r : U64) (qs qs' : List Request) :
    mapAll ptr allocate r (qs ++ qs')
      = (do mapAll ptr allocate r qs; mapAll ptr allocate r qs') := List.forM_append

theorem mapAll_refines : ∀ (qs : List Request) {r : Frame} {s : Machine σ}
    {st : Store Frame Index U64}, Models A s st → Sound links 3 r st →
    MapOutcome A s (Used 3 r st)
      (mapAll (fun p => A.base + p) A.allocate (A.base + frameAddr r) qs s)
      (assignAll links st r (qs.map Request.pair))
  | [], _, s, _, hm, _ => ⟨s, rfl, hm, OnlyPages.refl _ _ _⟩
  | q :: qs, r, s, st, hm, hs => by
    have h := mapPage_refines hm hs q.ppage q.vpage q.flags
    simp only [mapAll, forM_cons_run, List.map_cons, Request.pair, assignAll]
    change MapOutcome A s (Used 3 r st) _ (assign links st r (path q.vpage) q.entry) at h
    rcases ha : assign links st r (path q.vpage) q.entry with e | st₁ <;> rw [ha] at h
    · cases e <;> simp only [MapOutcome] at h ⊢ <;> rw [h]
    · obtain ⟨s₁, h₁, hm₁, ho₁⟩ := h
      have hi := assign_spec hs rfl ha
      obtain ⟨u, hg, -⟩ := hi.grown
      have ih := mapAll_refines qs hm₁ hi.sound
      simp only [h₁]
      revert ih
      change MapOutcome A s₁ _ _ (assignAll links st₁ r (qs.map Request.pair)) →
        MapOutcome A s _ _ (assignAll links st₁ r (qs.map Request.pair))
      rcases assignAll links st₁ r (qs.map Request.pair) with e | st'
      · cases e <;> exact id
      · rintro ⟨s', h', hm', ho'⟩
        exact ⟨s', h', hm', ho₁.trans ho' (fun _ hf => hf) fun _ hf => Used.grown hg hf⟩

section Empty

variable {r : Frame} {s s' : Machine σ} {st : Store Frame Index U64} {qs : List Request}

/-- A zeroed page outside the pool is the root of an empty space. -/
theorem models_fresh {free : List Frame} (hz : SameAt s.mem (fun _ => 0) (A.base + frameAddr r) 4096)
    (hp : A.Holds s free) (hnd : (r :: free).Nodup) :
    Models A s ⟨heapOf A.base s.mem, free⟩ ∧ Sound links 3 r ⟨heapOf A.base s.mem, free⟩
      ∧ heapOf A.base s.mem r = fun _ => none := by
  have he : heapOf A.base s.mem r = fun _ => none := by
    rw [heapOf_congr hz]
    funext i
    simp [heapOf, load, readLE_zero]
  obtain ⟨hr, hnd⟩ := List.nodup_cons.1 hnd
  refine ⟨⟨rfl, hp⟩, ⟨tree_empty he, hnd, fun f hf hb => ?_⟩, he⟩
  rw [below_empty he] at hb
  exact hr (hb ▸ hf)

theorem Used.fresh {free : List Frame} {h : Heap Frame Index U64}
    (he : h r = fun _ => none) {f : Frame} (hf : Used 3 r ⟨h, free⟩ f) : f ∈ r :: free := by
  rcases hf with hf | hf
  · rw [(below_empty he).1 hf]
    exact List.mem_cons_self
  · exact List.mem_cons_of_mem _ hf

theorem pairs_length (qs : List Request) : ∀ x ∈ qs.map Request.pair, x.1.length = 3 + 1 := by
  intro x hx
  obtain ⟨q, -, rfl⟩ := List.mem_map.1 hx
  rfl

theorem demand_empty (hr : st.heap r = fun _ => none) (qs : List Request) :
    (demand links st.heap r ((qs.map Request.pair).map Prod.fst)).card
      = tablesNeeded (qs.map Request.vpage) := by
  have hps : (qs.map Request.pair).map Prod.fst = (qs.map Request.vpage).map path := by
    simp [List.map_map, Function.comp_def, Request.pair]
  rw [demand, tablesNeeded, hps, Finset.filter_true_of_mem]
  intro q hq
  obtain ⟨p, -, hp⟩ := Finset.mem_biUnion.1 hq
  have hne := (mem_inner.1 hp).1
  cases q with
  | nil => exact absurd rfl hne
  | cons i q => simp [tableAt, hr]

variable (qs) in
/-- Requests succeed in an empty space when their paths differ and their tables can be had. -/
theorem mapAll_ok_iff (hm : Models A s st) (hs : Sound links 3 r st)
    (hr : st.heap r = fun _ => none) :
    (∃ s', mapAll (fun p => A.base + p) A.allocate (A.base + frameAddr r) qs s = .ok ((), s')) ↔
      ((qs.map Request.vpage).map path).Nodup
        ∧ tablesNeeded (qs.map Request.vpage) ≤ st.free.length := by
  have h := mapAll_refines qs hm hs
  have hps : (qs.map Request.pair).map Prod.fst = (qs.map Request.vpage).map path := by
    simp [List.map_map, Function.comp_def, Request.pair]
  have hiff := assignAll_ok_iff hs (pairs_length qs)
  rw [demand_empty hr, hps] at hiff
  have hall : ∀ x ∈ qs.map Request.pair, lookup links st.heap r x.1 = none :=
    fun x _ => lookup_empty hr _
  rw [show (((qs.map Request.vpage).map path).Nodup
      ∧ tablesNeeded (qs.map Request.vpage) ≤ st.free.length) ↔ _ from
    ⟨fun h => hiff.2 ⟨h.1, hall, h.2⟩, fun h => ⟨(hiff.1 h).1, (hiff.1 h).2.2⟩⟩]
  rcases ha : assignAll links st r (qs.map Request.pair) with e | st' <;> rw [ha] at h
  · cases e <;> simp only [MapOutcome] at h <;> simp [h]
  · obtain ⟨s', h', -, -⟩ := h
    exact ⟨fun _ => ⟨st', rfl⟩, fun _ => ⟨s', h'⟩⟩

/-- Pages with different paths can only run out of tables. -/
theorem mapAll_error (hm : Models A s st) (hs : Sound links 3 r st)
    (hr : st.heap r = fun _ => none) (hnd : ((qs.map Request.vpage).map path).Nodup) {e : Stop}
    (h : mapAll (fun p => A.base + p) A.allocate (A.base + frameAddr r) qs s = .error e) :
    e = A.stop := by
  have ho := mapAll_refines qs hm hs
  rcases ha : assignAll links st r (qs.map Request.pair) with f | st' <;> rw [ha, h] at ho
  · obtain rfl : f = .exhausted := by
      refine assignAll_error hs (pairs_length qs) ?_ (fun x _ => lookup_empty hr _) ha
      simpa only [List.map_map, Function.comp_def, Request.pair] using hnd
    exact Except.error.inj ho
  · obtain ⟨s', h', -⟩ := ho
    cases h'

/-- Where the tables can be had, only a page that is mapped is refused. -/
theorem mapAll_remap (hm : Models A s st) (hs : Sound links 3 r st)
    (hr : st.heap r = fun _ => none) (hn : tablesNeeded (qs.map Request.vpage) ≤ st.free.length)
    {e : Stop}
    (h : mapAll (fun p => A.base + p) A.allocate (A.base + frameAddr r) qs s = .error e) :
    e = .remap := by
  have ho := mapAll_refines qs hm hs
  rw [← demand_empty hr] at hn
  rcases ha : assignAll links st r (qs.map Request.pair) with f | st' <;> rw [ha, h] at ho
  · obtain rfl := assignAll_taken hs (pairs_length qs) hn ha
    exact Except.error.inj ho
  · obtain ⟨s', h', -⟩ := ho
    cases h'

theorem tablesNeeded_mono {vs ws : List U64} (h : vs ⊆ ws) : tablesNeeded vs ≤ tablesNeeded ws :=
  Finset.card_le_card <| Finset.biUnion_subset_biUnion_of_subset_left _ fun p hp => by
    rw [List.mem_toFinset] at hp ⊢
    exact List.map_subset path h hp

/-- After mapping, the space is sound and grown by pages of the pool only. -/
theorem mapAll_models (hm : Models A s st) (hs : Sound links 3 r st)
    (h : mapAll (fun p => A.base + p) A.allocate (A.base + frameAddr r) qs s = .ok ((), s')) :
    ∃ st', Models A s' st' ∧ Sound links 3 r st' ∧ (∃ u, Grown links 3 r st st' u)
      ∧ OnlyPages A.base (Used 3 r st) s.mem s'.mem
      ∧ ∀ q, q.length = 3 + 1 → ∀ e, lookup links st'.heap r q = some e ↔
        lookup links st.heap r q = some e ∨ ∃ x ∈ qs, (path x.vpage, x.entry) = (q, e) := by
  have ho := mapAll_refines qs hm hs
  rcases ha : assignAll links st r (qs.map Request.pair) with e | st' <;> rw [ha] at ho
  · cases e <;> simp only [MapOutcome] at ho <;> rw [h] at ho <;> cases ho
  · obtain ⟨s₁, h₁, hm₁, ho₁⟩ := ho
    rw [h, Except.ok.injEq, Prod.mk.injEq] at h₁
    obtain ⟨-, rfl⟩ := h₁
    obtain ⟨hs', hg, hv⟩ := assignAll_spec hs (pairs_length qs) ha
    refine ⟨st', hm₁, hs', hg, ho₁, fun q hq e => ?_⟩
    rw [hv q hq e, List.mem_map]
    rfl

theorem mapAll_translate (hm : Models A s st) (hs : Sound links 3 r st)
    (hr : st.heap r = fun _ => none)
    (h : mapAll (fun p => A.base + p) A.allocate (A.base + frameAddr r) qs s = .ok ((), s'))
    {v : U64} (hv : Canonical v) (t : Mapping) :
    walk (physical A.base s'.mem) (frameAddr r) v = some t ↔
      ∃ q ∈ qs, path q.vpage = path v ∧ mappingOf v q.entry = t := by
  obtain ⟨st', hm', hs', -, -, hl⟩ := mapAll_models hm hs h
  have ht := hs'.tree
  rw [← hm'.heap] at ht
  rw [walk_eq ht hv, hm'.heap, Option.map_eq_some_iff]
  constructor
  · rintro ⟨e, he, rfl⟩
    rcases (hl _ rfl e).1 he with he | ⟨x, hx, hxe⟩
    · rw [lookup_empty hr] at he
      cases he
    · simp only [Prod.mk.injEq] at hxe
      exact ⟨x, hx, hxe.1, by rw [hxe.2]⟩
  · rintro ⟨q, hq, hp, rfl⟩
    exact ⟨q.entry, (hl _ rfl _).2 (Or.inr ⟨q, hq, by rw [hp]⟩), rfl⟩

end Empty

end SctOs
