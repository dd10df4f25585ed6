import SctOs.Radix

/-!
# Inserting into a radix tree

A tree depends on its own tables only (`below_congr`, `tree_congr`, `lookup_congr`), so a change
under one link leaves what lies under the others as it was (`Sound.under`), and grafting an empty
free table changes no value (`Sound.graft`). By induction on the path, an insertion sets its path
and no other (`assign_spec`) and fails exactly when the path is taken or the free tables run out
(`assign_error_iff`).
-/

namespace Radix

variable {A I W : Type*} {L : Links A W} {h h' : Heap A I W}

theorem below_self : ∀ (n : ℕ) (a : A), Below L h n a a
  | 0, _ => rfl
  | _ + 1, _ => Or.inl rfl

theorem below_child {n : ℕ} {a b : A} {i : I} {w : W} (hw : h a i = some w)
    (hb : Below L h n (L.next w) b) : Below L h (n + 1) a b := Or.inr ⟨i, w, hw, hb⟩

theorem below_congr : ∀ {n : ℕ} {a b : A}, (∀ c, Below L h n a c → h' c = h c) →
    (Below L h' n a b ↔ Below L h n a b)
  | 0, _, _, _ => Iff.rfl
  | n + 1, a, b, hc => by
    have ha := hc a (below_self _ _)
    have hn : ∀ i w, h a i = some w → (Below L h' n (L.next w) b ↔ Below L h n (L.next w) b) :=
      fun i w hw => below_congr fun c hcw => hc c (below_child hw hcw)
    simp only [Below, ha]
    exact or_congr_right (exists_congr fun i => exists_congr fun w =>
      and_congr_right fun hw => hn i w hw)

theorem tree_congr : ∀ {n : ℕ} {a : A}, (∀ c, Below L h n a c → h' c = h c) →
    (Tree L h' n a ↔ Tree L h n a)
  | 0, _, _ => Iff.rfl
  | n + 1, a, hc => by
    have ha := hc a (below_self _ _)
    have hb : ∀ i w b, h a i = some w →
        (Below L h' n (L.next w) b ↔ Below L h n (L.next w) b) :=
      fun i w b hw => below_congr fun c hcw => hc c (below_child hw hcw)
    have ht : ∀ i w, h a i = some w → (Tree L h' n (L.next w) ↔ Tree L h n (L.next w)) :=
      fun i w hw => tree_congr fun c hcw => hc c (below_child hw hcw)
    simp only [Tree, ha]
    refine and_congr ?_ ?_
    · refine forall_congr' fun i => forall_congr' fun w => imp_congr_right fun hw => ?_
      rw [ht i w hw, hb i w a hw]
    · refine forall_congr' fun i => forall_congr' fun j => forall_congr' fun u =>
        forall_congr' fun v => forall_congr' fun b => imp_congr_right fun hu =>
        imp_congr_right fun hv => ?_
      rw [hb i u b hu, hb j v b hv]

theorem lookup_congr : ∀ {n : ℕ} {a : A} {p : List I}, p.length ≤ n + 1 →
    (∀ c, Below L h n a c → h' c = h c) → lookup L h' a p = lookup L h a p
  | _, _, [], _, _ => rfl
  | n, a, [i], _, hc => by simp only [lookup, hc a (below_self _ _)]
  | 0, _, _ :: _ :: _, hp, _ => by simp at hp
  | n + 1, a, i :: j :: p, hp, hc => by
    simp only [lookup, hc a (below_self _ _)]
    rcases hw : h a i with _ | w
    · rfl
    · exact lookup_congr (by simpa using hp) fun c hcw => hc c (below_child hw hcw)

theorem tableAt_congr : ∀ {n : ℕ} {a : A} {p : List I}, p.length ≤ n →
    (∀ c, Below L h n a c → h' c = h c) → tableAt L h' a p = tableAt L h a p
  | _, _, [], _, _ => rfl
  | 0, _, _ :: _, hp, _ => by simp at hp
  | n + 1, a, i :: p, hp, hc => by
    simp only [tableAt, hc a (below_self _ _)]
    rcases hw : h a i with _ | w
    · rfl
    · exact tableAt_congr (by simpa using hp) fun c hcw => hc c (below_child hw hcw)

theorem missing_congr : ∀ {n : ℕ} {a : A} {p : List I}, p.length ≤ n + 1 →
    (∀ c, Below L h n a c → h' c = h c) → missing L h' a p = missing L h a p
  | _, _, [], _, _ => rfl
  | _, _, [_], _, _ => rfl
  | 0, _, _ :: _ :: _, hp, _ => by simp at hp
  | n + 1, a, i :: j :: p, hp, hc => by
    simp only [missing, hc a (below_self _ _)]
    rcases hw : h a i with _ | w
    · rfl
    · exact missing_congr (by simpa using hp) fun c hcw => hc c (below_child hw hcw)

/-- A table that a path leads to is one of the tree's. -/
theorem below_of_tableAt : ∀ {n : ℕ} {a b : A} {p : List I}, p.length ≤ n →
    tableAt L h a p = some b → Below L h n a b
  | n, a, b, [], _, hb => by
    simp only [tableAt, Option.some.injEq] at hb
    exact hb ▸ below_self _ _
  | 0, _, _, _ :: _, hp, _ => by simp at hp
  | n + 1, a, b, i :: p, hp, hb => by
    rcases hw : h a i with _ | w
    · simp [tableAt, hw] at hb
    · simp only [tableAt, hw, Option.bind_some] at hb
      exact below_child hw (below_of_tableAt (by simpa using hp) hb)

theorem Tree.tableAt_inj : ∀ {n : ℕ} {a b : A} {p q : List I}, Tree L h n a → p.length ≤ n →
    q.length ≤ n → tableAt L h a p = some b → tableAt L h a q = some b → p = q
  | _, _, _, [], [], _, _, _, _, _ => rfl
  | 0, _, _, _ :: _, _, _, hp, _, _, _ => by simp at hp
  | 0, _, _, _, _ :: _, _, _, hq, _, _ => by simp at hq
  | n + 1, a, b, [], j :: q, ht, _, hq, hb, hb' => by
    simp only [tableAt, Option.some.injEq] at hb
    subst hb
    rcases hw : h a j with _ | w
    · simp [tableAt, hw] at hb'
    · simp only [tableAt, hw, Option.bind_some] at hb'
      exact absurd (below_of_tableAt (by simpa using hq) hb') (ht.1 j w hw).2.2
  | n + 1, a, b, i :: p, [], ht, hp, _, hb, hb' => by
    simp only [tableAt, Option.some.injEq] at hb'
    subst hb'
    rcases hw : h a i with _ | w
    · simp [tableAt, hw] at hb
    · simp only [tableAt, hw, Option.bind_some] at hb
      exact absurd (below_of_tableAt (by simpa using hp) hb) (ht.1 i w hw).2.2
  | n + 1, a, b, i :: p, j :: q, ht, hp, hq, hb, hb' => by
    rcases hu : h a i with _ | u
    · simp [tableAt, hu] at hb
    rcases hv : h a j with _ | v
    · simp [tableAt, hv] at hb'
    simp only [tableAt, hu, hv, Option.bind_some] at hb hb'
    simp only [List.length_cons, Nat.add_le_add_iff_right] at hp hq
    have hij := ht.2 i j u v b hu hv (below_of_tableAt hp hb) (below_of_tableAt hq hb')
    subst hij
    rw [hu, Option.some.injEq] at hv
    subst hv
    rw [Tree.tableAt_inj (ht.1 i u hu).2.1 hp hq hb hb']

theorem Grown.refl {n : ℕ} {a : A} (s : Store A I W) : Grown L n a s s [] :=
  ⟨rfl, by simp, fun _ _ _ => rfl⟩

theorem Grown.trans {n : ℕ} {a : A} {s s' s'' : Store A I W} {u u' : List A}
    (h : Grown L n a s s' u) (h' : Grown L n a s' s'' u') : Grown L n a s s'' (u ++ u') := by
  refine ⟨by rw [h.1, h'.1, List.append_assoc], fun b => ?_, fun b hb hu => ?_⟩
  · rw [h'.2.1, h.2.1, List.mem_append, or_assoc]
  · simp only [List.mem_append, not_or] at hu
    rw [h'.2.2 b (fun hc => ?_) hu.2, h.2.2 b hb hu.1]
    rcases (h.2.1 b).1 hc with hc | hc
    · exact hb hc
    · exact hu.1 hc

theorem Grown.below {n : ℕ} {a b : A} {s s' : Store A I W} {u : List A}
    (h : Grown L n a s s' u) (hb : Below L s.heap n a b) : Below L s'.heap n a b :=
  (h.2.1 b).2 (Or.inl hb)

theorem Sound.of_grown {n : ℕ} {a : A} {s s' : Store A I W} {u : List A}
    (hs : Sound L n a s) (hg : Grown L n a s s' u) (ht : Tree L s'.heap n a) :
    Sound L n a s' := by
  have hnd := hs.nodup
  rw [hg.1, List.nodup_append] at hnd
  refine ⟨ht, hnd.2.1, fun b hb hbel => ?_⟩
  rcases (hg.2.1 b).1 hbel with hc | hc
  · exact hs.fresh b (by rw [hg.1]; exact List.mem_append_right _ hb) hc
  · exact hnd.2.2 b hc b hb rfl

theorem Sound.child {n : ℕ} {a : A} {s : Store A I W} {i : I} {w : W}
    (hs : Sound L (n + 1) a s) (hw : s.heap a i = some w) : Sound L n (L.next w) s :=
  ⟨(hs.tree.1 i w hw).2.1, hs.nodup, fun b hb hc => hs.fresh b hb (below_child hw hc)⟩

/-- A change under one link of `a` is a change of the tree at `a` that leaves the rest alone. -/
theorem Sound.under {n : ℕ} {a : A} {s s' : Store A I W} {i : I} {w : W} {u : List A}
    (hs : Sound L (n + 1) a s) (hw : s.heap a i = some w) (hg : Grown L n (L.next w) s s' u)
    (ht : Tree L s'.heap n (L.next w)) :
    Sound L (n + 1) a s' ∧ Grown L (n + 1) a s s' u ∧ s'.heap a = s.heap a
      ∧ ∀ j v, j ≠ i → s.heap a j = some v → ∀ c, Below L s.heap n (L.next v) c →
        s'.heap c = s.heap c := by
  have hu : ∀ b ∈ u, b ∈ s.free := fun b hb => by rw [hg.1]; exact List.mem_append_left _ hb
  have ha : s'.heap a = s.heap a :=
    hg.2.2 a (hs.tree.1 i w hw).2.2 fun hc => hs.fresh a (hu a hc) (below_self _ _)
  have hsib : ∀ j v, j ≠ i → s.heap a j = some v → ∀ c, Below L s.heap n (L.next v) c →
      s'.heap c = s.heap c := by
    intro j v hj hv c hc
    refine hg.2.2 c (fun hc' => hj (hs.tree.2 j i v w c hv hw hc hc')) fun hcu => ?_
    exact hs.fresh c (hu c hcu) (below_child hv hc)
  have hbel : ∀ j v b, s.heap a j = some v → (Below L s'.heap n (L.next v) b ↔
      Below L s.heap n (L.next v) b ∨ (j = i ∧ b ∈ u)) := by
    intro j v b hv
    by_cases hj : j = i
    · subst hj
      rw [hw, Option.some.injEq] at hv
      subst hv
      simp [hg.2.1]
    · rw [below_congr (hsib j v hj hv)]
      simp [hj]
  have htree : Tree L s'.heap (n + 1) a := by
    simp only [Tree, ha]
    refine ⟨fun j v hv => ⟨(hs.tree.1 j v hv).1, ?_, fun hb => ?_⟩,
      fun j k v v' b hv hv' hb hb' => ?_⟩
    · by_cases hj : j = i
      · subst hj
        rw [hw, Option.some.injEq] at hv
        exact hv ▸ ht
      · exact (tree_congr (hsib j v hj hv)).2 (hs.tree.1 j v hv).2.1
    · rcases (hbel j v a hv).1 hb with hb | ⟨-, hb⟩
      · exact (hs.tree.1 j v hv).2.2 hb
      · exact hs.fresh a (hu a hb) (below_self _ _)
    · rcases (hbel j v b hv).1 hb with hb | ⟨rfl, hb⟩ <;>
        rcases (hbel k v' b hv').1 hb' with hb' | ⟨rfl, hb'⟩
      · exact hs.tree.2 j k v v' b hv hv' hb hb'
      · exact absurd (below_child hv hb) (hs.fresh b (hu b hb'))
      · exact absurd (below_child hv' hb') (hs.fresh b (hu b hb))
      · rfl
  have hgrown : Grown L (n + 1) a s s' u := by
    refine ⟨hg.1, fun b => ?_, fun b hb hbu => hg.2.2 b (fun hc => hb (below_child hw hc)) hbu⟩
    simp only [Below, ha]
    constructor
    · rintro (rfl | ⟨j, v, hv, hb⟩)
      · exact Or.inl (Or.inl rfl)
      · rcases (hbel j v b hv).1 hb with hb | ⟨-, hb⟩
        · exact Or.inl (Or.inr ⟨j, v, hv, hb⟩)
        · exact Or.inr hb
    · rintro ((rfl | ⟨j, v, hv, hb⟩) | hb)
      · exact Or.inl rfl
      · exact Or.inr ⟨j, v, hv, (hbel j v b hv).2 (Or.inl hb)⟩
      · exact Or.inr ⟨i, w, hw, (hbel i w b hw).2 (Or.inr ⟨rfl, hb⟩)⟩
  exact ⟨hs.of_grown hgrown htree, hgrown, ha, hsib⟩

theorem below_empty {n : ℕ} {b c : A} (hb : h b = fun _ => none) : Below L h n b c ↔ c = b := by
  cases n with
  | zero => exact Iff.rfl
  | succ n => simp [Below, hb]

theorem tree_empty {n : ℕ} {b : A} (hb : h b = fun _ => none) : Tree L h n b := by
  cases n with
  | zero => trivial
  | succ n => simp [Tree, hb]

theorem lookup_empty {b : A} (hb : h b = fun _ => none) (p : List I) : lookup L h b p = none := by
  match p with
  | [] => rfl
  | [i] => simp [lookup, hb]
  | i :: j :: p => simp [lookup, hb]

theorem missing_empty {b : A} (hb : h b = fun _ => none) (i : I) (p : List I) :
    missing L h b (i :: p) = p.length := by
  cases p with
  | nil => rfl
  | cons j p => simp [missing, hb]

section Graft

variable [DecidableEq A] [DecidableEq I]

theorem put_self (h : Heap A I W) (a : A) (i : I) (w : W) : put h a i w a i = some w := by
  simp [put]

theorem put_other_table {h : Heap A I W} {a b : A} {i : I} {w : W} (hb : b ≠ a) :
    put h a i w b = h b := by
  funext j
  simp [put, hb]

theorem put_other_index {h : Heap A I W} {a : A} {i j : I} {w : W} (hj : j ≠ i) :
    put h a i w a j = h a j := by
  simp [put, hj]

theorem graft_new {h : Heap A I W} {a b : A} {i : I} (hb : b ≠ a) :
    graft L h a i b b = fun _ => none := by
  funext j
  simp [graft, put, clear, hb]

theorem graft_other {h : Heap A I W} {a b c : A} {i : I} (hca : c ≠ a) (hcb : c ≠ b) :
    graft L h a i b c = h c := by
  funext j
  simp [graft, put, clear, hca, hcb]

theorem graft_self {h : Heap A I W} {a b : A} {i : I} :
    graft L h a i b a i = some (L.link b) := put_self _ _ _ _

theorem graft_index {h : Heap A I W} {a b : A} {i j : I} (hb : b ≠ a) (hj : j ≠ i) :
    graft L h a i b a j = h a j := by
  simp [graft, put, clear, hb.symm, hj]

/-- Linking an empty free table where there was no link keeps the tree and all its values. -/
theorem Sound.graft {n : ℕ} {a b : A} {bs : List A} {s : Store A I W} {i : I}
    (hs : Sound L (n + 1) a s) (hi : s.heap a i = none) (hf : s.free = b :: bs) :
    Sound L (n + 1) a ⟨graft L s.heap a i b, bs⟩
      ∧ Grown L (n + 1) a s ⟨graft L s.heap a i b, bs⟩ [b] ∧ b ≠ a
      ∧ ∀ j v, j ≠ i → s.heap a j = some v → ∀ c, Below L s.heap n (L.next v) c →
        Radix.graft L s.heap a i b c = s.heap c := by
  have hbf := hs.fresh b (by simp [hf])
  have hba : b ≠ a := by rintro rfl; exact hbf (below_self _ _)
  have hnew := graft_new (L := L) (h := s.heap) (i := i) hba
  have hsib : ∀ j v, j ≠ i → s.heap a j = some v → ∀ c, Below L s.heap n (L.next v) c →
      Radix.graft L s.heap a i b c = s.heap c := by
    intro j v _ hv c hc
    refine graft_other ?_ ?_
    · rintro rfl; exact (hs.tree.1 j v hv).2.2 hc
    · rintro rfl; exact hbf (below_child hv hc)
  -- Under each link of the new table there is what was there, or the grafted table alone.
  have hlink : ∀ j v, Radix.graft L s.heap a i b a j = some v →
      (j = i ∧ v = L.link b) ∨ (j ≠ i ∧ s.heap a j = some v) := by
    intro j v hv
    by_cases hj : j = i
    · subst hj
      rw [graft_self, Option.some.injEq] at hv
      exact Or.inl ⟨rfl, hv.symm⟩
    · rw [graft_index hba hj] at hv
      exact Or.inr ⟨hj, hv⟩
  have hbel : ∀ j v c, j ≠ i → s.heap a j = some v →
      (Below L (Radix.graft L s.heap a i b) n (L.next v) c ↔ Below L s.heap n (L.next v) c) :=
    fun j v c hj hv => below_congr (hsib j v hj hv)
  have hbelb : ∀ c, Below L (Radix.graft L s.heap a i b) n (L.next (L.link b)) c ↔ c = b := by
    intro c
    rw [L.next_link, below_empty hnew]
  have htree : Tree L (Radix.graft L s.heap a i b) (n + 1) a := by
    refine ⟨fun j v hv => ?_, fun j k v v' c hv hv' hc hc' => ?_⟩
    · rcases hlink j v hv with ⟨rfl, rfl⟩ | ⟨hj, hv⟩
      · refine ⟨by rw [L.next_link], by rw [L.next_link]; exact tree_empty hnew, fun hc => ?_⟩
        exact hba ((hbelb a).1 hc).symm
      · obtain ⟨h1, h2, h3⟩ := hs.tree.1 j v hv
        exact ⟨h1, (tree_congr (hsib j v hj hv)).2 h2, fun hc => h3 ((hbel j v a hj hv).1 hc)⟩
    · rcases hlink j v hv with ⟨rfl, rfl⟩ | ⟨hj, hvj⟩ <;>
        rcases hlink k v' hv' with ⟨rfl, rfl⟩ | ⟨hk, hvk⟩
      · rfl
      · rw [hbelb] at hc
        rw [hbel k v' c hk hvk, hc] at hc'
        exact absurd (below_child hvk hc') hbf
      · rw [hbelb] at hc'
        rw [hbel j v c hj hvj, hc'] at hc
        exact absurd (below_child hvj hc) hbf
      · exact hs.tree.2 j k v v' c hvj hvk ((hbel j v c hj hvj).1 hc) ((hbel k v' c hk hvk).1 hc')
  have hgrown : Grown L (n + 1) a s ⟨Radix.graft L s.heap a i b, bs⟩ [b] := by
    refine ⟨by simp [hf], fun c => ?_, fun c hc hcb => graft_other ?_ (by simpa using hcb)⟩
    · simp only [Below, List.mem_singleton]
      constructor
      · rintro (rfl | ⟨j, v, hv, hc⟩)
        · exact Or.inl (Or.inl rfl)
        · rcases hlink j v hv with ⟨rfl, rfl⟩ | ⟨hj, hv⟩
          · exact Or.inr ((hbelb c).1 hc)
          · exact Or.inl (Or.inr ⟨j, v, hv, (hbel j v c hj hv).1 hc⟩)
      · rintro ((rfl | ⟨j, v, hv, hc⟩) | rfl)
        · exact Or.inl rfl
        · have hj : j ≠ i := by rintro rfl; rw [hi] at hv; cases hv
          exact Or.inr ⟨j, v, by rw [graft_index hba hj]; exact hv, (hbel j v c hj hv).2 hc⟩
        · exact Or.inr ⟨i, L.link c, graft_self, (hbelb c).2 rfl⟩
    · rintro rfl; exact hc (below_self _ _)
  exact ⟨hs.of_grown hgrown htree, hgrown, hba, hsib⟩

theorem Sound.grafted {n : ℕ} {a b : A} {bs : List A} {s : Store A I W} {i : I}
    (hs : Sound L (n + 1) a s) (hi : s.heap a i = none) (hf : s.free = b :: bs) :
    Sound L n b ⟨Radix.graft L s.heap a i b, bs⟩ := by
  have := (hs.graft hi hf).1.child graft_self
  rwa [L.next_link] at this

theorem lookup_graft {n : ℕ} {a b : A} {bs : List A} {s : Store A I W} {i : I}
    (hs : Sound L (n + 1) a s) (hi : s.heap a i = none) (hf : s.free = b :: bs) {q : List I}
    (hq : q.length = n + 2) : lookup L (Radix.graft L s.heap a i b) a q = lookup L s.heap a q := by
  obtain ⟨-, -, hba, hsib⟩ := hs.graft hi hf
  match q, hq with
  | k :: l :: q, hq =>
    by_cases hk : k = i
    · subst hk
      simp only [lookup, graft_self, hi, Option.bind_some, Option.bind_none, L.next_link]
      exact lookup_empty (graft_new hba) _
    · simp only [lookup, graft_index hba hk]
      rcases hv : s.heap a k with _ | v
      · rfl
      · exact lookup_congr (by simpa using hq.le) (hsib k v hk hv)

theorem tableAt_graft {n : ℕ} {a b : A} {bs : List A} {s : Store A I W} {i : I}
    (hs : Sound L (n + 1) a s) (hi : s.heap a i = none) (hf : s.free = b :: bs) {q : List I}
    (hq : q.length ≤ n + 1) : (tableAt L (Radix.graft L s.heap a i b) a q).isSome
      ↔ (tableAt L s.heap a q).isSome ∨ q = [i] := by
  obtain ⟨-, -, hba, hsib⟩ := hs.graft hi hf
  match q, hq with
  | [], _ => simp [tableAt]
  | k :: q, hq =>
    by_cases hk : k = i
    · subst hk
      simp only [tableAt, graft_self, hi, Option.bind_some, Option.bind_none, L.next_link]
      cases q with
      | nil => simp [tableAt]
      | cons l q => simp [tableAt, graft_new hba]
    · simp only [tableAt, graft_index hba hk]
      rcases hv : s.heap a k with _ | v
      · simp [hk]
      · simp [tableAt_congr (by simpa using hq) (hsib k v hk hv), hk]

end Graft

/-- What inserting `p` does: `p` gets its value, the other paths keep theirs, and the tree grows
by the tables `p` lacked. -/
structure Assigned (L : Links A W) [DecidableEq I] (n : ℕ) (a : A) (p : List I) (w : W)
    (s s' : Store A I W) : Prop where
  sound : Sound L n a s'
  grown : ∃ u, Grown L n a s s' u ∧ u.length = missing L s.heap a p
  value : ∀ q, q.length = n + 1 →
    lookup L s'.heap a q = if q = p then some w else lookup L s.heap a q
  table : ∀ q, q.length ≤ n →
    ((tableAt L s'.heap a q).isSome ↔ (tableAt L s.heap a q).isSome ∨ q <+: p)

section Assign

variable [DecidableEq A] [DecidableEq I]

theorem Assigned.leaf {a : A} {i : I} {w : W} {s : Store A I W} (hs : Sound L 0 a s) :
    Assigned L 0 a [i] w s { s with heap := put s.heap a i w } := by
  have hg : Grown L 0 a s { s with heap := put s.heap a i w } [] :=
    ⟨rfl, by simp [Below], fun b hb _ => put_other_table hb⟩
  refine ⟨hs.of_grown hg trivial, ⟨[], hg, rfl⟩, fun q hq => ?_, fun q hq => ?_⟩
  · match q, hq with
    | [k], _ =>
      by_cases hk : k = i
      · simp [lookup, hk, put_self]
      · simp [lookup, hk, put_other_index hk]
  · match q, hq with
    | [], _ => simp [tableAt]

omit [DecidableEq A] in
/-- An insertion under the link at `i` is an insertion of the longer path. -/
theorem Assigned.under {n : ℕ} {a : A} {i j : I} {p : List I} {w u : W} {s s' : Store A I W}
    (hs : Sound L (n + 1) a s) (hu : s.heap a i = some u)
    (hi : Assigned L n (L.next u) (j :: p) w s s') :
    Assigned L (n + 1) a (i :: j :: p) w s s' := by
  obtain ⟨us, hg, hlen⟩ := hi.grown
  obtain ⟨hs', hg', ha, hsib⟩ := hs.under hu hg hi.sound.tree
  refine ⟨hs', ⟨us, hg', by simpa [missing, hu] using hlen⟩, fun q hq => ?_, fun q hq => ?_⟩
  · match q, hq with
    | k :: l :: q, hq =>
      have hql : (l :: q).length = n + 1 := by simpa using hq
      by_cases hk : k = i
      · subst hk
        simp only [lookup, ha, hu, Option.bind_some, hi.value _ hql, List.cons.injEq, true_and]
      · simp only [lookup, ha, List.cons.injEq, hk, false_and, if_false]
        rcases hv : s.heap a k with _ | v
        · rfl
        · exact lookup_congr hql.le (hsib k v hk hv)
  · match q, hq with
    | [], _ => simp [tableAt]
    | k :: q, hq =>
      have hql : q.length ≤ n := by simpa using hq
      by_cases hk : k = i
      · subst hk
        simp only [tableAt, ha, hu, Option.bind_some, hi.table _ hql, List.cons_prefix_cons,
          true_and]
      · simp only [tableAt, ha, List.cons_prefix_cons, hk, false_and, or_false]
        rcases hv : s.heap a k with _ | v
        · rfl
        · simp only [Option.bind_some, tableAt_congr hql (hsib k v hk hv)]

theorem missing_graft {n : ℕ} {a b : A} {bs : List A} {s : Store A I W} {i j : I} {p : List I}
    (hs : Sound L (n + 1) a s) (hi : s.heap a i = none) (hf : s.free = b :: bs) :
    missing L s.heap a (i :: j :: p)
      = missing L (Radix.graft L s.heap a i b) a (i :: j :: p) + 1 := by
  obtain ⟨-, -, hba, -⟩ := hs.graft hi hf
  have hm := missing_empty (L := L) (graft_new (L := L) (h := s.heap) (i := i) hba) j p
  simp [missing, hi, graft_self, L.next_link, hm]

/-- An insertion after grafting the first table the path lacks is an insertion. -/
theorem Assigned.graft {n : ℕ} {a b : A} {bs : List A} {i j : I} {p : List I} {w : W}
    {s s' : Store A I W} (hs : Sound L (n + 1) a s) (hi : s.heap a i = none)
    (hf : s.free = b :: bs)
    (hins : Assigned L (n + 1) a (i :: j :: p) w ⟨graft L s.heap a i b, bs⟩ s') :
    Assigned L (n + 1) a (i :: j :: p) w s s' := by
  obtain ⟨-, hg, -, -⟩ := hs.graft hi hf
  obtain ⟨us, hg', hlen⟩ := hins.grown
  refine ⟨hins.sound, ⟨[b] ++ us, hg.trans hg', ?_⟩, fun q hq => ?_, fun q hq => ?_⟩
  · rw [missing_graft hs hi hf, List.length_append, hlen, List.length_singleton, Nat.add_comm]
  · rw [hins.value q hq, lookup_graft hs hi hf hq]
  · rw [hins.table q hq, tableAt_graft hs hi hf hq]
    constructor
    · rintro ((h | rfl) | h)
      · exact Or.inl h
      · exact Or.inr (by simp [List.cons_prefix_cons])
      · exact Or.inr h
    · rintro (h | h)
      · exact Or.inl (Or.inl h)
      · exact Or.inr h

/-- A successful insertion sets its path, keeps the tree sound and changes nothing else. -/
theorem assign_spec : ∀ {p : List I} {n : ℕ} {a : A} {w : W} {s s' : Store A I W},
    Sound L n a s → p.length = n + 1 → assign L s a p w = .ok s' → Assigned L n a p w s s'
  | [], _, _, _, _, _, _, hp, _ => by simp at hp
  | [i], n, a, w, s, s', hs, hp, h => by
    obtain rfl : n = 0 := by simpa using hp.symm
    simp only [assign] at h
    split at h
    · cases h
    · simp only [Except.ok.injEq] at h
      exact h ▸ Assigned.leaf hs
  | i :: j :: p, 0, _, _, _, _, _, hp, _ => by simp at hp
  | i :: j :: p, n + 1, a, w, s, s', hs, hp, h => by
    have hp' : (j :: p).length = n + 1 := by simpa using hp
    simp only [assign] at h
    rcases hu : s.heap a i with _ | u
    · simp only [hu] at h
      rcases hf : s.free with _ | ⟨b, bs⟩
      · simp [hf] at h
      simp only [hf] at h
      have hs₀ := (hs.graft hu hf).1
      refine Assigned.graft hs hu hf (Assigned.under hs₀ graft_self ?_)
      rw [L.next_link]
      exact assign_spec (hs.grafted hu hf) hp' h
    · simp only [hu] at h
      exact Assigned.under hs hu (assign_spec (hs.child hu) hp' h)

/-- An insertion fails exactly when the path has a value or lacks more tables than are free. -/
theorem assign_error_iff : ∀ {p : List I} {n : ℕ} {a : A} {w : W} {s : Store A I W} {e : Fault},
    Sound L n a s → p.length = n + 1 → (assign L s a p w = .error e ↔
      (e = .taken ∧ (lookup L s.heap a p).isSome)
        ∨ (e = .exhausted ∧ s.free.length < missing L s.heap a p))
  | [], _, _, _, _, _, _, hp => by simp at hp
  | [i], n, a, w, s, e, hs, hp => by
    simp only [assign, lookup, missing]
    rcases s.heap a i with _ | u
    · simp
    · simp [eq_comm]
  | i :: j :: p, 0, _, _, _, _, _, hp => by simp at hp
  | i :: j :: p, n + 1, a, w, s, e, hs, hp => by
    have hp' : (j :: p).length = n + 1 := by simpa using hp
    rcases hu : s.heap a i with _ | u
    · rcases hf : s.free with _ | ⟨b, bs⟩
      · simp [assign, lookup, missing, hu, hf, eq_comm]
      · obtain ⟨-, -, hba, -⟩ := hs.graft hu hf
        have hnew := graft_new (L := L) (h := s.heap) (i := i) hba
        simp only [assign, lookup, missing, hu, hf, Option.bind_none, List.length_cons]
        rw [assign_error_iff (hs.grafted hu hf) hp', lookup_empty hnew, missing_empty hnew]
        simp
    · simp only [assign, lookup, missing, hu, Option.bind_some]
      exact assign_error_iff (hs.child hu) hp'

theorem assign_ok_iff {p : List I} {n : ℕ} {a : A} {w : W} {s : Store A I W}
    (hs : Sound L n a s) (hp : p.length = n + 1) : (∃ s', assign L s a p w = .ok s') ↔
      lookup L s.heap a p = none ∧ missing L s.heap a p ≤ s.free.length := by
  have he := fun e => assign_error_iff (w := w) (e := e) hs hp
  rcases h : assign L s a p w with e | s'
  · simp only [reduceCtorEq, exists_false, false_iff, not_and, not_le]
    intro hn
    rcases (he e).1 h with ⟨-, h1⟩ | ⟨-, h1⟩
    · simp [hn] at h1
    · exact h1
  · simp only [Except.ok.injEq, exists_eq', true_iff]
    have h1 := (he .taken).not.1 (by simp [h])
    have h2 := (he .exhausted).not.1 (by simp [h])
    simp only [true_and, reduceCtorEq, false_and, or_false, false_or, not_lt,
      Option.not_isSome_iff_eq_none] at h1 h2
    exact ⟨h1, h2⟩

/-- What amending `p` does: its value changes by `f`, and nothing else does. -/
structure Amended (L : Links A W) [DecidableEq I] (n : ℕ) (a : A) (p : List I) (f : W → W)
    (s s' : Store A I W) : Prop where
  sound : Sound L n a s'
  grown : Grown L n a s s' []
  value : ∀ q, q.length = n + 1 →
    lookup L s'.heap a q = if q = p then (lookup L s.heap a p).map f else lookup L s.heap a q

theorem Amended.leaf {a : A} {i : I} {w : W} {f : W → W} {s : Store A I W} (hs : Sound L 0 a s)
    (hw : s.heap a i = some w) :
    Amended L 0 a [i] f s { s with heap := put s.heap a i (f w) } := by
  have hg : Grown L 0 a s { s with heap := put s.heap a i (f w) } [] :=
    ⟨rfl, by simp [Below], fun b hb _ => put_other_table hb⟩
  refine ⟨hs.of_grown hg trivial, hg, fun q hq => ?_⟩
  match q, hq with
  | [k], _ =>
    by_cases hk : k = i
    · simp [lookup, hk, put_self, hw]
    · simp [lookup, hk, put_other_index hk]

omit [DecidableEq A] in
theorem Amended.under {n : ℕ} {a : A} {i j : I} {p : List I} {u : W} {f : W → W}
    {s s' : Store A I W} (hs : Sound L (n + 1) a s) (hu : s.heap a i = some u)
    (hm : Amended L n (L.next u) (j :: p) f s s') : Amended L (n + 1) a (i :: j :: p) f s s' := by
  obtain ⟨hs', hg, ha, hsib⟩ := hs.under hu hm.grown hm.sound.tree
  refine ⟨hs', hg, fun q hq => ?_⟩
  match q, hq with
  | k :: l :: q, hq =>
    have hql : (l :: q).length = n + 1 := by simpa using hq
    by_cases hk : k = i
    · subst hk
      simp only [lookup, ha, hu, Option.bind_some, hm.value _ hql, List.cons.injEq, true_and]
    · simp only [lookup, ha, List.cons.injEq, hk, false_and, if_false]
      rcases hv : s.heap a k with _ | v
      · rfl
      · exact lookup_congr hql.le (hsib k v hk hv)

theorem amend_spec : ∀ {p : List I} {n : ℕ} {a : A} {f : W → W} {s s' : Store A I W},
    Sound L n a s → p.length = n + 1 → amend L s a f p = .ok s' → Amended L n a p f s s'
  | [], _, _, _, _, _, _, hp, _ => by simp at hp
  | [i], n, a, f, s, s', hs, hp, h => by
    obtain rfl : n = 0 := by simpa using hp.symm
    rcases hw : s.heap a i with _ | w
    · simp [amend, hw] at h
    · simp only [amend, hw, Except.ok.injEq] at h
      exact h ▸ Amended.leaf hs hw
  | i :: j :: p, 0, _, _, _, _, _, hp, _ => by simp at hp
  | i :: j :: p, n + 1, a, f, s, s', hs, hp, h => by
    rcases hu : s.heap a i with _ | u
    · simp [amend, hu] at h
    · simp only [amend, hu] at h
      exact Amended.under hs hu (amend_spec (hs.child hu) (by simpa using hp) h)

omit [DecidableEq I] [DecidableEq A] in
theorem amend_error_iff [DecidableEq A] [DecidableEq I] : ∀ {p : List I} {n : ℕ} {a : A}
    {f : W → W} {s : Store A I W} {e : Fault}, p.length = n + 1 →
    (amend L s a f p = .error e ↔ e = .absent ∧ lookup L s.heap a p = none)
  | [], _, _, _, _, _, hp => by simp at hp
  | [i], n, a, f, s, e, _ => by
    rcases hw : s.heap a i with _ | w <;> simp [amend, lookup, hw, eq_comm]
  | i :: j :: p, 0, _, _, _, _, hp => by simp at hp
  | i :: j :: p, n + 1, a, f, s, e, hp => by
    rcases hu : s.heap a i with _ | u
    · simp [amend, lookup, hu, eq_comm]
    · simp only [amend, lookup, hu, Option.bind_some]
      exact amend_error_iff (n := n) (by simpa using hp)

end Assign

section Demand

variable [DecidableEq I]

theorem mem_inner {p q : List I} :
    q ∈ inner p ↔ q ≠ [] ∧ q <+: p ∧ q.length < p.length := by
  simp only [inner, Finset.mem_erase, List.mem_toFinset, List.mem_map, List.mem_range]
  refine and_congr_right fun _ => ⟨?_, fun ⟨hq, hl⟩ => ⟨q.length, hl, ?_⟩⟩
  · rintro ⟨k, hk, rfl⟩
    exact ⟨List.take_prefix _ _, by simp [hk]⟩
  · exact (List.prefix_iff_eq_take.1 hq).symm

theorem inner_cons (i j : I) (p : List I) :
    inner (i :: j :: p) = insert [i] ((inner (j :: p)).image (List.cons i)) := by
  ext q
  simp only [mem_inner, Finset.mem_insert, Finset.mem_image, List.length_cons]
  constructor
  · rintro ⟨hq, hpre, hl⟩
    match q, hq, hpre, hl with
    | [k], _, hpre, _ => exact Or.inl (by simp_all [List.cons_prefix_cons])
    | k :: l :: q, _, hpre, hl =>
      obtain ⟨rfl, htail⟩ := List.cons_prefix_cons.1 hpre
      exact Or.inr ⟨l :: q, ⟨by simp, htail, by simpa using hl⟩, rfl⟩
  · rintro (rfl | ⟨r, ⟨hr, hpre, hl⟩, rfl⟩)
    · simp [List.cons_prefix_cons]
    · exact ⟨by simp, List.cons_prefix_cons.2 ⟨rfl, hpre⟩, by simpa using hl⟩

theorem cons_notMem_image (i : I) {s : Finset (List I)} (hs : [] ∉ s) :
    [i] ∉ s.image (List.cons i) := by
  simp [hs]

theorem nil_notMem_inner (p : List I) : [] ∉ inner p := by simp [mem_inner]

theorem card_inner : ∀ (i : I) (p : List I), (inner (i :: p)).card = p.length
  | i, [] => by simp [inner]
  | i, j :: p => by
    rw [inner_cons, Finset.card_insert_of_notMem (cons_notMem_image i (nil_notMem_inner _)),
      Finset.card_image_of_injective _ (List.cons_injective), card_inner j p, List.length_cons]

/-- The tables a path lacks are those it leads through that are not there. -/
theorem missing_eq_card : ∀ (a : A) (p : List I), missing L h a p
      = ((inner p).filter fun q => (tableAt L h a q).isNone).card
  | _, [] => by simp [missing, inner]
  | _, [i] => by simp [missing, inner]
  | a, i :: j :: p => by
    rw [inner_cons, Finset.filter_insert]
    rcases hu : h a i with _ | u
    · have hall : ∀ q ∈ (inner (j :: p)).image (List.cons i), (tableAt L h a q).isNone := by
        intro q hq
        obtain ⟨r, -, rfl⟩ := Finset.mem_image.1 hq
        simp [tableAt, hu]
      rw [if_pos (by simp [tableAt, hu]), Finset.filter_true_of_mem hall,
        Finset.card_insert_of_notMem (cons_notMem_image i (nil_notMem_inner _)),
        Finset.card_image_of_injective _ List.cons_injective, card_inner]
      simp [missing, hu]
    · rw [if_neg (by simp [tableAt, hu]), Finset.filter_image,
        Finset.card_image_of_injective _ List.cons_injective]
      simp only [missing, hu, tableAt, Option.bind_some]
      exact missing_eq_card _ _

theorem missing_le_demand (h : Heap A I W) (a : A) (p : List I) (ps : List (List I)) :
    missing L h a p ≤ (demand L h a (p :: ps)).card := by
  rw [missing_eq_card]
  refine Finset.card_le_card (Finset.filter_subset_filter _ ?_)
  rw [List.toFinset_cons, Finset.biUnion_insert]
  exact Finset.subset_union_left

/-- Inserting a path meets its part of the demand. -/
theorem Assigned.card_demand {n : ℕ} {a : A} {p : List I} {w : W} {s s' : Store A I W}
    {ps : List (List I)} (hi : Assigned L n a p w s s') (hp : p.length = n + 1)
    (hps : ∀ q ∈ ps, q.length = n + 1) :
    (demand L s.heap a (p :: ps)).card
      = missing L s.heap a p + (demand L s'.heap a ps).card := by
  have hsplit : demand L s.heap a (p :: ps)
      = ((inner p).filter fun q => (tableAt L s.heap a q).isNone) ∪ demand L s'.heap a ps := by
    ext q
    simp only [demand, List.toFinset_cons, Finset.biUnion_insert, Finset.filter_union,
      Finset.mem_union, Finset.mem_filter, Finset.mem_biUnion, List.mem_toFinset]
    constructor
    · rintro (h | ⟨⟨r, hr, hq⟩, hn⟩)
      · exact Or.inl h
      by_cases hqp : q <+: p
      · have hl := (mem_inner.1 hq).2.2
        exact Or.inl ⟨mem_inner.2 ⟨(mem_inner.1 hq).1, hqp, by rw [hp]; rw [hps r hr] at hl; omega⟩,
          hn⟩
      · refine Or.inr ⟨⟨r, hr, hq⟩, ?_⟩
        have hl := (mem_inner.1 hq).2.2
        rw [hps r hr] at hl
        have ht := hi.table q (by omega)
        rw [Option.isNone_iff_eq_none] at hn ⊢
        simpa [hn, hqp] using ht
    · rintro (h | ⟨⟨r, hr, hq⟩, hn⟩)
      · exact Or.inl h
      · have hl := (mem_inner.1 hq).2.2
        rw [hps r hr] at hl
        have ht := hi.table q (by omega)
        rw [Option.isNone_iff_eq_none] at hn
        simp only [hn, Option.isSome_none, Bool.false_eq_true, false_iff, not_or] at ht
        exact Or.inr ⟨⟨r, hr, hq⟩, by simpa using ht.1⟩
  have hdisj : Disjoint ((inner p).filter fun q => (tableAt L s.heap a q).isNone)
      (demand L s'.heap a ps) := by
    rw [Finset.disjoint_left]
    intro q hq hq'
    obtain ⟨hqp, -⟩ := Finset.mem_filter.1 hq
    obtain ⟨-, hpre, hl⟩ := mem_inner.1 hqp
    have ht := (hi.table q (by omega)).2 (Or.inr hpre)
    simp only [demand, Finset.mem_filter] at hq'
    rw [Option.isNone_iff_eq_none] at hq'
    simp [hq'.2] at ht
  rw [hsplit, Finset.card_union_of_disjoint hdisj, missing_eq_card]

variable [DecidableEq A]

omit [DecidableEq A] in
/-- After an insertion the other paths still lack values, and the inserted one has its own. -/
theorem Assigned.absent_iff {n : ℕ} {a : A} {p : List I} {w : W} {s s' : Store A I W}
    {ps : List (List I × W)} (hi : Assigned L n a p w s s') (hps : ∀ x ∈ ps, x.1.length = n + 1) :
    (∀ x ∈ ps, lookup L s'.heap a x.1 = none) ↔
      p ∉ ps.map Prod.fst ∧ ∀ x ∈ ps, lookup L s.heap a x.1 = none := by
  constructor
  · intro hx
    refine ⟨fun hmem => ?_, fun x hxm => ?_⟩
    · obtain ⟨x, hxm, hxp⟩ := List.mem_map.1 hmem
      have := hx x hxm
      rw [hi.value _ (hps x hxm), if_pos hxp] at this
      cases this
    · have := hx x hxm
      rw [hi.value _ (hps x hxm)] at this
      split_ifs at this
      exact this
  · rintro ⟨hmem, hx⟩ x hxm
    have hne : x.1 ≠ p := by
      rintro rfl
      exact hmem (List.mem_map_of_mem hxm)
    rw [hi.value _ (hps x hxm), if_neg hne]
    exact hx x hxm

/-- Inserting a list of paths succeeds exactly when they are distinct, have no values yet, and
lack no more tables together than are free. -/
theorem assignAll_ok_iff {n : ℕ} {a : A} : ∀ {ps : List (List I × W)} {s : Store A I W},
    Sound L n a s → (∀ x ∈ ps, x.1.length = n + 1) → ((∃ s', assignAll L s a ps = .ok s') ↔
      (ps.map Prod.fst).Nodup ∧ (∀ x ∈ ps, lookup L s.heap a x.1 = none)
        ∧ (demand L s.heap a (ps.map Prod.fst)).card ≤ s.free.length)
  | [], s, _, _ => by simp [assignAll, demand]
  | (p, w) :: ps, s, hs, hlen => by
    have hp : p.length = n + 1 := hlen (p, w) (by simp)
    have hps : ∀ x ∈ ps, x.1.length = n + 1 := fun x hx => hlen x (by simp [hx])
    have hps' : ∀ q ∈ ps.map Prod.fst, q.length = n + 1 := by
      intro q hq
      obtain ⟨x, hx, rfl⟩ := List.mem_map.1 hq
      exact hps x hx
    have hok := assign_ok_iff (w := w) hs hp
    simp only [assignAll, List.map_cons, List.nodup_cons, List.forall_mem_cons]
    rcases h : assign L s a p w with e | s₁
    · simp only [reduceCtorEq, exists_false, false_iff]
      rintro ⟨-, ⟨hn, -⟩, hd⟩
      obtain ⟨s₁, h₁⟩ := hok.2 ⟨hn, (missing_le_demand _ _ _ _).trans hd⟩
      rw [h] at h₁
      cases h₁
    · have hi := assign_spec hs hp h
      obtain ⟨hn, hm⟩ := hok.1 ⟨s₁, h⟩
      obtain ⟨u, hg, hu⟩ := hi.grown
      have hfree : s.free.length = missing L s.heap a p + s₁.free.length := by
        rw [hg.1, List.length_append, hu]
      simp only []
      rw [assignAll_ok_iff hi.sound hps, hi.card_demand hp hps', hfree]
      rw [hi.absent_iff hps]
      constructor
      · rintro ⟨h1, ⟨h2, h3⟩, h4⟩
        exact ⟨⟨h2, h1⟩, ⟨hn, h3⟩, by omega⟩
      · rintro ⟨⟨h1, h2⟩, ⟨-, h3⟩, h4⟩
        exact ⟨h2, ⟨h1, h3⟩, by omega⟩

/-- Distinct paths without values can only run out of tables. -/
theorem assignAll_error {n : ℕ} {a : A} {e : Fault} : ∀ {ps : List (List I × W)}
    {s : Store A I W}, Sound L n a s → (∀ x ∈ ps, x.1.length = n + 1) →
    (ps.map Prod.fst).Nodup → (∀ x ∈ ps, lookup L s.heap a x.1 = none) →
    assignAll L s a ps = .error e → e = .exhausted
  | [], s, _, _, _, _, h => by simp [assignAll] at h
  | (p, w) :: ps, s, hs, hlen, hnd, hn, h => by
    have hp : p.length = n + 1 := hlen (p, w) (by simp)
    have hps : ∀ x ∈ ps, x.1.length = n + 1 := fun x hx => hlen x (by simp [hx])
    rw [List.map_cons, List.nodup_cons] at hnd
    simp only [assignAll] at h
    rcases h₁ : assign L s a p w with e' | s₁
    · simp only [h₁, Except.error.injEq] at h
      subst h
      rcases (assign_error_iff hs hp).1 h₁ with ⟨-, ht⟩ | ⟨rfl, -⟩
      · rw [hn (p, w) (by simp)] at ht
        cases ht
      · rfl
    · simp only [h₁] at h
      have hi := assign_spec hs hp h₁
      exact assignAll_error hi.sound hps hnd.2
        ((hi.absent_iff hps).2 ⟨hnd.1, fun x hx => hn x (by simp [hx])⟩) h

/-- Where the tables suffice, only a path that has a value stops the insertion. -/
theorem assignAll_taken {n : ℕ} {a : A} {e : Fault} : ∀ {ps : List (List I × W)}
    {s : Store A I W}, Sound L n a s → (∀ x ∈ ps, x.1.length = n + 1) →
    (demand L s.heap a (ps.map Prod.fst)).card ≤ s.free.length →
    assignAll L s a ps = .error e → e = .taken
  | [], s, _, _, _, h => by simp [assignAll] at h
  | (p, w) :: ps, s, hs, hlen, hd, h => by
    have hp : p.length = n + 1 := hlen (p, w) (by simp)
    have hps : ∀ x ∈ ps, x.1.length = n + 1 := fun x hx => hlen x (by simp [hx])
    simp only [assignAll] at h
    rw [List.map_cons] at hd
    rcases h₁ : assign L s a p w with e' | s₁
    · simp only [h₁, Except.error.injEq] at h
      subst h
      rcases (assign_error_iff hs hp).1 h₁ with ⟨rfl, -⟩ | ⟨-, hm⟩
      · rfl
      · exact absurd ((missing_le_demand _ _ _ _).trans hd) (Nat.not_le_of_lt hm)
    · simp only [h₁] at h
      have hi := assign_spec hs hp h₁
      obtain ⟨u, hg, hu⟩ := hi.grown
      have hfree : s.free.length = missing L s.heap a p + s₁.free.length := by
        rw [hg.1, List.length_append, hu]
      rw [hi.card_demand hp (List.forall_mem_map.2 hps)] at hd
      exact assignAll_taken hi.sound hps (by omega) h

/-- Inserting a list of paths gives those paths their values and leaves the others theirs. -/
theorem assignAll_spec {n : ℕ} {a : A} : ∀ {ps : List (List I × W)} {s s' : Store A I W},
    Sound L n a s → (∀ x ∈ ps, x.1.length = n + 1) → assignAll L s a ps = .ok s' →
      Sound L n a s' ∧ (∃ u, Grown L n a s s' u) ∧ ∀ q, q.length = n + 1 → ∀ w,
        lookup L s'.heap a q = some w ↔ lookup L s.heap a q = some w ∨ (q, w) ∈ ps
  | [], s, s', hs, _, h => by
    simp only [assignAll, Except.ok.injEq] at h
    subst h
    exact ⟨hs, ⟨[], Grown.refl s⟩, by simp⟩
  | (p, w) :: ps, s, s', hs, hlen, h => by
    have hp : p.length = n + 1 := hlen (p, w) (by simp)
    have hn := ((assignAll_ok_iff hs hlen).1 ⟨s', h⟩).2.1 (p, w) (by simp)
    simp only [assignAll] at h
    rcases h₁ : assign L s a p w with e | s₁
    · simp [h₁] at h
    simp only [h₁] at h
    have hi := assign_spec hs hp h₁
    obtain ⟨u, hg, -⟩ := hi.grown
    obtain ⟨hs', ⟨u', hg'⟩, hv⟩ :=
      assignAll_spec hi.sound (fun x hx => hlen x (by simp [hx])) h
    refine ⟨hs', ⟨_, hg.trans hg'⟩, fun q hq v => ?_⟩
    rw [hv q hq v, hi.value q hq]
    by_cases hqp : q = p
    · subst hqp
      simp [hn, eq_comm]
    · simp [hqp]

end Demand

end Radix
