import SctOs.InsertionSort

/-!
# Insertion sort in place

The sort is the insertion sort of lists, from the other end (`sort_eq`). So it sorts
(`sorted_pairwise`), and elements that may stand on either side of each other keep their order
(`sorted_stable`).
-/

namespace InsertionSort

variable {α : Type} {r : α → α → Prop} [DecidableRel r]

theorem swap_subset {l m : List α} {i j : ℕ} (h : swap l i j = some m) : m ⊆ l := by
  simp only [swap, Option.bind_eq_bind, Option.bind_eq_some_iff, Option.pure_def,
    Option.some.injEq] at h
  obtain ⟨tmp, htmp, e2, he2, rfl⟩ := h
  intro x hx
  rcases List.mem_or_eq_of_mem_set hx with hx | rfl
  · rcases List.mem_or_eq_of_mem_set hx with hx | rfl
    · exact hx
    · exact List.mem_of_getElem? he2
  · exact List.mem_of_getElem? htmp

theorem sink_subset : ∀ {i : ℕ} {l m : List α}, sink r i l = some m → m ⊆ l
  | 0, l, m, h => by
    cases h
    exact List.Subset.refl l
  | j + 1, l, m, h => by
    simp only [sink, Option.bind_eq_bind, Option.bind_eq_some_iff] at h
    obtain ⟨here, -, back, -, h⟩ := h
    split_ifs at h
    · cases h
      exact List.Subset.refl l
    · obtain ⟨l', hl', h⟩ := Option.bind_eq_some_iff.1 h
      exact List.Subset.trans (sink_subset h) (swap_subset hl')

theorem foldlM_subset : ∀ {is : List ℕ} {l m : List α},
    is.foldlM (fun l i => sink r i l) l = some m → m ⊆ l
  | [], l, m, h => by
    cases h
    exact List.Subset.refl l
  | i :: is, l, m, h => by
    rw [List.foldlM_cons] at h
    obtain ⟨l', hl', h⟩ := Option.bind_eq_some_iff.1 h
    exact List.Subset.trans (foldlM_subset h) (sink_subset hl')

/-- However many elements are sorted, there is nothing new in the list. -/
theorem sort_subset {n : ℕ} {l m : List α} (h : sort r n l = some m) : m ⊆ l := foldlM_subset h

theorem swap_neighbours (l : List α) (back here : α) (rest : List α) :
    swap (l ++ back :: here :: rest) (l.length + 1) l.length =
      some (l ++ here :: back :: rest) := by
  simp [swap]

theorem sink_succ (l : List α) (back here : α) (rest : List α) :
    sink r (l.length + 1) (l ++ back :: here :: rest) =
      if r back here then some (l ++ back :: here :: rest)
      else sink r l.length (l ++ here :: back :: rest) := by
  rw [sink, swap_neighbours]
  simp

/-- Sinking is insertion, into the reverse of what is before. -/
theorem sink_eq (x : α) : ∀ l rest : List α, sink r l.length (l.reverse ++ x :: rest) =
    some ((l.orderedInsert (Function.swap r) x).reverse ++ rest)
  | [], rest => rfl
  | back :: l, rest => by
    have hstep := sink_succ (r := r) l.reverse back x rest
    rw [List.length_reverse] at hstep
    rw [List.length_cons, List.reverse_cons, List.append_assoc, List.singleton_append, hstep,
      List.orderedInsert_cons]
    by_cases hr : r back x
    · rw [if_pos hr, if_pos hr]
      simp
    · rw [if_neg hr, if_neg hr, sink_eq x l (back :: rest)]
      simp

theorem foldlM_sink (rest : List α) : ∀ l sorted : List α,
    (List.range' sorted.length l.length).foldlM (fun l i => sink r i l)
        (sorted.reverse ++ (l ++ rest)) =
      some ((l.foldl (fun l x => l.orderedInsert (Function.swap r) x) sorted).reverse ++ rest)
  | [], sorted => rfl
  | x :: l, sorted => by
    have hn : sorted.length + 1 = (sorted.orderedInsert (Function.swap r) x).length := by
      rw [List.orderedInsert_length]
    rw [List.length_cons, List.range'_succ, List.foldlM_cons, List.cons_append, sink_eq, hn]
    exact foldlM_sink rest l _

/-- What `l` is after the sort. -/
def sorted (r : α → α → Prop) [DecidableRel r] (l : List α) : List α :=
  (l.reverse.insertionSort (Function.swap r)).reverse

theorem sort_eq (l rest : List α) : sort r l.length (l ++ rest) = some (sorted r l ++ rest) := by
  rcases l with _ | ⟨x, l⟩
  · rfl
  · have h := foldlM_sink (r := r) rest l [x]
    rw [← List.foldr_reverse] at h
    have hsorted : sorted r (x :: l) = (l.reverse.foldr
        (fun x l => l.orderedInsert (Function.swap r) x) [x]).reverse := by
      simp [sorted, List.insertionSort]
    rw [hsorted]
    exact h

theorem sorted_perm (l : List α) : (sorted r l).Perm l :=
  (List.reverse_perm _).trans ((List.perm_insertionSort _ _).trans (List.reverse_perm _))

theorem sorted_pairwise [Std.Total r] [IsTrans α r] (l : List α) : (sorted r l).Pairwise r :=
  List.pairwise_reverse.2 (List.pairwise_insertionSort (Function.swap r) l.reverse)

theorem sorted_stable {p : α → Bool} (hp : ∀ a b, p a → p b → r a b) (l : List α) :
    (sorted r l).filter p = l.filter p := by
  have hpair : (l.reverse.filter p).Pairwise (Function.swap r) :=
    List.pairwise_of_forall_mem_list fun a ha b hb =>
      hp b a (List.of_mem_filter hb) (List.of_mem_filter ha)
  -- Sorting leaves the elements in place among themselves, and there are as many as before.
  have hsub : (l.reverse.filter p).Sublist
      ((l.reverse.insertionSort (Function.swap r)).filter p) := by
    have h := (List.sublist_insertionSort hpair List.filter_sublist).filter p
    simpa [List.filter_filter] using h
  have heq := hsub.eq_of_length ((List.perm_insertionSort _ l.reverse).filter p).length_eq.symm
  rw [sorted, List.filter_reverse, ← heq, List.filter_reverse, List.reverse_reverse]

end InsertionSort
