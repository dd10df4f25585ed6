import SctOs.InPlace

/-!
# Loops that rewrite an array in place

The merging loop leaves the merged list in a prefix of the array (`mergeStep_run`) and the slots it
has still to read as they were (`mergeStep_unread`); no two elements that it keeps could be merged
(`merged_chain`). The replacing loop leaves the replaced list (`scanStep_run`).
-/

namespace InPlace

variable {α β : Type*}

theorem getElem!_middle [Inhabited α] (xs ys : List α) (x : α) : (xs ++ x :: ys)[xs.length]! = x := by
  simp

theorem set_middle (xs ys : List α) (x y : α) :
    (xs ++ x :: ys).set xs.length y = xs ++ y :: ys := by
  simp

/-- The slots after the last element kept are stale until the loop reads them. -/
theorem mergeStep_run [Inhabited α] (prepare : α → α) (joins : α → α → Prop) [DecidableRel joins]
    (join : α → α → α) : ∀ (rest kept stale tail : List α) (p : α),
    ∃ stale' prev, (List.range' (kept.length + 1 + stale.length) rest.length).foldl
        (mergeStep prepare joins join)
        ⟨kept ++ p :: (stale ++ (rest ++ tail)), kept.length, kept.length + 1⟩
      = ⟨kept ++ merged joins join p (rest.map prepare) ++ (stale' ++ tail), prev,
        kept.length + (merged joins join p (rest.map prepare)).length⟩
      ∧ stale'.length + (merged joins join p (rest.map prepare)).length
        = stale.length + rest.length + 1
  | [], kept, stale, tail, p => ⟨stale, kept.length, by simp [merged], by simp [merged]⟩
  | x :: rest, kept, stale, tail, p => by
    have hi : (kept ++ p :: (stale ++ (x :: rest ++ tail)))
        = (kept ++ p :: stale) ++ x :: (rest ++ tail) := by simp
    have hlen : kept.length + 1 + stale.length = (kept ++ p :: stale).length := by
      simp only [List.length_append, List.length_cons]
      omega
    have hset : (kept ++ p :: stale) ++ prepare x :: (rest ++ tail)
        = kept ++ p :: (stale ++ prepare x :: (rest ++ tail)) := by simp
    rw [List.length_cons, List.range'_succ, List.foldl_cons, List.map_cons, merged]
    have hstep : mergeStep prepare joins join
        ⟨kept ++ p :: (stale ++ (x :: rest ++ tail)), kept.length, kept.length + 1⟩
          (kept.length + 1 + stale.length)
        = if joins p (prepare x) then
            ⟨kept ++ join p (prepare x) :: ((stale ++ [prepare x]) ++ (rest ++ tail)), kept.length,
              kept.length + 1⟩
          else ⟨(kept ++ [p]) ++ prepare x :: ((stale ++ [prepare x]).tail ++ (rest ++ tail)),
              kept.length + 1, kept.length + 1 + 1⟩ := by
      rw [mergeStep]
      simp only [hi, hlen, getElem!_middle, set_middle, hset]
      split_ifs
      · simp
      · rcases stale with _ | ⟨y, stale⟩ <;> simp
    rw [hstep]
    split_ifs with hj
    · obtain ⟨stale', prev, h, hl⟩ :=
        mergeStep_run prepare joins join rest kept
          (stale ++ [prepare x]) tail (join p (prepare x))
      simp only [List.length_append, List.length_singleton] at h hl
      refine ⟨stale', prev, ?_, by omega⟩
      rw [← h]
      rfl
    · obtain ⟨stale', prev, h, hl⟩ :=
        mergeStep_run prepare joins join rest (kept ++ [p])
          (stale ++ [prepare x]).tail tail (prepare x)
      simp only [List.length_append, List.length_singleton, List.length_tail,
        Nat.add_sub_cancel] at h hl
      refine ⟨stale', prev, ?_, by rw [List.length_cons]; omega⟩
      have hn : kept.length + 1 + stale.length + 1 = kept.length + 1 + 1 + stale.length := by omega
      rw [hn, h]
      simp only [List.length_cons, List.append_assoc, List.cons_append, List.nil_append,
        Nat.add_assoc, Nat.add_comm 1]

section Merged

variable {joins : α → α → Prop} [DecidableRel joins] {join : α → α → α}

/-- Where a merged element is continued as its last part is, each break starts an element. -/
theorem length_merged (hj : ∀ p x y, joins p x → (joins (join p x) y ↔ joins x y)) :
    ∀ (p : α) (xs : List α), (merged joins join p xs).length = breaks joins p xs + 1
  | _, [] => rfl
  | p, x :: xs => by
    have hb : ∀ xs, joins p x → breaks joins (join p x) xs = breaks joins x xs := by
      intro xs h
      cases xs with
      | nil => rfl
      | cons y xs => simp only [breaks, hj p x y h]
    rw [merged, breaks]
    split_ifs with h
    · rw [length_merged hj, hb xs h, Nat.zero_add]
    · rw [List.length_cons, length_merged hj]
      omega

theorem breaks_congr {joins' : α → α → Prop} [DecidableRel joins']
    (h : ∀ p x, joins p x ↔ joins' p x) : ∀ (p : α) (xs : List α),
    breaks joins p xs = breaks joins' p xs
  | _, [] => rfl
  | p, x :: xs => by simp only [breaks, h, breaks_congr h x xs]

theorem length_merged_le : ∀ (p : α) (xs : List α),
    (merged joins join p xs).length ≤ xs.length + 1
  | _, [] => le_rfl
  | p, x :: xs => by
    rw [merged, List.length_cons]
    split_ifs
    · exact (length_merged_le _ xs).trans (Nat.le_succ _)
    · exact Nat.succ_le_succ (length_merged_le x xs)

/-- What the elements hold is kept in order, if joining two keeps what they hold. -/
theorem merged_flatMap {γ : Type*} {d : α → List γ} (Ok : α → List α → Prop)
    (hjoin : ∀ p x xs, Ok p (x :: xs) → joins p x → d (join p x) = d p ++ d x ∧ Ok (join p x) xs)
    (hnext : ∀ p x xs, Ok p (x :: xs) → Ok x xs) :
    ∀ (p : α) (xs : List α), Ok p xs → (merged joins join p xs).flatMap d = (p :: xs).flatMap d
  | _, [], _ => rfl
  | p, x :: xs, h => by
    rw [merged]
    split_ifs with hx
    · obtain ⟨hd, hok⟩ := hjoin p x xs h hx
      rw [merged_flatMap Ok hjoin hnext _ _ hok]
      simp only [List.flatMap_cons, hd, List.append_assoc]
    · rw [List.flatMap_cons, merged_flatMap Ok hjoin hnext _ _ (hnext p x xs h)]
      rfl

/-- The element that `p` grows into is joined as `p` is. -/
theorem merged_cons (hj : ∀ q x y, joins x y → (joins q (join x y) ↔ joins q x)) :
    ∀ (p : α) (xs : List α), ∃ y ys, merged joins join p xs = y :: ys ∧ ∀ q, joins q y ↔ joins q p
  | p, [] => ⟨p, [], rfl, fun _ => Iff.rfl⟩
  | p, x :: xs => by
    rw [merged]
    split_ifs with h
    · obtain ⟨y, ys, he, hy⟩ := merged_cons hj (join p x) xs
      exact ⟨y, ys, he, fun q => (hy q).trans (hj q p x h)⟩
    · exact ⟨p, _, rfl, fun _ => Iff.rfl⟩

/-- No element of the merged list joins the one before it. -/
theorem merged_chain (hj : ∀ q x y, joins x y → (joins q (join x y) ↔ joins q x)) :
    ∀ (p : α) (xs : List α), (merged joins join p xs).IsChain fun x y => ¬ joins x y
  | p, [] => List.isChain_singleton p
  | p, x :: xs => by
    rw [merged]
    split_ifs with h
    · exact merged_chain hj (join p x) xs
    · have hc := merged_chain hj x xs
      obtain ⟨y, ys, he, hy⟩ := merged_cons hj x xs
      rw [he] at hc ⊢
      exact List.isChain_cons_cons.2 ⟨fun hp => h ((hy p).1 hp), hc⟩

end Merged

theorem mergeStep_unread [Inhabited α] (prepare : α → α) (joins : α → α → Prop)
    [DecidableRel joins] (join : α → α → α) (p : α) (xs : List α) {k : ℕ} (hk : k ≤ xs.length) :
    ((List.range' 1 k).foldl (mergeStep prepare joins join) ⟨p :: xs, 0, 1⟩).slots.drop (k + 1)
      = xs.drop k := by
  obtain ⟨stale, prev, h, hl⟩ := mergeStep_run prepare joins join
    (xs.take k) [] [] (xs.drop k) p
  rw [List.length_take, Nat.min_eq_left hk, List.take_append_drop] at *
  simp only [List.length_nil, Nat.zero_add, Nat.add_zero, List.nil_append] at h hl
  rw [h, ← List.append_assoc, List.drop_left']
  rw [List.length_append]
  omega

theorem scanStep_run [Inhabited α] {f : β → α → α × β} : ∀ (rest kept tail : List α) (b : β),
    ((List.range' kept.length rest.length).foldl (scanStep f) (kept ++ (rest ++ tail), b)).1
      = kept ++ (scanned f b rest ++ tail)
  | [], kept, tail, b => rfl
  | x :: rest, kept, tail, b => by
    have hstep : scanStep f (kept ++ (x :: rest ++ tail), b) kept.length
        = ((kept ++ [(f b x).1]) ++ (rest ++ tail), (f b x).2) := by
      simp only [scanStep, List.cons_append, getElem!_middle, set_middle]
      simp
    have ih := scanStep_run (f := f) rest (kept ++ [(f b x).1]) tail (f b x).2
    rw [List.length_append, List.length_singleton] at ih
    rw [List.length_cons, List.range'_succ, List.foldl_cons, hstep, ih]
    simp [scanned]

theorem length_scanned (f : β → α → α × β) : ∀ (b : β) (xs : List α),
    (scanned f b xs).length = xs.length
  | _, [] => rfl
  | b, x :: xs => by rw [scanned, List.length_cons, length_scanned f, List.length_cons]

/-- What the replaced elements hold is kept, if each replacement keeps it. -/
theorem scanned_map {γ : Type*} {d : α → γ} {f : β → α → α × β} (hd : ∀ b x, d (f b x).1 = d x) :
    ∀ (b : β) (xs : List α), (scanned f b xs).map d = xs.map d
  | _, [] => rfl
  | b, x :: xs => by rw [scanned, List.map_cons, List.map_cons, hd, scanned_map hd]

end InPlace
