import SctOs.Proofs.Tables

/-!
# Mapping a page is inserting its path

`mapPageWith` follows the walk level by level (`mapBelow`), and each level either finds the table
the store links to or grafts the next free one (`nextTable_some`, `nextTable_none`). So it maps a
page exactly where inserting the page's path in the radix tree succeeds, and stops where that fails
(`mapPage_refines`).
-/

namespace SctOs

open Bytes Radix

variable {σ : Type}

section Run

variable {α β : Type}

theorem bind_run (x : Run σ α) (f : α → Run σ β) (s : Machine σ) :
    (x >>= f) s = match x s with
      | .ok (a, s') => f a s'
      | .error e => .error e := by
  simp only [bind, StateT.bind, Except.bind]
  rcases x s with e | ⟨a, s'⟩ <;> rfl

theorem pure_run (a : α) (s : Machine σ) : (pure a : Run σ α) s = .ok (a, s) := rfl

theorem throw_run (e : Stop) (s : Machine σ) : (throw e : Run σ α) s = .error e := rfl

/-- A program that does not stop leaves a machine. -/
theorem exists_ok {r : Except Stop (Unit × Machine σ)} (h : r.toBool = true) :
    ∃ s, r = .ok ((), s) := by
  rcases r with e | ⟨⟨⟩, s⟩
  · cases h
  · exact ⟨s, rfl⟩

theorem readWord_run (a : U64) (s : Machine σ) : readWord a s = .ok (load s.mem a, s) := rfl

theorem writeWord_run (a v : U64) (s : Machine σ) :
    writeWord a v s = .ok ((), { s with mem := store s.mem a v }) := rfl

theorem forM_nil_run (f : α → Run σ Unit) (s : Machine σ) :
    (([] : List α).forM f) s = .ok ((), s) := rfl

theorem forM_cons_run (f : α → Run σ Unit) (x : α) (xs : List α) (s : Machine σ) :
    ((x :: xs).forM f) s = match f x s with
      | .ok (_, s') => xs.forM f s'
      | .error e => .error e := by
  rw [List.forM_eq_forM, List.forM_cons, bind_run]
  rcases f x s with e | ⟨-, s'⟩ <;> rfl

theorem ite_run (c : Prop) [Decidable c] (x y : Run σ α) (s : Machine σ) :
    (if c then x else y) s = if c then x s else y s := by
  split_ifs <;> rfl

end Run

/-- The rest of `mapPageWith` from a table with `n` levels of tables under it. -/
def mapBelow (ptr : U64 → U64) (allocate : Run σ U64) (ppage vpage flags : U64) :
    ℕ → U64 → Run σ Unit
  | 0, table => do
    let e := table + 8 * pageLevelIndex vpage 1
    if (← readWord e) &&& pteP ≠ 0 then throw .remap
    writeWord e (ppage ||| pteP ||| flags)
  | n + 1, table => do
    let below ← nextTable ptr allocate table vpage (n + 2)
    mapBelow ptr allocate ppage vpage flags n below

theorem mapPageWith_eq (ptr : U64 → U64) (allocate : Run σ U64) (root ppage vpage flags : U64) :
    mapPageWith ptr allocate root ppage vpage flags = mapBelow ptr allocate ppage vpage flags 3 root :=
  rfl

theorem OnlyPages.refl (base : U64) (fs : Frame → Prop) (m : Memory) : OnlyPages base fs m m :=
  fun _ _ => rfl

theorem OnlyPages.trans {base : U64} {fs gs hs : Frame → Prop} {m m' m'' : Memory}
    (h : OnlyPages base fs m m') (h' : OnlyPages base gs m' m'') (hf : ∀ f, fs f → hs f)
    (hg : ∀ f, gs f → hs f) : OnlyPages base hs m m'' := fun x hx =>
  (h' x fun f hf' => hx f (hg f hf')).trans (h x fun f hf' => hx f (hf f hf'))

theorem OnlyPages.mono {base : U64} {fs gs : Frame → Prop} {m m' : Memory}
    (h : OnlyPages base fs m m') (hf : ∀ f, fs f → gs f) : OnlyPages base gs m m' :=
  fun x hx => h x fun f hf' => hx f (hf f hf')

/-- A slot's bytes are bytes of its page. -/
theorem onlyPages_store (base : U64) (m : Memory) (f : Frame) (i : Index) (v : U64) :
    OnlyPages base (· = f) m (store m (slot base f i) v) := by
  intro x hx
  refine blit_of_le ?_
  have h := hx f rfl
  have hi := i.isLt
  have hs : x - slot base f i = x - (base + frameAddr f) - BitVec.ofNat 64 (8 * i.toNat) := by
    rw [slot_eq]
    grind
  rw [hs, BitVec.toNat_sub, BitVec.toNat_ofNat]
  omega

theorem onlyPages_fill (base : U64) (m : Memory) (f : Frame) :
    OnlyPages base (· = f) m (fill m (base + frameAddr f) 4096 0) :=
  fun _ hx => blit_of_le (hx f rfl)

/-- A page none of the changed ones keeps its bytes. -/
theorem OnlyPages.sameAt {base : U64} {fs : Frame → Prop} {m m' : Memory} {g : Frame}
    (h : OnlyPages base fs m m') (hg : ¬ fs g) : SameAt m' m (base + frameAddr g) 4096 := by
  intro j hj
  refine h _ fun f hf => ?_
  have hne : g ≠ f := by rintro rfl; exact hg hf
  exact page_apart hne j hj

section Level

variable {A : Allocator σ} {s : Machine σ} {st : Store Frame Index U64}

theorem Models.entry (hm : Models A s st) (f : Frame) (v : U64) (level : ℕ) :
    st.heap f (pathIndex v level) =
      if load s.mem (A.base + frameAddr f + 8 * pageLevelIndex v level) &&& pteP = 0 then none
      else some (load s.mem (A.base + frameAddr f + 8 * pageLevelIndex v level)) := by
  rw [← hm.heap, pageLevelIndex_eq]
  rfl

/-- Writing an entry of a table in use keeps the pool. -/
theorem Models.put {f : Frame} {i : Index} {e : U64} (hm : Models A s st) (hf : f ∉ st.free)
    (he : e &&& pteP ≠ 0) :
    Models A { s with mem := store s.mem (slot A.base f i) e }
      { st with heap := Radix.put st.heap f i e } := by
  refine ⟨by rw [heapOf_store he, hm.heap], A.stable s _ _ hm.pool fun g hg => ?_⟩
  refine (onlyPages_store A.base s.mem f i e).sameAt ?_
  rintro rfl
  exact hf hg

theorem nextTable_some (hm : Models A s st) {f : Frame} {v u : U64} {level : ℕ}
    (hu : st.heap f (pathIndex v level) = some u) :
    nextTable (fun p => A.base + p) A.allocate (A.base + frameAddr f) v level s
      = .ok (A.base + frameAddr (links.next u), s) := by
  rw [hm.entry] at hu
  split_ifs at hu with hp
  simp only [Option.some.injEq] at hu
  rw [hu] at hp
  unfold nextTable
  simp only [bind_run, readWord_run, ite_run, hu, if_neg hp, pure_run, and_pteAddrMask]
  rfl

theorem nextTable_stop (hm : Models A s st) {f : Frame} {v : U64} {level : ℕ}
    (hu : st.heap f (pathIndex v level) = none) (hf : st.free = []) :
    nextTable (fun p => A.base + p) A.allocate (A.base + frameAddr f) v level s
      = .error A.stop := by
  rw [hm.entry] at hu
  split_ifs at hu with hp
  have hs := A.empty s (hf ▸ hm.pool)
  unfold nextTable
  simp only [bind_run, readWord_run, ite_run, if_pos hp, hs]

theorem nextTable_none (hm : Models A s st) {f b : Frame} {bs : List Frame} {v : U64} {level : ℕ}
    (hu : st.heap f (pathIndex v level) = none) (hf : st.free = b :: bs) (hnd : st.free.Nodup)
    (hff : f ∉ st.free) :
    ∃ s', nextTable (fun p => A.base + p) A.allocate (A.base + frameAddr f) v level s
        = .ok (A.base + frameAddr b, s')
      ∧ Models A s' ⟨graft links st.heap f (pathIndex v level) b, bs⟩
      ∧ OnlyPages A.base (fun g => g = f ∨ g = b) s.mem s'.mem := by
  rw [hf] at hnd hff
  rw [hm.entry] at hu
  split_ifs at hu with hp
  obtain ⟨pool, ha, hb⟩ := A.take s b bs (hf ▸ hm.pool) hnd
  have hm₁ : Models A ⟨fill s.mem (A.base + frameAddr b) 4096 0, pool⟩ ⟨clear st.heap b, bs⟩ :=
    ⟨by rw [heapOf_fill, hm.heap], hb⟩
  have hm₂ := hm₁.put (i := pathIndex v level) (e := links.link b)
    (fun h => hff (List.mem_cons_of_mem _ h)) (entry_present _ _)
  refine ⟨_, ?_, hm₂, ?_⟩
  · have hn : frameAddr b ||| pteP ||| pteRw = links.link b := rfl
    unfold nextTable
    rw [pageLevelIndex_eq] at hp ⊢
    simp only [bind_run, readWord_run, ite_run, if_pos hp, ha, writeWord_run, pure_run, hn]
    rw [slot, load_store, and_pteAddrMask]
    exact congrArg (fun g => Except.ok (A.base + frameAddr g, _)) (links.next_link b)
  · exact (onlyPages_fill A.base s.mem b).trans (onlyPages_store A.base _ f _ _)
      (fun _ h => Or.inr h) (fun _ h => Or.inl h)

end Level

/-- The frames that a store's tree and free list hold. -/
def Used (n : ℕ) (r : Frame) (st : Store Frame Index U64) (f : Frame) : Prop :=
  Below links st.heap n r f ∨ f ∈ st.free

theorem Used.grown {n : ℕ} {r f : Frame} {st st' : Store Frame Index U64} {u : List Frame}
    (h : Grown links n r st st' u) : Used n r st' f → Used n r st f := by
  rintro (hf | hf)
  · rcases (h.2.1 f).1 hf with hf | hf
    · exact Or.inl hf
    · exact Or.inr (by rw [h.1]; exact List.mem_append_left _ hf)
  · exact Or.inr (by rw [h.1]; exact List.mem_append_right _ hf)

/-- What a run of `map_page` does, given what inserting the path does. -/
def MapOutcome (A : Allocator σ) (s : Machine σ) (used : Frame → Prop)
    (r : Except Stop (Unit × Machine σ)) : Except Fault (Store Frame Index U64) → Prop
  | .ok st' => ∃ s', r = .ok ((), s') ∧ Models A s' st' ∧ OnlyPages A.base used s.mem s'.mem
  | .error .taken => r = .error .remap
  | .error _ => r = .error A.stop

/-- From a table with `n` levels under it, mapping a page inserts the rest of its path. -/
theorem mapBelow_refines {A : Allocator σ} (p v fl : U64) : ∀ {n : ℕ} {r : Frame} {s : Machine σ}
    {st : Store Frame Index U64}, Models A s st → Sound links n r st →
    MapOutcome A s (Used n r st)
      (mapBelow (fun p => A.base + p) A.allocate p v fl n (A.base + frameAddr r) s)
      (assign links st r (pathFrom v n) (p ||| pteP ||| fl))
  | 0, r, s, st, hm, hs => by
    have hr : r ∉ st.free := fun h => hs.fresh r h (below_self _ _)
    simp only [pathFrom, assign, mapBelow]
    rcases hu : st.heap r (pathIndex v 1) with _ | u
    · have hm' := hm.put (i := pathIndex v 1) hr (entry_present p fl)
      rw [hm.entry] at hu
      split_ifs at hu with hp
      refine ⟨_, ?_, hm', ?_⟩
      · rw [pageLevelIndex_eq] at hp ⊢
        simp only [bind_run, readWord_run, ite_run, hp, ne_eq, not_true_eq_false, if_false,
          writeWord_run]
        rfl
      · exact (onlyPages_store A.base s.mem r _ _).mono fun f hf => Or.inl (hf ▸ below_self _ _)
    · rw [hm.entry] at hu
      split_ifs at hu with hp
      simp only [MapOutcome, bind_run, readWord_run, ite_run, ne_eq, hp, not_false_eq_true, if_true,
        throw_run]
  | n + 1, r, s, st, hm, hs => by
    have hr : r ∉ st.free := fun h => hs.fresh r h (below_self _ _)
    have hpath : pathFrom v (n + 1) = pathIndex v (n + 2) :: pathFrom v n := rfl
    obtain ⟨j, q, hq⟩ : ∃ j q, pathFrom v n = j :: q := by cases n <;> exact ⟨_, _, rfl⟩
    simp only [mapBelow, bind_run]
    rw [hpath, hq]
    simp only [assign]
    rcases hu : st.heap r (pathIndex v (n + 2)) with _ | u
    · rcases hf : st.free with _ | ⟨b, bs⟩
      · simp only [nextTable_stop hm hu hf]
        rfl
      · obtain ⟨s₁, h₁, hm₁, ho₁⟩ := nextTable_none hm hu hf hs.nodup hr
        have hs₁ := hs.grafted hu hf
        obtain ⟨-, hg, -⟩ := hs.graft hu hf
        have ih := mapBelow_refines p v fl hm₁ hs₁
        rw [hq] at ih
        simp only [h₁]
        revert ih
        rcases assign links ⟨graft links st.heap r (pathIndex v (n + 2)) b, bs⟩ b (j :: q)
          (p ||| pteP ||| fl) with e | st'
        · cases e <;> exact id
        · rintro ⟨s', h', hm', ho'⟩
          refine ⟨s', h', hm', ho₁.trans ho' ?_ ?_⟩
          · rintro f (rfl | rfl)
            · exact Or.inl (below_self _ _)
            · exact Or.inr (by simp [hf])
          · intro f hfu
            refine Used.grown hg ?_
            rcases hfu with hfu | hfu
            · refine Or.inl (below_child graft_self ?_)
              rwa [links.next_link]
            · exact Or.inr hfu
    · have ih := mapBelow_refines p v fl hm (hs.child hu)
      rw [hq] at ih
      simp only [nextTable_some hm hu]
      revert ih
      rcases assign links st (links.next u) (j :: q) (p ||| pteP ||| fl) with e | st'
      · cases e <;> exact id
      · rintro ⟨s', h', hm', ho'⟩
        refine ⟨s', h', hm', ho'.mono ?_⟩
        rintro f (hf | hf)
        · exact Or.inl (below_child hu hf)
        · exact Or.inr hf

/-- `map_page` maps a page where inserting its path succeeds, and stops where that fails. -/
theorem mapPage_refines {A : Allocator σ} {r : Frame} {s : Machine σ}
    {st : Store Frame Index U64} (hm : Models A s st) (hs : Sound links 3 r st) (p v fl : U64) :
    MapOutcome A s (Used 3 r st)
      (mapPageWith (fun p => A.base + p) A.allocate (A.base + frameAddr r) p v fl s)
      (assign links st r (path v) (p ||| pteP ||| fl)) := by
  rw [mapPageWith_eq]
  exact mapBelow_refines _ _ _ hm hs

end SctOs
