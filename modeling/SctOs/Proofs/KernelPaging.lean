import SctOs.Proofs.FreeList
import SctOs.Proofs.Requests

/-!
# Runs of calls on an address space

A call edits the radix tree of the space, so it changes the translation of its own page only
(`call_step`), and by induction on the run the pages translated are those the calls map
(`runCalls_spec`).
-/

namespace SctOs

namespace Kernel

open Bytes Radix

variable {data : BootloaderData} {root : Frame} {s s' : Machine U64}
  {st st' : Store Frame Index U64}

/-! ## Making a page read only -/

/-- The rest of `setVpageRo` from a table with `n` levels of tables under it. -/
def protectBelow (data : BootloaderData) (vpage : U64) : ℕ → U64 → Run U64 Unit
  | 0, table => do
    let e := table + 8 * pageLevelIndex vpage 1
    if (← readWord e) &&& pteP = 0 then throw .notMapped
    writeWord e ((← readWord e) &&& ~~~pteRw)
  | n + 1, table => do
    let below ← presentTable data table vpage (n + 2)
    protectBelow data vpage n below

theorem setVpageRo_eq (data : BootloaderData) (addressSpace vpage : U64) :
    setVpageRo data addressSpace vpage = protectBelow data vpage 3 addressSpace := rfl

theorem presentTable_some (hm : Models (allocator data) s st) {f : Frame} {v u : U64} {level : ℕ}
    (hu : st.heap f (pathIndex v level) = some u) :
    presentTable data (data.paddrBase + frameAddr f) v level s
      = .ok (data.paddrBase + frameAddr (links.next u), s) := by
  rw [hm.entry] at hu
  split_ifs at hu with hp
  simp only [Option.some.injEq] at hu
  rw [hu] at hp
  change load s.mem (data.paddrBase + frameAddr f + 8 * pageLevelIndex v level) = u at hu
  unfold presentTable
  simp only [bind_run, readWord_run, ite_run, hu, if_neg hp, pure_run, and_pteAddrMask]
  rfl

theorem presentTable_none (hm : Models (allocator data) s st) {f : Frame} {v : U64} {level : ℕ}
    (hu : st.heap f (pathIndex v level) = none) :
    presentTable data (data.paddrBase + frameAddr f) v level s = .error .notMapped := by
  rw [hm.entry] at hu
  split_ifs at hu with hp
  change load s.mem (data.paddrBase + frameAddr f + 8 * pageLevelIndex v level) &&& pteP = 0 at hp
  unfold presentTable
  simp only [bind_run, readWord_run, ite_run, if_pos hp, throw_run]

theorem readOnly_present {e : U64} (he : e &&& pteP ≠ 0) : (e &&& ~~~pteRw) &&& pteP ≠ 0 := by
  have h : ~~~pteRw &&& pteP = pteP := by decide
  rwa [BitVec.and_assoc, h]

/-- What a run of `set_vpage_ro` does, given what amending the path does. -/
def ProtectOutcome (data : BootloaderData) (s : Machine U64) (used : Frame → Prop)
    (r : Except Stop (Unit × Machine U64)) : Except Fault (Store Frame Index U64) → Prop
  | .ok st' => ∃ s', r = .ok ((), s') ∧ Models (allocator data) s' st'
      ∧ OnlyPages data.paddrBase used s.mem s'.mem
  | .error _ => r = .error .notMapped

theorem protectBelow_refines {v : U64} : ∀ {n : ℕ} {r : Frame} {s : Machine U64}
    {st : Store Frame Index U64}, Models (allocator data) s st → Sound links n r st →
    ProtectOutcome data s (Used n r st) (protectBelow data v n (data.paddrBase + frameAddr r) s)
      (amend links st r (· &&& ~~~pteRw) (pathFrom v n))
  | 0, r, s, st, hm, hs => by
    have hr : r ∉ st.free := fun h => hs.fresh r h (below_self _ _)
    simp only [pathFrom, amend, protectBelow]
    rcases hu : st.heap r (pathIndex v 1) with _ | u <;> rw [hm.entry] at hu
    · split_ifs at hu with hp
      change load s.mem (data.paddrBase + frameAddr r + 8 * pageLevelIndex v 1) &&& pteP = 0 at hp
      simp only [ProtectOutcome, bind_run, readWord_run, ite_run, if_pos hp, throw_run]
    · split_ifs at hu with hp
      simp only [Option.some.injEq] at hu
      rw [hu] at hp
      have hm' := hm.put (i := pathIndex v 1) hr (readOnly_present hp)
      refine ⟨_, ?_, hm', ?_⟩
      · change load s.mem (data.paddrBase + frameAddr r + 8 * pageLevelIndex v 1) = u at hu
        rw [pageLevelIndex_eq] at hu ⊢
        simp only [bind_run, readWord_run, ite_run, hu, if_neg hp, writeWord_run]
        rfl
      · exact (onlyPages_store data.paddrBase s.mem r _ _).mono
          fun f hf => Or.inl (hf ▸ below_self _ _)
  | n + 1, r, s, st, hm, hs => by
    have hpath : pathFrom v (n + 1) = pathIndex v (n + 2) :: pathFrom v n := rfl
    obtain ⟨j, q, hq⟩ : ∃ j q, pathFrom v n = j :: q := by cases n <;> exact ⟨_, _, rfl⟩
    simp only [protectBelow, bind_run]
    rw [hpath, hq]
    simp only [amend]
    rcases hu : st.heap r (pathIndex v (n + 2)) with _ | u
    · simp only [presentTable_none hm hu, ProtectOutcome]
    · have ih := protectBelow_refines (v := v) hm (hs.child hu)
      rw [hq] at ih
      simp only [presentTable_some hm hu]
      revert ih
      rcases amend links st (links.next u) (· &&& ~~~pteRw) (j :: q) with e | st'
      · exact id
      · rintro ⟨s', h', hm', ho'⟩
        refine ⟨s', h', hm', ho'.mono ?_⟩
        rintro f (hf | hf)
        · exact Or.inl (below_child hu hf)
        · exact Or.inr hf

theorem setVpageRo_refines (hm : Models (allocator data) s st) (hs : Sound links 3 root st)
    (v : U64) :
    ProtectOutcome data s (Used 3 root st)
      (setVpageRo data (data.paddrBase + frameAddr root) v s)
      (amend links st root (· &&& ~~~pteRw) (path v)) := by
  rw [setVpageRo_eq]
  exact protectBelow_refines hm hs

/-! ## One call -/

/-- The space at `root` is that of a sound store. -/
structure Paged (data : BootloaderData) (root : Frame) (s : Machine U64)
    (st : Store Frame Index U64) : Prop where
  models : Models (allocator data) s st
  sound : Sound links 3 root st

theorem Paged.translate_eq (h : Paged data root s st) {v : U64} (hv : Canonical v) :
    translate data.paddrBase root s v = (lookup links st.heap root (path v)).map (mappingOf v) := by
  have hh : heapOf data.paddrBase s.mem = st.heap := h.models.heap
  have ht := h.sound.tree
  rw [← hh] at ht ⊢
  exact walk_eq ht hv

theorem translate_noncanonical {base v : U64} (hv : ¬ Canonical v) :
    translate base root s v = none :=
  walk_noncanonical hv

/-- A call changes the translation of its own page only. -/
theorem call_step (hp : Paged data root s st) {c : Call} (hc : c.Ok)
    (h : c.run data (data.paddrBase + frameAddr root) s = .ok ((), s')) :
    ∃ st', Paged data root s' st' ∧ (∃ u, Grown links 3 root st st' u)
      ∧ (∀ v, translate data.paddrBase root s' v
        = c.effect v (translate data.paddrBase root s v))
      ∧ ∀ p v fl, c = .mapPage p v fl → ∀ x, pageBase x = v →
        translate data.paddrBase root s x = none := by
  cases c with
  | mapPage p v fl =>
    obtain ⟨⟨f, rfl⟩, hfl, hv, hva⟩ := hc
    have ho := mapPage_refines hp.models hp.sound (frameAddr f) v fl
    change MapOutcome (allocator data) s _
      (Call.run data (data.paddrBase + frameAddr root) (.mapPage (frameAddr f) v fl) s) _ at ho
    rcases ha : assign links st root (path v) (frameAddr f ||| pteP ||| fl) with e | st' <;>
      rw [ha, h] at ho
    · cases e <;> cases ho
    obtain ⟨s₁, h₁, hm', -⟩ := ho
    simp only [Except.ok.injEq, Prod.mk.injEq, true_and] at h₁
    subst h₁
    have hi := assign_spec hp.sound rfl ha
    have hp' : Paged data root s' st' := ⟨hm', hi.sound⟩
    obtain ⟨u, hg, -⟩ := hi.grown
    have hnone := ((assign_ok_iff hp.sound rfl).1 ⟨st', ha⟩).1
    refine ⟨st', hp', ⟨u, hg⟩, fun x => ?_, ?_⟩
    · by_cases hx : Canonical x
      · rw [hp'.translate_eq hx, hp.translate_eq hx, hi.value _ rfl, Call.effect]
        simp only [path_eq_page hx hv hva]
        split_ifs with he
        · rw [Option.map_some, mappingOf_entry x f hfl]
        · rfl
      · have hne : pageBase x ≠ v := fun he => hx (pageBase_canonical.1 (he ▸ hv))
        rw [Call.effect, if_neg hne, translate_noncanonical hx, translate_noncanonical hx]
    · rintro p' v' fl' he x hx
      simp only [Call.mapPage.injEq] at he
      obtain ⟨-, rfl, -⟩ := he
      have hcx : Canonical x := pageBase_canonical.1 (hx ▸ hv)
      rw [hp.translate_eq hcx, (path_eq_page hcx hv hva).2 hx, hnone]
      rfl
  | setVpageRo v =>
    obtain ⟨hv, hva⟩ := hc
    have ho := setVpageRo_refines hp.models hp.sound v
    change ProtectOutcome data s _
      (Call.run data (data.paddrBase + frameAddr root) (.setVpageRo v) s) _ at ho
    rcases ha : amend links st root (· &&& ~~~pteRw) (path v) with e | st' <;> rw [ha, h] at ho
    · cases ho
    obtain ⟨s₁, h₁, hm', -⟩ := ho
    simp only [Except.ok.injEq, Prod.mk.injEq, true_and] at h₁
    subst h₁
    have hi := amend_spec hp.sound rfl ha
    have hp' : Paged data root s' st' := ⟨hm', hi.sound⟩
    refine ⟨st', hp', ⟨[], hi.grown⟩, fun x => ?_, ?_⟩
    · by_cases hx : Canonical x
      · rw [hp'.translate_eq hx, hp.translate_eq hx, hi.value _ rfl, Call.effect]
        simp only [path_eq_page hx hv hva]
        split_ifs with he
        · rw [(path_eq_page hx hv hva).2 he]
          rcases lookup links st.heap root (path v) with _ | e
          · rfl
          · simp [mappingOf_readOnly]
        · rfl
      · have hne : pageBase x ≠ v := fun he => hx (pageBase_canonical.1 (he ▸ hv))
        rw [Call.effect, if_neg hne, translate_noncanonical hx, translate_noncanonical hx]
    · rintro p' v' fl' he
      cases he

/-- When `map_page` stops: on a mapped page, and when tables are missing that the free list does
not have. -/
theorem mapPage_error_iff (hp : Paged data root s st) {p v fl : U64}
    (hc : (Call.mapPage p v fl).Ok) (e : Stop) :
    mapPage data (data.paddrBase + frameAddr root) p v fl s = .error e ↔
      (e = .remap ∧ (translate data.paddrBase root s v).isSome)
        ∨ (e = .noFreePage ∧ st.free.length
          < missingTables (physical data.paddrBase s.mem) (frameAddr root) v) := by
  obtain ⟨-, -, hv, -⟩ := hc
  have ho := mapPage_refines hp.models hp.sound p v fl
  change MapOutcome (allocator data) s _
    (mapPage data (data.paddrBase + frameAddr root) p v fl s) _ at ho
  have hh : heapOf data.paddrBase s.mem = st.heap := hp.models.heap
  have he := fun e => assign_error_iff (w := p ||| pteP ||| fl) (e := e) (p := path v) hp.sound rfl
  have ht : assign links st root (path v) (p ||| pteP ||| fl) = .error .taken ↔
    (lookup links st.heap root (path v)).isSome := by simpa using he .taken
  have hx : assign links st root (path v) (p ||| pteP ||| fl) = .error .exhausted ↔
    st.free.length < missing links st.heap root (path v) := by simpa using he .exhausted
  rw [hp.translate_eq hv, missingTables_eq, hh, Option.isSome_map, ← ht, ← hx]
  rcases hr : assign links st root (path v) (p ||| pteP ||| fl) with f | st' <;> rw [hr] at ho
  · cases f with
    | taken => simp [show mapPage _ _ _ _ _ s = _ from ho, eq_comm]
    | exhausted =>
      have ho : mapPage data (data.paddrBase + frameAddr root) p v fl s = .error .noFreePage := ho
      simp [ho, eq_comm]
    | absent => simpa [hr] using he .absent
  · obtain ⟨s', h', -⟩ := ho
    simp [h']

/-! ## Runs -/

theorem Fresh.paged {free : List Frame} (h : Fresh data.paddrBase root free s) :
    Paged data root s ⟨heapOf data.paddrBase s.mem, free⟩
      ∧ heapOf data.paddrBase s.mem root = fun _ => none := by
  obtain ⟨hm, hs, he⟩ := models_fresh (A := allocator data) h.zero h.list
    (List.nodup_cons.2 ⟨h.off, h.list.nodup⟩)
  exact ⟨⟨hm, hs⟩, he⟩

/-- A call that has just run is either the one named or comes after it. -/
theorem snoc_eq_split {α : Type} {xs before after : List α} {c x : α} :
    xs ++ [c] = before ++ x :: after ↔
      (before = xs ∧ x = c ∧ after = [])
        ∨ ∃ rest, after = rest ++ [c] ∧ xs = before ++ x :: rest := by
  rcases List.eq_nil_or_concat after with rfl | ⟨rest, d, rfl⟩
  · rw [List.append_singleton_inj, eq_comm (a := xs), eq_comm (a := c)]
    simp
  · rw [List.concat_eq_append, ← List.cons_append, ← List.append_assoc,
      List.append_singleton_inj]
    simp only [List.append_eq_nil_iff, List.cons_ne_self, and_false, false_or]
    constructor
    · rintro ⟨rfl, rfl⟩
      exact ⟨rest, rfl, rfl⟩
    · rintro ⟨rest', h, rfl⟩
      obtain ⟨rfl, rfl⟩ := List.append_singleton_inj.1 h
      exact ⟨rfl, rfl⟩

/-- One more call keeps the pages translated those that the calls map. -/
theorem MapsExactly.snoc {calls : List Call} {c : Call} {t t' : U64 → Option Mapping}
    (h : MapsExactly calls t) (ht : ∀ v, t' v = c.effect v (t v))
    (hnone : ∀ p v fl, c = .mapPage p v fl → ∀ x, pageBase x = v → t x = none) :
    MapsExactly (calls ++ [c]) t' := by
  intro v p w
  simp only [snoc_eq_split]
  by_cases hv : pageBase v = c.vpage
  · cases c with
    | mapPage q v' fl =>
      have hn := hnone q v' fl rfl v hv
      have he : t' v = some ⟨q + pageOffset v, fl = pteRw⟩ := by
        rw [ht, Call.effect, if_pos (show pageBase v = v' from hv)]
      constructor
      · intro h'
        rw [he, Option.some.injEq, Mapping.mk.injEq] at h'
        exact ⟨calls, [], q, fl, Or.inl ⟨rfl, by rw [hv]; rfl, rfl⟩, h'.1.symm, by simp [← h'.2]⟩
      · rintro ⟨before, after, q', fl', ⟨-, hc, rfl⟩ | ⟨rest, -, hr⟩, hp, hw⟩
        · simp only [Call.mapPage.injEq] at hc
          obtain ⟨rfl, -, rfl⟩ := hc
          rw [he, hp]
          simp only [Option.some.injEq, Mapping.mk.injEq, true_and]
          simp only [List.not_mem_nil, not_false_eq_true, and_true] at hw
          rw [Bool.eq_iff_iff, hw, decide_eq_true_iff]
        · have := (h v _ (decide (fl' = pteRw ∧ Call.setVpageRo (pageBase v) ∉ rest))).2
            ⟨before, rest, q', fl', hr, rfl, by simp⟩
          rw [hn] at this
          cases this
    | setVpageRo v' =>
      have hv : pageBase v = v' := hv
      have he : t' v = (t v).map fun t => { t with writable := false } := by
        rw [ht, Call.effect, if_pos hv]
      constructor
      · intro h'
        rw [he, Option.map_eq_some_iff] at h'
        obtain ⟨⟨p', w'⟩, h₁, h₂⟩ := h'
        simp only [Mapping.mk.injEq] at h₂
        obtain ⟨rfl, rfl⟩ := h₂
        obtain ⟨before, rest, q, fl, hr, hp, -⟩ := (h v _ _).1 h₁
        exact ⟨before, rest ++ [.setVpageRo v'], q, fl, Or.inr ⟨rest, rfl, hr⟩, hp, by simp [hv]⟩
      · rintro ⟨before, after, q', fl', ⟨-, hc, -⟩ | ⟨rest, rfl, hr⟩, hp, hw⟩
        · cases hc
        · have h' := (h v p (decide (fl' = pteRw ∧ Call.setVpageRo (pageBase v) ∉ rest))).2
            ⟨before, rest, q', fl', hr, hp, by simp⟩
          simp only [List.mem_append, hv, List.mem_singleton, or_true, not_true_eq_false, and_false,
            iff_false, Bool.not_eq_true] at hw
          rw [he, h', hw]
          rfl
  · have he : t' v = t v := by
      rw [ht]
      cases c <;> exact if_neg hv
    rw [he, h]
    constructor
    · rintro ⟨before, rest, q, fl, hr, hp, hw⟩
      refine ⟨before, rest ++ [c], q, fl, Or.inr ⟨rest, rfl, hr⟩, hp, ?_⟩
      have hne : Call.setVpageRo (pageBase v) ≠ c := by rintro rfl; exact hv rfl
      simp [hw, hne]
    · rintro ⟨before, after, q, fl, ⟨-, rfl, -⟩ | ⟨rest, rfl, hr⟩, hp, hw⟩
      · exact absurd rfl hv
      · have hne : Call.setVpageRo (pageBase v) ≠ c := by rintro rfl; exact hv rfl
        refine ⟨before, rest, q, fl, hr, hp, ?_⟩
        simpa [hne] using hw

theorem runCalls_snoc {calls : List Call} {c : Call} {r : U64}
    (h : runCalls data r (calls ++ [c]) s = .ok ((), s')) :
    ∃ s₁, runCalls data r calls s = .ok ((), s₁) ∧ c.run data r s₁ = .ok ((), s') := by
  rw [runCalls, forM_append_run] at h
  rw [runCalls]
  rcases hc : calls.forM (Call.run data r) s with e | ⟨⟨⟩, s₁⟩ <;> rw [hc] at h
  · cases h
  · refine ⟨s₁, rfl, ?_⟩
    simp only [forM_cons_run, forM_nil_run] at h
    rcases hr : c.run data r s₁ with e | ⟨⟨⟩, s₂⟩ <;> rw [hr] at h
    · cases h
    · exact h

/-- What holds after any run of calls. -/
theorem runCalls_spec {free : List Frame} (hf : Fresh data.paddrBase root free s)
    {calls : List Call} : ∀ {s' : Machine U64}, (∀ c ∈ calls, c.Ok) →
    runCalls data (data.paddrBase + frameAddr root) calls s = .ok ((), s') →
      ∃ st', Paged data root s' st' ∧ st'.free <:+ free
        ∧ MapsExactly calls (translate data.paddrBase root s') := by
  induction calls using List.reverseRecOn with
  | nil =>
    intro s' _ h
    obtain ⟨hp, he⟩ := hf.paged
    rw [runCalls, forM_nil_run, Except.ok.injEq, Prod.mk.injEq] at h
    obtain ⟨-, rfl⟩ := h
    refine ⟨_, hp, List.suffix_rfl, fun v p w => ?_⟩
    have hn : translate data.paddrBase root s v = none := by
      by_cases hv : Canonical v
      · rw [hp.translate_eq hv, lookup_empty he]
        rfl
      · exact walk_noncanonical hv
    simp [hn]
  | append_singleton calls c ih =>
    intro s' hok h
    obtain ⟨s₁, h₁, h₂⟩ := runCalls_snoc h
    obtain ⟨st₁, hp₁, hs₁, hm₁⟩ := ih (fun c hc => hok c (List.mem_append_left _ hc)) h₁
    obtain ⟨st', hp', ⟨u, hg⟩, ht, hn⟩ := call_step hp₁ (hok c (by simp)) h₂
    refine ⟨st', hp', ?_, hm₁.snoc ht hn⟩
    exact List.IsSuffix.trans ⟨u, hg.1.symm⟩ hs₁

/-! ## Mapping in any order -/

/-- Where nothing is made read only, the calls map the same pages in any order. -/
theorem MapsExactly.perm {calls calls' : List Call} {t t' : U64 → Option Mapping}
    (h : MapsExactly calls t) (h' : MapsExactly calls' t') (hp : calls'.Perm calls)
    (hm : ∀ c ∈ calls, ∃ p v fl, c = .mapPage p v fl) : t' = t := by
  have hsome : ∀ {cs : List Call} {t : U64 → Option Mapping}, MapsExactly cs t →
      (∀ c ∈ cs, ∃ p v fl, c = .mapPage p v fl) → ∀ v p w, t v = some ⟨p, w⟩ ↔
        ∃ q fl, .mapPage q (pageBase v) fl ∈ cs ∧ p = q + pageOffset v ∧ (w = true ↔ fl = pteRw) := by
    intro cs t h hm v p w
    have hro : Call.setVpageRo (pageBase v) ∉ cs := fun hro => by
      obtain ⟨_, _, _, he⟩ := hm _ hro
      cases he
    rw [h v p w]
    constructor
    · rintro ⟨before, after, q, fl, rfl, hp, hw⟩
      simp only [List.mem_append, List.mem_cons, not_or] at hro
      exact ⟨q, fl, by simp, hp, by simpa [hro.2.2] using hw⟩
    · rintro ⟨q, fl, hmem, hp, hw⟩
      obtain ⟨before, after, rfl⟩ := List.append_of_mem hmem
      simp only [List.mem_append, List.mem_cons, not_or] at hro
      exact ⟨before, after, q, fl, rfl, hp, by simpa [hro.2.2] using hw⟩
  funext v
  apply Option.ext
  rintro ⟨p, w⟩
  rw [hsome h' (fun c hc => hm c (hp.mem_iff.1 hc)), hsome h hm]
  simp only [hp.mem_iff]

def Request.call (q : Request) : Call := .mapPage q.ppage q.vpage q.flags

theorem runCalls_mapAll (data : BootloaderData) (r : U64) (qs : List Request) :
    runCalls data r (qs.map Request.call)
      = mapAll (fun p => data.paddrBase + p) (allocatePhysicalPage data appPte) r qs := by
  rw [runCalls, mapAll]
  induction qs with
  | nil => rfl
  | cons q qs ih =>
    simp only [List.map_cons, List.forM_eq_forM, List.forM_cons] at ih ⊢
    rw [ih]
    rfl

theorem exists_requests : ∀ {calls : List Call}, (∀ c ∈ calls, ∃ p v fl, c = .mapPage p v fl) →
    ∃ qs : List Request, calls = qs.map Request.call
  | [], _ => ⟨[], rfl⟩
  | c :: calls, h => by
    obtain ⟨p, v, fl, rfl⟩ := h c List.mem_cons_self
    obtain ⟨qs, rfl⟩ := exists_requests fun c hc => h c (List.mem_cons_of_mem _ hc)
    exact ⟨⟨p, v, fl⟩ :: qs, rfl⟩

theorem tablesNeeded_perm {vs vs' : List U64} (h : vs'.Perm vs) :
    tablesNeeded vs' = tablesNeeded vs := by
  rw [tablesNeeded, tablesNeeded, List.toFinset_eq_of_perm _ _ (h.map path)]

/-- If maps succeed in one order, they succeed in every order. -/
theorem runCalls_perm {free : List Frame} (hf : Fresh data.paddrBase root free s)
    {calls calls' : List Call} (hm : ∀ c ∈ calls, ∃ p v fl, c = .mapPage p v fl)
    (hperm : calls'.Perm calls)
    (h : runCalls data (data.paddrBase + frameAddr root) calls s = .ok ((), s')) :
    ∃ s₂, runCalls data (data.paddrBase + frameAddr root) calls' s = .ok ((), s₂) := by
  obtain ⟨hp, he⟩ := hf.paged
  obtain ⟨qs, rfl⟩ := exists_requests hm
  obtain ⟨qs', rfl⟩ := exists_requests fun c hc => hm c (hperm.mem_iff.1 hc)
  have hpv : (qs'.map Request.vpage).Perm (qs.map Request.vpage) := by
    have h := hperm.map Call.vpage
    rw [List.map_map, List.map_map] at h
    exact h
  rw [runCalls_mapAll] at h ⊢
  obtain ⟨hnd, hle⟩ := (mapAll_ok_iff _ hp.models hp.sound he).1 ⟨s', h⟩
  exact (mapAll_ok_iff _ hp.models hp.sound he).2
    ⟨((hpv.map path).nodup_iff).2 hnd, by rwa [tablesNeeded_perm hpv]⟩

theorem Paged.tablesApart (hp : Paged data root s st) :
    TablesApart data.paddrBase root st.free s := by
  have hh : heapOf data.paddrBase s.mem = st.heap := hp.models.heap
  intro p q a hpl hql ha
  rw [tablePage_eq, hh, Option.map_eq_some_iff] at ha
  obtain ⟨f, hf, rfl⟩ := ha
  refine ⟨fun hb => ?_, fun g hg he => ?_⟩
  · rw [tablePage_eq, hh, Option.map_eq_some_iff] at hb
    obtain ⟨g, hg, he⟩ := hb
    rw [frameAddr_inj he] at hg
    exact hp.sound.tree.tableAt_inj hpl hql hf hg
  · rw [← frameAddr_inj he] at hg
    exact hp.sound.fresh f hg (below_of_tableAt hpl hf)

/-- Any run of calls that does not stop leaves the space translating exactly what was mapped. The
next call stays within its page, and stops only for a mapped page or a missing table; the tables
are distinct and off the free list; and the order of maps does not matter. -/
theorem address_space_calls {free : List Frame} (hf : Fresh data.paddrBase root free s)
    {calls : List Call} (hok : ∀ c ∈ calls, c.Ok)
    (h : runCalls data (data.paddrBase + frameAddr root) calls s = .ok ((), s')) :
    MapsExactly calls (translate data.paddrBase root s')
      ∧ (∀ (c : Call) s₁, c.Ok → c.run data (data.paddrBase + frameAddr root) s' = .ok ((), s₁) →
        ∀ v, pageBase v ≠ c.vpage →
          translate data.paddrBase root s₁ v = translate data.paddrBase root s' v)
      ∧ (∃ left, left <:+ free ∧ FreeList data.paddrBase s'.mem s'.pool left
        ∧ TablesApart data.paddrBase root left s'
        ∧ ∀ p v fl e, (Call.mapPage p v fl).Ok →
          (mapPage data (data.paddrBase + frameAddr root) p v fl s' = .error e ↔
            (e = .remap ∧ (translate data.paddrBase root s' v).isSome)
              ∨ (e = .noFreePage ∧ left.length
                < missingTables (physical data.paddrBase s'.mem) (frameAddr root) v)))
      ∧ ((∀ c ∈ calls, ∃ p v fl, c = .mapPage p v fl) → ∀ calls', calls'.Perm calls →
        ∃ s₂, runCalls data (data.paddrBase + frameAddr root) calls' s = .ok ((), s₂)
          ∧ translate data.paddrBase root s₂ = translate data.paddrBase root s') := by
  obtain ⟨st', hp, hsuf, hm⟩ := runCalls_spec hf hok h
  refine ⟨hm, fun c s₁ hc h₁ v hv => ?_, ?_, fun hmaps calls' hperm => ?_⟩
  · obtain ⟨-, -, -, ht, -⟩ := call_step hp hc h₁
    rw [ht]
    cases c <;> exact if_neg hv
  · exact ⟨st'.free, hsuf, hp.models.pool, hp.tablesApart,
      fun p v fl e hc => mapPage_error_iff hp hc e⟩
  · obtain ⟨s₂, h₂⟩ := runCalls_perm hf hmaps hperm h
    obtain ⟨-, -, -, hm₂⟩ := runCalls_spec hf (fun c hc => hok c (hperm.mem_iff.1 hc)) h₂
    exact ⟨s₂, h₂, hm.perm hm₂ hperm hmaps⟩

/-- A page mapped to be written, next to another, and made read only. -/
theorem address_space_calls_page : ∃ s', runCalls highWindow (highWindow.paddrBase + frameAddr 1)
      [.mapPage (frameAddr 9) 0x400000 pteRw, .mapPage (frameAddr 8) 0x401000 pteRw,
        .setVpageRo 0x400000] (freed highWindow.paddrBase [2, 3, 4]) = .ok ((), s')
    ∧ translate highWindow.paddrBase 1 s' 0x400123 = some ⟨0x9123, false⟩ := by
  have hf : Fresh highWindow.paddrBase 1 [4, 3, 2] (freed highWindow.paddrBase [2, 3, 4]) :=
    freed_fresh [2, 3, 4] (by decide) (by decide)
  refine (exists_ok (by decide +kernel)).imp fun s' h =>
    ⟨h, ((address_space_calls hf ?_ h).1 _ _ _).2
      ⟨[], [.mapPage (frameAddr 8) 0x401000 pteRw, .setVpageRo 0x400000], frameAddr 9, pteRw,
        by decide⟩⟩
  intro c hc
  simp only [List.mem_cons, List.not_mem_nil, or_false] at hc
  rcases hc with rfl | rfl | rfl
  · exact ⟨⟨9, rfl⟩, by decide, by decide, by decide⟩
  · exact ⟨⟨8, rfl⟩, by decide, by decide, by decide⟩
  · exact ⟨by decide, by decide⟩

end Kernel

end SctOs
