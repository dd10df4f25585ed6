import SctOs.Relocations
import SctOs.Proofs.Tables

/-!
# The loader's own relocations

The scan finds the last entries with the tags it knows (`scanEntries_ok`). A relocation does not
write to those still to be read, so the loop applies the list of them (`relocate_run`), and writes
that are apart are independent of their order.
-/

namespace SctOs

namespace Relocations

open Bytes

variable {m m' : Memory} {dynamic ptr size : U64} {dyns dyns' : List Elf64Dyn}
  {relas relas' : List Elf64Rela} {fuel : ℕ} {found : Found}

theorem scan_eq : ∀ {dyns : List Elf64Dyn} {fuel : ℕ} {a : U64} {found : Found},
    DynTable m a dyns → dyns.length < fuel → scan m fuel a found = dyns.foldlM scanEntry found
  | [], fuel, a, found, h, hf => by
    obtain ⟨n, rfl⟩ := Nat.exists_eq_add_of_lt hf
    rw [DynTable] at h
    rw [scan, if_pos h]
    rfl
  | dyn :: dyns, fuel, a, found, h, hf => by
    obtain ⟨n, rfl⟩ := Nat.exists_eq_add_of_lt hf
    obtain ⟨he, h0, ht⟩ := h
    have hl : load m a = dyn.dTag := congrArg Elf64Dyn.dTag he
    rw [scan, he, hl, if_neg h0, List.foldlM_cons]
    exact bind_congr fun found' => scan_eq ht (by rw [List.length_cons]; omega)

theorem tagged_cons (tag : U64) (dyn : Elf64Dyn) (dyns : List Elf64Dyn) : tagged tag (dyn :: dyns)
    = if dyn.dTag = tag then dyn :: tagged tag dyns else tagged tag dyns := by
  simp only [tagged, List.filter_cons, decide_eq_true_eq]

/-- The scan finds the last entries with the tags it knows. -/
theorem scanEntries_ok : ∀ {dyns : List Elf64Dyn} (found : Found), tagged dtRel dyns = [] →
    (∀ dyn ∈ tagged dtRelaent dyns, dyn.dUn = sizeofRela) →
    dyns.foldlM scanEntry found = .ok
      ⟨((tagged dtRela dyns).map fun dyn => kernelBase + dyn.dUn).getLastD found.relas,
        ((tagged dtRelasz dyns).map fun dyn => dyn.dUn / sizeofRela).getLastD found.numRelas⟩
  | [], _, _, _ => rfl
  | dyn :: dyns, found, hr, he => by
    rw [tagged_cons] at hr he
    split_ifs at hr with h1
    have ih := fun found => scanEntries_ok found hr fun d hd => he d (by
      split_ifs
      · exact List.mem_cons_of_mem _ hd
      · exact hd)
    rw [List.foldlM_cons, scanEntry, if_neg h1, tagged_cons, tagged_cons]
    by_cases h2 : dyn.dTag = dtRela
    · have h3 : dyn.dTag ≠ dtRelasz := h2.trans_ne (by decide)
      rw [if_pos h2, if_pos h2, if_neg h3, List.map_cons, List.getLastD_cons]
      exact ih _
    rw [if_neg h2, if_neg h2]
    by_cases h3 : dyn.dTag = dtRelasz
    · rw [if_pos h3, if_pos h3, List.map_cons, List.getLastD_cons]
      exact ih _
    rw [if_neg h3, if_neg h3]
    by_cases h4 : dyn.dTag = dtRelaent
    · rw [if_pos h4] at he
      rw [if_pos h4, if_neg (not_not.2 (he dyn List.mem_cons_self))]
      exact ih _
    · rw [if_neg h4]
      exact ih _

theorem scanEntries_halt : ∀ {dyns : List Elf64Dyn} (found : Found),
    ¬ (tagged dtRel dyns = [] ∧ ∀ dyn ∈ tagged dtRelaent dyns, dyn.dUn = sizeofRela) →
    ∃ e, dyns.foldlM scanEntry found = .error e ∧ e ≠ .scanning
  | [], _, h => by simp [tagged] at h
  | dyn :: dyns, found, h => by
    rw [List.foldlM_cons, scanEntry]
    by_cases h1 : dyn.dTag = dtRel
    · rw [if_pos h1]
      exact ⟨_, rfl, by decide⟩
    rw [tagged_cons, if_neg h1, tagged_cons] at h
    rw [if_neg h1]
    by_cases h4 : dyn.dTag = dtRelaent
    · have h2 : dyn.dTag ≠ dtRela := h4.trans_ne (by decide)
      have h3 : dyn.dTag ≠ dtRelasz := h4.trans_ne (by decide)
      rw [if_neg h2, if_neg h3, if_pos h4]
      rw [if_pos h4, List.forall_mem_cons] at h
      by_cases h5 : dyn.dUn = sizeofRela
      · rw [if_neg (not_not.2 h5)]
        exact scanEntries_halt _ fun h' => h ⟨h'.1, h5, h'.2⟩
      · rw [if_pos h5]
        exact ⟨_, rfl, by decide⟩
    · rw [if_neg h4] at h ⊢
      split_ifs <;> exact scanEntries_halt _ h

/-! ## The loop -/

theorem RelaTable.congr : ∀ {relas : List Elf64Rela} {a : U64},
    SameAt m' m a (24 * relas.length) → RelaTable m a relas → RelaTable m' a relas
  | [], _, _, _ => trivial
  | rela :: relas, a, hs, h => by
    rw [List.length_cons] at hs
    have h0 : load m' a = load m a := load_congr (hs.mono (by omega))
    have h8 : load m' (a + 8) = load m (a + 8) := load_congr (hs.sub (d := 8) (by omega))
    have h16 : load m' (a + 16) = load m (a + 16) := load_congr (hs.sub (d := 16) (by omega))
    refine ⟨?_, RelaTable.congr (hs.sub (d := 24) (by omega)) h.2⟩
    rw [← h.1, relaAt, relaAt, h0, h8, h16]

/-- The writes of some relocations. -/
def writes (relas : List Elf64Rela) : List (U64 × ℕ) := relas.map fun r => (r.target, r.value.toNat)

theorem rela_succ (t : U64) (i : ℕ) : t + sizeofRela * BitVec.ofNat 64 (i + 1)
    = t + sizeofRela * BitVec.ofNat 64 i + sizeofRela := by
  rw [BitVec.ofNat_add, BitVec.mul_add, BitVec.add_assoc]
  rfl

/-- The loop applies the relocations as they stand in the table, since it does not write there. -/
theorem relocate_run {t : U64} : ∀ {relas : List Elf64Rela} {i : ℕ} {m : Memory},
    RelaTable m (t + sizeofRela * BitVec.ofNat 64 i) relas →
    (∀ r ∈ relas, Apart r.target 8 (t + sizeofRela * BitVec.ofNat 64 i) (24 * relas.length)) →
    (List.range' i relas.length).foldlM
        (fun m i => relocate m (t + sizeofRela * BitVec.ofNat 64 i)) m
      = if ∀ r ∈ relas, r.type = rX8664Relative then .ok (writeAll 8 m (writes relas))
        else .error .type
  | [], _, _, _, _ => by
    rw [if_pos (by simp)]
    rfl
  | rela :: relas, i, m, ht, ha => by
    have hlater : ∀ r ∈ rela :: relas,
        Apart r.target 8 (t + sizeofRela * BitVec.ofNat 64 (i + 1)) (24 * relas.length) := by
      intro r hr
      rw [rela_succ]
      exact (ha r hr).sub (d := 24) (by rw [List.length_cons]; omega)
    rw [List.length_cons, List.range'_succ, List.foldlM_cons, relocate, ht.1]
    by_cases hr : rela.type = rX8664Relative
    · have hm : RelaTable (store m rela.target rela.value)
          (t + sizeofRela * BitVec.ofNat 64 (i + 1)) relas := by
        refine RelaTable.congr (sameAt_blit (hlater rela List.mem_cons_self)) ?_
        rw [rela_succ]
        exact ht.2
      have ih := relocate_run hm fun r hr => hlater r (List.mem_cons_of_mem _ hr)
      rw [if_pos hr]
      simp only [List.forall_mem_cons, hr, true_and]
      exact ih
    · rw [if_neg hr, if_neg fun h => hr (h rela List.mem_cons_self)]
      rfl

/-! ## The whole -/

/-- After a scan that does not halt, the loop runs on the table that the entries name. -/
theorem doRelocations_scanned (h : Tables m dynamic dyns ptr size relas) (hr : tagged dtRel dyns = [])
    (he : ∀ dyn ∈ tagged dtRelaent dyns, dyn.dUn = sizeofRela) (hf : dyns.length < fuel) :
    doRelocations fuel m dynamic = if ∀ r ∈ relas, r.type = rX8664Relative then
        .ok (writeAll 8 m (writes relas)) else .error .type := by
  have h0 : kernelBase + ptr ≠ 0 := by
    intro h0
    have := h.high
    rw [h0, kernelBase_toNat] at this
    simp at this
  have hscan := scanEntries_ok ⟨0, 0⟩ hr he
  rw [← scan_eq h.dynTable hf, h.rela, h.relasz] at hscan
  have ht : kernelBase + ptr = kernelBase + ptr + sizeofRela * BitVec.ofNat 64 0 :=
    (BitVec.add_zero _).symm
  have hrun := relocate_run (ht ▸ h.relaTable) (ht ▸ h.apart)
  rw [← List.range_eq_range', h.length] at hrun
  rw [doRelocations, hscan]
  exact (if_neg h0).trans hrun

theorem Tables.perm (h : Tables m dynamic dyns ptr size relas) (hd : dyns.Perm dyns')
    (hr : relas.Perm relas') (hdt : DynTable m' dynamic dyns')
    (hrt : RelaTable m' (kernelBase + ptr) relas') : Tables m' dynamic dyns' ptr size relas' where
  dynTable := hdt
  rela := List.perm_singleton.1 (h.rela ▸ (hd.filter _).symm)
  relasz := List.perm_singleton.1 (h.relasz ▸ (hd.filter _).symm)
  high := h.high
  within := h.within
  length := hr.length_eq ▸ h.length
  relaTable := hrt
  targets := h.targets.perm hr fun ha => ha.symm (by norm_num)
  apart r hm := hr.length_eq ▸ h.apart r (hr.mem_iff.2 hm)
  apartDyn r hm := hd.length_eq ▸ h.apartDyn r (hr.mem_iff.2 hm)

theorem Supported.perm (h : Supported dyns relas) (hd : dyns.Perm dyns')
    (hr : relas.Perm relas') : Supported dyns' relas' where
  rel := List.perm_nil.1 (h.rel ▸ (hd.filter _).symm)
  relaent d hm := h.relaent d ((hd.filter _).mem_iff.2 hm)
  type r hm := h.type r (hr.mem_iff.2 hm)

theorem doRelocations_ok (h : Tables m dynamic dyns ptr size relas) (hs : Supported dyns relas)
    (hf : dyns.length < fuel) :
    doRelocations fuel m dynamic = .ok (writeAll 8 m (writes relas)) := by
  rw [doRelocations_scanned h hs.rel hs.relaent hf, if_pos hs.type]

theorem writes_pairwise (h : Tables m dynamic dyns ptr size relas) :
    (writes relas).Pairwise fun y z => Apart y.1 8 z.1 8 := List.pairwise_map.2 h.targets

/-- `do_relocations` writes each relocation's word and nothing else, whatever the order of the
tables' entries, when it supports them, and otherwise halts. -/
theorem do_relocations_spec (h : Tables m dynamic dyns ptr size relas) (hf : dyns.length < fuel) :
    (Supported dyns relas → ∃ out, doRelocations fuel m dynamic = .ok out
        ∧ (∀ r ∈ relas, load out (kernelBase + r.rOffset) = kernelBase + r.rAddend)
        ∧ (∀ x, (∀ r ∈ relas, 8 ≤ (x - (kernelBase + r.rOffset)).toNat) → out x = m x)
        ∧ ∀ {m' dyns' relas' fuel'}, dyns.Perm dyns' → relas.Perm relas' →
          DynTable m' dynamic dyns' → RelaTable m' (kernelBase + ptr) relas' →
          dyns'.length < fuel' → ∃ out', doRelocations fuel' m' dynamic = .ok out'
            ∧ ∀ x, m x = m' x → out x = out' x)
      ∧ (¬ Supported dyns relas →
        ∃ e, doRelocations fuel m dynamic = .error e ∧ e ≠ .scanning) := by
  refine ⟨fun hs => ⟨_, doRelocations_ok h hs hf, fun r hr => ?_, fun x hx => ?_, ?_⟩, fun hs => ?_⟩
  · have hread := writeAll_read (m := m) (by norm_num) (writes_pairwise h)
      (List.mem_map_of_mem hr) (by have := r.value.isLt; omega)
    change load _ r.target = r.value
    rw [load, hread, BitVec.ofNat_toNat, BitVec.setWidth_eq]
  · exact writeAll_frame (List.forall_mem_map.2 hx)
  · intro m' dyns' relas' fuel' hd hr hdt hrt hf'
    exact ⟨_, doRelocations_ok (h.perm hd hr hdt hrt) (hs.perm hd hr) hf',
      fun x hx => writeAll_perm (by norm_num) (hr.map _) (writes_pairwise h) hx⟩
  · by_cases hsc : tagged dtRel dyns = [] ∧ ∀ dyn ∈ tagged dtRelaent dyns, dyn.dUn = sizeofRela
    · rw [doRelocations_scanned h hsc.1 hsc.2 hf, if_neg fun ht => hs ⟨hsc.1, hsc.2, ht⟩]
      exact ⟨_, rfl, by decide⟩
    · obtain ⟨e, he, hne⟩ := scanEntries_halt ⟨0, 0⟩ hsc
      rw [← scan_eq h.dynTable hf] at he
      rw [doRelocations, he]
      exact ⟨e, rfl, hne⟩

/-! ## A small image -/

def smallDyns : List Elf64Dyn :=
  [⟨dtRelaent, sizeofRela⟩, ⟨1, 0x30⟩, ⟨dtRelasz, 48⟩, ⟨dtRela, 0x100⟩]

def smallRelas : List Elf64Rela := [⟨0x300, 8, 0x10⟩, ⟨0x308, 8, 0x20⟩]

/-- The words of both tables, from `0x200` and `0x100` on. -/
def smallImage : Memory :=
  writeAll 8 (fun _ => 0) <| ((smallDyns.flatMap fun d => [d.dTag, d.dUn]).mapIdx fun i v =>
      (kernelBase + 0x200 + 8 * BitVec.ofNat 64 i, v.toNat))
    ++ ((smallRelas.flatMap fun r => [r.rOffset, r.rInfo, r.rAddend]).mapIdx fun i v =>
      (kernelBase + 0x100 + 8 * BitVec.ofNat 64 i, v.toNat))

theorem smallImage_tables :
    Tables smallImage (kernelBase + 0x200) smallDyns 0x100 48 smallRelas where
  dynTable := by simp only [smallDyns, DynTable]; decide +kernel
  rela := by decide
  relasz := by decide
  high := by decide
  within := by decide
  length := by decide
  relaTable := by simp only [smallRelas, RelaTable]; decide +kernel
  targets := by decide +kernel
  apart := by decide +kernel
  apartDyn := by decide +kernel

theorem do_relocations_spec_small : ∃ out, doRelocations 5 smallImage (kernelBase + 0x200) = .ok out
    ∧ load out (kernelBase + 0x308) = kernelBase + 0x20 := by
  obtain ⟨out, h, hv, -⟩ := (do_relocations_spec smallImage_tables
    (by decide : smallDyns.length < 5)).1 ⟨by decide, by decide, by decide⟩
  exact ⟨out, h, hv ⟨0x308, 8, 0x20⟩ (by decide)⟩

end Relocations

end SctOs
