import SctOs.Proofs.MapPage

/-!
# The walk is a lookup

In a sound tree every upper entry is a link, which is writable and maps no large page, so the
processor's walk for a canonical address is the lookup of its path, and the leaf entry alone
decides the page and the permission (`walk_eq`). Canonical pages have different paths
(`path_inj`).
-/

namespace SctOs

open Bytes Radix

theorem load_physical (base : U64) (m : Memory) (a : U64) :
    load (physical base m) a = load m (base + a) := by
  rw [load, load]
  exact congrArg (BitVec.ofNat 64) (readLE_shift m base 8 a)

/-- The processor finds an entry where the kernel's macros look for it. -/
theorem entryAt_macros (phys : Memory) (table v : U64) (level : ℕ) : entryAt phys table v level =
    if load phys (table + 8 * pageLevelIndex v level) &&& pteP = 0 then none
    else some (load phys (table + 8 * pageLevelIndex v level)) := rfl

theorem entryAt_physical (base : U64) (m : Memory) (f : Frame) (v : U64) (level : ℕ) :
    entryAt (physical base m) (frameAddr f) v level = heapOf base m f (pathIndex v level) := by
  simp only [entryAt_macros, heapOf, load_physical, slot, pageLevelIndex_eq, BitVec.add_assoc]

/-- What a leaf entry says of the address `v` it is for. -/
def mappingOf (v e : U64) : Mapping := ⟨(e &&& pteAddrMask) + pageOffset v, e &&& pteRw ≠ 0⟩

theorem tableOf_link (f : Frame) : tableOf (links.link f) = some (frameAddr f) := by
  have h : links.link f &&& 0x80 = 0 := by
    rw [links, entry_and_small (by decide)]
    decide
  have hmask : links.link f &&& 0xfffffffff000 = frameAddr (links.next (links.link f)) :=
    and_pteAddrMask _
  rw [tableOf, if_pos h, hmask, links.next_link]

theorem link_writable (f : Frame) : links.link f &&& pteRw ≠ 0 := by
  rw [links, entry_and_small (by decide)]
  decide

section

variable {base : U64} {m : Memory} {h : Heap Frame Index U64}

theorem Tree.link_eq {n : ℕ} {f : Frame} {i : Index} {e : U64} (ht : Tree links h (n + 1) f)
    (he : h f i = some e) : e = links.link (links.next e) := (ht.1 i e he).1

theorem walk_noncanonical {phys : Memory} {cr3 v : U64} (hv : ¬ Canonical v) :
    walk phys cr3 v = none := by
  simp [walk, hv]

theorem walk_eq {r : Frame} {v : U64} (ht : Tree links (heapOf base m) 3 r) (hv : Canonical v) :
    walk (physical base m) (frameAddr r) v
      = (lookup links (heapOf base m) r (path v)).map (mappingOf v) := by
  have hnext : ∀ e, e &&& 0xfffffffff000 = frameAddr (links.next e) := and_pteAddrMask
  simp only [walk, hv, not_true_eq_false, if_false, path, pathFrom, lookup, entryAt_physical]
  rcases h4 : heapOf base m r (pathIndex v 4) with _ | e4
  · rfl
  have l4 := Tree.link_eq ht h4
  have t4 := (ht.1 _ _ h4).2.1
  simp only [Option.bind_eq_bind, Option.bind_some, hnext, entryAt_physical]
  rcases h3 : heapOf base m (links.next e4) (pathIndex v 3) with _ | e3
  · rfl
  have l3 := Tree.link_eq t4 h3
  have t3 := (t4.1 _ _ h3).2.1
  have p3 : tableOf e3 = some (frameAddr (links.next e3)) := by
    rw [l3, tableOf_link, links.next_link]
  simp only [Option.bind_some, p3, entryAt_physical]
  rcases h2 : heapOf base m (links.next e3) (pathIndex v 2) with _ | e2
  · rfl
  have l2 := Tree.link_eq t3 h2
  have p2 : tableOf e2 = some (frameAddr (links.next e2)) := by
    rw [l2, tableOf_link, links.next_link]
  simp only [Option.bind_some, p2, entryAt_physical]
  rcases h1 : heapOf base m (links.next e2) (pathIndex v 1) with _ | e1
  · rfl
  have w4 : e4 &&& 2 ≠ 0 := by rw [l4]; exact link_writable _
  have w3 : e3 &&& 2 ≠ 0 := by rw [l3]; exact link_writable _
  have w2 : e2 &&& 2 ≠ 0 := by rw [l2]; exact link_writable _
  have hpage : e1 &&& pteAddrMask = frameAddr (links.next e1) := and_pteAddrMask e1
  simp only [mappingOf, hpage, List.all_cons, List.all_nil, ne_eq, w4, w3, w2, not_false_eq_true,
    decide_true, Bool.true_and, Bool.and_true, Option.bind_some, Option.map_some]
  rfl

theorem missingTables_eq (r : Frame) (v : U64) :
    missingTables (physical base m) (frameAddr r) v
      = missing links (heapOf base m) r (path v) := by
  have hnext : ∀ e, e &&& 0xfffffffff000 = frameAddr (links.next e) := and_pteAddrMask
  simp only [missingTables, path, pathFrom, missing, entryAt_physical]
  rcases heapOf base m r (pathIndex v 4) with _ | e4
  · rfl
  simp only [hnext, entryAt_physical]
  rcases heapOf base m (links.next e4) (pathIndex v 3) with _ | e3
  · rfl
  simp only []
  rcases heapOf base m (links.next e3) (pathIndex v 2) with _ | e2 <;> rfl

theorem tablePage_eq : ∀ (p : List Index) (r : Frame),
    tablePage (physical base m) (frameAddr r) p
      = (tableAt links (heapOf base m) r p).map frameAddr
  | [], r => rfl
  | i :: p, r => by
    simp only [tablePage, tableAt, heapOf, load_physical]
    rw [← BitVec.add_assoc]
    change (if load m (slot base r i) &&& pteP = 0 then _
      else tablePage _ (load m (slot base r i) &&& pteAddrMask) p) = _
    split_ifs with hp
    · rfl
    · rw [and_pteAddrMask]
      exact tablePage_eq p _

end

/-! ## Paths -/

theorem pathIndex_toNat (v : U64) (level : ℕ) :
    (pathIndex v level).toNat = v.toNat / 2 ^ (12 + 9 * (level - 1)) % 512 := by
  simp [pathIndex, BitVec.extractLsb'_toNat, Nat.shiftRight_eq_div_pow]

theorem path_eq_iff {v v' : U64} :
    path v = path v' ↔ v.toNat / 4096 % 2 ^ 36 = v'.toNat / 4096 % 2 ^ 36 := by
  have hi : ∀ level, pathIndex v level = pathIndex v' level ↔
      v.toNat / 2 ^ (12 + 9 * (level - 1)) % 512
        = v'.toNat / 2 ^ (12 + 9 * (level - 1)) % 512 := by
    intro level
    rw [← BitVec.toNat_inj, pathIndex_toNat, pathIndex_toNat]
  simp only [path, pathFrom, List.cons.injEq, hi, and_true]
  norm_num
  omega

theorem path_inj {v v' : U64} (hv : Canonical v) (hv' : Canonical v') (ha : pageOffset v = 0)
    (ha' : pageOffset v' = 0) (h : path v = path v') : v = v' := by
  have h1 : v.toNat % 4096 = 0 := by rw [← pageOffset_toNat, ha]; rfl
  have h2 : v'.toNat % 4096 = 0 := by rw [← pageOffset_toNat, ha']; rfl
  have hl := v.isLt
  have hl' := v'.isLt
  rw [path_eq_iff] at h
  apply BitVec.eq_of_toNat_eq
  simp only [Canonical] at hv hv'
  omega

theorem pageBase_canonical {v : U64} : Canonical (pageBase v) ↔ Canonical v := by
  have := pageBase_toNat v
  have := v.isLt
  simp only [Canonical]
  omega

theorem pageBase_aligned (v : U64) : pageOffset (pageBase v) = 0 := by
  apply BitVec.eq_of_toNat_eq
  rw [pageOffset_toNat, pageBase_toNat]
  simp

theorem pageBase_of_aligned {v : U64} (hv : pageOffset v = 0) : pageBase v = v := by
  have h := pageOffset_toNat v
  rw [hv] at h
  apply BitVec.eq_of_toNat_eq
  rw [pageBase_toNat]
  simp at h
  omega

theorem path_pageBase (v : U64) : path (pageBase v) = path v := by
  rw [path_eq_iff, pageBase_toNat]
  omega

/-- An address has the path of a page exactly when it is in the page. -/
theorem path_eq_page {v v' : U64} (hv : Canonical v) (hv' : Canonical v')
    (ha' : pageOffset v' = 0) : path v = path v' ↔ pageBase v = v' := by
  constructor
  · intro h
    exact path_inj (pageBase_canonical.2 hv) hv' (pageBase_aligned v) ha'
      ((path_pageBase v).trans h)
  · rintro rfl
    exact (path_pageBase v).symm

/-- The translation a leaf entry gives an address of its page. -/
theorem mappingOf_entry {fl : U64} (v : U64) (f : Frame) (hfl : fl = 0 ∨ fl = pteRw) :
    mappingOf v (frameAddr f ||| pteP ||| fl) = ⟨frameAddr f + pageOffset v, fl = pteRw⟩ := by
  have hs : fl.toNat < 4096 := by rcases hfl with rfl | rfl <;> decide
  have hw : decide ((pteP ||| fl) &&& pteRw ≠ 0) = decide (fl = pteRw) := by
    rcases hfl with rfl | rfl <;> decide
  rw [mappingOf, and_pteAddrMask, frameOf_entry hs, entry_and_small (by decide), hw]

theorem mappingOf_readOnly (v e : U64) :
    mappingOf v (e &&& ~~~pteRw) = { mappingOf v e with writable := false } := by
  have h1 : ~~~pteRw &&& pteAddrMask = pteAddrMask := by decide
  have h2 : ~~~pteRw &&& pteRw = 0 := by decide
  simp [mappingOf, BitVec.and_assoc, h1, h2]

end SctOs
