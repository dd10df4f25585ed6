import SctOs.Ranges
import SctOs.Proofs.Requests
import SctOs.Proofs.Spans

/-!
# Ranges of pages

A canonical range holds each of its pages once (`vpage_inj`), so disjoint canonical ranges make
requests with different paths (`ranges_nodup`), and a loop over things with ranges makes their
requests (`mapAll_ranges`). The range of a segment holds the pages that the
segment touches (`touches`). At the top of the address space, disjoint spans are enough
(`spans_nodup`).
-/

namespace SctOs

open Radix Span

theorem mem_requests {r : PageRange} {q : Request} :
    q ∈ r.requests ↔ ∃ i < r.pages, q = ⟨r.ppage i, r.vpage i, r.flags⟩ := by
  simp only [PageRange.requests, List.mem_map, List.mem_range, eq_comm (a := q)]

theorem range_flags (ph : Elf64Phdr) : ph.range.flags = pteRw ↔ ph.pFlags &&& pfW ≠ 0 := by
  rw [Elf64Phdr.range]
  split_ifs with h
  · exact iff_of_true rfl h
  · exact iff_of_false (show (0 : U64) ≠ pteRw by decide) h

theorem vpage_zero (r : PageRange) : r.vpage 0 = r.vaddr := by
  simp [PageRange.vpage]

theorem ppage_zero (r : PageRange) : r.ppage 0 = r.paddr := by
  simp [PageRange.ppage]

/-- The pages of a segment are as far from its first one as in virtual memory. -/
theorem ppage_of_vpage {ph : Elf64Phdr} {i : ℕ} {page : U64} (h : page = ph.range.vpage i) :
    ph.range.ppage i = pageBase ph.pPaddr + (page - pageBase ph.pVaddr) := by
  rw [h]
  simp only [PageRange.ppage, PageRange.vpage, Elf64Phdr.range]
  grind

/-- A segment whose pages are canonical is not too long for its pages to be counted. -/
theorem touches {v size x : U64} (h0 : size ≠ 0)
    (hc : ∀ i < size.toNat, Canonical (pageBase (v + BitVec.ofNat 64 i))) :
    (∃ i < (numPages v size).toNat, x = pageBase v + pageSize * BitVec.ofNat 64 i) ↔
      ∃ i < size.toNat, x = pageBase (v + BitVec.ofNat 64 i) := by
  have hs := canonical_span fun i hi => pageBase_canonical.1 (hc i hi)
  exact numPages_touches h0 (by omega)

theorem vpage_aligned {r : PageRange} (h : pageOffset r.vaddr = 0) (i : ℕ) :
    pageOffset (r.vpage i) = 0 := by
  have h := congrArg BitVec.toNat h
  apply BitVec.eq_of_toNat_eq
  rw [pageOffset_toNat] at h ⊢
  rw [PageRange.vpage, BitVec.toNat_add, BitVec.toNat_mul, pageSize_toNat, BitVec.toNat_ofNat]
  simp only [BitVec.reduceToNat] at h ⊢
  omega

/-- A canonical range has at most as many pages as there are. -/
theorem pages_le {r : PageRange} (ha : pageOffset r.vaddr = 0)
    (hc : ∀ i < r.pages, Canonical (r.vpage i)) : r.pages ≤ 2 ^ 36 := by
  have h : ∀ j < 4096 * r.pages, Canonical (r.vaddr + BitVec.ofNat 64 j) := by
    intro j hj
    have h0 : r.vaddr.toNat % 4096 = 0 := by rw [← pageOffset_toNat, ha]; rfl
    rw [← pageBase_canonical, pageBase_add, pageBase_of_aligned ha, h0]
    exact hc _ (by omega)
  have := canonical_span h
  omega

theorem vpage_inj {r : PageRange} (ha : pageOffset r.vaddr = 0)
    (hc : ∀ i < r.pages, Canonical (r.vpage i)) {i j : ℕ} (hi : i < r.pages) (hj : j < r.pages)
    (h : r.vpage i = r.vpage j) : i = j := by
  have hle := pages_le ha hc
  have h := congrArg BitVec.toNat h
  rw [PageRange.vpage, PageRange.vpage, BitVec.toNat_add, BitVec.toNat_add,
    pageSize_mul_toNat (by omega), pageSize_mul_toNat (by omega)] at h
  have := r.vaddr.isLt
  omega

/-- Disjoint canonical ranges make requests with different paths. -/
theorem ranges_nodup {rs : List PageRange}
    (ha : ∀ r ∈ rs, ∀ i < r.pages, pageOffset (r.vpage i) = 0)
    (hc : ∀ r ∈ rs, ∀ i < r.pages, Canonical (r.vpage i)) (hd : rs.Pairwise PageRange.Disjoint) :
    (((rs.flatMap PageRange.requests).map Request.vpage).map path).Nodup := by
  have hmem : ∀ v ∈ (rs.flatMap PageRange.requests).map Request.vpage,
      Canonical v ∧ pageOffset v = 0 := by
    intro v hv
    simp only [List.mem_map, List.mem_flatMap, mem_requests] at hv
    obtain ⟨q, ⟨r, hr, i, hi, rfl⟩, rfl⟩ := hv
    exact ⟨hc r hr i hi, ha r hr i hi⟩
  refine List.Nodup.map_on (fun x hx y hy h => path_inj (hmem x hx).1 (hmem y hy).1 (hmem x hx).2
    (hmem y hy).2 h) ?_
  rw [List.map_flatMap, List.nodup_flatMap]
  refine ⟨fun r hr => ?_, hd.imp fun {r r'} h => ?_⟩
  · rw [PageRange.requests, List.map_map]
    refine List.nodup_range.map_on fun i hi j hj h => ?_
    rw [List.mem_range] at hi hj
    have h0 := vpage_zero r ▸ ha r hr 0 (by omega)
    exact vpage_inj h0 (hc r hr) hi hj h
  · intro v hv hv'
    simp only [List.mem_map, mem_requests] at hv hv'
    obtain ⟨_, ⟨i, hi, rfl⟩, rfl⟩ := hv
    obtain ⟨_, ⟨j, hj, rfl⟩, he⟩ := hv'
    exact h i hi j hj he.symm

theorem vpage_toNat {r : PageRange} {a : ℕ} (h : r.span.Within a (2 ^ 64)) {i : ℕ}
    (hi : i < r.pages) : (r.vpage i).toNat = r.vaddr.toNat + 4096 * i
      ∧ a ≤ r.vaddr.toNat + 4096 * i ∧ r.vaddr.toNat + 4096 * i < 2 ^ 64 := by
  have hb := h (r.vaddr.toNat + 4096 * i)
  simp only [Span.Mem, PageRange.span] at hb
  rw [PageRange.vpage, BitVec.toNat_add, pageSize_mul_toNat (by omega)]
  omega

/-- Ranges at the top of the address space whose spans are disjoint make requests with different
paths, at whatever offset their pages are. -/
theorem spans_nodup {rs : List PageRange}
    (hw : ∀ r ∈ rs, r.span.Within (2 ^ 64 - 2 ^ 47) (2 ^ 64))
    (hd : (rs.map PageRange.span).Pairwise Span.Disjoint) :
    (((rs.flatMap PageRange.requests).map Request.vpage).map path).Nodup := by
  have hpath : ∀ r ∈ rs, ∀ r' ∈ rs, ∀ i < r.pages, ∀ j < r'.pages,
      path (r.vpage i) = path (r'.vpage j) →
        (r.vaddr.toNat + 4096 * i) / 4096 = (r'.vaddr.toNat + 4096 * j) / 4096 := by
    intro r hr r' hr' i hi j hj h
    obtain ⟨hv, hl, hu⟩ := vpage_toNat (hw r hr) hi
    obtain ⟨hv', hl', hu'⟩ := vpage_toNat (hw r' hr') hj
    rw [path_eq_iff, hv, hv'] at h
    omega
  rw [List.map_map, List.map_flatMap, List.nodup_flatMap]
  refine ⟨fun r hr => ?_, (List.pairwise_map.1 hd).imp_of_mem fun {r r'} hr hr' h => ?_⟩
  · rw [PageRange.requests, List.map_map]
    refine List.nodup_range.map_on fun i hi j hj h => ?_
    have := hpath r hr r hr i (List.mem_range.1 hi) j (List.mem_range.1 hj) h
    omega
  · intro p hp hp'
    simp only [List.mem_map, mem_requests] at hp hp'
    obtain ⟨_, ⟨i, hi, rfl⟩, rfl⟩ := hp
    obtain ⟨_, ⟨j, hj, rfl⟩, he⟩ := hp'
    have := hpath r hr r' hr' i hi j hj he.symm
    -- two pages with one number share the later of their first addresses
    have h := h (max (r.vaddr.toNat + 4096 * i) (r'.vaddr.toNat + 4096 * j))
    simp only [Span.Mem, PageRange.span] at h
    omega

/-! ## Loops as one list of requests -/

section loops

variable {σ α : Type} {ptr : U64 → U64} {allocate : Run σ U64} {root : U64}

theorem mapAll_range (r : PageRange) : (List.range r.pages).forM (fun i =>
    mapPageWith ptr allocate root (r.ppage i) (r.vpage i) r.flags)
      = mapAll ptr allocate root r.requests := by
  rw [mapAll, PageRange.requests, List.forM_eq_forM, List.forM_eq_forM, List.forM_map]

/-- A loop over some elements that maps the ranges of those with `p`. -/
theorem mapAll_ranges {p : α → Prop} [DecidablePred p] {range : α → PageRange}
    {f : α → Run σ Unit} (hpos : ∀ a, p a → f a = mapAll ptr allocate root (range a).requests)
    (hneg : ∀ a, ¬p a → f a = pure ()) : ∀ as : List α, as.forM f = mapAll ptr allocate root
      (((as.filter fun a => p a).map range).flatMap PageRange.requests)
  | [] => rfl
  | a :: as => by
    have ih := mapAll_ranges hpos hneg as
    rw [List.forM_eq_forM] at ih ⊢
    rw [List.forM_cons, ih]
    by_cases h : p a
    · rw [List.filter_cons_of_pos (by simpa using h), List.map_cons, List.flatMap_cons,
        mapAll_append, hpos a h]
    · rw [List.filter_cons_of_neg (by simpa using h), hneg a h, pure_bind]

/-- A loop that also notes the last element with `p`. -/
theorem foldlM_note {p : α → Prop} [DecidablePred p] {f : α → Run σ Unit} :
    ∀ (as : List α) (last : Option α),
      as.foldlM (fun last a => do f a; return if p a then some a else last) last =
        (do as.forM f; return (as.filter fun a => p a).getLast?.or last)
  | [], last => rfl
  | a :: as, last => by
    have hlast : ((as.filter fun a => p a).getLast?).or (if p a then some a else last)
        = (((a :: as).filter fun a => p a).getLast?).or last := by
      by_cases h : p a
      · rw [if_pos h, List.filter_cons_of_pos (by simpa using h), List.getLast?_cons]
        cases (as.filter fun a => p a).getLast? <;> rfl
      · rw [if_neg h, List.filter_cons_of_neg (by simpa using h)]
    have ih := foldlM_note (p := p) (f := f) as
    rw [List.foldlM_cons, ← hlast]
    simp only [List.forM_eq_forM] at ih ⊢
    simp only [List.forM_cons, bind_assoc, pure_bind, ih]

end loops

/-! ## Tables of ranges -/

/-- Tables made from canonical ranges translate exactly their pages. -/
theorem mapRanges_translate {σ : Type} {A : Allocator σ} {root : Frame} {s s' : Machine σ}
    {st : Store Frame Index U64} {rs : List PageRange} (hm : Models A s st)
    (hs : Sound links 3 root st) (hr : st.heap root = fun _ => none)
    (ha : ∀ r ∈ rs, ∀ i < r.pages, pageOffset (r.vpage i) = 0)
    (hc : ∀ r ∈ rs, ∀ i < r.pages, Canonical (r.vpage i))
    (hp : ∀ r ∈ rs, ∀ i < r.pages, ∃ f, r.ppage i = frameAddr f)
    (hf : ∀ r ∈ rs, r.flags = 0 ∨ r.flags = pteRw)
    (h : mapAll (fun p => A.base + p) A.allocate (A.base + frameAddr root)
      (rs.flatMap PageRange.requests) s = .ok ((), s')) (v p : U64) (w : Bool) :
    walk (physical A.base s'.mem) (frameAddr root) v = some ⟨p, w⟩ ↔
      ∃ r ∈ rs, ∃ i < r.pages, pageBase v = r.vpage i ∧ p = r.ppage i + pageOffset v
        ∧ (w = true ↔ r.flags = pteRw) := by
  have hmap : ∀ r ∈ rs, ∀ i < r.pages, mappingOf v (r.ppage i ||| pteP ||| r.flags) = ⟨p, w⟩ ↔
      p = r.ppage i + pageOffset v ∧ (w = true ↔ r.flags = pteRw) := by
    intro r hr i hi
    obtain ⟨f, he⟩ := hp r hr i hi
    rw [he, mappingOf_entry v f (hf r hr), Mapping.mk.injEq, eq_comm (b := p), eq_comm (b := w),
      Bool.eq_iff_iff, decide_eq_true_iff]
  by_cases hv : Canonical v
  · rw [mapAll_translate hm hs hr h hv]
    simp only [List.mem_flatMap, mem_requests]
    constructor
    · rintro ⟨_, ⟨r, hr, i, hi, rfl⟩, hq, he⟩
      exact ⟨r, hr, i, hi, (path_eq_page hv (hc r hr i hi) (ha r hr i hi)).1 hq.symm,
        (hmap r hr i hi).1 he⟩
    · rintro ⟨r, hr, i, hi, hb, he⟩
      exact ⟨_, ⟨r, hr, i, hi, rfl⟩, by rw [← hb, path_pageBase], (hmap r hr i hi).2 he⟩
  · rw [walk_noncanonical hv]
    simp only [reduceCtorEq, false_iff]
    rintro ⟨r, hr, i, hi, hb, -⟩
    exact hv (pageBase_canonical.1 (hb ▸ hc r hr i hi))

/-! ## The kernel's segments -/

namespace SegmentsOk

variable {phdrs : List Elf64Phdr} (hs : SegmentsOk phdrs) {ph : Elf64Phdr}

include hs

theorem pages_toNat (hph : ph ∈ phdrs) : ph.range.pages
      = (ph.pVaddr.toNat % 4096 + ph.pMemsz.toNat + 4095) / 4096
    ∧ ph.pVaddr.toNat % 4096 + ph.pMemsz.toNat + 4095 < 2 ^ 64 := by
  have hh := hs.high ph hph
  rw [kernelBase_toNat] at hh
  exact ⟨numPages_toNat (by omega), by omega⟩

theorem within (hph : ph ∈ phdrs) : ph.range.span.Within kernelBase.toNat (2 ^ 64) := by
  have hh := hs.high ph hph
  have hn := (hs.pages_toNat hph).1
  rw [kernelBase_toNat] at hh ⊢
  refine within_of_le ?_ ?_
  all_goals
    simp only [Elf64Phdr.range, pageBase_toNat] at hn ⊢
    omega

theorem touches (hph : ph ∈ phdrs) {x : U64} : (∃ i < ph.range.pages, x = ph.range.vpage i) ↔
    ∃ i < ph.pMemsz.toNat, x = pageBase (ph.pVaddr + BitVec.ofNat 64 i) :=
  numPages_touches (hs.nonempty ph hph) (hs.pages_toNat hph).2

theorem touches_span (hph : ph ∈ phdrs) {x : ℕ} (hx : ph.range.span.Mem x) :
    ∃ i < ph.pMemsz.toNat, (pageBase (ph.pVaddr + BitVec.ofNat 64 i)).toNat = x / 4096 * 4096 := by
  have hw := hs.within hph
  have hi : (x - ph.range.vaddr.toNat) / 4096 < ph.range.pages := by
    simp only [Mem, PageRange.span] at hx
    omega
  obtain ⟨hv, -, -⟩ := vpage_toNat hw hi
  obtain ⟨i, hi, he⟩ := (hs.touches hph).1 ⟨_, hi, rfl⟩
  refine ⟨i, hi, ?_⟩
  rw [← he]
  refine hv.trans ?_
  have h0 : ph.range.vaddr.toNat = ph.pVaddr.toNat / 4096 * 4096 := pageBase_toNat _
  simp only [Mem, PageRange.span] at hx
  omega

theorem pairwise : (phdrs.map fun ph => ph.range.span).Pairwise Disjoint := by
  refine List.pairwise_map.2 (hs.disjoint.imp_of_mem fun {ph ph'} hph hph' h x hx hx' => ?_)
  obtain ⟨i, hi, he⟩ := hs.touches_span hph hx
  obtain ⟨j, hj, he'⟩ := hs.touches_span hph' hx'
  exact h i hi j hj (BitVec.eq_of_toNat_eq (he.trans he'.symm))

end SegmentsOk

end SctOs
