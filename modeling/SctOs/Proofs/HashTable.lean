import SctOs.HashTable
import SctOs.Proofs.Chains
import SctOs.Proofs.Related
import SctOs.Proofs.Stateful

/-!
# The hash table of symbols

The walk of a bucket goes through the positions of the chain array instead of its links. It prints
the chains exactly where the two are the same (`printsChains_iff`).
-/

namespace SctOs

open Chains Stateful

variable {m : ℕ → Elf64Word} {addr : ℕ}

/-! ## Runs -/

namespace ElfHashTable

variable {t : ElfHashTable}

/-- The words from an index on, up to the first zero. -/
def Spells (m : ℕ → Elf64Word) : ℕ → List Elf64Word → Prop
  | k, [] => m k = 0
  | k, w :: l => m k = w ∧ w ≠ 0 ∧ Spells m (k + 1) l

theorem printChain_ok : ∀ {fuel k : ℕ} {s s' : Printing},
    (printChain m fuel k).run s = .ok () s' ↔ ∃ l, Spells m k l ∧ l.length < fuel ∧
      s' = ⟨s.printed ++ l, s.read ++ List.range' k (l.length + 1)⟩
  | 0, k, s, s' => by
    constructor
    · intro h
      cases h
    · rintro ⟨l, -, hl, -⟩
      omega
  | fuel + 1, k, s, s' => by
    have hrun : (printChain m (fuel + 1) k).run s =
        if m k = 0 then .ok () ⟨s.printed, s.read ++ [k]⟩
        else (printChain m fuel (k + 1)).run ⟨s.printed ++ [m k], s.read ++ [k]⟩ := by
      rw [printChain, readWord, bind_assoc, EStateM.run_bind]
      change (if m k = 0 then (pure () : M Unit) else _).run _ = _
      split_ifs <;> rfl
    rw [hrun]
    split_ifs with hk
    · constructor
      · intro h
        cases h
        exact ⟨[], hk, by simp, by simp⟩
      · rintro ⟨l, hl, -, rfl⟩
        cases l with
        | nil => simp
        | cons w l => exact absurd (hl.1.symm.trans hk) hl.2.1
    · rw [printChain_ok]
      constructor
      · rintro ⟨l, hl, hlen, rfl⟩
        exact ⟨m k :: l, ⟨rfl, hk, hl⟩, by simpa using hlen, by simp [List.range'_succ]⟩
      · rintro ⟨l, hl, hlen, rfl⟩
        cases l with
        | nil => exact absurd hl hk
        | cons w l =>
          obtain ⟨rfl, -, hl⟩ := hl
          exact ⟨l, hl, by simpa using hlen, by simp [List.range'_succ]⟩

/-- What is printed for a bucket. -/
def Prints (m : ℕ → Elf64Word) (t : ElfHashTable) (i : ℕ) (l : List Elf64Word) : Prop :=
  m (t.buckets + i) = 0 ∧ l = [] ∨
    m (t.buckets + i) ≠ 0 ∧ ∃ l', l = m (t.buckets + i) :: l' ∧ Spells m (t.chains + i) l'

theorem printBucket_ok {fuel i : ℕ} {s s' : Printing} :
    (printBucket m t fuel i).run s = .ok () s' ↔ ∃ l, Prints m t i l ∧ l.length ≤ fuel ∧
      s' = ⟨s.printed ++ l, s.read ++ (t.buckets + i) :: List.range' (t.chains + i) l.length⟩ := by
  have hrun : (printBucket m t fuel i).run s =
      if m (t.buckets + i) = 0 then .ok () ⟨s.printed, s.read ++ [t.buckets + i]⟩
      else (printChain m fuel (t.chains + i)).run
        ⟨s.printed ++ [m (t.buckets + i)], s.read ++ [t.buckets + i]⟩ := by
    rw [printBucket, readWord, bind_assoc, EStateM.run_bind]
    change (if m (t.buckets + i) = 0 then (pure () : M Unit) else _).run _ = _
    split_ifs <;> rfl
  rw [hrun]
  split_ifs with hk
  · constructor
    · intro h
      cases h
      exact ⟨[], .inl ⟨hk, rfl⟩, by simp, by simp⟩
    · rintro ⟨l, ⟨-, rfl⟩ | ⟨hne, -⟩, -, rfl⟩
      · simp
      · exact absurd hk hne
  · rw [printChain_ok]
    constructor
    · rintro ⟨l, hl, hlen, rfl⟩
      exact ⟨_ :: l, .inr ⟨hk, l, rfl, hl⟩, hlen, by simp⟩
    · rintro ⟨l, ⟨h0, -⟩ | ⟨-, l', rfl, hl⟩, hlen, rfl⟩
      · exact absurd h0 hk
      · exact ⟨l', hl, hlen, by simp⟩

/-- The words that are read to print `l`. -/
def reads (t : ElfHashTable) (i : ℕ) (l : List Elf64Word) : List ℕ :=
  (t.buckets + i) :: List.range' (t.chains + i) l.length

/-- What a run over buckets prints, when what it reads satisfies `p`. -/
theorem printBuckets_ok {fuel : ℕ} {p : ℕ → Prop} {out : List Elf64Word} : ∀ {is : List ℕ}
    {s : Printing}, (∃ s', (is.forM (printBucket m t fuel)).run s = .ok () s' ∧
      (∀ k ∈ s'.read, p k) ∧ s'.printed = out) ↔
    (∀ k ∈ s.read, p k) ∧ ∃ ls, List.Forall₂ (fun i l => Prints m t i l ∧ l.length ≤ fuel ∧
      ∀ k ∈ reads t i l, p k) is ls ∧ out = s.printed ++ ls.flatten
  | [], s => by
    constructor
    · rintro ⟨s', hrun, hread, rfl⟩
      cases hrun
      exact ⟨hread, [], .nil, by simp⟩
    · rintro ⟨hread, ls, hls, rfl⟩
      cases hls
      exact ⟨s, rfl, hread, by simp⟩
  | i :: is, s => by
    have hstep : ∀ s', ((i :: is).forM (printBucket m t fuel)).run s = .ok () s' ↔
        ∃ s₁, (printBucket m t fuel i).run s = .ok () s₁ ∧
          (is.forM (printBucket m t fuel)).run s₁ = .ok () s' := fun s' =>
      run_bind_ok.trans ⟨fun ⟨_, s₁, h⟩ => ⟨s₁, h⟩, fun ⟨s₁, h⟩ => ⟨(), s₁, h⟩⟩
    constructor
    · rintro ⟨s', hrun, hread, hout⟩
      obtain ⟨s₁, hi, his⟩ := (hstep s').1 hrun
      obtain ⟨hread₁, ls, hls, rfl⟩ := printBuckets_ok.1 ⟨s', his, hread, hout⟩
      obtain ⟨l, hl, hlen, rfl⟩ := printBucket_ok.1 hi
      refine ⟨fun k hk => hread₁ k (List.mem_append_left _ hk), l :: ls,
        .cons ⟨hl, hlen, fun k hk => hread₁ k (List.mem_append_right _ hk)⟩ hls, ?_⟩
      rw [List.flatten_cons, List.append_assoc]
    · rintro ⟨hread, ls, hls, rfl⟩
      cases hls with
      | @cons _ l _ ls hl hls =>
        obtain ⟨hl, hlen, hreads⟩ := hl
        have hi := printBucket_ok (s := s).2 ⟨l, hl, hlen, rfl⟩
        have hread₁ : ∀ k ∈ s.read ++ reads t i l, p k := fun k hk =>
          (List.mem_append.1 hk).elim (hread k) (hreads k)
        obtain ⟨s', hrun, hread', hout⟩ := printBuckets_ok
          (s := ⟨s.printed ++ l, s.read ++ reads t i l⟩).2 ⟨hread₁, ls, hls, rfl⟩
        refine ⟨s', (hstep s').2 ⟨_, hi, hrun⟩, hread', ?_⟩
        rw [hout, List.flatten_cons, List.append_assoc]

end ElfHashTable

open ElfHashTable

/-! ## Tables -/

namespace HashTable

variable {t : HashTable}

theorem chain_stop {j : Elf64Word} {l : List Elf64Word} (h : t.Chain j l) : 0 ∉ l := by
  induction h with
  | nil => exact List.not_mem_nil
  | cons hne _ _ ih => exact fun h => (List.mem_cons.1 h).elim (fun h => hne h.symm) ih

theorem chain_head {j : Elf64Word} {l : List Elf64Word} (h : t.Chain j l) :
    l.head? = if j = 0 then none else some j := by
  cases h with
  | nil => rfl
  | cons hne => rw [if_neg hne, List.head?_cons]

theorem chain_nil {j : Elf64Word} (h : t.Chain j []) : j = 0 := by
  cases h
  rfl

theorem chain_cons {j k : Elf64Word} {l : List Elf64Word} (h : t.Chain k (j :: l)) :
    k ≠ 0 ∧ j = k := by
  cases h with
  | cons hne => exact ⟨hne, rfl⟩

theorem chains_nodup : ∀ {js : List Elf64Word} {ls : List (List Elf64Word)},
    (js.Pairwise fun j k => ∀ l, t.Chain j l → ∀ l', t.Chain k l' → l.Disjoint l') →
    List.Forall₂ t.Chain js ls → ls.flatten.Nodup
  | [], _, _, .nil => List.nodup_nil
  | j :: js, l :: ls, hd, .cons hl hls => by
    obtain ⟨hj, hjs⟩ := List.pairwise_cons.1 hd
    refine List.nodup_append'.2 ⟨chain_nodup hl, chains_nodup hjs hls, fun a ha hmem => ?_⟩
    obtain ⟨l', hl', ha'⟩ := List.mem_flatten.1 hmem
    obtain ⟨k, hk, hchain⟩ := hls.flip.exists_of_mem hl'
    exact hj k hk _ hl l' hchain ha ha'

theorem spells_iff {k : ℕ} (hm : ∀ i < t.chains.length, t.chains[i]? = some (m (k + i))) :
    ∀ {l : List Elf64Word} {i : ℕ}, 0 ∉ l →
      (Spells m (k + i) l ∧ i + l.length < t.chains.length ↔ l ++ [0] <+: t.chains.drop i)
  | [], i, _ => by
    rcases Nat.lt_or_ge i t.chains.length with hi | hi
    · rw [List.drop_eq_getElem_cons hi, List.nil_append, List.cons_prefix_cons,
        Option.some.inj ((List.getElem?_eq_getElem hi).symm.trans (hm i hi))]
      exact ⟨fun h => ⟨h.1.symm, List.nil_prefix⟩, fun h => ⟨h.1.symm, hi⟩⟩
    · rw [List.drop_eq_nil_of_le hi]
      simp [hi]
  | w :: l, i, h0 => by
    have hw : w ≠ 0 := fun h => h0 (h ▸ List.mem_cons_self)
    have hl : 0 ∉ l := fun h => h0 (List.mem_cons_of_mem _ h)
    rcases Nat.lt_or_ge i t.chains.length with hi | hi
    · rw [List.drop_eq_getElem_cons hi, List.cons_append, List.cons_prefix_cons,
        ← spells_iff hm hl, List.length_cons,
        Option.some.inj ((List.getElem?_eq_getElem hi).symm.trans (hm i hi))]
      constructor
      · rintro ⟨⟨hmw, -, hspells⟩, hlen⟩
        exact ⟨hmw.symm, hspells, by omega⟩
      · rintro ⟨hmw, hspells, hlen⟩
        exact ⟨⟨hmw.symm, hw, hspells⟩, by omega⟩
    · rw [List.drop_eq_nil_of_le hi]
      simp
      omega

theorem buckets_eq (hm : t.InMemory m addr) :
    t.buckets = (List.range t.buckets.length).map fun i => m (addr + 2 + i) := by
  refine List.ext_getElem? fun i => ?_
  rcases Nat.lt_or_ge i t.buckets.length with hi | hi
  · rw [hm.buckets i hi, List.getElem?_map, List.getElem?_range hi, Option.map_some]
  · rw [List.getElem?_eq_none hi, List.getElem?_eq_none (by simpa using hi)]

end HashTable

open HashTable

/-- The chain of each bucket is what the chain array spells from the bucket's position on. -/
def HashTable.Aligned (t : HashTable) : Prop :=
  ∀ i j l, t.buckets[i]? = some j → t.Chain j (j :: l) → l ++ [0] <+: t.chains.drop i

theorem printsChains_iff_prints {t : HashTable} (hm : t.InMemory m addr) :
    PrintsChains t m addr ↔ ∃ fuel ls ms, List.Forall₂ (fun i l =>
      Prints m (initHashTable m addr) i l ∧ l.length ≤ fuel ∧
        ∀ k ∈ reads (initHashTable m addr) i l, t.Inside addr k)
        (List.range t.buckets.length) ls ∧
      List.Forall₂ (fun i l => t.Chain (m (addr + 2 + i)) l) (List.range t.buckets.length) ms ∧
      ls.flatten = ms.flatten := by
  have hn : (initHashTable m addr).nbucket.toNat = t.buckets.length := hm.nbucket
  have hbuckets := buckets_eq hm
  unfold PrintsChains printHashTable
  rw [hn]
  constructor
  · rintro ⟨fuel, s, hrun, hread, ms, hms, hout⟩
    obtain ⟨-, ls, hls, heq⟩ := printBuckets_ok.1 ⟨s, hrun, hread, hout⟩
    rw [hbuckets, List.forall₂_map_left_iff] at hms
    exact ⟨fuel, ls, ms, hls, hms, heq.symm⟩
  · rintro ⟨fuel, ls, ms, hls, hms, heq⟩
    rw [← List.forall₂_map_left_iff (f := fun i => m (addr + 2 + i)), ← hbuckets] at hms
    obtain ⟨s, hrun, hread, hout⟩ := printBuckets_ok (s := ⟨[], []⟩).2
      ⟨fun k hk => absurd hk List.not_mem_nil, ls, hls, rfl⟩
    exact ⟨fuel, s, hrun, hread, ms, hms, hout.trans heq⟩

theorem prints_iff {t : HashTable} (hm : t.InMemory m addr) {i : ℕ} (hi : i < t.buckets.length)
    {l : List Elf64Word} (hl : t.Chain (m (addr + 2 + i)) l) :
    (Prints m (initHashTable m addr) i l ∧
      ∀ k ∈ reads (initHashTable m addr) i l, t.Inside addr k) ↔
      ∀ j l', l = j :: l' → l' ++ [0] <+: t.chains.drop i := by
  have hchains : (initHashTable m addr).chains = addr + 2 + t.buckets.length :=
    congrArg (addr + 2 + ·) hm.nbucket
  have hb : t.Inside addr (addr + 2 + i) := by
    unfold HashTable.Inside
    omega
  rcases l with _ | ⟨j, l⟩
  · constructor
    · rintro - j l' h
      cases h
    · refine fun _ => ⟨.inl ⟨chain_nil hl, rfl⟩, fun k hk => ?_⟩
      rw [List.mem_singleton.1 hk]
      exact hb
  · obtain ⟨hne, hj⟩ := chain_cons hl
    have hspells := spells_iff (i := i) hm.chains
      fun h => chain_stop hl (List.mem_cons_of_mem j h)
    rw [← hchains] at hspells
    constructor
    · rintro ⟨hprints, hreads⟩ j' l' heq
      obtain ⟨rfl, rfl⟩ := List.cons.inj heq
      rcases hprints with ⟨h0, -⟩ | ⟨-, l', heq, hs⟩
      · exact absurd h0 hne
      · cases heq
        have hlast := hreads ((initHashTable m addr).chains + i + l.length)
          (List.mem_cons_of_mem _ (List.mem_range'_1.2 ⟨by omega, by simp⟩))
        unfold HashTable.Inside at hlast
        exact hspells.1 ⟨hs, by omega⟩
    · intro h
      obtain ⟨hs, hlen⟩ := hspells.2 (h j l rfl)
      refine ⟨.inr ⟨hne, l, by rw [hj]; rfl, hs⟩, fun k hk => ?_⟩
      rcases List.mem_cons.1 hk with rfl | hk
      · exact hb
      · have hk := List.mem_range'_1.1 hk
        rw [List.length_cons] at hk
        unfold HashTable.Inside
        omega

theorem printsChains_aligned {t : HashTable} (h : t.WellFormed) (hm : t.InMemory m addr)
    (hp : PrintsChains t m addr) : t.Aligned := by
  obtain ⟨fuel, ls, ms, hls, hms, heq⟩ := (printsChains_iff_prints hm).1 hp
  have hnodup : ms.flatten.Nodup := by
    refine chains_nodup (t := t) h.disjoint ?_
    rw [buckets_eq hm, List.forall₂_map_left_iff]
    exact hms
  -- What is printed for a bucket starts with the symbol in the bucket, like its chain.
  have hheads : List.Forall₂ (fun l l' => l.head? = l'.head?) ls ms := by
    refine hls.trans_of hms fun i l l' ⟨hl, _⟩ hl' => ?_
    rw [chain_head hl']
    rcases hl with ⟨h0, rfl⟩ | ⟨hne, l₂, rfl, -⟩
    · exact (if_pos h0).symm
    · exact (if_neg hne).symm
  obtain rfl := flatten_inj hheads heq hnodup
  intro i j l hj hchain
  have hi := (List.getElem?_eq_some_iff.1 hj).1
  obtain ⟨l', ⟨hl', -, hreads⟩, hchain'⟩ := hls.both hms i (List.mem_range.2 hi)
  obtain rfl := Option.some.inj (hj.symm.trans (hm.buckets i hi))
  obtain rfl := chain_unique hchain hchain'
  exact (prints_iff hm hi hchain).1 ⟨hl', hreads⟩ _ l rfl

theorem aligned_printsChains {t : HashTable} (h : t.WellFormed) (hm : t.InMemory m addr)
    (ha : t.Aligned) : PrintsChains t m addr := by
  have hends : ∀ i < t.buckets.length, ∃ l, t.Chain (m (addr + 2 + i)) l := fun i hi =>
    h.ends _ (List.mem_of_getElem? (hm.buckets i hi))
  choose! f hf using hends
  have hrange : ∀ i ∈ List.range t.buckets.length, i < t.buckets.length := fun i hi =>
    List.mem_range.1 hi
  refine (printsChains_iff_prints hm).2 ⟨((List.range t.buckets.length).map f).flatten.length,
    (List.range t.buckets.length).map f, (List.range t.buckets.length).map f, ?_, ?_, rfl⟩
  · rw [List.forall₂_map_right_iff, List.forall₂_same]
    intro i hi
    have hchain := hf i (hrange i hi)
    have hlen : (f i).length ≤ ((List.range t.buckets.length).map f).flatten.length :=
      (List.sublist_flatten_of_mem (List.mem_map_of_mem hi)).length_le
    obtain ⟨hprints, hreads⟩ := (prints_iff hm (hrange i hi) hchain).2 fun j l hl => by
      rw [hl] at hchain
      obtain ⟨-, rfl⟩ := chain_cons hchain
      exact ha i _ l (hm.buckets i (hrange i hi)) hchain
    exact ⟨hprints, hlen, hreads⟩
  · rw [List.forall₂_map_right_iff, List.forall₂_same]
    exact fun i hi => hf i (hrange i hi)

/-- The positions have to be the links. -/
theorem printsChains_iff {t : HashTable} (h : t.WellFormed) (hm : t.InMemory m addr) :
    PrintsChains t m addr ↔ t.Aligned :=
  ⟨printsChains_aligned h hm, aligned_printsChains h hm⟩

/-! ## Small tables -/

/-- The table at index 0 of memory. -/
def HashTable.words (t : HashTable) (k : ℕ) : Elf64Word :=
  (BitVec.ofNat 32 t.buckets.length :: BitVec.ofNat 32 t.chains.length ::
    (t.buckets ++ t.chains)).getD k 0

/-- A bucket with the symbols 2 and 1. -/
def twoSymbols : HashTable := ⟨[2], [0, 0, 1]⟩

theorem twoSymbols_chain : twoSymbols.Chain 2 [2, 1] :=
  .cons (by decide) rfl (.cons (by decide) rfl .nil)

theorem twoSymbols_wellFormed : twoSymbols.WellFormed where
  nbucket := by simp [twoSymbols]
  nchain := by simp [twoSymbols]
  buckets := by simp [twoSymbols]
  chains := by simp [twoSymbols]
  ends := List.forall_mem_singleton.2 ⟨_, twoSymbols_chain⟩
  disjoint := List.pairwise_singleton _ _

theorem twoSymbols_inMemory : twoSymbols.InMemory twoSymbols.words 0 :=
  ⟨by decide, by decide, by decide, by decide⟩

/-- The symbol 1 is not printed. -/
theorem printsChains_false : twoSymbols.WellFormed ∧ twoSymbols.InMemory twoSymbols.words 0 ∧
    ¬PrintsChains twoSymbols twoSymbols.words 0 := by
  refine ⟨twoSymbols_wellFormed, twoSymbols_inMemory, fun h => ?_⟩
  have ha := printsChains_aligned twoSymbols_wellFormed twoSymbols_inMemory h 0 2 [1] rfl
    twoSymbols_chain
  exact absurd ha (by decide)

/-- The same bucket, where the positions are the links. -/
def alignedSymbols : HashTable := ⟨[2], [1, 0, 1]⟩

theorem alignedSymbols_chain : alignedSymbols.Chain 2 [2, 1] :=
  .cons (by decide) rfl (.cons (by decide) rfl .nil)

theorem alignedSymbols_wellFormed : alignedSymbols.WellFormed where
  nbucket := by simp [alignedSymbols]
  nchain := by simp [alignedSymbols]
  buckets := by simp [alignedSymbols]
  chains := by simp [alignedSymbols]
  ends := List.forall_mem_singleton.2 ⟨_, alignedSymbols_chain⟩
  disjoint := List.pairwise_singleton _ _

theorem printsChains_alignedSymbols : PrintsChains alignedSymbols alignedSymbols.words 0 := by
  refine (printsChains_iff alignedSymbols_wellFormed
    ⟨by decide, by decide, by decide, by decide⟩).2 fun i j l hj hl => ?_
  rcases i with _ | i
  · obtain rfl : 2 = j := Option.some.inj hj
    obtain rfl : [1] = l := by injection chain_unique alignedSymbols_chain hl
    decide
  · cases hj

end SctOs
