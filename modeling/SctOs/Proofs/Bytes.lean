import SctOs.Bytes

/-!
# Reading back what was written

A read sees only the bytes it covers (`readLE_congr`), so a write apart from them is not seen
(`sameAt_blit`), and a write of the same bytes is read back (`readLE_writeLE`). Runs written one
after the other are one run (`blit_append`), and many writes that are apart leave what each wrote
(`patchAll_at`).
-/

namespace Bytes

variable {w : ℕ}

theorem blit_apply (m : Mem w) (a : BitVec w) (n : ℕ) (f : ℕ → BitVec 8) (x : BitVec w) :
    blit m a n f x = if (x - a).toNat < n then f (x - a).toNat else m x := rfl

theorem blit_of_le {m : Mem w} {a : BitVec w} {n : ℕ} {f : ℕ → BitVec 8} {x : BitVec w}
    (h : n ≤ (x - a).toNat) : blit m a n f x = m x := by
  rw [blit_apply, if_neg (by omega)]

theorem blit_at {m : Mem w} {a : BitVec w} {n i : ℕ} {f : ℕ → BitVec 8} (hi : i < n)
    (hw : i < 2 ^ w) : blit m a n f (a + BitVec.ofNat w i) = f i := by
  have hsub : a + BitVec.ofNat w i - a = BitVec.ofNat w i := by
    rw [BitVec.add_comm, BitVec.add_sub_cancel]
  rw [blit_apply, hsub, BitVec.toNat_ofNat, Nat.mod_eq_of_lt hw, if_pos hi]

theorem sameAt_fill (m : Mem w) (a : BitVec w) {n : ℕ} (b : BitVec 8) (hn : n ≤ 2 ^ w) :
    SameAt (fill m a n b) (fun _ => b) a n := fun _ hi => blit_at hi (lt_of_lt_of_le hi hn)

theorem SameAt.symm {m m' : Mem w} {a : BitVec w} {n : ℕ} (h : SameAt m m' a n) :
    SameAt m' m a n := fun i hi => (h i hi).symm

theorem SameAt.trans {m m' m'' : Mem w} {a : BitVec w} {n : ℕ} (h : SameAt m m' a n)
    (h' : SameAt m' m'' a n) : SameAt m m'' a n := fun i hi => (h i hi).trans (h' i hi)

theorem SameAt.mono {m m' : Mem w} {a : BitVec w} {n k : ℕ} (h : SameAt m m' a n) (hk : k ≤ n) :
    SameAt m m' a k := fun i hi => h i (hi.trans_le hk)

theorem SameAt.sub {m m' : Mem w} {a : BitVec w} {n k d : ℕ} (h : SameAt m m' a n)
    (hk : d + k ≤ n) : SameAt m m' (a + BitVec.ofNat w d) k := by
  intro i hi
  have := h (d + i) (by omega)
  rwa [BitVec.ofNat_add, ← BitVec.add_assoc] at this

theorem SameAt.succ {m m' : Mem w} {a : BitVec w} {n : ℕ} (h : SameAt m m' a (n + 1)) :
    SameAt m m' (a + BitVec.ofNat w 1) n := h.sub (by omega)

theorem SameAt.head {m m' : Mem w} {a : BitVec w} {n : ℕ} (h : SameAt m m' a (n + 1)) :
    m a = m' a := by
  simpa using h 0 (Nat.succ_pos n)

theorem readLE_congr {m m' : Mem w} : ∀ {n : ℕ} {a : BitVec w}, SameAt m m' a n →
    readLE m a n = readLE m' a n
  | 0, _, _ => rfl
  | n + 1, a, h => by
    simp only [readLE]
    rw [h.head, readLE_congr h.succ]

theorem readLE_lt (m : Mem w) : ∀ (n : ℕ) (a : BitVec w), readLE m a n < 256 ^ n
  | 0, _ => by simp [readLE]
  | n + 1, a => by
    have ih := readLE_lt m n (a + BitVec.ofNat w 1)
    have hb := (m a).isLt
    simp only [readLE, Nat.pow_succ]
    omega

theorem sameAt_blit {m : Mem w} {a b : BitVec w} {n k : ℕ} {f : ℕ → BitVec 8}
    (h : Apart a n b k) : SameAt (blit m a n f) m b k := fun j hj => blit_of_le (h j hj)

theorem byteOf_zero_toNat (v : ℕ) : (byteOf v 0).toNat = v % 256 := by
  simp [byteOf]

theorem byteOf_succ (v i : ℕ) : byteOf v (i + 1) = byteOf (v / 256) i := by
  simp only [byteOf, Nat.pow_succ', Nat.div_div_eq_div_mul]

/-- Reading `n` bytes whose `i`-th is the `i`-th of `v` gives `v`, as far as `n` bytes hold it. -/
theorem readLE_of_bytes {m : Mem w} : ∀ {n : ℕ} {a : BitVec w} {v : ℕ},
    (∀ i < n, m (a + BitVec.ofNat w i) = byteOf v i) → readLE m a n = v % 256 ^ n
  | 0, _, v, _ => by simp [readLE, Nat.mod_one]
  | n + 1, a, v, h => by
    have h0 : m a = byteOf v 0 := by simpa using h 0 (Nat.succ_pos n)
    have hs : ∀ i < n, m (a + BitVec.ofNat w 1 + BitVec.ofNat w i) = byteOf (v / 256) i := by
      intro i hi
      have := h (i + 1) (by omega)
      rwa [byteOf_succ, Nat.add_comm i 1, BitVec.ofNat_add, ← BitVec.add_assoc] at this
    rw [readLE, h0, byteOf_zero_toNat, readLE_of_bytes hs, Nat.pow_succ', Nat.mod_mul]

theorem readLE_writeLE {m : Mem w} {a : BitVec w} {n v : ℕ} (hn : n ≤ 2 ^ w)
    (hv : v < 256 ^ n) : readLE (writeLE m a n v) a n = v := by
  have h : ∀ i < n, writeLE m a n v (a + BitVec.ofNat w i) = byteOf v i :=
    fun i hi => blit_at hi (by omega)
  rw [readLE_of_bytes h, Nat.mod_eq_of_lt hv]

theorem readLE_zero {m : Mem w} {n : ℕ} {a : BitVec w}
    (h : ∀ i < n, m (a + BitVec.ofNat w i) = 0) : readLE m a n = 0 := by
  rw [readLE_of_bytes (v := 0) (fun i hi => by rw [h i hi]; simp [byteOf]), Nat.zero_mod]

/-- Reading a memory moved by `b` is reading `b` further on. -/
theorem readLE_shift (m : Mem w) (b : BitVec w) : ∀ (n : ℕ) (a : BitVec w),
    readLE (fun x => m (b + x)) a n = readLE m (b + a) n
  | 0, _ => rfl
  | n + 1, a => by
    rw [readLE, readLE, readLE_shift m b n, BitVec.add_assoc]

/-! ## Numbers in bytes -/

theorem number_congr {b b' : ℕ → BitVec 8} : ∀ {n i i' : ℕ}, (∀ j < n, b (i + j) = b' (i' + j)) →
    number b i n = number b' i' n
  | 0, _, _, _ => rfl
  | n + 1, i, i', h => by
    have h0 : b i = b' i' := h 0 (Nat.succ_pos n)
    rw [number, number, h0, number_congr fun j hj => ?_]
    have := h (j + 1) (by omega)
    rwa [Nat.add_assoc, Nat.add_assoc, Nat.add_comm 1 j]

theorem number_bytesFrom (m : Mem w) (a : BitVec w) : ∀ (n i : ℕ),
    number (bytesFrom m a) i n = readLE m (a + BitVec.ofNat w i) n
  | 0, _ => rfl
  | n + 1, i => by
    rw [number, readLE, number_bytesFrom m a n, BitVec.add_assoc, ← BitVec.ofNat_add]
    rfl

/-! ## Apart -/

/-- Runs of bytes are apart when the second starts past the first and ends before it. -/
theorem apart_of_sub {a b : BitVec w} {n k : ℕ} (h : n ≤ (b - a).toNat)
    (hk : (b - a).toNat + k ≤ 2 ^ w) : Apart a n b k := by
  intro j hj
  have he : b + BitVec.ofNat w j - a = (b - a) + BitVec.ofNat w j := by
    rw [BitVec.sub_eq_add_neg, BitVec.sub_eq_add_neg, BitVec.add_assoc, BitVec.add_assoc,
      BitVec.add_comm (BitVec.ofNat w j)]
  have hjw : j < 2 ^ w := by omega
  rw [he, BitVec.toNat_add, BitVec.toNat_ofNat, Nat.mod_eq_of_lt hjw, Nat.mod_eq_of_lt (by omega)]
  omega

theorem offset_self (a x : BitVec w) : a + BitVec.ofNat w (x - a).toNat = x := by
  rw [BitVec.ofNat_toNat, BitVec.setWidth_eq, BitVec.add_comm, BitVec.sub_add_cancel]

theorem Apart.not_lt {a b x : BitVec w} {n k : ℕ} (h : Apart a n b k) (hb : (x - b).toNat < k) :
    n ≤ (x - a).toNat := by
  have := h _ hb
  rwa [offset_self] at this

theorem Apart.sub {a b : BitVec w} {n k k' d : ℕ} (h : Apart a n b k) (hk : d + k' ≤ k) :
    Apart a n (b + BitVec.ofNat w d) k' := by
  intro j hj
  have := h (d + j) (by omega)
  rwa [BitVec.ofNat_add, ← BitVec.add_assoc] at this

theorem Apart.symm {a b : BitVec w} {n k : ℕ} (h : Apart a n b k) (hn : n ≤ 2 ^ w) :
    Apart b k a n := by
  intro i hi
  by_contra hlt
  have hle := h.not_lt (Nat.lt_of_not_le hlt)
  rw [BitVec.add_comm, BitVec.add_sub_cancel, BitVec.toNat_ofNat,
    Nat.mod_eq_of_lt (lt_of_lt_of_le hi hn)] at hle
  omega

theorem offset_outside {a : BitVec w} {i n j : ℕ} (h : j < i ∨ i + n ≤ j) (hi : i + n ≤ 2 ^ w)
    (hj : j < 2 ^ w) : n ≤ (a + BitVec.ofNat w j - (a + BitVec.ofNat w i)).toNat := by
  have he : a + BitVec.ofNat w j - (a + BitVec.ofNat w i)
      = BitVec.ofNat w j - BitVec.ofNat w i := by
    rw [BitVec.sub_eq_add_neg, BitVec.neg_add, BitVec.sub_eq_add_neg, BitVec.sub_eq_add_neg]
    grind
  rw [he, BitVec.toNat_sub, BitVec.toNat_ofNat, BitVec.toNat_ofNat, Nat.mod_eq_of_lt hj]
  rcases Nat.eq_zero_or_pos n with rfl | hn
  · exact Nat.zero_le _
  rw [Nat.mod_eq_of_lt (show i < 2 ^ w by omega)]
  rcases h with h | h
  · rw [Nat.mod_eq_of_lt (by omega)]
    omega
  · have hj' : 2 ^ w - i + j = (j - i) + 2 ^ w := by omega
    rw [hj', Nat.add_mod_right, Nat.mod_eq_of_lt (by omega)]
    omega

theorem apart_offset {a : BitVec w} {i n j k : ℕ} (h : i + n ≤ j ∨ j + k ≤ i) (hi : i + n ≤ 2 ^ w)
    (hj : j + k ≤ 2 ^ w) : Apart (a + BitVec.ofNat w i) n (a + BitVec.ofNat w j) k := by
  intro l hl
  rw [BitVec.add_assoc, ← BitVec.ofNat_add]
  exact offset_outside (by omega) hi (by omega)

/-! ## One run after another -/

section Runs

variable {m : Mem w} {a : BitVec w} {n : ℕ}

theorem sub_offset {a x : BitVec w} {k : ℕ} (h : k ≤ (x - a).toNat) :
    (x - (a + BitVec.ofNat w k)).toNat = (x - a).toNat - k := by
  have he : x - (a + BitVec.ofNat w k) = (x - a) - BitVec.ofNat w k := by
    rw [BitVec.sub_eq_add_neg, BitVec.neg_add, BitVec.sub_eq_add_neg, BitVec.sub_eq_add_neg]
    grind
  have hk : k < 2 ^ w := lt_of_le_of_lt h (x - a).isLt
  rw [he, BitVec.toNat_sub_of_le]
  · rw [BitVec.toNat_ofNat, Nat.mod_eq_of_lt hk]
  · rw [BitVec.le_def, BitVec.toNat_ofNat, Nat.mod_eq_of_lt hk]
    exact h

theorem blit_zero {f : ℕ → BitVec 8} : blit m a 0 f = m := by
  funext x
  exact blit_of_le (Nat.zero_le _)

/-- A run of bytes after another is one run. -/
theorem blit_append {k : ℕ} {f g h : ℕ → BitVec 8} (hlen : n + k ≤ 2 ^ w)
    (hf : ∀ i < n, f i = h i) (hg : ∀ i < k, g i = h (n + i)) :
    blit (blit m a n f) (a + BitVec.ofNat w n) k g = blit m a (n + k) h := by
  funext x
  simp only [blit_apply]
  rcases Nat.lt_or_ge (x - a).toNat n with hlt | hge
  · have hout := offset_outside (a := a) (n := k) (.inl hlt) hlen (x - a).isLt
    rw [offset_self] at hout
    rw [if_neg (by omega), if_pos hlt, if_pos (by omega), hf _ hlt]
  · rw [sub_offset hge, if_neg (by omega : ¬ (x - a).toNat < n)]
    by_cases hk : (x - a).toNat < n + k
    · have hback : n + ((x - a).toNat - n) = (x - a).toNat := by omega
      rw [if_pos (by omega), if_pos hk, hg _ (by omega), hback]
    · rw [if_neg (by omega), if_neg hk]

theorem update_eq_blit (b : BitVec 8) : Function.update m a b = blit m a 1 fun _ => b := by
  funext x
  have hx : (x - a).toNat < 1 ↔ x = a := by
    constructor
    · intro h
      have := offset_self a x
      rw [Nat.lt_one_iff.1 h] at this
      rw [← this, BitVec.add_zero]
    · rintro rfl
      rw [BitVec.sub_self]
      exact Nat.one_pos
  rw [Function.update_apply, blit_apply]
  exact if_congr hx.symm rfl rfl

theorem blit_succ {f : ℕ → BitVec 8} (hn : n + 1 ≤ 2 ^ w) :
    blit m a (n + 1) f = Function.update (blit m a n f) (a + BitVec.ofNat w n) (f n) := by
  rw [update_eq_blit]
  refine (blit_append hn (fun _ _ => rfl) fun i hi => ?_).symm
  rw [Nat.lt_one_iff.1 hi, Nat.add_zero]

end Runs

/-! ## Writes that are apart -/

section PatchAll

variable {m : Mem w} {x : BitVec w}

theorem patchAll_frame : ∀ {ps : List (Patch w)} {m : Mem w}, (∀ p ∈ ps, ¬ p.Mem x) →
    patchAll m ps x = m x
  | [], _, _ => rfl
  | p :: ps, m, h => by
    rw [patchAll, List.foldl_cons, ← patchAll,
      patchAll_frame fun q hq => h q (List.mem_cons_of_mem _ hq)]
    exact blit_of_le (Nat.le_of_not_lt (h p List.mem_cons_self))

/-- A byte that a patch reaches is the one written, if the patches are apart. -/
theorem patchAll_at : ∀ {ps : List (Patch w)} {m : Mem w},
    ps.Pairwise (fun p q => p.Mem x → ¬ q.Mem x) → ∀ p ∈ ps, p.Mem x →
      patchAll m ps x = p.byte (x - p.start).toNat
  | q :: ps, m, hd, p, hp, hx => by
    obtain ⟨hq, hd⟩ := List.pairwise_cons.1 hd
    rw [patchAll, List.foldl_cons, ← patchAll]
    rcases List.mem_cons.1 hp with rfl | hp
    · rw [patchAll_frame fun r hr => hq r hr hx]
      exact if_pos hx
    · exact patchAll_at hd p hp hx

end PatchAll

section WriteAll

variable {k : ℕ} {ws ws' : List (BitVec w × ℕ)} {m m' : Mem w} {x : BitVec w}

theorem writeAll_cons (k : ℕ) (m : Mem w) (y : BitVec w × ℕ) (ws : List (BitVec w × ℕ)) :
    writeAll k m (y :: ws) = writeAll k (writeLE m y.1 k y.2) ws := rfl

theorem writeAll_eq (k : ℕ) (m : Mem w) (ws : List (BitVec w × ℕ)) :
    writeAll k m ws = patchAll m (ws.map fun y => ⟨y.1, k, byteOf y.2⟩) := by
  rw [patchAll, List.foldl_map]
  rfl

theorem writeAll_frame (h : ∀ y ∈ ws, k ≤ (x - y.1).toNat) : writeAll k m ws x = m x := by
  rw [writeAll_eq]
  exact patchAll_frame (List.forall_mem_map.2 fun y hy => Nat.not_lt.2 (h y hy))

/-- A byte that a write reaches is the one written, if the writes are apart. -/
theorem writeAll_at (hp : ws.Pairwise fun y z => Apart y.1 k z.1 k) {y : BitVec w × ℕ} (hy : y ∈ ws)
    (hx : (x - y.1).toNat < k) : writeAll k m ws x = byteOf y.2 (x - y.1).toNat := by
  rw [writeAll_eq]
  refine patchAll_at (List.pairwise_map.2 (hp.imp fun {y z} ha hy hz => ?_)) _
    (List.mem_map_of_mem hy) hx
  exact absurd hy (Nat.not_lt.2 (ha.not_lt hz))

theorem writeAll_read (hk : k ≤ 2 ^ w) (hp : ws.Pairwise fun y z => Apart y.1 k z.1 k)
    {y : BitVec w × ℕ} (hy : y ∈ ws) (hv : y.2 < 256 ^ k) :
    readLE (writeAll k m ws) y.1 k = y.2 := by
  have hb : ∀ i < k, writeAll k m ws (y.1 + BitVec.ofNat w i) = byteOf y.2 i := by
    intro i hi
    have hsub : (y.1 + BitVec.ofNat w i - y.1).toNat = i := by
      rw [BitVec.add_comm, BitVec.add_sub_cancel, BitVec.toNat_ofNat,
        Nat.mod_eq_of_lt (by omega)]
    rw [writeAll_at hp hy (by omega), hsub]
  rw [readLE_of_bytes hb, Nat.mod_eq_of_lt hv]

/-- The order of writes that are apart makes no difference. -/
theorem writeAll_perm (hk : k ≤ 2 ^ w) (h : ws.Perm ws')
    (hp : ws.Pairwise fun y z => Apart y.1 k z.1 k) (hx : m x = m' x) :
    writeAll k m ws x = writeAll k m' ws' x := by
  have hp' := hp.perm h fun {y z} ha => ha.symm hk
  by_cases hy : ∃ y ∈ ws, (x - y.1).toNat < k
  · obtain ⟨y, hy, hlt⟩ := hy
    rw [writeAll_at hp hy hlt, writeAll_at hp' (h.mem_iff.1 hy) hlt]
  · simp only [not_exists, not_and, Nat.not_lt] at hy
    rw [writeAll_frame hy, writeAll_frame fun y hm => hy y (h.mem_iff.2 hm), hx]

end WriteAll

end Bytes
