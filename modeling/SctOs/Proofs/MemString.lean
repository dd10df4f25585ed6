import Mathlib.Data.List.GetD
import SctOs.MemString
import SctOs.Proofs.BitFields
import SctOs.Proofs.Objects
import SctOs.Proofs.Strings

/-!
# Filling and copying

Both loops of `memset` leave the same bytes (`memset_fills`). Each direction of `memmove` reads what
the source held at first, when the destination does not begin inside it on that side
(`copyUp_eq`, `copyDown_eq`).
-/

namespace SctOs

namespace MemString

open Bytes BitFields CString

variable {m : Memory} {a d s x : U64} {n : ℕ}

/-! ## Filling -/

/-- Elements whose bytes are all alike fill the memory with that byte. -/
theorem repStos_fills {k : ℕ} {data : BitVec 32} {b : BitVec 8}
    (hb : ∀ i < k, byteOf data.toNat i = b) : ∀ (cnt : ℕ) (m : Memory) (addr : U64),
    cnt * k < 2 ^ 64 → repStos k data cnt m addr = fill m addr (cnt * k) b
  | 0, m, addr, _ => by
    funext x
    simp [repStos, fill, blit_apply]
  | cnt + 1, m, addr, hlen => by
    have hwrite : writeLE m addr k data.toNat = fill m addr k b := by
      funext x
      simp only [writeLE, fill, blit_apply]
      split_ifs with hx
      · exact hb _ hx
      · rfl
    rw [Nat.add_mul, Nat.one_mul] at hlen ⊢
    rw [repStos, hwrite, repStos_fills hb cnt _ _ (by omega), Nat.add_comm]
    exact blit_append (by omega) (fun _ _ => rfl) fun _ _ => rfl

theorem byteOf_extract (v : BitVec 32) (i : ℕ) : byteOf v.toNat i = v.extractLsb' (8 * i) 8 := by
  refine BitVec.eq_of_toNat_eq ?_
  rw [byteOf, BitVec.toNat_ofNat, BitVec.extractLsb'_toNat, Nat.shiftRight_eq_div_pow, Nat.pow_mul]

/-- Each byte of the word that `memset` makes of a byte. -/
theorem byteOf_replicated (c : BitVec 32) {i : ℕ} (hi : i < 4) :
    byteOf (((c &&& 0xFF) <<< 24) ||| ((c &&& 0xFF) <<< 16) ||| ((c &&& 0xFF) <<< 8) |||
      (c &&& 0xFF)).toNat i = c.setWidth 8 := by
  have hmask : (0xFF : BitVec 32) = fieldMask 32 0 8 := rfl
  rw [byteOf_extract]
  refine BitVec.eq_of_getLsbD_eq fun j hj => ?_
  simp only [BitVec.getLsbD_extractLsb', BitVec.getLsbD_or, hmask, getLsbD_field_shiftLeft,
    getLsbD_and_fieldMask, BitVec.getLsbD_setWidth]
  obtain rfl | rfl | rfl | rfl : i = 0 ∨ i = 1 ∨ i = 2 ∨ i = 3 := by omega
  all_goals grind

theorem byteOf_low (c : BitVec 32) {i : ℕ} (hi : i < 1) : byteOf c.toNat i = c.setWidth 8 := by
  obtain rfl : i = 0 := by omega
  rw [byteOf_extract, Nat.mul_zero, ← BitVec.setWidth_eq_extractLsb' (by decide)]

theorem memset_mem (m : Memory) (dst : U64) (c : BitVec 32) (n : U64) :
    (memset m dst c n).1 = fill m dst n.toNat (c.setWidth 8) := by
  have hn := n.isLt
  unfold memset
  split_ifs with h
  · have hmod : n.toNat % 4 = 0 := congrArg BitVec.toNat h.2
    have hdiv : (n / 4).toNat * 4 = n.toNat := by
      rw [BitVec.toNat_udiv]
      change n.toNat / 4 * 4 = n.toNat
      omega
    simp only [stosl]
    rw [repStos_fills (fun i hi => byteOf_replicated c hi) _ _ _ (by omega), hdiv]
  · simp only [stosb]
    rw [repStos_fills (fun i hi => byteOf_low c hi) _ _ _ (by omega), Nat.mul_one]

/-- By words or by bytes, every byte is the low one of `c`. -/
theorem memset_fills (m : Memory) (dst : U64) (c : BitVec 32) (n : U64) :
    memset m dst c n = (fill m dst n.toNat (c.setWidth 8), dst) := by
  refine Prod.ext (memset_mem m dst c n) ?_
  unfold memset
  split_ifs <;> rfl

/-! ## Copying -/

/-- The destination does not begin in what the loop has still to read. -/
theorem copyUp_eq : ∀ (n : ℕ) (m : Memory) (d s : U64), n < 2 ^ 64 →
    ((d - s).toNat = 0 ∨ n ≤ (d - s).toNat) → copyUp n m d s = blit m d n (bytesFrom m s)
  | 0, m, d, s, _, _ => by
    funext x
    simp [copyUp, blit_apply]
  | n + 1, m, d, s, hn, hds => by
    have hdiff : d + 1 - (s + 1) = d - s := by
      rw [BitVec.sub_eq_add_neg, BitVec.sub_eq_add_neg, BitVec.neg_add]
      grind
    have hread : ∀ i < n, bytesFrom (Function.update m d (m s)) (s + 1) i =
        bytesFrom m s (1 + i) := by
      intro i hi
      have hat : s + 1 + BitVec.ofNat 64 i = s + BitVec.ofNat 64 (1 + i) := by
        rw [BitVec.add_assoc, BitVec.ofNat_add]
        rfl
      rw [bytesFrom, bytesFrom, hat]
      refine Function.update_of_ne ?_ _ _
      rintro rfl
      rw [BitVec.add_comm, BitVec.add_sub_cancel, BitVec.toNat_ofNat] at hds
      omega
    rw [copyUp, copyUp_eq n _ _ _ (by omega) (by rw [hdiff]; omega), update_eq_blit,
      Nat.add_comm n 1]
    rw [update_eq_blit] at hread
    refine blit_append (by omega) (fun i hi => ?_) hread
    rw [Nat.lt_one_iff.1 hi, bytesFrom, BitVec.add_zero]

/-- The destination does not end in what the loop has still to read. -/
theorem copyDown_eq : ∀ (n : ℕ) (m : Memory) (d s : U64), n < 2 ^ 64 →
    ((s - d).toNat = 0 ∨ n ≤ (s - d).toNat) →
    copyDown n m (d + BitVec.ofNat 64 n) (s + BitVec.ofNat 64 n) = blit m d n (bytesFrom m s)
  | 0, m, d, s, _, _ => by
    funext x
    simp [copyDown, blit_apply]
  | n + 1, m, d, s, hn, hds => by
    have hback : ∀ p : U64, p + BitVec.ofNat 64 (n + 1) - 1 = p + BitVec.ofNat 64 n := by
      intro p
      rw [BitVec.ofNat_add, ← BitVec.add_assoc]
      exact BitVec.add_sub_cancel _ _
    have hlast : ∀ i ≤ n, s + BitVec.ofNat 64 i = d + BitVec.ofNat 64 n → i = n := by
      intro i hi he
      have hsub : s - d = BitVec.ofNat 64 n - BitVec.ofNat 64 i := by
        rw [BitVec.sub_eq_add_neg, BitVec.sub_eq_add_neg]
        grind
      rw [hsub, BitVec.toNat_sub, BitVec.toNat_ofNat, BitVec.toNat_ofNat] at hds
      omega
    rw [copyDown, hback, hback, copyDown_eq n _ _ _ (by omega) (by omega)]
    funext x
    simp only [blit_apply]
    rcases Nat.lt_trichotomy (x - d).toNat n with hlt | heq | hgt
    · rw [if_pos hlt, if_pos (by omega), bytesFrom, bytesFrom]
      exact Function.update_of_ne (fun he => absurd (hlast _ hlt.le he) (by omega)) _ _
    · have hx : d + BitVec.ofNat 64 n = x := by rw [← heq, offset_self]
      rw [if_neg (by omega), if_pos (by omega), hx, Function.update_self, heq, bytesFrom]
    · rw [if_neg (by omega), if_neg (by omega)]
      refine Function.update_of_ne ?_ _ _
      rintro rfl
      rw [BitVec.add_comm, BitVec.add_sub_cancel, BitVec.toNat_ofNat] at hgt
      omega

/-- The bytes at the destination are those that the source had, however the two overlap. -/
theorem memmove_copies (m : Memory) (dst src n : U64) (hsrc : src.toNat + n.toNat < 2 ^ 64)
    (hdst : dst.toNat + n.toNat ≤ 2 ^ 64) :
    memmove m dst src n = (blit m dst n.toNat (bytesFrom m src), dst) := by
  have hn := n.isLt
  have hend : (src + n).toNat = src.toNat + n.toNat := by
    rw [BitVec.toNat_add, Nat.mod_eq_of_lt hsrc]
  unfold memmove
  split_ifs with h
  · obtain ⟨hlt, hin⟩ := h
    rw [BitVec.lt_def] at hlt hin
    have hback : n.toNat ≤ (src - dst).toNat := by
      rw [BitVec.toNat_sub]
      omega
    have := copyDown_eq n.toNat m dst src hn (.inr hback)
    rw [BitVec.ofNat_toNat, BitVec.setWidth_eq] at this
    rw [this]
  · rw [BitVec.lt_def, BitVec.lt_def, hend] at h
    have hback : (dst - src).toNat = 0 ∨ n.toNat ≤ (dst - src).toNat := by
      rw [BitVec.toNat_sub]
      omega
    rw [copyUp_eq n.toNat m dst src hn hback]

/-- Five bytes moved up by two, onto their own end. -/
theorem memmove_copies_overlap : (memmove (fun x => x.setWidth 8) 0x1002 0x1000 5).1 0x1006 = 4 := by
  rw [memmove_copies _ _ _ _ (by decide) (by decide)]
  rfl

/-! ## Strings -/

theorem place_nil : place m a [] = m := blit_zero

theorem place_cons {c : BitVec 8} {cs : List (BitVec 8)} (h : cs.length + 1 < 2 ^ 64) :
    place (Function.update m a c) (a + 1) cs = place m a (c :: cs) := by
  rw [place, place, update_eq_blit, List.length_cons, Nat.add_comm]
  refine blit_append (by omega) (fun i hi => ?_) fun i _ => ?_
  · rw [Nat.lt_one_iff.1 hi, List.getD_cons_zero]
  · rw [Nat.add_comm, List.getD_cons_succ]

theorem place_append {xs ys : List (BitVec 8)} (h : (xs ++ ys).length ≤ 2 ^ 64) :
    place (place m a xs) (a + BitVec.ofNat 64 xs.length) ys = place m a (xs ++ ys) := by
  rw [List.length_append] at h
  rw [place, place, place, List.length_append]
  refine blit_append h (fun i hi => ?_) fun i _ => ?_
  · rw [List.getD_append _ _ _ _ hi]
  · rw [List.getD_append_right _ _ _ _ (Nat.le_add_right _ _), Nat.add_sub_cancel_left]

theorem place_singleton (b : BitVec 8) : Function.update m a b = place m a [b] := by
  rw [← place_cons (by simp), place_nil]

theorem fill_eq_place (b : BitVec 8) (n : ℕ) : fill m a n b = place m a (List.replicate n b) := by
  funext x
  rw [fill, place, blit_apply, blit_apply, List.length_replicate]
  split_ifs with h
  · exact (List.getD_replicate _ h).symm
  · rfl

theorem padLoop_fills : ∀ (n : ℕ) (m : Memory) (dst : U64), n < 2 ^ 64 →
    padLoop n m dst = fill m dst n 0#8
  | 0, m, dst, _ => by
    funext x
    exact (blit_of_le (Nat.zero_le _)).symm
  | n + 1, m, dst, hn => by
    rw [padLoop, padLoop_fills n _ _ (by omega), update_eq_blit, Nat.add_comm]
    exact blit_append (by omega) (fun _ _ => rfl) fun _ _ => rfl

/-- The loop copies the string with its terminator, or as much of it as there is room for. -/
theorem strncpyLoop_eq : ∀ (cs : List (BitVec 8)) (n : ℕ) (m : Memory) (dst src : U64),
    (∀ c ∈ cs, c ≠ 0) → BytesAt m src (cs ++ [0#8]) → Apart dst n src (cs.length + 1) → n < 2 ^ 64 →
    strncpyLoop n m dst src = (place m dst ((cs ++ [0#8]).take n),
      dst + BitVec.ofNat 64 (min n (cs.length + 1)),
      if cs.length < n then BitVec.ofNat 64 (n - 1 - cs.length) else -1)
  | cs, 0, m, dst, src, _, _, _, _ => by
    rw [strncpyLoop, List.take_zero, place_nil, Nat.zero_min, BitVec.add_zero, if_neg (by omega)]
    rfl
  | [], n + 1, m, dst, src, _, hs, _, hn => by
    have hc : m src = 0 := by simpa using hs 0 (by simp)
    simp [strncpyLoop, hc, place_singleton]
  | c :: cs, n + 1, m, dst, src, h0, hs, hap, hn => by
    have hc : m src = c := by simpa using hs 0 (by simp)
    have hc0 := h0 c List.mem_cons_self
    have hrest : Apart dst (n + 1) (src + 1) (cs.length + 1) :=
      hap.sub (d := 1) (by rw [List.length_cons]; omega)
    have hsame : SameAt (Function.update m dst c) m (src + 1) (cs.length + 1) := by
      rw [update_eq_blit]
      exact sameAt_blit fun j hj => le_trans (by omega) (hrest j hj)
    have hs' : BytesAt (Function.update m dst c) (src + 1) (cs ++ [0#8]) :=
      (bytesAt_append.1 (show BytesAt m src ([c] ++ (cs ++ [0#8])) from hs)).2.congr
        (by simpa using hsame.symm)
    have hap' : Apart (dst + 1) n (src + 1) (cs.length + 1) := by
      intro j hj
      have hle := hrest j hj
      have hsub := sub_offset (a := dst) (k := 1) (le_trans (by omega) hle)
      change n ≤ (_ - (dst + BitVec.ofNat 64 1)).toNat
      omega
    have ih := strncpyLoop_eq cs n _ _ _ (fun d hd => h0 d (List.mem_cons_of_mem c hd)) hs' hap'
      (by omega)
    have hlen : ((cs ++ [0#8]).take n).length + 1 < 2 ^ 64 := by
      rw [List.length_take]
      omega
    have hnext : dst + 1 + BitVec.ofNat 64 (min n (cs.length + 1)) =
        dst + BitVec.ofNat 64 (min n (cs.length + 1) + 1) := by
      rw [BitVec.add_assoc, BitVec.ofNat_add, BitVec.add_comm 1]
      rfl
    have hleft : n - 1 - cs.length = n + 1 - 1 - (cs.length + 1) := by omega
    simp only [strncpyLoop, hc, if_neg hc0]
    rw [ih, place_cons hlen, List.cons_append, List.take_succ_cons, List.length_cons,
      Nat.succ_min_succ, hnext, hleft]
    simp only [Nat.add_lt_add_iff_right]

theorem safestrcpyLoop_eq : ∀ (n : ℕ) (m : Memory) (dst src : U64),
    safestrcpyLoop n m dst src = ((strncpyLoop n m dst src).1, (strncpyLoop n m dst src).2.1)
  | 0, _, _, _ => rfl
  | n + 1, m, dst, src => by
    simp only [safestrcpyLoop, strncpyLoop]
    split_ifs
    · rfl
    · exact safestrcpyLoop_eq n _ _ _

section strings

variable (s : CString 8) {dst src k : U64} (hs : BytesAt m src s.object)
  (hap : Apart dst k.toNat src (s.chars.length + 1))

include hs hap

/-- A string that ends within `n` is copied and padded. For a longer one the count of the padding
loop starts below zero, and all of memory is cleared but the last byte that was copied. -/
theorem strncpy_copies : strncpy m dst src k =
    (if s.chars.length < k.toNat then
      place m dst (s.chars ++ List.replicate (k.toNat - s.chars.length) 0#8)
    else fun x => if x = dst + k - 1 then place m dst (s.chars.take k.toNat) x else 0#8, dst) := by
  have hk := k.isLt
  simp only [strncpy]
  rw [strncpyLoop_eq s.chars _ _ _ _ s.nonzero hs hap hk]
  refine Prod.ext ?_ rfl
  dsimp only
  split_ifs with h
  · have hmin : min k.toNat (s.chars.length + 1) = (s.chars ++ [0#8]).length := by
      rw [List.length_append, List.length_singleton]
      omega
    have hleft : (BitVec.ofNat 64 (k.toNat - 1 - s.chars.length)).toNat =
        k.toNat - (s.chars.length + 1) := by
      rw [BitVec.toNat_ofNat]
      omega
    have hpad : s.chars ++ List.replicate (k.toNat - s.chars.length) 0#8 =
        s.chars ++ [0#8] ++ List.replicate (k.toNat - (s.chars.length + 1)) 0#8 := by
      have hsucc : k.toNat - s.chars.length = k.toNat - (s.chars.length + 1) + 1 := by omega
      rw [hsucc, List.replicate_succ, List.append_assoc]
      rfl
    have htake : (s.chars ++ [0#8]).take k.toNat = s.chars ++ [0#8] :=
      List.take_of_length_le (by simp; omega)
    rw [hmin, hleft, htake, padLoop_fills _ _ _ (by omega), fill_eq_place, hpad]
    exact place_append (by simp; omega)
  · have hmin : min k.toNat (s.chars.length + 1) = k.toNat := by omega
    have htake : (s.chars ++ [0#8]).take k.toNat = s.chars.take k.toNat :=
      List.take_append_of_le_length (by omega)
    have hall : (-1 : U64).toNat = 2 ^ 64 - 1 := rfl
    rw [hmin, htake, padLoop_fills _ _ _ (by omega), BitVec.ofNat_toNat, BitVec.setWidth_eq, hall]
    funext x
    rw [fill, blit_apply]
    have hx : x = dst + k - 1 ↔ ¬ (x - (dst + k)).toNat < 2 ^ 64 - 1 := by
      bv_omega
    simp only [hx]
    split_ifs <;> rfl

/-- The copy ends in a terminator, and no byte outside of the buffer changes. -/
theorem safestrcpy_terminates (hk : k ≠ 0) :
    ∃ t : CString 8, t.chars = s.chars.take (k.toNat - 1) ∧
      BytesAt (safestrcpy m dst src k).1 dst t.object ∧
      ∀ x, k.toNat ≤ (x - dst).toNat → (safestrcpy m dst src k).1 x = m x := by
  have hlt := k.isLt
  have hpos : 0 < k.toNat := Nat.pos_of_ne_zero fun h => hk (BitVec.eq_of_toNat_eq h)
  have hap' : Apart dst (k.toNat - 1) src (s.chars.length + 1) :=
    fun j hj => (Nat.sub_le _ _).trans (hap j hj)
  have hcopy : (safestrcpy m dst src k).1 = Function.update
      (place m dst ((s.chars ++ [0#8]).take (k.toNat - 1)))
      (dst + BitVec.ofNat 64 (min (k.toNat - 1) (s.chars.length + 1))) 0 := by
    simp only [safestrcpy, if_neg hk]
    rw [safestrcpyLoop_eq, strncpyLoop_eq s.chars _ _ _ _ s.nonzero hs hap' (by omega)]
  have hlen : ((s.chars ++ [0#8]).take (k.toNat - 1)).length =
      min (k.toNat - 1) (s.chars.length + 1) := by simp
  rw [hcopy, ← hlen, place_singleton, place_append (by simp; omega)]
  refine ⟨⟨s.chars.take (k.toNat - 1), fun c hc => s.nonzero c (List.mem_of_mem_take hc), ?_⟩, rfl,
    ?_, fun x hx => place_of_le (le_trans (by simp; omega) hx)⟩
  · have := s.fits
    rw [List.length_take]
    omega
  · have hall : BytesAt (place m dst ((s.chars ++ [0#8]).take (k.toNat - 1) ++ [0#8])) dst
        ((s.chars ++ [0#8]).take (k.toNat - 1) ++ [0#8]) := bytesAt_place (by simp; omega)
    change BytesAt _ dst (s.chars.take (k.toNat - 1) ++ [0#8])
    rcases Nat.lt_or_ge s.chars.length (k.toNat - 1) with hlong | hshort
    · rw [List.take_of_length_le (by simp; omega)] at hall ⊢
      rw [List.take_of_length_le (by omega)]
      exact (bytesAt_append.1 hall).1
    · rwa [List.take_append_of_le_length hshort] at hall ⊢

end strings

/-- "ab" at `0x1000`, among sevens. -/
def ab : CString 8 := ⟨[97, 98], by decide, by decide⟩

def abMemory : Memory := place (fun _ => 7) 0x1000 ab.object

/-- Two bytes are too few for "ab". -/
theorem strncpy_copies_ab : (strncpy abMemory 0x2000 0x1000 2).1 0x5000 = 0 := by
  have hab : BytesAt abMemory 0x1000 ab.object := bytesAt_place (by decide)
  rw [strncpy_copies ab hab (by decide)]
  rfl

theorem safestrcpy_terminates_ab : ∃ t : CString 8, t.chars = [97] ∧
    BytesAt (safestrcpy abMemory 0x2000 0x1000 2).1 0x2000 t.object := by
  have hab : BytesAt abMemory 0x1000 ab.object := bytesAt_place (by decide)
  have hap : Apart (0x2000 : U64) (2 : U64).toNat 0x1000 (ab.chars.length + 1) := by decide
  obtain ⟨t, ht, hbytes, -⟩ := safestrcpy_terminates ab hab hap (by decide)
  exact ⟨t, ht, hbytes⟩

/-! ## Comparing -/

theorem memcmp_orders : ∀ (n : ℕ) (p q : List (BitVec 8)) (r : ℤ), memcmp n p q = some r →
    Orders r (p.take n) (q.take n)
  | 0, p, q, r, h => by
    obtain rfl : (0 : ℤ) = r := by simpa [memcmp] using h
    simp [Orders]
  | n + 1, [], q, r, h => by simp [memcmp] at h
  | n + 1, c :: p, [], r, h => by simp [memcmp] at h
  | n + 1, c :: p, d :: q, r, h => by
    rw [memcmp] at h
    rw [List.take_succ_cons, List.take_succ_cons]
    split_ifs at h with hcd
    · cases h
      exact orders_ne hcd _ _
    · rw [ne_eq, not_not] at hcd
      subst hcd
      exact orders_cons (memcmp_orders n p q r h)

/-- It is stuck only where one object ends while they are still equal. -/
theorem memcmp_none : ∀ (n : ℕ) (p q : List (BitVec 8)), memcmp n p q = none ↔
    ∃ k < n, p.take k = q.take k ∧ (p.length = k ∨ q.length = k)
  | 0, p, q => by simp [memcmp]
  | n + 1, [], q => by
    simp only [memcmp, true_iff]
    exact ⟨0, Nat.succ_pos n, by simp⟩
  | n + 1, c :: p, [] => by
    simp only [memcmp, true_iff]
    exact ⟨0, Nat.succ_pos n, by simp⟩
  | n + 1, c :: p, d :: q => by
    have ih := memcmp_none n p q
    rw [memcmp]
    split_ifs with hcd
    · simp only [false_iff]
      rintro ⟨k, -, htake, hk⟩
      rcases k with _ | k
      · simp at hk
      · rw [List.take_succ_cons, List.take_succ_cons, List.cons.injEq] at htake
        exact hcd htake.1
    · rw [ne_eq, not_not] at hcd
      subst hcd
      rw [ih]
      constructor
      · rintro ⟨k, hk, htake, hend⟩
        exact ⟨k + 1, by omega, by simpa using htake, by simpa using hend⟩
      · rintro ⟨_ | k, hk, htake, hend⟩
        · simp at hend
        · exact ⟨k, by omega, by simpa using htake, by simpa using hend⟩

/-- Both objects are read only up to their first difference. -/
theorem memcmp_compares (n : ℕ) (p q : List (BitVec 8)) :
    (∀ r, memcmp n p q = some r → Orders r (p.take n) (q.take n)) ∧
      (memcmp n p q = none ↔ ∃ k < n, p.take k = q.take k ∧ (p.length = k ∨ q.length = k)) :=
  ⟨fun r => memcmp_orders n p q r, memcmp_none n p q⟩

end MemString

end SctOs
