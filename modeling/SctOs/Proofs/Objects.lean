import SctOs.Objects
import SctOs.Proofs.Bytes

/-!
# Objects in a byte memory

Holding a list is holding its parts one after the other (`bytesAt_append`), and a copy holds what its
source does (`Lays.copy`).
-/

namespace Bytes

variable {w : ℕ} {m m' : Mem w} {a b : BitVec w} {xs ys bs : List (BitVec 8)} {n : ℕ}

theorem bytesAt_nil : BytesAt m a [] := by
  intro i hi
  simp at hi

theorem bytesAt_append :
    BytesAt m a (xs ++ ys) ↔ BytesAt m a xs ∧ BytesAt m (a + BitVec.ofNat w xs.length) ys := by
  constructor
  · intro h
    constructor
    · intro i hi
      have := h i (by simp; omega)
      rwa [List.getElem_append_left hi] at this
    · intro i hi
      have := h (xs.length + i) (by simp; omega)
      rw [List.getElem_append_right (Nat.le_add_right _ _)] at this
      rw [BitVec.add_assoc, ← BitVec.ofNat_add, this]
      simp
  · rintro ⟨h1, h2⟩ i hi
    rcases Nat.lt_or_ge i xs.length with hlt | hge
    · rw [List.getElem_append_left hlt, h1 i hlt]
    · have := h2 (i - xs.length) (by simp at hi; omega)
      rw [List.getElem_append_right hge, ← this, BitVec.add_assoc, ← BitVec.ofNat_add]
      congr 3
      omega

theorem BytesAt.congr (h : BytesAt m a bs) (hs : SameAt m m' a bs.length) : BytesAt m' a bs :=
  fun i hi => (hs i hi).symm.trans (h i hi)

theorem bytesAt_place (hw : bs.length ≤ 2 ^ w) : BytesAt (place m a bs) a bs := by
  intro i hi
  rw [place, blit_at hi (by omega)]
  simp [hi]

theorem place_of_le {x : BitVec w} (h : bs.length ≤ (x - a).toNat) : place m a bs x = m x :=
  blit_of_le h

theorem sameAt_place (h : Apart a bs.length b n) : SameAt (place m a bs) m b n :=
  fun i hi => blit_of_le (h i hi)

theorem bytesAt_readLE {k v : ℕ} (h : BytesAt m a (bytesLE k v)) :
    readLE m a k = v % 256 ^ k := by
  refine readLE_of_bytes fun i hi => ?_
  have hlen : i < (bytesLE k v).length := by simpa [bytesLE] using hi
  simpa [bytesLE, byteOf] using h i hlen

/-! ## One object after another -/

section Lays

variable {ps : List (Patch w)}

theorem Lays.sum_length (h : Lays a ps bs) : (ps.map Patch.length).sum = bs.length := by
  induction h with
  | nil a => rfl
  | cons start length byte rest ih =>
    rw [List.map_cons, List.sum_cons, ih, length, List.length_append]

theorem Lays.mem_iff {x : BitVec w} (h : Lays a ps bs) (hw : bs.length ≤ 2 ^ w) :
    (∃ p ∈ ps, p.Mem x) ↔ (x - a).toNat < bs.length := by
  induction h with
  | nil a => simp
  | @cons a p ps xs ys start length byte rest ih =>
    rw [List.length_append] at hw ⊢
    have hp : p.Mem x ↔ (x - a).toNat < xs.length := by rw [Patch.Mem, start, length]
    rw [List.exists_mem_cons_iff, hp, ih (by omega)]
    rcases Nat.lt_or_ge (x - a).toNat xs.length with hlt | hge
    · exact ⟨fun _ => by omega, fun _ => .inl hlt⟩
    · rw [sub_offset hge]
      omega

theorem Lays.frame {x : BitVec w} (h : Lays a ps bs) (hw : bs.length ≤ 2 ^ w)
    (hx : bs.length ≤ (x - a).toNat) : patchAll m ps x = m x :=
  patchAll_frame fun p hp hm => absurd ((h.mem_iff hw).1 ⟨p, hp, hm⟩) (by omega)

theorem Lays.holds (h : Lays a ps bs) (hw : bs.length ≤ 2 ^ w) : BytesAt (patchAll m ps) a bs := by
  induction h generalizing m with
  | nil a => exact bytesAt_nil
  | @cons a p ps xs ys start length byte rest ih =>
    rw [List.length_append] at hw
    refine bytesAt_append.2 ⟨fun i hi => ?_, ih (by omega)⟩
    have hapart := offset_outside (a := a) (i := xs.length) (n := ys.length) (.inl hi) hw (by omega)
    rw [patchAll, List.foldl_cons, ← patchAll, rest.frame (by omega) hapart, start, length,
      blit_at hi (by omega), byte i hi]

theorem Lays.copy {src : BitVec w} (h : BytesAt m src xs) (hn : xs.length = n)
    (rest : Lays (a + BitVec.ofNat w n) ps ys) :
    Lays a (Bytes.copy m a src n :: ps) (xs ++ ys) := by
  subst hn
  exact .cons rfl rfl h rest

theorem Lays.list (hn : xs.length = n) (rest : Lays (a + BitVec.ofNat w n) ps ys) :
    Lays a (⟨a, n, fun i => xs.getD i 0⟩ :: ps) (xs ++ ys) := by
  subst hn
  exact .cons rfl rfl (fun i hi => by simp [hi]) rest

/-- An object apart from a buffer is not changed by what is laid in the buffer. -/
theorem BytesAt.lays {k : ℕ} (hb : BytesAt m b bs) (hk : bs.length = k) (hapart : Apart a n b k)
    (h : Lays a ps xs) (hn : xs.length ≤ n) (hw : n ≤ 2 ^ w) : BytesAt (patchAll m ps) b bs :=
  hb.congr fun i hi => (h.frame (by omega) (hn.trans (hapart i (by omega)))).symm

end Lays

end Bytes
