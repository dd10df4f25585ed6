import SctOs.Descriptors
import SctOs.Proofs.BitFields

/-!
# What descriptors decode to

A segment descriptor gives back its limit, its privilege level and its flags, and its base when the
base has no high byte (`decodesBack_iff`). Every gate that `init_idt` writes is its vector's
(`initIdt_gate`).
-/

namespace SctOs

namespace Descriptors

open BitFields

/-! ## Segment descriptors -/

theorem flagMask_eq : flagMask = fieldMask 64 40 5 ||| fieldMask 64 47 1 ||| fieldMask 64 52 4 :=
  rfl

theorem bits_and_flagMask (f : Flag) : f.bits &&& flagMask = f.bits := by
  cases f <;> rfl

theorem flagBits_and_flagMask : ∀ flags : List Flag, flagBits flags &&& flagMask = flagBits flags
  | [] => BitVec.zero_and
  | f :: flags => by
    have ih := flagBits_and_flagMask flags
    unfold flagBits at ih ⊢
    rw [List.foldr_cons, BitVec.and_or_distrib_right, bits_and_flagMask, ih]

theorem getLsbD_flagBits (flags : List Flag) {i : ℕ}
    (h : ¬ (40 ≤ i ∧ i < 45 ∨ i = 47 ∨ 52 ≤ i ∧ i < 56)) : (flagBits flags).getLsbD i = false := by
  rw [← flagBits_and_flagMask, flagMask_eq]
  simp only [BitVec.getLsbD_and, BitVec.getLsbD_or, getLsbD_fieldMask]
  grind

theorem getLsbD_segdescSetBase (b : U64) (i : ℕ) : (segdescSetBase b).getLsbD i =
    (decide (16 ≤ i ∧ i < 40) && b.getLsbD (i - 16)
      || decide (56 ≤ i ∧ i < 64) && b.getLsbD (i - 32)) := by
  rw [segdescSetBase, show 0xff#64 <<< 24 = fieldMask 64 24 8 from rfl,
    show (0xffffff : U64) = fieldMask 64 0 24 from rfl, BitVec.getLsbD_or,
    getLsbD_field_shiftLeft, getLsbD_field_shiftLeft, Bool.or_comm]
  grind

theorem getLsbD_segdescSetLimit (ll : U64) (i : ℕ) : (segdescSetLimit ll).getLsbD i =
    (decide (i < 16) && ll.getLsbD i || decide (48 ≤ i ∧ i < 52) && ll.getLsbD (i - 32)) := by
  rw [segdescSetLimit, show 0xf#64 <<< 16 = fieldMask 64 16 4 from rfl,
    show (0xffff : U64) = fieldMask 64 0 16 from rfl, BitVec.getLsbD_or,
    getLsbD_field_shiftLeft, getLsbD_and_fieldMask, Bool.or_comm]
  grind

theorem getLsbD_segdescSetDpl (dpl : U64) (i : ℕ) : (segdescSetDpl dpl).getLsbD i =
    (decide (45 ≤ i ∧ i < 47) && dpl.getLsbD (i - 45)) := by
  rw [segdescSetDpl, show (0x3 : U64) = fieldMask 64 0 2 from rfl, getLsbD_field_shiftLeft]
  grind

theorem getLsbD_segdescGetLimit (d : U64) (i : ℕ) : (segdescGetLimit d).getLsbD i =
    (decide (i < 16) && d.getLsbD i || decide (16 ≤ i ∧ i < 20) && d.getLsbD (i + 32)) := by
  rw [segdescGetLimit, show 0xf#64 <<< 48 = fieldMask 64 48 4 from rfl,
    show (0xffff : U64) = fieldMask 64 0 16 from rfl, BitVec.getLsbD_setWidth, BitVec.getLsbD_or,
    getLsbD_field_ushiftRight, getLsbD_and_fieldMask, Bool.or_comm]
  grind

/-- The high byte of the base comes down to bits 32 to 39. -/
theorem getLsbD_segdescGetBase (d : U64) (i : ℕ) : (segdescGetBase d).getLsbD i =
    (decide (i < 24) && d.getLsbD (i + 16) || decide (32 ≤ i ∧ i < 40) && d.getLsbD (i + 24)) := by
  rw [segdescGetBase, show 0xff#64 <<< 56 = fieldMask 64 56 8 from rfl,
    show 0xffffff#64 <<< 16 = fieldMask 64 16 24 from rfl, BitVec.getLsbD_or,
    getLsbD_field_ushiftRight, getLsbD_field_ushiftRight, Bool.or_comm]
  grind

theorem getLsbD_segdescGetDpl (d : U64) (i : ℕ) : (segdescGetDpl d).getLsbD i =
    (decide (i < 2) && d.getLsbD (i + 45)) := by
  rw [segdescGetDpl, show 0x3#64 <<< 45 = fieldMask 64 45 2 from rfl, getLsbD_field_ushiftRight]
  grind

/-- Every field of a descriptor is where no other one is. -/
theorem getLsbD_descriptor (base limit dpl : U64) (flags : List Flag) (i : ℕ) :
    (descriptor base limit dpl flags).getLsbD i =
      if i < 16 then limit.getLsbD i
      else if i < 40 then base.getLsbD (i - 16)
      else if 45 ≤ i ∧ i < 47 then dpl.getLsbD (i - 45)
      else if 48 ≤ i ∧ i < 52 then limit.getLsbD (i - 32)
      else if 56 ≤ i ∧ i < 64 then base.getLsbD (i - 32)
      else (flagBits flags).getLsbD i := by
  have hf := getLsbD_flagBits flags (i := i)
  rw [descriptor, BitVec.getLsbD_or, BitVec.getLsbD_or, BitVec.getLsbD_or, getLsbD_segdescSetBase,
    getLsbD_segdescSetLimit, getLsbD_segdescSetDpl]
  grind

section Decode

variable (base : BitVec 32) (limit : BitVec 20) (dpl : BitVec 2) (flags : List Flag)

theorem limit_decodes (base dpl : U64) :
    segdescGetLimit (descriptor base (limit.setWidth 64) dpl flags) = limit.setWidth 32 := by
  apply BitVec.eq_of_getLsbD_eq
  intro i hi
  have hl : ¬ i < 20 → limit.getLsbD i = false := fun h => BitVec.getLsbD_of_ge _ _ (by omega)
  rw [getLsbD_segdescGetLimit, getLsbD_descriptor, getLsbD_descriptor, BitVec.getLsbD_setWidth,
    BitVec.getLsbD_setWidth, BitVec.getLsbD_setWidth]
  grind

theorem dpl_decodes (base limit : U64) :
    segdescGetDpl (descriptor base limit (dpl.setWidth 64) flags) = dpl.setWidth 64 := by
  apply BitVec.eq_of_getLsbD_eq
  intro i hi
  have hl : ¬ i < 2 → dpl.getLsbD i = false := fun h => BitVec.getLsbD_of_ge _ _ (by omega)
  rw [getLsbD_segdescGetDpl, getLsbD_descriptor, BitVec.getLsbD_setWidth, BitVec.getLsbD_setWidth]
  grind

theorem flags_decode (base limit dpl : U64) :
    descriptor base limit dpl flags &&& flagMask = flagBits flags := by
  apply BitVec.eq_of_getLsbD_eq
  intro i hi
  have hf := getLsbD_flagBits flags (i := i)
  rw [flagMask_eq, BitVec.getLsbD_and, getLsbD_descriptor, BitVec.getLsbD_or, BitVec.getLsbD_or,
    getLsbD_fieldMask, getLsbD_fieldMask, getLsbD_fieldMask]
  grind

/-- The base that is read: its high byte has moved up by a byte. -/
theorem getLsbD_base_descriptor (limit dpl : U64) (i : ℕ) :
    (segdescGetBase (descriptor (base.setWidth 64) limit dpl flags)).getLsbD i =
      (decide (i < 24) && base.getLsbD i || decide (32 ≤ i ∧ i < 40) && base.getLsbD (i - 8)) := by
  rw [getLsbD_segdescGetBase, getLsbD_descriptor, getLsbD_descriptor, BitVec.getLsbD_setWidth,
    BitVec.getLsbD_setWidth]
  grind

theorem base_decodes_iff (limit dpl : U64) :
    segdescGetBase (descriptor (base.setWidth 64) limit dpl flags) = base.setWidth 64 ↔
      base.toNat < 2 ^ 24 := by
  constructor
  · intro h
    refine Nat.lt_pow_two_of_testBit _ fun i hi => ?_
    have hbit := congrArg (fun d => d.getLsbD i) h
    rw [getLsbD_base_descriptor, BitVec.getLsbD_setWidth] at hbit
    show base.getLsbD i = false
    grind
  · intro h
    have hb : ∀ i, 24 ≤ i → base.getLsbD i = false := fun i hi =>
      Nat.testBit_lt_two_pow (h.trans_le (Nat.pow_le_pow_right (by omega) hi))
    apply BitVec.eq_of_getLsbD_eq
    intro i hi
    have h1 := hb i
    have h2 := hb (i - 8)
    rw [getLsbD_base_descriptor, BitVec.getLsbD_setWidth]
    grind

theorem decodesBack_iff : DecodesBack base limit dpl flags ↔ base.toNat < 2 ^ 24 := by
  have hbase := base_decodes_iff base flags (limit.setWidth 64) (dpl.setWidth 64)
  constructor
  · intro h
    exact hbase.1 h.1
  · intro h
    exact ⟨hbase.2 h, limit_decodes .., dpl_decodes .., flags_decode ..⟩

theorem decodesBack_false : ¬ ∀ (base : BitVec 32) (limit : BitVec 20) (dpl : BitVec 2)
    (flags : List Flag), DecodesBack base limit dpl flags := by
  intro h
  have hbase := (base_decodes_iff 0x1000000 [] _ _).1 (h 0x1000000 0 0 []).1
  exact absurd hbase (by decide)

end Decode

/-! ## Gates -/

theorem initIdtFrom_getElem (vectorTable : VectorTable) (i : ℕ) (idt : Idt) {j : ℕ}
    (hj : j < Interrupts.nInterrupts) : (initIdtFrom vectorTable i idt)[j] =
      if i ≤ j then initIdtEntry vectorTable[j] idt[j] else idt[j] := by
  fun_induction initIdtFrom vectorTable i idt with
  | case1 i idt h ih =>
    rw [ih, Vector.getElem_set]
    by_cases hij : i = j
    · subst hij
      simp
    · have hle : i + 1 ≤ j ↔ i ≤ j := by omega
      simp only [hij, hle, if_false]
  | case2 i idt h =>
    rw [if_neg (by omega)]

/-- The fields other than the offset. -/
def gateBits : U64 := 0x8e0000080000

theorem initIdtEntry_word0 (vector : U64) (ent : IdtEntry) : (initIdtEntry vector ent).word0 =
    ((vector &&& fieldMask 64 16 16) <<< 32) ||| (vector &&& fieldMask 64 0 16) ||| gateBits := by
  rw [show gateBits = ofInt (codeSegmentSelector.setWidth 32 <<< 16)
    ||| (Flag.segdescP.bits ||| segdescSetDpl 0 ||| Flag.sdtIntr.bits) from rfl, ← BitVec.or_assoc]
  rfl

theorem initIdtEntry_word1 (vector : U64) (ent : IdtEntry) :
    (initIdtEntry vector ent).word1 = (vector &&& fieldMask 64 32 32) >>> 32 := rfl

theorem getLsbD_gateBits {i : ℕ} (h : i < 16 ∨ 48 ≤ i) : gateBits.getLsbD i = false := by
  have hg : gateBits = gateBits &&& fieldMask 64 16 32 := rfl
  rw [hg, getLsbD_and_fieldMask]
  grind

/-- The low word between the two parts of the offset. -/
theorem getLsbD_initIdtEntry_word0 (vector : U64) (ent : IdtEntry) (i : ℕ) :
    (initIdtEntry vector ent).word0.getLsbD i =
      if i < 16 then vector.getLsbD i
      else if 48 ≤ i ∧ i < 64 then vector.getLsbD (i - 32)
      else gateBits.getLsbD i := by
  have hg := getLsbD_gateBits (i := i)
  rw [initIdtEntry_word0, BitVec.getLsbD_or, BitVec.getLsbD_or, getLsbD_field_shiftLeft,
    getLsbD_and_fieldMask]
  grind

theorem getLsbD_initIdtEntry_word1 (vector : U64) (ent : IdtEntry) (i : ℕ) :
    (initIdtEntry vector ent).word1.getLsbD i = (decide (i < 32) && vector.getLsbD (i + 32)) := by
  rw [initIdtEntry_word1, getLsbD_field_ushiftRight]
  grind

theorem initIdtEntry_offset (vector : U64) (ent : IdtEntry) :
    (initIdtEntry vector ent).gate.offset = vector := by
  apply BitVec.eq_of_getLsbD_eq
  intro i hi
  simp only [IdtEntry.gate, BitVec.getLsbD_append, BitVec.getLsbD_extractLsb',
    getLsbD_initIdtEntry_word0, getLsbD_initIdtEntry_word1]
  grind

theorem extract_initIdtEntry_word0 (vector : U64) (ent : IdtEntry) {start len : ℕ}
    (h : 16 ≤ start ∧ start + len ≤ 48) :
    (initIdtEntry vector ent).word0.extractLsb' start len = gateBits.extractLsb' start len := by
  apply BitVec.eq_of_getLsbD_eq
  intro i hi
  rw [BitVec.getLsbD_extractLsb', BitVec.getLsbD_extractLsb', getLsbD_initIdtEntry_word0]
  grind

theorem extract_initIdtEntry_word1 (vector : U64) (ent : IdtEntry) :
    (initIdtEntry vector ent).word1.extractLsb' 32 32 = 0 := by
  apply BitVec.eq_of_getLsbD_eq
  intro i hi
  rw [BitVec.getLsbD_extractLsb', getLsbD_initIdtEntry_word1]
  simp

theorem initIdtEntry_gate (vector : U64) (ent : IdtEntry) : (initIdtEntry vector ent).gate =
    ⟨vector, 8, 0, 14, 0, true, (0, false, 0)⟩ := by
  have ho := initIdtEntry_offset vector ent
  dsimp only [IdtEntry.gate] at ho ⊢
  rw [ho, extract_initIdtEntry_word1, extract_initIdtEntry_word0 _ _ (by decide),
    extract_initIdtEntry_word0 _ _ (by decide), extract_initIdtEntry_word0 _ _ (by decide),
    extract_initIdtEntry_word0 _ _ (by decide), extract_initIdtEntry_word0 _ _ (by decide),
    getLsbD_initIdtEntry_word0, getLsbD_initIdtEntry_word0]
  rfl

/-- Each gate is its vector's: an interrupt gate of the kernel's code segment, present and for
privilege level 0. -/
theorem initIdt_gate (vectorTable : VectorTable) (idt : Idt) (i : Fin Interrupts.nInterrupts) :
    (initIdt vectorTable idt)[i].gate =
      { offset := vectorTable[i], selector := 8, ist := 0, type := 14, dpl := 0, present := true
        reserved := (0, false, 0) } := by
  have hentry := initIdtFrom_getElem vectorTable 0 idt i.isLt
  rw [if_pos (Nat.zero_le _)] at hentry
  rw [initIdt, Fin.getElem_fin, hentry, initIdtEntry_gate]
  rfl

end Descriptors

end SctOs
