import SctOs.EfiVars
import SctOs.Proofs.CStrings

/-!
# Names of EFI variables

When the string ends, `StartsWith` returns whether the character of the prefix that it read last is
the terminator: that of an empty string is taken for it, and that of an equal string is not
(`startsWithCorrect_iff`). `VariableIsBootOption` tests the digit at 6 for the one at 7, and takes
lower digits only (`bootOptionCorrect_iff`).
-/

namespace SctOs

namespace EfiVars

open CString

/-! ## Prefixes -/

theorem startsWithFrom_nonzero : ∀ (cs ps : List Char16) (cp : Char16), (∀ c ∈ cs, c ≠ 0#16) →
    (∀ c ∈ ps, c ≠ 0#16) → cp ≠ 0#16 →
    startsWithFrom cp (cs ++ [0#16]) (ps ++ [0#16]) = some (decide (ps <+: cs ∧ ps ≠ cs))
  | [], ps, cp, _, _, hcp => by
    have hne : ¬ (ps <+: [] ∧ ps ≠ []) := fun h => h.2 (List.prefix_nil.1 h.1)
    simp only [List.nil_append, startsWithFrom, if_true, hne, decide_false, Option.some.injEq,
      beq_eq_false_iff_ne]
    exact hcp
  | c :: cs, [], cp, hc, _, _ => by
    have h0 := hc c List.mem_cons_self
    simp [startsWithFrom, h0]
  | c :: cs, p :: ps, cp, hc, hp, _ => by
    have h0 := hc c List.mem_cons_self
    have h1 := hp p List.mem_cons_self
    rw [List.cons_append, List.cons_append, startsWithFrom, if_neg h0]
    by_cases hcp : c = p
    · subst hcp
      have ih := startsWithFrom_nonzero cs ps c (fun x hx => hc x (List.mem_cons_of_mem c hx))
        (fun x hx => hp x (List.mem_cons_of_mem c hx)) h0
      simp [h0, ih]
    · have hne : ¬ p :: ps <+: c :: cs := fun h => hcp (List.cons_prefix_cons.1 h).1.symm
      simp [h1, hcp, hne]

/-- Only the end of an empty string finds `cp` as it was. -/
theorem startsWith_object (s p : CString 16) : startsWith s.object p.object =
    some (decide (s.chars = [] ∨ p.chars <+: s.chars ∧ p.chars ≠ s.chars)) := by
  rcases hs : s.chars with _ | ⟨c, cs⟩
  · simp [startsWith, object, hs, startsWithFrom]
  · have h0 := s.nonzero c (by simp [hs])
    have hstale : startsWith s.object p.object = startsWithFrom c s.object p.object := by
      simp [startsWith, object, hs, startsWithFrom, h0]
    rw [hstale, object, object, startsWithFrom_nonzero _ _ _ s.nonzero p.nonzero h0, hs]
    simp

/-- Right unless the prefix has characters and the string is empty or the same. -/
theorem startsWithCorrect_iff (s p : CString 16) : StartsWithCorrect s p ↔
    ¬ (p.chars ≠ [] ∧ (s.chars = [] ∨ s.chars = p.chars)) := by
  unfold StartsWithCorrect
  rw [startsWith_object, Option.some.injEq, decide_eq_decide]
  by_cases hs : s.chars = []
  · simp [hs, List.prefix_nil]
  · by_cases he : p.chars = s.chars
    · simp [he, hs]
    · simp [hs, he, Ne.symm he]

theorem startsWithCorrect_false : ¬ ∀ s p : CString 16, StartsWithCorrect s p := by
  intro h
  have hp := h ⟨[0x61], by simp, by simp⟩ ⟨[0x61], by simp, by simp⟩
  unfold StartsWithCorrect at hp
  rw [startsWith_object] at hp
  simp at hp

/-! ## Boot options -/

theorem literal_boot : literal "Boot" = [0x42#16, 0x6f#16, 0x6f#16, 0x74#16] := by decide

def boot : CString 16 := ⟨literal "Boot", by simp [literal_boot], by simp [literal_boot]⟩

theorem startsWith_boot {var : CString 16} (h : var.chars.length = 8) :
    startsWith var.object boot.object = some (decide (literal "Boot" <+: var.chars)) := by
  have hs : var.chars ≠ [] := by
    intro he
    simp [he] at h
  have hp : boot.chars ≠ var.chars := by
    intro he
    simp [← he, boot, literal_boot] at h
  have hboot := startsWith_object var boot
  simp only [hs, hp, false_or, ne_eq, not_false_eq_true, and_true] at hboot
  exact hboot

theorem bootName_digits (a b c d : Char16) : BootName (literal "Boot" ++ [a, b, c, d]) ↔
    HexDigit a ∧ HexDigit b ∧ HexDigit c ∧ HexDigit d := by
  simp [BootName]

theorem misread_digits (a b c d : Char16) : Misread (literal "Boot" ++ [a, b, c, d]) ↔
    LowerHexDigit a ∧ LowerHexDigit b ∧ LowerHexDigit c ∧ ¬ HexDigit d ∨
      HexDigit a ∧ HexDigit b ∧ HexDigit c ∧ HexDigit d ∧
        (UpperHexDigit a ∨ UpperHexDigit b ∨ UpperHexDigit c) := by
  simp [Misread]

theorem isHexDigit_iff {c : Char16} : isHexDigit c = true ↔ LowerHexDigit c := by
  unfold isHexDigit inRange LowerHexDigit
  simp
  omega

theorem upper_not_lower {c : Char16} (h : UpperHexDigit c) : ¬ LowerHexDigit c := by
  unfold UpperHexDigit at h
  unfold LowerHexDigit
  omega

/-- Testing three lower digits is testing four digits unless the name is misread. -/
theorem threeDigits_iff (a b c d : Char16) :
    (isHexDigit a = true ∧ isHexDigit b = true ∧ isHexDigit c = true ↔
      HexDigit a ∧ HexDigit b ∧ HexDigit c ∧ HexDigit d) ↔
    ¬ Misread (literal "Boot" ++ [a, b, c, d]) := by
  have ha := @upper_not_lower a
  have hb := @upper_not_lower b
  have hc := @upper_not_lower c
  rw [misread_digits, isHexDigit_iff, isHexDigit_iff, isHexDigit_iff]
  unfold HexDigit
  grind

section VariableIsBootOption

variable {strLen : List Char16 → Option (BitVec 64)} {var : CString 16}

theorem strLen_eq_8 (hlen : IsStrLen strLen) : (strLen var.object).map (· == 8#64) =
    some (decide (var.chars.length = 8)) := by
  have hfits := var.length_lt (by decide)
  rw [hlen, Option.map_some, Option.some.injEq, beq_eq_decide, decide_eq_decide]
  constructor
  · intro h
    have := congrArg BitVec.toNat h
    rw [BitVec.toNat_ofNat] at this
    simp at this
    omega
  · intro h
    rw [h]

/-- `Boot` and four more characters, of which three are tested. -/
theorem variableIsBootOption_boot (hlen : IsStrLen strLen) {a b c d : Char16}
    (h : var.chars = literal "Boot" ++ [a, b, c, d]) :
    variableIsBootOption strLen var.object =
      some (isHexDigit a && isHexDigit b && isHexDigit c) := by
  have h8 : var.chars.length = 8 := by simp [h, literal_boot]
  have hboot : startsWith var.object (literal "Boot" ++ [0#16]) = some true := by
    rw [show literal "Boot" ++ [0#16] = boot.object from rfl, startsWith_boot h8, h]
    simp
  have hobject : var.object = [0x42, 0x6f, 0x6f, 0x74, a, b, c, d, 0] := by
    rw [object, h, literal_boot]
    rfl
  have hdigit : ∀ i, isHexDigitAt var.object i =
      [0x42, 0x6f, 0x6f, 0x74, a, b, c, d, 0][i]?.map isHexDigit := fun i => by
    rw [isHexDigitAt, hobject]
  unfold variableIsBootOption
  rw [strLen_eq_8 hlen, hboot, hdigit, hdigit, hdigit]
  rcases ha : isHexDigit a <;> rcases hb : isHexDigit b <;> rcases hc : isHexDigit c <;>
    simp [andThen, h8, ha, hb, hc]

theorem variableIsBootOption_other (hlen : IsStrLen strLen)
    (h : ¬ ∃ a b c d, var.chars = literal "Boot" ++ [a, b, c, d]) :
    variableIsBootOption strLen var.object = some false := by
  unfold variableIsBootOption
  rw [strLen_eq_8 hlen]
  by_cases h8 : var.chars.length = 8
  · have hprefix : ¬ literal "Boot" <+: var.chars := by
      rintro ⟨rest, hrest⟩
      have h4 : rest.length = 4 := by
        rw [← hrest, literal_boot] at h8
        simpa using h8
      obtain ⟨a, b, c, d, rfl⟩ : ∃ a b c d, rest = [a, b, c, d] := by
        rcases rest with _ | ⟨a, _ | ⟨b, _ | ⟨c, _ | ⟨d, _ | ⟨e, rest⟩⟩⟩⟩⟩ <;> simp at h4 ⊢
      exact h ⟨a, b, c, d, hrest.symm⟩
    rw [show literal "Boot" ++ [0#16] = boot.object from rfl, startsWith_boot h8]
    simp [andThen, hprefix]
  · simp [andThen, h8]

theorem bootOptionCorrect_iff (hlen : IsStrLen strLen) :
    BootOptionCorrect strLen var ↔ ¬ Misread var.chars := by
  unfold BootOptionCorrect
  by_cases h : ∃ a b c d, var.chars = literal "Boot" ++ [a, b, c, d]
  · obtain ⟨a, b, c, d, h⟩ := h
    rw [variableIsBootOption_boot hlen h, h, ← threeDigits_iff]
    simp only [Option.some.injEq, exists_eq_left', bootName_digits, Bool.and_eq_true, and_assoc]
  · rw [variableIsBootOption_other hlen h]
    constructor
    · rintro - ⟨a, b, c, d, hname, -⟩
      exact h ⟨a, b, c, d, hname⟩
    · intro _
      refine ⟨false, rfl, by simp, ?_⟩
      rintro ⟨a, b, c, d, hname, -⟩
      exact absurd ⟨a, b, c, d, hname⟩ h

theorem isStrLen_lengthFrom : IsStrLen fun s => lengthFrom s 0 := lengthFrom_object

def boot0004 : CString 16 :=
  ⟨literal "Boot" ++ [0x30, 0x30, 0x30, 0x34], by simp [literal_boot], by simp [literal_boot]⟩

theorem bootOptionCorrect_boot0004 : BootOptionCorrect (fun s => lengthFrom s 0) boot0004 := by
  refine (bootOptionCorrect_iff isStrLen_lengthFrom).2 fun h => ?_
  rcases (misread_digits 0x30 0x30 0x30 0x34).1 h with h | h
  · exact absurd h.2.2.2 (not_not.2 (Or.inl (by decide)))
  · exact absurd h.2.2.2.2 (by decide)

/-- `Boot000G`. -/
def boot000G : CString 16 :=
  ⟨literal "Boot" ++ [0x30, 0x30, 0x30, 0x47], by simp [literal_boot], by simp [literal_boot]⟩

theorem bootOptionCorrect_false :
    ¬ ∀ strLen, IsStrLen strLen → ∀ var, BootOptionCorrect strLen var := by
  intro h
  obtain ⟨r, hr, hname⟩ := h _ isStrLen_lengthFrom boot000G
  rw [variableIsBootOption_boot isStrLen_lengthFrom rfl, Option.some.injEq] at hr
  have hdigits := (bootName_digits 0x30 0x30 0x30 0x47).1 (hname.1 (hr ▸ by decide))
  rcases hdigits.2.2.2 with hd | hd
  · exact absurd hd (by decide)
  · exact absurd hd (by decide)

end VariableIsBootOption

end EfiVars

end SctOs
