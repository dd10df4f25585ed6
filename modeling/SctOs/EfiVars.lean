import SctOs.CStrings

/-!
# Names of EFI variables

`StartsWith` and `VariableIsBootOption` of `efi/efivars.c`. `StrLen` is gnu-efi's.
-/

namespace SctOs

namespace EfiVars

open CString

abbrev Char16 := BitVec 16

/-- A string literal. -/
def literal (s : String) : List Char16 := s.toList.map fun c => BitVec.ofNat 16 c.toNat

/-- `StartsWith` from two pointers on, when `cp` was the last character read of the prefix. -/
def startsWithFrom (cp : Char16) : List Char16 → List Char16 → Option Bool
  | [], _ => none
  | cs :: string, pre =>
    -- the end of the string leaves `cp` as it was
    if cs = 0#16 then some (cp == 0#16)
    else
      match pre with
      | [] => none
      | cp :: pre =>
        if cp = 0#16 then some (cp == 0#16)
        else if cs ≠ cp then some false
        else startsWithFrom cp string pre

/-- Test if `string` starts with `pre`. -/
def startsWith (string pre : List Char16) : Option Bool := startsWithFrom 0 string pre

def inRange (base size x : ℕ) : Bool := base ≤ x && x < base + size

def isHexDigit (c : Char16) : Bool := inRange '0'.toNat 10 c.toNat || inRange 'a'.toNat 6 c.toNat

/-- `a && b`, where `b` is evaluated only when `a` is true. -/
def andThen (a : Option Bool) (b : Option Bool) : Option Bool :=
  a.bind fun a => if a then b else some false

/-- `IS_HEX_DIGIT(Var[i])`. -/
def isHexDigitAt (var : List Char16) (i : ℕ) : Option Bool := var[i]?.map isHexDigit

section VariableIsBootOption

variable (strLen : List Char16 → Option (BitVec 64))

def variableIsBootOption (var : List Char16) : Option Bool :=
  andThen ((strLen var).map (· == 8#64)) <|
  andThen (startsWith var (literal "Boot" ++ [0#16])) <|
  andThen (isHexDigitAt var 4) <|
  andThen (isHexDigitAt var 5) <|
  andThen (isHexDigitAt var 6) (isHexDigitAt var 6)

end VariableIsBootOption

/-! ## What the names are to be -/

/-- `StartsWith` returns whether the one string is a prefix of the other. -/
def StartsWithCorrect (string pre : CString 16) : Prop :=
  startsWith string.object pre.object = some (decide (pre.chars <+: string.chars))

/-- `0` to `9`, `a` to `f`. -/
def LowerHexDigit (c : Char16) : Prop :=
  0x30 ≤ c.toNat ∧ c.toNat ≤ 0x39 ∨ 0x61 ≤ c.toNat ∧ c.toNat ≤ 0x66

instance : DecidablePred LowerHexDigit := fun _ => inferInstanceAs (Decidable (_ ∨ _))

/-- `A` to `F`. -/
def UpperHexDigit (c : Char16) : Prop := 0x41 ≤ c.toNat ∧ c.toNat ≤ 0x46

instance : DecidablePred UpperHexDigit := fun _ => inferInstanceAs (Decidable (_ ∧ _))

def HexDigit (c : Char16) : Prop := LowerHexDigit c ∨ UpperHexDigit c

/-- `Boot` and four hexadecimal digits. -/
def BootName (name : List Char16) : Prop :=
  ∃ a b c d, name = literal "Boot" ++ [a, b, c, d] ∧
    HexDigit a ∧ HexDigit b ∧ HexDigit c ∧ HexDigit d

/-- `StrLen` gives the number of characters before the terminator. -/
def IsStrLen (strLen : List Char16 → Option (BitVec 64)) : Prop :=
  ∀ s : CString 16, strLen s.object = some (BitVec.ofNat 64 s.chars.length)

def BootOptionCorrect (strLen : List Char16 → Option (BitVec 64)) (var : CString 16) : Prop :=
  ∃ r, variableIsBootOption strLen var.object = some r ∧ (r = true ↔ BootName var.chars)

/-- `Boot` and three lower digits before something that is no digit, or `Boot` and four digits with
an upper one among the first three. -/
def Misread (name : List Char16) : Prop :=
  ∃ a b c d, name = literal "Boot" ++ [a, b, c, d] ∧
    (LowerHexDigit a ∧ LowerHexDigit b ∧ LowerHexDigit c ∧ ¬ HexDigit d ∨
      HexDigit a ∧ HexDigit b ∧ HexDigit c ∧ HexDigit d ∧
        (UpperHexDigit a ∨ UpperHexDigit b ∨ UpperHexDigit c))

end EfiVars

end SctOs
