import SctOs.CStrings

/-!
# String comparison

`strlen`, `strncmp` and `strcmp` of `lib/string.c`.
-/

namespace SctOs

open CString

def strlen (s : List (BitVec 8)) : Option (BitVec 64) := lengthFrom s 0

/-- `p`, `q` and `n` when the loop of `strncmp` ends. -/
def strncmpLoop : List (BitVec 8) → List (BitVec 8) → BitVec 64 →
    Option (List (BitVec 8) × List (BitVec 8) × BitVec 64)
  | [], q, n => if n = 0#64 then some ([], q, n) else none
  | c :: p, q, n =>
    if n = 0#64 then some (c :: p, q, n)
    else if c = 0#8 then some (c :: p, q, n)
    else
      match q with
      | [] => none
      | d :: q => if c = d then strncmpLoop p q (n - 1) else some (c :: p, d :: q, n)

def strncmp (p q : List (BitVec 8)) (n : BitVec 64) : Option ℤ := do
  let (p, q, n) ← strncmpLoop p q n
  if n = 0#64 then return 0
  let c ← deref p
  let d ← deref q
  return (c.toNat : ℤ) - d.toNat

def strcmp (p q : List (BitVec 8)) : Option ℤ := do
  let pLen ← strlen p
  let qLen ← strlen p
  let minLen := if pLen < qLen then pLen else qLen
  strncmp p q (minLen + 1)

end SctOs
