import SctOs.CStrings
import SctOs.Objects
import SctOs.Pages

/-!
# Filling and copying

The functions of `lib/string.c` that write memory, and `memcmp`. A loop that counts `n` down takes
what is left of it.
-/

namespace SctOs

namespace MemString

open Bytes

/-! ## Filling -/

/-- `rep stos` with elements of `k` bytes. -/
def repStos (k : ℕ) (data : BitVec 32) : ℕ → Memory → U64 → Memory
  | 0, m, _ => m
  | cnt + 1, m, addr =>
    repStos k data cnt (writeLE m addr k data.toNat) (addr + BitVec.ofNat 64 k)

def stosb (m : Memory) (addr : U64) (data : BitVec 32) (cnt : U64) : Memory :=
  repStos 1 data cnt.toNat m addr

def stosl (m : Memory) (addr : U64) (data : BitVec 32) (cnt : U64) : Memory :=
  repStos 4 data cnt.toNat m addr

def memset (m : Memory) (dst : U64) (c : BitVec 32) (n : U64) : Memory × U64 :=
  if dst % 4 = 0 ∧ n % 4 = 0 then
    let c := c &&& 0xFF
    (stosl m dst ((c <<< 24) ||| (c <<< 16) ||| (c <<< 8) ||| c) (n / 4), dst)
  else (stosb m dst c n, dst)

/-! ## Copying -/

/-- `while (n-- > 0) *d++ = *s++`. -/
def copyUp : ℕ → Memory → U64 → U64 → Memory
  | 0, m, _, _ => m
  | n + 1, m, d, s => copyUp n (Function.update m d (m s)) (d + 1) (s + 1)

/-- `while (n-- > 0) *--d = *--s`. -/
def copyDown : ℕ → Memory → U64 → U64 → Memory
  | 0, m, _, _ => m
  | n + 1, m, d, s => copyDown n (Function.update m (d - 1) (m (s - 1))) (d - 1) (s - 1)

def memmove (m : Memory) (dst src n : U64) : Memory × U64 :=
  if src < dst ∧ dst < src + n then (copyDown n.toNat m (dst + n) (src + n), dst)
  else (copyUp n.toNat m dst src, dst)

/-! ## Strings -/

/-- `while (n-- > 0 && (*dst++ = *src++) != 0)`, with `dst` and `n` when it ends. The last `n--`
of a loop that runs out is of zero. -/
def strncpyLoop : ℕ → Memory → U64 → U64 → Memory × U64 × U64
  | 0, m, dst, _ => (m, dst, 0 - 1)
  | n + 1, m, dst, src =>
    let c := m src
    let m := Function.update m dst c
    if c = 0 then (m, dst + 1, BitVec.ofNat 64 n) else strncpyLoop n m (dst + 1) (src + 1)

/-- `while (n-- > 0) *dst++ = 0`. -/
def padLoop : ℕ → Memory → U64 → Memory
  | 0, m, _ => m
  | n + 1, m, dst => padLoop n (Function.update m dst 0) (dst + 1)

def strncpy (m : Memory) (dst src n : U64) : Memory × U64 :=
  let os := dst
  let (m, dst, n) := strncpyLoop n.toNat m dst src
  (padLoop n.toNat m dst, os)

/-- `while (--n > 0 && (*dst++ = *src++) != 0)`, with `dst` when it ends. -/
def safestrcpyLoop : ℕ → Memory → U64 → U64 → Memory × U64
  | 0, m, dst, _ => (m, dst)
  | n + 1, m, dst, src =>
    let c := m src
    let m := Function.update m dst c
    if c = 0 then (m, dst + 1) else safestrcpyLoop n m (dst + 1) (src + 1)

/-- Like `strncpy` but guaranteed to NUL-terminate. -/
def safestrcpy (m : Memory) (dst src n : U64) : Memory × U64 :=
  let os := dst
  if n = 0 then (m, os) else
    let (m, dst) := safestrcpyLoop (n.toNat - 1) m dst src
    (Function.update m dst 0, os)

/-! ## Comparing -/

/-- The objects end with the lists, and reading past an end is stuck. -/
def memcmp : ℕ → List (BitVec 8) → List (BitVec 8) → Option ℤ
  | 0, _, _ => some 0
  | n + 1, c :: s1, d :: s2 => if c ≠ d then some ((c.toNat : ℤ) - d.toNat) else memcmp n s1 s2
  | _ + 1, _, _ => none

end MemString

end SctOs
