import SctOs.Objects
import SctOs.Pages

/-!
# Appending device paths

`AppendPath` and `get_devp_size` of `efi/efi-wrapper.c`. `AllocatePool` is gnu-efi's. A call that
leaves the loader gives nothing, and so does a loop that runs out of rounds.
-/

namespace SctOs

namespace EfiWrapper

open Bytes

/-- A node of a device path: its type and subtype, its length, and what it is about. -/
structure DevpNode where
  type : BitVec 8
  subType : BitVec 8
  data : List (BitVec 8)
  not_end : type ≠ 0x7f
  fits : 4 + data.length < 2 ^ 16

def DevpNode.length (node : DevpNode) : ℕ := 4 + node.data.length

def DevpNode.bytes (node : DevpNode) : List (BitVec 8) :=
  [node.type, node.subType, byteOf node.length 0, byteOf node.length 1] ++ node.data

def pathBytes (nodes : List DevpNode) : List (BitVec 8) := nodes.flatMap DevpNode.bytes

def pathLength (nodes : List DevpNode) : ℕ := (nodes.map DevpNode.length).sum

def endOfDevicePath : List (BitVec 8) := [0x7f, 0xff, 4, 0]

/-- A valid device path: its nodes, and a node of the type that ends it. -/
structure PathAt (m : Memory) (devp : U64) (nodes : List DevpNode) : Prop where
  holds : BytesAt m devp (pathBytes nodes)
  last : m (devp + BitVec.ofNat 64 (pathLength nodes)) = 0x7f

/-- `EFI_DEVICE_PATH_LENGTH(*Devp)`. -/
def efiDevicePathLength (m : Memory) (devp : U64) : BitVec 16 :=
  (((m (devp + 3)).setWidth 32 <<< 8) ||| (m (devp + 2)).setWidth 32).setWidth 16

/-- The size of the device path from `devp` on, not including end-of-device-path, after `size`
bytes of it. -/
def getDevpSizeFrom (m : Memory) : ℕ → U64 → BitVec 16 → Option (BitVec 16)
  | 0, _, _ => none
  | rounds + 1, devp, size =>
    if m devp ≠ 0x7f then
      let length := efiDevicePathLength m devp
      getDevpSizeFrom m rounds (devp + length.setWidth 64) (size + length)
    else some size

def getDevpSize (m : Memory) (rounds : ℕ) (devp : U64) : Option (BitVec 16) :=
  getDevpSizeFrom m rounds devp 0

/-- The new path, its size, and all that was written. -/
structure Appended where
  newPath : U64
  newSize : BitVec 16
  writes : List (Patch 64)

section AllocatePool

variable (allocatePool : U64 → U64)

/-- Append two device paths, returning a new one. -/
def appendPath (m : Memory) (rounds : ℕ) (devp1 devp2 : U64) : Option Appended := do
  if devp1 = 0 ∨ devp2 = 0 then none
  let p1Size := (← getDevpSize m rounds devp1).setWidth 64
  let p2Size := (← getDevpSize m rounds devp2).setWidth 64
  let newSize := (p1Size + p2Size + 4).setWidth 16
  let newPath := allocatePool (newSize.setWidth 64)
  if newPath = 0 then none
  let copy1 := copy m newPath devp1 p1Size.toNat
  let end1 := newPath + p1Size
  let copy2 := copy (patchAll m [copy1]) end1 devp2 p2Size.toNat
  let end2 := end1 + p2Size
  let last := ⟨end2, 4, fun i => endOfDevicePath.getD i 0⟩
  return ⟨newPath, newSize, [copy1, copy2, last]⟩

/-- The pool gives `n` bytes that no object has. -/
def PoolGives (n : U64) (objects : List (U64 × ℕ)) : Prop :=
  allocatePool n ≠ 0 ∧ ∀ o ∈ objects, Apart (allocatePool n) n.toNat o.1 o.2

instance (n : U64) (objects : List (U64 × ℕ)) : Decidable (PoolGives allocatePool n objects) :=
  inferInstanceAs (Decidable (_ ∧ _))

/-- The buffer that is returned is both paths' nodes and then the end, its size is theirs, and
nothing is written elsewhere. -/
def AppendsPaths (m : Memory) (devp1 devp2 : U64) (nodes1 nodes2 : List DevpNode) : Prop :=
  ∃ rounds out, appendPath allocatePool m rounds devp1 devp2 = some out ∧
    BytesAt (patchAll m out.writes) out.newPath
      (pathBytes nodes1 ++ pathBytes nodes2 ++ [0x7f, 0xff, 4, 0]) ∧
    out.newSize.toNat = pathLength nodes1 + pathLength nodes2 + 4 ∧
    ∀ p ∈ out.writes, ∀ x, p.Mem x → (x - out.newPath).toNat < out.newSize.toNat

end AllocatePool

end EfiWrapper

end SctOs
