import SctOs.CStrings
import SctOs.EfiWrapper

/-!
# Load options

`make_load_option` of `efi/efi-wrapper.c` writes a boot option, and `print_next_efi_variable` of
`efi/efivars.c` takes it apart. `StrSize` and `AllocatePool` are gnu-efi's.
-/

namespace SctOs

namespace LoadOption

open Bytes EfiWrapper

/-- The packed header of `EFI_LOAD_OPTION`. -/
structure Header where
  attributes : BitVec 32
  filePathListLength : BitVec 16
  deriving DecidableEq, Repr

def Header.bytes (h : Header) : List (BitVec 8) :=
  bytesLE 4 h.attributes.toNat ++ bytesLE 2 h.filePathListLength.toNat

/-- `sizeof(EFI_LOAD_OPTION)`. -/
def headerSize : U64 := 6

/-- The bytes of a string of 16-bit characters, with its terminator. -/
def stringBytes (s : CString 16) : List (BitVec 8) :=
  s.object.flatMap fun c => bytesLE 2 c.toNat

def loadOptionActive : BitVec 32 := 1

/-- The header that `set_boot_variables` gives its boot option. -/
def bootHeader (devpSize : BitVec 16) : Header := ⟨loadOptionActive, devpSize⟩

/-- The buffer, its size, and all that was written. -/
structure Made where
  buf : U64
  loadOptionSize : U64
  writes : List (Patch 64)

/-- What the reader finds in a boot option: pointers into it, and how much is left at its end. -/
structure Parsed where
  attributes : BitVec 32
  description : U64
  filePathList : U64
  optionalData : U64
  optionalDataSize : U64
  deriving DecidableEq, Repr

section Firmware

variable (strSize : Memory → U64 → U64) (allocatePool : U64 → U64)

/-- Create a byte-packed load option. -/
def makeLoadOption (m : Memory) (header description devp : U64) (devpSize : BitVec 16) :
    Option Made :=
  let descriptionSize := strSize m description
  let loadOptionSize := headerSize + descriptionSize + devpSize.setWidth 64
  let buf := allocatePool loadOptionSize
  if buf = 0 then none
  else
    let copy1 := copy m buf header headerSize.toNat
    let end1 := buf + headerSize
    let copy2 := copy (patchAll m [copy1]) end1 description descriptionSize.toNat
    let end2 := end1 + descriptionSize
    let copy3 := copy (patchAll m [copy1, copy2]) end2 devp (devpSize.setWidth 64).toNat
    some ⟨buf, loadOptionSize, [copy1, copy2, copy3]⟩

/-- How `print_next_efi_variable` takes a boot option's data apart. -/
def parseLoadOption (m : Memory) (loadOption dataSize : U64) : Parsed :=
  let description := loadOption + headerSize
  let descriptionSize := strSize m description
  let filePathList := description + descriptionSize
  let filePathListLength := BitVec.ofNat 16 (readLE m (loadOption + 4) 2)
  let optionalData := filePathList + filePathListLength.setWidth 64
  { attributes := BitVec.ofNat 32 (readLE m loadOption 4)
    description, filePathList, optionalData
    optionalDataSize := dataSize - (optionalData - loadOption) }

/-- `StrSize` gives the bytes of the characters and of the terminator. -/
def IsStrSize : Prop :=
  ∀ m a (s : CString 16), BytesAt m a (stringBytes s) →
    strSize m a = BitVec.ofNat 64 (2 * (s.chars.length + 1))

/-- Wherever the bytes are found as they were written, they are taken apart into the header, the
description and the path, and nothing is left. -/
def ReadsBack (m : Memory) (made : Made) (h : Header) (s : CString 16) (path : List (BitVec 8)) :
    Prop :=
  ∀ (m' : Memory) (data : U64),
    (∀ i < made.loadOptionSize.toNat,
      m' (data + BitVec.ofNat 64 i) = patchAll m made.writes (made.buf + BitVec.ofNat 64 i)) →
    let parsed := parseLoadOption strSize m' data made.loadOptionSize
    parsed.attributes = h.attributes ∧ BytesAt m' parsed.description (stringBytes s) ∧
      BytesAt m' parsed.filePathList path ∧
      parsed.optionalData = parsed.filePathList + BitVec.ofNat 64 path.length ∧
      parsed.optionalDataSize = 0

/-- The size is the number of bytes written, and these are the buffer's. -/
def Made.Written (made : Made) : Prop :=
  made.loadOptionSize.toNat = (made.writes.map Patch.length).sum ∧
    ∀ x, (∃ p ∈ made.writes, p.Mem x) ↔ (x - made.buf).toNat < made.loadOptionSize.toNat

end Firmware

end LoadOption

end SctOs
