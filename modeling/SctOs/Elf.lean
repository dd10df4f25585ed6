import SctOs.Pages

/-!
# ELF headers

The structures and constants of `elf.h` that the loader, the kernel and `readelf` use.
-/

namespace SctOs

open Bytes

abbrev Elf64Half := BitVec 16

abbrev Elf64Word := BitVec 32

/-- The ELF header. -/
structure Elf64Ehdr where
  eIdent : List (BitVec 8)
  eType : Elf64Half
  eMachine : Elf64Half
  eVersion : Elf64Word
  eEntry : U64
  ePhoff : U64
  eShoff : U64
  eFlags : Elf64Word
  eEhsize : Elf64Half
  ePhentsize : Elf64Half
  ePhnum : Elf64Half
  eShentsize : Elf64Half
  eShnum : Elf64Half
  eShstrndx : Elf64Half
  deriving DecidableEq, Repr

/-- A program header. -/
structure Elf64Phdr where
  pType : Elf64Word
  pFlags : Elf64Word
  pOffset : U64
  pVaddr : U64
  pPaddr : U64
  pFilesz : U64
  pMemsz : U64
  pAlign : U64
  deriving DecidableEq, Repr

/-- `ELF_VERIFY_MAGIC`. -/
def Elf64Ehdr.VerifyMagic (ehdr : Elf64Ehdr) : Prop := ehdr.eIdent.take 4 = [0x7f, 0x45, 0x4c, 0x46]

instance (ehdr : Elf64Ehdr) : Decidable ehdr.VerifyMagic := inferInstanceAs (Decidable (_ = _))

/-! ## Structures in bytes -/

/-- The `w`-bit field at an offset. -/
def field (w : ℕ) (b : ℕ → BitVec 8) (offset : ℕ) : BitVec w :=
  BitVec.ofNat w (number b offset (w / 8))

def sizeofEhdr : ℕ := 64

def sizeofPhdr : ℕ := 56

def Elf64Ehdr.ofBytes (b : ℕ → BitVec 8) : Elf64Ehdr where
  eIdent := (List.range 16).map b
  eType := field 16 b 16
  eMachine := field 16 b 18
  eVersion := field 32 b 20
  eEntry := field 64 b 24
  ePhoff := field 64 b 32
  eShoff := field 64 b 40
  eFlags := field 32 b 48
  eEhsize := field 16 b 52
  ePhentsize := field 16 b 54
  ePhnum := field 16 b 56
  eShentsize := field 16 b 58
  eShnum := field 16 b 60
  eShstrndx := field 16 b 62

def Elf64Phdr.ofBytes (b : ℕ → BitVec 8) : Elf64Phdr where
  pType := field 32 b 0
  pFlags := field 32 b 4
  pOffset := field 64 b 8
  pVaddr := field 64 b 16
  pPaddr := field 64 b 24
  pFilesz := field 64 b 32
  pMemsz := field 64 b 40
  pAlign := field 64 b 48

/-- `n` program headers, one after the other from an offset on. -/
def phdrsOfBytes (b : ℕ → BitVec 8) (offset n : ℕ) : List Elf64Phdr :=
  (List.range n).map fun i => Elf64Phdr.ofBytes fun k => b (offset + sizeofPhdr * i + k)

def ehdrAt (m : Memory) (a : U64) : Elf64Ehdr := Elf64Ehdr.ofBytes (bytesFrom m a)

def phdrsAt (m : Memory) (a : U64) (n : ℕ) : List Elf64Phdr := phdrsOfBytes (bytesFrom m a) 0 n

/-! ## Segment types -/

def ptLoad : Elf64Word := 1

def ptDynamic : Elf64Word := 2

def ptInterp : Elf64Word := 3

def ptGnuStack : Elf64Word := 0x6474e551

def ptGnuRelro : Elf64Word := 0x6474e552

/-! ## Segment attributes -/

def pfW : Elf64Word := 1 <<< 1

end SctOs
