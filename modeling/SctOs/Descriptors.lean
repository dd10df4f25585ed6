import SctOs.Pages
import SctOs.Interrupts

/-!
# Descriptor tables

The segment descriptors of `opsys/x86.h` and `init_idt` of `src/x86.c`. The gate layout is the
processor's, x86-64-system figure 6-7.
-/

namespace SctOs

namespace Descriptors

/-! ## Segment descriptors -/

/-- The size of the segment. -/
def segdescGetLimit (d : U64) : BitVec 32 :=
  (((d &&& (0xf#64 <<< 48)) >>> 32) ||| (d &&& 0xffff)).setWidth 32

def segdescSetLimit (ll : U64) : U64 := ((ll &&& (0xf#64 <<< 16)) <<< 32) ||| (ll &&& 0xffff)

/-- The base address of the segment. -/
def segdescGetBase (d : U64) : U64 :=
  ((d &&& (0xff#64 <<< 56)) >>> 24) ||| ((d &&& (0xffffff#64 <<< 16)) >>> 16)

def segdescSetBase (b : U64) : U64 :=
  ((b &&& (0xff#64 <<< 24)) <<< 32) ||| ((b &&& 0xffffff) <<< 16)

/-- The descriptor privilege level. -/
def segdescGetDpl (d : U64) : U64 := (d &&& (0x3#64 <<< 45)) >>> 45

def segdescSetDpl (dpl : U64) : U64 := (dpl &&& 0x3) <<< 45

/-- The flags of a descriptor, and the bits of its type. -/
inductive Flag
  | segdescA
  | segdescS
  | segdescP
  | segdescAvl
  | segdescL
  | segdescDb
  | segdescG
  | sdtRw
  | sdtDown
  | sdtX
  | sdtXr
  | sdtConf
  | sdtMask
  | sdtLdt
  | sdtTssa
  | sdtTssb
  | sdtCall
  | sdtIntr
  | sdtTrap
  deriving DecidableEq, Repr

def Flag.bits : Flag → U64
  | segdescA => 1#64 <<< 40
  | segdescS => 1#64 <<< 44
  | segdescP => 1#64 <<< 47
  | segdescAvl => 1#64 <<< 52
  | segdescL => 1#64 <<< 53
  | segdescDb => 1#64 <<< 54
  | segdescG => 1#64 <<< 55
  | sdtRw => 1#64 <<< 41
  | sdtDown => 1#64 <<< 42
  | sdtX => 1#64 <<< 43
  | sdtXr => 1#64 <<< 41
  | sdtConf => 1#64 <<< 42
  | sdtMask => 0xf#64 <<< 40
  | sdtLdt => 2#64 <<< 40
  | sdtTssa => 9#64 <<< 40
  | sdtTssb => 11#64 <<< 40
  | sdtCall => 12#64 <<< 40
  | sdtIntr => 14#64 <<< 40
  | sdtTrap => 15#64 <<< 40

/-- Flags or-ed together. -/
def flagBits (flags : List Flag) : U64 := flags.foldr (fun f bits => f.bits ||| bits) 0

def descriptor (base limit dpl : U64) (flags : List Flag) : U64 :=
  segdescSetBase base ||| segdescSetLimit limit ||| segdescSetDpl dpl ||| flagBits flags

/-- Bits 40 to 44, 47 and 52 to 55, which the flags and types are in. -/
def flagMask : U64 := 0xf09f0000000000

/-- The fields of a descriptor are those it was made of. -/
def DecodesBack (base : BitVec 32) (limit : BitVec 20) (dpl : BitVec 2) (flags : List Flag) :
    Prop :=
  let d := descriptor (base.setWidth 64) (limit.setWidth 64) (dpl.setWidth 64) flags
  segdescGetBase d = base.setWidth 64 ∧ segdescGetLimit d = limit.setWidth 32 ∧
    segdescGetDpl d = dpl.setWidth 64 ∧ d &&& flagMask = flagBits flags

/-- The entries of the table of `src/gdt.c`. -/
inductive GdtIndex
  | dummy
  | kernelCode
  | kernelData
  deriving DecidableEq, Repr

def GdtIndex.index : GdtIndex → BitVec 32
  | dummy => 0
  | kernelCode => 1
  | kernelData => 2

/-! ## Gates -/

/-- The two words of an entry of the interrupt descriptor table. -/
structure IdtEntry where
  word0 : U64
  word1 : U64
  deriving DecidableEq, Repr

abbrev Idt := Vector IdtEntry Interrupts.nInterrupts

abbrev VectorTable := Vector U64 Interrupts.nInterrupts

/-- An `int` converted to `uint64_t`. -/
def ofInt (i : BitVec 32) : U64 := i.signExtend 64

def codeSegmentSelector : BitVec 16 := (GdtIndex.kernelCode.index <<< 3).setWidth 16

/-- One round of the loop of `init_idt`. -/
def initIdtEntry (vector : U64) (ent : IdtEntry) : IdtEntry :=
  let ent := { ent with word1 := (vector &&& 0xffffffff00000000) >>> 32 }
  let ent := { ent with word0 := ((vector &&& 0xffff0000) <<< 32) ||| (vector &&& 0xffff) }
  let ent := { ent with
    word0 := ent.word0 ||| ofInt (codeSegmentSelector.setWidth 32 <<< 16) }
  { ent with
    word0 := ent.word0
      ||| (Flag.segdescP.bits ||| segdescSetDpl 0 ||| Flag.sdtIntr.bits) }

def initIdtFrom (vectorTable : VectorTable) (i : ℕ) (idt : Idt) : Idt :=
  if h : i < Interrupts.nInterrupts then
    initIdtFrom vectorTable (i + 1) (idt.set i (initIdtEntry vectorTable[i] idt[i]))
  else idt
termination_by Interrupts.nInterrupts - i

/-- Each vector function corresponds to the same-numbered entry. -/
def initIdt (vectorTable : VectorTable) (idt : Idt) : Idt := initIdtFrom vectorTable 0 idt

/-- A gate of the interrupt descriptor table, as the processor reads it. -/
structure Gate where
  offset : U64
  selector : BitVec 16
  ist : BitVec 3
  type : BitVec 4
  dpl : BitVec 2
  present : Bool
  /-- Bits 35 to 39 and 44 of the low word, and 32 to 63 of the high word. -/
  reserved : BitVec 5 × Bool × BitVec 32
  deriving DecidableEq, Repr

def IdtEntry.gate (e : IdtEntry) : Gate where
  offset := e.word1.extractLsb' 0 32 ++ (e.word0.extractLsb' 48 16 ++ e.word0.extractLsb' 0 16)
  selector := e.word0.extractLsb' 16 16
  ist := e.word0.extractLsb' 32 3
  type := e.word0.extractLsb' 40 4
  dpl := e.word0.extractLsb' 45 2
  present := e.word0.getLsbD 47
  reserved := (e.word0.extractLsb' 35 5, e.word0.getLsbD 44, e.word1.extractLsb' 32 32)

end Descriptors

end SctOs
