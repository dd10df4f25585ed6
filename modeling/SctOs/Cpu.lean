import SctOs.Descriptors
import SctOs.Efi

/-!
# The processor

`init_cpu` of `src/x86.c` with the table of `src/gdt.c`, `init_segment_selectors` of `src/stubs.S`
and `interrupt_handler` of `src/interrupts.c`. The descriptor tables are in memory, and the processor
reads a descriptor each time it loads a selector or takes an interrupt; it stays in ring 0, so an
interrupt goes on with the stack it finds.
-/

namespace SctOs

namespace Cpu

open Bytes Interrupts Descriptors

/-! ## The processor -/

/-- x86-64-system figure 3-11. -/
structure PseudoDescriptor where
  limit : BitVec 16
  base : U64
  deriving DecidableEq, Repr

structure Processor extends Interrupts.Machine where
  rip : U64
  rflags : U64
  cs : BitVec 16
  ss : BitVec 16
  ds : BitVec 16
  es : BitVec 16
  fs : BitVec 16
  gs : BitVec 16
  gdtr : PseudoDescriptor
  idtr : PseudoDescriptor

variable (p : Processor)

/-- The entry of the global descriptor table that a selector names. -/
def Processor.descriptor (selector : BitVec 16) : Option U64 :=
  let offset := selector &&& 0xfff8
  if selector &&& 4 = 0 ∧ offset.toNat + 7 ≤ p.gdtr.limit.toNat then
    some (load p.mem (p.gdtr.base + offset.setWidth 64))
  else none

/-- The flags that are set, out of those given. -/
def flagsOf (d : U64) (flags : List Flag) : U64 := d &&& flagBits flags

/-- A 64-bit code segment of ring 0. -/
def IsCode (d : U64) : Prop :=
  flagsOf d [.segdescS, .segdescP, .segdescL, .segdescDb, .sdtX] =
    flagBits [.segdescS, .segdescP, .segdescL, .sdtX] ∧ segdescGetDpl d = 0

/-- A data segment of ring 0 that can be written. -/
def IsData (d : U64) : Prop :=
  flagsOf d [.segdescS, .segdescP, .sdtX, .sdtRw] = flagBits [.segdescS, .segdescP, .sdtRw] ∧
    segdescGetDpl d = 0

instance : DecidablePred IsCode := fun _ => inferInstanceAs (Decidable (_ ∧ _))

instance : DecidablePred IsData := fun _ => inferInstanceAs (Decidable (_ ∧ _))

/-- The processor faults on a code selector of another kind. -/
def Processor.codeOk (selector : BitVec 16) : Bool :=
  (p.descriptor selector).any fun d => selector &&& 3 = 0 ∧ IsCode d

def Processor.stackOk (selector : BitVec 16) : Bool :=
  (p.descriptor selector).any fun d => selector &&& 3 = 0 ∧ IsData d

def Processor.stackWord (i : ℕ) : U64 := load p.mem (p.reg .rsp + BitVec.ofNat 64 (8 * i))

/-- Back to what the frame on the stack says. -/
def Processor.iretq : Option Processor :=
  let cs := (p.stackWord 1).setWidth 16
  let ss := (p.stackWord 4).setWidth 16
  if p.codeOk cs ∧ p.stackOk ss then
    some { p with
      reg := Function.update p.reg .rsp (p.stackWord 3)
      rip := p.stackWord 0
      cs := cs
      rflags := p.stackWord 2
      ss := ss }
  else none

/-- The flags that an interrupt gate clears: TF, IF, NT, RF and VM. -/
def gateFlags : U64 :=
  (1 <<< 8) ||| (1 <<< 9) ||| (1 <<< 14) ||| (1 <<< 16) ||| (1 <<< 17)

def Processor.gate (i : ℕ) : Option Gate :=
  let a := p.idtr.base + BitVec.ofNat 64 (16 * i)
  if 16 * i + 15 ≤ p.idtr.limit.toNat then
    some (IdtEntry.mk (load p.mem a) (load p.mem (a + 8))).gate
  else none

def Processor.interrupted (errorCode : U64) : Interrupted :=
  ⟨p.reg, p.mem, p.rip, p.cs.setWidth 64, p.rflags, p.ss.setWidth 64, p.reg .rsp, errorCode⟩

/-- The processor at the vector of interrupt `i`, through an interrupt gate of its ring. -/
def Processor.interrupt (i : ℕ) (errorCode : U64) : Option Processor := do
  let gate ← p.gate i
  if gate.present ∧ gate.type = 14 ∧ gate.ist = 0 ∧ p.codeOk gate.selector then
    some { p with
      toMachine := (p.interrupted errorCode).raise i
      rip := gate.offset
      cs := gate.selector
      rflags := p.rflags &&& ~~~gateFlags }
  else none

/-! ## Tables -/

/-- The table of `src/gdt.c`. -/
def gdt : List U64 :=
  [0,
    segdescSetDpl 0 ||| flagBits [.segdescS, .segdescL, .segdescP, .segdescG] |||
      flagBits [.sdtX, .sdtXr],
    segdescSetDpl 0 ||| flagBits [.segdescS, .segdescP, .segdescG] ||| flagBits [.sdtRw]]

def gdtLength : BitVec 16 := BitVec.ofNat 16 gdt.length

/-- What `lgdt` loads. -/
def setGdt (gdt : U64) (length : BitVec 16) : PseudoDescriptor :=
  ⟨(8 * length.setWidth 64 - 1).setWidth 16, gdt⟩

/-- What `lidt` loads: `sizeof(idt_t) - 1`. -/
def setIdt (idt : U64) : PseudoDescriptor := ⟨BitVec.ofNat 16 (16 * nInterrupts - 1), idt⟩

/-- The words of the `i`-th entry of the table, each with its address. -/
def entryWords (idt : U64) (ent : IdtEntry) (i : ℕ) : List (U64 × ℕ) :=
  [(idt + BitVec.ofNat 64 (16 * i), ent.word0.toNat),
    (idt + BitVec.ofNat 64 (16 * i) + 8, ent.word1.toNat)]

def idtWords (idt : U64) (table : Idt) : List (U64 × ℕ) :=
  table.toList.zipIdx.flatMap fun x => entryWords idt x.1 x.2

/-- The entry in memory. -/
def idtEntry (m : Memory) (idt : U64) (i : ℕ) : IdtEntry :=
  ⟨load m (idt + BitVec.ofNat 64 (16 * i)), load m (idt + BitVec.ofNat 64 (16 * i) + 8)⟩

def idtOf (m : Memory) (idt : U64) : Idt := Vector.ofFn fun i => idtEntry m idt i

/-! ## Segment selectors -/

inductive SegReg
  | ds
  | es
  | fs
  | gs
  deriving DecidableEq, Repr

/-- The instructions of `init_segment_selectors`. -/
inductive StubInstr
  | instr (i : Instr)
  /-- Of the low 16 bits with themselves. -/
  | xor16 (r : Reg)
  | movSeg (r : Reg) (seg : SegReg)
  | shl (n : ℕ) (r : Reg)
  | pushfq
  deriving DecidableEq, Repr

def Processor.setSeg (v : BitVec 16) : SegReg → Processor
  | .ds => { p with ds := v }
  | .es => { p with es := v }
  | .fs => { p with fs := v }
  | .gs => { p with gs := v }

def StubInstr.step (image : Image) (p : Processor) : StubInstr → Processor
  | .instr i => { p with toMachine := i.step image p.toMachine }
  | .xor16 r => { p with toMachine := p.set r (p.reg r &&& ~~~0xffff) }
  | .movSeg r seg => p.setSeg ((p.reg r).setWidth 16) seg
  | .shl n r => { p with toMachine := p.set r (p.reg r <<< n) }
  | .pushfq => { p with toMachine := p.push p.rflags }

/-- Up to its `iretq`. Null selectors in `ds`, `es`, `fs` and `gs`, the return address in `rcx`, and a
frame that returns there with the two selectors given. -/
def initSegmentSelectorsCode : List StubInstr :=
  [.xor16 .rax, .movSeg .rax .ds, .movSeg .rax .es, .movSeg .rax .fs, .movSeg .rax .gs,
    .instr (.pop .rcx), .shl 3 .rdi, .instr (.mov .rsp .rax), .shl 3 .rsi, .instr (.push .rdi),
    .instr (.push .rax), .pushfq, .instr (.push .rsi), .instr (.push .rcx)]

def initSegmentSelectors (image : Image) : Option Processor :=
  (initSegmentSelectorsCode.foldl (StubInstr.step image) p).iretq

/-! ## `init_cpu` -/

structure Cpuid where
  a : BitVec 32
  b : BitVec 32
  c : BitVec 32
  d : BitVec 32
  deriving DecidableEq, Repr

/-- What `rdmsr` (`edx` and `eax`) and `cpuid` (of `eax` and `ecx`) give. -/
structure Hardware where
  rdmsr : BitVec 32 → BitVec 32 × BitVec 32
  cpuid : BitVec 32 → BitVec 32 → Cpuid

def Hardware.readMsr (hw : Hardware) (whichMsr : BitVec 32) : U64 :=
  let (edx, eax) := hw.rdmsr whichMsr
  (edx.setWidth 64 <<< 32) ||| eax.setWidth 64

def Hardware.getCpuid (hw : Hardware) (which : U64) : Cpuid :=
  hw.cpuid (which.setWidth 32) ((which >>> 32).setWidth 32)

def ia32ApicBase : BitVec 32 := 0x1b

def apicBaseMask : U64 := 0xfffffffff000

def cpuidVersion : U64 := 1

/-- The `apic` of `struct x86_64_cpu`. -/
structure Apic where
  paddr : U64
  vaddr : U64
  id : BitVec 8
  deriving DecidableEq, Repr

def initApic (hw : Hardware) (data : BootloaderData) : Apic :=
  let apicBase := hw.readMsr ia32ApicBase
  let baseAddr := apicBase &&& apicBaseMask
  let version := hw.getCpuid cpuidVersion
  { paddr := baseAddr, vaddr := data.mmioBase - pageSize, id := (version.b >>> 24).setWidth 8 }

/-- Where the linker puts the code and the data that the processor is told of. -/
structure Linked where
  image : Image
  vector : ℕ → U64
  gdt : U64
  idt : U64

/-- `vector_table`, with the addresses of its labels. -/
def Linked.vectorTable (l : Linked) : VectorTable :=
  Vector.ofFn fun i => l.vector ((Interrupts.vectorTable genVectors).getD i 0)

/-- The label at an address. -/
def Linked.label (l : Linked) (rip : U64) : Option ℕ :=
  (List.range nInterrupts).find? fun i => l.vector i = rip

def gdtiKernelData : U64 := GdtIndex.kernelData.index.setWidth 64

def gdtiKernelCode : U64 := GdtIndex.kernelCode.index.setWidth 64

/-- A call: the arguments are in `rdi` and `rsi`, the return address on the stack. -/
def callInitSegmentSelectors (image : Image) (kdata kcode : U64) : Option Processor :=
  let s := (p.set .rdi kdata).set .rsi kcode
  initSegmentSelectors { p with toMachine := s.push image.returnAddress } image

def initCpu (l : Linked) (hw : Hardware) (data : BootloaderData) : Option (Processor × Apic) := do
  let p := { p with gdtr := setGdt l.gdt gdtLength }
  let p ← callInitSegmentSelectors p l.image gdtiKernelData gdtiKernelCode
  let table := initIdt l.vectorTable (idtOf p.mem l.idt)
  let p := { p with mem := writeAll 8 p.mem (idtWords l.idt table) }
  let p := { p with idtr := setIdt l.idt }
  return (p, initApic hw data)

/-! ## Handling interrupts -/

def interruptMagic : U64 := 0xD1D1D1D1D1D1D1D1

/-- The functions that a handler calls on its way. -/
inductive Call
  | break_
  deriving DecidableEq, Repr

/-- What the handler calls before it returns, if it does: with another magic it halts. -/
def interruptHandler (frame : InterruptFrame) (magic : U64) : Option (List Call) :=
  if magic ≠ interruptMagic then none
  else if frame.interruptNumber = BitVec.ofNat 64 Exc.bp.ctorIdx then some []
  else some [.break_]

/-- The handler is the compiled `interrupt_handler`, and uses `k` bytes of stack. -/
structure Compiled (k : ℕ) (handler : Handler) : Prop where
  halts : ∀ s, interruptHandler (.ofMemory s.mem (s.reg .rdi)) (s.reg .rsi) = none →
    handler s = none
  returns : ∀ s, (interruptHandler (.ofMemory s.mem (s.reg .rdi)) (s.reg .rsi)).isSome →
    ∃ s', handler s = some s' ∧ (∀ r ∈ calleeSaved, s'.reg r = s.reg r) ∧
      s'.reg .rsp = s.reg .rsp + 8 ∧
      ∀ x, k ≤ (x - (s.reg .rsp - BitVec.ofNat 64 k)).toNat → s'.mem x = s.mem x

/-- From a label up to `iretq`. -/
def execLabel (image : Image) (handler : Handler) (label : ℕ) : Interrupts.Machine →
    Option Interrupts.Machine :=
  exec image handler (fun
    | .interruptHandlerStub => exec image handler (fun _ _ => none) interruptHandlerStub
    | _ => fun _ => none) (codeAt genVectors label)

/-- An interrupt from the processor's gate to `iretq`. -/
def takeInterrupt (l : Linked) (handler : Handler) (p : Processor) (x : ℕ × U64) :
    Option Processor := do
  let p ← p.interrupt x.1 x.2
  let label ← l.label p.rip
  let s ← execLabel l.image handler label p.toMachine
  { p with toMachine := s }.iretq

/-- One interrupt after another, each with its number and error code. -/
def takeInterrupts (l : Linked) (handler : Handler) (p : Processor) (is : List (ℕ × U64)) :
    Option Processor :=
  is.foldlM (takeInterrupt l handler) p

/-- The part of the stack that an interrupt uses: the frame, the return address of the call, and
what the handler needs. -/
def stackUse (k : ℕ) : ℕ := 192 + k

/-- Where that part begins. -/
def Processor.stackLow (k : ℕ) : U64 := (p.reg .rsp &&& ~~~15) - BitVec.ofNat 64 (stackUse k)

/-- What the stack must leave alone. -/
structure Safe (l : Linked) (k : ℕ) (p : Processor) : Prop where
  gdt : Apart (p.stackLow k) (stackUse k) l.gdt 24
  idt : Apart (p.stackLow k) (stackUse k) l.idt 4096
  magic : Apart (p.stackLow k) (stackUse k) (l.image.symbol .interruptMagic) 8

/-- The processor as `init_cpu` leaves it. -/
structure Ready (l : Linked) (p : Processor) : Prop where
  gdtr : p.gdtr = ⟨23, l.gdt⟩
  /-- NULL, the kernel's code and the kernel's data. -/
  gdt : Stacked 8 p.mem l.gdt [0, 0x00a09a0000000000, 0x0080920000000000]
  idtr : p.idtr = ⟨4095, l.idt⟩
  idt : ∀ i < nInterrupts, (idtEntry p.mem l.idt i).gate =
    ⟨l.vector i, 8, 0, 14, 0, true, (0, false, 0)⟩
  magic : load p.mem (l.image.symbol .interruptMagic) = 0xd1d1d1d1d1d1d1d1
  cs : p.cs = 8
  ss : p.ss = 16

/-- The local APIC, by bits 12 to 47 of the MSR 0x1b and the last byte of `ebx`. -/
structure IsApic (hw : Hardware) (data : BootloaderData) (apic : Apic) : Prop where
  paddr : apic.paddr = ((hw.rdmsr 0x1b).1 ++ (hw.rdmsr 0x1b).2) &&& 0xfffffffff000
  vaddr : apic.vaddr = data.mmioBase - 0x1000
  id : apic.id = (hw.cpuid 1 0).b.extractLsb' 24 8

end Cpu

end SctOs
