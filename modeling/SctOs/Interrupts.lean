import SctOs.Pages
import SctOs.Stacks

/-!
# Interrupts

The vectors of `test/gen-vectors.c`, and `interrupt_handler_stub` of `src/stubs.S` with the macros
of `src/asm-util.h`, on a machine of registers and memory. The handler is any function of the
machine when it is called.
-/

namespace SctOs

namespace Interrupts

open Bytes

/-! ## The machine -/

inductive Reg
  | rdi
  | rsi
  | rbp
  | rsp
  | rbx
  | rdx
  | rcx
  | rax
  | r8
  | r9
  | r10
  | r11
  | r12
  | r13
  | r14
  | r15
  deriving DecidableEq, Repr

structure Machine where
  reg : Reg → U64
  mem : Memory

def Machine.set (s : Machine) (r : Reg) (v : U64) : Machine :=
  { s with reg := Function.update s.reg r v }

def Machine.push (s : Machine) (v : U64) : Machine :=
  { s.set .rsp (s.reg .rsp - 8) with mem := store s.mem (s.reg .rsp - 8) v }

def Machine.pop (s : Machine) (r : Reg) : Machine :=
  (s.set .rsp (s.reg .rsp + 8)).set r (load s.mem (s.reg .rsp))

/-- The symbols that code refers to. -/
inductive Symbol
  | interruptMagic
  | interruptHandler
  | interruptHandlerStub
  deriving DecidableEq, Repr

inductive Instr
  | push (r : Reg)
  /-- An immediate of 32 bits, which is sign extended. -/
  | pushq (imm : BitVec 32)
  | pop (r : Reg)
  | lea (disp : U64) (base dest : Reg)
  | add (imm : U64) (dest : Reg)
  | mov (src dest : Reg)
  | movSymbol (symbol : Symbol) (dest : Reg)
  | call (symbol : Symbol)
  | jmp (symbol : Symbol)
  | iretq
  deriving DecidableEq, Repr

/-- Where the code and the data are. -/
structure Image where
  symbol : Symbol → U64
  returnAddress : U64

variable (image : Image)

/-- An instruction that goes on to the next one. -/
def Instr.step (s : Machine) : Instr → Machine
  | .push r => s.push (s.reg r)
  | .pushq imm => s.push (imm.signExtend 64)
  | .pop r => s.pop r
  | .lea disp base dest => s.set dest (s.reg base + disp)
  | .add imm dest => s.set dest (s.reg dest + imm)
  | .mov src dest => s.set dest (s.reg src)
  | .movSymbol symbol dest => s.set dest (load s.mem (image.symbol symbol))
  | .call _ => s.push image.returnAddress
  | _ => s

def run (s : Machine) (is : List Instr) : Machine := is.foldl (Instr.step image) s

/-- The machine when the handler returns, if it does. -/
abbrev Handler := Machine → Option Machine

/-- Up to `iretq`; `jump` is what happens at another symbol. -/
def exec (handler : Handler) (jump : Symbol → Machine → Option Machine) :
    List Instr → Machine → Option Machine
  | [], _ => none
  | .iretq :: _, s => some s
  | .jmp symbol :: _, s => jump symbol s
  | .call symbol :: is, s => do
    let s ← handler ((Instr.call symbol).step image s)
    exec handler jump is s
  | i :: is, s => exec handler jump is (i.step image s)

/-! ## The code -/

/-- Push r15-r8, rax, rcx, rdx, rbx, original rsp, rbp, rsi, and rdi. -/
def pushaq : List Instr :=
  [.push .r15, .lea 8 .rsp .r15, .push .r14, .push .r13, .push .r12, .push .r11, .push .r10,
    .push .r9, .push .r8, .push .rax, .push .rcx, .push .rdx, .push .rbx, .push .r15, .push .rbp,
    .push .rsi, .push .rdi]

/-- Pop rdi, rsi, rbp, original rsp, rbx, rdx, rcx, rax, r8-15. -/
def popaq : List Instr :=
  [.pop .rdi, .pop .rsi, .pop .rbp, .add 8 .rsp, .pop .rbx, .pop .rdx, .pop .rcx, .pop .rax,
    .pop .r8, .pop .r9, .pop .r10, .pop .r11, .pop .r12, .pop .r13, .pop .r14, .pop .r15]

def interruptHandlerStub : List Instr :=
  pushaq ++ [.movSymbol .interruptMagic .rsi, .mov .rsp .rdi, .call .interruptHandler] ++ popaq ++
    [.add 16 .rsp, .iretq]

/-- Exceptions, by their numbers. -/
inductive Exc
  | de
  | db
  | nmi
  | bp
  | of
  | br
  | ud
  | nm
  | df
  | res9
  | ts
  | np
  | ss
  | gp
  | pf
  | res15
  | mf
  | ac
  | mc
  | xm
  | ve
  deriving DecidableEq, Repr

/-- Error codes refer to a descriptor, or an address for PF. -/
def ExcHasErrorCode (num : ℕ) : Prop :=
  num = Exc.df.ctorIdx ∨ num = Exc.ts.ctorIdx ∨ num = Exc.np.ctorIdx ∨ num = Exc.ss.ctorIdx ∨
    num = Exc.gp.ctorIdx ∨ num = Exc.pf.ctorIdx ∨ num = Exc.ac.ctorIdx

instance : DecidablePred ExcHasErrorCode := fun _ => inferInstanceAs (Decidable (_ ∨ _))

def nInterrupts : ℕ := 256

/-- A line of the generated file, in one of its two sections. -/
inductive Line
  | label (i : ℕ)
  | instr (i : Instr)
  /-- An entry of `vector_table`. -/
  | quad (i : ℕ)
  deriving DecidableEq, Repr

def vectorLines (i : ℕ) : List Line :=
  .label i :: (if ExcHasErrorCode i then [] else [.instr (.pushq 0)]) ++
    [.instr (.pushq (BitVec.ofNat 32 i)), .instr (.jmp .interruptHandlerStub)]

/-- What `main` of `gen-vectors` prints. -/
def genVectors : List Line :=
  (List.range nInterrupts).flatMap vectorLines ++ (List.range nInterrupts).map .quad

def Line.instr? : Line → Option Instr
  | .instr i => some i
  | _ => none

def Line.quad? : Line → Option ℕ
  | .quad i => some i
  | _ => none

/-- The code from a label on. -/
def codeAt (lines : List Line) (i : ℕ) : List Instr :=
  (lines.dropWhile (· ≠ .label i)).filterMap Line.instr?

/-- The labels in `vector_table`. -/
def vectorTable (lines : List Line) : List ℕ := lines.filterMap Line.quad?

/-- From a vector up to `iretq`. -/
def execVector (handler : Handler) (i : ℕ) (s : Machine) : Option Machine := do
  let label ← (vectorTable genVectors)[i]?
  exec image handler (fun
    | .interruptHandlerStub => exec image handler (fun _ _ => none) interruptHandlerStub
    | _ => fun _ => none) (codeAt genVectors label) s

/-! ## Frames -/

/-- Registers in the order of `pushaq`. -/
structure X8664Registers where
  rdi : U64
  rsi : U64
  rbp : U64
  rsp : U64
  rbx : U64
  rdx : U64
  rcx : U64
  rax : U64
  r8 : U64
  r9 : U64
  r10 : U64
  r11 : U64
  r12 : U64
  r13 : U64
  r14 : U64
  r15 : U64
  deriving DecidableEq, Repr

/-- Prepared by interrupt vector functions and interrupt handler stub. -/
structure InterruptFrame where
  reg : X8664Registers
  interruptNumber : U64
  errorCode : U64
  rip : U64
  cs : U64
  rflags : U64
  rsp : U64
  ss : U64
  deriving DecidableEq, Repr

/-- `sizeof(struct interrupt_frame)`. -/
def sizeofInterruptFrame : ℕ := 184

def X8664Registers.ofMemory (m : Memory) (a : U64) : X8664Registers where
  rdi := load m a
  rsi := load m (a + 8)
  rbp := load m (a + 16)
  rsp := load m (a + 24)
  rbx := load m (a + 32)
  rdx := load m (a + 40)
  rcx := load m (a + 48)
  rax := load m (a + 56)
  r8 := load m (a + 64)
  r9 := load m (a + 72)
  r10 := load m (a + 80)
  r11 := load m (a + 88)
  r12 := load m (a + 96)
  r13 := load m (a + 104)
  r14 := load m (a + 112)
  r15 := load m (a + 120)

def InterruptFrame.ofMemory (m : Memory) (a : U64) : InterruptFrame where
  reg := .ofMemory m a
  interruptNumber := load m (a + 128)
  errorCode := load m (a + 136)
  rip := load m (a + 144)
  cs := load m (a + 152)
  rflags := load m (a + 160)
  rsp := load m (a + 168)
  ss := load m (a + 176)

/-! ## The CPU -/

/-- What is interrupted, and the stack that the CPU switches to. -/
structure Interrupted where
  reg : Reg → U64
  mem : Memory
  rip : U64
  cs : U64
  rflags : U64
  ss : U64
  stack : U64
  errorCode : U64

/-- The return frame's address: the stack is aligned before five words are pushed. -/
def Interrupted.returnFrame (c : Interrupted) : U64 := (c.stack &&& ~~~15) - 40

/-- The machine at the vector. -/
def Interrupted.raise (c : Interrupted) (i : ℕ) : Machine :=
  let s : Machine := ⟨Function.update c.reg .rsp (c.stack &&& ~~~15), c.mem⟩
  let s := [c.ss, c.reg .rsp, c.rflags, c.cs, c.rip].foldl Machine.push s
  if ExcHasErrorCode i then s.push c.errorCode else s

/-- The words on the stack. -/
def OnStack (s : Machine) (ws : List U64) : Prop :=
  Stacked 8 s.mem (s.reg .rsp) (ws.map BitVec.toNat)

/-- The registers of a frame, with its own stack pointer. -/
def X8664Registers.of (reg : Reg → U64) (rsp : U64) : X8664Registers :=
  ⟨reg .rdi, reg .rsi, reg .rbp, rsp, reg .rbx, reg .rdx, reg .rcx, reg .rax, reg .r8, reg .r9,
    reg .r10, reg .r11, reg .r12, reg .r13, reg .r14, reg .r15⟩

/-- The frame of an interrupt. -/
def Interrupted.frame (c : Interrupted) (i : ℕ) (rsp : U64) : InterruptFrame where
  reg := .of c.reg rsp
  interruptNumber := BitVec.ofNat 64 i
  errorCode := if ExcHasErrorCode i then c.errorCode else 0
  rip := c.rip
  cs := c.cs
  rflags := c.rflags
  rsp := c.reg .rsp
  ss := c.ss

/-- The registers that a function leaves as they are. -/
def calleeSaved : List Reg := [.rbx, .rbp, .r12, .r13, .r14, .r15]

/-- A call from `s` that ends in `s'` with the frame unchanged. -/
structure Obeys (s s' : Machine) : Prop where
  calleeSaved : ∀ r ∈ calleeSaved, s'.reg r = s.reg r
  rsp : s'.reg .rsp = s.reg .rsp + 8
  frame : SameAt s.mem s'.mem (s.reg .rsp + 8) sizeofInterruptFrame

end Interrupts

end SctOs
