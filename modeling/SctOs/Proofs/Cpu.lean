import SctOs.Cpu
import SctOs.Proofs.Descriptors
import SctOs.Proofs.Interrupts
import SctOs.Proofs.Objects

/-!
# The processor

What a vector and the stub push is below the stack pointer (`Grows`), so the tables, the magic and
the program's memory stay as they were, and each interrupt ends where it began
(`takeInterrupt_resumes`).
-/

namespace SctOs

namespace Cpu

open Bytes BitFields Interrupts Descriptors

variable {image : Image} {handler : Handler} {k : ℕ}

/-! ## Growing stacks -/

/-- The stack has grown by `n` bytes, and no other byte has changed. -/
structure Grows (s t : Interrupts.Machine) (n : ℕ) : Prop where
  rsp : t.reg .rsp = s.reg .rsp - BitVec.ofNat 64 n
  mem : ∀ x, n ≤ (x - t.reg .rsp).toNat → t.mem x = s.mem x

section grows

variable {s t u : Interrupts.Machine} {v : U64} {r : Reg} {n m : ℕ}

theorem Grows.trans (h : Grows s t n) (h' : Grows t u m) : Grows s u (n + m) := by
  have hback : t.reg .rsp = u.reg .rsp + BitVec.ofNat 64 m := by
    rw [h'.rsp, BitVec.sub_add_cancel]
  refine ⟨?_, fun x hx => ?_⟩
  · rw [h'.rsp, h.rsp, BitVec.ofNat_add]
    generalize BitVec.ofNat 64 n = a
    generalize BitVec.ofNat 64 m = b
    bv_omega
  · rw [h'.mem x (by omega), h.mem x ?_]
    rw [hback, sub_offset (by omega)]
    omega

theorem Grows.mem_above {a x : U64} (h : Grows s t n) (ha : t.reg .rsp = a + BitVec.ofNat 64 m)
    (hx : n + m ≤ (x - a).toNat) : t.mem x = s.mem x := by
  refine h.mem x ?_
  rw [ha, sub_offset (by omega)]
  omega

theorem grows_push : Grows s (s.push v) 8 := by
  refine ⟨Machine.push_rsp, fun x hx => ?_⟩
  rw [Machine.push_rsp] at hx
  exact blit_of_le hx

theorem grows_set (hr : r ≠ .rsp) : Grows s (s.set r v) 0 := by
  refine ⟨?_, fun _ _ => rfl⟩
  rw [Machine.set_of_ne hr.symm, BitVec.sub_zero]

/-- How far an instruction makes the stack grow, if it touches nothing else. -/
def growth : Instr → Option ℕ
  | .push _ | .pushq _ => some 8
  | .lea _ _ r | .mov _ r | .movSymbol _ r => if r = .rsp then none else some 0
  | _ => none

theorem step_grows {i : Instr} (h : growth i = some n) : Grows s (i.step image s) n := by
  cases i <;> simp only [growth, reduceCtorEq, Option.some.injEq,
    Option.ite_none_left_eq_some] at h
  case push r => exact h ▸ grows_push
  case pushq imm => exact h ▸ grows_push
  case lea disp base r => exact h.2 ▸ grows_set h.1
  case mov src r => exact h.2 ▸ grows_set h.1
  case movSymbol symbol r => exact h.2 ▸ grows_set h.1

theorem run_grows : ∀ {is : List Instr} {ns : List ℕ} {s : Interrupts.Machine},
    is.map growth = ns.map some → Grows s (run image s is) ns.sum
  | [], [], s, _ => ⟨(BitVec.sub_zero _).symm, fun _ _ => rfl⟩
  | i :: is, n :: ns, s, h => by
    rw [List.map_cons, List.map_cons, List.cons.injEq] at h
    exact (step_grows h.1).trans (run_grows h.2)

end grows

/-! ## From a vector to `iretq` -/

/-- The interrupted registers, on the aligned stack. -/
def aligned (c : Interrupted) : Interrupts.Machine :=
  ⟨Function.update c.reg .rsp (c.stack &&& ~~~15), c.mem⟩

theorem raised_grows (image : Image) (c : Interrupted) (i : ℕ) :
    Grows (aligned c) (run image (c.raise i) (vectorPushes i)) 56 := by
  have hrun : run image (c.raise i) (vectorPushes i) =
      (((((((aligned c).push c.ss).push (c.reg .rsp)).push c.rflags).push c.cs).push c.rip).push
        (if ExcHasErrorCode i then c.errorCode else 0)).push
          ((BitVec.ofNat 32 i).signExtend 64) := by
    rw [vectorPushes, Interrupted.raise]
    split_ifs <;> rfl
  rw [hrun]
  exact (((((grows_push.trans grows_push).trans grows_push).trans grows_push).trans
    grows_push).trans grows_push).trans grows_push

theorem pushaq_grows (image : Image) (s : Interrupts.Machine) :
    Grows s (run image s pushaq) 128 := by
  have hrun : Grows s (run image s pushaq) (8 :: 0 :: List.replicate 15 8).sum := run_grows rfl
  exact hrun

theorem called_grows (image : Image) (s : Interrupts.Machine) :
    Grows s (called image s) 136 := by
  have hrun : Grows s (run image s (pushaq ++ [.movSymbol .interruptMagic .rsi, .mov .rsp .rdi]))
      (8 :: 0 :: List.replicate 15 8 ++ [0, 0]).sum := run_grows rfl
  exact hrun.trans grows_push

/-- The handler gets the magic in `rsi`. -/
theorem called_magic (image : Image) (s : Interrupts.Machine) :
    (called image s).reg .rsi =
      load (run image s pushaq).mem (image.symbol .interruptMagic) := by
  rw [called, Machine.push_reg (by decide), run_append]
  change ((((run image s pushaq).set .rsi _).set .rdi _)).reg .rsi = _
  rw [Machine.set_of_ne (by decide), Machine.set_self]

/-- An instruction that writes no memory. -/
def readsOnly : Instr → Bool
  | .push _ | .pushq _ | .call _ => false
  | _ => true

theorem run_mem : ∀ {is : List Instr} {s : Interrupts.Machine}, (∀ i ∈ is, readsOnly i) →
    (run image s is).mem = s.mem
  | [], s, _ => rfl
  | i :: is, s, h => by
    obtain ⟨hi, his⟩ := List.forall_mem_cons.1 h
    rw [run_cons, run_mem his]
    cases i <;> first | rfl | cases hi

theorem execLabel_eq (image : Image) (handler : Handler) {i : ℕ} (hi : i < 256)
    (s : Interrupts.Machine) : execLabel image handler i s =
      (handler (called image (run image s (vectorPushes i)))).map fun s' =>
        run image s' (popaq ++ [.add 16 .rsp]) := by
  rw [← exec_vector image handler hi, execVector, vectorTable_get hi]
  rfl

theorem load_sameAt {m m' : Memory} {a : U64} (h : SameAt m m' a 8) : load m a = load m' a := by
  rw [load, load, readLE_congr h]

/-- Where the stack ends that an interrupt uses. -/
def stackEnd (k : ℕ) (c : Interrupted) : U64 := (c.stack &&& ~~~15) - BitVec.ofNat 64 (stackUse k)

theorem vector_resumes (hh : Compiled k handler) (hk : stackUse k ≤ 2 ^ 64) {i : ℕ} (hi : i < 256)
    {c : Interrupted} (hmagic : load c.mem (image.symbol .interruptMagic) = interruptMagic)
    (hapart : Apart (stackEnd k c) (stackUse k) (image.symbol .interruptMagic) 8) :
    ∃ t, execLabel image handler i (c.raise i) = some t ∧ (∀ r ≠ .rsp, t.reg r = c.reg r) ∧
      t.reg .rsp = c.returnFrame ∧ OnStack t [c.rip, c.cs, c.rflags, c.reg .rsp, c.ss] ∧
      ∀ x, stackUse k ≤ (x - stackEnd k c).toNat → t.mem x = c.mem x := by
  obtain ⟨hstack, hreg, hrsp⟩ := raised_run image hi c
  have hgrows := raised_grows image c i
  rw [execLabel_eq image handler hi]
  generalize run image (c.raise i) (vectorPushes i) = v at *
  obtain ⟨hframe, hrdi, hcrsp⟩ := called_run image hstack (by simp)
  have hcalled : Grows (aligned c) (called image v) 192 := hgrows.trans (called_grows image v)
  have hpushed : Grows (aligned c) (run image v pushaq) 184 :=
    hgrows.trans (pushaq_grows image v)
  have hstart : (aligned c).reg .rsp = stackEnd k c + BitVec.ofNat 64 (stackUse k) := by
    rw [stackEnd, BitVec.sub_add_cancel]
    exact Function.update_self Reg.rsp _ c.reg
  have hlow : (called image v).reg .rsp = stackEnd k c + BitVec.ofNat 64 k := by
    rw [hcalled.rsp, hstart, stackUse, BitVec.ofNat_add, BitVec.add_comm (BitVec.ofNat 64 192),
      ← BitVec.add_assoc, BitVec.add_sub_cancel]
  have hplow : (run image v pushaq).reg .rsp = stackEnd k c + BitVec.ofNat 64 (k + 8) := by
    have hsum : stackUse k = k + 8 + 184 := by
      rw [stackUse]
      omega
    rw [hpushed.rsp, hstart, hsum, BitVec.ofNat_add, ← BitVec.add_assoc, BitVec.add_sub_cancel]
  -- Below the frame there is only the return address, and what the handler uses.
  have hmem : ∀ x, stackUse k ≤ (x - stackEnd k c).toNat → (called image v).mem x = c.mem x :=
    fun x hx => hcalled.mem_above hlow hx
  have hrsi : (called image v).reg .rsi = interruptMagic := by
    rw [called_magic, ← hmagic]
    refine load_sameAt fun j hj => hpushed.mem_above hplow ?_
    have := hapart j hj
    rw [stackUse] at this
    omega
  obtain ⟨s, hs, -, hsrsp, hsmem⟩ := hh.returns (called image v) (by
    rw [hrsi, interruptHandler, if_neg (not_not.2 rfl)]
    split_ifs <;> rfl)
  rw [hs, Option.map_some]
  have hback : s.reg .rsp = v.reg .rsp - 128 := by
    rw [hsrsp, hcrsp, BitVec.sub_add_cancel]
  have hsame : SameAt (called image v).mem s.mem (v.reg .rsp - 128) 184 := by
    intro j hj
    have hat : v.reg .rsp - 128 + BitVec.ofNat 64 j - stackEnd k c =
        BitVec.ofNat 64 (k + 8 + j) := by
      have hv : v.reg .rsp - 128 = stackEnd k c + BitVec.ofNat 64 k + 8 := by
        rw [← hlow, hcrsp, BitVec.sub_add_cancel]
      rw [hv, BitVec.add_assoc, BitVec.add_assoc, BitVec.add_comm, BitVec.add_sub_cancel,
        BitVec.ofNat_add, BitVec.ofNat_add, BitVec.add_assoc]
      rfl
    refine (hsmem _ ?_).symm
    rw [hlow, BitVec.add_sub_cancel, hat, BitVec.toNat_ofNat, Nat.mod_eq_of_lt]
    · omega
    · rw [stackUse] at hk
      omega
  have hs' : OnStack s (generalRegisters v ++ [BitVec.ofNat 64 i,
      if ExcHasErrorCode i then c.errorCode else 0, c.rip, c.cs, c.rflags, c.reg .rsp,
      c.ss]) := by
    unfold OnStack
    rw [hback]
    exact hframe.congr hsame
  obtain ⟨hreturn, hrestored, hend⟩ := popaq_run image hs'
  refine ⟨_, rfl, fun r hr => (hrestored r hr).trans (hreg r hr), ?_, hreturn, fun x hx => ?_⟩
  · rw [hend, hback, hrsp]
    bv_omega
  · rw [run_mem (by decide), hsmem x ?_, hmem x hx]
    rw [hlow, BitVec.add_sub_cancel]
    exact le_trans (Nat.le_add_left _ _) hx

/-! ## Returning -/

theorem iretq_stack {p : Processor} {rip cs rflags rsp ss : U64}
    (h : OnStack p.toMachine [rip, cs, rflags, rsp, ss]) (hcs : p.codeOk (cs.setWidth 16))
    (hss : p.stackOk (ss.setWidth 16)) : p.iretq = some { p with
      reg := Function.update p.reg .rsp rsp, rip := rip, cs := cs.setWidth 16, rflags := rflags
      ss := ss.setWidth 16 } := by
  have hword : ∀ (j : ℕ) (v : U64), [rip, cs, rflags, rsp, ss][j]? = some v →
      p.stackWord j = v := by
    intro j v hj
    rw [Processor.stackWord, load, Stacked.get h (v := v.toNat) (by
      rw [List.getElem?_map, hj, Option.map_some]), BitVec.ofNat_toNat, BitVec.setWidth_eq]
  rw [Processor.iretq, hword 0 _ rfl, hword 1 _ rfl, hword 2 _ rfl, hword 3 _ rfl, hword 4 _ rfl]
  exact if_pos ⟨hcs, hss⟩

/-! ## Descriptors in memory -/

section tables

variable {l : Linked} {p : Processor}

theorem gdt_words : gdt.map BitVec.toNat = [0, 0x00a09a0000000000, 0x0080920000000000] := by decide

theorem Ready.gdtr_eq (h : Ready l p) : p.gdtr = setGdt l.gdt gdtLength := h.gdtr

theorem Ready.gdt_eq (h : Ready l p) : Stacked 8 p.mem l.gdt (Cpu.gdt.map BitVec.toNat) :=
  gdt_words ▸ h.gdt

theorem Ready.idtr_eq (h : Ready l p) : p.idtr = setIdt l.idt := h.idtr

theorem descriptor_gdt (hgdtr : p.gdtr = setGdt l.gdt gdtLength)
    (hgdt : Stacked 8 p.mem l.gdt (gdt.map BitVec.toNat)) {i : ℕ} {d : U64} (hi : i < 3)
    (hd : gdt[i]? = some d) : p.descriptor (BitVec.ofNat 16 (8 * i)) = some d := by
  have hload : load p.mem (l.gdt + BitVec.ofNat 64 (8 * i)) = d := by
    rw [load, hgdt.get (v := d.toNat) (by rw [List.getElem?_map, hd, Option.map_some]),
      BitVec.ofNat_toNat, BitVec.setWidth_eq]
  rw [← hload]
  obtain rfl | rfl | rfl : i = 0 ∨ i = 1 ∨ i = 2 := by omega
  all_goals
    rw [Processor.descriptor, hgdtr]
    rfl

theorem codeOk_gdt (hgdtr : p.gdtr = setGdt l.gdt gdtLength)
    (hgdt : Stacked 8 p.mem l.gdt (gdt.map BitVec.toNat)) : p.codeOk 8 := by
  have hd := descriptor_gdt hgdtr hgdt (i := 1) (by decide) rfl
  rw [Processor.codeOk]
  change ((p.descriptor (BitVec.ofNat 16 (8 * 1))).any _ : Bool) = true
  rw [hd]
  decide

theorem stackOk_gdt (hgdtr : p.gdtr = setGdt l.gdt gdtLength)
    (hgdt : Stacked 8 p.mem l.gdt (gdt.map BitVec.toNat)) : p.stackOk 16 := by
  have hd := descriptor_gdt hgdtr hgdt (i := 2) (by decide) rfl
  rw [Processor.stackOk]
  change ((p.descriptor (BitVec.ofNat 16 (8 * 2))).any _ : Bool) = true
  rw [hd]
  decide

theorem gate_idt (hidtr : p.idtr = setIdt l.idt) {i : ℕ} (hi : i < nInterrupts) :
    p.gate i = some (idtEntry p.mem l.idt i).gate := by
  have hlimit : (setIdt l.idt).limit.toNat = 4095 := rfl
  have hn : nInterrupts = 256 := rfl
  rw [Processor.gate, hidtr, hlimit, if_pos (by omega)]
  rfl

theorem label_vector (hl : ∀ i < nInterrupts, ∀ j < nInterrupts, l.vector i = l.vector j → i = j)
    {i : ℕ} (hi : i < nInterrupts) : l.label (l.vector i) = some i := by
  rw [Linked.label, List.find?_range_eq_some]
  refine ⟨decide_eq_true rfl, List.mem_range.2 hi, fun j hj => ?_⟩
  simp only [Bool.not_eq_true', decide_eq_false_iff_not]
  exact fun he => absurd (hl j (hj.trans hi) i hi he) hj.ne

/-- The tables are not where the stack is used. -/
theorem Ready.frame (hp : Ready l p) (hs : Safe l k p) {m : Memory}
    (hm : ∀ x, stackUse k ≤ (x - p.stackLow k).toNat → m x = p.mem x) :
    Ready l { p with mem := m } := by
  have hgdt : SameAt p.mem m l.gdt 24 := fun j hj => (hm _ (hs.gdt j hj)).symm
  have hidt : SameAt p.mem m l.idt 4096 := fun j hj => (hm _ (hs.idt j hj)).symm
  have hmagic : SameAt p.mem m (l.image.symbol .interruptMagic) 8 :=
    fun j hj => (hm _ (hs.magic j hj)).symm
  refine ⟨hp.gdtr, hp.gdt.congr hgdt, hp.idtr, fun i hi => ?_,
    (load_sameAt hmagic.symm).trans hp.magic, hp.cs, hp.ss⟩
  have hn : nInterrupts = 256 := rfl
  have hentry : SameAt p.mem m (l.idt + BitVec.ofNat 64 (16 * i)) 16 := hidt.sub (by omega)
  have hword1 : SameAt p.mem m (l.idt + BitVec.ofNat 64 (16 * i) + 8) 8 :=
    hentry.sub (d := 8) (by omega)
  rw [← hp.idt i hi, idtEntry, idtEntry, load_sameAt (hentry.mono (by omega)), load_sameAt hword1]

end tables

/-! ## Interrupts -/

section interrupts

variable {l : Linked} {p : Processor}
  (hl : ∀ i < nInterrupts, ∀ j < nInterrupts, l.vector i = l.vector j → i = j)
  (hh : Compiled k handler) (hk : stackUse k ≤ 2 ^ 64)

include hl hh hk

theorem takeInterrupt_resumes (hp : Ready l p) (hs : Safe l k p) {i : ℕ} (hi : i < nInterrupts)
    (errorCode : U64) : ∃ m, takeInterrupt l handler p (i, errorCode) = some { p with mem := m } ∧
      ∀ x, stackUse k ≤ (x - p.stackLow k).toNat → m x = p.mem x := by
  obtain ⟨t, hexec, hreg, hrsp, hstack, hmem⟩ := vector_resumes hh hk hi
    (c := p.interrupted errorCode) hp.magic hs.magic
  have hgate : p.gate i = some ⟨l.vector i, 8, 0, 14, 0, true, (0, false, 0)⟩ := by
    rw [gate_idt hp.idtr_eq hi, hp.idt i hi]
  let q : Processor := { p with
    toMachine := t, rip := l.vector i, cs := 8, rflags := p.rflags &&& ~~~gateFlags }
  have hq : Stacked 8 q.mem l.gdt (gdt.map BitVec.toNat) :=
    hp.gdt_eq.congr fun j hj => (hmem _ (hs.gdt j hj)).symm
  have hreg' : Function.update t.reg .rsp (p.reg .rsp) = p.reg := by
    funext r
    by_cases hr : r = .rsp
    · rw [hr, Function.update_self]
    · rw [Function.update_of_ne hr, hreg r hr]
      rfl
  have hreturn : q.iretq = some { p with mem := t.mem } := by
    have hcs : (p.cs.setWidth 64).setWidth 16 = p.cs := by
      rw [hp.cs]
      rfl
    have hss : (p.ss.setWidth 64).setWidth 16 = p.ss := by
      rw [hp.ss]
      rfl
    have hcode : q.codeOk ((p.cs.setWidth 64).setWidth 16) := by
      rw [hcs, hp.cs]
      exact codeOk_gdt hp.gdtr_eq hq
    have hdata : q.stackOk ((p.ss.setWidth 64).setWidth 16) := by
      rw [hss, hp.ss]
      exact stackOk_gdt hp.gdtr_eq hq
    rw [iretq_stack (p := q) hstack hcode hdata]
    change some ({ p with
      reg := Function.update t.reg .rsp (p.reg .rsp), mem := t.mem
      cs := (p.cs.setWidth 64).setWidth 16
      ss := (p.ss.setWidth 64).setWidth 16 } : Processor) = _
    rw [hreg', hcs, hss]
  refine ⟨t.mem, ?_, hmem⟩
  have hint : p.interrupt i errorCode = some { p with
      toMachine := (p.interrupted errorCode).raise i, rip := l.vector i, cs := 8
      rflags := p.rflags &&& ~~~gateFlags } := by
    rw [Processor.interrupt, hgate]
    exact if_pos ⟨rfl, rfl, rfl, codeOk_gdt hp.gdtr_eq hp.gdt_eq⟩
  rw [takeInterrupt, hint]
  change ((l.label (l.vector i)).bind fun label => _) = _
  rw [label_vector hl hi, Option.bind_some]
  change ((execLabel l.image handler i ((p.interrupted errorCode).raise i)).bind fun s => _) = _
  rw [hexec, Option.bind_some]
  exact hreturn

/-- Whatever interrupts come, each after the one before has returned, the processor is as it was. -/
theorem takeInterrupts_resume : ∀ (is : List (ℕ × U64)) (p : Processor), Ready l p → Safe l k p →
    (∀ x ∈ is, x.1 < nInterrupts) →
    ∃ m, takeInterrupts l handler p is = some { p with mem := m } ∧ Ready l { p with mem := m } ∧
      ∀ x, stackUse k ≤ (x - p.stackLow k).toNat → m x = p.mem x
  | [], p, hp, _, _ => ⟨p.mem, rfl, hp, fun _ _ => rfl⟩
  | y :: is, p, hp, hs, hy => by
    obtain ⟨hi, his⟩ := List.forall_mem_cons.1 hy
    obtain ⟨m, htake, hm⟩ := takeInterrupt_resumes hl hh hk hp hs hi y.2
    obtain ⟨m', htakes, hp', hm'⟩ := takeInterrupts_resume is _ (hp.frame hs hm) ⟨hs.1, hs.2, hs.3⟩ his
    refine ⟨m', ?_, hp', fun x hx => (hm' x hx).trans (hm x hx)⟩
    rw [takeInterrupts, List.foldlM_cons, htake]
    exact htakes

end interrupts

/-! ## The table in memory -/

section idt

variable {m : Memory} {idt : U64} {table : Idt}

theorem mem_zipIdx {x : IdtEntry × ℕ} :
    x ∈ table.toList.zipIdx ↔ ∃ h : x.2 < nInterrupts, table[x.2] = x.1 := by
  rw [List.mem_zipIdx_iff_getElem?, List.getElem?_eq_some_iff]
  simp

theorem mem_idtWords {i : ℕ} (hi : i < nInterrupts) {y : U64 × ℕ}
    (hy : y ∈ entryWords idt table[i] i) : y ∈ idtWords idt table :=
  List.mem_flatMap.2 ⟨(table[i], i), mem_zipIdx.2 ⟨hi, rfl⟩, hy⟩

/-- The entry has the words `2 * i` and `2 * i + 1` of the table. -/
theorem entryWords_index {ent : IdtEntry} {i : ℕ} {y : U64 × ℕ} (hy : y ∈ entryWords idt ent i) :
    ∃ j, j / 2 = i ∧ y.1 = idt + BitVec.ofNat 64 (8 * j) := by
  rw [entryWords, List.mem_cons, List.mem_singleton] at hy
  obtain rfl | rfl := hy
  · refine ⟨2 * i, by omega, ?_⟩
    rw [← Nat.mul_assoc]
  · refine ⟨2 * i + 1, by omega, ?_⟩
    rw [Nat.mul_succ, ← Nat.mul_assoc, BitVec.ofNat_add, BitVec.add_assoc]
    rfl

theorem apart_words {i j : ℕ} (hij : i ≠ j) (hi : i < 512) (hj : j < 512) :
    Apart (idt + BitVec.ofNat 64 (8 * i)) 8 (idt + BitVec.ofNat 64 (8 * j)) 8 :=
  apart_offset (by omega) (by omega) (by omega)

theorem idtWords_pairwise (idt : U64) (table : Idt) :
    (idtWords idt table).Pairwise fun y z => Apart y.1 8 z.1 8 := by
  have hn : nInterrupts = 256 := rfl
  have hindex : table.toList.zipIdx.Pairwise fun x z => x.2 < z.2 := by
    rw [← List.pairwise_map, List.zipIdx_map_snd]
    exact List.pairwise_lt_range'
  rw [idtWords, List.pairwise_flatMap]
  refine ⟨fun x hx => ?_, hindex.imp_of_mem fun {x z} hx hz hlt y hy y' hy' => ?_⟩
  · obtain ⟨hi, -⟩ := mem_zipIdx.1 hx
    have hapart := apart_offset (a := idt + BitVec.ofNat 64 (16 * x.2)) (i := 0) (n := 8) (j := 8)
      (k := 8) (by omega) (by omega) (by omega)
    rw [BitVec.add_zero] at hapart
    simpa [entryWords] using hapart
  · obtain ⟨hi, -⟩ := mem_zipIdx.1 hx
    obtain ⟨hj, -⟩ := mem_zipIdx.1 hz
    obtain ⟨i, hi', hat⟩ := entryWords_index hy
    obtain ⟨j, hj', hat'⟩ := entryWords_index hy'
    rw [hat, hat']
    exact apart_words (by omega) (by omega) (by omega)

theorem idtEntry_written {i : ℕ} (hi : i < nInterrupts) :
    idtEntry (writeAll 8 m (idtWords idt table)) idt i = table[i] := by
  have h : ∀ y ∈ entryWords idt table[i] i,
      readLE (writeAll 8 m (idtWords idt table)) y.1 8 = y.2 := by
    intro y hy
    refine writeAll_read (by decide) (idtWords_pairwise idt table) (mem_idtWords hi hy) ?_
    rw [entryWords, List.mem_cons, List.mem_singleton] at hy
    obtain rfl | rfl := hy <;> exact BitVec.isLt _
  have h0 := h _ (List.mem_cons_self ..)
  have h1 := h _ (List.mem_cons_of_mem _ List.mem_cons_self)
  rw [idtEntry, load, load, h0, h1]
  simp

theorem written_frame {x : U64} (hx : 4096 ≤ (x - idt).toNat) :
    writeAll 8 m (idtWords idt table) x = m x := by
  refine writeAll_frame fun y hy => ?_
  have hn : nInterrupts = 256 := rfl
  obtain ⟨z, hz, hy⟩ := List.mem_flatMap.1 hy
  obtain ⟨hi, -⟩ := mem_zipIdx.1 hz
  obtain ⟨j, hj, hat⟩ := entryWords_index hy
  rw [hat, sub_offset (by omega)]
  omega

end idt

/-! ## Segment selectors -/

/-- The machine when `init_segment_selectors` starts to push. -/
def selectorsPopped (p : Processor) : Interrupts.Machine :=
  let s := (p.set .rax (p.reg .rax &&& ~~~0xffff)).pop .rcx
  let s := s.set .rdi (p.reg .rdi <<< 3)
  let s := s.set .rax (p.reg .rsp + 8)
  s.set .rsi (p.reg .rsi <<< 3)

/-- The frame that it pushes. -/
def selectorsFrame (p : Processor) : List U64 :=
  [p.stackWord 0, p.reg .rsi <<< 3, p.rflags, p.reg .rsp + 8, p.reg .rdi <<< 3]

def selectorsPushed (p : Processor) : Interrupts.Machine :=
  (selectorsFrame p).foldr (fun v s => s.push v) (selectorsPopped p)

theorem selectors_fold (image : Image) (p : Processor) :
    initSegmentSelectorsCode.foldl (StubInstr.step image) p = { p with
      toMachine := selectorsPushed p, ds := 0, es := 0, fs := 0, gs := 0 } := by
  have hnull : (p.reg .rax &&& ~~~0xffff).setWidth 16 = (0 : BitVec 16) := by
    rw [show (0xffff : U64) = fieldMask 64 0 16 from rfl]
    refine BitVec.eq_of_getLsbD_eq fun i hi => ?_
    simp only [BitVec.getLsbD_setWidth, BitVec.getLsbD_and, BitVec.getLsbD_not,
      getLsbD_fieldMask]
    grind
  have hra : p.stackWord 0 = load p.mem (p.reg .rsp) := by
    rw [Processor.stackWord, Nat.mul_zero, BitVec.add_zero]
  rw [selectorsPushed, selectorsFrame, hra, ← hnull]
  rfl

theorem pushes_grow : ∀ (vs : List U64) (s : Interrupts.Machine), vs.length < 100 →
    Grows s (vs.foldr (fun v s => s.push v) s) (8 * vs.length) ∧
      OnStack (vs.foldr (fun v s => s.push v) s) vs ∧
      ∀ r ≠ .rsp, (vs.foldr (fun v s => s.push v) s).reg r = s.reg r
  | [], s, _ => ⟨⟨(BitVec.sub_zero _).symm, fun _ _ => rfl⟩, trivial, fun _ _ => rfl⟩
  | v :: vs, s, hlen => by
    rw [List.length_cons] at hlen
    obtain ⟨hgrows, hstack, hreg⟩ := pushes_grow vs s (by omega)
    refine ⟨hgrows.trans grows_push, hstack.push (by omega), fun r hr => ?_⟩
    rw [List.foldr_cons, Machine.push_reg hr, hreg r hr]

/-- The registers that `init_segment_selectors` leaves as they are. -/
def keptRegisters : List Reg :=
  [.rbp, .rbx, .rdx, .r8, .r9, .r10, .r11, .r12, .r13, .r14, .r15]

theorem selectors_return {l : Linked} {p : Processor} (hgdtr : p.gdtr = setGdt l.gdt gdtLength)
    (hgdt : Stacked 8 p.mem l.gdt (gdt.map BitVec.toNat))
    (hapart : Apart (p.reg .rsp - 32) 40 l.gdt 24)
    (hdi : (p.reg .rdi <<< 3).setWidth 16 = (16 : BitVec 16))
    (hsi : (p.reg .rsi <<< 3).setWidth 16 = (8 : BitVec 16)) :
    ∃ s : Interrupts.Machine, initSegmentSelectors p l.image = some { p with
        toMachine := s, rip := p.stackWord 0, cs := 8, ss := 16, ds := 0, es := 0, fs := 0, gs := 0 } ∧
      (∀ r ∈ keptRegisters, s.reg r = p.reg r) ∧ s.reg .rsp = p.reg .rsp + 8 ∧
      ∀ x, 40 ≤ (x - (p.reg .rsp - 32)).toNat → s.mem x = p.mem x := by
  obtain ⟨hgrows, hstack, hreg⟩ := pushes_grow (selectorsFrame p) (selectorsPopped p) (by
    rw [selectorsFrame]
    simp)
  have hrsp : (selectorsPopped p).reg .rsp = p.reg .rsp + 8 := rfl
  have hmem : (selectorsPopped p).mem = p.mem := rfl
  have hkept : ∀ r ∈ keptRegisters, (selectorsPopped p).reg r = p.reg r := by
    intro r hr
    cases r <;> first | exact absurd hr (by decide) | rfl
  rw [← selectorsPushed] at hgrows hstack hreg
  have hlow : (selectorsPushed p).reg .rsp = p.reg .rsp - 32 := by
    rw [hgrows.rsp, hrsp]
    change p.reg .rsp + 8 - 40 = _
    bv_omega
  have hpmem : ∀ x, 40 ≤ (x - (p.reg .rsp - 32)).toNat → (selectorsPushed p).mem x = p.mem x :=
    fun x hx => (hgrows.mem x (hlow ▸ hx)).trans (congrFun hmem x)
  have htables : Stacked 8 (selectorsPushed p).mem l.gdt (gdt.map BitVec.toNat) :=
    hgdt.congr fun j hj => (hpmem _ (hapart j hj)).symm
  let q : Processor :=
    { p with toMachine := selectorsPushed p, ds := 0, es := 0, fs := 0, gs := 0 }
  have hreturn := iretq_stack (p := q) hstack (by
    rw [hsi]
    exact codeOk_gdt hgdtr htables) (by
    rw [hdi]
    exact stackOk_gdt hgdtr htables)
  rw [hdi, hsi] at hreturn
  rw [initSegmentSelectors, selectors_fold]
  refine ⟨⟨Function.update q.reg .rsp (p.reg .rsp + 8), q.mem⟩, hreturn, fun r hr => ?_,
    Function.update_self Reg.rsp _ q.reg, hpmem⟩
  have hr' : r ≠ .rsp := by
    rintro rfl
    exact absurd hr (by decide)
  exact (Function.update_of_ne hr' _ _).trans ((hreg r hr').trans (hkept r hr))

/-! ## `init_cpu` -/

theorem linked_vectorTable (l : Linked) {i : ℕ} (hi : i < nInterrupts) :
    l.vectorTable[i] = l.vector i := by
  rw [Linked.vectorTable, Vector.getElem_ofFn, List.getD_eq_getElem?_getD, vectorTable_get hi]
  rfl

theorem initIdt_entry (l : Linked) (table : Idt) {i : ℕ} (hi : i < nInterrupts) :
    ((initIdt l.vectorTable table)[i]).gate = ⟨l.vector i, 8, 0, 14, 0, true, (0, false, 0)⟩ := by
  rw [initIdt, initIdtFrom_getElem l.vectorTable 0 table hi, if_pos (Nat.zero_le _),
    initIdtEntry_gate, linked_vectorTable l hi]

theorem or_eq_append (x y : BitVec 32) :
    (x.setWidth 64 <<< 32) ||| y.setWidth 64 = x ++ y := by
  ext i hi
  simp only [BitVec.getElem_or, BitVec.getElem_shiftLeft, BitVec.getElem_setWidth]
  grind

theorem initApic_spec (hw : Hardware) (data : BootloaderData) :
    IsApic hw data (initApic hw data) := by
  refine ⟨congrArg (· &&& apicBaseMask) (or_eq_append _ _), rfl, ?_⟩
  apply BitVec.eq_of_toNat_eq
  simp [initApic, Hardware.getCpuid, cpuidVersion]

section initCpu

variable {l : Linked} {p : Processor} (hgdt : Stacked 8 p.mem l.gdt (gdt.map BitVec.toNat))
  (hmagic : load p.mem (l.image.symbol .interruptMagic) = interruptMagic)
  (hidtGdt : Apart l.idt 4096 l.gdt 24)
  (hidtMagic : Apart l.idt 4096 (l.image.symbol .interruptMagic) 8)

include hgdt hmagic hidtGdt hidtMagic

/-- The rest of `init_cpu` when the segment selectors are set. -/
theorem idt_ready (hgdtr : p.gdtr = setGdt l.gdt gdtLength) (hcs : p.cs = 8) (hss : p.ss = 16)
    (table : Idt) : Ready l { p with
      mem := writeAll 8 p.mem (idtWords l.idt (initIdt l.vectorTable table))
      idtr := setIdt l.idt } := by
  refine ⟨hgdtr, gdt_words ▸ hgdt.congr fun j hj => (written_frame (hidtGdt j hj)).symm, rfl,
    fun i hi => ?_, ?_, hcs, hss⟩
  · rw [idtEntry_written hi, initIdt_entry l table hi]
  · exact (load_sameAt fun j hj => written_frame (hidtMagic j hj)).trans hmagic

end initCpu

/-! ## A processor -/

/-- The tables and the magic, page by page. -/
def lowPages : Linked where
  image := ⟨fun | .interruptMagic => 0x9000 | _ => 0, 0x40⟩
  vector i := 0x10000 + BitVec.ofNat 64 (16 * i)
  gdt := 0x8000
  idt := 0xa000

def lowMemory : Memory := writeAll 8 (fun _ => 0)
  [(0x8000, 0), (0x8008, 0xa09a0000000000), (0x8010, 0x80920000000000),
    (0x9000, interruptMagic.toNat)]

/-- In ring 0 with the firmware's selectors. -/
def fresh : Processor where
  reg _ := 0x7000
  mem := lowMemory
  rip := 0x1234
  rflags := 0x202
  cs := 0x38
  ss := 0x30
  ds := 0x30
  es := 0x30
  fs := 0x30
  gs := 0x30
  gdtr := ⟨0, 0⟩
  idtr := ⟨0, 0⟩

theorem lowMemory_gdt : Stacked 8 lowMemory lowPages.gdt (gdt.map BitVec.toNat) :=
  ⟨by decide, by decide, by decide, trivial⟩

theorem lowMemory_magic : load lowMemory (lowPages.image.symbol .interruptMagic) =
    interruptMagic := by decide

/-- A handler that needs no stack of its own. -/
def bareHandler : Handler := fun s =>
  if (interruptHandler (.ofMemory s.mem (s.reg .rdi)) (s.reg .rsi)).isSome then
    some (s.set .rsp (s.reg .rsp + 8))
  else none

theorem bareHandler_compiled : Compiled 0 bareHandler := by
  refine ⟨fun s h => ?_, fun s h => ⟨_, if_pos h, fun r hr => ?_, Machine.set_self, fun _ _ => rfl⟩⟩
  · rw [bareHandler, h]
    rfl
  · refine Machine.set_of_ne ?_
    rintro rfl
    exact absurd hr (by decide)

/-- When `init_cpu` is done. -/
def started : Processor := { fresh with
  mem := writeAll 8 lowMemory (idtWords lowPages.idt (initIdt lowPages.vectorTable (idtOf lowMemory
    lowPages.idt)))
  gdtr := setGdt lowPages.gdt gdtLength
  idtr := setIdt lowPages.idt
  cs := 8
  ss := 16 }

/-- The interrupts of `main2`, and a page fault. -/
theorem takeInterrupts_resume_started : ∃ m, takeInterrupts lowPages bareHandler started
    [(40, 0), (3, 0), (14, 2)] = some { started with mem := m } ∧ m 0x7000 = started.mem 0x7000 := by
  have hinj : ∀ i < nInterrupts, ∀ j < nInterrupts, lowPages.vector i = lowPages.vector j → i = j := by
    intro i hi j hj h
    have hn : nInterrupts = 256 := rfl
    have := congrArg BitVec.toNat h
    simp only [lowPages, BitVec.toNat_add, BitVec.toNat_ofNat] at this
    omega
  have hready : Ready lowPages started :=
    idt_ready (p := { fresh with gdtr := setGdt lowPages.gdt gdtLength, cs := 8, ss := 16 })
      lowMemory_gdt lowMemory_magic (by decide) (by decide) rfl rfl rfl _
  have hsafe : Safe lowPages 0 started :=
    ⟨apart_of_sub (by decide) (by decide), apart_of_sub (by decide) (by decide),
      apart_of_sub (by decide) (by decide)⟩
  obtain ⟨m, hm, -, hmem⟩ := takeInterrupts_resume hinj bareHandler_compiled (by decide)
    [(40, 0), (3, 0), (14, 2)] started hready hsafe (by decide)
  exact ⟨m, hm, hmem 0x7000 (by decide)⟩

end Cpu

end SctOs
