import SctOs.Interrupts
import SctOs.Proofs.Stacks
import SctOs.Proofs.Pages

/-!
# Interrupts

Pushes and pops of registers move words between registers and the stack (`pushes_run`, `pops_run`).
So a vector and the stub build the frame of an interrupt, and a handler that leaves it as it is
returns to what was interrupted (`interrupt_returns`).
-/

namespace SctOs

namespace Interrupts

open Bytes

variable {image : Image} {handler : Handler} {jump : Symbol → Machine → Option Machine}
  {s t : Machine} {ws : List U64} {v : U64} {r : Reg}

/-! ## Pushes and pops -/

@[simp] theorem Machine.set_self : (s.set r v).reg r = v := Function.update_self _ _ s.reg

theorem Machine.set_of_ne {q : Reg} (hq : q ≠ r) : (s.set r v).reg q = s.reg q :=
  Function.update_of_ne hq _ _

theorem Machine.push_reg (hr : r ≠ .rsp) : (s.push v).reg r = s.reg r := set_of_ne hr

@[simp] theorem Machine.push_rsp : (s.push v).reg .rsp = s.reg .rsp - 8 :=
  (set_self : (s.set .rsp (s.reg .rsp - 8)).reg .rsp = _)

theorem Machine.pop_rsp (hr : r ≠ .rsp) : (s.pop r).reg .rsp = s.reg .rsp + 8 := by
  rw [Machine.pop, set_of_ne hr.symm, set_self]

theorem Machine.pop_reg {q : Reg} (hq : q ≠ r) (hsp : q ≠ .rsp) : (s.pop r).reg q = s.reg q := by
  rw [Machine.pop, set_of_ne hq, set_of_ne hsp]

theorem OnStack.push (h : OnStack s ws) (hlen : ws.length < 1000) :
    OnStack (s.push v) (v :: ws) := by
  unfold OnStack
  rw [Machine.push_rsp]
  exact Stacked.push h (by rw [List.length_map]; omega) v.isLt

theorem OnStack.pop (h : OnStack s (v :: ws)) (hr : r ≠ .rsp) :
    OnStack (s.pop r) ws ∧ (s.pop r).reg r = v := by
  obtain ⟨hv, hws⟩ := h
  constructor
  · unfold OnStack
    rw [Machine.pop_rsp hr]
    exact hws
  · rw [Machine.pop, Machine.set_self, load, hv, BitVec.ofNat_toNat, BitVec.setWidth_eq]

theorem OnStack.drop {us : List U64} {n : U64} (h : OnStack s (us ++ ws))
    (hn : n = BitVec.ofNat 64 (8 * us.length)) : OnStack (s.set .rsp (s.reg .rsp + n)) ws := by
  unfold OnStack at h ⊢
  rw [List.map_append] at h
  rw [Machine.set_self, hn, ← List.length_map BitVec.toNat]
  exact h.drop

theorem run_cons (i : Instr) (is : List Instr) :
    run image s (i :: is) = run image (i.step image s) is := rfl

theorem pushes_run (image : Image) : ∀ {rs : List Reg} {s : Machine} {ws : List U64},
    .rsp ∉ rs → OnStack s ws → rs.length + ws.length < 1000 →
    OnStack (run image s (rs.map .push)) ((rs.map s.reg).reverse ++ ws) ∧
      (∀ r ≠ .rsp, (run image s (rs.map .push)).reg r = s.reg r) ∧
      (run image s (rs.map .push)).reg .rsp = s.reg .rsp - BitVec.ofNat 64 (8 * rs.length)
  | [], s, ws, _, h, _ => ⟨h, fun _ _ => rfl, (BitVec.sub_zero _).symm⟩
  | r :: rs, s, ws, hrs, h, hlen => by
    rw [List.length_cons] at hlen
    obtain ⟨hr, hrs⟩ : r ≠ .rsp ∧ .rsp ∉ rs := by simpa [eq_comm] using hrs
    have hregs : rs.map (s.push (s.reg r)).reg = rs.map s.reg :=
      List.map_congr_left fun q hq => Machine.push_reg fun hsp => hrs (hsp ▸ hq)
    obtain ⟨hstack, hreg, hrsp⟩ := pushes_run image hrs (h.push (v := s.reg r) (by omega))
      (by rw [List.length_cons]; omega)
    rw [List.map_cons, run_cons]
    refine ⟨?_, fun q hq => (hreg q hq).trans (Machine.push_reg hq), hrsp.trans ?_⟩
    · rw [hregs] at hstack
      rw [List.map_cons, List.reverse_cons, List.append_assoc]
      exact hstack
    · rw [Machine.push_rsp, List.length_cons, Nat.mul_succ, BitVec.ofNat_add]
      generalize BitVec.ofNat 64 (8 * rs.length) = n
      bv_omega

theorem pops_run (image : Image) : ∀ {rs : List Reg} {s : Machine} {us ws : List U64},
    .rsp ∉ rs → rs.Nodup → us.length = rs.length → OnStack s (us ++ ws) →
    OnStack (run image s (rs.map .pop)) ws ∧
      List.Forall₂ (fun r v => (run image s (rs.map .pop)).reg r = v) rs us ∧
      (∀ r ∉ rs, r ≠ .rsp → (run image s (rs.map .pop)).reg r = s.reg r) ∧
      (run image s (rs.map .pop)).reg .rsp = s.reg .rsp + BitVec.ofNat 64 (8 * rs.length)
  | [], s, us, ws, _, _, hlen, h => by
    obtain rfl := List.length_eq_zero_iff.1 hlen
    exact ⟨h, .nil, fun _ _ _ => rfl, (BitVec.add_zero _).symm⟩
  | r :: rs, s, [], ws, _, _, hlen, _ => by cases hlen
  | r :: rs, s, u :: us, ws, hrs, hnodup, hlen, h => by
    obtain ⟨hr, hrs⟩ : r ≠ .rsp ∧ .rsp ∉ rs := by simpa [eq_comm] using hrs
    obtain ⟨hnew, hnodup⟩ := List.nodup_cons.1 hnodup
    obtain ⟨hpop, hu⟩ := h.pop hr
    obtain ⟨hstack, hregs, hrest, hrsp⟩ :=
      pops_run image hrs hnodup (Nat.succ.inj hlen) hpop
    rw [List.map_cons, run_cons]
    refine ⟨hstack, .cons ((hrest r hnew hr).trans hu) hregs, fun q hq hsp => ?_, hrsp.trans ?_⟩
    · rw [List.mem_cons, not_or] at hq
      exact (hrest q hq.2 hsp).trans (Machine.pop_reg hq.1 hsp)
    · change (s.pop r).reg .rsp + _ = _
      rw [Machine.pop_rsp hr, List.length_cons, Nat.mul_succ, BitVec.ofNat_add]
      generalize BitVec.ofNat 64 (8 * rs.length) = n
      bv_omega

/-! ## Code -/

/-- It goes on to the next instruction. -/
def Instr.simple : Instr → Bool
  | .call _ | .jmp _ | .iretq => false
  | _ => true

theorem exec_append {rest : List Instr} : ∀ {is : List Instr} {s : Machine},
    (∀ i ∈ is, i.simple) → exec image handler jump (is ++ rest) s =
      exec image handler jump rest (run image s is)
  | [], s, _ => rfl
  | i :: is, s, h => by
    obtain ⟨hi, his⟩ := List.forall_mem_cons.1 h
    rw [run_cons, ← exec_append his]
    cases i <;> first | rfl | cases hi

/-- The machine when the stub calls the handler. -/
def called (image : Image) (s : Machine) : Machine :=
  (run image s (pushaq ++ [.movSymbol .interruptMagic .rsi, .mov .rsp .rdi])).push
    image.returnAddress

theorem exec_stub (s : Machine) : exec image handler jump interruptHandlerStub s =
    (handler (called image s)).map fun s' => run image s' (popaq ++ [.add 16 .rsp]) := by
  have hcode : interruptHandlerStub = (pushaq ++ [.movSymbol .interruptMagic .rsi,
    .mov .rsp .rdi]) ++ .call .interruptHandler :: ((popaq ++ [.add 16 .rsp]) ++ [.iretq]) := rfl
  rw [hcode, exec_append (by decide)]
  change (handler (called image s)).bind (fun s' =>
    exec image handler jump ((popaq ++ [.add 16 .rsp]) ++ [.iretq]) s') = _
  have hpop : ∀ s', exec image handler jump ((popaq ++ [.add 16 .rsp]) ++ [.iretq]) s' =
      some (run image s' (popaq ++ [.add 16 .rsp])) := fun s' => exec_append (by decide)
  simp only [hpop]
  exact Option.map_eq_bind.symm

/-- What a vector pushes. -/
def vectorPushes (i : ℕ) : List Instr :=
  (if ExcHasErrorCode i then [] else [.pushq 0]) ++ [.pushq (BitVec.ofNat 32 i)]

theorem vectorLines_eq (i : ℕ) : vectorLines i =
    .label i :: (vectorPushes i ++ [Instr.jmp .interruptHandlerStub]).map .instr := by
  unfold vectorLines vectorPushes
  split_ifs <;> rfl

theorem mem_vectorLines {line : Line} {i : ℕ} (h : line ∈ vectorLines i) :
    line = .label i ∨ ∃ instr, line = .instr instr := by
  rw [vectorLines_eq, List.mem_cons, List.mem_map] at h
  exact h.imp_right fun ⟨instr, _, hline⟩ => ⟨instr, hline.symm⟩

theorem codeAt_vector {i : ℕ} (hi : i < 256) : ∃ rest, codeAt genVectors i =
    vectorPushes i ++ .jmp .interruptHandlerStub :: rest := by
  obtain ⟨n, hn⟩ : ∃ n, nInterrupts = i + (n + 1) := ⟨256 - i - 1, by unfold nInterrupts; omega⟩
  obtain ⟨tail, htail⟩ : ∃ tail, List.range nInterrupts = List.range i ++ i :: tail :=
    ⟨_, by rw [hn, List.range_add, List.range_succ_eq_map, List.map_cons, Nat.add_zero]⟩
  -- No vector before it has its label.
  have hbefore : ∀ line ∈ (List.range i).flatMap vectorLines, line ≠ .label i := by
    intro line hline
    obtain ⟨j, hj, hline⟩ := List.mem_flatMap.1 hline
    have hlt := List.mem_range.1 hj
    rcases mem_vectorLines hline with rfl | ⟨instr, rfl⟩
    · simp
      omega
    · simp
  have hlines : (List.range nInterrupts).flatMap vectorLines =
      (List.range i).flatMap vectorLines ++ (vectorLines i ++ tail.flatMap vectorLines) := by
    rw [htail, List.flatMap_append, List.flatMap_cons]
  have hinstrs : ∀ is : List Instr, (is.map Line.instr).filterMap Line.instr? = is := fun is => by
    rw [List.filterMap_map]
    exact List.filterMap_some
  rw [codeAt, genVectors, hlines, List.append_assoc, List.append_assoc,
    List.dropWhile_append_of_pos (by simpa using hbefore), vectorLines_eq, List.cons_append,
    List.dropWhile_cons_of_neg (by simp), List.filterMap_cons_none rfl, List.filterMap_append,
    hinstrs, List.append_assoc, List.singleton_append]
  exact ⟨_, rfl⟩

theorem vectorTable_get {i : ℕ} (hi : i < 256) : (vectorTable genVectors)[i]? = some i := by
  have hcode : ((List.range nInterrupts).flatMap vectorLines).filterMap Line.quad? = [] := by
    refine List.filterMap_eq_nil_iff.2 fun line hline => ?_
    obtain ⟨j, -, hline⟩ := List.mem_flatMap.1 hline
    rcases mem_vectorLines hline with rfl | ⟨instr, rfl⟩ <;> rfl
  rw [vectorTable, genVectors, List.filterMap_append, hcode, List.nil_append, List.filterMap_map]
  change (List.filterMap some (List.range 256))[i]? = some i
  rw [List.filterMap_some, List.getElem?_range hi]

theorem exec_vector (image : Image) (handler : Handler) {i : ℕ} (hi : i < 256) (s : Machine) :
    execVector image handler i s = (handler (called image (run image s (vectorPushes i)))).map fun s' =>
      run image s' (popaq ++ [.add 16 .rsp]) := by
  obtain ⟨rest, hcode⟩ := codeAt_vector hi
  have hsimple : ∀ j ∈ vectorPushes i, j.simple := by
    unfold vectorPushes
    split_ifs <;> simp [Instr.simple]
  unfold execVector
  rw [vectorTable_get hi, Option.bind_eq_bind, Option.bind_some, hcode, exec_append hsimple]
  exact exec_stub _

/-! ## The frame -/

/-- The general registers as `pushaq` leaves them, with the stack pointer before it. -/
def generalRegisters (s : Machine) : List U64 :=
  [s.reg .rdi, s.reg .rsi, s.reg .rbp, s.reg .rsp, s.reg .rbx, s.reg .rdx, s.reg .rcx, s.reg .rax,
    s.reg .r8, s.reg .r9, s.reg .r10, s.reg .r11, s.reg .r12, s.reg .r13, s.reg .r14, s.reg .r15]

theorem OnStack.set (h : OnStack s ws) (hr : r ≠ .rsp) : OnStack (s.set r v) ws := by
  unfold OnStack
  rw [Machine.set_of_ne hr.symm]
  exact h

/-- What `pushaq` pushes after it has put the stack pointer into `r15`. -/
def savedRegisters : List Reg :=
  [.r14, .r13, .r12, .r11, .r10, .r9, .r8, .rax, .rcx, .rdx, .rbx, .r15, .rbp, .rsi, .rdi]

/-- The first register is on the stack, and the stack pointer from before is in its place. -/
def started (s : Machine) : Machine := (s.push (s.reg .r15)).set .r15 (s.reg .rsp)

theorem pushaq_start : run image s pushaq = run image (started s) (savedRegisters.map .push) := by
  have hsp : (s.push (s.reg .r15)).reg .rsp + 8 = s.reg .rsp := by
    rw [Machine.push_rsp, BitVec.sub_add_cancel]
  have hlea : (Instr.lea 8 .rsp .r15).step image (s.push (s.reg .r15)) = started s :=
    congrArg ((s.push (s.reg .r15)).set .r15) hsp
  have hcode : pushaq = .push .r15 :: .lea 8 .rsp .r15 :: savedRegisters.map .push := rfl
  rw [hcode, run_cons, run_cons, ← hlea, Instr.step]

theorem saved_eq : (savedRegisters.map (started s).reg).reverse ++ [s.reg .r15] =
    generalRegisters s := by
  have hreg : ∀ q, q ≠ .rsp → q ≠ .r15 → (started s).reg q = s.reg q := fun q hsp hq =>
    (Machine.set_of_ne hq).trans (Machine.push_reg hsp)
  have h15 : (started s).reg .r15 = s.reg .rsp := Machine.set_self
  simp [savedRegisters, generalRegisters, hreg, h15]

theorem pushaq_run (image : Image) (h : OnStack s ws) (hlen : ws.length < 100) :
    OnStack (run image s pushaq) (generalRegisters s ++ ws) ∧
      (run image s pushaq).reg .rsp = s.reg .rsp - 128 := by
  have hstart : OnStack (started s) (s.reg .r15 :: ws) := (h.push (by omega)).set (by decide)
  have hsaved : savedRegisters.length = 15 := rfl
  obtain ⟨hstack, -, hrsp⟩ := pushes_run image (show .rsp ∉ savedRegisters by decide) hstart (by
    rw [List.length_cons]
    omega)
  rw [List.append_cons, saved_eq] at hstack
  rw [pushaq_start]
  refine ⟨hstack, hrsp.trans ?_⟩
  rw [hsaved, started, Machine.set_of_ne (by decide), Machine.push_rsp]
  bv_omega

theorem run_append (is js : List Instr) : run image s (is ++ js) = run image (run image s is) js :=
  List.foldl_append

/-- The frame is where the handler is told, and its return address is below. -/
theorem called_run (image : Image) (h : OnStack s ws) (hlen : ws.length < 100) :
    Stacked 8 (called image s).mem (s.reg .rsp - 128)
      ((generalRegisters s ++ ws).map BitVec.toNat) ∧
      (called image s).reg .rdi = s.reg .rsp - 128 ∧
      (called image s).reg .rsp = s.reg .rsp - 128 - 8 := by
  obtain ⟨hstack, hrsp⟩ := pushaq_run image h hlen
  generalize hp : run image s pushaq = p at hstack hrsp
  obtain ⟨magic, hcalled⟩ : ∃ magic, called image s =
      ((p.set .rsi magic).set .rdi ((p.set .rsi magic).reg .rsp)).push image.returnAddress :=
    ⟨load p.mem (image.symbol .interruptMagic), by rw [called, run_append, hp]; rfl⟩
  have hmagic : (p.set .rsi magic).reg .rsp = p.reg .rsp := Machine.set_of_ne (by decide)
  rw [hmagic] at hcalled
  have hargs : OnStack ((p.set .rsi magic).set .rdi (p.reg .rsp)) (generalRegisters s ++ ws) :=
    (hstack.set (by decide)).set (by decide)
  have hlen' : (generalRegisters s ++ ws).length < 1000 := by
    rw [List.length_append]
    change 16 + _ < _
    omega
  obtain ⟨-, hframe⟩ := hargs.push (v := image.returnAddress) hlen'
  have hsp : (called image s).reg .rsp = p.reg .rsp - 8 := by
    rw [hcalled, Machine.push_rsp, Machine.set_of_ne (by decide), hmagic]
  have hback : p.reg .rsp - 8 + BitVec.ofNat 64 8 = p.reg .rsp := BitVec.sub_add_cancel ..
  rw [← hcalled, hsp, hback, hrsp] at hframe
  refine ⟨hframe, ?_, hsp.trans (by rw [hrsp])⟩
  · rw [hcalled, Machine.push_reg (by decide), Machine.set_self, hrsp]

theorem frame_ofMemory {m : Memory} {a n code rip cs rflags rsp ss : U64}
    (h : Stacked 8 m a ((generalRegisters s ++ [n, code, rip, cs, rflags, rsp, ss]).map
      BitVec.toNat)) : InterruptFrame.ofMemory m a =
        ⟨.of s.reg (s.reg .rsp), n, code, rip, cs, rflags, rsp, ss⟩ := by
  have hget : ∀ (i : ℕ) (v : U64), (generalRegisters s ++
      [n, code, rip, cs, rflags, rsp, ss])[i]? = some v →
        load m (a + BitVec.ofNat 64 (8 * i)) = v := by
    intro i v hi
    rw [load, h.get (v := v.toNat) (by rw [List.getElem?_map, hi, Option.map_some]),
      BitVec.ofNat_toNat, BitVec.setWidth_eq]
  have h0 := hget 0 _ rfl
  rw [Nat.mul_zero, BitVec.add_zero] at h0
  rw [InterruptFrame.ofMemory, X8664Registers.ofMemory, X8664Registers.of,
    InterruptFrame.mk.injEq, X8664Registers.mk.injEq]
  exact ⟨⟨h0, hget 1 _ rfl, hget 2 _ rfl, hget 3 _ rfl, hget 4 _ rfl, hget 5 _ rfl, hget 6 _ rfl,
    hget 7 _ rfl, hget 8 _ rfl, hget 9 _ rfl, hget 10 _ rfl, hget 11 _ rfl, hget 12 _ rfl,
    hget 13 _ rfl, hget 14 _ rfl, hget 15 _ rfl⟩, hget 16 _ rfl, hget 17 _ rfl, hget 18 _ rfl,
    hget 19 _ rfl, hget 20 _ rfl, hget 21 _ rfl, hget 22 _ rfl⟩

/-! ## The way back -/

/-- What `popaq` pops before and after it skips a word. -/
def firstRegisters : List Reg := [.rdi, .rsi, .rbp]

def lastRegisters : List Reg :=
  [.rbx, .rdx, .rcx, .rax, .r8, .r9, .r10, .r11, .r12, .r13, .r14, .r15]

theorem mem_registers (hr : r ≠ .rsp) : r ∈ firstRegisters ∨ r ∈ lastRegisters := by
  cases r <;> simp [firstRegisters, lastRegisters] at hr ⊢

theorem pops_restore (image : Image) {rs : List Reg} {q : Machine} (hrs : .rsp ∉ rs)
    (hnodup : rs.Nodup) (h : OnStack t (rs.map q.reg ++ ws)) :
    OnStack (run image t (rs.map .pop)) ws ∧
      (∀ r ∈ rs, (run image t (rs.map .pop)).reg r = q.reg r) ∧
      (∀ r ∉ rs, r ≠ .rsp → (run image t (rs.map .pop)).reg r = t.reg r) ∧
      (run image t (rs.map .pop)).reg .rsp = t.reg .rsp + BitVec.ofNat 64 (8 * rs.length) := by
  obtain ⟨hstack, hregs, hrest⟩ := pops_run image hrs hnodup (List.length_map ..) h
  rw [List.forall₂_map_right_iff, List.forall₂_same] at hregs
  exact ⟨hstack, hregs, hrest⟩

theorem popaq_run (image : Image) {n code : U64}
    (h : OnStack t (generalRegisters s ++ n :: code :: ws)) :
    OnStack (run image t (popaq ++ [.add 16 .rsp])) ws ∧
      (∀ r ≠ .rsp, (run image t (popaq ++ [.add 16 .rsp])).reg r = s.reg r) ∧
      (run image t (popaq ++ [.add 16 .rsp])).reg .rsp = t.reg .rsp + 144 := by
  have hcode : popaq ++ [.add 16 .rsp] = firstRegisters.map .pop ++
      (.add 8 .rsp :: (lastRegisters.map .pop ++ [.add 16 .rsp])) := rfl
  have hfirst : OnStack t (firstRegisters.map s.reg ++
      ([s.reg .rsp] ++ (lastRegisters.map s.reg ++ ([n, code] ++ ws)))) := h
  obtain ⟨ha, hregs, -, harsp⟩ := pops_restore image (by decide) (by decide) hfirst
  rw [hcode, run_append, run_cons, run_append]
  generalize run image t (firstRegisters.map .pop) = a at *
  have hb := ha.drop (n := 8) rfl
  obtain ⟨hc, hlast, hrest, hcrsp⟩ := pops_restore image (by decide) (by decide) hb
  have hstep : (Instr.add 8 .rsp).step image a = a.set .rsp (a.reg .rsp + 8) := rfl
  rw [hstep]
  generalize hbc : run image (a.set .rsp (a.reg .rsp + 8)) (lastRegisters.map .pop) = c at *
  have hend : run image c [.add 16 .rsp] = c.set .rsp (c.reg .rsp + 16) := rfl
  rw [hend]
  refine ⟨hc.drop rfl, fun r hr => ?_, ?_⟩
  · rw [Machine.set_of_ne hr]
    rcases mem_registers hr with hmem | hmem
    · have hnot : r ∉ lastRegisters := by
        revert hmem
        cases r <;> decide
      rw [hrest r hnot hr, Machine.set_of_ne hr, hregs r hmem]
    · exact hlast r hmem
  · rw [Machine.set_self, hcrsp, Machine.set_self, harsp]
    change t.reg .rsp + 24 + 8 + 96 + 16 = _
    bv_omega

/-! ## Interrupts -/

theorem signExtend_vector {i : ℕ} (hi : i < 256) :
    (BitVec.ofNat 32 i).signExtend 64 = BitVec.ofNat 64 i := by
  have hmsb : (BitVec.ofNat 32 i).msb = false := by
    rw [BitVec.msb_eq_false_iff_two_mul_lt, BitVec.toNat_ofNat]
    omega
  rw [BitVec.signExtend_eq_setWidth_of_msb_false hmsb, BitVec.setWidth_ofNat_of_le_of_lt]
  · omega
  · omega

/-- The CPU and the vector together push the number and an error code. -/
theorem raised_run (image : Image) {i : ℕ} (hi : i < 256) (c : Interrupted) :
    OnStack (run image (c.raise i) (vectorPushes i)) [BitVec.ofNat 64 i,
      if ExcHasErrorCode i then c.errorCode else 0, c.rip, c.cs, c.rflags, c.reg .rsp, c.ss] ∧
      (∀ r ≠ .rsp, (run image (c.raise i) (vectorPushes i)).reg r = c.reg r) ∧
      (run image (c.raise i) (vectorPushes i)).reg .rsp = c.returnFrame - 16 := by
  let s₀ : Machine := ⟨Function.update c.reg .rsp (c.stack &&& ~~~15), c.mem⟩
  have hsp : s₀.reg .rsp = c.stack &&& ~~~15 := Function.update_self Reg.rsp _ c.reg
  have hreg : ∀ r ≠ .rsp, s₀.reg r = c.reg r := fun r hr => Function.update_of_ne hr _ _
  have h₀ : OnStack s₀ [] := trivial
  have hrun : run image (c.raise i) (vectorPushes i) =
      ((((((s₀.push c.ss).push (c.reg .rsp)).push c.rflags).push c.cs).push c.rip).push
        (if ExcHasErrorCode i then c.errorCode else 0)).push (BitVec.ofNat 64 i) := by
    rw [← signExtend_vector hi, vectorPushes, Interrupted.raise]
    split_ifs <;> rfl
  rw [hrun]
  refine ⟨?_, fun r hr => ?_, ?_⟩
  · exact ((((((h₀.push (by simp)).push (by simp)).push (by simp)).push (by simp)).push
      (by simp)).push (by simp)).push (by simp)
  · simp only [Machine.push_reg hr, hreg r hr]
  · simp only [Machine.push_rsp, hsp, Interrupted.returnFrame]
    bv_omega

theorem interrupt_returns (image : Image) {i : ℕ} (hi : i < nInterrupts) (c : Interrupted) :
    ∃ (called : Machine) (finish : Machine → Machine),
      (∀ handler, execVector image handler i (c.raise i) = (handler called).map finish) ∧
      InterruptFrame.ofMemory called.mem (called.reg .rdi) =
        c.frame i (called.reg .rdi + 128) ∧
      ∀ s, Obeys called s → (∀ r ≠ .rsp, (finish s).reg r = c.reg r) ∧
        (finish s).reg .rsp = c.returnFrame ∧
        OnStack (finish s) [c.rip, c.cs, c.rflags, c.reg .rsp, c.ss] := by
  obtain ⟨hstack, hreg, hrsp⟩ := raised_run image hi c
  have hexec := fun handler => exec_vector image handler hi (c.raise i)
  generalize run image (c.raise i) (vectorPushes i) = v at *
  obtain ⟨hframe, hrdi, hcrsp⟩ := called_run image hstack (by simp)
  have hregs : X8664Registers.of v.reg (v.reg .rsp) =
      .of c.reg ((called image v).reg .rdi + 128) := by
    have hback : (called image v).reg .rdi + 128 = v.reg .rsp := by
      rw [hrdi, BitVec.sub_add_cancel]
    rw [hback]
    simp [X8664Registers.of, hreg]
  refine ⟨_, _, hexec, ?_, fun s hs => ?_⟩
  · rw [hrdi, frame_ofMemory hframe, hregs, hrdi]
    rfl
  · have hback : s.reg .rsp = v.reg .rsp - 128 := by
      rw [hs.rsp, hcrsp, BitVec.sub_add_cancel]
    have hs' : OnStack s (generalRegisters v ++ [BitVec.ofNat 64 i,
        if ExcHasErrorCode i then c.errorCode else 0, c.rip, c.cs, c.rflags, c.reg .rsp,
        c.ss]) := by
      unfold OnStack
      rw [hback]
      refine hframe.congr ?_
      have hsame := hs.frame
      rwa [hcrsp, BitVec.sub_add_cancel] at hsame
    obtain ⟨hreturn, hrestored, hend⟩ := popaq_run image hs'
    refine ⟨fun r hr => (hrestored r hr).trans (hreg r hr), ?_, hreturn⟩
    rw [hend, hback, hrsp]
    bv_omega

/-- A handler that only returns. -/
def returning : Handler := fun s => some (s.set .rsp (s.reg .rsp + 8))

/-- A page fault, with every register 5. -/
def pageFault : Interrupted := ⟨fun _ => 5, fun _ => 0, 0x1000, 8, 0x202, 16, 0x8008, 2⟩

theorem interrupt_returns_pageFault : ∃ s, execVector ⟨fun _ => 0, 0⟩ returning 14
    (pageFault.raise 14) = some s ∧ s.reg .rbx = 5 ∧ s.reg .rsp = 0x7fd8 := by
  obtain ⟨called, finish, hexec, -, hreturn⟩ :=
    interrupt_returns ⟨fun _ => 0, 0⟩ (by decide : 14 < nInterrupts) pageFault
  have hobeys : Obeys called (called.set .rsp (called.reg .rsp + 8)) :=
    ⟨fun r hr => Machine.set_of_ne (by rintro rfl; revert hr; decide), Machine.set_self,
      fun _ _ => rfl⟩
  obtain ⟨hregs, hrsp, -⟩ := hreturn _ hobeys
  exact ⟨_, hexec returning, hregs .rbx (by decide), hrsp⟩

end Interrupts

end SctOs
