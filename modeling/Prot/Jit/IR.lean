import Prot.Jit.HostSsa

/-!
# The IR backend

`IRJit::run` builds a graph in which `pc` is a value that one instruction hands
to the next. It is stored at the end, so the `pc` in memory is the one the
block was entered with.

In `JALR` the graph stores `rd` before it loads `rs1`. That is not what the
interpreter does, and `executeStoringFirst` is the interpreter with this
difference; the graph is proved to do the same.
-/

namespace Prot.IR

open Isa Interpreter Stateful Ssa Builder

/-! ### Building -/

section Build

variable {V : ℕ → Type}

/-- From the value of `pc` at an instruction to the value after it. -/
abbrev Step (V : ℕ → Type) := V 32 → Builder V (V 32)

/-- Loads a guest register. `x0` is a constant. -/
def loadReg (reg : Operand) : Builder V (V 32) :=
  if reg = 0#8 then const 0#32 else load (.reg reg.toNat)

/-- Writes a guest register, unless it is `x0`. -/
def setDst (rd : Operand) (val : V 32) : Builder V Unit :=
  if rd ≠ 0#8 then store (.reg rd.toNat) val else pure ()

variable (insn : Instruction)

/-- `PROT_IR_R_OP`. -/
def rOp (op : BinOp) : Builder V Unit := do
  let rs1 ← loadReg insn.rs1
  let rs2 ← loadReg insn.rs2
  let val ← bin op rs1 rs2
  setDst insn.rd val

/-- `PROT_IR_I_OP`. -/
def iOp (op : BinOp) : Builder V Unit := do
  let rs1 ← loadReg insn.rs1
  let imm ← const insn.imm
  let val ← bin op rs1 imm
  setDst insn.rd val

/-- `PROT_IR_COMP_R_OP`. -/
def compROp (cond : Pred) : Builder V Unit := do
  let rs1 ← loadReg insn.rs1
  let rs2 ← loadReg insn.rs2
  let flag ← icmp cond rs1 rs2
  let val ← zext 32 flag
  setDst insn.rd val

/-- `PROT_IR_COMP_I_OP`. -/
def compIOp (cond : Pred) : Builder V Unit := do
  let rs1 ← loadReg insn.rs1
  let imm ← const insn.imm
  let flag ← icmp cond rs1 imm
  let val ← zext 32 flag
  setDst insn.rd val

/-- `PROT_IR_B_COND_OP`. -/
def bCondOp (cond : Pred) : Step V := fun pc => do
  let rs1 ← loadReg insn.rs1
  let rs2 ← loadReg insn.rs2
  let flag ← icmp cond rs1 rs2
  let imm ← const insn.imm
  let taken ← bin .add pc imm
  let wordSize ← const kWordSize
  let next ← bin .add pc wordSize
  -- both targets are computed, and no edge of the graph branches
  select flag taken next

/-- `PROT_IR_LOAD_OP`. -/
def loadOp (T : MemTy) (extend : V T.bits → Builder V (V 32)) : Builder V Unit := do
  let rs1 ← loadReg insn.rs1
  let imm ← const insn.imm
  let addr ← bin .add rs1 imm
  let loaded ← callLoad T addr
  let val ← extend loaded
  setDst insn.rd val

/-- `PROT_IR_STORE_OP`. -/
def storeOp (T : MemTy) : Builder V Unit := do
  let rs1 ← loadReg insn.rs1
  let imm ← const insn.imm
  let addr ← bin .add rs1 imm
  let val ← loadReg insn.rs2
  let low ← trunc T.bits val
  callStore T addr low

/-- Links, and jumps. -/
def buildJAL : Step V := fun pc => do
  let wordSize ← const kWordSize
  let ret_addr ← bin .add pc wordSize
  setDst insn.rd ret_addr
  let imm ← const insn.imm
  bin .add pc imm

/-- `rd` is stored before `rs1` is loaded. -/
def buildJALR : Step V := fun pc => do
  let wordSize ← const kWordSize
  let ret_addr ← bin .add pc wordSize
  -- if `rd` is `rs1`, the base is lost here
  setDst insn.rd ret_addr
  let rs1 ← loadReg insn.rs1
  let imm ← const insn.imm
  let target ← bin .add rs1 imm
  let mask ← const (~~~1#32)
  bin .and target mask

/-- Loads the immediate. -/
def buildLUI : Builder V Unit := do
  let imm ← const insn.imm
  setDst insn.rd imm

/-- Adds the immediate to `pc`. The loop over the block moves `pc` on. -/
def buildAUIPC : Step V := fun pc => do
  let imm ← const insn.imm
  let res ← bin .add pc imm
  setDst insn.rd res
  return pc

/-- Calls the system call helper. -/
def buildECALL : Builder V Unit := callSyscall

/-- A case of the switch that does not touch `pc`. -/
def keepPC (code : Builder V Unit) : Step V := fun pc => do
  code
  return pc

/-- The switch. -/
def emitOpcode : Except Exn (Step V) :=
  match insn.opcode with
  | .kADD => pure (keepPC (rOp insn .add))
  | .kADDI => pure (keepPC (iOp insn .add))
  | .kAND => pure (keepPC (rOp insn .and))
  | .kANDI => pure (keepPC (iOp insn .and))
  | .kOR => pure (keepPC (rOp insn .or))
  | .kORI => pure (keepPC (iOp insn .or))
  | .kXOR => pure (keepPC (rOp insn .xor))
  | .kXORI => pure (keepPC (iOp insn .xor))
  | .kSUB => pure (keepPC (rOp insn .sub))
  | .kSLL => pure (keepPC (rOp insn .shl))
  | .kSLLI => pure (keepPC (iOp insn .shl))
  | .kSRL => pure (keepPC (rOp insn .lshr))
  | .kSRLI => pure (keepPC (iOp insn .lshr))
  | .kSRA => pure (keepPC (rOp insn .ashr))
  | .kSRAI => pure (keepPC (iOp insn .ashr))
  | .kSLT => pure (keepPC (compROp insn .slt))
  | .kSLTU => pure (keepPC (compROp insn .ult))
  | .kSLTI => pure (keepPC (compIOp insn .slt))
  | .kSLTIU => pure (keepPC (compIOp insn .ult))
  | .kBEQ => pure (bCondOp insn .eq)
  | .kBNE => pure (bCondOp insn .ne)
  | .kBLT => pure (bCondOp insn .slt)
  | .kBGE => pure (bCondOp insn .sge)
  | .kBLTU => pure (bCondOp insn .ult)
  | .kBGEU => pure (bCondOp insn .uge)
  | .kLB => pure (keepPC (loadOp insn .byte (sext 32)))
  | .kLH => pure (keepPC (loadOp insn .half (sext 32)))
  | .kLW => pure (keepPC (loadOp insn .word (sext 32)))
  | .kLBU => pure (keepPC (loadOp insn .byte (zext 32)))
  | .kLHU => pure (keepPC (loadOp insn .half (zext 32)))
  | .kSB => pure (keepPC (storeOp insn .byte))
  | .kSH => pure (keepPC (storeOp insn .half))
  | .kSW => pure (keepPC (storeOp insn .word))
  | .kJAL => pure (buildJAL insn)
  | .kJALR => pure (buildJALR insn)
  | .kLUI => pure (keepPC (buildLUI insn))
  | .kAUIPC => pure (buildAUIPC insn)
  | .kECALL => pure (keepPC buildECALL)
  | .kFENCE | .kEBREAK | .kPAUSE | .kSBREAK | .kSCALL => pure (keepPC (pure ()))
  | .kNumOpcodes => throw .unexpectedInsnId

/-- Moves on to the next word. -/
def advance (step : Step V) : Step V := fun pc => do
  let pc ← step pc
  let wordSize ← const kWordSize
  bin .add pc wordSize

/-- The body of the loop over the block. -/
def emit : Except Exn (Step V) := do
  let step ← emitOpcode insn
  let changes ← changesPC insn.opcode
  return if !changes then advance step else step

/-- Stores `pc` and counts `n` instructions. -/
def finish (n : ℕ) (pc : V 32) : Builder V Unit := do
  store .pc pc
  let icount ← load .icount
  let size ← const ((BitVec.ofNat 32 n).setWidth 64)
  let icount ← bin .add icount size
  store .icount icount

/-- `IRJit::run`. The code ends with a return. -/
def run (insns : List Instruction) : Except Exn (Builder V Unit) := do
  let steps ← insns.mapM emit
  return do
    let pc ← load .pc
    -- from here `pc` is a value, and its field is stale
    let pc ← steps.foldlM (fun pc step => step pc) pc
    finish insns.length pc

end Build

/-! ### What a `JALR` does -/

section StoringFirst

variable {μ : Type}

/-- The state after a `JALR` that reads `rs1` when `rd` has been written. -/
def jalrStoringFirst (insn : Instruction) (s : CPUState μ) : CPUState μ :=
  let linked := s.setReg insn.rd.toNat (s.pc + kWordSize)
  linked.setPC ((linked.getReg insn.rs1.toNat + insn.imm) &&& ~~~1#32)

variable [Memory μ]

/-- The interpreter, but for `JALR`. -/
def executeStoringFirst (insn : Instruction) : EStateM Exn (CPUState μ) Unit :=
  if insn.opcode = .kJALR then modify (jalrStoringFirst insn) else execute insn

end StoringFirst

/-! ### One guest instruction -/

section Machine

variable {μ : Type} [Memory μ]

/-- Runs code on the host; shifts use the amount modulo the width. -/
abbrev eval {α : Type} (code : Builder BitVec α) : EStateM Exn (Host μ) α :=
  (ssaEnv wrapShift).eval code

/-- An instruction, with the value of `pc` as part of the state. -/
def runStep (step : Step BitVec) : EStateM Exn (Word × Host μ) Unit :=
  threaded fun pc => eval (step pc)

/-- The host with the `pc` that is not in memory. -/
def host (s : Word × Host μ) : Host μ := { s.2 with cpu := s.2.cpu.setPC s.1 }

omit [Memory μ] in
theorem host_getReg (pc : Word) (h : Host μ) (id : ℕ) :
    (host (pc, h)).cpu.getReg id = h.cpu.getReg id := rfl

/-- Between two instructions; the `pc` in memory is still `entryPC`. -/
structure Inv (entryPC : Word) (s : Word × Host μ) : Prop where
  zero : s.2.cpu.getReg 0 = 0#32
  stale : s.2.cpu.pc = entryPC

/-- The step does to the host what the interpreter does. -/
abbrev Implements (entryPC : Word) (step : Step BitVec) (insn : Instruction) : Prop :=
  Refines host (Inv (μ := μ) entryPC) (runStep step) (traced (·.setPC entryPC) execute insn)

variable {entryPC : Word} {insn : Instruction} {pc : Word} {h : Host μ}

omit [Memory μ] in
/-- What a helper sees is what is in memory. -/
theorem setPC_host (hinv : Inv entryPC (pc, h)) :
    (host (pc, h)).cpu.setPC entryPC = h.cpu := by
  rw [← hinv.stale]
  rfl

/-- Loading a guest register. The graph has a constant where the guest reads its `x0`. -/
theorem run_loadReg (hzero : h.cpu.getReg 0 = 0#32) {reg : Operand} (hreg : reg.toNat < 32) :
    (eval (loadReg reg)).run h = .ok (h.cpu.getReg reg.toNat) h := by
  by_cases hx0 : reg = 0#8
  · rw [loadReg, if_pos hx0, hx0]
    exact congrArg (fun v => EStateM.Result.ok v h) hzero.symm
  · rw [loadReg, if_neg hx0]
    exact run_load (.reg reg.toNat) hreg

/-- Writing a guest register. For `x0` the graph is empty, and so is the write. -/
theorem run_setDst {rd : Operand} (hrd : rd.toNat < 32) (val : Word) :
    (eval (setDst rd val)).run h = .ok () { h with cpu := h.cpu.setReg rd.toNat val } := by
  by_cases hx0 : rd = 0#8
  · rw [setDst, if_neg (by simp [hx0]), hx0]
    rfl
  · rw [setDst, if_pos hx0]
    exact (run_store (.reg rd.toNat) hrd).trans (by rw [Host.setReg_eq_store hx0])

/-- The end of an instruction: only the value of `pc` is new. -/
theorem matches_ok (hinv : Inv entryPC (pc, h)) {step : Step BitVec} {pc' : Word}
    {cpu : CPUState μ} {calls : List (CPUState μ)} (hzero : cpu.getReg 0 = h.cpu.getReg 0)
    (hstale : cpu.pc = h.cpu.pc) (hrun : (eval (step pc)).run h = .ok pc' { cpu, calls }) :
    Matches host (Inv entryPC) ((runStep step).run (pc, h))
      (.ok () { cpu := cpu.setPC pc', calls }) := by
  rw [runStep, run_threaded_ok hrun]
  exact .returned rfl ⟨hzero.trans hinv.zero, hstale.trans hinv.stale⟩

section Families

variable (hwf : insn.WellFormed)
include hwf

theorem implements_rOp {op : BinOp} {f : Word → Word → Word}
    (hk : insn.opcode.insnClass = some (.rr f))
    (hop : ∀ a b, op.eval wrapShift a b = some (f a b)) :
    Implements (μ := μ) entryPC (advance (keepPC (rOp insn op))) insn := by
  rintro ⟨pc, h⟩ hinv
  simp only [traced_of_not_callsHelper hk rfl, InsnClass.effect, Host.outcome, host,
    CPUState.setPC_setReg, CPUState.setPC_setPC, CPUState.setPC_getReg, CPUState.setPC_pc]
  refine matches_ok hinv (by simp) (by simp) ?_
  simp [-bind_pure_comp, advance, keepPC, rOp, run_loadReg hinv.zero hwf.rs1_lt,
    run_loadReg hinv.zero hwf.rs2_lt, run_setDst hwf.rd_lt, run_bin (hop _ _)]

theorem implements_iOp {op : BinOp} {f : Word → Word → Word}
    (hk : insn.opcode.insnClass = some (.ri f))
    (hop : ∀ a, op.eval wrapShift a insn.imm = some (f a insn.imm)) :
    Implements (μ := μ) entryPC (advance (keepPC (iOp insn op))) insn := by
  rintro ⟨pc, h⟩ hinv
  simp only [traced_of_not_callsHelper hk rfl, InsnClass.effect, Host.outcome, host,
    CPUState.setPC_setReg, CPUState.setPC_setPC, CPUState.setPC_getReg, CPUState.setPC_pc]
  refine matches_ok hinv (by simp) (by simp) ?_
  simp [-bind_pure_comp, advance, keepPC, iOp, run_loadReg hinv.zero hwf.rs1_lt,
    run_setDst hwf.rd_lt, run_bin (hop _)]

theorem implements_compROp {cond : Pred} {f : Word → Word → Bool}
    (hk : insn.opcode.insnClass = some (.rr (compareOp f)))
    (hcond : ∀ a b, cond.holds a b = f a b) :
    Implements (μ := μ) entryPC (advance (keepPC (compROp insn cond))) insn := by
  rintro ⟨pc, h⟩ hinv
  simp only [traced_of_not_callsHelper hk rfl, InsnClass.effect, Host.outcome, host,
    CPUState.setPC_setReg, CPUState.setPC_setPC, CPUState.setPC_getReg, CPUState.setPC_pc]
  refine matches_ok hinv (by simp) (by simp) ?_
  simp [-bind_pure_comp, advance, keepPC, compROp, run_loadReg hinv.zero hwf.rs1_lt,
    run_loadReg hinv.zero hwf.rs2_lt, run_setDst hwf.rd_lt, hcond, compareOp, boolToWord]

theorem implements_compIOp {cond : Pred} {f : Word → Word → Bool}
    (hk : insn.opcode.insnClass = some (.ri (compareOp f)))
    (hcond : ∀ a b, cond.holds a b = f a b) :
    Implements (μ := μ) entryPC (advance (keepPC (compIOp insn cond))) insn := by
  rintro ⟨pc, h⟩ hinv
  simp only [traced_of_not_callsHelper hk rfl, InsnClass.effect, Host.outcome, host,
    CPUState.setPC_setReg, CPUState.setPC_setPC, CPUState.setPC_getReg, CPUState.setPC_pc]
  refine matches_ok hinv (by simp) (by simp) ?_
  simp [-bind_pure_comp, advance, keepPC, compIOp, run_loadReg hinv.zero hwf.rs1_lt,
    run_setDst hwf.rd_lt, hcond, compareOp, boolToWord]

/-- A branch. `select` picks the side that the interpreter takes. -/
theorem implements_bCondOp {cond : Pred} {f : Word → Word → Bool}
    (hk : insn.opcode.insnClass = some (.branch f)) (hcond : ∀ a b, cond.holds a b = f a b) :
    Implements (μ := μ) entryPC (bCondOp insn cond) insn := by
  rintro ⟨pc, h⟩ hinv
  simp only [traced_of_not_callsHelper hk rfl, InsnClass.effect, Host.outcome]
  rw [host_getReg, host_getReg]
  by_cases htaken : f (h.cpu.getReg insn.rs1.toNat) (h.cpu.getReg insn.rs2.toNat) = true
  · simp only [htaken, if_true, host, CPUState.setPC_setPC, CPUState.setPC_pc]
    refine matches_ok hinv rfl rfl ?_
    simp [-bind_pure_comp, bCondOp, run_loadReg hinv.zero hwf.rs1_lt,
      run_loadReg hinv.zero hwf.rs2_lt, hcond, htaken]
  · simp only [htaken, host, CPUState.setPC_setPC, CPUState.setPC_pc]
    refine matches_ok hinv rfl rfl ?_
    simp [-bind_pure_comp, bCondOp, run_loadReg hinv.zero hwf.rs1_lt,
      run_loadReg hinv.zero hwf.rs2_lt, hcond, htaken]

theorem implements_buildJAL (hk : insn.opcode.insnClass = some .jal) :
    Implements (μ := μ) entryPC (buildJAL insn) insn := by
  rintro ⟨pc, h⟩ hinv
  simp only [traced_of_not_callsHelper hk rfl, InsnClass.effect, Host.outcome, host,
    CPUState.setPC_setReg, CPUState.setPC_setPC, CPUState.setPC_pc]
  refine matches_ok hinv (by simp) (by simp) ?_
  simp [-bind_pure_comp, buildJAL, run_setDst hwf.rd_lt]

theorem implements_buildLUI (hk : insn.opcode.insnClass = some .lui) :
    Implements (μ := μ) entryPC (advance (keepPC (buildLUI insn))) insn := by
  rintro ⟨pc, h⟩ hinv
  simp only [traced_of_not_callsHelper hk rfl, InsnClass.effect, Host.outcome, host,
    CPUState.setPC_setReg, CPUState.setPC_setPC, CPUState.setPC_pc]
  refine matches_ok hinv (by simp) (by simp) ?_
  simp [-bind_pure_comp, advance, keepPC, buildLUI, run_setDst hwf.rd_lt]

theorem implements_buildAUIPC (hk : insn.opcode.insnClass = some .auipc) :
    Implements (μ := μ) entryPC (advance (buildAUIPC insn)) insn := by
  rintro ⟨pc, h⟩ hinv
  simp only [traced_of_not_callsHelper hk rfl, InsnClass.effect, Host.outcome, host,
    CPUState.setPC_setReg, CPUState.setPC_setPC, CPUState.setPC_pc]
  refine matches_ok hinv (by simp) (by simp) ?_
  simp [-bind_pure_comp, advance, buildAUIPC, run_setDst hwf.rd_lt]

omit hwf in
theorem implements_nop (hk : insn.opcode.insnClass = some .nop) :
    Implements (μ := μ) entryPC (advance (keepPC (pure ()))) insn := by
  rintro ⟨pc, h⟩ hinv
  simp only [traced_of_not_callsHelper hk rfl, InsnClass.effect, Host.outcome, host,
    CPUState.setPC_setPC, CPUState.setPC_pc]
  refine matches_ok hinv rfl rfl ?_
  simp [-bind_pure_comp, advance, keepPC]

/-- A `JALR` of the interpreter that reads `rs1` late. -/
theorem refines_buildJALR (hopcode : insn.opcode = .kJALR) :
    Refines host (Inv (μ := μ) entryPC) (runStep (buildJALR insn))
      (traced (·.setPC entryPC) executeStoringFirst insn) := by
  rintro ⟨pc, h⟩ hinv
  have hcalls : insn.opcode.callsHelper = false := by rw [hopcode]; rfl
  rw [run_traced, executeStoringFirst, if_pos hopcode, hcalls]
  simp only [EStateM.run_modify, Host.outcome, host, jalrStoringFirst, CPUState.setPC_setReg,
    CPUState.setPC_setPC, CPUState.setPC_pc, CPUState.setPC_getReg]
  refine matches_ok hinv (by simp) (by simp) ?_
  have hzero : ({ h with cpu := h.cpu.setReg insn.rd.toNat (pc + kWordSize) } :
      Host μ).cpu.getReg 0 = 0#32 := by
    rw [CPUState.getReg_zero_setReg, hinv.zero]
  simp [-bind_pure_comp, buildJALR, run_setDst hwf.rd_lt, run_loadReg hzero hwf.rs1_lt]

/-! ### Calls -/

omit hwf in
/-- An instruction that raises leaves `pc` at itself. -/
theorem matches_error {step : Step BitVec} {e : Exn} (h' : Host μ)
    (hrun : (eval (step pc)).run h = .error e h') :
    Matches host (Inv entryPC) ((runStep step).run (pc, h))
      (.error e { h' with cpu := h'.cpu.setPC pc }) := by
  rw [runStep, run_threaded_error hrun]
  exact .raised rfl

omit hwf in
/-- The system call does not look at `pc`, which is stale in memory. -/
theorem implements_buildECALL (hk : insn.opcode.insnClass = some .ecall) :
    Implements (μ := μ) entryPC (advance (keepPC buildECALL)) insn := by
  rintro ⟨pc, h⟩ hinv
  have hsys := CPUState.setPC_emulateSysCall h.cpu pc
  simp only [traced_eq_effect hk, InsnClass.effect, InsnClass.callsHelper, if_true,
    setPC_host hinv]
  simp only [host, hsys]
  cases hcall : h.cpu.emulateSysCall with
  | ok cpu =>
    have hcpu := CPUState.emulateSysCall_ok hcall
    change Matches host _ _
      (.ok () { cpu := cpu.setPC (pc + kWordSize), calls := h.calls ++ [h.cpu] })
    refine matches_ok hinv (by rw [hcpu]; rfl) (by rw [hcpu]; rfl) ?_
    simp [-bind_pure_comp, advance, keepPC, buildECALL, run_callSyscall, hcall, Host.record]
  | error e =>
    change Matches host _ _ (.error e { h.record h.cpu with cpu := h.cpu.setPC pc })
    refine matches_error (h.record h.cpu) ?_
    simp [-bind_pure_comp, advance, keepPC, buildECALL, run_callSyscall, hcall]

theorem implements_loadOp {T : MemTy} {Signed : Bool}
    {extend : BitVec T.bits → Builder BitVec Word}
    (hk : insn.opcode.insnClass = some (.load T Signed))
    (hext : ∀ v, eval (μ := μ) (extend v) = pure (InsnClass.extend Signed v)) :
    Implements (μ := μ) entryPC (advance (keepPC (loadOp insn T extend))) insn := by
  rintro ⟨pc, h⟩ hinv
  simp only [traced_eq_effect hk, InsnClass.effect, InsnClass.callsHelper, if_true,
    setPC_host hinv]
  simp only [host, CPUState.setPC_getReg, CPUState.setPC_memory]
  cases hread : Memory.read T h.cpu.memory (h.cpu.getReg insn.rs1.toNat + insn.imm) with
  | ok v =>
    simp only [Host.outcome, CPUState.setPC_setReg, CPUState.setPC_setPC, CPUState.setPC_pc]
    refine matches_ok hinv (by simp) (by simp) ?_
    simp [-bind_pure_comp, advance, keepPC, loadOp, run_loadReg hinv.zero hwf.rs1_lt,
      run_callLoad, hread, hext, run_setDst hwf.rd_lt, Host.record]
  | error e =>
    change Matches host _ _ (.error e { h.record h.cpu with cpu := h.cpu.setPC pc })
    refine matches_error (h.record h.cpu) ?_
    simp [-bind_pure_comp, advance, keepPC, loadOp, run_loadReg hinv.zero hwf.rs1_lt,
      run_callLoad, hread]

theorem implements_storeOp {T : MemTy} (hk : insn.opcode.insnClass = some (.store T)) :
    Implements (μ := μ) entryPC (advance (keepPC (storeOp insn T))) insn := by
  rintro ⟨pc, h⟩ hinv
  simp only [traced_eq_effect hk, InsnClass.effect, InsnClass.callsHelper, if_true,
    setPC_host hinv]
  simp only [host, CPUState.setPC_getReg, CPUState.setPC_memory]
  cases hwrite : Memory.write T h.cpu.memory (h.cpu.getReg insn.rs1.toNat + insn.imm)
    ((h.cpu.getReg insn.rs2.toNat).setWidth T.bits) with
  | ok memory =>
    change Matches host _ _ (.ok ()
      { cpu := { h.cpu with memory }.setPC (pc + kWordSize), calls := h.calls ++ [h.cpu] })
    refine matches_ok hinv rfl rfl ?_
    simp [-bind_pure_comp, advance, keepPC, storeOp, run_loadReg hinv.zero hwf.rs1_lt,
      run_loadReg hinv.zero hwf.rs2_lt, run_callStore, hwrite, Host.record]
  | error e =>
    change Matches host _ _ (.error e { h.record h.cpu with cpu := h.cpu.setPC pc })
    refine matches_error (h.record h.cpu) ?_
    simp [-bind_pure_comp, advance, keepPC, storeOp, run_loadReg hinv.zero hwf.rs1_lt,
      run_loadReg hinv.zero hwf.rs2_lt, run_callStore, hwrite]

end Families

/-! ### The whole block -/

section Block

/-- Only `jalr` has a new case. -/
theorem executeStoringFirst_of_ne (hopcode : insn.opcode ≠ .kJALR) :
    executeStoringFirst (μ := μ) insn = execute insn := if_neg hopcode

theorem executeStoringFirst_icount (insn : Instruction) (n : Icount) :
    Preserves (fun s : CPUState μ => s.icount = n) (executeStoringFirst insn) := by
  intro s hs
  by_cases hopcode : insn.opcode = .kJALR
  · rw [executeStoringFirst, if_pos hopcode]
    simpa [jalrStoringFirst] using hs
  · rw [executeStoringFirst_of_ne hopcode]
    exact execute_icount insn n s hs

theorem executeStoringFirst_getReg_zero (insn : Instruction) (v : Word) :
    Preserves (fun s : CPUState μ => s.getReg 0 = v) (executeStoringFirst insn) := by
  intro s hs
  by_cases hopcode : insn.opcode = .kJALR
  · rw [executeStoringFirst, if_pos hopcode]
    simpa [jalrStoringFirst] using hs
  · rw [executeStoringFirst_of_ne hopcode]
    exact execute_getReg_zero insn v s hs

theorem traced_executeStoringFirst_of_ne (hopcode : insn.opcode ≠ .kJALR)
    (stale : CPUState μ → CPUState μ) :
    traced stale executeStoringFirst insn = traced stale execute insn := by
  rw [traced, traced, executeStoringFirst_of_ne hopcode]

/-- What the graph of an instruction does. -/
abbrev EmitRefines (entryPC : Word) (insn : Instruction) : Prop :=
  ∃ step, emit insn = .ok step ∧
    Refines host (Inv (μ := μ) entryPC) (runStep step)
      (traced (·.setPC entryPC) executeStoringFirst insn)

/-- An instruction that leaves `pc` to the loop over the block. -/
theorem emit_advance {step : Step BitVec} (hopcode : insn.opcode ≠ .kJALR)
    (hemit : emitOpcode insn = .ok step) (hchanges : changesPC insn.opcode = .ok false)
    (hstep : Implements (μ := μ) entryPC (advance step) insn) :
    EmitRefines (μ := μ) entryPC insn :=
  ⟨advance step, by simp only [emit, hemit, hchanges]; rfl,
    by rwa [traced_executeStoringFirst_of_ne hopcode]⟩

theorem emit_changesPC {step : Step BitVec} (hopcode : insn.opcode ≠ .kJALR)
    (hemit : emitOpcode insn = .ok step) (hchanges : changesPC insn.opcode = .ok true)
    (hstep : Implements (μ := μ) entryPC step insn) :
    EmitRefines (μ := μ) entryPC insn :=
  ⟨step, by simp only [emit, hemit, hchanges]; rfl,
    by rwa [traced_executeStoringFirst_of_ne hopcode]⟩

section Operations

variable (a b : Word)

/-- Both use five bits of a shift amount. -/
theorem eval_shl : BinOp.shl.eval wrapShift a b = some (sllHelper a b) := by
  rw [BinOp.eval, wrapShift, Option.map_some, ← toNat_slice_four_zero]
  rfl

theorem eval_lshr : BinOp.lshr.eval wrapShift a b = some (srlHelper a b) := by
  rw [BinOp.eval, wrapShift, Option.map_some, ← toNat_slice_four_zero]
  rfl

theorem eval_ashr : BinOp.ashr.eval wrapShift a b = some (sraHelper a b) := by
  rw [BinOp.eval, wrapShift, Option.map_some, ← toNat_slice_four_zero]
  rfl

theorem holds_uge : Pred.uge.holds a b = greaterEqual a b := (greaterEqual_eq a b).symm

end Operations

variable (entryPC)

/-- Whatever the instruction, its step refines it. -/
theorem emit_refines (hwf : insn.WellFormed) : EmitRefines (μ := μ) entryPC insn := by
  obtain ⟨opcode, rs1, rs2, rd, imm⟩ := insn
  have hisDecoded := hwf.isDecoded
  cases opcode
  case kADD | kAND | kOR | kXOR | kSUB =>
    exact emit_advance nofun rfl rfl (implements_rOp hwf rfl fun _ _ => rfl)
  case kADDI | kANDI | kORI | kXORI =>
    exact emit_advance nofun rfl rfl (implements_iOp hwf rfl fun _ => rfl)
  case kSLL => exact emit_advance nofun rfl rfl (implements_rOp hwf rfl eval_shl)
  case kSRL => exact emit_advance nofun rfl rfl (implements_rOp hwf rfl eval_lshr)
  case kSRA => exact emit_advance nofun rfl rfl (implements_rOp hwf rfl eval_ashr)
  case kSLLI => exact emit_advance nofun rfl rfl (implements_iOp hwf rfl fun a => eval_shl a imm)
  case kSRLI => exact emit_advance nofun rfl rfl (implements_iOp hwf rfl fun a => eval_lshr a imm)
  case kSRAI => exact emit_advance nofun rfl rfl (implements_iOp hwf rfl fun a => eval_ashr a imm)
  case kSLT | kSLTU =>
    exact emit_advance nofun rfl rfl (implements_compROp hwf rfl fun _ _ => rfl)
  case kSLTI | kSLTIU =>
    exact emit_advance nofun rfl rfl (implements_compIOp hwf rfl fun _ _ => rfl)
  case kBEQ | kBNE | kBLT | kBLTU | kBGE =>
    exact emit_changesPC nofun rfl rfl (implements_bCondOp hwf rfl fun _ _ => rfl)
  case kBGEU => exact emit_changesPC nofun rfl rfl (implements_bCondOp hwf rfl holds_uge)
  case kLUI => exact emit_advance nofun rfl rfl (implements_buildLUI hwf rfl)
  case kAUIPC => exact emit_advance nofun rfl rfl (implements_buildAUIPC hwf rfl)
  case kJAL => exact emit_changesPC nofun rfl rfl (implements_buildJAL hwf rfl)
  case kJALR => exact ⟨_, rfl, refines_buildJALR hwf rfl⟩
  case kLB | kLH =>
    refine emit_advance nofun rfl rfl (implements_loadOp hwf rfl fun v => ?_)
    rw [InsnClass.extend_true, eval, eval_sext]
  case kLBU | kLHU =>
    refine emit_advance nofun rfl rfl (implements_loadOp hwf rfl fun v => ?_)
    rw [InsnClass.extend_false, eval, eval_zext]
  case kLW =>
    refine emit_advance nofun rfl rfl (implements_loadOp hwf rfl fun v => ?_)
    rw [InsnClass.extend_false, eval, eval_sext]
    simp
  case kSB | kSH | kSW => exact emit_advance nofun rfl rfl (implements_storeOp hwf rfl)
  case kECALL => exact emit_advance nofun rfl rfl (implements_buildECALL rfl)
  case kEBREAK | kFENCE | kPAUSE | kSBREAK | kSCALL =>
    exact emit_advance nofun rfl rfl (implements_nop rfl)
  case kNumOpcodes => cases hisDecoded

end Block

/-- The loop over the block, with `pc` as part of the state. -/
theorem refines_steps (entryPC : Word) {insns : List Instruction} (hdecoded : Decoded insns) :
    ∃ steps, insns.mapM emit = .ok steps ∧
      Refines host (Inv (μ := μ) entryPC) (forM steps runStep)
        (forM insns (traced (·.setPC entryPC) executeStoringFirst)) := by
  obtain ⟨steps, hsteps, hrefines⟩ := exists_mapM_eq_ok insns fun insn hmem =>
    emit_refines (μ := μ) entryPC (hdecoded.wellFormed insn hmem)
  exact ⟨steps, hsteps, Refines.forM₂ hrefines⟩

/-- The end of a block. The size is counted as a 32-bit constant, extended with zeros. -/
theorem run_finish {n : ℕ} (hn : n < 2 ^ 32) (pc : Word) (h : Host μ) :
    (eval (finish n pc)).run h = .ok () { h with
      cpu := (h.cpu.setPC pc).withIcount (Counter.next n h.cpu.icount .qword) } := by
  have hsize : (BitVec.ofNat 32 n).setWidth 64 = BitVec.ofNat 64 n :=
    BitVec.setWidth_ofNat_of_le_of_lt (by decide) hn
  simp [-bind_pure_comp, finish, run_store .pc trivial, run_load .icount trivial,
    run_store .icount trivial, hsize, Counter.next]

/-- A graph runs its steps one by one, between loading `pc` and storing it. -/
theorem run_eval_run {steps : List (Step BitVec)} {n : ℕ} (hn : n < 2 ^ 32) (h : Host μ) :
    (eval do
        let pc ← load .pc
        let pc ← steps.foldlM (fun pc step => step pc) pc
        finish n pc).run h =
      match (forM steps runStep).run (h.cpu.pc, h) with
      | .ok _ s => .ok () { host s with
          cpu := (host s).cpu.withIcount (Counter.next n (host s).cpu.icount .qword) }
      | .error e s => .error e s.2 := by
  rw [eval, Env.eval_bind, EStateM.run_bind, run_load .pc trivial]
  simp only [Env.eval_bind, EStateM.run_bind, Env.eval_foldlM]
  -- folding over the value of `pc` is running with `pc` as part of the state
  rw [run_foldlM fun (step : Step BitVec) pc => eval (step pc)]
  have hsteps : (forM steps fun step => threaded fun pc => eval (μ := μ) (step pc)) =
      forM steps runStep := rfl
  rw [hsteps, Host.load_pc]
  cases (forM steps runStep).run (h.cpu.pc, h) with
  | ok _ s => exact run_finish hn s.1 s.2
  | error e s => rfl

/-- The graph of a block executes it with a `pc` that is in memory at the end only, and
counts it in a `qword`. -/
theorem run_agrees {insns : List Instruction} (hdecoded : Decoded insns)
    (hlength : insns.length < 2 ^ 32) :
    ∃ code, run insns = .ok code ∧ ∀ h : Host μ, h.cpu.getReg 0 = 0#32 →
      Agrees id ((eval code).run h)
        ((countedAtEnd .qword (·.setPC h.cpu.pc) executeStoringFirst insns).run h) := by
  obtain ⟨steps, hsteps, -⟩ := refines_steps (μ := μ) 0#32 hdecoded
  refine ⟨_, by simp only [run, hsteps]; rfl, fun h hzero => ?_⟩
  obtain ⟨_, hsteps', hrefines⟩ := refines_steps (μ := μ) h.cpu.pc hdecoded
  cases hsteps.symm.trans hsteps'
  have hmatch := hrefines (h.cpu.pc, h) ⟨hzero, rfl⟩
  rw [run_eval_run hlength, countedAtEnd, EStateM.run_bind]
  change Matches host (Inv h.cpu.pc) _
    ((forM insns (traced (·.setPC h.cpu.pc) executeStoringFirst)).run h) at hmatch
  revert hmatch
  generalize (forM steps runStep).run (h.cpu.pc, h) = concrete
  generalize (forM insns (traced (·.setPC h.cpu.pc) executeStoringFirst)).run h = abstract
  rintro (⟨same, -⟩ | same)
  · subst same
    exact .returned rfl
  · exact .raised (by rw [← same]; rfl)

/-! ### Where the graph is right -/

/-- The link register of a `JALR` is not its base, or is as good a base as its own
value: the targets agree but for the bit that is cleared. -/
def LinkHarmless (insn : Instruction) (s : CPUState μ) : Prop :=
  insn.opcode = .kJALR → insn.rd = insn.rs1 → insn.rd ≠ 0#8 →
    (s.pc + kWordSize + insn.imm) &&& ~~~1#32 =
      (s.getReg insn.rs1.toNat + insn.imm) &&& ~~~1#32

omit [Memory μ] in
/-- Only the target of a `JALR` depends on when `rs1` is read. -/
theorem jalrStoringFirst_eq (hwf : insn.WellFormed) (s : CPUState μ)
    (hopcode : insn.opcode = .kJALR) :
    ∃ target, jalrStoringFirst insn s =
        (s.setReg insn.rd.toNat (s.pc + kWordSize)).setPC target ∧
      (target = ((s.getReg insn.rs1.toNat + insn.imm) >>> 1) <<< 1 ↔ LinkHarmless insn s) := by
  refine ⟨_, rfl, ?_⟩
  rw [← Bits.and_not_one]
  -- only a link that is also the base can be read back
  by_cases halias : insn.rd = insn.rs1 ∧ insn.rd ≠ 0#8
  · obtain ⟨hrd, hx0⟩ := halias
    have hne : insn.rd.toNat ≠ 0 := fun h => hx0 (BitVec.eq_of_toNat_eq h)
    have hread : (s.setReg insn.rd.toNat (s.pc + kWordSize)).getReg insn.rs1.toNat =
        s.pc + kWordSize := by
      rw [← hrd, CPUState.setReg_of_ne _ _ hne, CPUState.getReg_putReg_self _ _ hwf.rd_lt]
    rw [hread]
    exact ⟨fun h _ _ _ => h, fun h => h hopcode hrd hx0⟩
  · have hread : (s.setReg insn.rd.toNat (s.pc + kWordSize)).getReg insn.rs1.toNat =
        s.getReg insn.rs1.toNat := by
      by_cases hx0 : insn.rd = 0#8
      · rw [hx0]
        rfl
      · refine s.getReg_setReg_of_ne _ fun h => halias ⟨BitVec.eq_of_toNat_eq h, hx0⟩
    rw [hread]
    exact iff_of_true rfl fun _ hrd hx0 => absurd ⟨hrd, hx0⟩ halias

omit [Memory μ] in
/-- Only the link of a `jalr` can do harm. -/
theorem linkHarmless_of_ne {s : CPUState μ} (hopcode : insn.opcode ≠ .kJALR) :
    LinkHarmless insn s := fun h => absurd h hopcode

/-- A `JALR` ends its block. So all that can be wrong at the end is `pc`, and it is
wrong if the base of the jump was lost. -/
theorem run_forM_executeStoringFirst {read : Addr → Except Exn Word} {singleStep : Bool} {a : Addr}
    {insns : List Instruction} (hblock : IsBlockAt read singleStep a insns) {s s' : CPUState μ}
    (hexec : (forM insns execute).run s = .ok () s') :
    ∃ target, (forM insns executeStoringFirst).run s = .ok () (s'.setPC target) ∧
      (target = s'.pc ↔ Along LinkHarmless insns s) := by
  -- a `JALR` is a terminator, so it can only be the last instruction
  induction hblock generalizing s with
  | @last a bytes inst hread hdecode hlast =>
    have hwf := wellFormed_of_decode hdecode
    rw [List.forM_cons, List.forM_nil, bind_pure] at hexec
    rw [List.forM_cons, List.forM_nil, bind_pure, along_cons_of_ok hexec, Along, and_true]
    by_cases hopcode : inst.opcode = .kJALR
    · have hk : inst.opcode.insnClass = some .jalr := by rw [hopcode]; rfl
      rw [execute_eq_effect hk] at hexec
      cases hexec
      obtain ⟨target, htarget, hiff⟩ := jalrStoringFirst_eq hwf s hopcode
      refine ⟨target, ?_, hiff⟩
      rw [executeStoringFirst, if_pos hopcode, EStateM.run_modify, htarget]
      rfl
    · refine ⟨s'.pc, ?_, iff_of_true rfl (linkHarmless_of_ne hopcode)⟩
      rw [executeStoringFirst_of_ne hopcode, hexec]
      rfl
  | @cons a bytes inst insns hread hdecode hmore hinner hrest ih =>
    have hopcode : inst.opcode ≠ .kJALR := fun h => by rw [h] at hinner; cases hinner
    rw [List.forM_cons, run_seq_eq_ok] at hexec
    obtain ⟨_, s₁, hfirst, hexec⟩ := hexec
    obtain ⟨target, hrun, hiff⟩ := ih hexec
    refine ⟨target, ?_, ?_⟩
    · rw [List.forM_cons, executeStoringFirst_of_ne hopcode, run_seq_ok hfirst, hrun]
    · rw [along_cons_of_ok hfirst, hiff]
      exact (and_iff_right (linkHarmless_of_ne hopcode)).symm

/-- The graph of a block ends in the state that interpreting the block gives exactly
where no `JALR` loses its base. -/
theorem run_correct_iff {insns : List Instruction} (hblock : IsBlock insns) {s s' : CPUState μ}
    (hzero : s.getReg 0 = 0#32) (hinterp : (interpretInsns insns).run s = .ok () s') :
    (∃ code h, run insns = .ok code ∧ (eval code).run { cpu := s } = .ok () h ∧ h.cpu = s') ↔
      Along LinkHarmless insns s := by
  -- a block has at most as many instructions as the batch has slots
  have hlength : insns.length < 2 ^ 32 := hblock.length_le.trans_lt (by decide)
  obtain ⟨code, hcode, hagrees⟩ := run_agrees (μ := μ) hblock.decoded hlength
  obtain ⟨_, _, _, hblockAt⟩ := hblock.isBlockAt
  obtain ⟨target, hrun, hiff⟩ :=
    run_forM_executeStoringFirst hblockAt (run_forM_execute hinterp)
  have hcounted := run_countedAtEnd_of_ok .qword (·.setPC s.pc) hrun
  obtain ⟨h, heval, hhost⟩ := (hagrees { cpu := s } hzero).ok hcounted
  have hcpu : h.cpu = s'.setPC target := by
    have hicount := icount_of_interpretInsns hinterp
    rw [id] at hhost
    rw [hhost, CPUState.setPC_icount, CPUState.withIcount_icount, Counter.next, ← hicount]
    rfl
  rw [← hiff]
  constructor
  · rintro ⟨code', h', hcode', heval', hcpu'⟩
    cases hcode.symm.trans hcode'
    cases heval.symm.trans heval'
    rw [← hcpu', hcpu]
    rfl
  · intro htarget
    exact ⟨code, h, hcode, heval, by rw [hcpu, htarget]; rfl⟩

end Machine

/-! ### Runs of generated code -/

theorem run_sampleInsns :
    (∃ code h, run sampleInsns = .ok code ∧ (eval code).run { cpu := sampleGuest } = .ok () h ∧
      h.cpu = sampleResult) ↔ Along LinkHarmless sampleInsns sampleGuest :=
  run_correct_iff isBlock_sampleInsns rfl interpretInsns_sampleGuest

/-- `jalr x1, 0(x1)`. -/
def jalrInsns : List Instruction := [{ opcode := .kJALR, rs1 := 1#8, rd := 1#8 }]

/-- At `0x40`, about to jump to `0x100`. -/
def jalrGuest : CPUState (PlainMemory 0#32 4096) :=
  ({ memory := {}, pc := 0x40#32 } : CPUState _).setReg 1 0x100#32

/-- The CPU after the block. -/
def jalrResult : CPUState (PlainMemory 0#32 4096) :=
  finalState ((interpretInsns jalrInsns).run jalrGuest)

/-- The interpreter jumps to the address in `x1`, the graph to the next word. -/
theorem run_jalrInsns_ne :
    IsBlock jalrInsns ∧ jalrGuest.getReg 0 = 0#32 ∧
      (interpretInsns jalrInsns).run jalrGuest = .ok () jalrResult ∧
      ¬ ∃ code h, run jalrInsns = .ok code ∧ (eval code).run { cpu := jalrGuest } = .ok () h ∧
        h.cpu = jalrResult := by
  refine ⟨⟨fun _ => .ok 0x000080e7#32, false, 1, 0x40#32, rfl⟩, rfl, rfl, ?_⟩
  rintro ⟨code, h, hcode, heval, hcpu⟩
  cases hcode
  have hpc : h.cpu.pc = 0x44#32 := by
    cases heval
    rfl
  rw [hcpu] at hpc
  exact absurd hpc (by decide)

end Prot.IR
