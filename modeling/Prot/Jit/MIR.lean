import Prot.Jit.Host
import Prot.Lib.Mir

/-!
# The MIR backend

`MIRJit::translate` keeps `pc` in a register for the whole block and writes it
back at the end, so the `pc` in memory is the one the block was entered with.
The machine is therefore compared with the interpreter through a projection
that reads `pc` off the register.
-/

namespace Prot.MIR

open Isa Interpreter Stateful Mir

/-- The virtual registers. -/
inductive Reg where
  | state_ptr | pc_reg | rs1_reg | rs2_reg | rd_reg
  deriving DecidableEq

/-- Labels are numbered in the order of their creation. -/
abbrev Code := List (Insn Reg (Field 32) ℕ Helper)

/-! ### Translation -/

section Translate

variable (insn : Instruction)

/-- A guest register. -/
def getReg (regId : Operand) : Field 32 := .reg regId.toNat

/-- Loads a guest register. `x0` is a constant. -/
def loadReg (reg : Reg) (regId : Operand) : Insn Reg (Field 32) ℕ Helper :=
  if regId = 0#8 then .mov (.reg reg) (.int 0#64)
  else .mov (.reg reg) (.mem .state_ptr (getReg regId))

/-- Writes a guest register, unless it is `x0`. -/
def setDst (dstId : Operand) (dst : Reg) : Code :=
  if dstId ≠ 0#8 then [.mov (.mem .state_ptr (getReg dstId)) (.reg dst)] else []

/-- The immediate as an `int` operand. -/
def imm64 : BitVec 64 := insn.imm.setWidth 64

@[simp] theorem setWidth_imm64 : (imm64 insn).setWidth 32 = insn.imm :=
  BitVec.setWidth_setWidth_of_le insn.imm (by decide)

/-- `PROT_MIR_R_OP`. -/
def rOp (op : SOp) : Code :=
  [loadReg .rs1_reg insn.rs1, loadReg .rs2_reg insn.rs2,
    .opS op (.reg .rd_reg) (.reg .rs1_reg) (.reg .rs2_reg)] ++ setDst insn.rd .rd_reg

/-- `PROT_MIR_I_OP`. -/
def iOp (op : SOp) : Code :=
  [loadReg .rs1_reg insn.rs1, .opS op (.reg .rd_reg) (.reg .rs1_reg) (.int (imm64 insn))] ++
    setDst insn.rd .rd_reg

/-- `PROT_MIR_B_COND_OP`, with its two labels. -/
def bCondOp (true_label end_label : ℕ) (cond : SCond) : Code :=
  [loadReg .rs1_reg insn.rs1, loadReg .rs2_reg insn.rs2,
    .branchS cond true_label (.reg .rs1_reg) (.reg .rs2_reg),
    .opS .adds (.reg .pc_reg) (.reg .pc_reg) (.int 4#64), .jmp end_label, .label true_label,
    .opS .adds (.reg .pc_reg) (.reg .pc_reg) (.int (imm64 insn)), .label end_label]

/-- `PROT_MIR_S_OP`: `rs2` is read from memory even if it is `x0`. -/
def sOp (T : MemTy) : Code :=
  [loadReg .rs1_reg insn.rs1,
    .opS .adds (.reg .rs1_reg) (.reg .rs1_reg) (.int (imm64 insn)),
    .mov (.reg .rs2_reg) (.mem .state_ptr (getReg insn.rs2)),
    .call (.store T) none [.state_ptr, .rs1_reg, .rs2_reg]]

/-- `PROT_MIR_L_OP`. -/
def lOp (T : MemTy) (ty : Ty) : Code :=
  [loadReg .rs1_reg insn.rs1,
    .opS .adds (.reg .rs1_reg) (.reg .rs1_reg) (.int (imm64 insn)),
    .call (.load T) (some (ty, .rd_reg)) [.state_ptr, .rs1_reg]] ++ setDst insn.rd .rd_reg

/-- Links, and jumps. -/
def implJAL : Code :=
  [.mov (.reg .rd_reg) (.reg .pc_reg),
    .opS .adds (.reg .rd_reg) (.reg .rd_reg) (.int 4#64)] ++ setDst insn.rd .rd_reg ++
    [.opS .adds (.reg .pc_reg) (.reg .pc_reg) (.int (imm64 insn))]

/-- The mask is applied to all 64 bits. -/
def implJALR : Code :=
  -- `rs1` is loaded before `rd` is stored, so `rd = rs1` is safe
  [.mov (.reg .rd_reg) (.reg .pc_reg),
    .opS .adds (.reg .rd_reg) (.reg .rd_reg) (.int 4#64), loadReg .rs1_reg insn.rs1,
    .opS .adds (.reg .pc_reg) (.reg .rs1_reg) (.int (imm64 insn)),
    .and (.reg .pc_reg) (.reg .pc_reg) (.int (~~~1#64))] ++ setDst insn.rd .rd_reg

/-- Loads the immediate. -/
def implLUI : Code := .mov (.reg .rs1_reg) (.int (imm64 insn)) :: setDst insn.rd .rs1_reg

/-- Adds the immediate to `pc`. -/
def implAUIPC : Code :=
  [.mov (.reg .rs1_reg) (.reg .pc_reg),
    .opS .adds (.reg .rs1_reg) (.reg .rs1_reg) (.int (imm64 insn))] ++ setDst insn.rd .rs1_reg

/-- Calls the system call helper. -/
def implECALL : Code := [.call .syscall none [.state_ptr]]

/-- The `switch` in the loop, with `next` the first label that is free. -/
def emitOpcode (next : ℕ) : Except Exn Code :=
  match insn.opcode with
  | .kADD => pure (rOp insn .adds)
  | .kADDI => pure (iOp insn .adds)
  | .kAND => pure (rOp insn .ands)
  | .kANDI => pure (iOp insn .ands)
  | .kOR => pure (rOp insn .ors)
  | .kORI => pure (iOp insn .ors)
  | .kXOR => pure (rOp insn .xors)
  | .kXORI => pure (iOp insn .xors)
  | .kSLL => pure (rOp insn .lshs)
  | .kSLLI => pure (iOp insn .lshs)
  | .kSRL => pure (rOp insn .urshs)
  | .kSRLI => pure (iOp insn .urshs)
  | .kSRA => pure (rOp insn .rshs)
  | .kSRAI => pure (iOp insn .rshs)
  | .kSUB => pure (rOp insn .subs)
  | .kSLT => pure (rOp insn .lts)
  | .kSLTU => pure (rOp insn .ults)
  | .kSLTI => pure (iOp insn .lts)
  | .kSLTIU => pure (iOp insn .ults)
  | .kBEQ => pure (bCondOp insn next (next + 1) .beqs)
  | .kBNE => pure (bCondOp insn next (next + 1) .bnes)
  | .kBLT => pure (bCondOp insn next (next + 1) .blts)
  | .kBGE => pure (bCondOp insn next (next + 1) .bges)
  | .kBLTU => pure (bCondOp insn next (next + 1) .ublts)
  | .kBGEU => pure (bCondOp insn next (next + 1) .ubges)
  | .kLW => pure (lOp insn .word .u32)
  | .kLH => pure (lOp insn .half .i16)
  | .kLB => pure (lOp insn .byte .i8)
  | .kLHU => pure (lOp insn .half .u16)
  | .kLBU => pure (lOp insn .byte .u8)
  | .kSW => pure (sOp insn .word)
  | .kSH => pure (sOp insn .half)
  | .kSB => pure (sOp insn .byte)
  | .kJAL => pure (implJAL insn)
  | .kJALR => pure (implJALR insn)
  | .kLUI => pure (implLUI insn)
  | .kAUIPC => pure (implAUIPC insn)
  | .kECALL => pure implECALL
  | .kFENCE | .kEBREAK | .kPAUSE | .kSBREAK | .kSCALL => pure []
  | .kNumOpcodes => throw .unexpectedInsnId

/-- Moves on to the next word. -/
def advance : Code := [.opS .adds (.reg .pc_reg) (.reg .pc_reg) (.int 4#64)]

/-- The body of the loop over the block. -/
def emit (next : ℕ) : Except Exn Code := do
  let code ← emitOpcode insn next
  -- `pc_reg` already moved where the instruction changes `pc`
  let changes ← changesPC insn.opcode
  return code ++ if !changes then advance else []

end Translate

/-- The loop over the block; an instruction creates two labels at most. -/
def emitAll (next : ℕ) : List Instruction → Except Exn Code
  | [] => pure []
  | insn :: insns => do
    let code ← emit insn next
    -- labels of different instructions never meet
    let rest ← emitAll (next + 2) insns
    return code ++ rest

/-- Loads `pc`, once for the block. -/
def loadPC : Code := [.mov (.reg .pc_reg) (.mem .state_ptr .pc)]

/-- Writes `pc` back and counts the block. -/
def finish (n : ℕ) : Code :=
  [.mov (.mem .state_ptr .pc) (.reg .pc_reg), .mov (.reg .rd_reg) (.mem .state_ptr .icountLow),
    .opS .adds (.mem .state_ptr .icountLow) (.reg .rd_reg) (.int (BitVec.ofNat 64 n))]

/-- `MIRJit::translate`. The code ends with a return. -/
def translate (insns : List Instruction) : Except Exn Code := do
  let code ← emitAll 0 insns
  return loadPC ++ code ++ finish insns.length

/-! ### Running the code -/

section Machine

variable {μ : Type}

/-- The machine that the code runs on. -/
abbrev Machine (μ : Type) := State Reg (Host μ)

variable [Memory μ]

/-- What the code runs against. -/
def env (statePtr : BitVec 64) : Env Reg (Field 32) Helper (Host μ) Exn where
  base := statePtr
  load := Host.load
  store := Host.store
  call := Helper.callArgs statePtr
  fault := .undefinedBehaviour

section Env

variable (statePtr : BitVec 64) (field : Field 32) (v : Word) (h : Host μ)

@[simp] theorem env_load : (env statePtr).load field h = Host.load field h := rfl

@[simp] theorem env_store : (env statePtr).store field v h = Host.store field v h := rfl

end Env

/-! ### One guest instruction -/

/-- The host with the `pc` that is in the register. -/
def host (m : Machine μ) : Host μ := { m.mem with cpu := m.mem.cpu.setPC (m.low .pc_reg) }

omit [Memory μ] in
theorem host_getReg (m : Machine μ) (id : ℕ) :
    (host m).cpu.getReg id = m.mem.cpu.getReg id := rfl

omit [Memory μ] in
theorem host_memory (m : Machine μ) : (host m).cpu.memory = m.mem.cpu.memory := rfl

/-- The machine between two guest instructions; the `pc` in memory is still `entryPC`. -/
structure Inv (statePtr : BitVec 64) (entryPC : Word) (m : Machine μ) : Prop where
  base : m.regs .state_ptr = (env (μ := μ) statePtr).base
  zero : m.mem.cpu.getReg 0 = 0#32
  stale : m.mem.cpu.pc = entryPC

/-- The interpreter under a record of states whose `pc` is the one at entry. -/
abbrev tracedAt (entryPC : Word) (insn : Instruction) : EStateM Exn (Host μ) Unit :=
  traced (·.setPC entryPC) execute insn

/-- The code keeps its jumps to itself, and does to the host what `x` does. -/
structure Implements (statePtr : BitVec 64) (entryPC : Word) (code : Code)
    (x : EStateM Exn (Host μ) Unit) : Prop where
  closed : Closed code
  refines : Refines host (Inv statePtr entryPC) ((env statePtr).run none code) x

theorem Implements.append {statePtr : BitVec 64} {entryPC : Word} {code code' : Code}
    {x y : EStateM Exn (Host μ) Unit} (h : Implements statePtr entryPC code x)
    (h' : Implements statePtr entryPC code' y) :
    Implements statePtr entryPC (code ++ code') (x >>= fun _ => y) where
  closed := closed_append h.closed h'.closed
  refines := by
    rw [Env.run_append h.closed]
    exact h.refines.seq h'.refines

variable {statePtr : BitVec 64} {entryPC : Word} {insn : Instruction} {m : Machine μ}

/-- What a helper sees is what is in memory. -/
theorem setPC_host (hinv : Inv statePtr entryPC m) :
    (host m).cpu.setPC entryPC = m.mem.cpu := by
  rw [← hinv.stale]
  rfl

@[simp] theorem target_loadReg (r : Reg) (regId : Operand) : (loadReg r regId).target = none := by
  unfold loadReg
  split <;> rfl

@[simp] theorem closed_setDst (dstId : Operand) (r : Reg) : Closed (setDst dstId r) := by
  unfold setDst
  split <;> simp

/-- Loading `x0` loads the constant that it holds. -/
theorem run_loadReg (hbase : m.regs .state_ptr = (env (μ := μ) statePtr).base)
    (hzero : m.mem.cpu.getReg 0 = 0#32) (r : Reg) (regId : Operand) (code : Code) :
    ((env statePtr).run none (loadReg r regId :: code)).run m =
      ((env statePtr).run none code).run
        (m.set r ((m.mem.cpu.getReg regId.toNat).setWidth 64)) := by
  by_cases h : regId = 0#8
  · rw [loadReg, if_pos h, Env.run_mov_reg Env.valid_int, h]
    exact congrArg (fun v : Word => ((env statePtr).run none code).run (m.set r (v.setWidth 64)))
      hzero.symm
  · rw [loadReg, if_neg h, Env.run_mov_reg (Env.valid_mem.mpr hbase)]
    rfl

/-- Writing a guest register. For `x0` the code is empty, and so is the write. -/
theorem run_setDst (hbase : m.regs .state_ptr = (env (μ := μ) statePtr).base) (r : Reg)
    (code : Code) :
    ((env statePtr).run none (setDst insn.rd r ++ code)).run m =
      ((env statePtr).run none code).run
        (m.setMem { m.mem with cpu := m.mem.cpu.setReg insn.rd.toNat (m.low r) }) := by
  by_cases hrd : insn.rd = 0#8
  · rw [setDst, if_neg (by simp [hrd]), hrd]
    rfl
  · rw [setDst, if_pos hrd, List.cons_append, Env.run_mov_mem Env.valid_reg hbase,
      List.nil_append, env_store, getReg, Host.setReg_eq_store hrd]
    rfl

/-- The end of an instruction: only the register has the new `pc`. -/
theorem matches_ok (hinv : Inv statePtr entryPC m) {m' : Machine μ} {cpu : CPUState μ}
    {calls : List (CPUState μ)} {pc : Word} (hbase : m'.regs .state_ptr = m.regs .state_ptr)
    (hmem : m'.mem = { cpu, calls }) (hzero : cpu.getReg 0 = m.mem.cpu.getReg 0)
    (hstale : cpu.pc = m.mem.cpu.pc) (hpc : m'.low .pc_reg = pc) :
    Matches host (Inv statePtr entryPC) (.ok () m' : EStateM.Result Exn (Machine μ) Unit)
      (.ok () { cpu := cpu.setPC pc, calls }) :=
  .returned (by rw [host, hmem, hpc])
    ⟨hbase.trans hinv.base, by rw [hmem]; exact hzero.trans hinv.zero, by
      rw [hmem]; exact hstale.trans hinv.stale⟩

/-- After an instruction, `pc` is moved on in its register. -/
theorem matches_advance (hinv : Inv statePtr entryPC m) {m' : Machine μ} {cpu : CPUState μ}
    {calls : List (CPUState μ)} (hbase : m'.regs .state_ptr = m.regs .state_ptr)
    (hmem : m'.mem = { cpu, calls }) (hzero : cpu.getReg 0 = m.mem.cpu.getReg 0)
    (hstale : cpu.pc = m.mem.cpu.pc) (hpc : m'.low .pc_reg = m.low .pc_reg) :
    Matches host (Inv statePtr entryPC) (((env statePtr).run none advance).run m')
      (.ok () { cpu := cpu.setPC (m.low .pc_reg + kWordSize), calls }) := by
  rw [advance, Env.run_opS_reg Env.valid_reg Env.valid_int, Env.run_nil]
  refine matches_ok hinv (by simpa using hbase) hmem hzero hstale ?_
  rw [State.low_setLow_self, Env.low_reg, hpc]
  rfl

/-- Most instructions end by writing `rd` and moving on. -/
theorem matches_setDst_advance (hinv : Inv statePtr entryPC m) {m' : Machine μ}
    {calls : List (CPUState μ)} (hbase : m'.regs .state_ptr = m.regs .state_ptr)
    (hmem : m'.mem = { m.mem with calls }) (hpc : m'.low .pc_reg = m.low .pc_reg) {r : Reg}
    {v : Word} (hv : m'.low r = v) :
    Matches host (Inv statePtr entryPC)
      (((env statePtr).run none (setDst insn.rd r ++ advance)).run m')
      (.ok () { cpu := (m.mem.cpu.setReg insn.rd.toNat v).setPC (m.low .pc_reg + kWordSize)
                calls }) := by
  rw [run_setDst (hbase.trans hinv.base), hv, hmem]
  exact matches_advance hinv hbase rfl (by simp) (by simp) hpc

section Families

/-- An operation on two registers. Operations on the low halves leave junk in the upper ones. -/
theorem implements_rOp {op : SOp} {f : Word → Word → Word}
    (hk : insn.opcode.insnClass = some (.rr f)) (hop : op.eval = f) :
    Implements (μ := μ) statePtr entryPC (rOp insn op ++ advance) (tracedAt entryPC insn) := by
  refine ⟨by simp [rOp, advance], fun m hinv => ?_⟩
  simp only [traced_of_not_callsHelper hk rfl, InsnClass.effect, Host.outcome]
  simp only [rOp, List.cons_append, List.nil_append, host, CPUState.setPC_setReg,
    CPUState.setPC_getReg, CPUState.setPC_setPC, CPUState.setPC_pc]
  rw [run_loadReg hinv.base hinv.zero,
    run_loadReg (by simpa using hinv.base) (by simpa using hinv.zero),
    Env.run_opS_reg Env.valid_reg Env.valid_reg, hop]
  refine matches_setDst_advance hinv ?_ ?_ ?_ ?_ <;> simp

theorem implements_iOp {op : SOp} {f : Word → Word → Word}
    (hk : insn.opcode.insnClass = some (.ri f)) (hop : op.eval = f) :
    Implements (μ := μ) statePtr entryPC (iOp insn op ++ advance) (tracedAt entryPC insn) := by
  refine ⟨by simp [iOp, advance], fun m hinv => ?_⟩
  simp only [traced_of_not_callsHelper hk rfl, InsnClass.effect, Host.outcome]
  simp only [iOp, List.cons_append, List.nil_append, host, CPUState.setPC_setReg,
    CPUState.setPC_getReg, CPUState.setPC_setPC, CPUState.setPC_pc]
  rw [run_loadReg hinv.base hinv.zero, Env.run_opS_reg Env.valid_reg Env.valid_int, hop]
  refine matches_setDst_advance hinv ?_ ?_ ?_ ?_ <;> simp

/-- A branch. Taken, the run skips to the first label; not taken, it jumps over it. -/
theorem implements_bCondOp {c : SCond} {cond : Word → Word → Bool} {trueLabel endLabel : ℕ}
    (hne : trueLabel ≠ endLabel) (hk : insn.opcode.insnClass = some (.branch cond))
    (hc : ∀ a b, c.holds a b = cond a b) :
    Implements (μ := μ) statePtr entryPC (bCondOp insn trueLabel endLabel c)
      (tracedAt entryPC insn) := by
  refine ⟨by simp [bCondOp, labels, Insn.labelOf], fun m hinv => ?_⟩
  simp only [traced_of_not_callsHelper hk rfl, InsnClass.effect, Host.outcome]
  rw [host_getReg, host_getReg]
  have hstart : ((env statePtr).run none (bCondOp insn trueLabel endLabel c)).run m =
      ((env statePtr).run (if cond (m.mem.cpu.getReg insn.rs1.toNat)
          (m.mem.cpu.getReg insn.rs2.toNat) then some trueLabel else none)
        [.opS .adds (.reg .pc_reg) (.reg .pc_reg) (.int 4#64), .jmp endLabel, .label trueLabel,
          .opS .adds (.reg .pc_reg) (.reg .pc_reg) (.int (imm64 insn)), .label endLabel]).run
        ((m.set .rs1_reg ((m.mem.cpu.getReg insn.rs1.toNat).setWidth 64)).set .rs2_reg
          ((m.mem.cpu.getReg insn.rs2.toNat).setWidth 64)) := by
    rw [bCondOp, run_loadReg hinv.base hinv.zero,
      run_loadReg (by simpa using hinv.base) (by simpa using hinv.zero),
      Env.run_branchS Env.valid_reg Env.valid_reg]
    simp [hc]
  by_cases hcond : cond (m.mem.cpu.getReg insn.rs1.toNat) (m.mem.cpu.getReg insn.rs2.toNat) = true
  · rw [hstart, if_pos hcond, if_pos hcond, Env.run_skip (by simp [Insn.labelOf]),
      Env.run_skip (by simp [Insn.labelOf]), Env.run_land,
      Env.run_opS_reg Env.valid_reg Env.valid_int, Env.run_label, Env.run_nil]
    simp only [host, CPUState.setPC_setPC, CPUState.setPC_pc]
    refine matches_ok hinv ?_ ?_ ?_ ?_ ?_ <;> simp
  · rw [hstart, if_neg hcond, if_neg hcond, Env.run_opS_reg Env.valid_reg Env.valid_int,
      Env.run_jmp, Env.run_skip (by simp [Insn.labelOf, hne]),
      Env.run_skip (by simp [Insn.labelOf]), Env.run_land, Env.run_nil]
    simp only [host, CPUState.setPC_setPC, CPUState.setPC_pc]
    refine matches_ok hinv ?_ ?_ ?_ ?_ ?_ <;> simp [kWordSize]

theorem implements_implAUIPC (hk : insn.opcode.insnClass = some .auipc) :
    Implements (μ := μ) statePtr entryPC (implAUIPC insn ++ advance) (tracedAt entryPC insn) := by
  refine ⟨by simp [implAUIPC, advance], fun m hinv => ?_⟩
  simp only [traced_of_not_callsHelper hk rfl, InsnClass.effect, Host.outcome]
  simp only [implAUIPC, List.cons_append, List.nil_append, host, CPUState.setPC_setReg,
    CPUState.setPC_setPC, CPUState.setPC_pc]
  rw [Env.run_mov_reg Env.valid_reg, Env.run_opS_reg Env.valid_reg Env.valid_int]
  refine matches_setDst_advance hinv ?_ ?_ ?_ ?_ <;> simp

theorem implements_implLUI (hk : insn.opcode.insnClass = some .lui) :
    Implements (μ := μ) statePtr entryPC (implLUI insn ++ advance) (tracedAt entryPC insn) := by
  refine ⟨by simp [implLUI, advance], fun m hinv => ?_⟩
  simp only [traced_of_not_callsHelper hk rfl, InsnClass.effect, Host.outcome]
  simp only [host, CPUState.setPC_setReg, CPUState.setPC_setPC, CPUState.setPC_pc]
  rw [implLUI, List.cons_append, Env.run_mov_reg Env.valid_int]
  refine matches_setDst_advance hinv ?_ ?_ ?_ ?_ <;> simp

theorem implements_advance (hk : insn.opcode.insnClass = some .nop) :
    Implements (μ := μ) statePtr entryPC ([] ++ advance) (tracedAt entryPC insn) := by
  refine ⟨by simp [advance], fun m hinv => ?_⟩
  rw [traced_of_not_callsHelper hk rfl]
  change Matches host _ _ (.ok ()
    { cpu := m.mem.cpu.setPC (m.low .pc_reg + kWordSize), calls := m.mem.calls })
  exact matches_advance hinv rfl rfl rfl rfl rfl

theorem implements_implJAL (hk : insn.opcode.insnClass = some .jal) :
    Implements (μ := μ) statePtr entryPC (implJAL insn) (tracedAt entryPC insn) := by
  refine ⟨by simp [implJAL], fun m hinv => ?_⟩
  simp only [traced_of_not_callsHelper hk rfl, InsnClass.effect, Host.outcome]
  simp only [implJAL, List.cons_append, List.nil_append, host, CPUState.setPC_setReg,
    CPUState.setPC_setPC, CPUState.setPC_pc]
  rw [Env.run_mov_reg Env.valid_reg, Env.run_opS_reg Env.valid_reg Env.valid_int,
    run_setDst (by simpa using hinv.base), Env.run_opS_reg Env.valid_reg Env.valid_int,
    Env.run_nil]
  refine matches_ok hinv ?_ ?_ ?_ ?_ ?_ <;> simp [kWordSize]

/-- The low half of the 64-bit mask is the mask of a word. -/
theorem implements_implJALR (hk : insn.opcode.insnClass = some .jalr) :
    Implements (μ := μ) statePtr entryPC (implJALR insn) (tracedAt entryPC insn) := by
  refine ⟨by simp [implJALR], fun m hinv => ?_⟩
  simp only [traced_of_not_callsHelper hk rfl, InsnClass.effect, Host.outcome]
  rw [← Bits.and_not_one, ← List.append_nil (implJALR insn)]
  simp only [implJALR, List.cons_append, List.nil_append, host, CPUState.setPC_setReg,
    CPUState.setPC_setPC, CPUState.setPC_pc, CPUState.setPC_getReg]
  rw [Env.run_mov_reg Env.valid_reg, Env.run_opS_reg Env.valid_reg Env.valid_int,
    run_loadReg (by simpa using hinv.base) (by simpa using hinv.zero),
    Env.run_opS_reg Env.valid_reg Env.valid_int, Env.run_and_reg Env.valid_reg Env.valid_int,
    run_setDst (by simpa using hinv.base), Env.run_nil]
  refine matches_ok hinv ?_ ?_ ?_ ?_ ?_ <;> simp [kWordSize]

/-! ### Calls -/

/-- A call whose first argument is the state pointer. -/
theorem run_call {helper : Helper} {res : Option (Ty × Reg)} {args : List Reg} {code : Code}
    (hbase : m.regs .state_ptr = (env (μ := μ) statePtr).base) :
    ((env statePtr).run none (.call helper res (.state_ptr :: args) :: code)).run m =
      match (helper.call ((((args.map m.regs)[0]?).getD 0#64).setWidth 32)
        ((((args.map m.regs)[1]?).getD 0#64).setWidth 32)).run m.mem with
      | .error e h => .error e (m.setMem h)
      | .ok ret h =>
        match res, ret with
        | none, _ => ((env statePtr).run none code).run (m.setMem h)
        | some (ty, r), some v =>
          ((env statePtr).run none code).run ((m.setMem h).set r (ty.convert (v.setWidth 64)))
        | some _, none => .error .undefinedBehaviour (m.setMem h) := by
  have hargs : (env (μ := μ) statePtr).call helper ((Reg.state_ptr :: args).map m.regs) =
      helper.callArgs statePtr (statePtr :: args.map m.regs) := by
    rw [List.map_cons, hbase]
    rfl
  have hcall := run_callArgs statePtr helper (args.map m.regs) m.mem
  rw [Env.run_call]
  simp only [Env.callFn, EStateM.run, hargs] at hcall ⊢
  rw [hcall]
  cases helper.call ((((args.map m.regs)[0]?).getD 0#64).setWidth 32)
    ((((args.map m.regs)[1]?).getD 0#64).setWidth 32) m.mem with
  | error e h => rfl
  | ok ret h => cases res <;> cases ret <;> rfl

/-- The system call does not look at `pc`, which is stale in memory. -/
theorem implements_implECALL (hk : insn.opcode.insnClass = some .ecall) :
    Implements (μ := μ) statePtr entryPC (implECALL ++ advance) (tracedAt entryPC insn) := by
  refine ⟨by simp [implECALL, advance], fun m hinv => ?_⟩
  simp only [traced_eq_effect hk, InsnClass.effect, InsnClass.callsHelper, if_true, setPC_host hinv]
  rw [implECALL, List.cons_append, List.nil_append, run_call hinv.base, run_call_syscall]
  have hsys : (host m).cpu.emulateSysCall =
      m.mem.cpu.emulateSysCall.map (·.setPC (m.low .pc_reg)) :=
    CPUState.setPC_emulateSysCall m.mem.cpu (m.low .pc_reg)
  rw [hsys]
  cases hcall : m.mem.cpu.emulateSysCall with
  | ok cpu =>
    have hcpu := CPUState.emulateSysCall_ok hcall
    change Matches host _ _ (.ok ()
      { cpu := cpu.setPC (m.low .pc_reg + kWordSize), calls := m.mem.calls ++ [m.mem.cpu] })
    exact matches_advance hinv rfl rfl (by rw [hcpu]; rfl) (by rw [hcpu]; rfl) rfl
  | error e => exact .raised rfl

/-- The type that a prototype gives to the result of a load. -/
def resultTy : MemTy → Bool → Ty
  | .byte, true => .i8
  | .byte, false => .u8
  | .half, true => .i16
  | .half, false => .u16
  | .word, _ => .u32

/-- The type of the prototype extends what was loaded. -/
theorem convert_resultTy {T : MemTy} {Signed : Bool} (v : BitVec T.bits) :
    ((resultTy T Signed).convert ((v.setWidth 32).setWidth 64)).setWidth 32 =
      InsnClass.extend Signed v := by
  have hlow : ∀ {w : ℕ} (x : BitVec w), w ≤ 32 →
      ((x.setWidth 32).setWidth 64).setWidth w = x := by
    intro w x hw
    rw [BitVec.setWidth_setWidth_of_le _ (by omega), BitVec.setWidth_setWidth_of_le _ hw,
      BitVec.setWidth_eq]
  cases T with
  | byte | half =>
    cases Signed with
    | true =>
      rw [InsnClass.extend_true, resultTy, Ty.convert, hlow v (by decide),
        Bits.setWidth_signExtend_of_le v (by decide) (by decide)]
    | false =>
      rw [InsnClass.extend_false, resultTy, Ty.convert, hlow v (by decide),
        BitVec.setWidth_setWidth_of_le _ (by decide)]
  | word =>
    cases Signed with
    | true => simp [InsnClass.extend_true, resultTy, Ty.convert]
    | false => simp [InsnClass.extend_false, resultTy, Ty.convert]

theorem implements_lOp {T : MemTy} {Signed : Bool} {ty : Ty}
    (hk : insn.opcode.insnClass = some (.load T Signed)) (hty : resultTy T Signed = ty) :
    Implements (μ := μ) statePtr entryPC (lOp insn T ty ++ advance) (tracedAt entryPC insn) := by
  subst hty
  refine ⟨by simp [lOp, advance], fun m hinv => ?_⟩
  simp only [traced_eq_effect hk, InsnClass.effect, InsnClass.callsHelper, if_true, setPC_host hinv,
    host_getReg, host_memory]
  simp only [lOp, List.cons_append, List.nil_append]
  rw [run_loadReg hinv.base hinv.zero, Env.run_opS_reg Env.valid_reg Env.valid_int,
    run_call (by simpa using hinv.base), run_call_load]
  simp (disch := decide) only [List.map_cons, List.map_nil, List.getElem?_cons_zero,
    Option.getD_some, State.mem_setLow, State.mem_set, State.setWidth_regs, State.low_setLow_self,
    State.low_set_self, Env.low_reg, Env.low_int, BitVec.setWidth_setWidth_of_le,
    BitVec.setWidth_eq, setWidth_imm64, eval_adds]
  cases hread : Memory.read T m.mem.cpu.memory (m.mem.cpu.getReg insn.rs1.toNat + insn.imm) with
  | ok v =>
    simp only [host, CPUState.setPC_setReg, CPUState.setPC_setPC, CPUState.setPC_pc]
    refine matches_setDst_advance hinv ?_ ?_ ?_ ?_
    · simp
    · rfl
    · simp
    · rw [State.low_set_self, convert_resultTy]
  | error e =>
    refine .raised ?_
    simp [host, Host.record]

theorem implements_sOp {T : MemTy} (hk : insn.opcode.insnClass = some (.store T)) :
    Implements (μ := μ) statePtr entryPC (sOp insn T ++ advance) (tracedAt entryPC insn) := by
  refine ⟨by simp [sOp, advance], fun m hinv => ?_⟩
  simp only [traced_eq_effect hk, InsnClass.effect, InsnClass.callsHelper, if_true, setPC_host hinv,
    host_getReg, host_memory]
  rw [sOp, getReg, List.cons_append, List.cons_append, List.cons_append, List.cons_append,
    List.nil_append, run_loadReg hinv.base hinv.zero, Env.run_opS_reg Env.valid_reg Env.valid_int,
    Env.run_mov_reg (Env.valid_mem.mpr (by simpa using hinv.base)),
    run_call (by simpa using hinv.base), run_call_store]
  simp (disch := decide) only [List.map_cons, List.map_nil, List.getElem?_cons_zero,
    List.getElem?_cons_succ, Option.getD_some, State.mem_setLow, State.mem_set,
    State.setWidth_regs, State.low_set_of_ne, State.low_setLow_self, State.low_set_self,
    Env.low_reg, Env.low_int, Env.value_mem, env_load, Host.load_reg,
    BitVec.setWidth_setWidth_of_le, BitVec.setWidth_eq, setWidth_imm64, eval_adds]
  cases hwrite : Memory.write T m.mem.cpu.memory
    (m.mem.cpu.getReg insn.rs1.toNat + insn.imm)
    ((m.mem.cpu.getReg insn.rs2.toNat).setWidth T.bits) with
  | ok memory =>
    change Matches host _ _ (.ok ()
      { cpu := { m.mem.cpu with memory }.setPC (m.low .pc_reg + kWordSize)
        calls := m.mem.calls ++ [m.mem.cpu] })
    refine matches_advance hinv ?_ rfl rfl rfl ?_ <;> simp
  | error e =>
    refine .raised ?_
    simp [host, Host.record]

end Families

/-! ### The whole block -/

/-- An instruction that leaves `pc` to the loop over the block. -/
theorem emit_advance {code : Code} {next : ℕ} (hemit : emitOpcode insn next = .ok code)
    (hchanges : changesPC insn.opcode = .ok false)
    (hcode : Implements (μ := μ) statePtr entryPC (code ++ advance) (tracedAt entryPC insn)) :
    ∃ code, emit insn next = .ok code ∧
      Implements (μ := μ) statePtr entryPC code (tracedAt entryPC insn) :=
  ⟨code ++ advance, by simp only [emit, hemit, hchanges]; rfl, hcode⟩

theorem emit_changesPC {code : Code} {next : ℕ} (hemit : emitOpcode insn next = .ok code)
    (hchanges : changesPC insn.opcode = .ok true)
    (hcode : Implements (μ := μ) statePtr entryPC code (tracedAt entryPC insn)) :
    ∃ code, emit insn next = .ok code ∧
      Implements (μ := μ) statePtr entryPC code (tracedAt entryPC insn) :=
  ⟨code ++ [], by simp only [emit, hemit, hchanges]; rfl, by rwa [List.append_nil]⟩

section Operations

variable (x count : Word)

/-- Both use five bits of a shift amount. -/
theorem eval_lshs : SOp.lshs.eval x count = sllHelper x count := by
  rw [SOp.eval, ← toNat_slice_four_zero]
  rfl

theorem eval_urshs : SOp.urshs.eval x count = srlHelper x count := by
  rw [SOp.eval, ← toNat_slice_four_zero]
  rfl

theorem eval_rshs : SOp.rshs.eval x count = sraHelper x count := by
  rw [SOp.eval, ← toNat_slice_four_zero]
  rfl

theorem holds_ubges : SCond.ubges.holds x count = greaterEqual x count :=
  (greaterEqual_eq x count).symm

end Operations

/-- Entering a block puts `pc` in its register. -/
theorem run_loadPC {code : Code} (hbase : m.regs .state_ptr = statePtr) :
    ((env statePtr).run none (loadPC ++ code)).run m =
      ((env statePtr).run none code).run (m.set .pc_reg (m.mem.cpu.pc.setWidth 64)) := by
  rw [loadPC, List.cons_append, Env.run_mov_reg (Env.valid_mem.mpr hbase)]
  rfl

/-- Leaving a block writes `pc` back and counts in a `dword`. -/
theorem agrees_finish (hinv : Inv statePtr entryPC m) (n : ℕ) :
    Agrees State.mem (((env statePtr).run none (finish n)).run m)
      (.ok () { host m with
        cpu := (host m).cpu.withIcount (Counter.next n (host m).cpu.icount .dword) }) := by
  rw [finish, Env.run_mov_mem Env.valid_reg hinv.base,
    Env.run_mov_reg (Env.valid_mem.mpr (by exact hinv.base)),
    Env.run_opS_mem Env.valid_reg Env.valid_int (by simpa using hinv.base), Env.run_nil]
  refine .returned ?_
  simp only [State.mem_setMem, State.mem_set, Env.low_reg, Env.low_int, Env.value_mem, env_load,
    env_store, Host.store_pc, State.low_set_self]
  simp [host, Host.load, Host.store, Field.load, Field.store, Counter.next]

variable (statePtr entryPC)

/-- Whatever the opcode, its code implements it. -/
theorem emit_implements {k : InsnClass} (hk : insn.opcode.insnClass = some k) (next : ℕ) :
    ∃ code, emit insn next = .ok code ∧
      Implements (μ := μ) statePtr entryPC code (tracedAt entryPC insn) := by
  obtain ⟨opcode, rs1, rs2, rd, imm⟩ := insn
  have hlabels : next ≠ next + 1 := Nat.ne_of_lt (Nat.lt_succ_self next)
  cases opcode
  case kADD | kAND | kOR | kXOR | kSUB | kSLT | kSLTU =>
    exact emit_advance rfl rfl (implements_rOp rfl rfl)
  case kADDI | kANDI | kORI | kXORI | kSLTI | kSLTIU =>
    exact emit_advance rfl rfl (implements_iOp rfl rfl)
  case kSLL => exact emit_advance rfl rfl (implements_rOp rfl (funext₂ eval_lshs))
  case kSRL => exact emit_advance rfl rfl (implements_rOp rfl (funext₂ eval_urshs))
  case kSRA => exact emit_advance rfl rfl (implements_rOp rfl (funext₂ eval_rshs))
  case kSLLI => exact emit_advance rfl rfl (implements_iOp rfl (funext₂ eval_lshs))
  case kSRLI => exact emit_advance rfl rfl (implements_iOp rfl (funext₂ eval_urshs))
  case kSRAI => exact emit_advance rfl rfl (implements_iOp rfl (funext₂ eval_rshs))
  case kBEQ | kBNE | kBLT | kBLTU | kBGE =>
    exact emit_changesPC rfl rfl (implements_bCondOp hlabels rfl fun _ _ => rfl)
  case kBGEU => exact emit_changesPC rfl rfl (implements_bCondOp hlabels rfl holds_ubges)
  case kLUI => exact emit_advance rfl rfl (implements_implLUI rfl)
  case kAUIPC => exact emit_advance rfl rfl (implements_implAUIPC rfl)
  case kJAL => exact emit_changesPC rfl rfl (implements_implJAL rfl)
  case kJALR => exact emit_changesPC rfl rfl (implements_implJALR rfl)
  case kLB | kLH | kLBU | kLHU | kLW =>
    exact emit_advance rfl rfl (implements_lOp rfl rfl)
  case kSB | kSH | kSW => exact emit_advance rfl rfl (implements_sOp rfl)
  case kECALL => exact emit_advance rfl rfl (implements_implECALL rfl)
  case kEBREAK | kFENCE | kPAUSE | kSBREAK | kSCALL =>
    exact emit_advance rfl rfl (implements_advance rfl)
  case kNumOpcodes => cases hk

/-- The code of a block implements it. The labels of the rest start after the two of `insn`. -/
theorem emitAll_implements (insns : List Instruction) (hdecoded : Decoded insns) (next : ℕ) :
    ∃ code, emitAll next insns = .ok code ∧
      Implements (μ := μ) statePtr entryPC code (forM insns (tracedAt entryPC)) := by
  induction insns generalizing next with
  | nil => exact ⟨[], rfl, closed_nil, Refines.pure⟩
  | cons insn insns ih =>
    obtain ⟨k, hk⟩ := hdecoded.insnClass insn List.mem_cons_self
    obtain ⟨code, hemit, hcode⟩ := emit_implements (μ := μ) statePtr entryPC hk next
    obtain ⟨rest, hemitAll, hrest⟩ :=
      ih (fun i hi => hdecoded i (List.mem_cons_of_mem insn hi)) (next + 2)
    exact ⟨code ++ rest, by simp only [emitAll, hemit, hemitAll]; rfl, hcode.append hrest⟩

/-- The code of a block executes it with a `pc` that is in memory at the end only, and
counts it in a `dword`. -/
theorem translate_agrees {insns : List Instruction} (hdecoded : Decoded insns) :
    ∃ code, translate insns = .ok code ∧
      ∀ m : Machine μ, m.regs .state_ptr = statePtr → m.mem.cpu.getReg 0 = 0#32 →
        Agrees State.mem (((env statePtr).run none code).run m)
          ((countedAtEnd .dword (·.setPC m.mem.cpu.pc) execute insns).run m.mem) := by
  obtain ⟨code, hemitAll, -⟩ :=
    emitAll_implements (μ := μ) statePtr 0#32 insns hdecoded 0
  -- the code does not depend on the `pc` at entry, which only the proof fixes
  refine ⟨_, by simp only [translate, hemitAll]; rfl, fun m hbase hzero => ?_⟩
  obtain ⟨_, hemitAll', hclosed, hrefines⟩ :=
    emitAll_implements (μ := μ) statePtr m.mem.cpu.pc insns hdecoded 0
  cases hemitAll.symm.trans hemitAll'
  -- the state in which the first instruction starts
  have hentry : host (m.set .pc_reg (m.mem.cpu.pc.setWidth 64)) = m.mem := by
    rw [host, State.low_set_self, BitVec.setWidth_setWidth_of_le _ (by decide),
      BitVec.setWidth_eq]
    rfl
  have hmatch := hrefines (m.set .pc_reg (m.mem.cpu.pc.setWidth 64))
    ⟨hbase, hzero, rfl⟩
  rw [List.append_assoc, run_loadPC hbase, Env.run_append hclosed, countedAtEnd, EStateM.run_bind,
    EStateM.run_bind]
  rw [hentry] at hmatch
  revert hmatch
  generalize ((env statePtr).run none code).run
    (m.set .pc_reg (m.mem.cpu.pc.setWidth 64)) = concrete
  generalize (forM insns (tracedAt m.mem.cpu.pc)).run m.mem = abstract
  rintro (⟨same, kept⟩ | same)
  · subst same
    exact agrees_finish kept insns.length
  · exact .raised (by rw [← same]; rfl)

/-- The translation of a decoded block ends in the state that interpreting the block
gives, up to the counter. -/
theorem mir_translate_correct {insns : List Instruction} (hdecoded : Decoded insns)
    {s s' : CPUState μ} (hzero : s.getReg 0 = 0#32)
    (hinterp : (interpretInsns insns).run s = .ok () s') {m : Machine μ}
    (hentry : m.regs .state_ptr = statePtr) (hmem : m.mem = { cpu := s }) :
    ∃ code m', translate insns = .ok code ∧
      ((env statePtr).run none code).run m = .ok () m' ∧
      m'.mem.cpu = s'.withIcount m'.mem.cpu.icount := by
  obtain ⟨code, htranslate, hagrees⟩ := translate_agrees (μ := μ) statePtr hdecoded
  have hcounted := run_countedAtEnd .dword (·.setPC m.mem.cpu.pc) hinterp
  rw [← hmem] at hcounted
  obtain ⟨m', hrun, hhost⟩ := (hagrees m hentry (by rw [hmem]; exact hzero)).ok hcounted
  exact ⟨code, m', htranslate, hrun, by rw [hhost]; rfl⟩

end Machine

/-! ### A run of generated code -/

/-- Every register but the state pointer holds junk, and so will every upper half. -/
def sampleMachine : Machine (PlainMemory 0#32 4096) where
  regs | .state_ptr => 0x7000#64 | _ => 0x5555555555555555#64
  upper _ := 0xdeadbeef#32
  mem := { cpu := sampleGuest }

theorem mir_translate_sampleInsns :
    ∃ code m', translate sampleInsns = .ok code ∧
      ((env 0x7000#64).run none code).run sampleMachine = .ok () m' ∧
      m'.mem.cpu = sampleResult.withIcount m'.mem.cpu.icount :=
  mir_translate_correct 0x7000#64 isBlock_sampleInsns.decoded rfl interpretInsns_sampleGuest rfl rfl

end Prot.MIR
