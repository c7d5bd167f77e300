import Prot.Jit.HostX86

/-!
# The AsmJit backend

`AsmJit::translate` emits x86-64 code over the virtual registers of asmjit's
compiler, which places them itself and keeps them across a call. The count of a
block is added at its end, to the low `dword` of `icount`.
-/

namespace Prot.AsmJit

open Isa Interpreter Stateful X86 HostX86

/-- The virtual registers of the function. -/
inductive Vreg where
  | state_ptr | pc | rs1 | rs2 | rd
  deriving DecidableEq

/-- `invoke`, with the registers set as arguments and as result. -/
structure Invoke where
  target : Helper
  arg0 : Vreg
  arg1 : Option Vreg := none
  arg2 : Option Vreg := none
  ret : Option Vreg := none

/-- The code of a block, as the compiler is given it. -/
abbrev Code := List (Insn Vreg Field Invoke)

/-! ### Translation -/

section Translate

variable (insn : Instruction)

/-- A guest register. -/
def getReg (regId : Operand) : X86.Operand Vreg Field := .mem .state_ptr (.reg regId.toNat)

/-- Loads a guest register. `x0` is a constant. -/
def loadReg (reg : Vreg) (regId : Operand) : Insn Vreg Field Invoke :=
  if regId = 0#8 then .mov reg (.imm 0#32) else .mov reg (getReg regId)

/-- The guest's `pc`. -/
def getPC : X86.Operand Vreg Field := .mem .state_ptr .pc

/-- Writes `pc`. -/
def setPC (reg : Vreg) : Insn Vreg Field Invoke := .movMem .state_ptr .pc (.reg reg)

/-- Writes a guest register, unless it is `x0`. -/
def setDst (dstId : Operand) (dst : Vreg) : Code :=
  if dstId ≠ 0#8 then [.movMem .state_ptr (.reg dstId.toNat) (.reg dst)] else []

/-- `PROT_ASMJIT_R_OP`, at an arithmetic operation. -/
def rOp (op : Alu) : Code :=
  [loadReg .rs1 insn.rs1, loadReg .rs2 insn.rs2, .alu op .rs1 (.reg .rs2)] ++ setDst insn.rd .rs1

/-- `PROT_ASMJIT_I_OP`. -/
def iOp (op : Alu) : Code :=
  [loadReg .rs1 insn.rs1, .alu op .rs1 (.imm insn.imm)] ++ setDst insn.rd .rs1

/-- `PROT_ASMJIT_R_OP`, at a shift. -/
def rShiftOp (op : Shift) : Code :=
  -- the count goes through `cl`, which the compiler arranges
  [loadReg .rs1 insn.rs1, loadReg .rs2 insn.rs2, .shift op .rs1 (.reg .rs2)] ++
    setDst insn.rd .rs1

/-- `PROT_ASMJIT_I_SHIFT_OP`. -/
def iShiftOp (op : Shift) : Code :=
  [loadReg .rs1 insn.rs1, .shift op .rs1 (.imm insn.imm)] ++ setDst insn.rd .rs1

/-- `PROT_ASMJIT_R_CMP_OP`: the operands of the comparison are exchanged. -/
def rCmpOp (cc : Cond) : Code :=
  [loadReg .rs1 insn.rs1, loadReg .rs2 insn.rs2, .cmp (.reg .rs2) (.reg .rs1), .setcc cc .rd,
    .movzx8 .rd .rd] ++ setDst insn.rd .rd

/-- `PROT_ASMJIT_I_CMP_OP`. -/
def iCmpOp (cc : Cond) : Code :=
  [loadReg .rs1 insn.rs1, .cmp (.reg .rs1) (.imm insn.imm), .setcc cc .rd, .movzx8 .rd .rd] ++
    setDst insn.rd .rd

/-- `PROT_ASMJIT_B_COND_OP`. -/
def bCondOp (cond : Cond) : Code :=
  -- `mov` leaves the flags of the comparison alone
  [loadReg .rs1 insn.rs1, loadReg .rs2 insn.rs2, .cmp (.reg .rs1) (.reg .rs2),
    .mov .rs1 (.imm kWordSize), .mov .rs2 (.imm insn.imm), .cmov cond .rs1 .rs2,
    .aluMem .add .state_ptr .pc (.reg .rs1)]

/-- `PROT_ASMJIT_S_OP`. -/
def sOp (T : MemTy) : Code :=
  [loadReg .rs1 insn.rs1, .alu .add .rs1 (.imm insn.imm), loadReg .rs2 insn.rs2,
    .ext { target := .store T, arg0 := .state_ptr, arg1 := some .rs1, arg2 := some .rs2 }]

/-- `PROT_ASMJIT_L_OP`; `ext` is its `switch` on the opcode. -/
def lOp (T : MemTy) (ext : Code) : Code :=
  [loadReg .rs1 insn.rs1, .alu .add .rs1 (.imm insn.imm),
    .ext { target := .load T, arg0 := .state_ptr, arg1 := some .rs1, ret := some .rd }] ++ ext ++
    setDst insn.rd .rd

/-- Links, and jumps from the old `pc`. -/
def implJAL : Code :=
  [.mov .rd getPC, .alu .add .rd (.imm kWordSize)] ++ setDst insn.rd .rd ++
    [.mov .pc getPC, .alu .add .pc (.imm insn.imm), setPC .pc]

/-- Links, and jumps to a register and an offset. `rs1` is read before `rd` is stored, so `rd =
rs1` is safe. -/
def implJALR : Code :=
  [.mov .rd getPC, .alu .add .rd (.imm kWordSize), loadReg .pc insn.rs1,
    .alu .add .pc (.imm insn.imm), .alu .and .pc (.imm (~~~1#32))] ++ setDst insn.rd .rd ++
    [setPC .pc]

/-- Loads the immediate. -/
def implLUI : Code := .mov .rs1 (.imm insn.imm) :: setDst insn.rd .rs1

/-- Adds the immediate to `pc`. -/
def implAUIPC : Code :=
  [.mov .rs1 getPC, .alu .add .rs1 (.imm insn.imm)] ++ setDst insn.rd .rs1

/-- Calls the system call helper. -/
def implECALL : Code := [.ext { target := .syscall, arg0 := .state_ptr }]

/-- The `switch` in the loop. -/
def emitOpcode : Except Exn Code :=
  match insn.opcode with
  | .kADD => pure (rOp insn .add)
  | .kADDI => pure (iOp insn .add)
  | .kAND => pure (rOp insn .and)
  | .kANDI => pure (iOp insn .and)
  | .kOR => pure (rOp insn .or)
  | .kORI => pure (iOp insn .or)
  | .kXOR => pure (rOp insn .xor)
  | .kXORI => pure (iOp insn .xor)
  | .kSLL => pure (rShiftOp insn .shl)
  | .kSLLI => pure (iShiftOp insn .shl)
  | .kSRA => pure (rShiftOp insn .sar)
  | .kSRAI => pure (iShiftOp insn .sar)
  | .kSRL => pure (rShiftOp insn .shr)
  | .kSRLI => pure (iShiftOp insn .shr)
  | .kSUB => pure (rOp insn .sub)
  | .kSLT => pure (rCmpOp insn .g)
  | .kSLTU => pure (rCmpOp insn .a)
  | .kSLTI => pure (iCmpOp insn .l)
  | .kSLTIU => pure (iCmpOp insn .b)
  | .kBEQ => pure (bCondOp insn .e)
  | .kBNE => pure (bCondOp insn .ne)
  | .kBLT => pure (bCondOp insn .l)
  | .kBGE => pure (bCondOp insn .ge)
  | .kBLTU => pure (bCondOp insn .b)
  | .kBGEU => pure (bCondOp insn .ae)
  | .kLB => pure (lOp insn .byte [.movsx8 .rd .rd])
  | .kLH => pure (lOp insn .half [.movsx16 .rd .rd])
  | .kLBU => pure (lOp insn .byte [])
  | .kLHU => pure (lOp insn .half [])
  | .kLW => pure (lOp insn .word [])
  | .kSB => pure (sOp insn .byte)
  | .kSH => pure (sOp insn .half)
  | .kSW => pure (sOp insn .word)
  | .kJAL => pure (implJAL insn)
  | .kJALR => pure (implJALR insn)
  | .kLUI => pure (implLUI insn)
  | .kAUIPC => pure (implAUIPC insn)
  | .kECALL => pure implECALL
  | .kFENCE | .kEBREAK | .kPAUSE | .kSBREAK | .kSCALL => pure []
  | .kNumOpcodes => throw .unexpectedInsnId

/-- Moves on to the next word. -/
def advance : Code := [.mov .pc getPC, .alu .add .pc (.imm kWordSize), setPC .pc]

/-- The body of the loop over the block. -/
def emit : Except Exn Code := do
  let code ← emitOpcode insn
  let changes ← changesPC insn.opcode
  return code ++ if !changes then advance else []

end Translate

/-- Counts the block. -/
def countInsns (n : ℕ) : Code :=
  [.mov .rd (.imm (BitVec.ofNat 32 n)), .aluMem .add .state_ptr .icountLow (.reg .rd)]

/-- `AsmJit::translate`. -/
def translate (insns : List Instruction) : Except Exn Code := do
  let code ← insns.mapM emit
  return code.flatten ++ countInsns insns.length

/-! ### Running the code -/

section Machine

variable {μ : Type}

/-- The machine that the code runs on. -/
abbrev Machine (μ : Type) := State Vreg (Host μ)

/-- The register of an argument, if the helper takes it. -/
def argument (m : Machine μ) (arg : Option Vreg) : Word := arg.elim 0#32 m.get32

/-- Moves a result to the register set for it. -/
def setRet (m : Machine μ) : Option Vreg → Option Word → Machine μ
  | some r, some v => m.set32 r v
  | _, _ => m

variable [Memory μ]

/-- A call keeps every virtual register but the one of its result. -/
def call (statePtr : BitVec 64) (node : Invoke) : EStateM Exn (Machine μ) Unit := fun m =>
  -- a helper given anything else would follow a wild pointer
  if m.regs node.arg0 = statePtr then
    match (node.target.call (argument m node.arg1) (argument m node.arg2)).run m.mem with
    | .ok ret h => .ok () (setRet (m.setMem h).forgetFlags node.ret ret)
    | .error e h => .error e (m.setMem h)
  else .error .undefinedBehaviour m

/-- What the code runs against. -/
abbrev env (statePtr : BitVec 64) : Env Vreg Field Invoke (Host μ) Exn :=
  hostEnv statePtr (call statePtr)

/-! ### One guest instruction -/

/-- The machine between two guest instructions. -/
abbrev Inv (statePtr : BitVec 64) : List (BitVec 64) → Machine μ → Prop :=
  HostX86.Inv (env statePtr) .state_ptr

/-- The code does to the host what `x` does. -/
abbrev Implements (statePtr : BitVec 64) (stack : List (BitVec 64)) (code : Code)
    (x : EStateM Exn (Host μ) Unit) : Prop :=
  Refines (fun m : Machine μ => m.mem) (Inv statePtr stack) ((env statePtr).run code) x

variable {statePtr : BitVec 64} {stack : List (BitVec 64)} {insn : Instruction} {m : Machine μ}

/-- Loading `x0` loads the constant that it holds. -/
theorem run_loadReg (hbase : m.regs .state_ptr = (env (μ := μ) statePtr).base)
    (hzero : m.mem.cpu.getReg 0 = 0#32) (r : Vreg) (regId : Operand) (code : Code) :
    ((env statePtr).run (loadReg r regId :: code)).run m =
      ((env statePtr).run code).run (m.set32 r (m.mem.cpu.getReg regId.toNat)) := by
  by_cases h : regId = 0#8
  · rw [loadReg, if_pos h, Env.run_mov Env.valid_imm, h]
    exact congrArg (fun v => ((env statePtr).run code).run (m.set32 r v)) hzero.symm
  · rw [loadReg, if_neg h, getReg, Env.run_mov (Env.valid_mem.mpr hbase)]
    rfl

/-- Writing a guest register. For `x0` the code is empty, and so is the write. -/
theorem run_setDst (hbase : m.regs .state_ptr = (env (μ := μ) statePtr).base) (r : Vreg)
    (code : Code) :
    ((env statePtr).run (setDst insn.rd r ++ code)).run m =
      ((env statePtr).run code).run
        (m.setMem { m.mem with cpu := m.mem.cpu.setReg insn.rd.toNat (m.get32 r) }) := by
  by_cases hrd : insn.rd = 0#8
  · rw [setDst, if_neg (by simp [hrd]), hrd]
    rfl
  · rw [setDst, if_pos hrd, List.cons_append, Env.run_movMem hbase, List.nil_append, hostEnv_store,
      Env.source_reg, Host.setReg_eq_store hrd]

/-- After an instruction, `pc` is read back through the state pointer and moved on. -/
theorem matches_advance (hinv : Inv statePtr stack m) {m' : Machine μ} {cpu : CPUState μ}
    {calls : List (CPUState μ)} (hbase : m'.regs .state_ptr = m.regs .state_ptr)
    (hstack : m'.stack = m.stack) (hmem : m'.mem = { cpu, calls })
    (hzero : cpu.getReg 0 = m.mem.cpu.getReg 0) :
    Matches (·.mem) (Inv statePtr stack) (((env statePtr).run advance).run m')
      (.ok () { cpu := cpu.setPC (cpu.pc + kWordSize), calls }) := by
  have hbase' := hbase.trans hinv.base
  rw [advance, getPC, setPC, Env.run_mov (Env.valid_mem.mpr hbase'), Env.run_alu Env.valid_imm,
    Env.run_movMem (by simpa using hbase'), Env.run_nil]
  refine matches_ok hinv ?_ ?_ ?_ ?_ <;> simp [hbase, hstack, hmem, hzero]

/-- Most instructions end by writing `rd` and moving on. -/
theorem matches_setDst_advance (hinv : Inv statePtr stack m) {m' : Machine μ}
    {calls : List (CPUState μ)} (hbase : m'.regs .state_ptr = m.regs .state_ptr)
    (hstack : m'.stack = m.stack) (hmem : m'.mem = { m.mem with calls }) {r : Vreg} {v : Word}
    (hv : m'.get32 r = v) :
    Matches (·.mem) (Inv statePtr stack)
      (((env statePtr).run (setDst insn.rd r ++ advance)).run m')
      (.ok () { cpu := (m.mem.cpu.setReg insn.rd.toNat v).setPC (m.mem.cpu.pc + kWordSize)
                calls }) := by
  rw [run_setDst (hbase.trans hinv.base), hv, hmem, ← CPUState.setReg_pc m.mem.cpu insn.rd.toNat v]
  exact matches_advance hinv hbase hstack rfl (by simp)

section Families

/-- An operation on two registers. They are read before `rs1` is overwritten. -/
theorem implements_rOp {op : Alu} {f : Word → Word → Word}
    (hk : insn.opcode.insnClass = some (.rr f)) (hop : op.eval = f) :
    Implements (μ := μ) statePtr stack (rOp insn op ++ advance) (traced id execute insn) := by
  intro m hinv
  simp only [traced_of_not_callsHelper hk rfl, InsnClass.effect, Host.outcome]
  have hcore : ((env statePtr).run (rOp insn op ++ advance)).run m =
      ((env statePtr).run (setDst insn.rd .rs1 ++ advance)).run
        (((m.set32 .rs1 (m.mem.cpu.getReg insn.rs1.toNat)).set32 .rs2
          (m.mem.cpu.getReg insn.rs2.toNat)).set32 .rs1
          (f (m.mem.cpu.getReg insn.rs1.toNat) (m.mem.cpu.getReg insn.rs2.toNat))).forgetFlags := by
    simp [rOp, run_loadReg, hinv.base, hinv.zero, hop]
  rw [hcore]
  refine matches_setDst_advance hinv ?_ ?_ ?_ ?_ <;> simp

theorem implements_iOp {op : Alu} {f : Word → Word → Word}
    (hk : insn.opcode.insnClass = some (.ri f)) (hop : op.eval = f) :
    Implements (μ := μ) statePtr stack (iOp insn op ++ advance) (traced id execute insn) := by
  intro m hinv
  simp only [traced_of_not_callsHelper hk rfl, InsnClass.effect, Host.outcome]
  have hcore : ((env statePtr).run (iOp insn op ++ advance)).run m =
      ((env statePtr).run (setDst insn.rd .rs1 ++ advance)).run
        ((m.set32 .rs1 (m.mem.cpu.getReg insn.rs1.toNat)).set32 .rs1
          (f (m.mem.cpu.getReg insn.rs1.toNat) insn.imm)).forgetFlags := by
    simp [iOp, run_loadReg, hinv.base, hinv.zero, hop]
  rw [hcore]
  refine matches_setDst_advance hinv ?_ ?_ ?_ ?_ <;> simp

theorem implements_rShiftOp {op : Shift} {f : Word → Word → Word}
    (hk : insn.opcode.insnClass = some (.rr f))
    (hop : ∀ x count : Word, op.eval x (count.setWidth 8) = f x count) :
    Implements (μ := μ) statePtr stack (rShiftOp insn op ++ advance) (traced id execute insn) := by
  intro m hinv
  simp only [traced_of_not_callsHelper hk rfl, InsnClass.effect, Host.outcome]
  have hcore : ((env statePtr).run (rShiftOp insn op ++ advance)).run m =
      ((env statePtr).run (setDst insn.rd .rs1 ++ advance)).run
        (((m.set32 .rs1 (m.mem.cpu.getReg insn.rs1.toNat)).set32 .rs2
          (m.mem.cpu.getReg insn.rs2.toNat)).set32 .rs1
          (f (m.mem.cpu.getReg insn.rs1.toNat) (m.mem.cpu.getReg insn.rs2.toNat))).forgetFlags := by
    simp [rShiftOp, run_loadReg, hinv.base, hinv.zero, hop]
  rw [hcore]
  refine matches_setDst_advance hinv ?_ ?_ ?_ ?_ <;> simp

theorem implements_iShiftOp {op : Shift} {f : Word → Word → Word}
    (hk : insn.opcode.insnClass = some (.ri f))
    (hop : ∀ x count : Word, op.eval x (count.setWidth 8) = f x count) :
    Implements (μ := μ) statePtr stack (iShiftOp insn op ++ advance) (traced id execute insn) := by
  intro m hinv
  simp only [traced_of_not_callsHelper hk rfl, InsnClass.effect, Host.outcome]
  have hcore : ((env statePtr).run (iShiftOp insn op ++ advance)).run m =
      ((env statePtr).run (setDst insn.rd .rs1 ++ advance)).run
        ((m.set32 .rs1 (m.mem.cpu.getReg insn.rs1.toNat)).set32 .rs1
          (f (m.mem.cpu.getReg insn.rs1.toNat) insn.imm)).forgetFlags := by
    simp [iShiftOp, run_loadReg, hinv.base, hinv.zero, hop]
  rw [hcore]
  refine matches_setDst_advance hinv ?_ ?_ ?_ ?_ <;> simp

/-- The condition is the one of the interpreter with its operands exchanged. -/
theorem implements_rCmpOp {cc : Cond} {cond : Word → Word → Bool}
    (hk : insn.opcode.insnClass = some (.rr (compareOp cond)))
    (hcc : ∀ a b, cc.holds (.compare b a) = cond a b) :
    Implements (μ := μ) statePtr stack (rCmpOp insn cc ++ advance) (traced id execute insn) := by
  intro m hinv
  simp only [traced_of_not_callsHelper hk rfl, InsnClass.effect, Host.outcome]
  simp only [rCmpOp, List.cons_append, List.nil_append]
  rw [run_loadReg hinv.base hinv.zero,
    run_loadReg (by simpa using hinv.base) (by simpa using hinv.zero),
    Env.run_cmp Env.valid_reg Env.valid_reg]
  rw [Env.run_setcc rfl, Env.run_movzx8, State.setWidth_regs_setLow_self _ _ _ (by decide)]
  refine matches_setDst_advance hinv (by simp) (by simp) (by simp) ?_
  simp [compareOp, boolToWord, hcc]

theorem implements_iCmpOp {cc : Cond} {cond : Word → Word → Bool}
    (hk : insn.opcode.insnClass = some (.ri (compareOp cond)))
    (hcc : ∀ a b, cc.holds (.compare a b) = cond a b) :
    Implements (μ := μ) statePtr stack (iCmpOp insn cc ++ advance) (traced id execute insn) := by
  intro m hinv
  simp only [traced_of_not_callsHelper hk rfl, InsnClass.effect, Host.outcome]
  simp only [iCmpOp, List.cons_append, List.nil_append]
  rw [run_loadReg hinv.base hinv.zero, Env.run_cmp Env.valid_reg Env.valid_imm]
  rw [Env.run_setcc rfl, Env.run_movzx8, State.setWidth_regs_setLow_self _ _ _ (by decide)]
  refine matches_setDst_advance hinv (by simp) (by simp) (by simp) ?_
  simp [compareOp, boolToWord, hcc]

/-- A branch. The flags still are those of the two operands. -/
theorem implements_bCondOp {cc : Cond} {cond : Word → Word → Bool}
    (hk : insn.opcode.insnClass = some (.branch cond))
    (hcc : ∀ a b, cc.holds (.compare a b) = cond a b) :
    Implements (μ := μ) statePtr stack (bCondOp insn cc) (traced id execute insn) := by
  intro m hinv
  simp only [traced_of_not_callsHelper hk rfl, InsnClass.effect, Host.outcome]
  rw [bCondOp, run_loadReg hinv.base hinv.zero,
    run_loadReg (by simpa using hinv.base) (by simpa using hinv.zero),
    Env.run_cmp Env.valid_reg Env.valid_reg, Env.run_mov Env.valid_imm, Env.run_mov Env.valid_imm]
  rw [Env.run_cmov rfl, Env.run_aluMem (by simpa using hinv.base), Env.run_nil]
  refine matches_ok hinv ?_ ?_ ?_ ?_ <;> simp [hcc]

theorem implements_implAUIPC (hk : insn.opcode.insnClass = some .auipc) :
    Implements (μ := μ) statePtr stack (implAUIPC insn ++ advance) (traced id execute insn) := by
  intro m hinv
  simp only [traced_of_not_callsHelper hk rfl, InsnClass.effect, Host.outcome]
  simp only [implAUIPC, getPC, List.cons_append, List.nil_append]
  rw [Env.run_mov (Env.valid_mem.mpr hinv.base), Env.run_alu Env.valid_imm]
  refine matches_setDst_advance hinv ?_ ?_ ?_ ?_ <;> simp

theorem implements_implLUI (hk : insn.opcode.insnClass = some .lui) :
    Implements (μ := μ) statePtr stack (implLUI insn ++ advance) (traced id execute insn) := by
  intro m hinv
  simp only [traced_of_not_callsHelper hk rfl, InsnClass.effect, Host.outcome]
  rw [implLUI, List.cons_append, Env.run_mov Env.valid_imm]
  refine matches_setDst_advance hinv ?_ ?_ ?_ ?_ <;> simp

theorem implements_advance (hk : insn.opcode.insnClass = some .nop) :
    Implements (μ := μ) statePtr stack ([] ++ advance) (traced id execute insn) := by
  intro m hinv
  rw [traced_of_not_callsHelper hk rfl]
  exact matches_advance hinv rfl rfl rfl rfl

theorem implements_implJAL (hk : insn.opcode.insnClass = some .jal) :
    Implements (μ := μ) statePtr stack (implJAL insn) (traced id execute insn) := by
  intro m hinv
  simp only [traced_of_not_callsHelper hk rfl, InsnClass.effect, Host.outcome]
  simp only [implJAL, getPC, setPC, List.cons_append, List.nil_append]
  rw [Env.run_mov (Env.valid_mem.mpr hinv.base), Env.run_alu Env.valid_imm,
    run_setDst (by simpa using hinv.base),
    Env.run_mov (Env.valid_mem.mpr (by simpa using hinv.base)), Env.run_alu Env.valid_imm,
    Env.run_movMem (by simpa using hinv.base), Env.run_nil]
  refine matches_ok hinv ?_ ?_ ?_ ?_ <;> simp

/-- The code masks where the interpreter shifts right and left. -/
theorem implements_implJALR (hk : insn.opcode.insnClass = some .jalr) :
    Implements (μ := μ) statePtr stack (implJALR insn) (traced id execute insn) := by
  intro m hinv
  simp only [traced_of_not_callsHelper hk rfl, InsnClass.effect, Host.outcome]
  rw [← Bits.and_not_one]
  simp only [implJALR, getPC, setPC, List.cons_append, List.nil_append]
  rw [Env.run_mov (Env.valid_mem.mpr hinv.base), Env.run_alu Env.valid_imm,
    run_loadReg (by simpa using hinv.base) (by simpa using hinv.zero), Env.run_alu Env.valid_imm,
    Env.run_alu Env.valid_imm, run_setDst (by simpa using hinv.base),
    Env.run_movMem (by simpa using hinv.base), Env.run_nil]
  refine matches_ok hinv ?_ ?_ ?_ ?_ <;> simp

/-! ### Calls -/

theorem run_call {node : Invoke} {code : Code}
    (hbase : m.regs node.arg0 = (env (μ := μ) statePtr).base) :
    ((env statePtr).run (.ext node :: code)).run m =
      match (node.target.call (argument m node.arg1) (argument m node.arg2)).run m.mem with
      | .ok ret h => ((env statePtr).run code).run (setRet (m.setMem h).forgetFlags node.ret ret)
      | .error e h => .error e (m.setMem h) := by
  have hbase' : m.regs node.arg0 = statePtr := hbase
  rw [Env.run_ext, hostEnv_ext]
  simp only [call, EStateM.run, hbase', if_true]
  cases node.target.call (argument m node.arg1) (argument m node.arg2) m.mem <;> rfl

/-- The system call leaves `pc` alone, so the loop moves on from the old one. -/
theorem implements_implECALL (hk : insn.opcode.insnClass = some .ecall) :
    Implements (μ := μ) statePtr stack (implECALL ++ advance) (traced id execute insn) := by
  intro m hinv
  simp only [traced_eq_effect hk, InsnClass.effect, InsnClass.callsHelper, if_true]
  rw [implECALL, List.cons_append, List.nil_append, run_call hinv.base, run_call_syscall]
  cases hcall : m.mem.cpu.emulateSysCall with
  | ok cpu =>
    have hcpu := CPUState.emulateSysCall_ok hcall
    have hpc : m.mem.cpu.pc = cpu.pc := by rw [hcpu]; rfl
    rw [hpc]
    exact matches_advance hinv rfl rfl rfl (by rw [hcpu]; rfl)
  | error e => exact .raised rfl

/-- Code that widens the `T` that a call left in `rd`, as a load of this kind has to. -/
def Extends (μ : Type) [Memory μ] (statePtr : BitVec 64) (T : MemTy) (Signed : Bool)
    (ext : Code) : Prop :=
  ∀ (m : Machine μ) (v : BitVec T.bits) (code : Code),
    ((env statePtr).run (ext ++ code)).run (m.set32 .rd (v.setWidth 32)) =
      ((env statePtr).run code).run (m.set32 .rd (InsnClass.extend Signed v))

theorem extends_nil (T : MemTy) : Extends μ statePtr T false [] := fun _ _ _ => rfl

theorem extends_byte : Extends μ statePtr .byte true [.movsx8 .rd .rd] := by
  intro m v code
  rw [List.cons_append, Env.run_movsx8, State.set32_set32, State.regs_set32_self,
    BitVec.setWidth_setWidth_of_le _ (by decide), BitVec.setWidth_setWidth_of_le _ (by decide),
    BitVec.setWidth_eq, InsnClass.extend_true, List.nil_append]

theorem extends_half : Extends μ statePtr .half true [.movsx16 .rd .rd] := by
  intro m v code
  rw [List.cons_append, Env.run_movsx16, State.set32_set32, State.regs_set32_self,
    BitVec.setWidth_setWidth_of_le _ (by decide), BitVec.setWidth_setWidth_of_le _ (by decide),
    BitVec.setWidth_eq, InsnClass.extend_true, List.nil_append]

theorem implements_lOp {T : MemTy} {Signed : Bool} {ext : Code}
    (hk : insn.opcode.insnClass = some (.load T Signed)) (hext : Extends μ statePtr T Signed ext) :
    Implements (μ := μ) statePtr stack (lOp insn T ext ++ advance) (traced id execute insn) := by
  intro m hinv
  simp only [traced_eq_effect hk, InsnClass.effect, InsnClass.callsHelper, if_true]
  simp only [lOp, List.cons_append, List.nil_append, List.append_assoc]
  rw [run_loadReg hinv.base hinv.zero, Env.run_alu Env.valid_imm,
    run_call (by simpa using hinv.base), run_call_load]
  simp only [argument, Option.elim_some, State.mem_forgetFlags, State.mem_set32,
    State.get32_forgetFlags, State.get32_set32_self, eval_add, Env.value_imm]
  cases hread : Memory.read T m.mem.cpu.memory (m.mem.cpu.getReg insn.rs1.toNat + insn.imm) with
  | ok v =>
    simp only [setRet]
    rw [hext _ v]
    refine matches_setDst_advance hinv ?_ ?_ ?_ ?_ <;> simp [Host.record]
  | error e => exact .raised rfl

theorem implements_sOp {T : MemTy} (hk : insn.opcode.insnClass = some (.store T)) :
    Implements (μ := μ) statePtr stack (sOp insn T ++ advance) (traced id execute insn) := by
  intro m hinv
  simp only [traced_eq_effect hk, InsnClass.effect, InsnClass.callsHelper, if_true]
  simp only [sOp, List.cons_append, List.nil_append]
  rw [run_loadReg hinv.base hinv.zero, Env.run_alu Env.valid_imm,
    run_loadReg (by simpa using hinv.base) (by simpa using hinv.zero),
    run_call (by simpa using hinv.base), run_call_store]
  simp (disch := decide) only [argument, Option.elim_some, State.mem_forgetFlags,
    State.mem_set32, State.get32_forgetFlags, State.get32_set32_self, State.get32_set32_of_ne,
    eval_add, Env.value_imm]
  cases hwrite : Memory.write T m.mem.cpu.memory
    (m.mem.cpu.getReg insn.rs1.toNat + insn.imm)
    ((m.mem.cpu.getReg insn.rs2.toNat).setWidth T.bits) with
  | ok memory =>
    simp only [setRet]
    refine matches_advance hinv ?_ ?_ rfl rfl <;> simp
  | error e => exact .raised rfl

end Families

/-! ### The whole block -/

/-- An instruction that leaves `pc` to the loop over the block. -/
theorem emit_advance {code : Code} (hemit : emitOpcode insn = .ok code)
    (hchanges : changesPC insn.opcode = .ok false)
    (hcode : Implements (μ := μ) statePtr stack (code ++ advance) (traced id execute insn)) :
    ∃ code, emit insn = .ok code ∧
      Implements (μ := μ) statePtr stack code (traced id execute insn) :=
  ⟨code ++ advance, by simp only [emit, hemit, hchanges]; rfl, hcode⟩

theorem emit_changesPC {code : Code} (hemit : emitOpcode insn = .ok code)
    (hchanges : changesPC insn.opcode = .ok true)
    (hcode : Implements (μ := μ) statePtr stack code (traced id execute insn)) :
    ∃ code, emit insn = .ok code ∧
      Implements (μ := μ) statePtr stack code (traced id execute insn) :=
  ⟨code ++ [], by simp only [emit, hemit, hchanges]; rfl, by rwa [List.append_nil]⟩

variable (statePtr stack)

/-- Whatever the opcode, its code implements it. -/
theorem emit_implements {k : InsnClass} (hk : insn.opcode.insnClass = some k) :
    ∃ code, emit insn = .ok code ∧
      Implements (μ := μ) statePtr stack code (traced id execute insn) := by
  obtain ⟨opcode, rs1, rs2, rd, imm⟩ := insn
  cases opcode
  case kADD | kAND | kOR | kXOR | kSUB => exact emit_advance rfl rfl (implements_rOp rfl rfl)
  case kADDI | kANDI | kORI | kXORI => exact emit_advance rfl rfl (implements_iOp rfl rfl)
  case kSLL | kSRL | kSRA => exact emit_advance rfl rfl (implements_rShiftOp rfl (shift_eval_eq _))
  case kSLLI | kSRLI | kSRAI =>
    exact emit_advance rfl rfl (implements_iShiftOp rfl (shift_eval_eq _))
  case kSLT => exact emit_advance rfl rfl (implements_rCmpOp rfl fun a b => holds_g b a)
  case kSLTU => exact emit_advance rfl rfl (implements_rCmpOp rfl fun a b => holds_a b a)
  case kSLTI => exact emit_advance rfl rfl (implements_iCmpOp rfl holds_l)
  case kSLTIU => exact emit_advance rfl rfl (implements_iCmpOp rfl holds_b)
  case kBEQ => exact emit_changesPC rfl rfl (implements_bCondOp rfl holds_e)
  case kBNE => exact emit_changesPC rfl rfl (implements_bCondOp rfl holds_ne)
  case kBLT => exact emit_changesPC rfl rfl (implements_bCondOp rfl holds_l)
  case kBLTU => exact emit_changesPC rfl rfl (implements_bCondOp rfl holds_b)
  case kBGE => exact emit_changesPC rfl rfl (implements_bCondOp rfl holds_ge)
  case kBGEU => exact emit_changesPC rfl rfl (implements_bCondOp rfl holds_greaterEqual)
  case kLUI => exact emit_advance rfl rfl (implements_implLUI rfl)
  case kAUIPC => exact emit_advance rfl rfl (implements_implAUIPC rfl)
  case kJAL => exact emit_changesPC rfl rfl (implements_implJAL rfl)
  case kJALR => exact emit_changesPC rfl rfl (implements_implJALR rfl)
  case kLB => exact emit_advance rfl rfl (implements_lOp rfl extends_byte)
  case kLH => exact emit_advance rfl rfl (implements_lOp rfl extends_half)
  case kLBU | kLHU | kLW => exact emit_advance rfl rfl (implements_lOp rfl (extends_nil _))
  case kSB | kSH | kSW => exact emit_advance rfl rfl (implements_sOp rfl)
  case kECALL => exact emit_advance rfl rfl (implements_implECALL rfl)
  case kEBREAK | kFENCE | kPAUSE | kSBREAK | kSCALL =>
    exact emit_advance rfl rfl (implements_advance rfl)
  case kNumOpcodes => cases hk

/-- The code of a block executes it under the record, then counts it in a `dword`. -/
theorem translate_implements {insns : List Instruction} (hdecoded : Decoded insns) :
    ∃ code, translate insns = .ok code ∧
      Implements (μ := μ) statePtr stack code (countedAtEnd .dword id execute insns) := by
  obtain ⟨codes, hcodes, himplements⟩ := exists_mapM_eq_ok insns fun insn hmem => by
    obtain ⟨k, hk⟩ := hdecoded.insnClass insn hmem
    exact emit_implements (μ := μ) statePtr stack hk
  refine ⟨_, by simp only [translate, hcodes]; rfl, ?_⟩
  rw [Implements, Env.run_append, countedAtEnd, Env.run, forM_flatten]
  refine (Refines.forM₂ himplements).seq fun m hinv => ?_
  rw [countInsns, Env.run_mov Env.valid_imm, Env.run_aluMem (by simpa using hinv.base)]
  refine .returned ?_ ⟨by simpa using hinv.base, by simpa using hinv.stack_eq, ?_⟩
  · simp only [State.mem_forgetFlags, State.mem_setMem]
    simp [Host.store, Field.store, Host.load, Field.load, Counter.next]
  · exact hinv.zero

/-- The translation of a decoded block ends in the state that interpreting the block
gives, up to the counter. -/
theorem asmjit_translate_correct {insns : List Instruction}
    (hdecoded : Decoded insns) {s s' : CPUState μ} (hzero : s.getReg 0 = 0#32)
    (hinterp : (interpretInsns insns).run s = .ok () s') {m : Machine μ}
    (hentry : m.regs .state_ptr = statePtr) (hmem : m.mem = { cpu := s }) :
    ∃ code m', translate insns = .ok code ∧ ((env statePtr).run code).run m = .ok () m' ∧
      m'.mem.cpu = s'.withIcount m'.mem.cpu.icount := by
  obtain ⟨code, htranslate, himplements⟩ :=
    translate_implements (μ := μ) statePtr m.stack hdecoded
  have hcounted := run_countedAtEnd .dword id hinterp
  rw [← hmem] at hcounted
  obtain ⟨m', hrun, hhost, -⟩ :=
    himplements.ok ⟨hentry, rfl, by rw [hmem]; exact hzero⟩ hcounted
  exact ⟨code, m', htranslate, hrun, by rw [hhost]; rfl⟩

end Machine

/-! ### A run of generated code -/

/-- Whatever the registers held before, other than the state pointer. -/
def sampleMachine : Machine (PlainMemory 0#32 4096) where
  regs | .state_ptr => 0x7000#64 | _ => 0x5555555555555555#64
  flags := none
  stack := []
  mem := { cpu := sampleGuest }

theorem asmjit_translate_sampleInsns :
    ∃ code m', translate sampleInsns = .ok code ∧
      ((env 0x7000#64).run code).run sampleMachine = .ok () m' ∧
      m'.mem.cpu = sampleResult.withIcount m'.mem.cpu.icount :=
  asmjit_translate_correct 0x7000#64 isBlock_sampleInsns.decoded rfl interpretInsns_sampleGuest
    rfl rfl

end Prot.AsmJit
