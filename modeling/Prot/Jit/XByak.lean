import Prot.Jit.HostX86

/-!
# The XByak backend

`XByakJit::translate` emits x86-64 code that keeps nothing in registers from one
guest instruction to the next, except the pointer to the CPU state.
-/

namespace Prot.XByak

open Isa Interpreter Stateful X86 HostX86

/-- The registers that the code names: the parameters and temporaries of its
`StackFrame`, `rcx` and `rax`. A callee may overwrite each of them. -/
inductive Gpr where
  | p0 | p1 | p2 | t0 | t1 | t2 | rcx | rax
  deriving DecidableEq

/-- `call` through a register. -/
inductive Call where
  | call (target : Gpr)

/-- The code of a block. -/
abbrev Code := List (Insn Gpr Field Call)

/-- Where the helpers were linked. -/
structure Linkage where
  addr : Helper → BitVec 64
  injective : Function.Injective addr

/-- The helpers that there are. -/
def Linkage.helpers : List Helper :=
  [.load .byte, .load .half, .load .word, .store .byte, .store .half, .store .word, .syscall]

/-- The helper at an address. -/
def Linkage.find (link : Linkage) (a : BitVec 64) : Option Helper :=
  helpers.find? fun helper => link.addr helper = a

/-- The helper at an address. Helpers at one address are one helper. -/
theorem Linkage.find_addr (link : Linkage) (helper : Helper) :
    link.find (link.addr helper) = some helper := by
  have h : ∀ x, decide (link.addr x = link.addr helper) = decide (x = helper) := fun x => by
    simp [link.injective.eq_iff]
  simp only [find, h]
  rcases helper with T | T | _
  · cases T <;> rfl
  · cases T <;> rfl
  · rfl

/-! ### Translation -/

section Translate

variable (link : Linkage) (insn : Instruction)

/-- A guest register. -/
def getReg (regId : Operand) : X86.Operand Gpr Field := .mem .p0 (.reg regId.toNat)

/-- The guest's `pc`. -/
def getPc : X86.Operand Gpr Field := .mem .p0 .pc

/-- Loads the first source. -/
def getRs1 (reg : Gpr) : Insn Gpr Field Call := .mov reg (getReg insn.rs1)

/-- Loads the second source. -/
def getRs2 (reg : Gpr) : Insn Gpr Field Call := .mov reg (getReg insn.rs2)

/-- Writes the destination, unless it is `x0`. -/
def setRd (reg : Gpr) : Code :=
  if insn.rd ≠ 0#8 then [.movMem .p0 (.reg insn.rd.toNat) (.reg reg)] else []

/-- `k##OP` in the first `PROT_MAKE_IMPL`. -/
def implR (op : Alu) : Code := [getRs1 insn .t0, .alu op .t0 (getReg insn.rs2)] ++ setRd insn .t0

/-- `k##OP##I` in the first `PROT_MAKE_IMPL`. -/
def implI (op : Alu) : Code := [getRs1 insn .t0, .alu op .t0 (.imm insn.imm)] ++ setRd insn .t0

/-- A branch: one of two offsets is added to `pc`. -/
def implBranch (cc : Cond) : Code :=
  -- `mov` leaves the flags of the comparison alone
  [getRs1 insn .t0, .cmp (.reg .t0) (getReg insn.rs2), .mov .t0 (.imm kWordSize),
    .mov .t1 (.imm insn.imm), .cmov cc .t0 .t1, .aluMem .add .p0 .pc (.reg .t0)]

/-- A comparison of two registers. -/
def implCmpR (cc : Cond) : Code :=
  [getRs1 insn .t0, .cmp (.reg .t0) (getReg insn.rs2), .mov .t0 (.imm 0#32), .setcc cc .t0] ++
    setRd insn .t0

/-- A comparison with the immediate. -/
def implCmpI (cc : Cond) : Code :=
  [.cmp (getReg insn.rs1) (.imm insn.imm), .mov .t0 (.imm 0#32), .setcc cc .t0] ++ setRd insn .t0

/-- A shift by a register. -/
def implShiftR (op : Shift) : Code :=
  -- the count of a shift has to be in `cl`
  [getRs1 insn .t0, getRs2 insn .rcx, .shift op .t0 (.reg .rcx)] ++ setRd insn .t0

/-- A shift by the immediate. -/
def implShiftI (op : Shift) : Code :=
  [getRs1 insn .t0, .shift op .t0 (.imm insn.imm)] ++ setRd insn .t0

/-- Calls the system call helper. -/
def implEcall : Code :=
  [.movImm64 .t0 (link.addr .syscall), .push .p0, .ext (.call .t0), .pop .p0]

/-- Links, and jumps. The link is made from `pc` before the offset is added to it. -/
def implJal : Code :=
  [.mov .t0 getPc, .alu .add .t0 (.imm kWordSize)] ++ setRd insn .t0 ++
    [.aluMem .add .p0 .pc (.imm insn.imm)]

/-- Links, and jumps to a register and an offset. `rs1` is read before `rd` is stored, so `rd =
rs1` is safe. -/
def implJalr : Code :=
  [.mov .t0 getPc, .alu .add .t0 (.imm kWordSize), getRs1 insn .t1, .alu .add .t1 (.imm insn.imm),
    .alu .and .t1 (.imm (~~~1#32)), .movMem .p0 .pc (.reg .t1)] ++ setRd insn .t0

/-- Stores the immediate. -/
def implLui : Code :=
  if insn.rd ≠ 0#8 then [.movMem .p0 (.reg insn.rd.toNat) (.imm insn.imm)] else []

/-- Adds the immediate to `pc`. -/
def implAuipc : Code :=
  [.mov .t0 getPc, .alu .add .t0 (.imm insn.imm)] ++ setRd insn .t0

/-- A load of a `T`; `ext` is the fall-through `switch` on the opcode. -/
def implLoad (T : MemTy) (ext : Code) : Code :=
  -- `p0` is saved around the call, since the callee may overwrite it
  [getRs1 insn .p1, .alu .add .p1 (.imm insn.imm), .push .p0,
    .movImm64 .t0 (link.addr (.load T)), .ext (.call .t0), .pop .p0] ++ ext ++ setRd insn .rax

/-- A call of a store helper. -/
def implStore (T : MemTy) : Code :=
  [getRs1 insn .p1, .alu .add .p1 (.imm insn.imm), getRs2 insn .p2, .push .p0,
    .movImm64 .t0 (link.addr (.store T)), .ext (.call .t0), .pop .p0]

/-- The `switch` in the loop. -/
def emitOpcode : Except Exn Code :=
  match insn.opcode with
  | .kADD => pure (implR insn .add)
  | .kADDI => pure (implI insn .add)
  | .kAND => pure (implR insn .and)
  | .kANDI => pure (implI insn .and)
  | .kOR => pure (implR insn .or)
  | .kORI => pure (implI insn .or)
  | .kXOR => pure (implR insn .xor)
  | .kXORI => pure (implI insn .xor)
  | .kAUIPC => pure (implAuipc insn)
  | .kBEQ => pure (implBranch insn .e)
  | .kBGE => pure (implBranch insn .ge)
  | .kBGEU => pure (implBranch insn .ae)
  | .kBLT => pure (implBranch insn .l)
  | .kBLTU => pure (implBranch insn .b)
  | .kBNE => pure (implBranch insn .ne)
  | .kEBREAK => pure []
  | .kECALL => pure (implEcall link)
  | .kFENCE => pure []
  | .kJAL => pure (implJal insn)
  | .kJALR => pure (implJalr insn)
  | .kLUI => pure (implLui insn)
  | .kLB => pure (implLoad link insn .byte [.cbw .rax, .cwde .rax])
  | .kLBU => pure (implLoad link insn .byte [])
  | .kLH => pure (implLoad link insn .half [.cwde .rax])
  | .kLHU => pure (implLoad link insn .half [])
  | .kLW => pure (implLoad link insn .word [])
  | .kPAUSE | .kSBREAK | .kSCALL => pure []
  | .kSLT => pure (implCmpR insn .l)
  | .kSLTI => pure (implCmpI insn .l)
  | .kSLTU => pure (implCmpR insn .b)
  | .kSLTIU => pure (implCmpI insn .b)
  | .kSLL => pure (implShiftR insn .shl)
  | .kSLLI => pure (implShiftI insn .shl)
  | .kSRA => pure (implShiftR insn .sar)
  | .kSRAI => pure (implShiftI insn .sar)
  | .kSRL => pure (implShiftR insn .shr)
  | .kSRLI => pure (implShiftI insn .shr)
  | .kSUB => pure ([getRs1 insn .t0, .alu .sub .t0 (getReg insn.rs2)] ++ setRd insn .t0)
  | .kSB => pure (implStore link insn .byte)
  | .kSH => pure (implStore link insn .half)
  | .kSW => pure (implStore link insn .word)
  | .kNumOpcodes => throw .unexpectedInsnId

/-- Moves on to the next word. -/
def advance : Code := [.aluMem .add .p0 .pc (.imm kWordSize)]

/-- The body of the loop over the block. -/
def emit : Except Exn Code := do
  let code ← emitOpcode link insn
  let changes ← changesPC insn.opcode
  return code ++ (if !changes then advance else []) ++ [.incMem64 .p0 .icount]

end Translate

/-- `XByakJit::translate`, without the prologue and epilogue of the stack frame. -/
def translate (link : Linkage) (insns : List Instruction) : Except Exn Code := do
  let code ← insns.mapM (emit link)
  return code.flatten

/-! ### Running the code -/

section Machine

variable {μ : Type}

/-- What is not fixed by the code: where the state and the helpers are, and what
a callee leaves in the registers. -/
structure Platform (μ : Type) where
  statePtr : BitVec 64
  link : Linkage
  clobber : Host μ → Gpr → BitVec 64

/-- The machine that the code runs on. -/
abbrev Machine (μ : Type) := State Gpr (Host μ)

/-- The registers after a call, with the result in the low half of `rax`. -/
def Platform.regsAfter (pf : Platform μ) (h : Host μ) (ret : Option Word) (r : Gpr) : BitVec 64 :=
  match r, ret with
  | .rax, some v => ((pf.clobber h .rax >>> 32) <<< 32) ||| v.setWidth 64
  | r, _ => pf.clobber h r

variable [Memory μ]

/-- Calls the helper whose address is in `target`. -/
def Platform.call (pf : Platform μ) (target : Gpr) : EStateM Exn (Machine μ) Unit := fun m =>
  -- a jump to anything but a helper is undefined
  match pf.link.find (m.regs target) with
  | none => .error .undefinedBehaviour m
  | some helper =>
    if m.regs .p0 = pf.statePtr then
      match (helper.call (m.get32 .p1) (m.get32 .p2)).run m.mem with
      | .ok ret h => .ok () { m with mem := h, regs := pf.regsAfter h ret, flags := none }
      | .error e h => .error e (m.setMem h)
    else .error .undefinedBehaviour m

/-- What the code runs against. -/
abbrev Platform.env (pf : Platform μ) : Env Gpr Field Call (Host μ) Exn :=
  hostEnv pf.statePtr fun | .call target => pf.call target

/-! ### One guest instruction -/

/-- The machine between two guest instructions. -/
abbrev Platform.Inv (pf : Platform μ) : List (BitVec 64) → Machine μ → Prop :=
  HostX86.Inv pf.env .p0

variable {pf : Platform μ} {stack : List (BitVec 64)} {insn : Instruction} {m : Machine μ}

/-- Writing a guest register. For `x0` the code is empty, and so is the write. -/
theorem run_setRd (hbase : m.regs .p0 = pf.env.base) (r : Gpr) (code : Code) :
    (pf.env.run (setRd insn r ++ code)).run m =
      (pf.env.run code).run
        (m.setMem { m.mem with cpu := m.mem.cpu.setReg insn.rd.toNat (m.get32 r) }) := by
  by_cases hrd : insn.rd = 0#8
  · rw [setRd, if_neg (by simp [hrd]), hrd]
    rfl
  · rw [setRd, if_pos hrd, List.cons_append, Env.run_movMem hbase, List.nil_append, hostEnv_store,
      Env.source_reg, Host.setReg_eq_store hrd]

/-- After an instruction, `pc` is moved on in memory. -/
theorem matches_advance (hinv : pf.Inv stack m) {m' : Machine μ} {cpu : CPUState μ}
    {calls : List (CPUState μ)} (hbase : m'.regs .p0 = m.regs .p0) (hstack : m'.stack = m.stack)
    (hmem : m'.mem = { cpu, calls }) (hzero : cpu.getReg 0 = m.mem.cpu.getReg 0) :
    Matches (·.mem) (pf.Inv stack) ((pf.env.run advance).run m')
      (.ok () { cpu := cpu.setPC (cpu.pc + kWordSize), calls }) := by
  rw [advance, Env.run_aluMem (hbase.trans hinv.base), Env.run_nil]
  refine matches_ok hinv hbase hstack ?_ hzero
  simp [hmem]

/-- Most instructions end by writing `rd` and moving on. -/
theorem matches_setRd_advance (hinv : pf.Inv stack m) {m' : Machine μ}
    {calls : List (CPUState μ)} (hbase : m'.regs .p0 = m.regs .p0) (hstack : m'.stack = m.stack)
    (hmem : m'.mem = { m.mem with calls }) {r : Gpr} {v : Word} (hv : m'.get32 r = v) :
    Matches (·.mem) (pf.Inv stack) ((pf.env.run (setRd insn r ++ advance)).run m')
      (.ok () { cpu := (m.mem.cpu.setReg insn.rd.toNat v).setPC (m.mem.cpu.pc + kWordSize)
                calls }) := by
  rw [run_setRd (hbase.trans hinv.base), hv, hmem, ← CPUState.setReg_pc m.mem.cpu insn.rd.toNat v]
  exact matches_advance hinv hbase hstack rfl (by simp)

section Families

/-- The second operand is read from memory, where `x0` is zero too. -/
theorem refines_implR {op : Alu} {f : Word → Word → Word}
    (hk : insn.opcode.insnClass = some (.rr f)) (hop : op.eval = f) :
    Refines (·.mem) (pf.Inv stack) (pf.env.run (implR insn op ++ advance))
      (traced id execute insn) := by
  intro m hinv
  simp only [traced_of_not_callsHelper hk rfl, InsnClass.effect, Host.outcome]
  have hcore : (pf.env.run (implR insn op ++ advance)).run m =
      (pf.env.run (setRd insn .t0 ++ advance)).run
        ((m.set32 .t0 (m.mem.cpu.getReg insn.rs1.toNat)).set32 .t0
          (f (m.mem.cpu.getReg insn.rs1.toNat) (m.mem.cpu.getReg insn.rs2.toNat))).forgetFlags := by
    simp [implR, getRs1, getReg, hinv.base, hop]
  rw [hcore]
  refine matches_setRd_advance hinv ?_ ?_ ?_ ?_ <;> simp

theorem refines_implI {op : Alu} {f : Word → Word → Word}
    (hk : insn.opcode.insnClass = some (.ri f)) (hop : op.eval = f) :
    Refines (·.mem) (pf.Inv stack) (pf.env.run (implI insn op ++ advance))
      (traced id execute insn) := by
  intro m hinv
  simp only [traced_of_not_callsHelper hk rfl, InsnClass.effect, Host.outcome]
  have hcore : (pf.env.run (implI insn op ++ advance)).run m =
      (pf.env.run (setRd insn .t0 ++ advance)).run
        ((m.set32 .t0 (m.mem.cpu.getReg insn.rs1.toNat)).set32 .t0
          (f (m.mem.cpu.getReg insn.rs1.toNat) insn.imm)).forgetFlags := by
    simp [implI, getRs1, getReg, hinv.base, hop]
  rw [hcore]
  refine matches_setRd_advance hinv ?_ ?_ ?_ ?_ <;> simp

theorem refines_implShiftR {op : Shift} {f : Word → Word → Word}
    (hk : insn.opcode.insnClass = some (.rr f))
    (hop : ∀ x count : Word, op.eval x (count.setWidth 8) = f x count) :
    Refines (·.mem) (pf.Inv stack) (pf.env.run (implShiftR insn op ++ advance))
      (traced id execute insn) := by
  intro m hinv
  simp only [traced_of_not_callsHelper hk rfl, InsnClass.effect, Host.outcome]
  have hcore : (pf.env.run (implShiftR insn op ++ advance)).run m =
      (pf.env.run (setRd insn .t0 ++ advance)).run
        (((m.set32 .t0 (m.mem.cpu.getReg insn.rs1.toNat)).set32 .rcx
          (m.mem.cpu.getReg insn.rs2.toNat)).set32 .t0
          (f (m.mem.cpu.getReg insn.rs1.toNat) (m.mem.cpu.getReg insn.rs2.toNat))).forgetFlags := by
    simp [implShiftR, getRs1, getRs2, getReg, hinv.base, hop]
  rw [hcore]
  refine matches_setRd_advance hinv ?_ ?_ ?_ ?_ <;> simp

theorem refines_implShiftI {op : Shift} {f : Word → Word → Word}
    (hk : insn.opcode.insnClass = some (.ri f))
    (hop : ∀ x count : Word, op.eval x (count.setWidth 8) = f x count) :
    Refines (·.mem) (pf.Inv stack) (pf.env.run (implShiftI insn op ++ advance))
      (traced id execute insn) := by
  intro m hinv
  simp only [traced_of_not_callsHelper hk rfl, InsnClass.effect, Host.outcome]
  have hcore : (pf.env.run (implShiftI insn op ++ advance)).run m =
      (pf.env.run (setRd insn .t0 ++ advance)).run
        ((m.set32 .t0 (m.mem.cpu.getReg insn.rs1.toNat)).set32 .t0
          (f (m.mem.cpu.getReg insn.rs1.toNat) insn.imm)).forgetFlags := by
    simp [implShiftI, getRs1, getReg, hinv.base, hop]
  rw [hcore]
  refine matches_setRd_advance hinv ?_ ?_ ?_ ?_ <;> simp

/-- The `mov` that clears the destination keeps the flags. -/
theorem refines_implCmpR {cc : Cond} {cond : Word → Word → Bool}
    (hk : insn.opcode.insnClass = some (.rr (compareOp cond)))
    (hcc : ∀ a b, cc.holds (.compare a b) = cond a b) :
    Refines (·.mem) (pf.Inv stack) (pf.env.run (implCmpR insn cc ++ advance))
      (traced id execute insn) := by
  intro m hinv
  simp only [traced_of_not_callsHelper hk rfl, InsnClass.effect, Host.outcome]
  simp only [implCmpR, getRs1, getReg, List.cons_append, List.nil_append]
  rw [Env.run_mov (Env.valid_mem.mpr hinv.base),
    Env.run_cmp Env.valid_reg (Env.valid_mem.mpr (by simpa using hinv.base)),
    Env.run_mov Env.valid_imm]
  rw [Env.run_setcc rfl]
  refine matches_setRd_advance hinv (by simp) (by simp) (by simp) ?_
  rw [State.get32_setLow_of_zero _ _ _ (by simp), hcc]
  simp [compareOp, boolToWord]

theorem refines_implCmpI {cc : Cond} {cond : Word → Word → Bool}
    (hk : insn.opcode.insnClass = some (.ri (compareOp cond)))
    (hcc : ∀ a b, cc.holds (.compare a b) = cond a b) :
    Refines (·.mem) (pf.Inv stack) (pf.env.run (implCmpI insn cc ++ advance))
      (traced id execute insn) := by
  intro m hinv
  simp only [traced_of_not_callsHelper hk rfl, InsnClass.effect, Host.outcome]
  simp only [implCmpI, getReg, List.cons_append, List.nil_append]
  rw [Env.run_cmp (Env.valid_mem.mpr hinv.base) Env.valid_imm, Env.run_mov Env.valid_imm,
    Env.run_setcc rfl]
  refine matches_setRd_advance hinv (by simp) (by simp) (by simp) ?_
  rw [State.get32_setLow_of_zero _ _ _ (by simp), hcc]
  simp [compareOp, boolToWord]

/-- Both candidate offsets are loaded after the comparison, by moves. -/
theorem refines_implBranch {cc : Cond} {cond : Word → Word → Bool}
    (hk : insn.opcode.insnClass = some (.branch cond))
    (hcc : ∀ a b, cc.holds (.compare a b) = cond a b) :
    Refines (·.mem) (pf.Inv stack) (pf.env.run (implBranch insn cc)) (traced id execute insn) := by
  intro m hinv
  simp only [traced_of_not_callsHelper hk rfl, InsnClass.effect, Host.outcome]
  rw [implBranch, getRs1, getReg, getReg, Env.run_mov (Env.valid_mem.mpr hinv.base),
    Env.run_cmp Env.valid_reg (Env.valid_mem.mpr (by simpa using hinv.base))]
  rw [Env.run_mov Env.valid_imm, Env.run_mov Env.valid_imm, Env.run_cmov rfl,
    Env.run_aluMem (by simpa using hinv.base), Env.run_nil]
  refine matches_ok hinv ?_ ?_ ?_ ?_ <;> simp [hcc]

theorem refines_implAuipc (hk : insn.opcode.insnClass = some .auipc) :
    Refines (·.mem) (pf.Inv stack) (pf.env.run (implAuipc insn ++ advance))
      (traced id execute insn) := by
  intro m hinv
  simp only [traced_of_not_callsHelper hk rfl, InsnClass.effect, Host.outcome]
  simp only [implAuipc, getPc, List.cons_append, List.nil_append]
  rw [Env.run_mov (Env.valid_mem.mpr hinv.base), Env.run_alu Env.valid_imm]
  refine matches_setRd_advance hinv ?_ ?_ ?_ ?_ <;> simp

/-- The store is an immediate one, so `run_setRd` does not cover it. -/
theorem refines_implLui (hk : insn.opcode.insnClass = some .lui) :
    Refines (·.mem) (pf.Inv stack) (pf.env.run (implLui insn ++ advance))
      (traced id execute insn) := by
  intro m hinv
  simp only [traced_of_not_callsHelper hk rfl, InsnClass.effect, Host.outcome]
  rw [← CPUState.setReg_pc m.mem.cpu insn.rd.toNat insn.imm]
  by_cases hrd : insn.rd = 0#8
  · rw [implLui, if_neg (by simp [hrd]), hrd]
    exact matches_advance hinv rfl rfl rfl rfl
  · rw [implLui, if_pos hrd, List.cons_append, List.nil_append, Env.run_movMem hinv.base]
    refine matches_advance hinv rfl rfl ?_ (by simp)
    simp [Host.setReg_eq_store hrd]

theorem refines_nop (hk : insn.opcode.insnClass = some .nop) :
    Refines (·.mem) (pf.Inv stack) (pf.env.run advance) (traced id execute insn) := by
  intro m hinv
  rw [traced_of_not_callsHelper hk rfl]
  exact matches_advance hinv rfl rfl rfl rfl

theorem refines_implJal (hk : insn.opcode.insnClass = some .jal) :
    Refines (·.mem) (pf.Inv stack) (pf.env.run (implJal insn)) (traced id execute insn) := by
  intro m hinv
  simp only [traced_of_not_callsHelper hk rfl, InsnClass.effect, Host.outcome]
  simp only [implJal, getPc, List.cons_append, List.nil_append]
  rw [Env.run_mov (Env.valid_mem.mpr hinv.base), Env.run_alu Env.valid_imm,
    run_setRd (by simpa using hinv.base), Env.run_aluMem (by simpa using hinv.base), Env.run_nil]
  refine matches_ok hinv ?_ ?_ ?_ ?_ <;> simp

/-- The code masks where the interpreter shifts right and left. -/
theorem refines_implJalr (hk : insn.opcode.insnClass = some .jalr) :
    Refines (·.mem) (pf.Inv stack) (pf.env.run (implJalr insn)) (traced id execute insn) := by
  intro m hinv
  simp only [traced_of_not_callsHelper hk rfl, InsnClass.effect, Host.outcome]
  rw [← List.append_nil (implJalr insn), ← Bits.and_not_one]
  simp only [implJalr, getPc, getRs1, getReg, List.cons_append, List.nil_append]
  rw [Env.run_mov (Env.valid_mem.mpr hinv.base), Env.run_alu Env.valid_imm,
    Env.run_mov (Env.valid_mem.mpr (by simpa using hinv.base)), Env.run_alu Env.valid_imm,
    Env.run_alu Env.valid_imm, Env.run_movMem (by simpa using hinv.base),
    run_setRd (by simpa using hinv.base), Env.run_nil]
  refine matches_ok hinv ?_ ?_ ?_ ?_ <;> simp [CPUState.setPC_setReg]

/-! ### Calls -/

/-- The machine after a call that returned, with the state pointer restored. -/
def Platform.returned (pf : Platform μ) (stack : List (BitVec 64)) (h : Host μ)
    (ret : Option Word) : Machine μ where
  regs := Function.update (pf.regsAfter h ret) .p0 pf.env.base
  flags := none
  stack := stack
  mem := h

variable (stack) in
/-- A call to a helper that is where the linker put it. -/
theorem run_call (helper : Helper) {code : Code} (htarget : m.regs .t0 = pf.link.addr helper)
    (hbase : m.regs .p0 = pf.env.base) (hstack : m.stack = pf.env.base :: stack) :
    (pf.env.run (.ext (.call .t0) :: .pop .p0 :: code)).run m =
      match (helper.call (m.get32 .p1) (m.get32 .p2)).run m.mem with
      | .ok ret h => (pf.env.run code).run (pf.returned stack h ret)
      | .error e h => .error e (m.setMem h) := by
  have hbase' : m.regs .p0 = pf.statePtr := hbase
  rw [Env.run_ext, hostEnv_ext]
  simp only [Platform.call, EStateM.run, htarget, Linkage.find_addr, hbase', if_true]
  cases helper.call (m.get32 .p1) (m.get32 .p2) m.mem with
  | ok ret h => exact Env.run_pop hstack
  | error e h => rfl

section Returned

variable (h : Host μ) (ret : Option Word) (v : Word)

@[simp] theorem base_returned : (pf.returned stack h ret).regs .p0 = pf.env.base :=
  rfl

@[simp] theorem stack_returned : (pf.returned stack h ret).stack = stack := rfl

variable (pf stack) in
/-- The result is in the lower half, under the junk. -/
theorem get32_rax_returned : (pf.returned stack h (some v)).get32 .rax = v := by
  refine BitVec.eq_of_getLsbD_eq fun i hi => ?_
  simp [State.get32, Platform.returned, Platform.regsAfter, hi]

end Returned

/-- The system call leaves `pc` alone, so the loop moves on from the old one. -/
theorem refines_implEcall (hk : insn.opcode.insnClass = some .ecall) :
    Refines (·.mem) (pf.Inv stack) (pf.env.run (implEcall pf.link ++ advance))
      (traced id execute insn) := by
  intro m hinv
  simp only [traced_eq_effect hk, InsnClass.effect, InsnClass.callsHelper, if_true]
  simp only [implEcall, List.cons_append, List.nil_append, Env.run_movImm64, Env.run_push]
  rw [run_call stack .syscall (by simp) (by simp [hinv.base])
    (by simp [hinv.base, hinv.stack_eq]), run_call_syscall]
  simp only [State.mem_setStack, State.mem_set64]
  cases hcall : m.mem.cpu.emulateSysCall with
  | ok cpu =>
    have hcpu := CPUState.emulateSysCall_ok hcall
    have hpc : m.mem.cpu.pc = cpu.pc := by rw [hcpu]; rfl
    rw [hpc]
    refine matches_advance hinv ?_ ?_ rfl ?_
    · rw [base_returned, hinv.base]
    · rw [stack_returned, hinv.stack_eq]
    · rw [hcpu]; rfl
  | error e => exact .raised rfl

/-- Code that widens the `T` in the low half of `rax`, as a load of this kind has to. -/
def Extends (pf : Platform μ) (T : MemTy) (Signed : Bool) (ext : Code) : Prop :=
  ∀ (m : Machine μ) (v : BitVec T.bits) (code : Code), m.get32 .rax = v.setWidth 32 →
    ∃ m', (pf.env.run (ext ++ code)).run m = (pf.env.run code).run m' ∧
      m'.get32 .rax = InsnClass.extend Signed v ∧ m'.regs .p0 = m.regs .p0 ∧
      m'.stack = m.stack ∧ m'.mem = m.mem

theorem extends_nil (T : MemTy) : Extends pf T false [] :=
  fun m _ _ hrax => ⟨m, rfl, hrax, rfl, rfl, rfl⟩

theorem extends_half : Extends pf .half true [.cwde .rax] := by
  intro m v code hrax
  refine ⟨_, Env.run_cwde, ?_, ?_, rfl, rfl⟩
  · rw [State.get32_set32_self, setWidth_regs_of_get32 (by decide) hrax, InsnClass.extend_true]
  · simp

/-- A byte is widened twice, first to 16 bits. -/
theorem extends_byte : Extends pf .byte true [.cbw .rax, .cwde .rax] := by
  intro m v code hrax
  refine ⟨_, Env.run_cbw.trans Env.run_cwde, ?_, ?_, rfl, rfl⟩
  · rw [State.get32_set32_self, State.setWidth_regs_setLow_self _ _ _ (by decide),
      setWidth_regs_of_get32 (by decide) hrax, InsnClass.extend_true,
      Bits.signExtend_signExtend _ (by decide) (by decide)]
  · simp

theorem refines_implLoad {T : MemTy} {Signed : Bool} {ext : Code}
    (hk : insn.opcode.insnClass = some (.load T Signed)) (hext : Extends pf T Signed ext) :
    Refines (·.mem) (pf.Inv stack) (pf.env.run (implLoad pf.link insn T ext ++ advance))
      (traced id execute insn) := by
  intro m hinv
  simp only [traced_eq_effect hk, InsnClass.effect, InsnClass.callsHelper, if_true]
  simp only [implLoad, getRs1, getReg, List.cons_append, List.nil_append, List.append_assoc]
  rw [Env.run_mov (Env.valid_mem.mpr hinv.base), Env.run_alu Env.valid_imm, Env.run_push,
    Env.run_movImm64, run_call stack (.load T) (by simp) (by simp [hinv.base])
    (by simp [hinv.base, hinv.stack_eq]), run_call_load]
  simp (disch := decide) only [State.mem_set64, State.mem_setStack, State.mem_forgetFlags,
    State.mem_set32, State.get32_set64_of_ne, State.get32_setStack, State.get32_forgetFlags,
    State.get32_set32_self, eval_add, Env.value_mem, Env.value_imm, hostEnv_load, Host.load_reg]
  cases hread : Memory.read T m.mem.cpu.memory (m.mem.cpu.getReg insn.rs1.toNat + insn.imm) with
  | ok v =>
    obtain ⟨m', hrun, hrax, hbase, hstack, hmem⟩ := hext _ v (setRd insn .rax ++ advance)
      (get32_rax_returned pf stack (m.mem.record m.mem.cpu) (v.setWidth 32))
    simp only [hrun]
    refine matches_setRd_advance hinv ?_ ?_ ?_ hrax
    · rw [hbase, base_returned, hinv.base]
    · rw [hstack, stack_returned, hinv.stack_eq]
    · rw [hmem]; rfl
  | error e => exact .raised rfl

theorem refines_implStore {T : MemTy} (hk : insn.opcode.insnClass = some (.store T)) :
    Refines (·.mem) (pf.Inv stack) (pf.env.run (implStore pf.link insn T ++ advance))
      (traced id execute insn) := by
  intro m hinv
  simp only [traced_eq_effect hk, InsnClass.effect, InsnClass.callsHelper, if_true]
  simp only [implStore, getRs1, getRs2, getReg, List.cons_append, List.nil_append]
  rw [Env.run_mov (Env.valid_mem.mpr hinv.base), Env.run_alu Env.valid_imm,
    Env.run_mov (Env.valid_mem.mpr (by simpa using hinv.base)), Env.run_push, Env.run_movImm64,
    run_call stack (.store T) (by simp) (by simp [hinv.base])
    (by simp [hinv.base, hinv.stack_eq]), run_call_store]
  simp (disch := decide) only [State.mem_set64, State.mem_setStack, State.mem_forgetFlags,
    State.mem_set32, State.get32_set64_of_ne, State.get32_setStack, State.get32_forgetFlags,
    State.get32_set32_self, State.get32_set32_of_ne, eval_add, Env.value_mem, Env.value_imm,
    hostEnv_load, Host.load_reg]
  cases hwrite : Memory.write T m.mem.cpu.memory
    (m.mem.cpu.getReg insn.rs1.toNat + insn.imm)
    ((m.mem.cpu.getReg insn.rs2.toNat).setWidth T.bits) with
  | ok memory =>
    refine matches_advance hinv ?_ ?_ rfl rfl
    · rw [base_returned, hinv.base]
    · rw [stack_returned, hinv.stack_eq]
  | error e => exact .raised rfl

end Families

/-! ### The whole block -/

/-- An instruction that leaves `pc` to the loop over the block. -/
theorem emitOpcode_advance {code : Code} (hemit : emitOpcode pf.link insn = .ok code)
    (hchanges : changesPC insn.opcode = .ok false)
    (hcode : Refines (·.mem) (pf.Inv stack) (pf.env.run (code ++ advance))
      (traced id execute insn)) :
    ∃ code changes, emitOpcode pf.link insn = .ok code ∧ changesPC insn.opcode = .ok changes ∧
      Refines (·.mem) (pf.Inv stack) (pf.env.run (code ++ if !changes then advance else []))
        (traced id execute insn) :=
  ⟨code, false, hemit, hchanges, hcode⟩

theorem emitOpcode_changesPC {code : Code} (hemit : emitOpcode pf.link insn = .ok code)
    (hchanges : changesPC insn.opcode = .ok true)
    (hcode : Refines (·.mem) (pf.Inv stack) (pf.env.run code) (traced id execute insn)) :
    ∃ code changes, emitOpcode pf.link insn = .ok code ∧ changesPC insn.opcode = .ok changes ∧
      Refines (·.mem) (pf.Inv stack) (pf.env.run (code ++ if !changes then advance else []))
        (traced id execute insn) :=
  ⟨code, true, hemit, hchanges, by simpa using hcode⟩

variable (pf stack)

/-- Whatever the opcode, its code implements it. -/
theorem emitOpcode_refines {k : InsnClass} (hk : insn.opcode.insnClass = some k) :
    ∃ code changes, emitOpcode pf.link insn = .ok code ∧ changesPC insn.opcode = .ok changes ∧
      Refines (·.mem) (pf.Inv stack) (pf.env.run (code ++ if !changes then advance else []))
        (traced id execute insn) := by
  obtain ⟨opcode, rs1, rs2, rd, imm⟩ := insn
  cases opcode
  case kADD | kAND | kOR | kXOR | kSUB =>
    exact emitOpcode_advance rfl rfl (refines_implR rfl rfl)
  case kADDI | kANDI | kORI | kXORI => exact emitOpcode_advance rfl rfl (refines_implI rfl rfl)
  case kSLL | kSRL | kSRA =>
    exact emitOpcode_advance rfl rfl (refines_implShiftR rfl (shift_eval_eq _))
  case kSLLI | kSRLI | kSRAI =>
    exact emitOpcode_advance rfl rfl (refines_implShiftI rfl (shift_eval_eq _))
  case kSLT => exact emitOpcode_advance rfl rfl (refines_implCmpR rfl holds_l)
  case kSLTU => exact emitOpcode_advance rfl rfl (refines_implCmpR rfl holds_b)
  case kSLTI => exact emitOpcode_advance rfl rfl (refines_implCmpI rfl holds_l)
  case kSLTIU => exact emitOpcode_advance rfl rfl (refines_implCmpI rfl holds_b)
  case kBEQ => exact emitOpcode_changesPC rfl rfl (refines_implBranch rfl holds_e)
  case kBNE => exact emitOpcode_changesPC rfl rfl (refines_implBranch rfl holds_ne)
  case kBLT => exact emitOpcode_changesPC rfl rfl (refines_implBranch rfl holds_l)
  case kBLTU => exact emitOpcode_changesPC rfl rfl (refines_implBranch rfl holds_b)
  case kBGE => exact emitOpcode_changesPC rfl rfl (refines_implBranch rfl holds_ge)
  case kBGEU =>
    exact emitOpcode_changesPC rfl rfl (refines_implBranch rfl holds_greaterEqual)
  case kLUI => exact emitOpcode_advance rfl rfl (refines_implLui rfl)
  case kAUIPC => exact emitOpcode_advance rfl rfl (refines_implAuipc rfl)
  case kJAL => exact emitOpcode_changesPC rfl rfl (refines_implJal rfl)
  case kJALR => exact emitOpcode_changesPC rfl rfl (refines_implJalr rfl)
  case kLB => exact emitOpcode_advance rfl rfl (refines_implLoad rfl extends_byte)
  case kLH => exact emitOpcode_advance rfl rfl (refines_implLoad rfl extends_half)
  case kLBU | kLHU | kLW => exact emitOpcode_advance rfl rfl (refines_implLoad rfl (extends_nil _))
  case kSB | kSH | kSW => exact emitOpcode_advance rfl rfl (refines_implStore rfl)
  case kECALL => exact emitOpcode_advance rfl rfl (refines_implEcall rfl)
  case kEBREAK | kFENCE | kPAUSE | kSBREAK | kSCALL =>
    exact emitOpcode_advance rfl rfl (refines_nop rfl)
  case kNumOpcodes => cases hk

/-- One round of the loop over the block, with the counter. -/
theorem emit_refines {k : InsnClass} (hk : insn.opcode.insnClass = some k) :
    ∃ code, emit pf.link insn = .ok code ∧
      Refines (·.mem) (pf.Inv stack) (pf.env.run code) (traced id executeCounted insn) := by
  obtain ⟨code, changes, hemit, hchanges, hcode⟩ :=
    emitOpcode_refines pf stack hk
  refine ⟨_, by simp only [emit, hemit, hchanges]; rfl, ?_⟩
  rw [traced_executeCounted, Env.run_append]
  refine hcode.seq fun m hinv => ?_
  rw [Env.run_incMem64 hinv.base, Env.run_nil]
  exact .returned rfl ⟨hinv.base, hinv.stack_eq, hinv.zero⟩

/-- The code of a block does what the interpreter does with the block, and calls
the helpers in the states in which the interpreter reaches them. -/
theorem translate_refines {insns : List Instruction} (hdecoded : Decoded insns) :
    ∃ code, translate pf.link insns = .ok code ∧
      Refines (·.mem) (pf.Inv stack) (pf.env.run code)
        (forM insns (traced id executeCounted)) := by
  obtain ⟨codes, hcodes, hrefines⟩ := exists_mapM_eq_ok insns fun insn hmem => by
    obtain ⟨k, hk⟩ := hdecoded.insnClass insn hmem
    exact emit_refines pf stack hk
  refine ⟨codes.flatten, by rw [translate, hcodes]; rfl, ?_⟩
  rw [Env.run, forM_flatten]
  exact Refines.forM₂ hrefines

/-- The translation of a decoded block ends in the state that interpreting the block
gives, and its helpers are called in the states in which the interpreter reaches
the corresponding instructions. -/
theorem xbyak_translate_correct {insns : List Instruction} (hdecoded : Decoded insns)
    {s s' : CPUState μ} (hzero : s.getReg 0 = 0#32)
    (hinterp : (interpretInsns insns).run s = .ok () s') {m : Machine μ}
    (hentry : m.regs .p0 = pf.statePtr) (hmem : m.mem = { cpu := s }) :
    ∃ code m', translate pf.link insns = .ok code ∧ (pf.env.run code).run m = .ok () m' ∧
      m'.mem.cpu = s' ∧ m'.mem.calls = interpretTrace insns s ∧ m'.stack = m.stack := by
  obtain ⟨code, htranslate, hrefines⟩ :=
    translate_refines pf m.stack hdecoded
  have htraced : (forM insns (traced id executeCounted)).run m.mem =
      .ok () { cpu := s', calls := interpretTrace insns s } := by
    rw [run_forM_traced, hmem]
    exact congrArg (Host.outcome _) hinterp
  obtain ⟨m', hrun, hhost, hinv⟩ :=
    hrefines.ok ⟨hentry, rfl, by rw [hmem]; exact hzero⟩ htraced
  exact ⟨code, m', htranslate, hrun, by rw [hhost], by rw [hhost], hinv.stack_eq⟩

end Machine

/-! ### A run of generated code -/

/-- The helpers are at different addresses. -/
def sampleAddr : Helper → BitVec 64
  | .load .byte => 0x1000#64
  | .load .half => 0x1010#64
  | .load .word => 0x1020#64
  | .store .byte => 0x1030#64
  | .store .half => 0x1040#64
  | .store .word => 0x1050#64
  | .syscall => 0x1060#64

theorem sampleAddr_injective : Function.Injective sampleAddr := by
  rintro ((_ | _ | _) | (_ | _ | _) | _) ((_ | _ | _) | (_ | _ | _) | _) h <;>
    first | rfl | exact absurd h (by decide)

/-- A platform whose callees leave junk in every register. -/
def samplePlatform : Platform (PlainMemory 0#32 4096) where
  statePtr := 0x7000#64
  link := ⟨sampleAddr, sampleAddr_injective⟩
  clobber _ _ := 0xdeadbeefdeadbeef#64

/-- The block is entered with the state pointer, and junk elsewhere. -/
def sampleMachine : Machine (PlainMemory 0#32 4096) where
  regs | .p0 => 0x7000#64 | _ => 0x5555555555555555#64
  flags := none
  stack := [0x42#64]
  mem := { cpu := sampleGuest }

theorem xbyak_translate_sampleInsns :
    ∃ code m', translate samplePlatform.link sampleInsns = .ok code ∧
      (samplePlatform.env.run code).run sampleMachine = .ok () m' ∧ m'.mem.cpu = sampleResult ∧
      m'.mem.calls = interpretTrace sampleInsns sampleGuest ∧ m'.stack = [0x42#64] :=
  xbyak_translate_correct samplePlatform isBlock_sampleInsns.decoded rfl interpretInsns_sampleGuest
    rfl rfl

end Prot.XByak
