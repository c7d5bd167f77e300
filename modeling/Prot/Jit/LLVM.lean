import Prot.Jit.HostSsa

/-!
# The LLVM builder

`ll::translate`, which two backends share, builds one function for a block. Its
instructions load their operands from the state and store their results there,
`pc` included.

A shift of the IR has no value where the amount is out of range, and the amount
of a register shift is the whole of `rs2`. The function is proved to do what
the interpreter does up to the first such shift.
-/

namespace Prot.LLVM

open Isa Interpreter Stateful Ssa Builder

/-! ### Building -/

section Build

variable {V : ℕ → Type}

/-- The pointer to a register. -/
def getReg (idx : Operand) : Field 32 := .reg idx.toNat

/-- What is built only for an `rd` other than `x0`. -/
def whenNonzero (rd : Operand) (code : Builder V Unit) : Builder V Unit :=
  if rd ≠ 0#8 then code else pure ()

/-- Moves on to the next word. -/
def advancePC : Builder V Unit := do
  let pcVal ← load .pc
  let four ← const 4#32
  let newPCVal ← bin .add pcVal four
  store .pc newPCVal

variable (insn : Instruction)

/-! The builders of a family differ in one operation. -/

/-- An operation on two registers. -/
def buildBinary (op : BinOp) : Builder V Unit := do
  let reg1Val ← load (getReg insn.rs1)
  let reg2Val ← load (getReg insn.rs2)
  let result ← bin op reg1Val reg2Val
  whenNonzero insn.rd (store (getReg insn.rd) result)

/-- An operation with an immediate. -/
def buildBinaryImm (op : BinOp) : Builder V Unit := do
  let rs1Val ← load (getReg insn.rs1)
  let imm ← const insn.imm
  let result ← bin op rs1Val imm
  whenNonzero insn.rd (store (getReg insn.rd) result)

/-- A comparison of two registers. -/
def buildCompare (pred : Pred) : Builder V Unit := do
  let src1Value ← load (getReg insn.rs1)
  let src2Value ← load (getReg insn.rs2)
  let cond ← icmp pred src1Value src2Value
  whenNonzero insn.rd do
    -- an unused flag is not even widened
    let flag ← zext 32 cond
    store (getReg insn.rd) flag

/-- A comparison with an immediate. -/
def buildCompareImm (pred : Pred) : Builder V Unit := do
  let srcValue ← load (getReg insn.rs1)
  let imm ← const insn.imm
  let cond ← icmp pred srcValue imm
  whenNonzero insn.rd do
    let flag ← zext 32 cond
    store (getReg insn.rd) flag

/-- A branch. -/
def buildBranch (pred : Pred) : Builder V Unit := do
  let reg1Val ← load (getReg insn.rs1)
  let reg2Val ← load (getReg insn.rs2)
  let pcVal ← load .pc
  let cond ← icmp pred reg1Val reg2Val
  let offset ← const insn.imm
  let pcPlusoffset ← bin .add pcVal offset
  let four ← const 4#32
  let pcPlus4 ← bin .add pcVal four
  -- both targets are computed, and the block of the function goes on
  let pcNext ← select cond pcPlusoffset pcPlus4
  store .pc pcNext

/-- Loads the immediate. -/
def LUIbuildIR : Builder V Unit :=
  whenNonzero insn.rd do
    let imm ← const insn.imm
    store (getReg insn.rd) imm

/-- Adds `pc` to the immediate. -/
def AUIPCbuildIR : Builder V Unit := do
  let pcVal ← load .pc
  -- the load is left behind if there is nothing to store
  whenNonzero insn.rd do
    let imm ← const insn.imm
    let sum ← bin .add imm pcVal
    store (getReg insn.rd) sum

/-- `pc` is stored before `rd`. -/
def JALbuildIR : Builder V Unit := do
  let pcVal ← load .pc
  let offset ← const insn.imm
  let target ← bin .add offset pcVal
  store .pc target
  whenNonzero insn.rd do
    let four ← const 4#32
    let link ← bin .add four pcVal
    store (getReg insn.rd) link

/-- Jumps to a register and an offset. -/
def JALRbuildIR : Builder V Unit := do
  let rs1Val ← load (getReg insn.rs1)
  -- both operands are loaded before the link is stored
  let pcVal ← load .pc
  whenNonzero insn.rd do
    let four ← const 4#32
    let link ← bin .add pcVal four
    store (getReg insn.rd) link
  let offset ← const insn.imm
  let target ← bin .add rs1Val offset
  let mask ← const (~~~1#32)
  let targetAligned ← bin .and target mask
  store .pc targetAligned

/-- Branches if equal. -/
def BEQbuildIR : Builder V Unit := buildBranch insn .eq

/-- Branches if not equal. -/
def BNEbuildIR : Builder V Unit := buildBranch insn .ne

/-- Branches if less. -/
def BLTbuildIR : Builder V Unit := buildBranch insn .slt

/-- Branches if not less. -/
def BGEbuildIR : Builder V Unit := buildBranch insn .sge

/-- Branches if below. -/
def BLTUbuildIR : Builder V Unit := buildBranch insn .ult

/-- Branches if not below. -/
def BGEUbuildIR : Builder V Unit := buildBranch insn .uge

/-- The function that `generateLoad` calls, and whether it extends the sign. -/
def loadFn : Opcode → Except Exn (MemTy × Bool)
  | .kLB => pure (.byte, true)
  | .kLBU => pure (.byte, false)
  | .kLH => pure (.half, true)
  | .kLHU => pure (.half, false)
  | .kLW => pure (.word, false)
  | _ => throw .badOpcode

/-- A call of a load helper. -/
def buildLoad (T : MemTy) (do_sext : Bool) : Builder V Unit := do
  let rs1Val ← load (getReg insn.rs1)
  let imm ← const insn.imm
  let addrVal ← bin .add rs1Val imm
  let loaded ← callLoad T addrVal
  -- the call is made also for `x0`, since it may raise
  whenNonzero insn.rd do
    let val ← if do_sext then sext 32 loaded else zext 32 loaded
    store (getReg insn.rd) val

/-- A load, by its opcode. -/
def generateLoad : Except Exn (Builder V Unit) := do
  let (T, do_sext) ← loadFn insn.opcode
  return buildLoad insn T do_sext

/-- The width of a store. -/
def storeFn : Opcode → Except Exn MemTy
  | .kSB => pure .byte
  | .kSH => pure .half
  | .kSW => pure .word
  | _ => throw .badStoreInsn

/-- `rs2` is loaded at the width of the access. -/
def buildStore (T : MemTy) : Builder V Unit := do
  let rs1Val ← load (getReg insn.rs1)
  let imm ← const insn.imm
  let addrVal ← bin .add rs1Val imm
  let rs2Val ← loadLow T insn.rs2.toNat
  callStore T addrVal rs2Val

/-- A store, by its opcode. -/
def generateStore : Except Exn (Builder V Unit) := do
  let T ← storeFn insn.opcode
  return buildStore insn T

/-- Adds the immediate. -/
def ADDIbuildIR : Builder V Unit := buildBinaryImm insn .add

/-- Compares with the immediate. -/
def SLTIbuildIR : Builder V Unit := buildCompareImm insn .slt

/-- Compares with the immediate, unsigned. -/
def SLTIUbuildIR : Builder V Unit := buildCompareImm insn .ult

/-- Exclusive or with the immediate. -/
def XORIbuildIR : Builder V Unit := buildBinaryImm insn .xor

/-- Or with the immediate. -/
def ORIbuildIR : Builder V Unit := buildBinaryImm insn .or

/-- And with the immediate. -/
def ANDIbuildIR : Builder V Unit := buildBinaryImm insn .and

/-- Shifts left by the immediate. -/
def SLLIbuildIR : Builder V Unit := buildBinaryImm insn .shl

/-- Shifts right by the immediate. -/
def SRLIbuildIR : Builder V Unit := buildBinaryImm insn .lshr

/-- Shifts right by the immediate, keeping the sign. -/
def SRAIbuildIR : Builder V Unit := buildBinaryImm insn .ashr

/-- Adds two registers. -/
def ADDbuildIR : Builder V Unit := buildBinary insn .add

/-- Subtracts two registers. -/
def SUBbuildIR : Builder V Unit := buildBinary insn .sub

/-- The amount of a register shift is not masked. -/
def SLLbuildIR : Builder V Unit := buildBinary insn .shl

/-- Shifts right by a register, none of whose bits is masked. -/
def SRLbuildIR : Builder V Unit := buildBinary insn .lshr

/-- Shifts right by a register, keeping the sign, and does not mask it either. -/
def SRAbuildIR : Builder V Unit := buildBinary insn .ashr

/-- Exclusive or of two registers. -/
def XORbuildIR : Builder V Unit := buildBinary insn .xor

/-- Or of two registers. -/
def ORbuildIR : Builder V Unit := buildBinary insn .or

/-- And of two registers. -/
def ANDbuildIR : Builder V Unit := buildBinary insn .and

/-- Compares two registers. -/
def SLTbuildIR : Builder V Unit := buildCompare insn .slt

/-- Compares two registers, unsigned. -/
def SLTUbuildIR : Builder V Unit := buildCompare insn .ult

/-- Calls the system call helper. -/
def ECALLbuildIR : Builder V Unit := callSyscall

/-- `InsnIRBuilder::build`: an assertion fails at the opcodes that have no builder. -/
def build : Except Exn (Builder V Unit) :=
  match insn.opcode with
  | .kLUI => pure (LUIbuildIR insn)
  | .kAUIPC => pure (AUIPCbuildIR insn)
  | .kJAL => pure (JALbuildIR insn)
  | .kJALR => pure (JALRbuildIR insn)
  | .kBEQ => pure (BEQbuildIR insn)
  | .kBNE => pure (BNEbuildIR insn)
  | .kBLT => pure (BLTbuildIR insn)
  | .kBGE => pure (BGEbuildIR insn)
  | .kBLTU => pure (BLTUbuildIR insn)
  | .kBGEU => pure (BGEUbuildIR insn)
  | .kLB | .kLH | .kLW | .kLBU | .kLHU => generateLoad insn
  | .kSB | .kSH | .kSW => generateStore insn
  | .kADDI => pure (ADDIbuildIR insn)
  | .kSLTI => pure (SLTIbuildIR insn)
  | .kSLTIU => pure (SLTIUbuildIR insn)
  | .kXORI => pure (XORIbuildIR insn)
  | .kORI => pure (ORIbuildIR insn)
  | .kANDI => pure (ANDIbuildIR insn)
  | .kSLLI => pure (SLLIbuildIR insn)
  | .kSRLI => pure (SRLIbuildIR insn)
  | .kSRAI => pure (SRAIbuildIR insn)
  | .kADD => pure (ADDbuildIR insn)
  | .kSUB => pure (SUBbuildIR insn)
  | .kSLL => pure (SLLbuildIR insn)
  | .kSLT => pure (SLTbuildIR insn)
  | .kSLTU => pure (SLTUbuildIR insn)
  | .kXOR => pure (XORbuildIR insn)
  | .kSRL => pure (SRLbuildIR insn)
  | .kSRA => pure (SRAbuildIR insn)
  | .kOR => pure (ORbuildIR insn)
  | .kAND => pure (ANDbuildIR insn)
  | .kECALL => pure ECALLbuildIR
  | .kFENCE | .kPAUSE | .kEBREAK => pure (pure ())
  | .kSBREAK | .kSCALL | .kNumOpcodes => throw .assertionFailed

/-- The body of the loop over the block. -/
def emit : Except Exn (Builder V Unit) := do
  let code ← build insn
  let changes ← changesPC insn.opcode
  return do
    code
    if !changes then advancePC else pure ()

/-- Counts `n` instructions. -/
def countInsns (n : ℕ) : Builder V Unit := do
  let icVal ← load .icount
  let size ← const (BitVec.ofNat 64 n)
  let newVal ← bin .add icVal size
  store .icount newVal

/-- `ll::translate`. The function ends with a return. -/
def translate (insns : List Instruction) : Except Exn (Builder V Unit) := do
  let codes ← insns.mapM emit
  return do
    forM codes id
    countInsns insns.length

end Build

/-! ### One guest instruction -/

section Machine

variable {μ : Type}

/-- The shifts by a register. -/
def isRegisterShift : Opcode → Bool
  | .kSLL | .kSRL | .kSRA => true
  | _ => false

/-- If `insn` is a shift by a register, its amount is in range. -/
def ShiftInRange (insn : Instruction) (s : CPUState μ) : Prop :=
  isRegisterShift insn.opcode = true → (s.getReg insn.rs2.toNat).toNat < 32

instance (insn : Instruction) (s : CPUState μ) : Decidable (ShiftInRange insn s) :=
  inferInstanceAs (Decidable (_ → _))

variable [Memory μ]

/-- Runs code on the host; a shift out of range raises. -/
abbrev eval {α : Type} (code : Builder BitVec α) : EStateM Exn (Host μ) α :=
  (ssaEnv strictShift).eval code

/-- The interpreter, up to the first shift that is out of range. -/
abbrev executeInRange (insn : Instruction) : EStateM Exn (CPUState μ) Unit :=
  executeIf ShiftInRange .poison insn

/-- The code does to the host what `x` does. -/
abbrev Implements (code : Builder BitVec Unit) (x : EStateM Exn (Host μ) Unit) : Prop :=
  Refines id (fun _ => True) (eval code) x

variable {insn : Instruction} {h : Host μ}

/-- Code under the guard. For `x0` there is none, and writing it changes nothing. -/
theorem run_whenNonzero {rd : Operand} {code : Builder BitVec Unit} (val : Word)
    (hcode : (eval code).run h = .ok () (h.store (.reg rd.toNat) val)) :
    (eval (whenNonzero rd code)).run h =
      .ok () { h with cpu := h.cpu.setReg rd.toNat val } := by
  by_cases hx0 : rd = 0#8
  · rw [whenNonzero, if_neg (by simp [hx0]), hx0]
    rfl
  · rw [whenNonzero, if_pos hx0, hcode, Host.setReg_eq_store hx0]

theorem run_setRd {rd : Operand} (hrd : rd.toNat < 32) (val : Word) :
    (eval (whenNonzero rd (store (getReg rd) val))).run h =
      .ok () { h with cpu := h.cpu.setReg rd.toNat val } :=
  run_whenNonzero val (run_store (.reg rd.toNat) hrd)

theorem run_getReg {idx : Operand} (hidx : idx.toNat < 32) :
    (eval (load (getReg idx))).run h = .ok (h.cpu.getReg idx.toNat) h :=
  run_load (.reg idx.toNat) hidx

theorem run_advancePC :
    (eval advancePC).run h = .ok () { h with cpu := h.cpu.setPC (h.cpu.pc + kWordSize) } := by
  simp [-bind_pure_comp, advancePC, run_load .pc trivial, run_store .pc trivial, kWordSize]

/-- An instruction that leaves `pc` to the loop over the block. -/
def andAdvance (code : Builder BitVec Unit) : Builder BitVec Unit := do
  code
  advancePC

/-- After an instruction, `pc` is moved on. -/
theorem matches_andAdvance {code : Builder BitVec Unit} {cpu : CPUState μ}
    {calls : List (CPUState μ)} (hpc : cpu.pc = h.cpu.pc)
    (hrun : (eval code).run h = .ok () { cpu, calls }) :
    Matches id (fun _ => True) ((eval (andAdvance code)).run h)
      (.ok () { cpu := cpu.setPC (h.cpu.pc + kWordSize), calls }) := by
  rw [andAdvance, eval, Env.eval_bind, run_seq_ok hrun, run_advancePC, hpc]
  exact .returned rfl trivial

theorem matches_ok {code : Builder BitVec Unit} {h' : Host μ}
    (hrun : (eval code).run h = .ok () h') :
    Matches id (fun _ => True) ((eval code).run h) (.ok () h') := by
  rw [hrun]
  exact .returned rfl trivial

theorem matches_error {code : Builder BitVec Unit} {e : Exn} {h' : Host μ}
    (hrun : (eval code).run h = .error e h') :
    Matches id (fun _ => True) ((eval code).run h) (.error e h') := by
  rw [hrun]
  exact .raised rfl

section Families

variable (hwf : insn.WellFormed)
include hwf

/-- An operation that has a value. -/
theorem run_buildBinary {op : BinOp} {val : Word}
    (hop : op.eval strictShift (h.cpu.getReg insn.rs1.toNat) (h.cpu.getReg insn.rs2.toNat) =
      some val) :
    (eval (buildBinary insn op)).run h =
      .ok () { h with cpu := h.cpu.setReg insn.rd.toNat val } := by
  simp [-bind_pure_comp, buildBinary, run_getReg hwf.rs1_lt, run_getReg hwf.rs2_lt, run_bin hop,
    run_setRd hwf.rd_lt]

/-- An operation on two registers that always has a value. -/
theorem implements_buildBinary {op : BinOp} {f : Word → Word → Word}
    (hk : insn.opcode.insnClass = some (.rr f))
    (hop : ∀ a b, op.eval strictShift a b = some (f a b)) :
    Implements (μ := μ) (andAdvance (buildBinary insn op)) (traced id execute insn) := by
  intro h _
  simp only [traced_of_not_callsHelper hk rfl, InsnClass.effect, Host.outcome, id]
  exact matches_andAdvance (by simp) (run_buildBinary hwf (hop _ _))

/-- A shift out of range raises before it does anything. -/
theorem implements_registerShift {op : BinOp} {f : Word → Word → Word}
    (hk : insn.opcode.insnClass = some (.rr f)) (hshift : isRegisterShift insn.opcode = true)
    (hop : ∀ a b : Word, b.toNat < 32 → op.eval strictShift a b = some (f a b))
    (hpoison : ∀ a b : Word, 32 ≤ b.toNat → op.eval strictShift a b = none) :
    Implements (μ := μ) (andAdvance (buildBinary insn op)) (traced id executeInRange insn) := by
  intro h _
  rw [run_traced, callsHelper_eq hk, id]
  -- in range the shift has the value of the interpreter, otherwise none
  by_cases hrange : (h.cpu.getReg insn.rs2.toNat).toNat < 32
  · rw [run_executeIf_of_pos fun _ => hrange, execute_eq_effect hk]
    simp only [InsnClass.effect, InsnClass.callsHelper, Host.outcome, Bool.false_eq_true, if_false,
      List.append_nil]
    exact matches_andAdvance (by simp) (run_buildBinary hwf (hop _ _ hrange))
  · rw [run_executeIf_of_neg fun hin => hrange (hin hshift)]
    refine matches_error ?_
    -- the operands are loaded, and then the shift has no value
    have hnone := hpoison (h.cpu.getReg insn.rs1.toNat) _ (Nat.not_lt.mp hrange)
    simp [-bind_pure_comp, andAdvance, buildBinary, run_getReg hwf.rs1_lt, run_getReg hwf.rs2_lt,
      run_bin_poison hnone, InsnClass.callsHelper]

theorem implements_buildBinaryImm {op : BinOp} {f : Word → Word → Word}
    (hk : insn.opcode.insnClass = some (.ri f))
    (hop : ∀ a, op.eval strictShift a insn.imm = some (f a insn.imm)) :
    Implements (μ := μ) (andAdvance (buildBinaryImm insn op)) (traced id execute insn) := by
  intro h _
  simp only [traced_of_not_callsHelper hk rfl, InsnClass.effect, Host.outcome, id]
  refine matches_andAdvance (by simp) ?_
  simp [-bind_pure_comp, buildBinaryImm, run_getReg hwf.rs1_lt, run_bin (hop _),
    run_setRd hwf.rd_lt]

/-- A comparison. The flag is widened under the guard. -/
theorem implements_buildCompare {pred : Pred} {f : Word → Word → Bool}
    (hk : insn.opcode.insnClass = some (.rr (compareOp f)))
    (hpred : ∀ a b, pred.holds a b = f a b) :
    Implements (μ := μ) (andAdvance (buildCompare insn pred)) (traced id execute insn) := by
  intro h _
  simp only [traced_of_not_callsHelper hk rfl, InsnClass.effect, Host.outcome, id]
  refine matches_andAdvance (by simp) ?_
  simp only [buildCompare, Env.eval_bind, EStateM.run_bind, run_getReg hwf.rs1_lt,
    run_getReg hwf.rs2_lt, eval_icmp, EStateM.run_pure, hpred]
  refine run_whenNonzero _ ?_
  rw [eval, Env.eval_bind, eval_zext, pure_bind]
  exact run_store (.reg insn.rd.toNat) hwf.rd_lt

theorem implements_buildCompareImm {pred : Pred} {f : Word → Word → Bool}
    (hk : insn.opcode.insnClass = some (.ri (compareOp f)))
    (hpred : ∀ a b, pred.holds a b = f a b) :
    Implements (μ := μ) (andAdvance (buildCompareImm insn pred)) (traced id execute insn) := by
  intro h _
  simp only [traced_of_not_callsHelper hk rfl, InsnClass.effect, Host.outcome, id]
  refine matches_andAdvance (by simp) ?_
  simp only [buildCompareImm, Env.eval_bind, EStateM.run_bind, run_getReg hwf.rs1_lt, eval_const,
    eval_icmp, EStateM.run_pure, hpred]
  refine run_whenNonzero _ ?_
  rw [eval, Env.eval_bind, eval_zext, pure_bind]
  exact run_store (.reg insn.rd.toNat) hwf.rd_lt

theorem implements_buildBranch {pred : Pred} {f : Word → Word → Bool}
    (hk : insn.opcode.insnClass = some (.branch f)) (hpred : ∀ a b, pred.holds a b = f a b) :
    Implements (μ := μ) (buildBranch insn pred) (traced id execute insn) := by
  intro h _
  simp only [traced_of_not_callsHelper hk rfl, InsnClass.effect, Host.outcome, id]
  refine matches_ok ?_
  by_cases htaken : f (h.cpu.getReg insn.rs1.toNat) (h.cpu.getReg insn.rs2.toNat) = true <;>
    simp [-bind_pure_comp, buildBranch, run_getReg hwf.rs1_lt, run_getReg hwf.rs2_lt,
      run_load .pc trivial, run_store .pc trivial, hpred, htaken, kWordSize]

theorem implements_LUIbuildIR (hk : insn.opcode.insnClass = some .lui) :
    Implements (μ := μ) (andAdvance (LUIbuildIR insn)) (traced id execute insn) := by
  intro h _
  simp only [traced_of_not_callsHelper hk rfl, InsnClass.effect, Host.outcome, id]
  refine matches_andAdvance (by simp) (run_whenNonzero _ ?_)
  rw [eval, Env.eval_bind, eval_const, pure_bind]
  exact run_store (.reg insn.rd.toNat) hwf.rd_lt

theorem implements_AUIPCbuildIR (hk : insn.opcode.insnClass = some .auipc) :
    Implements (μ := μ) (andAdvance (AUIPCbuildIR insn)) (traced id execute insn) := by
  intro h _
  simp only [traced_of_not_callsHelper hk rfl, InsnClass.effect, Host.outcome, id]
  refine matches_andAdvance (by simp) ?_
  rw [AUIPCbuildIR, eval, Env.eval_bind, run_seq_ok (run_load .pc trivial), Host.load_pc,
    BitVec.add_comm]
  refine run_whenNonzero _ ?_
  simp only [Env.eval_bind, eval_const, eval_add, pure_bind]
  exact run_store (.reg insn.rd.toNat) hwf.rd_lt

/-- `pc` is stored first, and neither store sees the other. -/
theorem implements_JALbuildIR (hk : insn.opcode.insnClass = some .jal) :
    Implements (μ := μ) (JALbuildIR insn) (traced id execute insn) := by
  intro h _
  simp only [traced_of_not_callsHelper hk rfl, InsnClass.effect, Host.outcome, id]
  refine matches_ok ?_
  simp only [JALbuildIR, Env.eval_bind, EStateM.run_bind, run_load .pc trivial, eval_const,
    eval_add, EStateM.run_pure, run_store .pc trivial, Host.load_pc, Host.store_pc]
  rw [← CPUState.setPC_setReg, BitVec.add_comm h.cpu.pc, BitVec.add_comm h.cpu.pc]
  refine run_whenNonzero _ ?_
  simp only [Env.eval_bind, eval_const, eval_add, pure_bind]
  exact run_store (.reg insn.rd.toNat) hwf.rd_lt

/-- The link is the next word after the `pc` that was loaded. -/
theorem implements_JALRbuildIR (hk : insn.opcode.insnClass = some .jalr) :
    Implements (μ := μ) (JALRbuildIR insn) (traced id execute insn) := by
  intro h _
  simp only [traced_of_not_callsHelper hk rfl, InsnClass.effect, Host.outcome, id]
  refine matches_ok ?_
  have hlink : (eval (whenNonzero insn.rd do
      let four ← const 4#32
      let link ← bin .add h.cpu.pc four
      store (getReg insn.rd) link)).run h = .ok ()
        { h with cpu := h.cpu.setReg insn.rd.toNat (h.cpu.pc + 4#32) } := by
    refine run_whenNonzero _ ?_
    simp only [Env.eval_bind, eval_const, eval_add, pure_bind]
    exact run_store (.reg insn.rd.toNat) hwf.rd_lt
  simp only [JALRbuildIR, Env.eval_bind, EStateM.run_bind, run_getReg hwf.rs1_lt,
    run_load .pc trivial, Host.load_pc, hlink, eval_const, eval_add, eval_and, EStateM.run_pure,
    run_store .pc trivial, Host.store_pc]
  rw [Bits.and_not_one]
  rfl

omit hwf in
theorem implements_nop (hk : insn.opcode.insnClass = some .nop) :
    Implements (μ := μ) (andAdvance (pure ())) (traced id execute insn) := by
  intro h _
  simp only [traced_of_not_callsHelper hk rfl, InsnClass.effect, Host.outcome, id]
  exact matches_andAdvance rfl rfl

/-! ### Calls -/

omit hwf in
theorem implements_ECALLbuildIR (hk : insn.opcode.insnClass = some .ecall) :
    Implements (μ := μ) (andAdvance ECALLbuildIR) (traced id execute insn) := by
  intro h _
  simp only [traced_eq_effect hk, InsnClass.effect, InsnClass.callsHelper, if_true, id]
  cases hcall : h.cpu.emulateSysCall with
  | ok cpu =>
    have hcpu := CPUState.emulateSysCall_ok hcall
    refine matches_andAdvance (by rw [hcpu]; rfl) ?_
    simp [ECALLbuildIR, run_callSyscall, hcall, Host.record]
  | error e =>
    refine matches_error ?_
    simp [-bind_pure_comp, andAdvance, ECALLbuildIR, run_callSyscall, hcall, Host.record]

theorem implements_buildLoad {T : MemTy} {do_sext : Bool}
    (hk : insn.opcode.insnClass = some (.load T do_sext)) :
    Implements (μ := μ) (andAdvance (buildLoad insn T do_sext)) (traced id execute insn) := by
  intro h _
  simp only [traced_eq_effect hk, InsnClass.effect, InsnClass.callsHelper, if_true, id]
  cases hread : Memory.read T h.cpu.memory (h.cpu.getReg insn.rs1.toNat + insn.imm) with
  | ok v =>
    refine matches_andAdvance (by simp) ?_
    simp only [buildLoad, Env.eval_bind, EStateM.run_bind, run_getReg hwf.rs1_lt, eval_const,
      eval_add, EStateM.run_pure, run_callLoad, hread]
    refine run_whenNonzero _ ?_
    cases do_sext with
    | true =>
      simp only [if_true, Env.eval_bind, eval_sext, pure_bind, InsnClass.extend_true]
      exact run_store (.reg insn.rd.toNat) hwf.rd_lt
    | false =>
      simp only [Bool.false_eq_true, if_false, Env.eval_bind, eval_zext, pure_bind,
        InsnClass.extend_false]
      exact run_store (.reg insn.rd.toNat) hwf.rd_lt
  | error e =>
    refine matches_error ?_
    simp [-bind_pure_comp, andAdvance, buildLoad, run_getReg hwf.rs1_lt, run_callLoad, hread,
      Host.record]

theorem implements_buildStore {T : MemTy} (hk : insn.opcode.insnClass = some (.store T)) :
    Implements (μ := μ) (andAdvance (buildStore insn T)) (traced id execute insn) := by
  intro h _
  simp only [traced_eq_effect hk, InsnClass.effect, InsnClass.callsHelper, if_true, id]
  cases hwrite : Memory.write T h.cpu.memory (h.cpu.getReg insn.rs1.toNat + insn.imm)
    ((h.cpu.getReg insn.rs2.toNat).setWidth T.bits) with
  | ok memory =>
    refine matches_andAdvance rfl ?_
    simp [-bind_pure_comp, buildStore, run_getReg hwf.rs1_lt, run_loadLow hwf.rs2_lt,
      run_callStore, hwrite, Host.record]
  | error e =>
    refine matches_error ?_
    simp [-bind_pure_comp, andAdvance, buildStore, run_getReg hwf.rs1_lt, run_loadLow hwf.rs2_lt,
      run_callStore, hwrite, Host.record]

end Families

/-! ### The whole block -/

section Block

/-- What the code of an instruction does. -/
abbrev EmitRefines (μ : Type) [Memory μ] (insn : Instruction) : Prop :=
  ∃ code, emit insn = .ok code ∧ Implements (μ := μ) code (traced id executeInRange insn)

/-- Only a register shift can be out of range. -/
theorem traced_executeInRange (hshift : isRegisterShift insn.opcode = false) :
    traced id executeInRange insn = traced (μ := μ) id execute insn := by
  have hexec : executeInRange (μ := μ) insn = execute insn := funext fun s =>
    run_executeIf_of_pos fun h => by rw [hshift] at h; cases h
  rw [traced, traced, hexec]

/-- An instruction that leaves `pc` to the loop over the block. -/
theorem emit_advance {code : Builder BitVec Unit} (hbuild : build insn = .ok code)
    (hchanges : changesPC insn.opcode = .ok false)
    (hshift : isRegisterShift insn.opcode = false)
    (hcode : Implements (μ := μ) (andAdvance code) (traced id execute insn)) :
    EmitRefines μ insn :=
  ⟨andAdvance code, by simp only [emit, hbuild, hchanges]; rfl,
    by rwa [traced_executeInRange hshift]⟩

theorem emit_changesPC {code : Builder BitVec Unit} (hbuild : build insn = .ok code)
    (hchanges : changesPC insn.opcode = .ok true)
    (hshift : isRegisterShift insn.opcode = false)
    (hcode : Implements (μ := μ) code (traced id execute insn)) :
    EmitRefines μ insn :=
  ⟨code >>= fun _ => pure (), by simp only [emit, hbuild, hchanges]; rfl, by
    rw [traced_executeInRange hshift, Implements, eval, Env.eval_bind, Env.eval_pure,
      bind_pure_unit]
    exact hcode⟩

/-- A register shift. -/
theorem emit_shift {op : BinOp} (hbuild : build (V := BitVec) insn = .ok (buildBinary insn op))
    (hchanges : changesPC insn.opcode = .ok false)
    (hcode : Implements (μ := μ) (andAdvance (buildBinary insn op))
      (traced id executeInRange insn)) :
    EmitRefines μ insn :=
  ⟨andAdvance (buildBinary insn op), by simp only [emit, hbuild, hchanges]; rfl, hcode⟩

section Operations

variable (a b : Word)

/-- In range, all of the amount is the five bits that the guest uses. -/
theorem eval_shl (h : b.toNat < 32) : BinOp.shl.eval strictShift a b = some (sllHelper a b) := by
  rw [BinOp.eval, strictShift_of_lt h, Option.map_some, sllHelper, BitVec.shiftLeft_eq',
    toNat_slice_four_zero, Nat.mod_eq_of_lt h]

theorem eval_lshr (h : b.toNat < 32) :
    BinOp.lshr.eval strictShift a b = some (srlHelper a b) := by
  rw [BinOp.eval, strictShift_of_lt h, Option.map_some, srlHelper, BitVec.ushiftRight_eq',
    toNat_slice_four_zero, Nat.mod_eq_of_lt h]

theorem eval_ashr (h : b.toNat < 32) :
    BinOp.ashr.eval strictShift a b = some (sraHelper a b) := by
  rw [BinOp.eval, strictShift_of_lt h, Option.map_some, sraHelper, BitVec.sshiftRight_eq',
    toNat_slice_four_zero, Nat.mod_eq_of_lt h]

theorem holds_uge : Pred.uge.holds a b = greaterEqual a b := (greaterEqual_eq a b).symm

end Operations

/-- The decoder makes no opcode that has no builder. -/
theorem emit_refines (hwf : insn.WellFormed) : EmitRefines μ insn := by
  obtain ⟨opcode, rs1, rs2, rd, imm⟩ := insn
  have hisDecoded := hwf.isDecoded
  have hshamt := hwf.shamt_lt
  cases opcode
  case kADD | kAND | kOR | kXOR | kSUB =>
    exact emit_advance rfl rfl rfl (implements_buildBinary hwf rfl fun _ _ => rfl)
  case kADDI | kANDI | kORI | kXORI =>
    exact emit_advance rfl rfl rfl (implements_buildBinaryImm hwf rfl fun _ => rfl)
  case kSLL =>
    exact emit_shift rfl rfl (implements_registerShift hwf rfl rfl eval_shl fun a b h => by
      rw [BinOp.eval, strictShift_of_le h, Option.map_none])
  case kSRL =>
    exact emit_shift rfl rfl (implements_registerShift hwf rfl rfl eval_lshr fun a b h => by
      rw [BinOp.eval, strictShift_of_le h, Option.map_none])
  case kSRA =>
    exact emit_shift rfl rfl (implements_registerShift hwf rfl rfl eval_ashr fun a b h => by
      rw [BinOp.eval, strictShift_of_le h, Option.map_none])
  case kSLLI =>
    exact emit_advance rfl rfl rfl
      (implements_buildBinaryImm hwf rfl fun a => eval_shl a imm (hshamt rfl))
  case kSRLI =>
    exact emit_advance rfl rfl rfl
      (implements_buildBinaryImm hwf rfl fun a => eval_lshr a imm (hshamt rfl))
  case kSRAI =>
    exact emit_advance rfl rfl rfl
      (implements_buildBinaryImm hwf rfl fun a => eval_ashr a imm (hshamt rfl))
  case kSLT | kSLTU =>
    exact emit_advance rfl rfl rfl (implements_buildCompare hwf rfl fun _ _ => rfl)
  case kSLTI | kSLTIU =>
    exact emit_advance rfl rfl rfl (implements_buildCompareImm hwf rfl fun _ _ => rfl)
  case kBEQ | kBNE | kBLT | kBLTU | kBGE =>
    exact emit_changesPC rfl rfl rfl (implements_buildBranch hwf rfl fun _ _ => rfl)
  case kBGEU => exact emit_changesPC rfl rfl rfl (implements_buildBranch hwf rfl holds_uge)
  case kLUI => exact emit_advance rfl rfl rfl (implements_LUIbuildIR hwf rfl)
  case kAUIPC => exact emit_advance rfl rfl rfl (implements_AUIPCbuildIR hwf rfl)
  case kJAL => exact emit_changesPC rfl rfl rfl (implements_JALbuildIR hwf rfl)
  case kJALR => exact emit_changesPC rfl rfl rfl (implements_JALRbuildIR hwf rfl)
  case kLB | kLH | kLBU | kLHU | kLW =>
    exact emit_advance rfl rfl rfl (implements_buildLoad hwf rfl)
  case kSB | kSH | kSW => exact emit_advance rfl rfl rfl (implements_buildStore hwf rfl)
  case kECALL => exact emit_advance rfl rfl rfl (implements_ECALLbuildIR rfl)
  case kEBREAK | kFENCE => exact emit_advance rfl rfl rfl (implements_nop rfl)
  case kPAUSE | kSBREAK | kSCALL | kNumOpcodes => cases hisDecoded

end Block

/-- The function of a block executes it up to a shift that is out of range, and counts
it in a `qword`. -/
theorem translate_implements {insns : List Instruction} (hdecoded : Decoded insns) :
    ∃ code, translate insns = .ok code ∧
      Implements (μ := μ) code (countedAtEnd .qword id executeInRange insns) := by
  obtain ⟨codes, hcodes, himplements⟩ := exists_mapM_eq_ok insns fun insn hmem =>
    emit_refines (μ := μ) (hdecoded.wellFormed insn hmem)
  refine ⟨_, by simp only [translate, hcodes]; rfl, ?_⟩
  rw [Implements, eval, Env.eval_bind, Env.eval_forM, countedAtEnd]
  refine (Refines.forM₂ himplements).seq fun h _ => ?_
  refine matches_ok ?_
  simp [-bind_pure_comp, countInsns, run_load .icount trivial, run_store .icount trivial,
    Counter.next]

/-- The function of a block is free of poison and ends in the state that interpreting
the block gives exactly where every register shift on the way is in range. -/
theorem llvm_translate_correct_iff {insns : List Instruction} (hdecoded : Decoded insns)
    {s s' : CPUState μ} (hinterp : (interpretInsns insns).run s = .ok () s') :
    (∃ code h, translate insns = .ok code ∧ (eval code).run { cpu := s } = .ok () h ∧
      h.cpu = s') ↔ Along ShiftInRange insns s := by
  obtain ⟨code, hcode, himplements⟩ := translate_implements (μ := μ) hdecoded
  have hexec := run_forM_execute hinterp
  constructor
  · rintro ⟨code', h, hcode', heval, -⟩
    cases hcode.symm.trans hcode'
    -- a run without poison is a run of the interpreter with its shifts in range
    have hcounted := (himplements.ok_abstract trivial heval).1
    rw [id, countedAtEnd, run_seq_eq_ok] at hcounted
    obtain ⟨_, h₁, htraced, -⟩ := hcounted
    rw [run_forM_traced] at htraced
    cases hrun : (forM insns executeInRange).run s with
    | ok _ s₁ => exact (run_forM_executeIf.mp hrun).2
    | error e s₁ =>
      rw [hrun] at htraced
      cases htraced
  · intro halong
    -- with its shifts in range the interpreter is never stopped
    have hrun := run_forM_executeIf (e := .poison).mpr ⟨hexec, halong⟩
    obtain ⟨h, heval, hhost, -⟩ :=
      himplements.ok (t := { cpu := s }) trivial (run_countedAtEnd_of_ok .qword id hrun)
    refine ⟨code, h, hcode, heval, ?_⟩
    have hicount := icount_of_interpretInsns hinterp
    rw [id] at hhost
    rw [hhost, CPUState.withIcount_icount, CPUState.withIcount_withIcount, Counter.next, ← hicount]
    rfl

end Machine

/-! ### Runs of generated code -/

theorem llvm_translate_sampleInsns :
    (∃ code h, translate sampleInsns = .ok code ∧
      (eval code).run { cpu := sampleGuest } = .ok () h ∧ h.cpu = sampleResult) ↔
      Along ShiftInRange sampleInsns sampleGuest :=
  llvm_translate_correct_iff isBlock_sampleInsns.decoded interpretInsns_sampleGuest

/-- `sll x3, x1, x2; ecall`. -/
def sllInsns : List Instruction :=
  [{ opcode := .kSLL, rs1 := 1#8, rs2 := 2#8, rd := 3#8 }, { opcode := .kECALL }]

/-- About to shift by 32 and to call `exit(7)`. -/
def sllGuest : CPUState (PlainMemory 0#32 4096) := sampleGuest.setReg 2 32#32

/-- The CPU after the block. -/
def sllResult : CPUState (PlainMemory 0#32 4096) :=
  finalState ((interpretInsns sllInsns).run sllGuest)

/-- The interpreter shifts by zero, the function by 32. -/
theorem translate_sllInsns_poison :
    Decoded sllInsns ∧ sllGuest.getReg 0 = 0#32 ∧
      (interpretInsns sllInsns).run sllGuest = .ok () sllResult ∧
      ¬ ∃ code h, translate sllInsns = .ok code ∧ (eval code).run { cpu := sllGuest } = .ok () h ∧
        h.cpu = sllResult := by
  have hblock : IsBlock sllInsns := ⟨fun a => if a = 0#32 then .ok 0x002091b3#32
    else .ok 0x00000073#32, false, 2, 0#32, rfl⟩
  refine ⟨hblock.decoded, rfl, rfl, ?_⟩
  rintro ⟨code, h, hcode, heval, -⟩
  cases hcode
  cases heval

end Prot.LLVM
