import Prot.Jit.Host
import Prot.Lib.GnuLightning

/-!
# The Lightning backend

`Lightning::translate` runs the 32-bit guest on 64-bit registers. Each operation
picks how its operands are widened; only the low half of a result is stored.
-/

namespace Prot.Lightning

open Isa Interpreter Stateful GnuLightning

/-- `JIT_V0` holds the state pointer, the others are temporaries. -/
inductive JitReg where
  | V0 | R0 | R1 | R2
  deriving DecidableEq

/-- The code of a block. -/
abbrev Code := List (Insn JitReg (Field 32) Helper)

/-! ### Translation -/

section Translate

variable (insn : Instruction)

/-- Loads a guest register, extended to 64 bits. `x0` never reaches memory, whatever the record
holds there. -/
def loadReg (rid : Operand) (reg : JitReg) (sign : Bool) : Insn JitReg (Field 32) Helper :=
  if rid = 0#8 then .movi reg 0#64
  else if sign then .ldxi_i reg .V0 (.reg rid.toNat)
  else .ldxi_ui reg .V0 (.reg rid.toNat)

/-- Writes a guest register, unless it is `x0`. -/
def storeReg (rid : Operand) (reg : JitReg) : Code :=
  if rid = 0#8 then [] else [.stxi_i (.reg rid.toNat) .V0 reg]

/-- Loads `pc`. -/
def loadPC (reg : JitReg) : Insn JitReg (Field 32) Helper := .ldxi_ui reg .V0 .pc

/-- Writes `pc`. -/
def storePC (reg : JitReg) : Insn JitReg (Field 32) Helper := .stxi_i .pc .V0 reg

/-- Loads the first source. -/
def loadRS1 (reg : JitReg) (sign : Bool) : Insn JitReg (Field 32) Helper :=
  loadReg insn.rs1 reg sign

/-- Loads the second source. -/
def loadRS2 (reg : JitReg) (sign : Bool) : Insn JitReg (Field 32) Helper :=
  loadReg insn.rs2 reg sign

/-- Writes the destination. -/
def storeRd (reg : JitReg) : Code := storeReg insn.rd reg

/-- The immediate as an argument of type `jit_word_t`. -/
def imm64 : BitVec 64 := insn.imm.setWidth 64

/-- The immediate, with its sign extended to 64 bits. -/
def sextImm : BitVec 64 := signExtend 64 32 (imm64 insn)

/-- An operation on two registers, both widened the same way. -/
def implR (sign : Bool) (op : Op) : Code :=
  [loadRS1 insn .R0 sign, loadRS2 insn .R1 sign, .opr op .R0 .R0 .R1] ++ storeRd insn .R0

/-- An operation on a register and the immediate. -/
def implI (sign : Bool) (op : Op) : Code :=
  -- the immediate is widened with zeros, also under a signed operation
  [loadRS1 insn .R0 sign, .opi op .R0 .R0 (imm64 insn)] ++ storeRd insn .R0

/-- A shift by a register. -/
def implShift (sign : Bool) (op : Op) : Code :=
  [loadRS1 insn .R0 sign, loadRS2 insn .R1 false, .opi .and .R1 .R1 0x1f#64,
    .opr op .R0 .R0 .R1] ++ storeRd insn .R0

/-- A signed comparison with the immediate. -/
def implSLTI : Code :=
  [loadRS1 insn .R0 true, .movi .R1 (sextImm insn), .opr .lt .R0 .R0 .R1] ++ storeRd insn .R0

/-- `PROT_MAKE_BR`. -/
def implBr (cond : Op) : Code :=
  -- both outcomes are in registers before the comparison is looked at
  [loadRS1 insn .R0 true, loadRS2 insn .R1 true, .opr cond .R0 .R0 .R1, .movi .R1 4#64,
    .movi .R2 (imm64 insn), .movzr .R2 .R1 .R0, loadPC .R0, .opr .add .R0 .R0 .R2, storePC .R0]

/-- Adds the immediate to `pc`. -/
def implAUIPC : Code :=
  [loadPC .R0, .opi .add .R0 .R0 (imm64 insn)] ++ storeRd insn .R0

/-- Calls the system call helper. -/
def implECALL : Code := [.prepare, .pushargr .V0, .finishi .syscall]

/-- Links, and jumps. `rd` is stored before `pc`, which is still in `R0`. -/
def implJAL : Code :=
  [loadPC .R0, .opi .add .R1 .R0 4#64] ++ storeRd insn .R1 ++
    [.opi .add .R0 .R0 (imm64 insn), storePC .R0]

/-- Links, and jumps to a register and an offset. `rs1` is read before `rd` is stored, so `rd =
rs1` is safe. -/
def implJALR : Code :=
  [loadPC .R0, .opi .add .R0 .R0 4#64, loadRS1 insn .R1 false] ++ storeRd insn .R0 ++
    [.opi .add .R1 .R1 (imm64 insn), .opi .and .R1 .R1 ((~~~1#32).setWidth 64), storePC .R1]

/-- Loads the immediate. -/
def implLUI : Code := .movi .R0 (imm64 insn) :: storeRd insn .R0

/-- The loads. -/
def implLoad (T : MemTy) (sext : Bool) : Code :=
  [loadRS1 insn .R0 false, .opi .add .R0 .R0 (imm64 insn), .prepare, .pushargr .V0, .pushargr .R0,
    .finishi (.load T), .retval .R0] ++ (if sext then [.extr .R0 .R0 0 T.bits] else []) ++
    storeRd insn .R0

/-- The stores. -/
def implStore (T : MemTy) : Code :=
  [loadRS1 insn .R0 false, .opi .add .R0 .R0 (imm64 insn), loadRS2 insn .R1 false, .prepare,
    .pushargr .V0, .pushargr .R0, .pushargr .R1, .finishi (.store T)]

/-- The `switch` in the loop. -/
def emitOpcode : Code :=
  match insn.opcode with
  | .kADD => implR insn false .add
  | .kADDI => implI insn false .add
  | .kAND => implR insn false .and
  | .kANDI => implI insn false .and
  | .kOR => implR insn false .or
  | .kORI => implI insn false .or
  | .kXOR => implR insn false .xor
  | .kXORI => implI insn false .xor
  | .kSRA => implShift insn true .rsh
  | .kSRAI => implI insn true .rsh
  | .kSRL => implShift insn false .rsh_u
  | .kSRLI => implI insn false .rsh_u
  | .kSLL => implShift insn false .lsh
  | .kSLLI => implI insn false .lsh
  | .kAUIPC => implAUIPC insn
  | .kBEQ => implBr insn .eq
  | .kBGE => implBr insn .ge
  | .kBGEU => implBr insn .ge_u
  | .kBLT => implBr insn .lt
  | .kBLTU => implBr insn .lt_u
  | .kBNE => implBr insn .ne
  | .kEBREAK | .kFENCE => []
  | .kECALL => implECALL
  | .kJAL => implJAL insn
  | .kJALR => implJALR insn
  | .kLUI => implLUI insn
  | .kPAUSE => []
  | .kLB => implLoad insn .byte true
  | .kLBU => implLoad insn .byte false
  | .kLH => implLoad insn .half true
  | .kLHU => implLoad insn .half false
  | .kLW => implLoad insn .word false
  | .kSB => implStore insn .byte
  | .kSH => implStore insn .half
  | .kSW => implStore insn .word
  | .kSBREAK | .kSCALL => []
  | .kSLT => implR insn true .lt
  -- words extended with zeros are compared as signed ones
  | .kSLTU => implR insn false .lt
  | .kSLTI => implSLTI insn
  | .kSLTIU => implI insn false .lt_u
  | .kSUB => implR insn false .sub
  | .kNumOpcodes => []

/-- Moves on to the next word. -/
def advance : Code := [loadPC .R0, .opi .add .R0 .R0 4#64, storePC .R0]

/-- The body of the loop over the block. -/
def emit : Except Exn Code := do
  let changes ← changesPC insn.opcode
  return emitOpcode insn ++ if !changes then advance else []

end Translate

/-- Counts the block. -/
def countInsns (n : ℕ) : Code :=
  [.ldxi_ui .R0 .V0 .icountLow, .opi .add .R0 .R0 (BitVec.ofNat 64 n), .stxi_i .icountLow .V0 .R0]

/-- `Lightning::translate`. -/
def translate (insns : List Instruction) : Except Exn Code := do
  let code ← insns.mapM emit
  return code.flatten ++ countInsns insns.length

/-! ### Running the code -/

/-- How an operand is loaded. -/
def widen (sign : Bool) (x : Word) : BitVec 64 :=
  if sign then x.signExtend 64 else x.setWidth 64

theorem setWidth_widen (sign : Bool) (x : Word) : (widen sign x).setWidth 32 = x := by
  cases sign with
  | false => exact BitVec.setWidth_setWidth_of_le x (by decide)
  | true => exact Bits.setWidth_signExtend x (by decide)

/-! ### Operations

What each operation computes on widened operands, in its low half. -/

section Operations

variable (a b : Word)

theorem setWidth_bit (b : Bool) : (bit b).setWidth 32 = boolToWord b := by
  cases b <;> rfl

/-- An offset may be added in 64 bits. -/
theorem setWidth_add_offset (x : Word) (off : BitVec 64) :
    (x.setWidth 64 + off).setWidth 32 = x + off.setWidth 32 := by
  rw [BitVec.setWidth_add _ _ (by decide), BitVec.setWidth_setWidth_of_le _ (by decide),
    BitVec.setWidth_eq]

/-- Words may be added in 64 bits. -/
theorem eval_add : ∃ w, Op.add.eval (widen false a) (widen false b) = some w ∧
    w.setWidth 32 = a + b :=
  ⟨_, rfl, by rw [BitVec.setWidth_add _ _ (by decide), setWidth_widen, setWidth_widen]⟩

theorem eval_sub : ∃ w, Op.sub.eval (widen false a) (widen false b) = some w ∧
    w.setWidth 32 = a - b :=
  ⟨_, rfl, by rw [BitVec.sub_eq_add_neg, BitVec.setWidth_add _ _ (by decide),
    BitVec.setWidth_neg_of_le (by decide), setWidth_widen, setWidth_widen, BitVec.sub_eq_add_neg]⟩

theorem eval_and : ∃ w, Op.and.eval (widen false a) (widen false b) = some w ∧
    w.setWidth 32 = a &&& b :=
  ⟨_, rfl, by rw [BitVec.setWidth_and, setWidth_widen, setWidth_widen]⟩

theorem eval_or : ∃ w, Op.or.eval (widen false a) (widen false b) = some w ∧
    w.setWidth 32 = a ||| b :=
  ⟨_, rfl, by rw [BitVec.setWidth_or, setWidth_widen, setWidth_widen]⟩

theorem eval_xor : ∃ w, Op.xor.eval (widen false a) (widen false b) = some w ∧
    w.setWidth 32 = a ^^^ b :=
  ⟨_, rfl, by rw [BitVec.setWidth_xor, setWidth_widen, setWidth_widen]⟩

/-- On words extended with zeros, the signed comparison is the unsigned one. -/
theorem eval_lt_widen_false : ∃ w, Op.lt.eval (widen false a) (widen false b) = some w ∧
    w.setWidth 32 = compareOp less a b :=
  ⟨_, rfl, by
    rw [setWidth_bit, widen, widen, if_neg Bool.false_ne_true, if_neg Bool.false_ne_true,
      Bits.slt_setWidth _ _ (by decide)]
    rfl⟩

/-- With both signs extended, the comparison is the one on words. -/
theorem eval_lt_widen_true : ∃ w, Op.lt.eval (widen true a) (widen true b) = some w ∧
    w.setWidth 32 = compareOp signedLess a b :=
  ⟨_, rfl, by
    rw [setWidth_bit, widen, widen, if_pos rfl, if_pos rfl, Bits.slt_signExtend _ _ (by decide)]
    rfl⟩

/-- With zeros above, the unsigned comparison is the one on words. -/
theorem eval_lt_u : ∃ w, Op.lt_u.eval (widen false a) (widen false b) = some w ∧
    w.setWidth 32 = compareOp less a b :=
  ⟨_, rfl, by
    rw [setWidth_bit, widen, widen, if_neg Bool.false_ne_true, if_neg Bool.false_ne_true,
      Bits.ult_setWidth _ _ (by decide)]
    rfl⟩

section Shifts

variable {a b} {count : BitVec 64} (hcount : count.toNat = (slice 4 0 b).toNat)

include hcount

theorem toNat_count_lt : count.toNat < 64 := by
  rw [hcount, toNat_slice_four_zero]
  omega

/-- A shift to the left may be taken in 64 bits. -/
theorem eval_lsh : ∃ w, Op.lsh.eval (widen false a) count = some w ∧
    w.setWidth 32 = sllHelper a b := by
  refine ⟨_, if_pos (toNat_count_lt hcount), ?_⟩
  rw [BitVec.setWidth_shiftLeft_of_le (by decide), setWidth_widen, hcount]
  rfl

/-- A logical shift to the right may be taken in 64 bits. -/
theorem eval_rsh_u : ∃ w, Op.rsh_u.eval (widen false a) count = some w ∧
    w.setWidth 32 = srlHelper a b := by
  refine ⟨_, if_pos (toNat_count_lt hcount), ?_⟩
  rw [widen, if_neg Bool.false_ne_true, Bits.setWidth_ushiftRight a (by decide), hcount]
  rfl

/-- An arithmetic shift to the right may be taken in 64 bits: the sign extension fills the top
half with what the shift brings in. -/
theorem eval_rsh : ∃ w, Op.rsh.eval (widen true a) count = some w ∧
    w.setWidth 32 = sraHelper a b := by
  refine ⟨_, if_pos (toNat_count_lt hcount), ?_⟩
  rw [widen, if_pos rfl, Bits.setWidth_sshiftRight a (by decide), hcount]
  rfl

end Shifts

section Branches

/-- Sign extension keeps equality and both orders. -/
theorem eval_eq : Op.eq.eval (a.signExtend 64) (b.signExtend 64) = some (bit (equalTo a b)) := by
  have heq : (a.signExtend 64 == b.signExtend 64) = (a == b) := by
    rw [Bool.eq_iff_iff, beq_iff_eq, beq_iff_eq, Bits.signExtend_inj a b (by decide)]
  simp only [Op.eval, heq, equalTo]

/-- Extending the sign keeps words apart. -/
theorem eval_ne : Op.ne.eval (a.signExtend 64) (b.signExtend 64) = some (bit (notEqualTo a b)) := by
  have hne : (a.signExtend 64 != b.signExtend 64) = (a != b) := by
    rw [Bool.eq_iff_iff, bne_iff_ne, bne_iff_ne, ne_eq, Bits.signExtend_inj a b (by decide)]
  simp only [Op.eval, hne, notEqualTo]

/-- Extending the sign keeps the signed order. -/
theorem eval_lt : Op.lt.eval (a.signExtend 64) (b.signExtend 64) = some (bit (signedLess a b)) := by
  simp only [Op.eval, Bits.slt_signExtend a b (show 32 ≤ 64 by decide), signedLess]

theorem eval_ge :
    Op.ge.eval (a.signExtend 64) (b.signExtend 64) = some (bit (notSignedLess a b)) := by
  simp only [Op.eval, Bits.slt_signExtend a b (show 32 ≤ 64 by decide), notSignedLess, signedLess]

/-- Extending the sign keeps the unsigned order as well. -/
theorem eval_lt_u_signExtend :
    Op.lt_u.eval (a.signExtend 64) (b.signExtend 64) = some (bit (less a b)) := by
  simp only [Op.eval, Bits.ult_signExtend a b (show 32 ≤ 64 by decide)]
  rfl

theorem eval_ge_u : Op.ge_u.eval (a.signExtend 64) (b.signExtend 64) =
    some (bit (greaterEqual a b)) := by
  simp only [Op.eval, Bits.ult_signExtend a b (show 32 ≤ 64 by decide), greaterEqual_eq]

end Branches

/-- The count of a shift by a register is masked. -/
theorem toNat_masked : (widen false b &&& 0x1f#64).toNat = (slice 4 0 b).toNat := by
  have hones : (0x1f#64).toNat = 2 ^ 5 - 1 := rfl
  rw [BitVec.toNat_and, hones, Nat.and_two_pow_sub_one_eq_mod, toNat_slice_four_zero, widen,
    if_neg Bool.false_ne_true, BitVec.toNat_setWidth]
  omega

/-- The count of a shift by the immediate is small. -/
theorem toNat_imm64 {insn : Instruction} (h : insn.imm.toNat < 32) :
    (imm64 insn).toNat = (slice 4 0 insn.imm).toNat := by
  rw [imm64, BitVec.toNat_setWidth, toNat_slice_four_zero]
  omega

end Operations

section Machine

variable {μ : Type}

/-- What is not fixed by the code. -/
structure Platform (μ : Type) where
  statePtr : BitVec 64
  clobber : Host μ → JitReg → BitVec 64

/-- The machine that the code runs on. -/
abbrev Machine (μ : Type) := State JitReg (Host μ)

variable [Memory μ]

/-- What the code runs against. A callee saves the state pointer. -/
def Platform.env (pf : Platform μ) : Env JitReg (Field 32) Helper (Host μ) Exn where
  base := pf.statePtr
  load := Host.load
  store := Host.store
  call := Helper.callArgs pf.statePtr
  saved r := r = .V0
  clobber := pf.clobber
  fault := .undefinedBehaviour

section Env

variable (pf : Platform μ) (field : Field 32) (v : Word) (h : Host μ)

@[simp] theorem env_load : pf.env.load field h = Host.load field h := rfl

@[simp] theorem env_store : pf.env.store field v h = Host.store field v h := rfl

end Env

/-! ### One guest instruction -/

/-- The machine between two guest instructions. -/
structure Platform.Inv (pf : Platform μ) (m : Machine μ) : Prop where
  base : m.regs .V0 = pf.env.base
  zero : m.mem.cpu.getReg 0 = 0#32

/-- The code does to the host what `x` does. -/
abbrev Platform.Implements (pf : Platform μ) (code : Code) (x : EStateM Exn (Host μ) Unit) :
    Prop :=
  Refines (·.mem) pf.Inv (pf.env.run code) x

variable {pf : Platform μ} {insn : Instruction} {m : Machine μ}

/-- Loading `x0` loads the constant that it holds. -/
theorem run_loadReg (hbase : m.regs .V0 = pf.env.base) (hzero : m.mem.cpu.getReg 0 = 0#32)
    (rid : Operand) (r : JitReg) (sign : Bool) (code : Code) :
    (pf.env.run (loadReg rid r sign :: code)).run m =
      (pf.env.run code).run (m.set r (widen sign (m.mem.cpu.getReg rid.toNat))) := by
  by_cases h : rid = 0#8
  · have hx0 : widen sign (m.mem.cpu.getReg rid.toNat) = 0#64 := by
      rw [h, show (0#8).toNat = 0 from rfl, hzero]
      cases sign <;> rfl
    rw [loadReg, if_pos h, Env.run_movi, hx0]
  · cases sign with
    | false => simp [loadReg, h, hbase, widen]
    | true => simp [loadReg, h, hbase, widen]

/-- Writing a guest register. For `x0` the code is empty, and so is the write. -/
theorem run_storeReg (hbase : m.regs .V0 = pf.env.base) (rid : Operand) (r : JitReg)
    (code : Code) :
    (pf.env.run (storeReg rid r ++ code)).run m =
      (pf.env.run code).run (m.setMem
        { m.mem with cpu := m.mem.cpu.setReg rid.toNat ((m.regs r).setWidth 32) }) := by
  by_cases hrd : rid = 0#8
  · rw [storeReg, if_pos hrd, hrd]
    rfl
  · rw [storeReg, if_neg hrd, List.cons_append, Env.run_stxi_i hbase, List.nil_append, env_store,
      Host.setReg_eq_store hrd]

/-- The end of an instruction: the state pointer is where it was. -/
theorem matches_ok (hinv : pf.Inv m) {m' : Machine μ} {cpu : CPUState μ}
    {calls : List (CPUState μ)} (hbase : m'.regs .V0 = m.regs .V0)
    (hmem : m'.mem = { cpu, calls }) (hzero : cpu.getReg 0 = m.mem.cpu.getReg 0) :
    Matches (·.mem) pf.Inv (.ok () m' : EStateM.Result Exn (Machine μ) Unit)
      (.ok () { cpu, calls }) :=
  .returned hmem ⟨hbase.trans hinv.base, by rw [hmem]; exact hzero.trans hinv.zero⟩

/-- After an instruction, `pc` is read back through the state pointer and moved on. -/
theorem matches_advance (hinv : pf.Inv m) {m' : Machine μ} {cpu : CPUState μ}
    {calls : List (CPUState μ)} (hbase : m'.regs .V0 = m.regs .V0)
    (hmem : m'.mem = { cpu, calls }) (hzero : cpu.getReg 0 = m.mem.cpu.getReg 0) :
    Matches (·.mem) pf.Inv ((pf.env.run advance).run m')
      (.ok () { cpu := cpu.setPC (cpu.pc + kWordSize), calls }) := by
  have hbase' := hbase.trans hinv.base
  have hrun : (pf.env.run advance).run m' =
      .ok () (((m'.set .R0 (m'.mem.cpu.pc.setWidth 64)).set .R0
        (m'.mem.cpu.pc.setWidth 64 + 4#64)).setMem { m'.mem with
          cpu := m'.mem.cpu.setPC ((m'.mem.cpu.pc.setWidth 64 + 4#64).setWidth 32) }) := by
    simp [advance, loadPC, storePC, hbase']
  rw [hrun]
  refine matches_ok hinv ?_ ?_ ?_ <;>
    simp [hbase, hmem, hzero, kWordSize, BitVec.setWidth_add _ _ (show 32 ≤ 64 by decide)]

/-- Most instructions end by writing `rd` and moving on. -/
theorem matches_storeRd_advance (hinv : pf.Inv m) {m' : Machine μ} {calls : List (CPUState μ)}
    (hbase : m'.regs .V0 = m.regs .V0) (hmem : m'.mem = { m.mem with calls }) {r : JitReg}
    {v : Word} (hv : (m'.regs r).setWidth 32 = v) :
    Matches (·.mem) pf.Inv ((pf.env.run (storeRd insn r ++ advance)).run m')
      (.ok () { cpu := (m.mem.cpu.setReg insn.rd.toNat v).setPC (m.mem.cpu.pc + kWordSize)
                calls }) := by
  rw [storeRd, run_storeReg (hbase.trans hinv.base), hv, hmem,
    ← CPUState.setReg_pc m.mem.cpu insn.rd.toNat v]
  exact matches_advance hinv hbase rfl (by simp)

section Families

/-- An operation on two registers. The low half of the result is what the operation on words
gives. -/
theorem implements_implR {sign : Bool} {op : Op} {f : Word → Word → Word}
    (hk : insn.opcode.insnClass = some (.rr f))
    (hop : ∀ a b, ∃ w, op.eval (widen sign a) (widen sign b) = some w ∧ w.setWidth 32 = f a b) :
    pf.Implements (implR insn sign op ++ advance) (traced id execute insn) := by
  intro m hinv
  simp only [traced_of_not_callsHelper hk rfl, InsnClass.effect, Host.outcome]
  obtain ⟨w, heval, hw⟩ :=
    hop (m.mem.cpu.getReg insn.rs1.toNat) (m.mem.cpu.getReg insn.rs2.toNat)
  have hrun : (pf.env.run (implR insn sign op ++ advance)).run m =
      (pf.env.run (.opr op .R0 .R0 .R1 :: (storeRd insn .R0 ++ advance))).run
        ((m.set .R0 (widen sign (m.mem.cpu.getReg insn.rs1.toNat))).set .R1
          (widen sign (m.mem.cpu.getReg insn.rs2.toNat))) := by
    simp [implR, loadRS1, loadRS2, run_loadReg, hinv.base, hinv.zero]
  rw [hrun, Env.run_opr (by simpa using heval)]
  refine matches_storeRd_advance hinv ?_ ?_ ?_ <;> simp [hw]

theorem implements_implI {sign : Bool} {op : Op} {f : Word → Word → Word}
    (hk : insn.opcode.insnClass = some (.ri f))
    (hop : ∀ a, ∃ w, op.eval (widen sign a) (imm64 insn) = some w ∧
      w.setWidth 32 = f a insn.imm) :
    pf.Implements (implI insn sign op ++ advance) (traced id execute insn) := by
  intro m hinv
  simp only [traced_of_not_callsHelper hk rfl, InsnClass.effect, Host.outcome]
  obtain ⟨w, heval, hw⟩ := hop (m.mem.cpu.getReg insn.rs1.toNat)
  have hrun : (pf.env.run (implI insn sign op ++ advance)).run m =
      (pf.env.run (.opi op .R0 .R0 (imm64 insn) :: (storeRd insn .R0 ++ advance))).run
        (m.set .R0 (widen sign (m.mem.cpu.getReg insn.rs1.toNat))) := by
    simp [implI, loadRS1, run_loadReg, hinv.base, hinv.zero]
  rw [hrun, Env.run_opi (by simpa using heval)]
  refine matches_storeRd_advance hinv ?_ ?_ ?_ <;> simp [hw]

theorem implements_implShift {sign : Bool} {op : Op} {f : Word → Word → Word}
    (hk : insn.opcode.insnClass = some (.rr f))
    (hop : ∀ a b, ∃ w, op.eval (widen sign a) (widen false b &&& 0x1f#64) = some w ∧
      w.setWidth 32 = f a b) :
    pf.Implements (implShift insn sign op ++ advance) (traced id execute insn) := by
  intro m hinv
  simp only [traced_of_not_callsHelper hk rfl, InsnClass.effect, Host.outcome]
  obtain ⟨w, heval, hw⟩ :=
    hop (m.mem.cpu.getReg insn.rs1.toNat) (m.mem.cpu.getReg insn.rs2.toNat)
  have hrun : (pf.env.run (implShift insn sign op ++ advance)).run m =
      (pf.env.run (.opr op .R0 .R0 .R1 :: (storeRd insn .R0 ++ advance))).run
        (((m.set .R0 (widen sign (m.mem.cpu.getReg insn.rs1.toNat))).set .R1
          (widen false (m.mem.cpu.getReg insn.rs2.toNat))).set .R1
          (widen false (m.mem.cpu.getReg insn.rs2.toNat) &&& 0x1f#64)) := by
    simp [implShift, loadRS1, loadRS2, run_loadReg, hinv.base, hinv.zero]
  rw [hrun, Env.run_opr (by simpa using heval)]
  refine matches_storeRd_advance hinv ?_ ?_ ?_ <;> simp [hw]

/-- The immediate is extended as the helper does it. -/
theorem sextImm_eq (insn : Instruction) : sextImm insn = insn.imm.signExtend 64 := by
  rw [sextImm, imm64, signExtend_eq (by decide) (by decide) (by decide), BitVec.setWidth_eq,
    BitVec.setWidth_setWidth_of_le _ (by decide), BitVec.setWidth_eq]

/-- Both sides are sign-extended, so the comparison is the one on words. -/
theorem implements_implSLTI (hk : insn.opcode.insnClass = some (.ri (compareOp signedLess))) :
    pf.Implements (implSLTI insn ++ advance) (traced id execute insn) := by
  intro m hinv
  simp only [traced_of_not_callsHelper hk rfl, InsnClass.effect, Host.outcome]
  have hrun : (pf.env.run (implSLTI insn ++ advance)).run m =
      (pf.env.run (.opr .lt .R0 .R0 .R1 :: (storeRd insn .R0 ++ advance))).run
        ((m.set .R0 (widen true (m.mem.cpu.getReg insn.rs1.toNat))).set .R1 (sextImm insn)) := by
    simp [implSLTI, loadRS1, run_loadReg, hinv.base, hinv.zero]
  rw [hrun, Env.run_opr rfl]
  refine matches_storeRd_advance hinv (by simp) (by simp) ?_
  simp [sextImm_eq, widen, Bits.slt_signExtend, setWidth_bit, compareOp, signedLess]

/-- `movzr` picks the offset. -/
theorem setWidth_offset (insn : Instruction) (taken : Bool) :
    (if bit taken = 0#64 then 4#64 else imm64 insn).setWidth 32 =
      if taken then insn.imm else kWordSize := by
  cases taken with
  | false => rfl
  | true => exact BitVec.setWidth_setWidth_of_le insn.imm (by decide)

/-- The offset that the comparison picks is added to `pc`. -/
theorem run_implBr (hinv : pf.Inv m) {op : Op} {taken : Bool}
    (hop : op.eval (widen true (m.mem.cpu.getReg insn.rs1.toNat))
      (widen true (m.mem.cpu.getReg insn.rs2.toNat)) = some (bit taken)) :
    ∃ m', (pf.env.run (implBr insn op)).run m = .ok () m' ∧ m'.regs .V0 = m.regs .V0 ∧
      m'.mem = { m.mem with
        cpu := m.mem.cpu.setPC (m.mem.cpu.pc + if taken then insn.imm else kWordSize) } := by
  rw [implBr, loadRS1, loadRS2, loadPC, storePC, run_loadReg hinv.base hinv.zero,
    run_loadReg (by simpa using hinv.base) (by simpa using hinv.zero),
    Env.run_opr (by simpa using hop)]
  rw [Env.run_movi, Env.run_movi, Env.run_movzr, Env.run_ldxi_ui (by simpa using hinv.base),
    Env.run_addr, Env.run_stxi_i (by simpa using hinv.base), Env.run_nil]
  refine ⟨_, rfl, by simp, ?_⟩
  simp [setWidth_add_offset, setWidth_offset]

/-- Both operands of a branch are extended with their signs. -/
theorem implements_implBr {op : Op} {cond : Word → Word → Bool}
    (hk : insn.opcode.insnClass = some (.branch cond))
    (hop : ∀ a b : Word, op.eval (a.signExtend 64) (b.signExtend 64) = some (bit (cond a b))) :
    pf.Implements (implBr insn op) (traced id execute insn) := by
  intro m hinv
  simp only [traced_of_not_callsHelper hk rfl, InsnClass.effect, Host.outcome]
  obtain ⟨m', hrun, hbase, hmem⟩ := run_implBr hinv (hop _ _)
  rw [hrun]
  exact matches_ok hinv hbase hmem rfl

theorem implements_implAUIPC (hk : insn.opcode.insnClass = some .auipc) :
    pf.Implements (implAUIPC insn ++ advance) (traced id execute insn) := by
  intro m hinv
  simp only [traced_of_not_callsHelper hk rfl, InsnClass.effect, Host.outcome]
  have hrun : (pf.env.run (implAUIPC insn ++ advance)).run m =
      (pf.env.run (storeRd insn .R0 ++ advance)).run
        ((m.set .R0 (m.mem.cpu.pc.setWidth 64)).set .R0
          (m.mem.cpu.pc.setWidth 64 + imm64 insn)) := by
    simp [implAUIPC, loadPC, hinv.base]
  rw [hrun]
  refine matches_storeRd_advance hinv (by simp) (by simp) ?_
  simp [imm64, BitVec.setWidth_add _ _ (show 32 ≤ 64 by decide)]

theorem implements_implLUI (hk : insn.opcode.insnClass = some .lui) :
    pf.Implements (implLUI insn ++ advance) (traced id execute insn) := by
  intro m hinv
  simp only [traced_of_not_callsHelper hk rfl, InsnClass.effect, Host.outcome]
  have hrun : (pf.env.run (implLUI insn ++ advance)).run m =
      (pf.env.run (storeRd insn .R0 ++ advance)).run (m.set .R0 (imm64 insn)) := by
    simp [implLUI]
  rw [hrun]
  refine matches_storeRd_advance hinv (by simp) (by simp) ?_
  simp [imm64]

theorem implements_advance (hk : insn.opcode.insnClass = some .nop) :
    pf.Implements ([] ++ advance) (traced id execute insn) := by
  intro m hinv
  rw [traced_of_not_callsHelper hk rfl]
  exact matches_advance hinv rfl rfl rfl

theorem implements_implJAL (hk : insn.opcode.insnClass = some .jal) :
    pf.Implements (implJAL insn) (traced id execute insn) := by
  intro m hinv
  simp only [traced_of_not_callsHelper hk rfl, InsnClass.effect, Host.outcome]
  simp only [implJAL, storeRd, loadPC, storePC, List.cons_append, List.nil_append]
  rw [Env.run_ldxi_ui hinv.base, Env.run_addi, run_storeReg (by simpa using hinv.base),
    Env.run_addi, Env.run_stxi_i (by simpa using hinv.base), Env.run_nil]
  refine matches_ok hinv (by simp) ?_ (by simp)
  simp [imm64, kWordSize, BitVec.setWidth_add _ _ (show 32 ≤ 64 by decide)]

/-- The code masks where the interpreter shifts right and left. -/
theorem implements_implJALR (hk : insn.opcode.insnClass = some .jalr) :
    pf.Implements (implJALR insn) (traced id execute insn) := by
  intro m hinv
  simp only [traced_of_not_callsHelper hk rfl, InsnClass.effect, Host.outcome]
  rw [← Bits.and_not_one]
  simp only [implJALR, storeRd, loadRS1, loadPC, storePC, List.cons_append, List.nil_append]
  rw [Env.run_ldxi_ui hinv.base, Env.run_addi,
    run_loadReg (by simpa using hinv.base) (by simpa using hinv.zero),
    run_storeReg (by simpa using hinv.base), Env.run_addi, Env.run_andi,
    Env.run_stxi_i (by simpa using hinv.base), Env.run_nil]
  refine matches_ok hinv (by simp) ?_ (by simp)
  simp [imm64, kWordSize, setWidth_widen, BitVec.setWidth_add _ _ (show 32 ≤ 64 by decide)]

/-! ### Calls -/

/-- A call whose first argument is the state pointer. -/
theorem run_finishi {helper : Helper} {code : Code} (args : List (BitVec 64))
    (hargs : m.args = pf.env.base :: args) :
    (pf.env.run (.finishi helper :: code)).run m =
      match (helper.call (((args[0]?).getD 0#64).setWidth 32)
        (((args[1]?).getD 0#64).setWidth 32)).run m.mem with
      | .ok ret h => (pf.env.run code).run (pf.env.returned m (ret.map (·.setWidth 64)) h)
      | .error e h => .error e (m.setMem h) := by
  have hcall : pf.env.call helper m.args =
      helper.callArgs pf.statePtr (pf.statePtr :: args) := by
    rw [hargs]
    rfl
  rw [Env.run_finishi, hcall, run_callArgs]
  cases (helper.call (((args[0]?).getD 0#64).setWidth 32)
    (((args[1]?).getD 0#64).setWidth 32)).run m.mem <;> rfl

theorem base_returned {ret : Option (BitVec 64)} {h : Host μ} :
    (pf.env.returned m ret h).regs .V0 = m.regs .V0 := Env.regs_returned_of_saved rfl

/-- The system call leaves `pc` alone, so the loop moves on from the old one. -/
theorem implements_implECALL (hk : insn.opcode.insnClass = some .ecall) :
    pf.Implements (implECALL ++ advance) (traced id execute insn) := by
  intro m hinv
  simp only [traced_eq_effect hk, InsnClass.effect, InsnClass.callsHelper, if_true]
  simp only [implECALL, List.cons_append, List.nil_append]
  rw [Env.run_prepare, Env.run_pushargr, run_finishi [] (by simp [hinv.base]), run_call_syscall]
  simp only [State.mem_withArgs]
  cases hcall : m.mem.cpu.emulateSysCall with
  | ok cpu =>
    have hcpu := CPUState.emulateSysCall_ok hcall
    have hpc : m.mem.cpu.pc = cpu.pc := by rw [hcpu]; rfl
    rw [hpc]
    exact matches_advance hinv base_returned rfl (by rw [hcpu]; rfl)
  | error e => exact .raised rfl

/-- What `extr` makes of a result. -/
theorem setWidth_extr {T : MemTy} (v : BitVec T.bits) :
    ((((v.setWidth 32).setWidth 64).extractLsb' 0 T.bits).signExtend 64).setWidth 32 =
      InsnClass.extend true v := by
  have hT := T.bits_le
  have hlow : ((v.setWidth 32).setWidth 64).extractLsb' 0 T.bits = v := by
    rw [← BitVec.setWidth_eq_extractLsb' (by omega), BitVec.setWidth_setWidth_of_le _ (by omega),
      BitVec.setWidth_setWidth_of_le _ (by omega), BitVec.setWidth_eq]
  rw [hlow, InsnClass.extend_true, Bits.setWidth_signExtend_of_le v hT (by decide)]

/-- The address of an access. -/
theorem setWidth_address (insn : Instruction) (x : Word) :
    (widen false x + imm64 insn).setWidth 32 = x + insn.imm := by
  rw [widen, if_neg Bool.false_ne_true, setWidth_add_offset, imm64,
    BitVec.setWidth_setWidth_of_le _ (by decide), BitVec.setWidth_eq]

theorem implements_implLoad {T : MemTy} {sext : Bool}
    (hk : insn.opcode.insnClass = some (.load T sext)) :
    pf.Implements (implLoad insn T sext ++ advance) (traced id execute insn) := by
  intro m hinv
  simp only [traced_eq_effect hk, InsnClass.effect, InsnClass.callsHelper, if_true]
  simp only [implLoad, loadRS1, List.cons_append, List.nil_append, List.append_assoc]
  rw [run_loadReg hinv.base hinv.zero, Env.run_addi, Env.run_prepare, Env.run_pushargr,
    Env.run_pushargr,
    run_finishi [widen false (m.mem.cpu.getReg insn.rs1.toNat) + imm64 insn] (by simp [hinv.base]),
    run_call_load]
  simp only [List.getElem?_cons_zero, Option.getD_some, State.mem_withArgs, State.mem_set,
    setWidth_address]
  cases hread : Memory.read T m.mem.cpu.memory (m.mem.cpu.getReg insn.rs1.toNat + insn.imm) with
  | ok v =>
    simp only [Option.map_some]
    rw [Env.run_retval rfl]
    cases sext with
    | false =>
      rw [if_neg Bool.false_ne_true, List.nil_append]
      refine matches_storeRd_advance hinv ?_ ?_ ?_
      · simp [base_returned]
      · rfl
      · simp [InsnClass.extend_false]
    | true =>
      rw [if_pos rfl, List.cons_append, Env.run_extr, List.nil_append]
      refine matches_storeRd_advance hinv ?_ ?_ ?_
      · simp [base_returned]
      · rfl
      · rw [State.regs_set_self, State.regs_set_self, setWidth_extr]
  | error e => exact .raised rfl

theorem implements_implStore {T : MemTy} (hk : insn.opcode.insnClass = some (.store T)) :
    pf.Implements (implStore insn T ++ advance) (traced id execute insn) := by
  intro m hinv
  simp only [traced_eq_effect hk, InsnClass.effect, InsnClass.callsHelper, if_true]
  simp only [implStore, loadRS1, loadRS2, List.cons_append, List.nil_append]
  rw [run_loadReg hinv.base hinv.zero, Env.run_addi,
    run_loadReg (by simpa using hinv.base) (by simpa using hinv.zero), Env.run_prepare,
    Env.run_pushargr, Env.run_pushargr, Env.run_pushargr,
    run_finishi [widen false (m.mem.cpu.getReg insn.rs1.toNat) + imm64 insn,
      widen false (m.mem.cpu.getReg insn.rs2.toNat)] (by simp [hinv.base]), run_call_store]
  simp only [List.getElem?_cons_zero, List.getElem?_cons_succ, Option.getD_some,
    State.mem_withArgs, State.mem_set, setWidth_address, setWidth_widen]
  cases hwrite : Memory.write T m.mem.cpu.memory
    (m.mem.cpu.getReg insn.rs1.toNat + insn.imm)
    ((m.mem.cpu.getReg insn.rs2.toNat).setWidth T.bits) with
  | ok memory => exact matches_advance hinv (by simp [base_returned]) rfl rfl
  | error e => exact .raised rfl

end Families

/-! ### The whole block -/

/-- An instruction that leaves `pc` to the loop over the block. -/
theorem emit_advance (hchanges : changesPC insn.opcode = .ok false)
    (hcode : pf.Implements (emitOpcode insn ++ advance) (traced id execute insn)) :
    ∃ code, emit insn = .ok code ∧ pf.Implements code (traced id execute insn) :=
  ⟨emitOpcode insn ++ advance, by simp only [emit, hchanges]; rfl, hcode⟩

theorem emit_changesPC (hchanges : changesPC insn.opcode = .ok true)
    (hcode : pf.Implements (emitOpcode insn) (traced id execute insn)) :
    ∃ code, emit insn = .ok code ∧ pf.Implements code (traced id execute insn) :=
  ⟨emitOpcode insn ++ [], by simp only [emit, hchanges]; rfl, by rwa [List.append_nil]⟩

variable (pf)

/-- Whatever the instruction, its code implements it. Only a shift by an immediate needs it well
formed. -/
theorem emit_implements (hwf : insn.WellFormed) :
    ∃ code, emit insn = .ok code ∧ pf.Implements code (traced id execute insn) := by
  obtain ⟨opcode, rs1, rs2, rd, imm⟩ := insn
  have hshamt := hwf.shamt_lt
  cases opcode
  case kADD => exact emit_advance rfl (implements_implR rfl eval_add)
  case kADDI => exact emit_advance rfl (implements_implI rfl fun a => eval_add a imm)
  case kSUB => exact emit_advance rfl (implements_implR rfl eval_sub)
  case kAND => exact emit_advance rfl (implements_implR rfl eval_and)
  case kANDI => exact emit_advance rfl (implements_implI rfl fun a => eval_and a imm)
  case kOR => exact emit_advance rfl (implements_implR rfl eval_or)
  case kORI => exact emit_advance rfl (implements_implI rfl fun a => eval_or a imm)
  case kXOR => exact emit_advance rfl (implements_implR rfl eval_xor)
  case kXORI => exact emit_advance rfl (implements_implI rfl fun a => eval_xor a imm)
  case kSLT => exact emit_advance rfl (implements_implR rfl eval_lt_widen_true)
  case kSLTU => exact emit_advance rfl (implements_implR rfl eval_lt_widen_false)
  case kSLTI => exact emit_advance rfl (implements_implSLTI rfl)
  case kSLTIU => exact emit_advance rfl (implements_implI rfl fun a => eval_lt_u a imm)
  case kSLL =>
    exact emit_advance rfl (implements_implShift rfl fun a b => eval_lsh (toNat_masked b))
  case kSLLI =>
    exact emit_advance rfl (implements_implI rfl fun a => eval_lsh (toNat_imm64 (hshamt rfl)))
  case kSRL =>
    exact emit_advance rfl (implements_implShift rfl fun a b => eval_rsh_u (toNat_masked b))
  case kSRLI =>
    exact emit_advance rfl (implements_implI rfl fun a => eval_rsh_u (toNat_imm64 (hshamt rfl)))
  case kSRA =>
    exact emit_advance rfl (implements_implShift rfl fun a b => eval_rsh (toNat_masked b))
  case kSRAI =>
    exact emit_advance rfl (implements_implI rfl fun a => eval_rsh (toNat_imm64 (hshamt rfl)))
  case kBEQ => exact emit_changesPC rfl (implements_implBr rfl eval_eq)
  case kBNE => exact emit_changesPC rfl (implements_implBr rfl eval_ne)
  case kBLT => exact emit_changesPC rfl (implements_implBr rfl eval_lt)
  case kBLTU => exact emit_changesPC rfl (implements_implBr rfl eval_lt_u_signExtend)
  case kBGE => exact emit_changesPC rfl (implements_implBr rfl eval_ge)
  case kBGEU => exact emit_changesPC rfl (implements_implBr rfl eval_ge_u)
  case kLUI => exact emit_advance rfl (implements_implLUI rfl)
  case kAUIPC => exact emit_advance rfl (implements_implAUIPC rfl)
  case kJAL => exact emit_changesPC rfl (implements_implJAL rfl)
  case kJALR => exact emit_changesPC rfl (implements_implJALR rfl)
  case kLB | kLH | kLBU | kLHU | kLW => exact emit_advance rfl (implements_implLoad rfl)
  case kSB | kSH | kSW => exact emit_advance rfl (implements_implStore rfl)
  case kECALL => exact emit_advance rfl (implements_implECALL rfl)
  case kEBREAK | kFENCE | kPAUSE | kSBREAK | kSCALL =>
    exact emit_advance rfl (implements_advance rfl)
  case kNumOpcodes => cases hwf.isDecoded

/-- The code of a block executes it under the record, then counts it in a `dword`. -/
theorem translate_implements {insns : List Instruction} (hdecoded : Decoded insns) :
    ∃ code, translate insns = .ok code ∧
      pf.Implements code (countedAtEnd .dword id execute insns) := by
  obtain ⟨codes, hcodes, himplements⟩ := exists_mapM_eq_ok insns fun insn hmem =>
    emit_implements pf (hdecoded.wellFormed insn hmem)
  refine ⟨_, by simp only [translate, hcodes]; rfl, ?_⟩
  rw [Platform.Implements, Env.run_append, countedAtEnd, Env.run, forM_flatten]
  refine (Refines.forM₂ himplements).seq fun m hinv => ?_
  rw [countInsns, Env.run_ldxi_ui hinv.base, Env.run_addi,
    Env.run_stxi_i (by simpa using hinv.base)]
  refine .returned ?_ ⟨by simpa using hinv.base, hinv.zero⟩
  rw [State.mem_setMem, State.regs_set_self, State.regs_set_self, setWidth_add_offset,
    BitVec.setWidth_ofNat_of_le (by decide)]
  rfl

/-- The translation of a decoded block ends in the state that interpreting the block
gives, up to the counter. -/
theorem lightning_translate_correct {insns : List Instruction} (hdecoded : Decoded insns)
    {s s' : CPUState μ} (hzero : s.getReg 0 = 0#32)
    (hinterp : (interpretInsns insns).run s = .ok () s') {m : Machine μ}
    (hentry : m.regs .V0 = pf.statePtr) (hmem : m.mem = { cpu := s }) :
    ∃ code m', translate insns = .ok code ∧ (pf.env.run code).run m = .ok () m' ∧
      m'.mem.cpu = s'.withIcount m'.mem.cpu.icount := by
  obtain ⟨code, htranslate, himplements⟩ := translate_implements pf hdecoded
  have hcounted := run_countedAtEnd .dword id hinterp
  rw [← hmem] at hcounted
  obtain ⟨m', hrun, hhost, -⟩ := himplements.ok ⟨hentry, by rw [hmem]; exact hzero⟩ hcounted
  exact ⟨code, m', htranslate, hrun, by rw [hhost]; rfl⟩

end Machine

/-! ### A run of generated code -/

/-- Callees leave junk in the temporaries. -/
def samplePlatform : Platform (PlainMemory 0#32 4096) where
  statePtr := 0x7000#64
  clobber _ _ := 0xdeadbeefdeadbeef#64

/-- The block is entered with the state pointer, and junk elsewhere. -/
def sampleMachine : Machine (PlainMemory 0#32 4096) where
  regs | .V0 => 0x7000#64 | _ => 0x5555555555555555#64
  mem := { cpu := sampleGuest }

theorem lightning_translate_sampleInsns :
    ∃ code m', translate sampleInsns = .ok code ∧
      (samplePlatform.env.run code).run sampleMachine = .ok () m' ∧
      m'.mem.cpu = sampleResult.withIcount m'.mem.cpu.icount :=
  lightning_translate_correct samplePlatform isBlock_sampleInsns.decoded rfl
    interpretInsns_sampleGuest rfl rfl

end Prot.Lightning
