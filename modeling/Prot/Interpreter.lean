import Prot.CpuState
import Prot.Lib.Stateful

/-!
# The interpreter

One handler for each opcode, and `Interpreter.execute`, which picks the handler
and advances `pc` where the handler does not.

The handlers of one family differ only in the operation they are given, so
every opcode but the last has an `InsnClass`: what it computes, from which
operands. `execute_eq_effect` reads the whole interpreter through it, and
every proof about an engine goes class by class instead of opcode by opcode.
-/

namespace Prot

open Isa

/-- The handlers convert the result of a comparison to a word. -/
def boolToWord (b : Bool) : Word := (BitVec.ofBool b).setWidth 32

namespace Interpreter

variable {μ : Type}

/-- What executes an instruction of one opcode. -/
abbrev Handler (μ : Type) := Instruction → EStateM Exn (CPUState μ) Unit

/-- Handlers of the operations on two registers. -/
def executeRegisterRegisterOp (op : Word → Word → Word) : Handler μ := fun inst => do
  let state ← get
  let rs1 := state.getReg inst.rs1.toNat
  let rs2 := state.getReg inst.rs2.toNat
  modify fun state => state.setReg inst.rd.toNat (op rs1 rs2)

/-- Handlers of the operations on a register and the immediate. -/
def executeRegisterImmOp (op : Word → Word → Word) : Handler μ := fun inst => do
  let state ← get
  let rs1 := state.getReg inst.rs1.toNat
  let imm := inst.imm
  modify fun state => state.setReg inst.rd.toNat (op rs1 imm)

/-- A comparison used as an operation on words. -/
def compareOp (cond : Word → Word → Bool) (lhs rhs : Word) : Word := boolToWord (cond lhs rhs)

/-- `std::less` on words. -/
def less (lhs rhs : Word) : Bool := lhs < rhs

/-- `std::greater_equal` on words. -/
def greaterEqual (lhs rhs : Word) : Bool := lhs ≥ rhs

theorem greaterEqual_eq (lhs rhs : Word) : greaterEqual lhs rhs = !lhs.ult rhs := by
  simp only [greaterEqual, BitVec.ult_eq_decide, ge_iff_le, BitVec.le_def, ← decide_not, not_lt]

/-- `std::equal_to`. -/
def equalTo (lhs rhs : Word) : Bool := lhs == rhs

/-- `std::not_equal_to`. -/
def notEqualTo (lhs rhs : Word) : Bool := lhs != rhs

/-- The condition of `BGE`, which negates the signed comparison. -/
def notSignedLess (lhs rhs : Word) : Bool := !signedLess lhs rhs

/-- Adds two registers. -/
def doADD : Handler μ := executeRegisterRegisterOp (· + ·)

/-- Adds the immediate. -/
def doADDI : Handler μ := executeRegisterImmOp (· + ·)

/-- Conjunction of two registers. -/
def doAND : Handler μ := executeRegisterRegisterOp (· &&& ·)

/-- Conjunction with the immediate. -/
def doANDI : Handler μ := executeRegisterImmOp (· &&& ·)

/-- Adds the immediate to `pc`. -/
def doAUIPC : Handler μ := fun inst =>
  modify fun state => state.setReg inst.rd.toNat (state.getPC + inst.imm)

/-- Handlers of the branches. A branch that is not taken moves on like any other instruction. -/
def brHelper (cond : Word → Word → Bool) : Handler μ := fun inst => do
  let state ← get
  let lhs := state.getReg inst.rs1.toNat
  let rhs := state.getReg inst.rs2.toNat
  let offset : Addr := if cond lhs rhs then inst.imm else kWordSize
  modify fun state => state.setPC (state.getPC + offset)

/-- Branches if equal. -/
def doBEQ : Handler μ := brHelper equalTo

/-- Branches if not less, as signed words. -/
def doBGE : Handler μ := brHelper notSignedLess

/-- Branches if not less. -/
def doBGEU : Handler μ := brHelper greaterEqual

/-- Branches if less, as signed words. -/
def doBLT : Handler μ := brHelper signedLess

/-- Branches if less. -/
def doBLTU : Handler μ := brHelper less

/-- Branches if not equal. -/
def doBNE : Handler μ := brHelper notEqualTo

/-- Breakpoints are ignored. -/
def doEBREAK : Handler μ := fun _ => pure ()

/-- Calls the environment, which may raise. -/
def doECALL : Handler μ := fun _ => do
  let state ← get
  let state ← Stateful.ofExcept state.emulateSysCall
  set state

/-- Fences are ignored. -/
def doFENCE : Handler μ := fun _ => pure ()

/-- Jumps and links. The link address is taken before `pc` moves. -/
def doJAL : Handler μ := fun inst => do
  modify fun state => state.setReg inst.rd.toNat (state.getPC + kWordSize)
  modify fun state => state.setPC (state.getPC + inst.imm)

/-- Jumps to a register and links. The base is read before `rd` is written, and may be the same
register. -/
def doJALR : Handler μ := fun inst => do
  let state ← get
  let retAddr := state.getPC + kWordSize
  let target := state.getReg inst.rs1.toNat + inst.imm
  let target := target >>> 1
  let target := target <<< 1
  modify fun state => state.setPC target
  modify fun state => state.setReg inst.rd.toNat retAddr

section MemoryAccess

variable [Memory μ]

/-- Handlers of the loads. An access that raises ends the handler, and `rd` keeps its value. -/
def loadHelper (T : MemTy) (Signed : Bool) : Handler μ := fun inst => do
  let state ← get
  let rs := state.getReg inst.rs1.toNat
  let addr := rs + inst.imm
  let val ← Stateful.ofExcept (Memory.read T state.memory addr)
  let loaded : Word := val.setWidth 32
  let loaded := if Signed then signExtend 32 T.bits loaded else loaded
  modify fun state => state.setReg inst.rd.toNat loaded

/-- Loads a byte with its sign. -/
def doLB : Handler μ := loadHelper .byte true

/-- Loads a byte. -/
def doLBU : Handler μ := loadHelper .byte false

/-- Loads a half word with its sign. -/
def doLH : Handler μ := loadHelper .half true

/-- Loads a half word. -/
def doLHU : Handler μ := loadHelper .half false

/-- Loads a word. -/
def doLW : Handler μ := loadHelper .word false

/-- Handlers of the stores, of the low part of a register. -/
def storeHelper (T : MemTy) : Handler μ := fun inst => do
  let state ← get
  let addr := state.getReg inst.rs1.toNat + inst.imm
  let val : BitVec T.bits := (state.getReg inst.rs2.toNat).setWidth T.bits
  let memory ← Stateful.ofExcept (Memory.write T state.memory addr val)
  set { state with memory := memory }

/-- Stores a byte. -/
def doSB : Handler μ := storeHelper .byte

/-- Stores a half word. -/
def doSH : Handler μ := storeHelper .half

/-- Stores a word. -/
def doSW : Handler μ := storeHelper .word

end MemoryAccess

/-- Loads the immediate. -/
def doLUI : Handler μ := fun inst => modify fun state => state.setReg inst.rd.toNat inst.imm

/-- Disjunction of two registers. -/
def doOR : Handler μ := executeRegisterRegisterOp (· ||| ·)

/-- Disjunction with the immediate. -/
def doORI : Handler μ := executeRegisterImmOp (· ||| ·)

/-- Never decoded. -/
def doPAUSE : Handler μ := fun _ => pure ()

/-- Never decoded. -/
def doSBREAK : Handler μ := fun _ => pure ()

/-- Never decoded. -/
def doSCALL : Handler μ := fun _ => pure ()

/-- A shift to the left by the five lowest bits. -/
def sllHelper (lhs rhs : Word) : Word := lhs <<< slice 4 0 rhs

/-- Shifts to the left by a register. -/
def doSLL : Handler μ := executeRegisterRegisterOp sllHelper

/-- Shifts to the left by the immediate. -/
def doSLLI : Handler μ := executeRegisterImmOp sllHelper

/-- Compares two registers as signed words. -/
def doSLT : Handler μ := executeRegisterRegisterOp (compareOp signedLess)

/-- Compares with the immediate, as signed words. -/
def doSLTI : Handler μ := executeRegisterImmOp (compareOp signedLess)

/-- Compares with the immediate. -/
def doSLTIU : Handler μ := executeRegisterImmOp (compareOp less)

/-- Compares two registers. -/
def doSLTU : Handler μ := executeRegisterRegisterOp (compareOp less)

/-- An arithmetic shift to the right by the five lowest bits. -/
def sraHelper (lhs rhs : Word) : Word := lhs.sshiftRight' (slice 4 0 rhs)

/-- Shifts to the right by a register, with the sign. -/
def doSRA : Handler μ := executeRegisterRegisterOp sraHelper

/-- Shifts to the right by the immediate, with the sign. -/
def doSRAI : Handler μ := executeRegisterImmOp sraHelper

/-- A logical shift to the right by the five lowest bits. -/
def srlHelper (lhs rhs : Word) : Word := lhs >>> slice 4 0 rhs

/-- Shifts to the right by a register. -/
def doSRL : Handler μ := executeRegisterRegisterOp srlHelper

/-- Shifts to the right by the immediate. -/
def doSRLI : Handler μ := executeRegisterImmOp srlHelper

/-- Subtracts two registers. -/
def doSUB : Handler μ := executeRegisterRegisterOp (· - ·)

/-- Exclusive disjunction of two registers. -/
def doXOR : Handler μ := executeRegisterRegisterOp (· ^^^ ·)

/-- Exclusive disjunction with the immediate. -/
def doXORI : Handler μ := executeRegisterImmOp (· ^^^ ·)

section Execute

variable [Memory μ]

/-- `kExecHandlers.get`: the table has no entry at `kNumOpcodes`, where an
assertion fails. -/
def getHandler : Opcode → Except Exn (Handler μ)
  | .kADD => pure doADD | .kADDI => pure doADDI | .kAND => pure doAND | .kANDI => pure doANDI
  | .kAUIPC => pure doAUIPC
  | .kBEQ => pure doBEQ | .kBGE => pure doBGE | .kBGEU => pure doBGEU
  | .kBLT => pure doBLT | .kBLTU => pure doBLTU | .kBNE => pure doBNE
  | .kEBREAK => pure doEBREAK | .kECALL => pure doECALL | .kFENCE => pure doFENCE
  | .kJAL => pure doJAL | .kJALR => pure doJALR
  | .kLB => pure doLB | .kLBU => pure doLBU | .kLH => pure doLH | .kLHU => pure doLHU
  | .kLUI => pure doLUI | .kLW => pure doLW
  | .kOR => pure doOR | .kORI => pure doORI | .kPAUSE => pure doPAUSE
  | .kSB => pure doSB | .kSBREAK => pure doSBREAK | .kSCALL => pure doSCALL | .kSH => pure doSH
  | .kSLL => pure doSLL | .kSLLI => pure doSLLI
  | .kSLT => pure doSLT | .kSLTI => pure doSLTI | .kSLTIU => pure doSLTIU | .kSLTU => pure doSLTU
  | .kSRA => pure doSRA | .kSRAI => pure doSRAI | .kSRL => pure doSRL | .kSRLI => pure doSRLI
  | .kSUB => pure doSUB | .kSW => pure doSW | .kXOR => pure doXOR | .kXORI => pure doXORI
  | .kNumOpcodes => throw .assertionFailed

/-- `Interpreter::execute`. -/
def execute (insn : Instruction) : EStateM Exn (CPUState μ) Unit := do
  let handler ← Stateful.ofExcept (getHandler insn.opcode)
  let cpu ← get
  -- where the instruction started, whatever the handler does to `pc`
  let oldPC := cpu.getPC
  handler insn
  let changes ← Stateful.ofExcept (changesPC insn.opcode)
  if !changes then
    modify fun cpu => cpu.setPC (oldPC + kWordSize)

end Execute

end Interpreter

/-! ### Instruction classes -/

/-- What an opcode does, up to the operands of the instruction. -/
inductive InsnClass where
  | rr (op : Word → Word → Word)
  | ri (op : Word → Word → Word)
  | lui
  | auipc
  | branch (cond : Word → Word → Bool)
  | jal
  | jalr
  | load (T : MemTy) (Signed : Bool)
  | store (T : MemTy)
  | ecall
  | nop

open Interpreter

/-- The class of each opcode. -/
def Isa.Opcode.insnClass : Opcode → Option InsnClass
  | .kADD => some (.rr (· + ·))
  | .kADDI => some (.ri (· + ·))
  | .kAND => some (.rr (· &&& ·))
  | .kANDI => some (.ri (· &&& ·))
  | .kAUIPC => some .auipc
  | .kBEQ => some (.branch equalTo)
  | .kBGE => some (.branch notSignedLess)
  | .kBGEU => some (.branch greaterEqual)
  | .kBLT => some (.branch signedLess)
  | .kBLTU => some (.branch less)
  | .kBNE => some (.branch notEqualTo)
  | .kECALL => some .ecall
  | .kEBREAK | .kFENCE | .kPAUSE | .kSBREAK | .kSCALL => some .nop
  | .kJAL => some .jal
  | .kJALR => some .jalr
  | .kLB => some (.load .byte true)
  | .kLBU => some (.load .byte false)
  | .kLH => some (.load .half true)
  | .kLHU => some (.load .half false)
  | .kLUI => some .lui
  | .kLW => some (.load .word false)
  | .kOR => some (.rr (· ||| ·))
  | .kORI => some (.ri (· ||| ·))
  | .kSB => some (.store .byte)
  | .kSH => some (.store .half)
  | .kSW => some (.store .word)
  | .kSLL => some (.rr sllHelper)
  | .kSLLI => some (.ri sllHelper)
  | .kSLT => some (.rr (compareOp signedLess))
  | .kSLTI => some (.ri (compareOp signedLess))
  | .kSLTIU => some (.ri (compareOp less))
  | .kSLTU => some (.rr (compareOp less))
  | .kSRA => some (.rr sraHelper)
  | .kSRAI => some (.ri sraHelper)
  | .kSRL => some (.rr srlHelper)
  | .kSRLI => some (.ri srlHelper)
  | .kSUB => some (.rr (· - ·))
  | .kXOR => some (.rr (· ^^^ ·))
  | .kXORI => some (.ri (· ^^^ ·))
  | .kNumOpcodes => none

namespace InsnClass

variable {μ : Type} [Memory μ]

/-- The word a load puts in its destination. -/
def extend {T : MemTy} (Signed : Bool) (val : BitVec T.bits) : Word :=
  if Signed then signExtend 32 T.bits (val.setWidth 32 : Word) else val.setWidth 32

theorem extend_false {T : MemTy} (val : BitVec T.bits) : extend false val = val.setWidth 32 := rfl

/-- Signed loads extend the sign, at every width. -/
theorem extend_true {T : MemTy} (val : BitVec T.bits) : extend true val = val.signExtend 32 := by
  cases T with
  | byte | half =>
    rw [extend, if_pos rfl, signExtend_eq (by decide) (by decide) (by decide),
      BitVec.setWidth_setWidth_of_le _ (by decide), BitVec.setWidth_eq, BitVec.setWidth_eq]
  | word => simp [extend, signExtend]

/-- The result of executing `insn` in `s`, if it is of the given class. -/
def effect (insn : Instruction) (s : CPUState μ) :
    InsnClass → EStateM.Result Exn (CPUState μ) Unit
  | rr op =>
    .ok () <| (s.setReg insn.rd.toNat
      (op (s.getReg insn.rs1.toNat) (s.getReg insn.rs2.toNat))).setPC (s.pc + kWordSize)
  | ri op =>
    .ok () <| (s.setReg insn.rd.toNat
      (op (s.getReg insn.rs1.toNat) insn.imm)).setPC (s.pc + kWordSize)
  | lui => .ok () <| (s.setReg insn.rd.toNat insn.imm).setPC (s.pc + kWordSize)
  | auipc => .ok () <| (s.setReg insn.rd.toNat (s.pc + insn.imm)).setPC (s.pc + kWordSize)
  | branch cond =>
    .ok () <| s.setPC <| s.pc +
      if cond (s.getReg insn.rs1.toNat) (s.getReg insn.rs2.toNat) then insn.imm else kWordSize
  | jal => .ok () <| (s.setReg insn.rd.toNat (s.pc + kWordSize)).setPC (s.pc + insn.imm)
  | jalr =>
    .ok () <| (s.setReg insn.rd.toNat (s.pc + kWordSize)).setPC
      (((s.getReg insn.rs1.toNat + insn.imm) >>> 1) <<< 1)
  | load T Signed =>
    match Memory.read T s.memory (s.getReg insn.rs1.toNat + insn.imm) with
    | .ok val => .ok () <| (s.setReg insn.rd.toNat (extend Signed val)).setPC (s.pc + kWordSize)
    | .error e => .error e s
  | store T =>
    match Memory.write T s.memory (s.getReg insn.rs1.toNat + insn.imm)
      ((s.getReg insn.rs2.toNat).setWidth T.bits) with
    | .ok memory => .ok () <| { s with memory }.setPC (s.pc + kWordSize)
    | .error e => .error e s
  | ecall =>
    match s.emulateSysCall with
    | .ok s' => .ok () (s'.setPC (s.pc + kWordSize))
    | .error e => .error e s
  | nop => .ok () (s.setPC (s.pc + kWordSize))

end InsnClass

section Classes

variable {μ : Type} [Memory μ]

/-- An instruction that does not change `pc` itself moves on to the next word. -/
theorem run_execute_of_ok {insn : Instruction} {handler : Handler μ} {changes : Bool}
    {s s' : CPUState μ} (hget : getHandler insn.opcode = .ok handler)
    (hchanges : changesPC insn.opcode = .ok changes) (hrun : (handler insn).run s = .ok () s') :
    (execute insn).run s = .ok () (if changes then s' else s'.setPC (s.pc + kWordSize)) := by
  cases changes <;> simp [execute, hget, hchanges, hrun]

/-- A handler that raises ends the instruction where it raised. -/
theorem run_execute_of_error {insn : Instruction} {handler : Handler μ} {e : Exn}
    {s s' : CPUState μ} (hget : getHandler insn.opcode = .ok handler)
    (hrun : (handler insn).run s = .error e s') : (execute insn).run s = .error e s' := by
  simp [execute, hget, hrun]

variable {insn : Instruction} {s : CPUState μ}

/-- Reading `pc` after writing `rd` makes no difference. -/
theorem execute_jal (hget : getHandler (μ := μ) insn.opcode = .ok doJAL)
    (hchanges : changesPC insn.opcode = .ok true) :
    (execute insn).run s = InsnClass.jal.effect insn s := by
  have hrun : (doJAL insn).run s = .ok ()
      ((s.setReg insn.rd.toNat (s.pc + kWordSize)).setPC (s.pc + insn.imm)) := by
    simp [doJAL]
  exact run_execute_of_ok hget hchanges hrun

/-- The handler writes `pc` first and the class writes `rd` first, which comes to the same. -/
theorem execute_jalr (hget : getHandler (μ := μ) insn.opcode = .ok doJALR)
    (hchanges : changesPC insn.opcode = .ok true) :
    (execute insn).run s = InsnClass.jalr.effect insn s := by
  have hrun : (doJALR insn).run s = .ok () ((s.setReg insn.rd.toNat (s.pc + kWordSize)).setPC
      (((s.getReg insn.rs1.toNat + insn.imm) >>> 1) <<< 1)) := by
    simp [doJALR, CPUState.setPC_setReg]
  exact run_execute_of_ok hget hchanges hrun

theorem execute_load {T : MemTy} {Signed : Bool}
    (hget : getHandler (μ := μ) insn.opcode = .ok (loadHelper T Signed))
    (hchanges : changesPC insn.opcode = .ok false) :
    (execute insn).run s = (InsnClass.load T Signed).effect insn s := by
  simp only [InsnClass.effect]
  cases hread : Memory.read T s.memory (s.getReg insn.rs1.toNat + insn.imm) with
  | ok val =>
    exact run_execute_of_ok hget hchanges (by simp [loadHelper, hread, InsnClass.extend])
  | error e => exact run_execute_of_error hget (by simp [loadHelper, hread])

theorem execute_store {T : MemTy} (hget : getHandler (μ := μ) insn.opcode = .ok (storeHelper T))
    (hchanges : changesPC insn.opcode = .ok false) :
    (execute insn).run s = (InsnClass.store T).effect insn s := by
  simp only [InsnClass.effect]
  cases hwrite : Memory.write T s.memory (s.getReg insn.rs1.toNat + insn.imm)
    ((s.getReg insn.rs2.toNat).setWidth T.bits) with
  | ok memory => exact run_execute_of_ok hget hchanges (by simp [storeHelper, hwrite])
  | error e => exact run_execute_of_error hget (by simp [storeHelper, hwrite])

theorem execute_ecall (hget : getHandler (μ := μ) insn.opcode = .ok doECALL)
    (hchanges : changesPC insn.opcode = .ok false) :
    (execute insn).run s = InsnClass.ecall.effect insn s := by
  simp only [InsnClass.effect]
  cases hcall : s.emulateSysCall with
  | ok s' => exact run_execute_of_ok hget hchanges (by simp [doECALL, hcall])
  | error e => exact run_execute_of_error hget (by simp [doECALL, hcall])

/-- The interpreter, read through the classes. -/
theorem execute_eq_effect {k : InsnClass} (hk : insn.opcode.insnClass = some k) :
    (execute insn).run s = k.effect insn s := by
  obtain ⟨opcode, rs1, rs2, rd, imm⟩ := insn
  cases opcode <;> cases hk
  case kJAL => exact execute_jal rfl rfl
  case kJALR => exact execute_jalr rfl rfl
  case kLB | kLBU | kLH | kLHU | kLW => exact execute_load rfl rfl
  case kSB | kSH | kSW => exact execute_store rfl rfl
  case kECALL => exact execute_ecall rfl rfl
  all_goals rfl

/-! ### What execution leaves alone -/

/-- The effects do not look at the counter. -/
theorem effect_withIcount (k : InsnClass) (n : Icount) :
    Stateful.Matches (·.withIcount n) (fun _ => True)
      (k.effect insn s) (k.effect insn (s.withIcount n)) := by
  cases k with
  | load T Signed =>
    simp only [InsnClass.effect, CPUState.withIcount_memory, CPUState.withIcount_getReg]
    cases Memory.read T s.memory (s.getReg insn.rs1.toNat + insn.imm) with
    | ok val =>
      exact .returned (by simp [CPUState.withIcount_setReg, CPUState.withIcount_setPC]) trivial
    | error e => exact .raised rfl
  | store T =>
    simp only [InsnClass.effect, CPUState.withIcount_memory, CPUState.withIcount_getReg]
    cases Memory.write T s.memory (s.getReg insn.rs1.toNat + insn.imm)
      ((s.getReg insn.rs2.toNat).setWidth T.bits) with
    | ok memory => exact .returned rfl trivial
    | error e => exact .raised rfl
  | ecall =>
    simp only [InsnClass.effect, CPUState.withIcount_emulateSysCall]
    cases s.emulateSysCall with
    | ok s' => exact .returned rfl trivial
    | error e => exact .raised rfl
  | branch | nop => exact .returned rfl trivial
  | rr | ri | lui | auipc | jal | jalr =>
    exact .returned (by simp [CPUState.withIcount_setReg, CPUState.withIcount_setPC]) trivial

/-- An instruction that no handler knows raises before it does anything. -/
theorem execute_of_insnClass_eq_none (h : insn.opcode.insnClass = none) :
    (execute insn).run s = .error .assertionFailed s := by
  obtain ⟨opcode, rs1, rs2, rd, imm⟩ := insn
  cases opcode <;> cases h
  rfl

/-- An instruction does the same whatever the instruction counter shows. -/
theorem execute_withIcount (n : Icount) (insn : Instruction) :
    Stateful.Refines (·.withIcount n) (fun _ => True) (execute (μ := μ) insn)
      (execute insn) := by
  intro s _
  cases hk : insn.opcode.insnClass with
  | none =>
    rw [execute_of_insnClass_eq_none hk, execute_of_insnClass_eq_none hk]
    exact .raised rfl
  | some k =>
    rw [execute_eq_effect hk, execute_eq_effect hk]
    exact effect_withIcount k n

/-- Executing leaves the counter alone. -/
theorem execute_icount (insn : Instruction) (n : Icount) :
    Stateful.Preserves (fun s : CPUState μ => s.icount = n) (execute insn) := by
  intro s hs
  have h := (execute_withIcount n insn).finalState_eq (t := s) trivial
  rw [← hs, CPUState.withIcount_self] at h
  rw [← h, CPUState.withIcount_icount]
  exact hs

/-- No effect writes to `x0`. -/
theorem effect_getReg_zero (k : InsnClass) :
    (Stateful.finalState (k.effect insn s)).getReg 0 = s.getReg 0 := by
  cases k with
  | load T Signed =>
    simp only [InsnClass.effect]
    split <;> simp
  | store T =>
    simp only [InsnClass.effect]
    split <;> rfl
  | ecall =>
    simp only [InsnClass.effect]
    split
    · next h => rw [CPUState.emulateSysCall_ok h]; rfl
    · rfl
  | branch | nop => rfl
  | rr | ri | lui | auipc | jal | jalr => simp [InsnClass.effect]

/-- No instruction writes `x0`. -/
theorem execute_getReg_zero (insn : Instruction) (v : Word) :
    Stateful.Preserves (fun s : CPUState μ => s.getReg 0 = v) (execute insn) := by
  intro s hs
  cases hk : insn.opcode.insnClass with
  | none => rwa [execute_of_insnClass_eq_none hk]
  | some k => rwa [execute_eq_effect hk, effect_getReg_zero]

/-- An instruction leaves memory alone, unless it is a store that succeeds. -/
theorem effect_memory {k : InsnClass} {s' : CPUState μ} (h : k.effect insn s = .ok () s') :
    s'.memory = s.memory ∨ ∃ T, k = .store T ∧
      Memory.write T s.memory (s.getReg insn.rs1.toNat + insn.imm)
        ((s.getReg insn.rs2.toNat).setWidth T.bits) = .ok s'.memory := by
  cases k with
  | load T Signed =>
    simp only [InsnClass.effect] at h
    split at h <;> cases h
    exact .inl (by simp)
  | store T =>
    simp only [InsnClass.effect] at h
    split at h
    · next hwrite => cases h; exact .inr ⟨T, rfl, hwrite⟩
    · cases h
  | ecall =>
    simp only [InsnClass.effect] at h
    split at h
    · next hcall => cases h; rw [CPUState.emulateSysCall_ok hcall]; exact .inl rfl
    · cases h
  | rr | ri | lui | auipc | branch | jal | jalr | nop => cases h; exact .inl (by simp)

/-- All that can fail in an instruction comes before its first write. -/
theorem effect_error {k : InsnClass} {s' : CPUState μ} {e : Exn}
    (h : k.effect insn s = .error e s') : s' = s := by
  cases k with
  | load T Signed | store T | ecall =>
    simp only [InsnClass.effect] at h
    split at h
    · cases h
    · cases h
      rfl
  | rr | ri | lui | auipc | branch | jal | jalr | nop => cases h

/-- An instruction that raises leaves the state as it was. -/
theorem execute_error {s' : CPUState μ} {e : Exn} (h : (execute insn).run s = .error e s') :
    s' = s := by
  cases hk : insn.opcode.insnClass with
  | none =>
    rw [execute_of_insnClass_eq_none hk] at h
    cases h
    rfl
  | some k =>
    rw [execute_eq_effect hk] at h
    exact effect_error h

/-- The test for a terminator does not raise for a decoded opcode. -/
theorem exists_isTerminator {opc : Opcode} {k : InsnClass} (hk : opc.insnClass = some k) :
    ∃ b, isTerminator opc = .ok b := by
  cases opc <;> first | exact ⟨_, rfl⟩ | cases hk

/-- The classes after which execution goes on with the next word, for certain. -/
def InsnClass.fallsThrough : InsnClass → Bool
  | .branch _ | .jal | .jalr | .ecall => false
  | _ => true

/-- What does not end a block falls through to the next word. -/
theorem fallsThrough_of_not_isTerminator {opc : Opcode} {k : InsnClass}
    (hk : opc.insnClass = some k) (h : isTerminator opc = .ok false) : k.fallsThrough = true := by
  cases opc <;> cases hk <;> first | rfl | cases h

/-- What falls through neither jumps nor finishes the run. -/
theorem effect_of_fallsThrough {k : InsnClass} (hk : k.fallsThrough = true) {s' : CPUState μ}
    (h : k.effect insn s = .ok () s') :
    s'.pc = s.pc + kWordSize ∧ s'.finished = s.finished := by
  cases k with
  | load T Signed | store T =>
    simp only [InsnClass.effect] at h
    split at h <;> cases h
    simp
  | branch | jal | jalr | ecall => cases hk
  | rr | ri | lui | auipc | nop => cases h; simp

end Classes

end Prot
