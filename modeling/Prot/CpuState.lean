import Prot.Memory

/-!
# The guest CPU state

Register reads and writes are unchecked in the source; a register number of 32
or more, which the decoder never produces, reads as zero here and is ignored on
a write.
-/

namespace Prot

open Isa

/-- The state of the guest that every engine works on. -/
structure CPUState (μ : Type) where
  regs : Vector Word 32 := Vector.replicate 32 0#32
  pc : Word := 0#32
  finished : Bool := false
  memory : μ
  icount : Icount := 0#64
  m_ExitCode : Word := 0#32

namespace CPUState

variable {μ : Type}

/-- `CPUState::setPC`. -/
def setPC (s : CPUState μ) (newPC : Word) : CPUState μ := { s with pc := newPC }

/-- `CPUState::getPC`. -/
def getPC (s : CPUState μ) : Word := s.pc

/-- `CPUState::getReg`. There are 32 registers, and no caller asks for another one. -/
def getReg (s : CPUState μ) (id : ℕ) : Word := (s.regs[id]?).getD 0#32

/-- A plain store to the register array, with no care for `x0`. -/
def putReg (s : CPUState μ) (id : ℕ) (val : Word) : CPUState μ :=
  { s with regs := s.regs.setIfInBounds id val }

/-- `CPUState::setReg`, which leaves `x0` alone. -/
def setReg (s : CPUState μ) (id : ℕ) (val : Word) : CPUState μ :=
  if id ≠ 0 then s.putReg id val else s

/-- `CPUState::getSysCallNum`: the number is in `a7`. -/
def getSysCallNum (s : CPUState μ) : Word := s.getReg 17

/-- The first argument of a system call is in `a0`. -/
def kFirstArg : ℕ := 10

/-- A system call has at most seven arguments. -/
def kMaxArgs : ℕ := 7

/-- `CPUState::getSysCallArg`. -/
def getSysCallArg (s : CPUState μ) (num : ℕ) : Except Exn Word :=
  if kMaxArgs ≤ num then throw (.tooHighSysCallArg num)
  else pure (s.getReg (kFirstArg + num))

/-- Ends the run. The messages that the source prints are not part of the state. -/
def doExit (s : CPUState μ) (code : Word) : CPUState μ :=
  { s with finished := true, m_ExitCode := code }

/-- `NumSysCall::kExit`. -/
def kExit : Word := 93#32

/-- `CPUState::emulateSysCall`, which knows a single call. -/
def emulateSysCall (s : CPUState μ) : Except Exn (CPUState μ) :=
  let num := s.getSysCallNum
  if num = kExit then do
    let code ← s.getSysCallArg 0
    return s.doExit code
  else throw (.unknownSyscall num)

/-- The only call that returns is the one that exits. -/
theorem emulateSysCall_eq (s : CPUState μ) :
    s.emulateSysCall =
      if s.getSysCallNum = kExit then .ok (s.doExit (s.getReg kFirstArg))
      else .error (.unknownSyscall s.getSysCallNum) := rfl

/-- A system call that returns is an exit with the first argument. -/
theorem emulateSysCall_ok {s s' : CPUState μ} (h : s.emulateSysCall = .ok s') :
    s' = s.doExit (s.getReg kFirstArg) := by
  rw [emulateSysCall_eq] at h
  split at h
  · exact (Except.ok.inj h).symm
  · cases h

/-- `icount++`. -/
def incIcount (s : CPUState μ) : CPUState μ := { s with icount := s.icount + 1#64 }

/-! ### Frame rules -/

section Frame

variable (s : CPUState μ) (id : ℕ) (v p : Word) (n : Icount)

@[simp] theorem getPC_eq : s.getPC = s.pc := rfl

@[simp] theorem setPC_pc : (s.setPC p).pc = p := rfl

@[simp] theorem setPC_memory : (s.setPC p).memory = s.memory := rfl

@[simp] theorem setPC_icount : (s.setPC p).icount = s.icount := rfl

@[simp] theorem setPC_finished : (s.setPC p).finished = s.finished := rfl

@[simp] theorem setPC_m_ExitCode : (s.setPC p).m_ExitCode = s.m_ExitCode := rfl

@[simp] theorem setPC_getReg : (s.setPC p).getReg id = s.getReg id := rfl

@[simp] theorem setPC_setPC (q : Word) : (s.setPC p).setPC q = s.setPC q := rfl

@[simp] theorem incIcount_icount : s.incIcount.icount = s.icount + 1#64 := rfl

@[simp] theorem incIcount_pc : s.incIcount.pc = s.pc := rfl

@[simp] theorem incIcount_finished : s.incIcount.finished = s.finished := rfl

theorem regs_zero : s.regs[0]? = some (s.getReg 0) := by
  simp [getReg]

theorem setReg_of_ne {id : ℕ} (h : id ≠ 0) : s.setReg id v = s.putReg id v := if_pos h

@[simp] theorem setReg_pc : (s.setReg id v).pc = s.pc := by
  unfold setReg; split <;> rfl

@[simp] theorem setReg_memory : (s.setReg id v).memory = s.memory := by
  unfold setReg; split <;> rfl

@[simp] theorem setReg_icount : (s.setReg id v).icount = s.icount := by
  unfold setReg; split <;> rfl

@[simp] theorem setReg_finished : (s.setReg id v).finished = s.finished := by
  unfold setReg; split <;> rfl

@[simp] theorem setReg_m_ExitCode : (s.setReg id v).m_ExitCode = s.m_ExitCode := by
  unfold setReg; split <;> rfl

/-- Register and `pc` updates commute. -/
theorem setPC_setReg : (s.setPC p).setReg id v = (s.setReg id v).setPC p := by
  unfold setReg; split <;> rfl

/-- A write to one register leaves the others alone. -/
theorem getReg_setReg_of_ne {id j : ℕ} (h : id ≠ j) : (s.setReg id v).getReg j = s.getReg j := by
  unfold setReg
  split
  · simp only [getReg, putReg, Vector.getElem?_setIfInBounds_ne h]
  · rfl

/-- What is written to a register is read back. -/
theorem getReg_putReg_self {id : ℕ} (h : id < 32) : (s.putReg id v).getReg id = v := by
  simp only [getReg, putReg, Vector.getElem?_setIfInBounds_self_of_lt h,
    Option.getD_some]

/-- No register write reaches `x0`. -/
@[simp] theorem getReg_zero_setReg : (s.setReg id v).getReg 0 = s.getReg 0 := by
  by_cases h : id = 0
  · subst h; rfl
  · exact s.getReg_setReg_of_ne v h

end Frame

/-! ### Replacing the counter

Nothing an instruction does depends on the instruction counter. -/

/-- The state with another instruction count. -/
def withIcount (s : CPUState μ) (n : Icount) : CPUState μ := { s with icount := n }

section WithIcount

variable (s : CPUState μ) (n : Icount)

@[simp] theorem withIcount_pc : (s.withIcount n).pc = s.pc := rfl

@[simp] theorem withIcount_memory : (s.withIcount n).memory = s.memory := rfl

@[simp] theorem withIcount_icount : (s.withIcount n).icount = n := rfl

@[simp] theorem withIcount_getReg (id : ℕ) : (s.withIcount n).getReg id = s.getReg id := rfl

@[simp] theorem withIcount_withIcount (k : Icount) :
    (s.withIcount n).withIcount k = s.withIcount k := rfl

@[simp] theorem withIcount_self : s.withIcount s.icount = s := rfl

theorem withIcount_setPC (p : Word) : (s.withIcount n).setPC p = (s.setPC p).withIcount n := rfl

theorem withIcount_setReg (id : ℕ) (v : Word) :
    (s.withIcount n).setReg id v = (s.setReg id v).withIcount n := by
  unfold setReg; split <;> rfl

/-- A system call does not look at `pc`. -/
theorem setPC_emulateSysCall (p : Word) :
    (s.setPC p).emulateSysCall = s.emulateSysCall.map (·.setPC p) := by
  rw [emulateSysCall_eq, emulateSysCall_eq]
  by_cases h : s.getSysCallNum = kExit
  · have h' : (s.setPC p).getSysCallNum = kExit := h
    rw [if_pos h, if_pos h']
    rfl
  · have h' : ¬ (s.setPC p).getSysCallNum = kExit := h
    rw [if_neg h, if_neg h']
    rfl

/-- A system call does not look at the counter. -/
theorem withIcount_emulateSysCall :
    (s.withIcount n).emulateSysCall = s.emulateSysCall.map (·.withIcount n) := by
  rw [emulateSysCall_eq, emulateSysCall_eq]
  by_cases h : s.getSysCallNum = kExit
  · have h' : (s.withIcount n).getSysCallNum = kExit := h
    rw [if_pos h, if_pos h']
    rfl
  · have h' : ¬ (s.withIcount n).getSysCallNum = kExit := h
    rw [if_neg h, if_neg h']
    rfl

end WithIcount

end CPUState

end Prot
