import Prot.ExecEngine

/-!
# How a guest's run ends

The run of the interpreter is described by the states that it goes through. It returns
when it has come to the end of an `ECALL` that asks for the exit, and in no other way; the
exit code is the first argument of that call, and the counter has counted the
instructions, the last one included. It raises in the state whose instruction cannot be
executed, and goes on forever if there is always another instruction.

## Main definitions

* `Executes`: the instructions of a part of the run
* `ExitsAt`: the run asks for the exit

## Main results

* `runInterpreter_eq_ok_iff`, `runInterpreter_eq_error_iff`: a run by its last state
* `exits_iff`: when the guest exits, and with what
-/

namespace Prot

open Isa Interpreter Stateful

variable {μ : Type} [Memory μ]

/-! ### Runs by their states -/

/-- The next instruction of the run raises, which changes nothing. -/
def RaisesAt (s : CPUState μ) (e : Exn) : Prop :=
  s.finished = false ∧ ExecEngine.step.run s = .error e s

section Runs

variable {s s' t : CPUState μ} {e : Exn}

/-- The interpreter returns in the finished states that the guest reaches. -/
theorem runInterpreter_eq_ok_iff :
    (∃ n, Hart.runInterpreter n s = some (.ok () s')) ↔ Reaches s s' ∧ s'.finished = true :=
  Loop.exists_whileNot_eq_ok_iff

/-- The interpreter raises where a state that is reached does. -/
theorem runInterpreter_eq_error_iff :
    (∃ n, Hart.runInterpreter n s = some (.error e s')) ↔ Reaches s s' ∧ RaisesAt s' e := by
  refine Loop.exists_whileNot_eq_error_iff.trans ⟨?_, fun h => ⟨s', h.1, h.2.1, h.2.2⟩⟩
  rintro ⟨t, hreach, hrunning, hraise⟩
  obtain rfl := ExecEngine.state_eq_of_step_error hraise
  exact ⟨hreach, hrunning, hraise⟩

/-- Of two states of a run, one comes before the other. -/
theorem Reaches.total (hs : Reaches s t) (hs' : Reaches s s') : Reaches t s' ∨ Reaches s' t :=
  Relation.ReflTransGen.total_of_right_unique (fun _ _ _ => RunStep.unique) hs hs'

/-- The run fetches from aligned addresses. -/
def FetchesAligned (init : CPUState μ) : Prop :=
  ∀ t, Reaches init t → t.finished = false → t.pc % kWordSize = 0#32

/-- A run that returns has checked every `pc`. -/
theorem fetchesAligned_of_returns {fuel : ℕ}
    (hrun : Hart.runInterpreter fuel s = some (.ok () s')) : FetchesAligned s := by
  intro t ht hrunning
  obtain ⟨hreach, hfinished⟩ := runInterpreter_eq_ok_iff.mp ⟨fuel, hrun⟩
  have hends : t ≠ s' := by
    rintro rfl
    rw [hrunning] at hfinished
    cases hfinished
  rcases ht.total hreach with hbefore | hafter
  · rcases Relation.ReflTransGen.cases_head hbefore with rfl | ⟨u, hstep, -⟩
    · exact absurd rfl hends
    · exact (ExecEngine.exists_of_step_eq_ok hstep.2).1
  · exact absurd (eq_of_reaches_of_finished hfinished hafter) hends

end Runs

/-! ### The instructions of a run -/

/-- The run fetches the instruction in `s`. -/
def Fetches (s : CPUState μ) (insn : Instruction) : Prop :=
  s.finished = false ∧ ∃ bytes, Memory.read32 s.memory s.pc = .ok bytes ∧ decode bytes = some insn

/-- From `s` to `s'`, the run executes these instructions. -/
inductive Executes : CPUState μ → List Instruction → CPUState μ → Prop
  | nil (s : CPUState μ) : Executes s [] s
  | cons {s t s' : CPUState μ} {insn : Instruction} {insns : List Instruction}
      (hfetch : Fetches s insn) (hstep : RunStep s t) (hrest : Executes t insns s') :
      Executes s (insn :: insns) s'

section Executes

variable {s s' t : CPUState μ} {insn : Instruction} {insns : List Instruction}

/-- A step of the run executes the instruction that it fetches, and counts it. -/
theorem RunStep.exists_fetches (h : RunStep s t) :
    ∃ insn, Fetches s insn ∧ (executeCounted insn).run s = .ok () t := by
  obtain ⟨bytes, insn, -, hread, hdecode, -, hexec⟩ := h.exists_executeCounted
  exact ⟨insn, ⟨h.1, bytes, hread, hdecode⟩, hexec⟩

/-- One word is one instruction. -/
theorem Fetches.unique {insn' : Instruction} (h : Fetches s insn) (h' : Fetches s insn') :
    insn = insn' := by
  obtain ⟨-, bytes, hread, hdecode⟩ := h
  obtain ⟨-, bytes', hread', hdecode'⟩ := h'
  cases hread.symm.trans hread'
  exact Option.some.inj (hdecode.symm.trans hdecode')

/-- An aligned instruction that executes is a step. -/
theorem Fetches.runStep (h : Fetches s insn) (haligned : s.pc % kWordSize = 0#32)
    (hexec : (executeCounted insn).run s = .ok () t) : RunStep s t := by
  obtain ⟨hrunning, bytes, hread, hdecode⟩ := h
  exact ⟨hrunning, (ExecEngine.step_eq_executeCounted haligned hread hdecode).trans hexec⟩

/-- A list of instructions executed is a run. -/
theorem Executes.reaches (h : Executes s insns s') : Reaches s s' := by
  induction h with
  | nil => exact .refl
  | cons _ hstep _ ih => exact .head hstep ih

/-- A run executes a list of instructions. -/
theorem exists_executes (h : Reaches s s') : ∃ insns, Executes s insns s' := by
  induction h using Relation.ReflTransGen.head_induction_on with
  | refl => exact ⟨[], .nil s'⟩
  | head hstep _ ih =>
    obtain ⟨insns, hrest⟩ := ih
    obtain ⟨insn, hfetch, -⟩ := hstep.exists_fetches
    exact ⟨insn :: insns, .cons hfetch hstep hrest⟩

/-- One instruction more, at the end. -/
theorem Executes.snoc {s₁ : CPUState μ} (h : Executes s insns t) (hfetch : Fetches t insn)
    (hstep : RunStep t s₁) : Executes s (insns ++ [insn]) s₁ := by
  induction h with
  | nil => exact .cons hfetch hstep (.nil s₁)
  | cons hfirst hfirst' _ ih => exact .cons hfirst hfirst' (ih hfetch hstep)

/-- Each instruction is counted once. -/
theorem icount_of_executeCounted (h : (executeCounted insn).run s = .ok () t) :
    t.icount = s.icount + 1#64 := by
  obtain ⟨_, s₀, hexec, hcount⟩ := run_seq_eq_ok.mp h
  have hkeep : s₀.icount = s.icount := (execute_icount insn s.icount).ok rfl hexec
  cases hcount
  rw [CPUState.incIcount_icount, hkeep]

/-- The counter counts the instructions, modulo `2 ^ 64`. -/
theorem Executes.icount_eq (h : Executes s insns s') :
    s'.icount = s.icount + BitVec.ofNat 64 insns.length := by
  induction h with
  | nil => simp
  | cons _ hstep _ ih =>
    obtain ⟨insn, -, hexec⟩ := hstep.exists_fetches
    rw [ih, icount_of_executeCounted hexec, List.length_cons, BitVec.add_assoc,
      BitVec.add_comm 1#64, ← BitVec.ofNat_add]

end Executes

/-! ### Exits -/

/-- The run is about to execute an `ECALL` that asks for the exit. -/
structure ExitsAt (t : CPUState μ) (insn : Instruction) : Prop where
  aligned : t.pc % kWordSize = 0#32
  fetches : Fetches t insn
  opcode : insn.opcode = .kECALL
  num : t.getSysCallNum = CPUState.kExit

/-- The state in which a run that exits in `t` ends. -/
def CPUState.exited (t : CPUState μ) : CPUState μ :=
  ((t.doExit (t.getReg CPUState.kFirstArg)).setPC (t.pc + kWordSize)).incIcount

section Exits

variable {s s' t : CPUState μ} {insn : Instruction}

/-- `ecall` exits, or it raises, and it is not counted. -/
theorem executeCounted_ecall (h : insn.opcode = .kECALL) :
    (executeCounted insn).run t =
      if t.getSysCallNum = CPUState.kExit then .ok () t.exited
      else .error (.unknownSyscall t.getSysCallNum) t := by
  have hexec : (execute insn).run t = InsnClass.ecall.effect insn t :=
    execute_eq_effect (by rw [h]; rfl)
  rw [executeCounted, EStateM.run_bind, hexec, InsnClass.effect, CPUState.emulateSysCall_eq]
  split_ifs <;> rfl

/-- An exit is a step. -/
theorem ExitsAt.runStep (h : ExitsAt t insn) : RunStep t t.exited := by
  refine h.fetches.runStep h.aligned ?_
  rw [executeCounted_ecall h.opcode, if_pos h.num]

omit [Memory μ] in
/-- Only `ecall` is of its class. -/
theorem opcode_of_insnClass_ecall {opc : Opcode} (h : opc.insnClass = some .ecall) :
    opc = .kECALL := by
  cases opc <;> first | rfl | cases h

/-- No instruction but a system call ends the run. -/
theorem effect_finished {k : InsnClass} (hk : k ≠ .ecall) (h : k.effect insn s = .ok () s') :
    s'.finished = s.finished := by
  cases k with
  | load T Signed | store T =>
    simp only [InsnClass.effect] at h
    split at h <;> cases h
    simp
  | ecall => exact absurd rfl hk
  | rr | ri | lui | auipc | branch | jal | jalr | nop => cases h; simp

/-- Only the exit call ends the run. -/
theorem RunStep.exitsAt (h : RunStep s t) (hfinished : t.finished = true) :
    ∃ insn, ExitsAt s insn ∧ t = s.exited := by
  obtain ⟨insn, hfetch, hexec⟩ := h.exists_fetches
  have haligned := (ExecEngine.exists_of_step_eq_ok h.2).1
  by_cases hopcode : insn.opcode = .kECALL
  · rw [executeCounted_ecall hopcode] at hexec
    split_ifs at hexec with hnum
    · cases hexec
      exact ⟨insn, ⟨haligned, hfetch, hopcode, hnum⟩, rfl⟩
  · obtain ⟨k, s₀, hk, heffect, rfl⟩ := exists_of_executeCounted_eq_ok hexec
    have hsame := effect_finished (fun hecall => hopcode (opcode_of_insnClass_ecall (hecall ▸ hk)))
      heffect
    rw [CPUState.incIcount_finished, hsame, h.1] at hfinished
    cases hfinished

/-- After some instructions, the guest exits in `t`, and this is what it leaves behind. -/
structure Exits (init : CPUState μ) (insns : List Instruction) (t s' : CPUState μ) : Prop where
  executes : Executes init insns t
  exitsAt : ∃ insn, ExitsAt t insn
  finished : s'.finished = true
  exitCode : s'.m_ExitCode = t.getReg 10
  pc : s'.pc = t.pc + 4#32
  regs : s'.regs = t.regs
  memory : s'.memory = t.memory
  icount : s'.icount = init.icount + BitVec.ofNat 64 (insns.length + 1)

/-- The guest exits if and only if its run comes to an `ECALL` that asks for it. The exit code
is the argument of the call, and the counter has counted the instructions of the run, the
call included. -/
theorem exits_iff {init : CPUState μ} (hrunning : init.finished = false) :
    (∃ fuel, Hart.runInterpreter fuel init = some (.ok () s')) ↔
      ∃ insns t, Exits init insns t s' := by
  rw [runInterpreter_eq_ok_iff]
  constructor
  · rintro ⟨hreach, hfinished⟩
    rcases Relation.ReflTransGen.cases_tail hreach with rfl | ⟨t, ht, hlast⟩
    · rw [hrunning] at hfinished
      cases hfinished
    · obtain ⟨insn, hexits, rfl⟩ := hlast.exitsAt hfinished
      obtain ⟨insns, hinsns⟩ := exists_executes ht
      have hcount := (hinsns.snoc hexits.fetches hlast).icount_eq
      rw [List.length_append, List.length_singleton] at hcount
      exact ⟨insns, t, hinsns, ⟨insn, hexits⟩, rfl, rfl, rfl, rfl, rfl, hcount⟩
  · rintro ⟨insns, t, hinsns, ⟨insn, hexits⟩, hfinished, hcode, hpc, hregs, hmemory, hcount⟩
    have hcounted := (hinsns.snoc hexits.fetches hexits.runStep).icount_eq
    rw [List.length_append, List.length_singleton, ← hcount] at hcounted
    have hsame : s' = t.exited := by
      obtain ⟨regs, pc, finished, memory, icount, m_ExitCode⟩ := s'
      subst hfinished hcode hpc hregs hmemory hcounted
      rfl
    rw [hsame]
    exact ⟨hinsns.reaches.tail hexits.runStep, rfl⟩

/-- `addi x10, x0, 7; addi x17, x0, 93; ecall`. -/
def exitSevenGuest : CPUState (PlainMemory 0#32 4096) where
  memory := ⟨fun offset => (0x0000007305D0089300700513#96).extractLsb' (8 * offset) 8⟩

theorem exits_exitSevenGuest :
    ∃ s', s'.m_ExitCode = 7#32 ∧ s'.icount = 3#64 ∧ ∃ insns t, Exits exitSevenGuest insns t s' :=
  ⟨_, rfl, rfl, (exits_iff rfl).mp ⟨4, rfl⟩⟩

end Exits

end Prot
