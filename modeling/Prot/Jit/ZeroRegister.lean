import Prot.Jit.Backends

/-!
# The zero register

Every backend guards its writes of `rd` by hand, and some read `x0` from memory
all the same. No code that a backend emits stores to register 0, whatever the
instructions are. So `x0` is zero in every state that interpreted instructions
and translated blocks lead to.
-/

namespace Prot

open Isa Interpreter Stateful

/-! ### XByak -/

namespace XByak

open X86 HostX86

/-- No instruction of the code stores to `x0`. -/
abbrev SparesZero (code : Code) : Prop := WritesIn Field.NotZero code

variable {link : Linkage} {insn : Instruction} {code : Code}

@[simp] theorem sparesZero_setRd (r : Gpr) : SparesZero (setRd insn r) := by
  by_cases hrd : insn.rd = 0#8 <;> simp [setRd, hrd]

@[simp] theorem sparesZero_implLui : SparesZero (implLui insn) := by
  by_cases hrd : insn.rd = 0#8 <;> simp [implLui, hrd]

/-- Whatever the opcode and the operands. -/
theorem sparesZero_emitOpcode (h : emitOpcode link insn = .ok code) : SparesZero code := by
  unfold emitOpcode at h
  split at h <;> cases h <;>
    simp [implR, implI, implBranch, implCmpR, implCmpI, implShiftR, implShiftI, implEcall, implJal,
      implJalr, implAuipc, implLoad, implStore, getRs1, getRs2]

theorem sparesZero_emit (h : emit link insn = .ok code) : SparesZero code := by
  obtain ⟨opcodeCode, hopcode, h⟩ := exists_of_bind_eq_ok h
  obtain ⟨changes, -, h⟩ := exists_of_bind_eq_ok h
  cases h
  have hspares := sparesZero_emitOpcode hopcode
  cases changes <;> simp [advance, hspares]

/-- No store of XByak's code goes to register 0. -/
theorem sparesZero_translate {insns : List Instruction} (h : translate link insns = .ok code) :
    SparesZero code := by
  obtain ⟨codes, hcodes, h⟩ := exists_of_bind_eq_ok h
  cases h
  refine writesIn_flatten fun code hcode => ?_
  obtain ⟨insn, -, hemit⟩ := exists_of_mem_mapM hcodes hcode
  exact sparesZero_emit hemit

variable {μ : Type} [Memory μ]

/-- A call gives back the host that the helper left behind. -/
theorem Platform.maintains_zeroReg (pf : Platform μ) :
    pf.env.Maintains Field.NotZero Host.ZeroReg where
  store v _ hfield hzero := hzero.store hfield v
  ext := by
    rintro ⟨target⟩ m hzero
    change (finalState (pf.call target m)).mem.ZeroReg
    rw [Platform.call]
    cases pf.link.find (m.regs target) with
    | none => exact hzero
    | some helper =>
      have hcall := hzero.call helper (m.get32 .p1) (m.get32 .p2)
      by_cases hbase : m.regs .p0 = pf.statePtr
      · simp only [if_pos hbase]
        revert hcall
        cases (helper.call (m.get32 .p1) (m.get32 .p2)).run m.mem <;> exact id
      · simp only [if_neg hbase]
        exact hzero

end XByak

/-! ### AsmJit -/

namespace AsmJit

open X86 HostX86

/-- No instruction of the code stores to `x0`. -/
abbrev SparesZero (code : Code) : Prop := WritesIn Field.NotZero code

variable {insn : Instruction} {code : Code}

@[simp] theorem sparesZero_setDst (dstId : Operand) (r : Vreg) : SparesZero (setDst dstId r) := by
  by_cases hrd : dstId = 0#8 <;> simp [setDst, hrd]

@[simp] theorem writesIn_loadReg (r : Vreg) (regId : Operand) :
    (loadReg r regId).WritesIn Field.NotZero := by
  unfold loadReg
  split <;> simp

/-- Whatever the opcode and the operands. -/
theorem sparesZero_emitOpcode (h : emitOpcode insn = .ok code) : SparesZero code := by
  unfold emitOpcode at h
  split at h <;> cases h <;>
    simp [rOp, iOp, rShiftOp, iShiftOp, rCmpOp, iCmpOp, bCondOp, sOp, lOp, implJAL, implJALR,
      implLUI, implAUIPC, implECALL, setPC]

theorem sparesZero_emit (h : emit insn = .ok code) : SparesZero code := by
  obtain ⟨opcodeCode, hopcode, h⟩ := exists_of_bind_eq_ok h
  obtain ⟨changes, -, h⟩ := exists_of_bind_eq_ok h
  cases h
  have hspares := sparesZero_emitOpcode hopcode
  cases changes <;> simp [advance, setPC, hspares]

/-- No store of AsmJit's code goes to register 0. -/
theorem sparesZero_translate {insns : List Instruction} (h : translate insns = .ok code) :
    SparesZero code := by
  obtain ⟨codes, hcodes, h⟩ := exists_of_bind_eq_ok h
  cases h
  refine writesIn_append.mpr ⟨writesIn_flatten fun code hcode => ?_, ?_⟩
  · obtain ⟨insn, -, hemit⟩ := exists_of_mem_mapM hcodes hcode
    exact sparesZero_emit hemit
  · simp [countInsns]

variable {μ : Type} [Memory μ]

/-- Whatever the code calls keeps register 0 zero. -/
theorem maintains_zeroReg (statePtr : BitVec 64) :
    (env (μ := μ) statePtr).Maintains Field.NotZero Host.ZeroReg where
  store v _ hfield hzero := hzero.store hfield v
  ext := by
    intro node m hzero
    change (finalState (call statePtr node m)).mem.ZeroReg
    have hcall := hzero.call node.target (argument m node.arg1) (argument m node.arg2)
    rw [call]
    by_cases hbase : m.regs node.arg0 = statePtr
    · rw [if_pos hbase]
      revert hcall
      cases (node.target.call (argument m node.arg1) (argument m node.arg2)).run m.mem with
      | error e h => exact id
      | ok ret h => cases node.ret <;> cases ret <;> exact id
    · rw [if_neg hbase]
      exact hzero

end AsmJit

/-! ### Lightning -/

namespace Lightning

open GnuLightning

/-- No instruction of the code stores to `x0`. -/
abbrev SparesZero (code : Code) : Prop := WritesIn Field.NotZero code

variable {insn : Instruction} {code : Code}

@[simp] theorem sparesZero_storeReg (rid : Operand) (r : JitReg) : SparesZero (storeReg rid r) := by
  by_cases hrd : rid = 0#8 <;> simp [storeReg, hrd]

@[simp] theorem writesIn_loadReg (rid : Operand) (r : JitReg) (sign : Bool) :
    (loadReg rid r sign).WritesIn Field.NotZero := by
  unfold loadReg
  split_ifs <;> simp

/-- Whatever the opcode and the operands. -/
theorem sparesZero_emitOpcode (insn : Instruction) : SparesZero (emitOpcode insn) := by
  unfold emitOpcode
  split <;>
    simp [implR, implI, implShift, implSLTI, implBr, implAUIPC, implECALL, implJAL, implJALR,
      implLUI, implLoad, implStore, loadRS1, loadRS2, loadPC, storePC, storeRd]

theorem sparesZero_emit (h : emit insn = .ok code) : SparesZero code := by
  obtain ⟨changes, -, h⟩ := exists_of_bind_eq_ok h
  cases h
  have hspares := sparesZero_emitOpcode insn
  cases changes <;> simp [advance, loadPC, storePC, hspares]

/-- No store of Lightning's code goes to register 0. -/
theorem sparesZero_translate {insns : List Instruction} (h : translate insns = .ok code) :
    SparesZero code := by
  obtain ⟨codes, hcodes, h⟩ := exists_of_bind_eq_ok h
  cases h
  refine writesIn_append.mpr ⟨writesIn_flatten fun code hcode => ?_, ?_⟩
  · obtain ⟨insn, -, hemit⟩ := exists_of_mem_mapM hcodes hcode
    exact sparesZero_emit hemit
  · simp [countInsns]

variable {μ : Type} [Memory μ]

/-- Whatever the code calls keeps register 0 zero. -/
theorem Platform.maintains_zeroReg (pf : Platform μ) :
    pf.env.Maintains Field.NotZero Host.ZeroReg where
  store v _ hfield hzero := hzero.store hfield v
  call callee args _ hzero := hzero.callArgs pf.statePtr callee args

end Lightning

/-! ### MIR -/

namespace MIR

open Mir

/-- No instruction of the code stores to `x0`. -/
abbrev SparesZero (code : Code) : Prop := WritesIn Field.NotZero code

variable {insn : Instruction} {code : Code}

@[simp] theorem sparesZero_setDst (dstId : Operand) (r : Reg) : SparesZero (setDst dstId r) := by
  by_cases hrd : dstId = 0#8 <;> simp [setDst, getReg, hrd]

@[simp] theorem writesIn_loadReg (r : Reg) (regId : Operand) :
    (loadReg r regId).WritesIn Field.NotZero := by
  unfold loadReg
  split <;> simp

/-- Whatever the opcode and the operands. -/
theorem sparesZero_emitOpcode {next : ℕ} (h : emitOpcode insn next = .ok code) :
    SparesZero code := by
  unfold emitOpcode at h
  split at h <;> cases h <;>
    simp [rOp, iOp, bCondOp, sOp, lOp, implJAL, implJALR, implLUI, implAUIPC, implECALL]

theorem sparesZero_emit {next : ℕ} (h : emit insn next = .ok code) : SparesZero code := by
  obtain ⟨opcodeCode, hopcode, h⟩ := exists_of_bind_eq_ok h
  obtain ⟨changes, -, h⟩ := exists_of_bind_eq_ok h
  cases h
  have hspares := sparesZero_emitOpcode hopcode
  cases changes <;> simp [advance, hspares]

theorem sparesZero_emitAll {insns : List Instruction} {next : ℕ}
    (h : emitAll next insns = .ok code) : SparesZero code := by
  induction insns generalizing next code with
  | nil =>
    cases h
    exact writesIn_nil
  | cons insn insns ih =>
    obtain ⟨head, hemit, h⟩ := exists_of_bind_eq_ok h
    obtain ⟨rest, hrest, h⟩ := exists_of_bind_eq_ok h
    cases h
    exact writesIn_append.mpr ⟨sparesZero_emit hemit, ih hrest⟩

/-- No store of MIR's code goes to register 0. -/
theorem sparesZero_translate {insns : List Instruction} (h : translate insns = .ok code) :
    SparesZero code := by
  obtain ⟨body, hbody, h⟩ := exists_of_bind_eq_ok h
  cases h
  simp [loadPC, finish, sparesZero_emitAll hbody]

variable {μ : Type} [Memory μ]

/-- Whatever the code calls keeps register 0 zero. -/
theorem maintains_zeroReg (statePtr : BitVec 64) :
    (env (μ := μ) statePtr).Maintains Field.NotZero Host.ZeroReg where
  store v _ hfield hzero := hzero.store hfield v
  call callee args _ hzero := hzero.callArgs statePtr callee args

end MIR

/-! ### The builders of SSA code -/

section Builders

open Ssa

variable {V : ℕ → Type}

/-- Any effect but a store to `x0`. -/
def StateOp.SparesZero : {r : Option ℕ} → StateOp V r → Prop
  | _, store field _ => field.NotZero
  | _, _ => True

section Handle

variable {μ : Type} [Memory μ]

/-- An operation keeps register 0 zero. In bounds or not, a load changes nothing. -/
theorem StateOp.zeroReg_handle {r : Option ℕ} {e : StateOp BitVec r} {h : Host μ}
    (hspares : e.SparesZero) (hzero : h.ZeroReg) : (finalState (e.handle.run h)).ZeroReg := by
  cases e with
  | store field val =>
    rw [handle]
    split
    · exact hzero.store hspares val
    · exact hzero
  | load field =>
    refine inv_finalState_bind _ hzero fun _ _ hzero' => ?_
    split <;> exact hzero'
  | loadLow T id =>
    refine inv_finalState_bind _ hzero fun _ _ hzero' => ?_
    split <;> exact hzero'
  | callLoad T addr => exact hzero.loadHelper T addr
  | callStore T addr val => exact hzero.storeHelper T addr val
  | callSyscall => exact hzero.syscallHelper

end Handle

namespace Builder

/-- No effect of the code stores to `x0`. -/
abbrev SparesZero {α : Type} (code : Builder V α) : Prop := code.EffectsIn StateOp.SparesZero

section Sequence

variable {α : Type} {v w : ℕ} {lhs rhs : V w} {val : BitVec w} {f : V w → Builder V α}

@[simp] theorem sparesZero_const_bind :
    (const val >>= f).SparesZero ↔ ∀ a, (f a).SparesZero :=
  Code.effectsIn_emit_bind

@[simp] theorem sparesZero_bin_bind {op : BinOp} :
    (bin op lhs rhs >>= f).SparesZero ↔ ∀ a, (f a).SparesZero :=
  Code.effectsIn_emit_bind

@[simp] theorem sparesZero_icmp_bind {pred : Pred} {f : V 1 → Builder V α} :
    (icmp pred lhs rhs >>= f).SparesZero ↔ ∀ a, (f a).SparesZero :=
  Code.effectsIn_emit_bind

@[simp] theorem sparesZero_select_bind {cond : V 1} :
    (select cond lhs rhs >>= f).SparesZero ↔ ∀ a, (f a).SparesZero :=
  Code.effectsIn_emit_bind

@[simp] theorem sparesZero_zext_bind {f : V v → Builder V α} :
    (zext v lhs >>= f).SparesZero ↔ ∀ a, (f a).SparesZero :=
  Code.effectsIn_emit_bind

@[simp] theorem sparesZero_sext_bind {f : V v → Builder V α} :
    (sext v lhs >>= f).SparesZero ↔ ∀ a, (f a).SparesZero :=
  Code.effectsIn_emit_bind

@[simp] theorem sparesZero_trunc_bind {f : V v → Builder V α} :
    (trunc v lhs >>= f).SparesZero ↔ ∀ a, (f a).SparesZero :=
  Code.effectsIn_emit_bind

@[simp] theorem sparesZero_load_bind {field : Field w} :
    (load field >>= f).SparesZero ↔ ∀ a, (f a).SparesZero :=
  Code.effectsIn_perform_bind.trans (and_iff_right trivial)

@[simp] theorem sparesZero_loadLow_bind {T : MemTy} {id : ℕ} {f : V T.bits → Builder V α} :
    (loadLow T id >>= f).SparesZero ↔ ∀ a, (f a).SparesZero :=
  Code.effectsIn_perform_bind.trans (and_iff_right trivial)

@[simp] theorem sparesZero_callLoad_bind {T : MemTy} {addr : V 32} {f : V T.bits → Builder V α} :
    (callLoad T addr >>= f).SparesZero ↔ ∀ a, (f a).SparesZero :=
  Code.effectsIn_perform_bind.trans (and_iff_right trivial)

@[simp] theorem sparesZero_store_bind {field : Field w} {f : Unit → Builder V α} :
    (store field lhs >>= f).SparesZero ↔ field.NotZero ∧ ∀ a, (f a).SparesZero :=
  Code.effectsIn_perform_bind

end Sequence

section Last

variable {v w : ℕ} {lhs rhs : V w}

@[simp] theorem sparesZero_bin {op : BinOp} : (bin op lhs rhs).SparesZero :=
  Code.effectsIn_emit _

@[simp] theorem sparesZero_select {cond : V 1} : (select cond lhs rhs).SparesZero :=
  Code.effectsIn_emit _

@[simp] theorem sparesZero_store {field : Field w} :
    (store field lhs).SparesZero ↔ field.NotZero := Code.effectsIn_perform

@[simp] theorem sparesZero_callStore {T : MemTy} {addr : V 32} {val : V T.bits} :
    (callStore T addr val).SparesZero := Code.effectsIn_perform.mpr trivial

@[simp] theorem sparesZero_callSyscall : (callSyscall : Builder V Unit).SparesZero :=
  Code.effectsIn_perform.mpr trivial

end Last

end Builder

end Builders

/-! ### The LLVM builder -/

namespace LLVM

open Ssa Builder

variable {V : ℕ → Type} {insn : Instruction} {code : Builder V Unit}

@[simp] theorem sparesZero_whenNonzero {rd : Operand} :
    (whenNonzero rd code).SparesZero ↔ (rd ≠ 0#8 → code.SparesZero) := by
  by_cases hrd : rd = 0#8 <;> simp [whenNonzero, hrd]

section Families

variable (insn)

@[simp] theorem sparesZero_buildBinary (op : BinOp) :
    (buildBinary insn op : Builder V Unit).SparesZero := by
  simp +contextual [buildBinary, getReg]

@[simp] theorem sparesZero_buildBinaryImm (op : BinOp) :
    (buildBinaryImm insn op : Builder V Unit).SparesZero := by
  simp +contextual [buildBinaryImm, getReg]

@[simp] theorem sparesZero_buildCompare (pred : Pred) :
    (buildCompare insn pred : Builder V Unit).SparesZero := by
  simp +contextual [buildCompare, getReg]

@[simp] theorem sparesZero_buildCompareImm (pred : Pred) :
    (buildCompareImm insn pred : Builder V Unit).SparesZero := by
  simp +contextual [buildCompareImm, getReg]

@[simp] theorem sparesZero_buildBranch (pred : Pred) :
    (buildBranch insn pred : Builder V Unit).SparesZero := by
  simp [buildBranch]

/-- The link is stored first, so what follows is not the end of the code. -/
@[simp] theorem sparesZero_JALRbuildIR : (JALRbuildIR insn : Builder V Unit).SparesZero := by
  simp only [JALRbuildIR, sparesZero_load_bind]
  intro rs1Val pcVal
  refine .bind ?_ fun _ => ?_ <;> simp +contextual [getReg]

theorem sparesZero_buildLoad (T : MemTy) (do_sext : Bool) :
    (buildLoad insn T do_sext : Builder V Unit).SparesZero := by
  cases do_sext <;> simp +contextual [buildLoad, getReg]

end Families

theorem sparesZero_generateLoad (h : generateLoad insn = .ok code) : code.SparesZero := by
  obtain ⟨⟨T, do_sext⟩, -, h⟩ := exists_of_bind_eq_ok h
  cases h
  exact sparesZero_buildLoad insn T do_sext

theorem sparesZero_generateStore (h : generateStore insn = .ok code) : code.SparesZero := by
  obtain ⟨T, -, h⟩ := exists_of_bind_eq_ok h
  cases h
  simp [buildStore]

/-- Whatever the opcode and the operands. -/
theorem sparesZero_build (h : build insn = .ok code) : code.SparesZero := by
  unfold build at h
  split at h <;>
    first
      | exact sparesZero_generateLoad h
      | exact sparesZero_generateStore h
      | cases h <;>
          simp +contextual [LUIbuildIR, AUIPCbuildIR, JALbuildIR, getReg, BEQbuildIR, BNEbuildIR,
            BLTbuildIR, BGEbuildIR, BLTUbuildIR, BGEUbuildIR, ADDIbuildIR, SLTIbuildIR,
            SLTIUbuildIR, XORIbuildIR, ORIbuildIR, ANDIbuildIR, SLLIbuildIR, SRLIbuildIR,
            SRAIbuildIR, ADDbuildIR, SUBbuildIR, SLLbuildIR, SLTbuildIR, SLTUbuildIR, XORbuildIR,
            SRLbuildIR, SRAbuildIR, ORbuildIR, ANDbuildIR, ECALLbuildIR]

theorem sparesZero_emit (h : emit insn = .ok code) : code.SparesZero := by
  obtain ⟨opcodeCode, hopcode, h⟩ := exists_of_bind_eq_ok h
  obtain ⟨changes, -, h⟩ := exists_of_bind_eq_ok h
  cases h
  refine .bind (sparesZero_build hopcode) fun _ => ?_
  cases changes <;> simp [advancePC]

/-- No store of LLVM's code goes to register 0. -/
theorem sparesZero_translate {insns : List Instruction} (h : translate insns = .ok code) :
    code.SparesZero := by
  obtain ⟨codes, hcodes, h⟩ := exists_of_bind_eq_ok h
  cases h
  refine .bind (Code.effectsIn_forM fun code hcode => ?_) fun _ => ?_
  · obtain ⟨insn, -, hemit⟩ := exists_of_mem_mapM hcodes hcode
    exact sparesZero_emit hemit
  · simp [countInsns]

end LLVM

/-! ### The IR backend -/

namespace IR

open Ssa Builder

variable {V : ℕ → Type} {insn : Instruction}

section Sequence

variable {α : Type} {f : V 32 → Builder V α}

@[simp] theorem sparesZero_loadReg_bind {reg : Operand} :
    (loadReg reg >>= f).SparesZero ↔ ∀ a, (f a).SparesZero := by
  by_cases hreg : reg = 0#8 <;> simp [loadReg, hreg]

@[simp] theorem sparesZero_setDst {rd : Operand} {val : V 32} : (setDst rd val).SparesZero := by
  by_cases hrd : rd = 0#8 <;> simp [setDst, hrd]

@[simp] theorem sparesZero_setDst_bind {rd : Operand} {val : V 32} {f : Unit → Builder V α} :
    (setDst rd val >>= f).SparesZero ↔ (f ()).SparesZero := by
  by_cases hrd : rd = 0#8
  · rw [setDst, if_neg (by simp [hrd])]
    rfl
  · simp [setDst, hrd, Unique.forall_iff]

end Sequence

/-- No effect of the step stores to `x0`, wherever `pc` is. -/
abbrev SparesZero (step : Step V) : Prop := ∀ pc, (step pc).SparesZero

theorem sparesZero_keepPC {code : Builder V Unit} (h : code.SparesZero) :
    SparesZero (keepPC code) :=
  fun _ => h.bind fun _ => trivial

theorem sparesZero_loadOp (T : MemTy) {extend : V T.bits → Builder V (V 32)}
    (hextend : ∀ a, (extend a).SparesZero) : (loadOp insn T extend).SparesZero := by
  simp only [loadOp, sparesZero_loadReg_bind, sparesZero_const_bind, sparesZero_bin_bind,
    sparesZero_callLoad_bind]
  intro rs1 imm addr loaded
  exact (hextend loaded).bind fun _ => sparesZero_setDst

/-- Whatever the opcode and the operands. -/
theorem sparesZero_emitOpcode {step : Step V} (h : emitOpcode insn = .ok step) :
    SparesZero step := by
  unfold emitOpcode at h
  split at h <;> cases h <;>
    first
      | refine sparesZero_keepPC ?_
        simp [rOp, iOp, compROp, compIOp, storeOp, buildLUI, buildECALL]
      | exact sparesZero_keepPC (sparesZero_loadOp _ fun _ _ => trivial)
      | simp [SparesZero, bCondOp, buildJAL, buildJALR, buildAUIPC]

theorem sparesZero_emit {step : Step V} (h : emit insn = .ok step) : SparesZero step := by
  obtain ⟨opcodeStep, hopcode, h⟩ := exists_of_bind_eq_ok h
  obtain ⟨changes, -, h⟩ := exists_of_bind_eq_ok h
  cases h
  have hspares := sparesZero_emitOpcode hopcode
  cases changes with
  | true => exact hspares
  | false => exact fun pc => (hspares pc).bind fun _ => by simp

/-- No store of the graph goes to register 0. -/
theorem sparesZero_run {insns : List Instruction} {code : Builder V Unit}
    (h : run insns = .ok code) : code.SparesZero := by
  obtain ⟨steps, hsteps, h⟩ := exists_of_bind_eq_ok h
  cases h
  rw [sparesZero_load_bind]
  refine fun pc => .bind (Code.effectsIn_foldlM (fun step hstep => ?_) pc) fun _ => ?_
  · obtain ⟨insn, -, hemit⟩ := exists_of_mem_mapM hsteps hstep
    exact sparesZero_emit hemit
  · simp [finish]

end IR

/-! ### Mixed runs -/

namespace Backend

section Reached

variable {μ : Type} [Memory μ]

/-- Whatever a translated block is made of, and however it ends. -/
theorem Runs.zeroReg {insns : List Instruction} {b : Backend} {h : Host μ}
    {r : EStateM.Result Exn (Host μ) Unit} (hrun : Runs insns b h r) (hzero : h.ZeroReg) :
    (finalState r).ZeroReg := by
  cases hrun with
  | @xbyak pf code m htranslate hentry =>
    rw [finalState_visible]
    exact X86.Env.preserves_run pf.maintains_zeroReg (XByak.sparesZero_translate htranslate)
      m hzero
  | @asmjit statePtr code m htranslate hentry =>
    rw [finalState_visible]
    exact X86.Env.preserves_run (AsmJit.maintains_zeroReg statePtr)
      (AsmJit.sparesZero_translate htranslate) m hzero
  | @lightning pf code m htranslate hentry =>
    rw [finalState_visible]
    exact GnuLightning.Env.preserves_run pf.maintains_zeroReg
      (Lightning.sparesZero_translate htranslate) m hzero
  | @mir statePtr code m htranslate hentry =>
    rw [finalState_visible]
    exact Mir.Env.preserves_run (MIR.maintains_zeroReg statePtr)
      (MIR.sparesZero_translate htranslate) none m hzero
  | ir htranslate =>
    exact Ssa.Env.inv_finalState_eval StateOp.zeroReg_handle (IR.sparesZero_run htranslate) hzero
  | llvm htranslate =>
    exact Ssa.Env.inv_finalState_eval StateOp.zeroReg_handle (LLVM.sparesZero_translate htranslate)
      hzero

/-- The states that a fresh CPU gets to: between instructions and blocks, where one of
them raised, and where a translated block calls a helper. -/
inductive Reached : CPUState μ → Prop
  | fresh (memory : μ) : Reached { memory }
  /-- `Hart::setPC`. -/
  | setPC {s : CPUState μ} (hs : Reached s) (addr : Addr) : Reached (s.setPC addr)
  /-- `Hart::setSP`. -/
  | setSP {s : CPUState μ} (hs : Reached s) (addr : Addr) : Reached (s.setReg 2 addr)
  | interpreted {s : CPUState μ} (hs : Reached s) (insn : Instruction) :
      Reached (finalState ((executeCounted insn).run s))
  | called {s : CPUState μ} (hs : Reached s) {insns : List Instruction} {b : Backend}
      {r : EStateM.Result Exn (Host μ) Unit} (hrun : Runs insns b { cpu := s } r) :
      Reached (finalState r).cpu
  /-- A shift out of range gives some value, and the block of the builder goes on. -/
  | shifted {s : CPUState μ} (hs : Reached s) (shift : Ssa.ShiftRule) {insns : List Instruction}
      {code : Builder BitVec Unit} (htranslate : LLVM.translate insns = .ok code) :
      Reached (finalState (((ssaEnv shift).eval code).run { cpu := s })).cpu
  | inHelper {s : CPUState μ} (hs : Reached s) {insns : List Instruction} {b : Backend}
      {r : EStateM.Result Exn (Host μ) Unit} (hrun : Runs insns b { cpu := s } r)
      {cpu : CPUState μ} (hcpu : cpu ∈ (finalState r).calls) : Reached cpu

/-- Register 0 is zero in every state that is reached. -/
theorem Reached.getReg_zero {s : CPUState μ} (hs : Reached s) : s.getReg 0 = 0#32 := by
  have hhost : ∀ {s : CPUState μ}, s.getReg 0 = 0#32 → ({ cpu := s } : Host μ).ZeroReg :=
    fun hzero => ⟨hzero, nofun⟩
  induction hs with
  | fresh memory => rfl
  | setPC _ addr ih => exact ih
  | setSP _ addr ih => rwa [CPUState.getReg_zero_setReg]
  | interpreted _ insn ih => exact executeCounted_getReg_zero insn 0#32 _ ih
  | called _ hrun ih => exact (hrun.zeroReg (hhost ih)).cpu
  | shifted _ shift htranslate ih =>
    exact (Ssa.Env.inv_finalState_eval StateOp.zeroReg_handle
      (LLVM.sparesZero_translate htranslate) (hhost ih)).cpu
  | inHelper _ hrun hcpu ih => exact (hrun.zeroReg (hhost ih)).calls _ hcpu

/-- So a translated block means from every state reached what it means with `x0` at zero,
also where the backend reads `x0` from memory. -/
theorem Reached.agrees {insns : List Instruction} (hblock : IsBlock insns) {b : Backend}
    {s : CPUState μ} (hs : Reached s) {r : EStateM.Result Exn (Host μ) Unit}
    (hrun : Runs insns b { cpu := s } r) :
    Agrees id r ((b.meaning insns s.pc).run { cpu := s }) :=
  hrun.agrees hblock hs.getReg_zero

/-- Interpreted instructions and translated blocks, in any order and of any backend, leave
`x0` at zero. -/
theorem regs_zero_of_reached {s : CPUState μ} (hs : Reached s) : s.regs[0]? = some 0#32 := by
  rw [s.regs_zero, hs.getReg_zero]

end Reached

/-- After `addi x17, x0, 93; addi x0, x0, 5`. -/
def zeroGuest : CPUState (PlainMemory 0#32 4096) :=
  finalState ((executeCounted { opcode := .kADDI, imm := 5#32 }).run
    (finalState ((executeCounted { opcode := .kADDI, rd := 17#8, imm := 93#32 }).run
      { memory := {} })))

/-- Two instructions interpreted, one of them with `x0` for `rd`, and a block translated. -/
theorem regs_zero_zeroGuest :
    ∃ s : CPUState (PlainMemory 0#32 4096),
      Reached s ∧ s.icount = 5#64 ∧ s.regs[0]? = some 0#32 := by
  have hguest : Reached zeroGuest := by
    unfold zeroGuest
    exact .interpreted (.interpreted (.fresh _) _) _
  obtain ⟨h', hrun⟩ := exists_runs_asmjit (s := zeroGuest) isBlock_sampleInsns rfl rfl
  have hs : Reached h'.cpu := .called hguest hrun
  exact ⟨h'.cpu, hs, (hrun.of_ok isBlock_sampleInsns rfl).1, regs_zero_of_reached hs⟩

end Backend

end Prot
