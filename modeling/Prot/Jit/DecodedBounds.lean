import Prot.Jit.Backends
import Prot.Rv32iDecode

/-!
# What the engines may rely on

No engine checks an instruction before it indexes the registers with an operand, shifts by
an immediate or adds one to an address. They rely on the decoder, which returns no
instruction that would be out of range, and none that an engine does not know.

## Main results

* `immFits_of_decode`: the immediates of decoded instructions
* `inRange_of_decode`: all that an engine needs to know about a decoded instruction
-/

namespace Prot

open Isa Interpreter

namespace Isa

/-- What the immediate of an instruction is used for. -/
inductive ImmKind where
  | unused | shamt | simm12 | branch | jump | upper
  deriving DecidableEq

namespace ImmKind

/-- The bounds of an immediate. -/
def Fits : ImmKind → Imm → Prop
  | unused, _ => True
  | shamt, imm => imm.toNat ≤ 31
  | simm12, imm => -2048 ≤ imm.toInt ∧ imm.toInt ≤ 2047
  | branch, imm => imm.toInt % 2 = 0 ∧ -4096 ≤ imm.toInt ∧ imm.toInt ≤ 4094
  | jump, imm => imm.toInt % 2 = 0 ∧ -2 ^ 20 ≤ imm.toInt ∧ imm.toInt ≤ 2 ^ 20 - 2
  | upper, imm => imm.setWidth 12 = 0#12

end ImmKind

/-- What the immediate of an opcode is. -/
def Opcode.immKind : Opcode → ImmKind
  | .kSLLI | .kSRLI | .kSRAI => .shamt
  | .kADDI | .kANDI | .kORI | .kSLTI | .kSLTIU | .kXORI | .kJALR
  | .kLB | .kLBU | .kLH | .kLHU | .kLW | .kSB | .kSH | .kSW => .simm12
  | .kBEQ | .kBGE | .kBGEU | .kBLT | .kBLTU | .kBNE => .branch
  | .kJAL => .jump
  | .kAUIPC | .kLUI => .upper
  | _ => .unused

/-- The immediate is one that the opcode can have. -/
structure Instruction.ImmFits (i : Instruction) : Prop where
  fits : i.opcode.immKind.Fits i.imm

section Builders

variable (word : Word) {opc : Opcode}

theorem immFits_of_unused {i : Instruction} (h : i.opcode.immKind = .unused) : i.ImmFits := by
  constructor
  rw [h]
  trivial

theorem immFits_decodeShift (h : opc.immKind = .shamt) : (decodeShift opc word).ImmFits := by
  constructor
  rw [decodeShift, h]
  exact Nat.le_of_lt_succ (shamt_field_lt word)

theorem immFits_decodeI (h : opc.immKind = .simm12) : (decodeI opc word).ImmFits := by
  constructor
  rw [decodeI, h, immI_eq]
  exact Rv32i.immI_bounds word

theorem immFits_decodeS (h : opc.immKind = .simm12) : (decodeS opc word).ImmFits := by
  constructor
  rw [decodeS, h, immS_eq]
  exact Rv32i.immS_bounds word

theorem immFits_decodeB (h : opc.immKind = .branch) : (decodeB opc word).ImmFits := by
  constructor
  rw [decodeB, h, immB_eq]
  exact Rv32i.immB_bounds word

theorem immFits_decodeU (h : opc.immKind = .upper) : (decodeU opc word).ImmFits := by
  constructor
  rw [decodeU, h, immU_eq]
  exact Rv32i.setWidth_immU word

theorem immFits_decodeJ (h : opc.immKind = .jump) : (decodeJ opc word).ImmFits := by
  constructor
  rw [decodeJ, h, immJ_eq]
  exact Rv32i.immJ_bounds word

end Builders

/-- The immediate of every decoded instruction is in range. -/
theorem immFits_of_decode {word : Word} {i : Instruction} (h : decode word = some i) :
    i.ImmFits := by
  refine decode_induction h ?_
  simp only [cases₀, cases₁, cases₂, cases₃, List.cons_append, List.nil_append,
    List.forall_mem_cons, List.not_mem_nil, false_implies, implies_true, and_true]
  and_intros
  all_goals first
    | (with_reducible apply immFits_decodeI) <;> rfl
    | (with_reducible apply immFits_decodeShift) <;> rfl
    | (with_reducible apply immFits_decodeS) <;> rfl
    | (with_reducible apply immFits_decodeB) <;> rfl
    | (with_reducible apply immFits_decodeU) <;> rfl
    | (with_reducible apply immFits_decodeJ) <;> rfl
    | exact immFits_of_unused (by rfl)

end Isa

/-! ### Engines that know the opcode -/

/-- The interpreter executes the instruction. -/
def Interpreter.Handles (i : Instruction) : Prop :=
  ∀ (μ : Type) [Memory μ], (∃ handler, getHandler (μ := μ) i.opcode = .ok handler) ∧
    ∃ changes, changesPC i.opcode = .ok changes

/-- The translator makes code of the instruction, whatever it is linked to. -/
def Backend.Handles (i : Instruction) : Backend → Prop
  | xbyak => ∀ link, ∃ code, XByak.translate link [i] = .ok code
  | asmjit => ∃ code, AsmJit.translate [i] = .ok code
  | lightning => ∃ code, Lightning.translate [i] = .ok code
  | mir => ∃ code, MIR.translate [i] = .ok code
  | ir => ∃ code : Builder BitVec Unit, IR.run [i] = .ok code
  | llvm => ∃ code : Builder BitVec Unit, LLVM.translate [i] = .ok code

section Handles

variable {word : Word} {i : Instruction}

/-- The interpreter has a handler for what is decoded. -/
theorem Interpreter.handles_of_isDecoded (h : i.opcode.isDecoded = true) :
    Interpreter.Handles i := by
  intro μ _
  cases hopc : i.opcode
  case kPAUSE | kSBREAK | kSCALL | kNumOpcodes =>
    rw [hopc] at h
    cases h
  all_goals exact ⟨⟨_, rfl⟩, _, rfl⟩

/-- The memory does not matter for what is translated. -/
theorem Backend.handles_of_decode (h : decode word = some i) (b : Backend) : b.Handles i := by
  have hdecoded : Decoded [i] := fun insn hmem => ⟨word, List.mem_singleton.mp hmem ▸ h⟩
  cases b with
  | xbyak =>
    intro link
    obtain ⟨code, hcode, -⟩ := XByak.translate_refines (μ := PlainMemory 0#32 4096)
      ⟨0#64, link, fun _ _ => 0#64⟩ [] hdecoded
    exact ⟨code, hcode⟩
  | asmjit =>
    obtain ⟨code, hcode, -⟩ :=
      AsmJit.translate_implements (μ := PlainMemory 0#32 4096) 0#64 [] hdecoded
    exact ⟨code, hcode⟩
  | lightning =>
    obtain ⟨code, hcode, -⟩ := Lightning.translate_implements (μ := PlainMemory 0#32 4096)
      ⟨0#64, fun _ _ => 0#64⟩ hdecoded
    exact ⟨code, hcode⟩
  | mir =>
    obtain ⟨code, hcode, -⟩ :=
      MIR.translate_agrees (μ := PlainMemory 0#32 4096) 0#64 hdecoded
    exact ⟨code, hcode⟩
  | ir =>
    have hlength : [i].length < 2 ^ 32 := List.length_singleton.trans_lt (by decide)
    obtain ⟨code, hcode, -⟩ := IR.run_agrees (μ := PlainMemory 0#32 4096) hdecoded hlength
    exact ⟨code, hcode⟩
  | llvm =>
    obtain ⟨code, hcode, -⟩ := LLVM.translate_implements (μ := PlainMemory 0#32 4096) hdecoded
    exact ⟨code, hcode⟩

/-- The opcodes that are not decoded. -/
theorem isDecoded_iff {opc : Opcode} : opc.isDecoded = true ↔
    opc ≠ .kPAUSE ∧ opc ≠ .kSBREAK ∧ opc ≠ .kSCALL ∧ opc ≠ .kNumOpcodes := by
  cases opc <;> decide

/-- What the decoder returns for any word: registers and an immediate in range, and an
opcode that every engine knows. -/
theorem inRange_of_decode (h : decode word = some i) :
    (i.rd.toNat ≤ 31 ∧ i.rs1.toNat ≤ 31 ∧ i.rs2.toNat ≤ 31) ∧ i.ImmFits ∧
    (i.opcode ≠ .kPAUSE ∧ i.opcode ≠ .kSBREAK ∧ i.opcode ≠ .kSCALL ∧ i.opcode ≠ .kNumOpcodes) ∧
    Interpreter.Handles i ∧ ∀ b : Backend, b.Handles i := by
  have hwf := wellFormed_of_decode h
  exact ⟨⟨Nat.le_of_lt_succ hwf.rd_lt, Nat.le_of_lt_succ hwf.rs1_lt, Nat.le_of_lt_succ hwf.rs2_lt⟩,
    immFits_of_decode h, isDecoded_iff.mp hwf.isDecoded,
    Interpreter.handles_of_isDecoded hwf.isDecoded, Backend.handles_of_decode h⟩

/-- `bne x1, x2, -4`. -/
theorem inRange_of_decode_bne :
    let i : Instruction := { opcode := .kBNE, rs1 := 1#8, rs2 := 2#8, imm := 0xfffffffc#32 }
    decode 0xfe209ee3#32 = some i ∧ i.ImmFits ∧ Interpreter.Handles i := by
  intro i
  have hdecode : decode 0xfe209ee3#32 = some i := by decide +kernel
  have hrange := inRange_of_decode hdecode
  exact ⟨hdecode, hrange.2.1, hrange.2.2.2.1⟩

end Handles

end Prot
