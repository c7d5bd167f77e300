import Prot.Decode
import Prot.Lib.Rv32i
import Mathlib.Tactic.IntervalCases

/-!
# The decoder on the base instructions

The decoder's pieces are the fields and the immediates of the specification, and
the masks of its switches select the fixed fields of the formats. So every
encoding of a base instruction is decoded, to the opcode of that instruction.
-/

namespace Prot.Isa

open Rv32i (Mnemonic)

section Fields

variable (w : Word)

/-! ### Immediates -/

/-- A piece of a word is a field, shifted. -/
theorem piece_eq {Msb Lsb : ℕ} (hle : Lsb ≤ Msb) (hlt : Msb < 32) (shl sar : ℕ) :
    piece Msb Lsb shl sar w =
      (((w.extractLsb' Lsb (Msb - Lsb + 1)).setWidth 32) <<< shl).sshiftRight sar := by
  rw [piece, slice_eq hle hlt]

/-- The pieces of an I-type immediate. Every bit of an immediate is one bit of the word. -/
theorem immI_eq : piece 31 31 31 20 w ||| piece 30 20 0 0 w = Rv32i.immI w := by
  refine BitVec.eq_of_getLsbD_eq fun i hi => ?_
  simp (disch := decide) only [piece_eq, Rv32i.immI, BitVec.getLsbD_or, BitVec.getLsbD_sshiftRight,
    BitVec.getLsbD_shiftLeft, BitVec.getLsbD_setWidth, BitVec.getLsbD_extractLsb',
    BitVec.getLsbD_signExtend, BitVec.msb_eq_getLsbD_last]
  interval_cases i <;> simp

theorem immS_eq :
    piece 31 31 31 20 w ||| piece 30 25 5 0 w ||| piece 11 7 0 0 w = Rv32i.immS w := by
  refine BitVec.eq_of_getLsbD_eq fun i hi => ?_
  simp (disch := decide) only [piece_eq, Rv32i.immS, BitVec.getLsbD_or, BitVec.getLsbD_sshiftRight,
    BitVec.getLsbD_shiftLeft, BitVec.getLsbD_setWidth, BitVec.getLsbD_extractLsb',
    BitVec.getLsbD_signExtend, BitVec.getLsbD_append, BitVec.msb_eq_getLsbD_last]
  interval_cases i <;> simp

theorem immB_eq :
    piece 31 31 31 19 w ||| piece 30 25 5 0 w ||| piece 11 8 1 0 w ||| piece 7 7 11 0 w =
      Rv32i.immB w := by
  refine BitVec.eq_of_getLsbD_eq fun i hi => ?_
  simp (disch := decide) only [piece_eq, Rv32i.immB, BitVec.getLsbD_or, BitVec.getLsbD_sshiftRight,
    BitVec.getLsbD_shiftLeft, BitVec.getLsbD_setWidth, BitVec.getLsbD_extractLsb',
    BitVec.getLsbD_signExtend, BitVec.getLsbD_append, BitVec.msb_eq_getLsbD_last]
  interval_cases i <;> simp

theorem immU_eq : piece 31 12 12 0 w = Rv32i.immU w := by
  refine BitVec.eq_of_getLsbD_eq fun i hi => ?_
  simp (disch := decide) only [piece_eq, Rv32i.immU, BitVec.getLsbD_sshiftRight,
    BitVec.getLsbD_shiftLeft, BitVec.getLsbD_setWidth, BitVec.getLsbD_extractLsb',
    BitVec.getLsbD_append]
  interval_cases i <;> simp

theorem immJ_eq :
    piece 31 31 31 11 w ||| piece 30 21 1 0 w ||| piece 20 20 11 0 w ||| piece 19 12 12 0 w =
      Rv32i.immJ w := by
  refine BitVec.eq_of_getLsbD_eq fun i hi => ?_
  simp (disch := decide) only [piece_eq, Rv32i.immJ, BitVec.getLsbD_or, BitVec.getLsbD_sshiftRight,
    BitVec.getLsbD_shiftLeft, BitVec.getLsbD_setWidth, BitVec.getLsbD_extractLsb',
    BitVec.getLsbD_signExtend, BitVec.getLsbD_append, BitVec.msb_eq_getLsbD_last]
  interval_cases i <;> simp

/-! ### Register operands -/

/-- An operand that fits in a byte is a field. -/
theorem toNat_operand_eq {Msb Lsb : ℕ} (hle : Lsb ≤ Msb) (hlt : Msb < 32) (hbyte : Msb - Lsb < 8) :
    (operand Msb Lsb w).toNat = (w.extractLsb' Lsb (Msb - Lsb + 1)).toNat := by
  rw [operand, piece, slice_eq hle hlt, BitVec.shiftLeft_zero, BitVec.sshiftRight_zero,
    BitVec.setWidth_setWidth_of_le _ (by decide), BitVec.toNat_setWidth_of_le (by omega)]

theorem toNat_rd : (operand 11 7 w).toNat = (Rv32i.rd w).toNat :=
  toNat_operand_eq w (by decide) (by decide) (by decide)

theorem toNat_rs1 : (operand 19 15 w).toNat = (Rv32i.rs1 w).toNat :=
  toNat_operand_eq w (by decide) (by decide) (by decide)

theorem toNat_rs2 : (operand 24 20 w).toNat = (Rv32i.rs2 w).toNat :=
  toNat_operand_eq w (by decide) (by decide) (by decide)

/-- The shift amount of an immediate shift survives the handlers' own mask. -/
theorem toNat_slice_shamt : (slice 4 0 (piece 24 20 0 0 w)).toNat = (Rv32i.shamt w).toNat := by
  rw [toNat_slice_four_zero, piece_eq w (by decide) (by decide), BitVec.shiftLeft_zero,
    BitVec.sshiftRight_zero, BitVec.toNat_setWidth_of_le (by decide)]
  exact Nat.mod_eq_of_lt (Rv32i.shamt w).isLt

/-! ### Masks -/

theorem and_mask₂ : w &&& mask₂ = (Rv32i.opcode w).setWidth 32 := by
  ext i hi
  interval_cases i <;> simp [mask₂, Rv32i.opcode]

theorem and_mask₀ :
    w &&& mask₀ = (Rv32i.opcode w).setWidth 32 ||| (Rv32i.funct3 w).setWidth 32 <<< 12 := by
  ext i hi
  interval_cases i <;> simp [mask₀, Rv32i.opcode, Rv32i.funct3]

theorem and_mask₁ :
    w &&& mask₁ = (Rv32i.opcode w).setWidth 32 ||| (Rv32i.funct3 w).setWidth 32 <<< 12 |||
      (Rv32i.funct7 w).setWidth 32 <<< 25 := by
  ext i hi
  interval_cases i <;> simp [mask₁, Rv32i.opcode, Rv32i.funct3, Rv32i.funct7]

end Fields

/-! ### Switches -/

/-- What the decoder makes of the encodings of an instruction. -/
def builder : Mnemonic → Word → Instruction
  | .lui => decodeU .kLUI
  | .auipc => decodeU .kAUIPC
  | .jal => decodeJ .kJAL
  | .jalr => decodeI .kJALR
  | .beq => decodeB .kBEQ
  | .bne => decodeB .kBNE
  | .blt => decodeB .kBLT
  | .bge => decodeB .kBGE
  | .bltu => decodeB .kBLTU
  | .bgeu => decodeB .kBGEU
  | .lb => decodeI .kLB
  | .lh => decodeI .kLH
  | .lw => decodeI .kLW
  | .lbu => decodeI .kLBU
  | .lhu => decodeI .kLHU
  | .sb => decodeS .kSB
  | .sh => decodeS .kSH
  | .sw => decodeS .kSW
  | .addi => decodeI .kADDI
  | .slti => decodeI .kSLTI
  | .sltiu => decodeI .kSLTIU
  | .xori => decodeI .kXORI
  | .ori => decodeI .kORI
  | .andi => decodeI .kANDI
  | .slli => decodeShift .kSLLI
  | .srli => decodeShift .kSRLI
  | .srai => decodeShift .kSRAI
  | .add => decodeR .kADD
  | .sub => decodeR .kSUB
  | .sll => decodeR .kSLL
  | .slt => decodeR .kSLT
  | .sltu => decodeR .kSLTU
  | .xor => decodeR .kXOR
  | .srl => decodeR .kSRL
  | .sra => decodeR .kSRA
  | .or => decodeR .kOR
  | .and => decodeR .kAND

section Switches

variable {w : Word} {op : BitVec 7} {f : BitVec 3} {f' : BitVec 7}

/-- A switch without a case for the major opcode. -/
theorem switchOn_eq_none {mask : Word} {cases : List Case} (hmask : Rv32i.opcode mask = 127#7)
    (hop : Rv32i.opcode w = op) (hcases : ∀ c ∈ cases, Rv32i.opcode c.1 ≠ op) :
    switchOn mask cases w = none := by
  have hlow : Rv32i.opcode (w &&& mask) = op := by
    rw [Rv32i.opcode, BitVec.extractLsb'_and, ← Rv32i.opcode, ← Rv32i.opcode, hmask, hop]
    exact BitVec.and_allOnes
  rw [switchOn, Option.map_eq_none_iff, List.lookup_eq_none_iff]
  exact fun c hc => bne_iff_ne.mpr fun heq => hcases c hc (by rw [← heq, hlow])

theorem switchOn₀ (hop : Rv32i.opcode w = op) (hf : Rv32i.funct3 w = f) :
    switchOn mask₀ cases₀ w =
      (cases₀.lookup (op.setWidth 32 ||| f.setWidth 32 <<< 12)).map fun build => build w := by
  rw [switchOn, and_mask₀, hop, hf]

theorem switchOn₁ (hop : Rv32i.opcode w = op) (hf : Rv32i.funct3 w = f)
    (hf' : Rv32i.funct7 w = f') :
    switchOn mask₁ cases₁ w =
      (cases₁.lookup (op.setWidth 32 ||| f.setWidth 32 <<< 12 ||| f'.setWidth 32 <<< 25)).map
        fun build => build w := by
  rw [switchOn, and_mask₁, hop, hf, hf']

theorem switchOn₂ (hop : Rv32i.opcode w = op) :
    switchOn mask₂ cases₂ w = (cases₂.lookup (op.setWidth 32)).map fun build => build w := by
  rw [switchOn, and_mask₂, hop]

/-- The decoder recognises every encoding of the base instructions. -/
theorem decode_eq_builder {m : Mnemonic} (h : m.Encodes w) : decode w = some (builder m w) := by
  obtain ⟨hop, hf, hf'⟩ := h
  cases m
  -- `funct3` is not looked at, or there is none
  case lui | auipc | jal | jalr =>
    rw [decode, switchOn_eq_none rfl hop (by decide), switchOn_eq_none rfl hop (by decide),
      switchOn₂ hop]
    rfl
  -- the first switch has cases for this major opcode, but not for this `funct3`
  case srli | srai =>
    rw [decode, switchOn₀ hop (hf _ rfl), switchOn₁ hop (hf _ rfl) (hf' _ rfl)]
    rfl
  case add | sub | sll | slt | sltu | xor | srl | sra | or | and =>
    rw [decode, switchOn_eq_none rfl hop (by decide), switchOn₁ hop (hf _ rfl) (hf' _ rfl)]
    rfl
  all_goals
    rw [decode, switchOn₀ hop (hf _ rfl)]
    rfl

end Switches

end Prot.Isa
