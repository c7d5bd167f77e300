import Mathlib.Data.BitVec
import Mathlib.Logic.Function.Basic

/-!
# The RV32I base instruction set

The integer computational, control transfer, load and store instructions of the
RISC-V unprivileged specification, stated on the bit fields of the encoded word.
The state is the architectural one: registers, `pc`, and memory as bytes.
Exceptions (misaligned targets, access faults) are not part of it.

## Main definitions

* `Rv32i.Mnemonic.Encodes`: the words that are encodings of an instruction
* `Rv32i.Mnemonic.exec`: the state after an instruction
-/

namespace Rv32i

/-- A machine word. -/
abbrev Word := BitVec 32

/-! ### Fields and immediates -/

section Fields

variable (w : Word)

/-- Bits 6 to 0. -/
def opcode : BitVec 7 := w.extractLsb' 0 7

/-- Bits 11 to 7. -/
def rd : BitVec 5 := w.extractLsb' 7 5

/-- Bits 14 to 12. -/
def funct3 : BitVec 3 := w.extractLsb' 12 3

/-- Bits 19 to 15. -/
def rs1 : BitVec 5 := w.extractLsb' 15 5

/-- Bits 24 to 20. -/
def rs2 : BitVec 5 := w.extractLsb' 20 5

/-- Bits 31 to 25. -/
def funct7 : BitVec 7 := w.extractLsb' 25 7

/-- The shift amount of an immediate shift. -/
def shamt : BitVec 5 := w.extractLsb' 20 5

/-- The immediate of an I-type instruction. -/
def immI : Word := (w.extractLsb' 20 12).signExtend 32

/-- The immediate of an S-type instruction. -/
def immS : Word := (w.extractLsb' 25 7 ++ w.extractLsb' 7 5).signExtend 32

/-- The immediate of a B-type instruction, which is even. -/
def immB : Word :=
  (w.extractLsb' 31 1 ++ w.extractLsb' 7 1 ++ w.extractLsb' 25 6 ++ w.extractLsb' 8 4 ++
    0#1).signExtend 32

/-- The immediate of a U-type instruction, the lower 12 bits of which are zero. -/
def immU : Word := w.extractLsb' 12 20 ++ 0#12

/-- The immediate of a J-type instruction, which is even. -/
def immJ : Word :=
  (w.extractLsb' 31 1 ++ w.extractLsb' 12 8 ++ w.extractLsb' 20 1 ++ w.extractLsb' 21 10 ++
    0#1).signExtend 32

/-! ### The values of an immediate -/

theorem immI_bounds : -2048 ≤ (immI w).toInt ∧ (immI w).toInt ≤ 2047 := by
  have hlow := BitVec.le_toInt (w.extractLsb' 20 12)
  have hhigh := (w.extractLsb' 20 12).toInt_lt
  rw [immI, BitVec.toInt_signExtend_of_le (by decide)]
  omega

theorem immS_bounds : -2048 ≤ (immS w).toInt ∧ (immS w).toInt ≤ 2047 := by
  have hlow := BitVec.le_toInt (w.extractLsb' 25 7 ++ w.extractLsb' 7 5)
  have hhigh := (w.extractLsb' 25 7 ++ w.extractLsb' 7 5).toInt_lt
  rw [immS, BitVec.toInt_signExtend_of_le (by decide)]
  omega

/-- A multiple of two, with a sign and eleven more bits above the lowest. -/
theorem immB_bounds :
    (immB w).toInt % 2 = 0 ∧ -4096 ≤ (immB w).toInt ∧ (immB w).toInt ≤ 4094 := by
  have hlow := BitVec.le_toInt
    (w.extractLsb' 31 1 ++ w.extractLsb' 7 1 ++ w.extractLsb' 25 6 ++ w.extractLsb' 8 4)
  have hhigh :=
    (w.extractLsb' 31 1 ++ w.extractLsb' 7 1 ++ w.extractLsb' 25 6 ++ w.extractLsb' 8 4).toInt_lt
  rw [immB, BitVec.toInt_signExtend_of_le (by decide), BitVec.toInt_append_zero]
  omega

theorem immJ_bounds :
    (immJ w).toInt % 2 = 0 ∧ -2 ^ 20 ≤ (immJ w).toInt ∧ (immJ w).toInt ≤ 2 ^ 20 - 2 := by
  have hlow := BitVec.le_toInt
    (w.extractLsb' 31 1 ++ w.extractLsb' 12 8 ++ w.extractLsb' 20 1 ++ w.extractLsb' 21 10)
  have hhigh :=
    (w.extractLsb' 31 1 ++ w.extractLsb' 12 8 ++ w.extractLsb' 20 1 ++ w.extractLsb' 21 10).toInt_lt
  rw [immJ, BitVec.toInt_signExtend_of_le (by decide), BitVec.toInt_append_zero]
  omega

theorem setWidth_immU : (immU w).setWidth 12 = 0#12 := BitVec.setWidth_append_eq_right

end Fields

/-! ### Encodings -/

/-- The instructions, without `fence`, `ecall` and `ebreak`. -/
inductive Mnemonic where
  | lui | auipc | jal | jalr
  | beq | bne | blt | bge | bltu | bgeu
  | lb | lh | lw | lbu | lhu
  | sb | sh | sw
  | addi | slti | sltiu | xori | ori | andi | slli | srli | srai
  | add | sub | sll | slt | sltu | xor | srl | sra | or | and
  deriving DecidableEq, Repr

/-- The fixed fields of an instruction format. -/
structure Encoding where
  opcode : BitVec 7
  funct3 : Option (BitVec 3) := none
  funct7 : Option (BitVec 7) := none

/-- The fields that are fixed, as the instruction set listings have them. -/
def Mnemonic.encoding : Mnemonic → Encoding
  | lui => { opcode := 0b0110111#7 }
  | auipc => { opcode := 0b0010111#7 }
  | jal => { opcode := 0b1101111#7 }
  | jalr => { opcode := 0b1100111#7, funct3 := some 0b000#3 }
  | beq => { opcode := 0b1100011#7, funct3 := some 0b000#3 }
  | bne => { opcode := 0b1100011#7, funct3 := some 0b001#3 }
  | blt => { opcode := 0b1100011#7, funct3 := some 0b100#3 }
  | bge => { opcode := 0b1100011#7, funct3 := some 0b101#3 }
  | bltu => { opcode := 0b1100011#7, funct3 := some 0b110#3 }
  | bgeu => { opcode := 0b1100011#7, funct3 := some 0b111#3 }
  | lb => { opcode := 0b0000011#7, funct3 := some 0b000#3 }
  | lh => { opcode := 0b0000011#7, funct3 := some 0b001#3 }
  | lw => { opcode := 0b0000011#7, funct3 := some 0b010#3 }
  | lbu => { opcode := 0b0000011#7, funct3 := some 0b100#3 }
  | lhu => { opcode := 0b0000011#7, funct3 := some 0b101#3 }
  | sb => { opcode := 0b0100011#7, funct3 := some 0b000#3 }
  | sh => { opcode := 0b0100011#7, funct3 := some 0b001#3 }
  | sw => { opcode := 0b0100011#7, funct3 := some 0b010#3 }
  | addi => { opcode := 0b0010011#7, funct3 := some 0b000#3 }
  | slti => { opcode := 0b0010011#7, funct3 := some 0b010#3 }
  | sltiu => { opcode := 0b0010011#7, funct3 := some 0b011#3 }
  | xori => { opcode := 0b0010011#7, funct3 := some 0b100#3 }
  | ori => { opcode := 0b0010011#7, funct3 := some 0b110#3 }
  | andi => { opcode := 0b0010011#7, funct3 := some 0b111#3 }
  | slli => { opcode := 0b0010011#7, funct3 := some 0b001#3, funct7 := some 0b0000000#7 }
  | srli => { opcode := 0b0010011#7, funct3 := some 0b101#3, funct7 := some 0b0000000#7 }
  | srai => { opcode := 0b0010011#7, funct3 := some 0b101#3, funct7 := some 0b0100000#7 }
  | add => { opcode := 0b0110011#7, funct3 := some 0b000#3, funct7 := some 0b0000000#7 }
  | sub => { opcode := 0b0110011#7, funct3 := some 0b000#3, funct7 := some 0b0100000#7 }
  | sll => { opcode := 0b0110011#7, funct3 := some 0b001#3, funct7 := some 0b0000000#7 }
  | slt => { opcode := 0b0110011#7, funct3 := some 0b010#3, funct7 := some 0b0000000#7 }
  | sltu => { opcode := 0b0110011#7, funct3 := some 0b011#3, funct7 := some 0b0000000#7 }
  | xor => { opcode := 0b0110011#7, funct3 := some 0b100#3, funct7 := some 0b0000000#7 }
  | srl => { opcode := 0b0110011#7, funct3 := some 0b101#3, funct7 := some 0b0000000#7 }
  | sra => { opcode := 0b0110011#7, funct3 := some 0b101#3, funct7 := some 0b0100000#7 }
  | or => { opcode := 0b0110011#7, funct3 := some 0b110#3, funct7 := some 0b0000000#7 }
  | and => { opcode := 0b0110011#7, funct3 := some 0b111#3, funct7 := some 0b0000000#7 }

/-- The word has the fixed fields of the format. -/
structure Encoding.Matches (e : Encoding) (w : Word) : Prop where
  opcode_eq : Rv32i.opcode w = e.opcode
  funct3_eq : ∀ f ∈ e.funct3, Rv32i.funct3 w = f
  funct7_eq : ∀ f ∈ e.funct7, Rv32i.funct7 w = f

/-- The word is an encoding of the instruction. -/
def Mnemonic.Encodes (m : Mnemonic) (w : Word) : Prop := m.encoding.Matches w

/-! ### Execution -/

/-- The registers, the program counter and the bytes of memory. -/
@[ext]
structure State where
  regs : BitVec 5 → Word
  pc : Word
  mem : Word → BitVec 8

namespace State

variable (σ : State)

/-- The value of a register; `x0` is hardwired to zero. -/
def x (r : BitVec 5) : Word := if r = 0#5 then 0#32 else σ.regs r

/-- Writes to `x0` are ignored. -/
def write (r : BitVec 5) (v : Word) : State :=
  if r = 0#5 then σ else { σ with regs := Function.update σ.regs r v }

/-- Continues at an address. -/
def jump (target : Word) : State := { σ with pc := target }

/-- Goes on with the next instruction. -/
def next : State := σ.jump (σ.pc + 4#32)

/-- Continues at the target if the branch is taken. -/
def branch (taken : Bool) (offset : Word) : State :=
  if taken then σ.jump (σ.pc + offset) else σ.next

/-- The little-endian halfword at an address. -/
def half (a : Word) : BitVec 16 := σ.mem (a + 1#32) ++ σ.mem a

/-- The little-endian word at an address. -/
def word (a : Word) : Word := σ.mem (a + 3#32) ++ σ.mem (a + 2#32) ++ σ.mem (a + 1#32) ++ σ.mem a

/-- Writes one byte. -/
def storeByte (a : Word) (v : BitVec 8) : State := { σ with mem := Function.update σ.mem a v }

/-- Writes two bytes, the lower one first. -/
def storeHalf (a : Word) (v : BitVec 16) : State :=
  (σ.storeByte a (v.extractLsb' 0 8)).storeByte (a + 1#32) (v.extractLsb' 8 8)

/-- Writes four bytes, the lowest one first. -/
def storeWord (a : Word) (v : Word) : State :=
  (σ.storeHalf a (v.extractLsb' 0 16)).storeHalf (a + 2#32) (v.extractLsb' 16 16)

@[simp] theorem write_pc (r : BitVec 5) (v : Word) : (σ.write r v).pc = σ.pc := by
  unfold write; split <;> rfl

end State

/-- The result of a comparison, in a register. -/
def flag (b : Bool) : Word := if b then 1#32 else 0#32

/-- The state after the instruction that `w` encodes. -/
def Mnemonic.exec (w : Word) (σ : State) : Mnemonic → State
  | lui => (σ.write (rd w) (immU w)).next
  | auipc => (σ.write (rd w) (σ.pc + immU w)).next
  | jal => (σ.write (rd w) (σ.pc + 4#32)).jump (σ.pc + immJ w)
  | jalr => (σ.write (rd w) (σ.pc + 4#32)).jump ((σ.x (rs1 w) + immI w) &&& ~~~1#32)
  | beq => σ.branch (σ.x (rs1 w) == σ.x (rs2 w)) (immB w)
  | bne => σ.branch (σ.x (rs1 w) != σ.x (rs2 w)) (immB w)
  | blt => σ.branch ((σ.x (rs1 w)).slt (σ.x (rs2 w))) (immB w)
  | bge => σ.branch (!(σ.x (rs1 w)).slt (σ.x (rs2 w))) (immB w)
  | bltu => σ.branch ((σ.x (rs1 w)).ult (σ.x (rs2 w))) (immB w)
  | bgeu => σ.branch (!(σ.x (rs1 w)).ult (σ.x (rs2 w))) (immB w)
  | lb => (σ.write (rd w) ((σ.mem (σ.x (rs1 w) + immI w)).signExtend 32)).next
  | lh => (σ.write (rd w) ((σ.half (σ.x (rs1 w) + immI w)).signExtend 32)).next
  | lw => (σ.write (rd w) (σ.word (σ.x (rs1 w) + immI w))).next
  | lbu => (σ.write (rd w) ((σ.mem (σ.x (rs1 w) + immI w)).setWidth 32)).next
  | lhu => (σ.write (rd w) ((σ.half (σ.x (rs1 w) + immI w)).setWidth 32)).next
  | sb => (σ.storeByte (σ.x (rs1 w) + immS w) ((σ.x (rs2 w)).setWidth 8)).next
  | sh => (σ.storeHalf (σ.x (rs1 w) + immS w) ((σ.x (rs2 w)).setWidth 16)).next
  | sw => (σ.storeWord (σ.x (rs1 w) + immS w) (σ.x (rs2 w))).next
  | addi => (σ.write (rd w) (σ.x (rs1 w) + immI w)).next
  | slti => (σ.write (rd w) (flag ((σ.x (rs1 w)).slt (immI w)))).next
  | sltiu => (σ.write (rd w) (flag ((σ.x (rs1 w)).ult (immI w)))).next
  | xori => (σ.write (rd w) (σ.x (rs1 w) ^^^ immI w)).next
  | ori => (σ.write (rd w) (σ.x (rs1 w) ||| immI w)).next
  | andi => (σ.write (rd w) (σ.x (rs1 w) &&& immI w)).next
  | slli => (σ.write (rd w) (σ.x (rs1 w) <<< shamt w)).next
  | srli => (σ.write (rd w) (σ.x (rs1 w) >>> shamt w)).next
  | srai => (σ.write (rd w) ((σ.x (rs1 w)).sshiftRight' (shamt w))).next
  | add => (σ.write (rd w) (σ.x (rs1 w) + σ.x (rs2 w))).next
  | sub => (σ.write (rd w) (σ.x (rs1 w) - σ.x (rs2 w))).next
  | sll => (σ.write (rd w) (σ.x (rs1 w) <<< (σ.x (rs2 w)).extractLsb' 0 5)).next
  | slt => (σ.write (rd w) (flag ((σ.x (rs1 w)).slt (σ.x (rs2 w))))).next
  | sltu => (σ.write (rd w) (flag ((σ.x (rs1 w)).ult (σ.x (rs2 w))))).next
  | xor => (σ.write (rd w) (σ.x (rs1 w) ^^^ σ.x (rs2 w))).next
  | srl => (σ.write (rd w) (σ.x (rs1 w) >>> (σ.x (rs2 w)).extractLsb' 0 5)).next
  | sra => (σ.write (rd w) ((σ.x (rs1 w)).sshiftRight' ((σ.x (rs2 w)).extractLsb' 0 5))).next
  | or => (σ.write (rd w) (σ.x (rs1 w) ||| σ.x (rs2 w))).next
  | and => (σ.write (rd w) (σ.x (rs1 w) &&& σ.x (rs2 w))).next

end Rv32i
