import Prot.Lib.Rv32i
import Mathlib.Tactic.IntervalCases

/-!
# Encoding RV32I instructions

The instructions of the base set other than `FENCE`, with their operands, and the
words that encode them. An operand has exactly the values that its format can
hold, so every instruction has an encoding.

## Main results

* `opcode_packR`, `immB_packB` and so on: each field of a packed word
* `Format.encode_operandsOf`: a word is put together again from its fields
* `Insn.encodes`: the encoding of an instruction is one of the words that the
  specification assigns to it
-/

namespace Rv32i

/-! ### Operands -/

/-- A signed multiple of two. -/
@[ext]
structure Offset (w : ℕ) where
  val : BitVec w
  even : val.getLsbD 0 = false
  deriving DecidableEq

/-- What an R-type instruction is given. -/
structure ROperands where
  rd : BitVec 5
  rs1 : BitVec 5
  rs2 : BitVec 5

/-- What an I-type instruction is given. -/
structure IOperands where
  rd : BitVec 5
  rs1 : BitVec 5
  imm : BitVec 12

/-- What a shift by an immediate is given. -/
structure ShiftOperands where
  rd : BitVec 5
  rs1 : BitVec 5
  shamt : BitVec 5

/-- What an S-type instruction is given. -/
structure SOperands where
  rs1 : BitVec 5
  rs2 : BitVec 5
  imm : BitVec 12

/-- What a B-type instruction is given. -/
structure BOperands where
  rs1 : BitVec 5
  rs2 : BitVec 5
  offset : Offset 13

/-- What a U-type instruction is given. -/
structure UOperands where
  rd : BitVec 5
  imm : BitVec 20

/-- What a J-type instruction is given. -/
structure JOperands where
  rd : BitVec 5
  offset : Offset 21

/-- The formats, with one of its own for a shift by an immediate. -/
inductive Format where
  | r | i | shift | s | b | u | j

/-- The format of an instruction. -/
def Mnemonic.format : Mnemonic → Format
  | lui | auipc => .u
  | jal => .j
  | jalr | lb | lh | lw | lbu | lhu | addi | slti | sltiu | xori | ori | andi => .i
  | beq | bne | blt | bge | bltu | bgeu => .b
  | sb | sh | sw => .s
  | slli | srli | srai => .shift
  | add | sub | sll | slt | sltu | xor | srl | sra | or | and => .r

/-- The operands of a format. -/
abbrev Format.Operands : Format → Type
  | r => ROperands
  | i => IOperands
  | shift => ShiftOperands
  | s => SOperands
  | b => BOperands
  | u => UOperands
  | j => JOperands

/-- An instruction with its operands. -/
inductive Insn where
  | base (m : Mnemonic) (operands : m.format.Operands)
  | ecall
  | ebreak

/-! ### Layouts -/

section Layouts

variable (f' : BitVec 7) (rs2' rs1' : BitVec 5) (f : BitVec 3) (rd' : BitVec 5) (op : BitVec 7)
  (imm : BitVec 12) (upper : BitVec 20) (offset : BitVec 13) (target : BitVec 21)

/-- The word of an R-type instruction, field after field. -/
def packR : Word := f' ++ rs2' ++ rs1' ++ f ++ rd' ++ op

/-- The immediate has the places of `funct7` and `rs2`. -/
def packI : Word := packR (imm.extractLsb' 5 7) (imm.extractLsb' 0 5) rs1' f rd' op

/-- The immediate has the places of `funct7` and `rd`. -/
def packS : Word := packR (imm.extractLsb' 5 7) rs2' rs1' f (imm.extractLsb' 0 5) op

/-- Like `packS`, except that bit 11 has the place of bit 0, which is zero. -/
def packB : Word :=
  packR (offset.extractLsb' 12 1 ++ offset.extractLsb' 5 6) rs2' rs1' f
    (offset.extractLsb' 1 4 ++ offset.extractLsb' 11 1) op

/-- The word of a U-type instruction. -/
def packU : Word := upper ++ rd' ++ op

/-- The word of a J-type instruction, which scrambles the offset. -/
def packJ : Word :=
  target.extractLsb' 20 1 ++ target.extractLsb' 1 10 ++ target.extractLsb' 11 1 ++
    target.extractLsb' 12 8 ++ rd' ++ op

@[simp] theorem opcode_packR : opcode (packR f' rs2' rs1' f rd' op) = op :=
  (BitVec.extractLsb'_append_eq_of_add_le (by decide)).trans BitVec.extractLsb'_eq_self

@[simp] theorem opcode_packU : opcode (packU rd' op upper) = op :=
  (BitVec.extractLsb'_append_eq_of_add_le (by decide)).trans BitVec.extractLsb'_eq_self

@[simp] theorem opcode_packJ : opcode (packJ rd' op target) = op :=
  (BitVec.extractLsb'_append_eq_of_add_le (by decide)).trans BitVec.extractLsb'_eq_self

@[simp] theorem rd_packR : rd (packR f' rs2' rs1' f rd' op) = rd' := by
  simp (disch := omega) only [rd, packR, BitVec.extractLsb'_append_eq_of_add_le,
    BitVec.extractLsb'_append_eq_of_le]
  exact BitVec.extractLsb'_eq_self

@[simp] theorem rd_packU : rd (packU rd' op upper) = rd' := by
  simp (disch := omega) only [rd, packU, BitVec.extractLsb'_append_eq_of_add_le,
    BitVec.extractLsb'_append_eq_of_le]
  exact BitVec.extractLsb'_eq_self

@[simp] theorem rd_packJ : rd (packJ rd' op target) = rd' := by
  simp (disch := omega) only [rd, packJ, BitVec.extractLsb'_append_eq_of_add_le,
    BitVec.extractLsb'_append_eq_of_le]
  exact BitVec.extractLsb'_eq_self

@[simp] theorem funct3_packR : funct3 (packR f' rs2' rs1' f rd' op) = f := by
  simp (disch := omega) only [funct3, packR, BitVec.extractLsb'_append_eq_of_add_le,
    BitVec.extractLsb'_append_eq_of_le]
  exact BitVec.extractLsb'_eq_self

@[simp] theorem rs1_packR : rs1 (packR f' rs2' rs1' f rd' op) = rs1' := by
  simp (disch := omega) only [rs1, packR, BitVec.extractLsb'_append_eq_of_add_le,
    BitVec.extractLsb'_append_eq_of_le]
  exact BitVec.extractLsb'_eq_self

@[simp] theorem rs2_packR : rs2 (packR f' rs2' rs1' f rd' op) = rs2' := by
  simp (disch := omega) only [rs2, packR, BitVec.extractLsb'_append_eq_of_add_le,
    BitVec.extractLsb'_append_eq_of_le]
  exact BitVec.extractLsb'_eq_self

@[simp] theorem funct7_packR : funct7 (packR f' rs2' rs1' f rd' op) = f' := by
  simp (disch := omega) only [funct7, packR, BitVec.extractLsb'_append_eq_of_le]
  exact BitVec.extractLsb'_eq_self

section Rearranged

variable {rs2' rs1' : BitVec 5} {f : BitVec 3} {rd' : BitVec 5} {op : BitVec 7} {imm : BitVec 12}
  {offset : BitVec 13}

@[simp] theorem opcode_packI : opcode (packI rs1' f rd' op imm) = op := opcode_packR ..

@[simp] theorem rd_packI : rd (packI rs1' f rd' op imm) = rd' := rd_packR ..

@[simp] theorem funct3_packI : funct3 (packI rs1' f rd' op imm) = f := funct3_packR ..

@[simp] theorem rs1_packI : rs1 (packI rs1' f rd' op imm) = rs1' := rs1_packR ..

@[simp] theorem opcode_packS : opcode (packS rs2' rs1' f op imm) = op := opcode_packR ..

@[simp] theorem funct3_packS : funct3 (packS rs2' rs1' f op imm) = f := funct3_packR ..

@[simp] theorem rs1_packS : rs1 (packS rs2' rs1' f op imm) = rs1' := rs1_packR ..

@[simp] theorem rs2_packS : rs2 (packS rs2' rs1' f op imm) = rs2' := rs2_packR ..

@[simp] theorem opcode_packB : opcode (packB rs2' rs1' f op offset) = op := opcode_packR ..

@[simp] theorem funct3_packB : funct3 (packB rs2' rs1' f op offset) = f := funct3_packR ..

@[simp] theorem rs1_packB : rs1 (packB rs2' rs1' f op offset) = rs1' := rs1_packR ..

@[simp] theorem rs2_packB : rs2 (packB rs2' rs1' f op offset) = rs2' := rs2_packR ..

end Rearranged

/-! ### Immediates of a packed word

The specification collects the pieces of an immediate in the order in which they
were laid out. -/

/-- An I-type immediate survives. -/
theorem immI_packI : immI (packI rs1' f rd' op imm) = imm.signExtend 32 := by
  refine congrArg (BitVec.signExtend 32) (BitVec.eq_of_getLsbD_eq fun i hi => ?_)
  simp only [packI, packR, BitVec.getLsbD_extractLsb', BitVec.getLsbD_append]
  interval_cases i <;> simp

/-- An S-type immediate survives. -/
theorem immS_packS : immS (packS rs2' rs1' f op imm) = imm.signExtend 32 := by
  refine congrArg (BitVec.signExtend 32) (BitVec.eq_of_getLsbD_eq fun i hi => ?_)
  simp only [packS, packR, BitVec.getLsbD_extractLsb', BitVec.getLsbD_append]
  interval_cases i <;> simp

/-- An even offset of a branch survives. -/
theorem immB_packB (heven : offset.getLsbD 0 = false) :
    immB (packB rs2' rs1' f op offset) = offset.signExtend 32 := by
  refine congrArg (BitVec.signExtend 32) (BitVec.eq_of_getLsbD_eq fun i hi => ?_)
  simp only [packB, packR, BitVec.getLsbD_extractLsb', BitVec.getLsbD_append]
  interval_cases i
  case «0» => simpa using heven.symm
  all_goals simp

/-- A U-type immediate survives. -/
theorem immU_packU : immU (packU rd' op upper) = upper ++ 0#12 := by
  refine congrArg (· ++ 0#12) (BitVec.eq_of_getLsbD_eq fun i hi => ?_)
  simp only [packU, BitVec.getLsbD_extractLsb', BitVec.getLsbD_append]
  interval_cases i <;> simp

/-- An even offset of a jump survives. -/
theorem immJ_packJ (heven : target.getLsbD 0 = false) :
    immJ (packJ rd' op target) = target.signExtend 32 := by
  refine congrArg (BitVec.signExtend 32) (BitVec.eq_of_getLsbD_eq fun i hi => ?_)
  simp only [packJ, BitVec.getLsbD_extractLsb', BitVec.getLsbD_append]
  interval_cases i
  case «0» => simpa using heven.symm
  all_goals simp

end Layouts

/-! ### Encodings -/

/-- The operands and the fixed fields, in the places that the format gives them. -/
def Format.encode (e : Encoding) : (format : Format) → format.Operands → Word
  | r, o => packR (e.funct7.getD 0#7) o.rs2 o.rs1 (e.funct3.getD 0#3) o.rd e.opcode
  | i, o => packI o.rs1 (e.funct3.getD 0#3) o.rd e.opcode o.imm
  | shift, o => packR (e.funct7.getD 0#7) o.shamt o.rs1 (e.funct3.getD 0#3) o.rd e.opcode
  | s, o => packS o.rs2 o.rs1 (e.funct3.getD 0#3) e.opcode o.imm
  | b, o => packB o.rs2 o.rs1 (e.funct3.getD 0#3) e.opcode o.offset.val
  | u, o => packU o.rd e.opcode o.imm
  | j, o => packJ o.rd e.opcode o.offset.val

/-- The word of an instruction. -/
def Insn.encode : Insn → Word
  | base m o => m.format.encode m.encoding o
  | ecall => 0x00000073#32
  | ebreak => 0x00100073#32

/-- The fixed fields that a format has room for. -/
def Format.Fixes (e : Encoding) : Format → Prop
  | r | shift => True
  | i | s | b => e.funct7 = none
  | u | j => e.funct3 = none ∧ e.funct7 = none

/-- The listings fix the fields that the format has. -/
theorem Mnemonic.fixes (m : Mnemonic) : m.format.Fixes m.encoding := by
  cases m <;> simp [format, encoding, Format.Fixes]

/-- What is encoded matches the fixed fields. -/
theorem Format.matches_encode {e : Encoding} {format : Format} (h : format.Fixes e)
    (o : format.Operands) : e.Matches (format.encode e o) := by
  have hgetD : ∀ {w : ℕ} {x : Option (BitVec w)} {v : BitVec w}, v ∈ x → x.getD 0#w = v := by
    rintro w x v hv
    rw [Option.mem_def.mp hv, Option.getD_some]
  cases format with
  | r | shift =>
    exact ⟨by simp [encode], fun f hf => by simp [encode, hgetD hf],
      fun f hf => by simp [encode, hgetD hf]⟩
  | i | s | b =>
    refine ⟨by simp [encode], fun f hf => ?_, fun f hf => ?_⟩
    · simp [encode, hgetD hf]
    · rw [show e.funct7 = none from h] at hf
      cases hf
  | u | j =>
    refine ⟨by simp [encode], fun f hf => ?_, fun f hf => ?_⟩
    · rw [h.1] at hf
      cases hf
    · rw [h.2] at hf
      cases hf

/-! ### The operands of a word -/

section Unpack

variable (w : Word)

theorem packR_fields : packR (funct7 w) (rs2 w) (rs1 w) (funct3 w) (rd w) (opcode w) = w := by
  refine BitVec.eq_of_getLsbD_eq fun i hi => ?_
  simp only [packR, funct7, rs2, rs1, funct3, rd, opcode, BitVec.getLsbD_extractLsb',
    BitVec.getLsbD_append]
  interval_cases i <;> simp

theorem packI_fields :
    packI (rs1 w) (funct3 w) (rd w) (opcode w) (w.extractLsb' 20 12) = w := by
  refine BitVec.eq_of_getLsbD_eq fun i hi => ?_
  simp only [packI, packR, rs1, funct3, rd, opcode, BitVec.getLsbD_extractLsb',
    BitVec.getLsbD_append]
  interval_cases i <;> simp

theorem packS_fields : packS (rs2 w) (rs1 w) (funct3 w) (opcode w)
    (w.extractLsb' 25 7 ++ w.extractLsb' 7 5) = w := by
  refine BitVec.eq_of_getLsbD_eq fun i hi => ?_
  simp only [packS, packR, rs2, rs1, funct3, opcode, BitVec.getLsbD_extractLsb',
    BitVec.getLsbD_append]
  interval_cases i <;> simp

theorem packB_fields : packB (rs2 w) (rs1 w) (funct3 w) (opcode w)
    (w.extractLsb' 31 1 ++ w.extractLsb' 7 1 ++ w.extractLsb' 25 6 ++ w.extractLsb' 8 4 ++
      0#1) = w := by
  refine BitVec.eq_of_getLsbD_eq fun i hi => ?_
  simp only [packB, packR, rs2, rs1, funct3, opcode, BitVec.getLsbD_extractLsb',
    BitVec.getLsbD_append]
  interval_cases i <;> simp

theorem packU_fields : packU (rd w) (opcode w) (w.extractLsb' 12 20) = w := by
  refine BitVec.eq_of_getLsbD_eq fun i hi => ?_
  simp only [packU, rd, opcode, BitVec.getLsbD_extractLsb', BitVec.getLsbD_append]
  interval_cases i <;> simp

theorem packJ_fields : packJ (rd w) (opcode w)
    (w.extractLsb' 31 1 ++ w.extractLsb' 12 8 ++ w.extractLsb' 20 1 ++ w.extractLsb' 21 10 ++
      0#1) = w := by
  refine BitVec.eq_of_getLsbD_eq fun i hi => ?_
  simp only [packJ, rd, opcode, BitVec.getLsbD_extractLsb', BitVec.getLsbD_append]
  interval_cases i <;> simp

theorem getLsbD_zero_append {n : ℕ} (x : BitVec n) : (x ++ 0#1).getLsbD 0 = false := by
  rw [BitVec.getLsbD_append]
  rfl

/-- The operands, from the places that the format gives them. -/
def Format.operandsOf : (format : Format) → format.Operands
  | r => { rd := rd w, rs1 := rs1 w, rs2 := rs2 w }
  | i => { rd := rd w, rs1 := rs1 w, imm := w.extractLsb' 20 12 }
  | shift => { rd := rd w, rs1 := rs1 w, shamt := shamt w }
  | s => { rs1 := rs1 w, rs2 := rs2 w, imm := w.extractLsb' 25 7 ++ w.extractLsb' 7 5 }
  | b =>
    { rs1 := rs1 w, rs2 := rs2 w
      offset := ⟨w.extractLsb' 31 1 ++ w.extractLsb' 7 1 ++ w.extractLsb' 25 6 ++
        w.extractLsb' 8 4 ++ 0#1, getLsbD_zero_append _⟩ }
  | u => { rd := rd w, imm := w.extractLsb' 12 20 }
  | j =>
    { rd := rd w
      offset := ⟨w.extractLsb' 31 1 ++ w.extractLsb' 12 8 ++ w.extractLsb' 20 1 ++
        w.extractLsb' 21 10 ++ 0#1, getLsbD_zero_append _⟩ }

end Unpack

/-- The fields that a format takes from the encoding are fixed there. -/
def Format.Needs (e : Encoding) : Format → Prop
  | r | shift => e.funct3 ≠ none ∧ e.funct7 ≠ none
  | i | s | b => e.funct3 ≠ none
  | u | j => True

/-- The listings fix all that the format leaves out of the operands. -/
theorem Mnemonic.needs (m : Mnemonic) : m.format.Needs m.encoding := by
  cases m <;> simp [format, encoding, Format.Needs]

/-- A word of the format is the encoding of its operands. -/
theorem Format.encode_operandsOf {e : Encoding} {format : Format} (h : format.Needs e) {w : Word}
    (hw : e.Matches w) : format.encode e (format.operandsOf w) = w := by
  have hgetD : ∀ {n : ℕ} {x : Option (BitVec n)} {v : BitVec n}, (∀ f ∈ x, v = f) → x ≠ none →
      x.getD 0#n = v := by
    rintro n (_ | f) v hv hx
    · exact absurd rfl hx
    · exact (hv f rfl).symm
  have hf := hgetD hw.funct3_eq
  have hf' := hgetD hw.funct7_eq
  cases format with
  | r | shift =>
    rw [encode, hf h.1, hf' h.2, ← hw.opcode_eq]
    exact packR_fields w
  | i =>
    rw [encode, hf h, ← hw.opcode_eq]
    exact packI_fields w
  | s =>
    rw [encode, hf h, ← hw.opcode_eq]
    exact packS_fields w
  | b =>
    rw [encode, hf h, ← hw.opcode_eq]
    exact packB_fields w
  | u =>
    rw [encode, ← hw.opcode_eq]
    exact packU_fields w
  | j =>
    rw [encode, ← hw.opcode_eq]
    exact packJ_fields w

/-- An instruction is encoded in one of the words that the specification assigns to it. -/
theorem Insn.encodes (m : Mnemonic) (o : m.format.Operands) : m.Encodes (base m o).encode :=
  m.format.matches_encode m.fixes o

end Rv32i
