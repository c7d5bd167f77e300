import Prot.DecodePatterns
import Prot.Lib.Rv32iEncode

/-!
# Decoding what was encoded

The decoder gives back the opcode, the registers and the immediate of every
instruction of the base set that the specification encodes, so no two
instructions are confused.

## Main results

* `encodes_iff_fits`: the encodings of the specification are the documented ones
* `decode_encode`: the decoder undoes the encoding
* `encode_decode`: the encoding undoes the decoder, on documented words
-/

namespace Prot.Isa

open Rv32i (Mnemonic Format Insn)

/-- The opcode of a mnemonic. -/
def opcodeOf : Mnemonic → Opcode
  | .lui => .kLUI | .auipc => .kAUIPC | .jal => .kJAL | .jalr => .kJALR
  | .beq => .kBEQ | .bne => .kBNE | .blt => .kBLT | .bge => .kBGE | .bltu => .kBLTU
  | .bgeu => .kBGEU
  | .lb => .kLB | .lh => .kLH | .lw => .kLW | .lbu => .kLBU | .lhu => .kLHU
  | .sb => .kSB | .sh => .kSH | .sw => .kSW
  | .addi => .kADDI | .slti => .kSLTI | .sltiu => .kSLTIU | .xori => .kXORI | .ori => .kORI
  | .andi => .kANDI | .slli => .kSLLI | .srli => .kSRLI | .srai => .kSRAI
  | .add => .kADD | .sub => .kSUB | .sll => .kSLL | .slt => .kSLT | .sltu => .kSLTU
  | .xor => .kXOR | .srl => .kSRL | .sra => .kSRA | .or => .kOR | .and => .kAND

/-- The instruction with the given operands, registers in a byte and immediates extended
to a word. -/
def ofOperands (opc : Opcode) : (format : Format) → format.Operands → Instruction
  | .r, o =>
    { opcode := opc, rd := o.rd.setWidth 8, rs1 := o.rs1.setWidth 8, rs2 := o.rs2.setWidth 8 }
  | .i, o =>
    { opcode := opc, rd := o.rd.setWidth 8, rs1 := o.rs1.setWidth 8, imm := o.imm.signExtend 32 }
  | .shift, o =>
    { opcode := opc, rd := o.rd.setWidth 8, rs1 := o.rs1.setWidth 8, imm := o.shamt.setWidth 32 }
  | .s, o =>
    { opcode := opc, rs1 := o.rs1.setWidth 8, rs2 := o.rs2.setWidth 8, imm := o.imm.signExtend 32 }
  | .b, o =>
    { opcode := opc, rs1 := o.rs1.setWidth 8, rs2 := o.rs2.setWidth 8
      imm := o.offset.val.signExtend 32 }
  | .u, o => { opcode := opc, rd := o.rd.setWidth 8, imm := o.imm ++ 0#12 }
  | .j, o => { opcode := opc, rd := o.rd.setWidth 8, imm := o.offset.val.signExtend 32 }

/-- The instruction as the simulator represents it. -/
def ofInsn : Insn → Instruction
  | .base m o => ofOperands (opcodeOf m) m.format o
  | .ecall => { opcode := .kECALL }
  | .ebreak => { opcode := .kEBREAK }

/-! ### The documented encodings

The patterns fix the fields that the specification fixes, so they describe the same words. -/

section Patterns

variable {op : BitVec 7} {f : BitVec 3} {f' : BitVec 7} {w : Word}

/-- The fixed fields are an opcode if the widest mask leaves just that. -/
theorem matches_opcode_iff :
    Rv32i.Encoding.Matches { opcode := op } w ↔ w &&& mask₂ = pack op 0#3 0#7 := by
  rw [and_mask₂_eq_iff]
  exact ⟨fun h => h.opcode_eq, fun h => ⟨h, nofun, nofun⟩⟩

/-- The fixed fields have a `funct3` if the first mask leaves just these. -/
theorem matches_funct3_iff :
    Rv32i.Encoding.Matches { opcode := op, funct3 := some f } w ↔
      w &&& mask₀ = pack op f 0#7 := by
  rw [and_mask₀_eq_iff]
  constructor
  · exact fun h => ⟨h.opcode_eq, h.funct3_eq f rfl⟩
  · rintro ⟨hop, hf⟩
    exact ⟨hop, fun _ h => by cases h; exact hf, nofun⟩

/-- The fixed fields have a `funct7` if the second mask leaves just these. -/
theorem matches_funct7_iff :
    Rv32i.Encoding.Matches { opcode := op, funct3 := some f, funct7 := some f' } w ↔
      w &&& mask₁ = pack op f f' := by
  rw [and_mask₁_eq_iff]
  constructor
  · exact fun h => ⟨h.opcode_eq, h.funct3_eq f rfl, h.funct7_eq f' rfl⟩
  · rintro ⟨hop, hf, hf'⟩
    exact ⟨hop, fun _ h => by cases h; exact hf, fun _ h => by cases h; exact hf'⟩

end Patterns

/-- A word encodes an instruction if it fits the pattern of its opcode. -/
theorem encodes_iff_fits {m : Mnemonic} {pattern : String}
    (hpattern : (opcodeOf m).pattern = some pattern) (w : Word) :
    m.Encodes w ↔ Fits pattern w := by
  cases m <;> cases hpattern
  case lui | auipc | jal => exact matches_opcode_iff.trans (fits_iff (by decide +kernel) w).symm
  case slli | srli | srai | add | sub | sll | slt | sltu | xor | srl | sra | or | and =>
    exact matches_funct7_iff.trans (fits_iff (by decide +kernel) w).symm
  all_goals exact matches_funct3_iff.trans (fits_iff (by decide +kernel) w).symm

/-! ### The decoder undoes the encoding -/

/-- How the decoder fills an instruction of each format. -/
def formatBuilder (opc : Opcode) : Format → Word → Instruction
  | .r => decodeR opc
  | .i => decodeI opc
  | .shift => decodeShift opc
  | .s => decodeS opc
  | .b => decodeB opc
  | .u => decodeU opc
  | .j => decodeJ opc

/-- The builder of an instruction is that of its format. -/
theorem builder_eq (m : Mnemonic) : builder m = formatBuilder (opcodeOf m) m.format := by
  cases m <;> rfl

section Fields

variable (w : Word)

/-- An operand is the field of the specification, in a byte. -/
theorem operand_eq {Msb Lsb : ℕ} {r : BitVec 5}
    (h : (operand Msb Lsb w).toNat = r.toNat) : operand Msb Lsb w = r.setWidth 8 :=
  BitVec.eq_of_toNat_eq (by rw [h, BitVec.toNat_setWidth_of_le (by decide)])

theorem rd_eq : operand 11 7 w = (Rv32i.rd w).setWidth 8 := operand_eq w (toNat_rd w)

theorem rs1_eq : operand 19 15 w = (Rv32i.rs1 w).setWidth 8 := operand_eq w (toNat_rs1 w)

theorem rs2_eq : operand 24 20 w = (Rv32i.rs2 w).setWidth 8 := operand_eq w (toNat_rs2 w)

theorem shamt_eq : piece 24 20 0 0 w = (Rv32i.shamt w).setWidth 32 := by
  rw [piece_eq w (by decide) (by decide), BitVec.shiftLeft_zero, BitVec.sshiftRight_zero]
  rfl

end Fields

/-- The decoder fills an instruction with the operands that were encoded. -/
theorem formatBuilder_encode (opc : Opcode) (e : Rv32i.Encoding) (format : Format)
    (o : format.Operands) :
    formatBuilder opc format (format.encode e o) = ofOperands opc format o := by
  cases format with
  | r => simp [formatBuilder, decodeR, ofOperands, Format.encode, rd_eq, rs1_eq, rs2_eq]
  | i =>
    simp [formatBuilder, decodeI, ofOperands, Format.encode, rd_eq, rs1_eq, immI_eq,
      Rv32i.immI_packI]
  | shift =>
    have hshamt : Rv32i.shamt = Rv32i.rs2 := rfl
    simp [formatBuilder, decodeShift, ofOperands, Format.encode, rd_eq, rs1_eq, shamt_eq, hshamt]
  | s =>
    simp [formatBuilder, decodeS, ofOperands, Format.encode, rs1_eq, rs2_eq, immS_eq,
      Rv32i.immS_packS]
  | b =>
    simp [formatBuilder, decodeB, ofOperands, Format.encode, rs1_eq, rs2_eq, immB_eq,
      Rv32i.immB_packB _ _ _ _ _ o.offset.even]
  | u => simp [formatBuilder, decodeU, ofOperands, Format.encode, rd_eq, immU_eq, Rv32i.immU_packU]
  | j =>
    simp [formatBuilder, decodeJ, ofOperands, Format.encode, rd_eq, immJ_eq,
      Rv32i.immJ_packJ _ _ _ o.offset.even]

/-- What was encoded is decoded. -/
theorem decode_encode_eq (i : Insn) : decode i.encode = some (ofInsn i) := by
  cases i with
  | base m o =>
    rw [decode_eq_builder (Insn.encodes m o), builder_eq]
    exact congrArg some (formatBuilder_encode (opcodeOf m) m.encoding m.format o)
  | ecall | ebreak => decide +kernel

/-! ### No two instructions are confused -/

theorem opcodeOf_injective : Function.Injective opcodeOf := by
  intro m m' h
  cases m <;> cases m' <;> first | rfl | nomatch h

theorem opcode_builder (m : Mnemonic) (w : Word) : (builder m w).opcode = opcodeOf m := by
  cases m <;> rfl

/-- A word encodes at most one instruction. -/
theorem encodes_unique {m m' : Mnemonic} {w : Word} (h : m.Encodes w) (h' : m'.Encodes w) :
    m = m' := by
  have hbuilder := Option.some.inj ((decode_eq_builder h).symm.trans (decode_eq_builder h'))
  refine opcodeOf_injective ?_
  rw [← opcode_builder m w, hbuilder, opcode_builder]

/-- Widening an operand loses nothing of it. -/
theorem ofOperands_injective (opc : Opcode) (format : Format) :
    Function.Injective (ofOperands opc format) := by
  intro o o' h
  cases format with
  | r =>
    obtain ⟨rd, rs1, rs2⟩ := o
    simp only [ofOperands, Instruction.mk.injEq, Bits.setWidth_inj _ _ (show 5 ≤ 8 by decide)] at h
    obtain ⟨-, rfl, rfl, rfl, -⟩ := h
    rfl
  | i =>
    obtain ⟨rd, rs1, imm⟩ := o
    simp only [ofOperands, Instruction.mk.injEq, Bits.setWidth_inj _ _ (show 5 ≤ 8 by decide),
      Bits.signExtend_inj _ _ (show 12 ≤ 32 by decide)] at h
    obtain ⟨-, rfl, -, rfl, rfl⟩ := h
    rfl
  | shift =>
    obtain ⟨rd, rs1, shamt⟩ := o
    simp only [ofOperands, Instruction.mk.injEq, Bits.setWidth_inj _ _ (show 5 ≤ 8 by decide),
      Bits.setWidth_inj _ _ (show 5 ≤ 32 by decide)] at h
    obtain ⟨-, rfl, -, rfl, rfl⟩ := h
    rfl
  | s =>
    obtain ⟨rs1, rs2, imm⟩ := o
    simp only [ofOperands, Instruction.mk.injEq, Bits.setWidth_inj _ _ (show 5 ≤ 8 by decide),
      Bits.signExtend_inj _ _ (show 12 ≤ 32 by decide)] at h
    obtain ⟨-, rfl, rfl, -, rfl⟩ := h
    rfl
  | b =>
    obtain ⟨rs1, rs2, offset⟩ := o
    simp only [ofOperands, Instruction.mk.injEq, Bits.setWidth_inj _ _ (show 5 ≤ 8 by decide),
      Bits.signExtend_inj _ _ (show 13 ≤ 32 by decide), ← Rv32i.Offset.ext_iff] at h
    obtain ⟨-, rfl, rfl, -, rfl⟩ := h
    rfl
  | u =>
    obtain ⟨rd, imm⟩ := o
    simp only [ofOperands, Instruction.mk.injEq, Bits.setWidth_inj _ _ (show 5 ≤ 8 by decide)] at h
    obtain ⟨-, -, -, rfl, himm⟩ := h
    obtain rfl := (BitVec.append_left_inj _).mp himm
    rfl
  | j =>
    obtain ⟨rd, offset⟩ := o
    simp only [ofOperands, Instruction.mk.injEq, Bits.setWidth_inj _ _ (show 5 ≤ 8 by decide),
      Bits.signExtend_inj _ _ (show 21 ≤ 32 by decide), ← Rv32i.Offset.ext_iff] at h
    obtain ⟨-, -, -, rfl, rfl⟩ := h
    rfl

theorem opcode_ofOperands (opc : Opcode) (format : Format) (o : format.Operands) :
    (ofOperands opc format o).opcode = opc := by
  cases format <;> rfl

theorem ofInsn_injective : Function.Injective ofInsn := by
  intro i i' h
  have hopcode := congrArg Instruction.opcode h
  cases i with
  | base m o =>
    rw [ofInsn, opcode_ofOperands] at hopcode
    cases i' with
    | base m' o' =>
      rw [ofInsn, opcode_ofOperands] at hopcode
      obtain rfl := opcodeOf_injective hopcode
      rw [ofOperands_injective _ _ h]
    | ecall | ebreak => cases m <;> cases hopcode
  | ecall | ebreak =>
    cases i' with
    | base m' o' =>
      rw [ofInsn, opcode_ofOperands] at hopcode
      cases m' <;> cases hopcode
    | ecall | ebreak => first | rfl | cases hopcode

/-- The decoder undoes the encoding, and no two instructions decode alike. -/
theorem decode_encode :
    (∀ i : Insn, decode i.encode = some (ofInsn i)) ∧
      ∀ i i' : Insn, i ≠ i' → decode i.encode ≠ decode i'.encode := by
  refine ⟨decode_encode_eq, fun i i' hne h => hne ?_⟩
  rw [decode_encode_eq, decode_encode_eq] at h
  exact ofInsn_injective (Option.some.inj h)

/-! ### Encoding what was decoded -/

section Encode

variable {w : Word} {i : Instruction}

/-- What the decoder reads of a word are its operands. -/
theorem formatBuilder_eq (opc : Opcode) (format : Format) (w : Word) :
    formatBuilder opc format w = ofOperands opc format (format.operandsOf w) := by
  cases format with
  | r => simp [formatBuilder, decodeR, ofOperands, Format.operandsOf, rd_eq, rs1_eq, rs2_eq]
  | i =>
    simp [formatBuilder, decodeI, ofOperands, Format.operandsOf, rd_eq, rs1_eq, immI_eq,
      Rv32i.immI]
  | shift =>
    simp [formatBuilder, decodeShift, ofOperands, Format.operandsOf, rd_eq, rs1_eq, shamt_eq]
  | s =>
    simp [formatBuilder, decodeS, ofOperands, Format.operandsOf, rs1_eq, rs2_eq, immS_eq,
      Rv32i.immS]
  | b =>
    simp [formatBuilder, decodeB, ofOperands, Format.operandsOf, rs1_eq, rs2_eq, immB_eq,
      Rv32i.immB]
  | u => simp [formatBuilder, decodeU, ofOperands, Format.operandsOf, rd_eq, immU_eq, Rv32i.immU]
  | j => simp [formatBuilder, decodeJ, ofOperands, Format.operandsOf, rd_eq, immJ_eq, Rv32i.immJ]

/-- What is built from a word are the operands of its format. -/
theorem builder_eq_ofInsn (m : Mnemonic) (w : Word) :
    builder m w = ofInsn (.base m (m.format.operandsOf w)) := by
  rw [builder_eq, formatBuilder_eq, ofInsn]

/-- A word with the opcode of an instruction, reserved or not, is decoded as one. -/
theorem eq_builder_of_decode {m : Mnemonic} (h : decode w = some i)
    (hopcode : i.opcode = opcodeOf m) : i = builder m w := by
  have hreserved : ∀ m', decode w = some (builder m' w) → i = builder m w := by
    intro m' h'
    obtain rfl := Option.some.inj (h.symm.trans h')
    rw [opcode_builder] at hopcode
    rw [opcodeOf_injective hopcode]
  by_cases hshift : IsReservedShift w
  · exact hreserved .slli (decode_eq_some_iff.mpr ⟨(mask₀, cases₀), by simp [switches],
      (_, decodeShift .kSLLI), by simp [cases₀],
      (and_mask₀_eq_iff w 0b0010011#7 0b001#3).mpr ⟨hshift.1, hshift.2.1⟩, rfl⟩)
  by_cases hjump : IsReservedJump w
  · exact hreserved .jalr (decode_eq_some_iff.mpr ⟨(mask₂, cases₂), by simp [switches],
      (_, decodeI .kJALR), by simp [cases₂], (and_mask₂_eq_iff w 0b1100111#7).mpr hjump.1, rfl⟩)
  · obtain ⟨pattern, hpattern⟩ := exists_pattern (wellFormed_of_decode h).isDecoded
    have hfits :=
      (decodes_to_iff_fits_of_not_reserved w hshift hjump hpattern).mp ⟨i, h, rfl⟩
    rw [hopcode] at hpattern
    have hencodes := (encodes_iff_fits hpattern w).mpr hfits
    exact Option.some.inj (h.symm.trans (decode_eq_builder hencodes))

/-- The mnemonic of an opcode, if it has operands. -/
def mnemonicOf : Opcode → Option Mnemonic
  | .kLUI => some .lui | .kAUIPC => some .auipc | .kJAL => some .jal | .kJALR => some .jalr
  | .kBEQ => some .beq | .kBNE => some .bne | .kBLT => some .blt | .kBGE => some .bge
  | .kBLTU => some .bltu | .kBGEU => some .bgeu
  | .kLB => some .lb | .kLH => some .lh | .kLW => some .lw | .kLBU => some .lbu
  | .kLHU => some .lhu
  | .kSB => some .sb | .kSH => some .sh | .kSW => some .sw
  | .kADDI => some .addi | .kSLTI => some .slti | .kSLTIU => some .sltiu | .kXORI => some .xori
  | .kORI => some .ori | .kANDI => some .andi | .kSLLI => some .slli | .kSRLI => some .srli
  | .kSRAI => some .srai
  | .kADD => some .add | .kSUB => some .sub | .kSLL => some .sll | .kSLT => some .slt
  | .kSLTU => some .sltu | .kXOR => some .xor | .kSRL => some .srl | .kSRA => some .sra
  | .kOR => some .or | .kAND => some .and
  | _ => none

/-- The instruction of an opcode has that opcode. -/
theorem opcodeOf_mnemonicOf {opc : Opcode} {m : Mnemonic} (h : mnemonicOf opc = some m) :
    opcodeOf m = opc := by
  cases opc <;> cases h <;> rfl

/-- The opcodes of the decoder that have no mnemonic. -/
theorem mnemonicOf_eq_none {opc : Opcode} (hdecoded : opc.isDecoded = true)
    (h : mnemonicOf opc = none) : opc = .kFENCE ∨ opc = .kECALL ∨ opc = .kEBREAK := by
  cases opc
  case kFENCE => exact .inl rfl
  case kECALL => exact .inr (.inl rfl)
  case kEBREAK => exact .inr (.inr rfl)
  all_goals first | (cases hdecoded; done) | cases h

/-- The calls have no operands. -/
theorem eq_of_decode_call {opc : Opcode} {label : Word}
    (hopc : labels.lookup opc = some (mask₃, label)) (h : decode w = some i)
    (hopcode : i.opcode = opc) : w = label := by
  have hlabel := (decodes_to_iff hopc w).mp ⟨i, h, hopcode⟩
  rwa [show mask₃ = BitVec.allOnes 32 from rfl, BitVec.and_allOnes] at hlabel

/-- All but a `FENCE` is an instruction of the specification. -/
theorem exists_ofInsn (h : decode w = some i) (hfence : i.opcode ≠ .kFENCE) :
    ∃ insn, ofInsn insn = i := by
  cases hm : mnemonicOf i.opcode with
  | some m =>
    exact ⟨_, (builder_eq_ofInsn m w).symm.trans
      (eq_builder_of_decode h (opcodeOf_mnemonicOf hm).symm).symm⟩
  | none =>
    rcases mnemonicOf_eq_none (wellFormed_of_decode h).isDecoded hm with
      hfence' | hecall | hebreak
    · exact absurd hfence' hfence
    · obtain rfl := eq_of_decode_call rfl h hecall
      exact ⟨.ecall, Option.some.inj ((decode_encode_eq .ecall).symm.trans h)⟩
    · obtain rfl := eq_of_decode_call rfl h hebreak
      exact ⟨.ebreak, Option.some.inj ((decode_encode_eq .ebreak).symm.trans h)⟩

/-- The specification assigns no reserved word to an instruction. -/
theorem followsPatterns_of_encodes {m : Mnemonic} (h : m.Encodes w) : FollowsPatterns w := by
  have hopcode : ∀ m', (∃ i, decode w = some i ∧ i.opcode = opcodeOf m') → m = m' := by
    rintro m' ⟨i, hdecode, hi⟩
    obtain rfl := Option.some.inj (hdecode.symm.trans (decode_eq_builder h))
    rw [opcode_builder] at hi
    exact opcodeOf_injective hi
  refine (followsPatterns_iff w).mpr ⟨fun ⟨hop, hf, hf'⟩ => ?_, fun ⟨hop, hf⟩ => ?_⟩
  · obtain rfl := hopcode .slli ((decodes_to_slli_iff w).mpr ⟨hop, hf⟩)
    exact hf' (h.funct7_eq _ rfl)
  · obtain rfl := hopcode .jalr ((decodes_to_jalr_iff w).mpr hop)
    exact hf (h.funct3_eq _ rfl)

/-- What is encoded follows the patterns. -/
theorem followsPatterns_encode (insn : Insn) : FollowsPatterns insn.encode := by
  cases insn with
  | base m o => exact followsPatterns_of_encodes (Insn.encodes m o)
  | ecall | ebreak =>
    exact (followsPatterns_iff _).mpr
      ⟨fun h => absurd h.1 (by decide), fun h => absurd h.1 (by decide)⟩

/-- A documented word is put together again from what it is decoded to. -/
theorem encode_eq_of_followsPatterns (h : decode w = some i) (hpatterns : FollowsPatterns w)
    {insn : Insn} (hinsn : ofInsn insn = i) : insn.encode = w := by
  cases insn with
  | base m o =>
    have hopcode : i.opcode = opcodeOf m := by
      rw [← hinsn, ofInsn, opcode_ofOperands]
    have hbuilder := eq_builder_of_decode h hopcode
    rw [builder_eq_ofInsn, ← hinsn] at hbuilder
    rw [ofInsn_injective hbuilder]
    refine Format.encode_operandsOf m.needs ?_
    obtain ⟨pattern, hpattern⟩ := exists_pattern (wellFormed_of_decode h).isDecoded
    have hfits := (hpatterns.opcode_iff _ pattern hpattern).mp ⟨i, h, rfl⟩
    rw [hopcode] at hpattern
    exact (encodes_iff_fits hpattern w).mpr hfits
  | ecall | ebreak =>
    have hopcode := congrArg Instruction.opcode hinsn.symm
    exact (eq_of_decode_call rfl h hopcode).symm

/-- All that is decoded, but a `FENCE`, is an instruction of the specification, and it is
encoded in the word that was decoded exactly if that word is documented. So no two documented
words are decoded alike, unless they are `FENCE`s. -/
theorem encode_decode (h : decode w = some i) :
    (i.opcode ≠ .kFENCE ↔ ∃ insn, ofInsn insn = i) ∧
      ∀ insn, ofInsn insn = i → (insn.encode = w ↔ FollowsPatterns w) := by
  refine ⟨⟨exists_ofInsn h, ?_⟩, fun insn hinsn => ⟨?_, fun hpatterns =>
    encode_eq_of_followsPatterns h hpatterns hinsn⟩⟩
  · rintro ⟨insn, rfl⟩
    cases insn with
    | base m o =>
      rw [ofInsn, opcode_ofOperands]
      cases m <;> nofun
    | ecall | ebreak => nofun
  · rintro rfl
    exact followsPatterns_encode insn

/-- `slli x1, x1, 0` with a bit of `funct7` set. -/
theorem encode_decode_reserved :
    ofInsn (.base .slli ({ rd := 1#5, rs1 := 1#5, shamt := 0#5 } : Rv32i.ShiftOperands)) =
        { opcode := .kSLLI, rd := 1#8, rs1 := 1#8 } ∧
      ¬ FollowsPatterns 0x02009093#32 := by
  refine ⟨rfl, fun hpatterns => ?_⟩
  have hencode := ((encode_decode (w := 0x02009093#32) rfl).2
    (.base .slli ({ rd := 1#5, rs1 := 1#5, shamt := 0#5 } : Rv32i.ShiftOperands)) rfl).mpr hpatterns
  exact absurd hencode (by decide)

end Encode

end Prot.Isa
