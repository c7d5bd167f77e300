import Prot.Isa

/-!
# The instruction decoder

`Instruction::decode` is four switches tried in turn, each on the word under its
own mask. A switch is a table of case labels here, and the six ways in which
the cases fill an instruction are the builders `decodeR` to `decodeJ`, with
`decodeShift` for the immediate shifts and `decodeFENCE`.
-/

namespace Prot.Isa

/-- `std::bit_cast<int32_t>(slice<Msb, Lsb>(word) << shl) >> sar`. -/
def piece (Msb Lsb shl sar : ℕ) (word : Word) : Word :=
  (slice Msb Lsb word <<< shl).sshiftRight sar

/-- A register field, narrowed to the byte that stores it. -/
def operand (Msb Lsb : ℕ) (word : Word) : Operand := (piece Msb Lsb 0 0 word).setWidth 8

/-- The labels of the register instructions. -/
def decodeR (opc : Opcode) (word : Word) : Instruction where
  opcode := opc
  rd := operand 11 7 word
  rs1 := operand 19 15 word
  rs2 := operand 24 20 word

/-- The labels of the instructions with an immediate of 12 bits. -/
def decodeI (opc : Opcode) (word : Word) : Instruction where
  opcode := opc
  rd := operand 11 7 word
  rs1 := operand 19 15 word
  imm := piece 31 31 31 20 word ||| piece 30 20 0 0 word

/-- The labels of the shifts by an immediate. -/
def decodeShift (opc : Opcode) (word : Word) : Instruction where
  opcode := opc
  rd := operand 11 7 word
  rs1 := operand 19 15 word
  imm := piece 24 20 0 0 word

/-- The label of `FENCE`, whose three fields are all put into the immediate. -/
def decodeFENCE (word : Word) : Instruction where
  opcode := .kFENCE
  imm := piece 31 28 0 0 word ||| piece 27 24 0 0 word ||| piece 23 20 0 0 word
  rs1 := operand 19 15 word
  rd := operand 11 7 word

/-- The labels of the stores. -/
def decodeS (opc : Opcode) (word : Word) : Instruction where
  opcode := opc
  imm := piece 31 31 31 20 word ||| piece 30 25 5 0 word ||| piece 11 7 0 0 word
  rs1 := operand 19 15 word
  rs2 := operand 24 20 word

/-- The labels of the branches. -/
def decodeB (opc : Opcode) (word : Word) : Instruction where
  opcode := opc
  imm := piece 31 31 31 19 word ||| piece 30 25 5 0 word ||| piece 11 8 1 0 word |||
    piece 7 7 11 0 word
  rs1 := operand 19 15 word
  rs2 := operand 24 20 word

/-- The labels of `LUI` and `AUIPC`. -/
def decodeU (opc : Opcode) (word : Word) : Instruction where
  opcode := opc
  rd := operand 11 7 word
  imm := piece 31 12 12 0 word

/-- The label of `JAL`. -/
def decodeJ (opc : Opcode) (word : Word) : Instruction where
  opcode := opc
  rd := operand 11 7 word
  imm := piece 31 31 31 11 word ||| piece 30 21 1 0 word ||| piece 20 20 11 0 word |||
    piece 19 12 12 0 word

/-- A case label with the code under it. -/
abbrev Case := Word × (Word → Instruction)

/-- `switch (word & mask)`. The first label that matches wins. -/
def switchOn (mask : Word) (cases : List Case) (word : Word) : Option Instruction :=
  (cases.lookup (word &&& mask)).map fun build => build word

/-- The first switch looks at the major opcode and `funct3`. -/
def mask₀ : Word := 0b111000001111111#32

/-- The labels of the first switch. -/
def cases₀ : List Case :=
  [(0b11#32, decodeI .kLB),
   (0b1000000000011#32, decodeI .kLH),
   (0b10000000000011#32, decodeI .kLW),
   (0b100000000000011#32, decodeI .kLBU),
   (0b101000000000011#32, decodeI .kLHU),
   (0b1111#32, decodeFENCE),
   (0b10011#32, decodeI .kADDI),
   (0b1000000010011#32, decodeShift .kSLLI),
   (0b10000000010011#32, decodeI .kSLTI),
   (0b11000000010011#32, decodeI .kSLTIU),
   (0b100000000010011#32, decodeI .kXORI),
   (0b110000000010011#32, decodeI .kORI),
   (0b111000000010011#32, decodeI .kANDI),
   (0b100011#32, decodeS .kSB),
   (0b1000000100011#32, decodeS .kSH),
   (0b10000000100011#32, decodeS .kSW),
   (0b1100011#32, decodeB .kBEQ),
   (0b1000001100011#32, decodeB .kBNE),
   (0b100000001100011#32, decodeB .kBLT),
   (0b101000001100011#32, decodeB .kBGE),
   (0b110000001100011#32, decodeB .kBLTU),
   (0b111000001100011#32, decodeB .kBGEU)]

/-- The second switch looks at `funct7` as well. -/
def mask₁ : Word := 0b11111110000000000111000001111111#32

/-- The labels of the second switch. -/
def cases₁ : List Case :=
  [(0b101000000010011#32, decodeShift .kSRLI),
   (0b1000000000000000101000000010011#32, decodeShift .kSRAI),
   (0b110011#32, decodeR .kADD),
   (0b1000000110011#32, decodeR .kSLL),
   (0b10000000110011#32, decodeR .kSLT),
   (0b11000000110011#32, decodeR .kSLTU),
   (0b100000000110011#32, decodeR .kXOR),
   (0b101000000110011#32, decodeR .kSRL),
   (0b110000000110011#32, decodeR .kOR),
   (0b111000000110011#32, decodeR .kAND),
   (0b1000000000000000000000000110011#32, decodeR .kSUB),
   (0b1000000000000000101000000110011#32, decodeR .kSRA)]

/-- The third switch looks at the major opcode only. -/
def mask₂ : Word := 0b1111111#32

/-- The labels of the third switch. -/
def cases₂ : List Case :=
  [(0b10111#32, decodeU .kAUIPC),
   (0b110111#32, decodeU .kLUI),
   (0b1100111#32, decodeI .kJALR),
   (0b1101111#32, decodeJ .kJAL)]

/-- The last switch looks at the whole word. -/
def mask₃ : Word := 0b11111111111111111111111111111111#32

/-- The labels of the last switch. -/
def cases₃ : List Case :=
  [(0b1110011#32, fun _ => { opcode := .kECALL }),
   (0b100000000000001110011#32, fun _ => { opcode := .kEBREAK })]

/-- `Instruction::decode`. -/
def decode (word : Word) : Option Instruction :=
  (switchOn mask₀ cases₀ word).or <| (switchOn mask₁ cases₁ word).or <|
    (switchOn mask₂ cases₂ word).or <| switchOn mask₃ cases₃ word

/-! ### Inverting the switches -/

/-- What is found in an association list is in it. -/
theorem mem_of_lookup {α β : Type} [BEq α] [LawfulBEq α] {a : α} {b : β} {l : List (α × β)}
    (h : l.lookup a = some b) : (a, b) ∈ l := by
  induction l with
  | nil => simp at h
  | cons p l ih =>
    obtain ⟨a', b'⟩ := p
    rw [List.lookup_cons] at h
    split at h
    · next heq =>
      obtain rfl := eq_of_beq heq
      obtain rfl := Option.some.inj h
      exact List.mem_cons_self
    · exact List.mem_cons_of_mem _ (ih h)

/-- A switch returns what one of its cases builds. -/
theorem exists_case_of_switchOn {mask word : Word} {cases : List Case} {i : Instruction}
    (h : switchOn mask cases word = some i) : ∃ c ∈ cases, i = c.2 word := by
  unfold switchOn at h
  obtain ⟨build, hlookup, rfl⟩ := Option.map_eq_some_iff.mp h
  exact ⟨_, mem_of_lookup hlookup, rfl⟩

/-- Whatever holds of everything the cases build holds of every decoded instruction. -/
theorem decode_induction {P : Instruction → Prop} {word : Word} {i : Instruction}
    (h : decode word = some i)
    (hcases : ∀ c ∈ cases₀ ++ cases₁ ++ cases₂ ++ cases₃, P (c.2 word)) : P i := by
  simp only [decode, Option.or_eq_some_iff] at h
  simp only [List.mem_append] at hcases
  rcases h with h | ⟨-, h | ⟨-, h | ⟨-, h⟩⟩⟩ <;>
    obtain ⟨c, hc, rfl⟩ := exists_case_of_switchOn h
  · exact hcases c (.inl (.inl (.inl hc)))
  · exact hcases c (.inl (.inl (.inr hc)))
  · exact hcases c (.inl (.inr hc))
  · exact hcases c (.inr hc)

/-! ### What decoding guarantees

The engines index register arrays and emit shifts with no check of their own. -/

/-- The immediate is a shift amount. -/
def Opcode.isShiftImm : Opcode → Bool
  | .kSLLI | .kSRLI | .kSRAI => true
  | _ => false

/-- The opcodes that some case of the decoder produces. -/
def Opcode.isDecoded : Opcode → Bool
  | .kPAUSE | .kSBREAK | .kSCALL | .kNumOpcodes => false
  | _ => true

/-- What every decoded instruction satisfies: its opcode is one that decoding yields, its
registers exist, and a shift amount is below the width. -/
structure Instruction.WellFormed (i : Instruction) : Prop where
  isDecoded : i.opcode.isDecoded = true
  rd_lt : i.rd.toNat < 32
  rs1_lt : i.rs1.toNat < 32
  rs2_lt : i.rs2.toNat < 32
  shamt_lt : i.opcode.isShiftImm = true → i.imm.toNat < 32

/-- A field of at most five bits names a register. -/
theorem toNat_operand_lt {Msb Lsb : ℕ} (hle : Lsb ≤ Msb) (hlt : Msb < 32) (hfive : Msb - Lsb < 5)
    (word : Word) : (operand Msb Lsb word).toNat < 32 := by
  have hslice := toNat_slice_lt hle hlt word
  have hpow : 2 ^ (Msb - Lsb + 1) ≤ 2 ^ 5 := Nat.pow_le_pow_right (by decide) (by omega)
  simp only [operand, piece, BitVec.shiftLeft_zero, BitVec.sshiftRight_zero, BitVec.toNat_setWidth]
  omega

section Builders

variable (word : Word)

theorem rd_field_lt : (operand 11 7 word).toNat < 32 :=
  toNat_operand_lt (by decide) (by decide) (by decide) word

theorem rs1_field_lt : (operand 19 15 word).toNat < 32 :=
  toNat_operand_lt (by decide) (by decide) (by decide) word

theorem rs2_field_lt : (operand 24 20 word).toNat < 32 :=
  toNat_operand_lt (by decide) (by decide) (by decide) word

theorem absent_field_lt : (0#8).toNat < 32 := by decide

theorem shamt_field_lt : (piece 24 20 0 0 word).toNat < 32 := by
  have hslice : (slice 24 20 word).toNat < 2 ^ (24 - 20 + 1) :=
    toNat_slice_lt (by decide) (by decide) word
  rw [piece, BitVec.shiftLeft_zero, BitVec.sshiftRight_zero]
  omega

/-- Only the immediate shifts need their immediate bounded. -/
theorem Instruction.WellFormed.of_not_isShiftImm {i : Instruction} (hd : i.opcode.isDecoded = true)
    (hs : i.opcode.isShiftImm = false) (hrd : i.rd.toNat < 32) (hrs1 : i.rs1.toNat < 32)
    (hrs2 : i.rs2.toNat < 32) : i.WellFormed :=
  ⟨hd, hrd, hrs1, hrs2, fun h => absurd (hs.symm.trans h) (by decide)⟩

variable {opc : Opcode} (hd : opc.isDecoded = true) (hs : opc.isShiftImm = false)

include hd in
theorem wellFormed_decodeShift : (decodeShift opc word).WellFormed :=
  ⟨hd, rd_field_lt word, rs1_field_lt word, absent_field_lt, fun _ => shamt_field_lt word⟩

include hd hs

theorem wellFormed_decodeR : (decodeR opc word).WellFormed :=
  .of_not_isShiftImm hd hs (rd_field_lt word) (rs1_field_lt word) (rs2_field_lt word)

theorem wellFormed_decodeI : (decodeI opc word).WellFormed :=
  .of_not_isShiftImm hd hs (rd_field_lt word) (rs1_field_lt word) absent_field_lt

theorem wellFormed_decodeS : (decodeS opc word).WellFormed :=
  .of_not_isShiftImm hd hs absent_field_lt (rs1_field_lt word) (rs2_field_lt word)

theorem wellFormed_decodeB : (decodeB opc word).WellFormed :=
  .of_not_isShiftImm hd hs absent_field_lt (rs1_field_lt word) (rs2_field_lt word)

theorem wellFormed_decodeU : (decodeU opc word).WellFormed :=
  .of_not_isShiftImm hd hs (rd_field_lt word) absent_field_lt absent_field_lt

theorem wellFormed_decodeJ : (decodeJ opc word).WellFormed :=
  .of_not_isShiftImm hd hs (rd_field_lt word) absent_field_lt absent_field_lt

end Builders

/-- Every decoded instruction is well formed. -/
theorem wellFormed_of_decode {word : Word} {i : Instruction} (h : decode word = some i) :
    i.WellFormed := by
  refine decode_induction h ?_
  simp only [cases₀, cases₁, cases₂, cases₃, List.cons_append, List.nil_append,
    List.forall_mem_cons, List.not_mem_nil, false_implies, implies_true, and_true]
  and_intros
  all_goals first
    | (with_reducible apply wellFormed_decodeR) <;> rfl
    | (with_reducible apply wellFormed_decodeI) <;> rfl
    | (with_reducible apply wellFormed_decodeShift) <;> rfl
    | (with_reducible apply wellFormed_decodeS) <;> rfl
    | (with_reducible apply wellFormed_decodeB) <;> rfl
    | (with_reducible apply wellFormed_decodeU) <;> rfl
    | (with_reducible apply wellFormed_decodeJ) <;> rfl
    | exact .of_not_isShiftImm rfl rfl (rd_field_lt word) (rs1_field_lt word) absent_field_lt
    | exact .of_not_isShiftImm rfl rfl absent_field_lt absent_field_lt absent_field_lt

end Prot.Isa
