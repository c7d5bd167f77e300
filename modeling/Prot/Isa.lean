import Prot.Lib.Bits

/-!
# The instruction set seen by the simulator

Words, bit slices, sign extension, opcodes and decoded instructions, as
`isa.hh` declares them. Widths that are template parameters in the source are
natural-number parameters here; a call that the source rejects while compiling
(a slice past the top of the word) has no meaning and is never made.
-/

namespace Prot

/-- `std::byte`. -/
abbrev Byte := BitVec 8
/-- A half word, `std::uint16_t`. -/
abbrev Half := BitVec 16
/-- A machine word, `std::uint32_t`. -/
abbrev Word := BitVec 32
/-- `isa::Addr`. -/
abbrev Addr := Word
/-- The type of `Instruction::m_imm`. -/
abbrev Imm := BitVec 32
/-- The type of `CPUState::icount`. -/
abbrev Icount := BitVec 64
/-- `std::size_t` of the host. -/
abbrev SizeT := BitVec 64

/-- Register operands are stored in one byte, although only five bits of them
are ever decoded. -/
abbrev Operand := BitVec 8

/-- `sizeof(Word)`. -/
def kWordSize : Word := 4#32

/-- What ends a computation early: an exception the source throws, a failed
assertion, or a step to which the language gives no meaning. -/
inductive Exn where
  /-- `Misaligned PC detected`. -/
  | misalignedPC (pc : Word)
  /-- `Undefined instruction on decode`. -/
  | undefinedInstruction (bytes : Word)
  /-- `Cannot decode bytes … on pc …`. -/
  | cannotDecode (bytes pc : Word)
  /-- `Failed to translate BB on pc`. -/
  | failedToTranslate (pc : Word)
  /-- `Unknown syscall w/ num`. -/
  | unknownSyscall (num : Word)
  /-- `Too high sys call arg number`. -/
  | tooHighSysCallArg (num : ℕ)
  /-- `Unexpected opcode`, from the opcode classifiers. -/
  | unexpectedOpcode
  /-- `Unexpected insn id`, from the translators. -/
  | unexpectedInsnId
  /-- `Bad opcode`, from `generateLoad`. -/
  | badOpcode
  /-- `Bad store insn`, from `generateStore`. -/
  | badStoreInsn
  /-- A memory access that the memory rejects. -/
  | badAccess (addr : Addr) (size : ℕ)
  | assertionFailed
  | undefinedBehaviour
  /-- A value without meaning in the intermediate representation. -/
  | poison
  deriving DecidableEq, Repr

namespace Isa

/-! ### Masks and slices -/

section Slices

variable {T : ℕ}

/-- `ones<T>(Num)`: the `Num` lowest bits are set. -/
def ones (T Num : ℕ) : BitVec T :=
  if Num = T then ~~~0#T else (1#T <<< Num) - 1#T

/-- `getMask<Msb, Lsb>`: the bits from `Lsb` to `Msb` are set. -/
def getMask (T Msb Lsb : ℕ) : BitVec T :=
  ones T (Msb - Lsb + 1) <<< Lsb

/-- `slice<Msb, Lsb>`: the bits from `Lsb` to `Msb`, moved to the bottom. -/
def slice (Msb Lsb : ℕ) (word : BitVec T) : BitVec T :=
  (word &&& getMask T Msb Lsb) >>> Lsb

/-- The type is never too narrow for the mask. -/
theorem ones_eq {Num : ℕ} (h : Num ≤ T) : ones T Num = BitVec.ofNat T (2 ^ Num - 1) := by
  unfold ones
  split_ifs with hfull
  · subst hfull
    exact BitVec.eq_of_toNat_eq (by simp)
  · exact Bits.one_shiftLeft_sub_one (by omega)

/-- A slice is the field between its two bounds, moved to the bottom of the word. -/
theorem slice_eq {Msb Lsb : ℕ} (hle : Lsb ≤ Msb) (hlt : Msb < T) (word : BitVec T) :
    slice Msb Lsb word = (word.extractLsb' Lsb (Msb - Lsb + 1)).setWidth T := by
  ext i hi
  simp only [slice, getMask, BitVec.getElem_ushiftRight, BitVec.getLsbD_and,
    BitVec.getLsbD_shiftLeft, ones_eq (by omega : Msb - Lsb + 1 ≤ T),
    Bits.ofNat_two_pow_sub_one_getLsbD, BitVec.getElem_setWidth, BitVec.getLsbD_extractLsb']
  rw [Nat.add_sub_cancel_left]
  by_cases hfield : i < Msb - Lsb + 1
  · have hin : Lsb + i < T := by omega
    simp [hfield, hin, hi]
  · simp [hfield]

/-- A slice is as short as its field. -/
theorem toNat_slice_lt {Msb Lsb : ℕ} (hle : Lsb ≤ Msb) (hlt : Msb < T) (word : BitVec T) :
    (slice Msb Lsb word).toNat < 2 ^ (Msb - Lsb + 1) := by
  rw [slice_eq hle hlt, BitVec.toNat_setWidth]
  exact Nat.lt_of_le_of_lt (Nat.mod_le _ _) (BitVec.isLt _)

/-- The shift amount in a word. -/
theorem toNat_slice_four_zero (word : Word) : (slice 4 0 word).toNat = word.toNat % 32 := by
  rw [slice_eq (by decide) (by decide)]
  simp only [BitVec.toNat_setWidth, BitVec.extractLsb'_toNat]
  omega

end Slices

/-- `signExtend<NewSize, OldSize>`. -/
def signExtend {T : ℕ} (NewSize OldSize : ℕ) (val : BitVec T) : BitVec T :=
  if NewSize = OldSize then val
  else
    let zeroed := slice (OldSize - 1) 0 val
    let mask := 1#T <<< (OldSize - 1)
    let res := (zeroed ^^^ mask) - mask
    slice (NewSize - 1) 0 res

/-- The xor-and-subtract code is two's-complement sign extension of the low
`OldSize` bits to `NewSize` bits. -/
theorem signExtend_eq {T NewSize OldSize : ℕ} (hpos : 0 < OldSize) (hlt : OldSize < NewSize)
    (hle : NewSize ≤ T) (val : BitVec T) :
    signExtend NewSize OldSize val =
      ((val.setWidth OldSize).signExtend NewSize).setWidth T := by
  have hzeroed : slice (OldSize - 1) 0 val = (val.setWidth OldSize).setWidth T := by
    rw [slice_eq (Nat.zero_le _) (by omega), Nat.sub_zero, Nat.sub_add_cancel hpos,
      ← BitVec.setWidth_eq_extractLsb' (by omega : OldSize ≤ T)]
  have hnew : NewSize - 1 - 0 + 1 = NewSize := by omega
  simp only [signExtend, if_neg (Nat.ne_of_gt hlt), hzeroed,
    Bits.xor_sub_eq_signExtend (val.setWidth OldSize) hpos (by omega : OldSize ≤ T)]
  rw [slice_eq (Nat.zero_le _) (by omega), hnew]
  congr 1
  ext i hi
  simp [BitVec.getElem_signExtend, show i < T by omega]

/-- `signedLess`. -/
def signedLess (lhs rhs : Word) : Bool := lhs.slt rhs

/-! ### Opcodes -/

/-- The opcodes. A few of them are never decoded to. -/
inductive Opcode where
  | kADD | kADDI | kAND | kANDI | kAUIPC
  | kBEQ | kBGE | kBGEU | kBLT | kBLTU | kBNE
  | kEBREAK | kECALL | kFENCE
  | kJAL | kJALR
  | kLB | kLBU | kLH | kLHU | kLUI | kLW
  | kOR | kORI | kPAUSE
  | kSB | kSBREAK | kSCALL | kSH
  | kSLL | kSLLI | kSLT | kSLTI | kSLTIU | kSLTU
  | kSRA | kSRAI | kSRL | kSRLI | kSUB | kSW
  | kXOR | kXORI
  | kNumOpcodes
  deriving DecidableEq, Repr

/-- Does an instruction end a basic block? -/
def isTerminator (opc : Opcode) : Except Exn Bool :=
  if opc = .kNumOpcodes then throw .unexpectedOpcode
  else
    match opc with
    | .kBEQ | .kBGE | .kBGEU | .kBLT | .kBLTU | .kBNE
    | .kEBREAK | .kECALL | .kFENCE | .kJAL | .kJALR => pure true
    | _ => pure false

/-- Does an instruction write `pc` itself, so that nobody advances it? -/
def changesPC (opc : Opcode) : Except Exn Bool :=
  if opc = .kNumOpcodes then throw .unexpectedOpcode
  else
    match opc with
    | .kBEQ | .kBGE | .kBGEU | .kBLT | .kBLTU | .kBNE | .kJAL | .kJALR => pure true
    | _ => pure false

/-- A decoded instruction. Operands that its format lacks are zero. -/
structure Instruction where
  opcode : Opcode
  rs1 : Operand := 0#8
  rs2 : Operand := 0#8
  rd : Operand := 0#8
  imm : Imm := 0#32
  deriving DecidableEq, Repr

end Isa

end Prot
