import Prot.ExecEngine
import Prot.PlainMemory
import Prot.Rv32iDecode

/-!
# The interpreter implements the base instruction set

`CPUState.arch` forgets what the specification does not speak about: the
instruction counter, the end of the run and whatever a memory keeps besides its
bytes. The handlers are compared with the specification class by class, and a
step of the engine is then one instruction of the specification, counted.
-/

namespace Prot

open Isa Interpreter
open Rv32i (Mnemonic)

/-! ### Byte ranges -/

section Overwrite

/-- The bytes `mem` with the first `n` bytes of `f` put at `addr`. -/
def overwrite (mem : Addr → Byte) (addr : Addr) (f : ℕ → Byte) (n : ℕ) : Addr → Byte := fun x =>
  if InRange addr n x then f (x - addr).toNat else mem x

variable {mem : Addr → Byte} {addr : Addr} {f : ℕ → Byte}

theorem overwrite_zero : overwrite mem addr f 0 = mem :=
  funext fun x => if_neg (Nat.not_lt_zero (x - addr).toNat)

/-- A longer range is one more update. -/
theorem overwrite_succ {n : ℕ} (hn : n < 2 ^ 32) :
    overwrite mem addr f (n + 1) =
      Function.update (overwrite mem addr f n) (addr + BitVec.ofNat 32 n) (f n) := by
  funext x
  rw [Function.update_apply]
  by_cases hx : x = addr + BitVec.ofNat 32 n
  · have hoffset : (x - addr).toNat = n := by
      rw [hx, BitVec.add_comm, BitVec.add_sub_cancel, BitVec.toNat_ofNat, Nat.mod_eq_of_lt hn]
    simp only [if_pos hx, overwrite, InRange, hoffset, Nat.lt_succ_self, if_true]
  · have hoffset : (x - addr).toNat ≠ n := by
      rintro rfl
      refine hx ?_
      rw [BitVec.ofNat_toNat, BitVec.setWidth_eq, BitVec.add_comm, BitVec.sub_add_cancel]
    simp only [if_neg hx, overwrite, InRange]
    exact if_congr (by omega) rfl rfl

/-- A store overwrites the bytes of its range. -/
theorem byteAt_eq_overwrite {μ : Type} [Memory μ] [LawfulMemory μ] {T : MemTy} {m m' : μ}
    {v : BitVec T.bits} (h : Memory.write T m addr v = .ok m') :
    LawfulMemory.byteAt m' = overwrite (LawfulMemory.byteAt m) addr (byteOf v) T.bytes :=
  funext (LawfulMemory.byteAt_write h)

end Overwrite

section Arch

variable {μ : Type} [Memory μ] [LawfulMemory μ]

/-- The architectural state. -/
def CPUState.arch (s : CPUState μ) : Rv32i.State where
  regs r := s.getReg r.toNat
  pc := s.pc
  mem := LawfulMemory.byteAt s.memory

namespace CPUState

variable (s : CPUState μ)

theorem arch_setPC (p : Word) : (s.setPC p).arch = s.arch.jump p := rfl

/-- Writing a register is a write of the specification. Both drop a write to `x0`. -/
theorem arch_setReg (r : BitVec 5) (v : Word) :
    (s.setReg r.toNat v).arch = s.arch.write r v := by
  unfold Rv32i.State.write
  split_ifs with hr
  · subst hr
    rfl
  · have hne : r.toNat ≠ 0 := fun h => hr (BitVec.eq_of_toNat_eq h)
    refine Rv32i.State.ext (funext fun j => ?_) (s.setReg_pc _ v)
      (congrArg LawfulMemory.byteAt (s.setReg_memory _ v))
    change (s.setReg r.toNat v).getReg j.toNat = Function.update s.arch.regs r v j
    by_cases hj : j = r
    · subst hj
      rw [Function.update_self, setReg_of_ne _ _ hne, getReg_putReg_self _ _ j.isLt]
    · have hne' : r.toNat ≠ j.toNat := fun h => hj (BitVec.eq_of_toNat_eq h).symm
      rw [Function.update_of_ne hj, getReg_setReg_of_ne _ _ hne']
      rfl

variable {s}

/-- A register is that of the specification, which reads zero where the register file holds it. -/
theorem arch_x (hx0 : s.getReg 0 = 0#32) (r : BitVec 5) : s.arch.x r = s.getReg r.toNat := by
  unfold Rv32i.State.x
  split_ifs with hr
  · subst hr
    exact hx0.symm
  · rfl

/-! ### Memory -/

section Loads

variable {addr : Addr}

theorem arch_mem {v : Byte} (h : Memory.read .byte s.memory addr = .ok v) :
    s.arch.mem addr = v := by
  have hbyte := LawfulMemory.read_byte h (k := 0) (by decide)
  rw [show addr + BitVec.ofNat 32 0 = addr from BitVec.add_zero addr] at hbyte
  rw [← show byteOf v 0 = v from BitVec.extractLsb'_eq_self, hbyte]
  rfl

/-- Two bytes put together are the value that was read. -/
theorem arch_half {v : Half} (h : Memory.read .half s.memory addr = .ok v) :
    s.arch.half addr = v := by
  have hbyte (k : ℕ) (hk : k < 2) :
      s.arch.mem (addr + BitVec.ofNat 32 k) = byteOf v k := (LawfulMemory.read_byte h hk).symm
  have hlow := hbyte 0 (by decide)
  rw [show addr + BitVec.ofNat 32 0 = addr from BitVec.add_zero addr] at hlow
  rw [Rv32i.State.half, hlow, hbyte 1 (by decide)]
  refine BitVec.eq_of_getLsbD_eq fun i hi => ?_
  simp only [byteOf, BitVec.getLsbD_append, BitVec.getLsbD_extractLsb']
  interval_cases i <;> simp

/-- Four bytes put together are the value that was read. -/
theorem arch_word {v : Word} (h : Memory.read .word s.memory addr = .ok v) :
    s.arch.word addr = v := by
  have hbyte (k : ℕ) (hk : k < 4) :
      s.arch.mem (addr + BitVec.ofNat 32 k) = byteOf v k := (LawfulMemory.read_byte h hk).symm
  have hlow := hbyte 0 (by decide)
  rw [show addr + BitVec.ofNat 32 0 = addr from BitVec.add_zero addr] at hlow
  rw [Rv32i.State.word, hlow, hbyte 1 (by decide), hbyte 2 (by decide), hbyte 3 (by decide)]
  refine BitVec.eq_of_getLsbD_eq fun i hi => ?_
  simp only [byteOf, BitVec.getLsbD_append, BitVec.getLsbD_extractLsb']
  interval_cases i <;> simp

end Loads

section Stores

variable {addr : Addr} {memory : μ}

/-- A store of a byte is one update. -/
theorem arch_storeByte {v : Byte} (h : Memory.write .byte s.memory addr v = .ok memory) :
    arch { s with memory } = s.arch.storeByte addr v := by
  refine Rv32i.State.ext rfl rfl ?_
  have hbytes := byteAt_eq_overwrite h
  rw [MemTy.bytes, overwrite_succ (by decide), overwrite_zero] at hbytes
  rw [Rv32i.State.storeByte]
  simpa [byteOf, arch] using hbytes

theorem arch_storeHalf {v : Half} (h : Memory.write .half s.memory addr v = .ok memory) :
    arch { s with memory } = s.arch.storeHalf addr v := by
  refine Rv32i.State.ext rfl rfl ?_
  have hbytes := byteAt_eq_overwrite h
  rw [MemTy.bytes, overwrite_succ (by decide), overwrite_succ (by decide), overwrite_zero] at hbytes
  rw [Rv32i.State.storeHalf]
  simpa [byteOf, arch, Rv32i.State.storeByte] using hbytes

/-- A store of a word is two of halfwords. -/
theorem arch_storeWord {v : Word} (h : Memory.write .word s.memory addr v = .ok memory) :
    arch { s with memory } = s.arch.storeWord addr v := by
  refine Rv32i.State.ext rfl rfl ?_
  have hbytes := byteAt_eq_overwrite h
  rw [MemTy.bytes, overwrite_succ (by decide), overwrite_succ (by decide),
    overwrite_succ (by decide), overwrite_succ (by decide), overwrite_zero] at hbytes
  rw [Rv32i.State.storeWord]
  simpa (disch := decide) [byteOf, arch, Rv32i.State.storeHalf, Rv32i.State.storeByte,
    BitVec.add_assoc, Bits.extractLsb'_extractLsb'] using hbytes

end Stores

end CPUState

/-! ### Operations -/

section Operations

variable {x y : Word}

theorem compareOp_signedLess : compareOp signedLess x y = Rv32i.flag (x.slt y) := by
  rw [compareOp, signedLess]
  cases x.slt y <;> rfl

theorem compareOp_less : compareOp less x y = Rv32i.flag (x.ult y) := by
  rw [compareOp, show less x y = x.ult y from rfl]
  cases x.ult y <;> rfl

variable {z : BitVec 5} (h : (slice 4 0 y).toNat = z.toNat)

include h

theorem sllHelper_eq : sllHelper x y = x <<< z := by
  rw [sllHelper, BitVec.shiftLeft_eq', h, ← BitVec.shiftLeft_eq']

theorem srlHelper_eq : srlHelper x y = x >>> z := by
  rw [srlHelper, BitVec.ushiftRight_eq', h, ← BitVec.ushiftRight_eq']

theorem sraHelper_eq : sraHelper x y = x.sshiftRight' z := by
  rw [sraHelper, BitVec.sshiftRight_eq', h, ← BitVec.sshiftRight_eq']

end Operations

theorem toNat_slice_low (y : Word) : (slice 4 0 y).toNat = (y.extractLsb' 0 5).toNat := by
  rw [toNat_slice_four_zero, BitVec.extractLsb'_toNat]
  rfl

/-! ### Handlers -/

/-- The outcome of an instruction is the architectural state `σ`, and the rest
of the state `s` is as it was. -/
def Implements (s : CPUState μ) (σ : Rv32i.State) (r : EStateM.Result Exn (CPUState μ) Unit) :
    Prop :=
  ∃ s', r = .ok () s' ∧ s'.arch = σ ∧ s'.icount = s.icount ∧ s'.finished = s.finished ∧
    s'.m_ExitCode = s.m_ExitCode

section Handlers

variable {s : CPUState μ} {opc : Opcode} {w : Word}

theorem implements_write_jump (r : BitVec 5) (v p : Word) :
    Implements s ((s.arch.write r v).jump p) (.ok () ((s.setReg r.toNat v).setPC p)) := by
  refine ⟨_, rfl, ?_, by simp, by simp, by simp⟩
  rw [CPUState.arch_setPC, CPUState.arch_setReg]

theorem implements_write (r : BitVec 5) (v : Word) :
    Implements s (s.arch.write r v).next
      (.ok () ((s.setReg r.toNat v).setPC (s.pc + kWordSize))) := by
  rw [Rv32i.State.next, Rv32i.State.write_pc]
  exact implements_write_jump r v _

theorem implements_lui :
    Implements s (s.arch.write (Rv32i.rd w) (Rv32i.immU w)).next
      (InsnClass.lui.effect (decodeU opc w) s) := by
  simp only [InsnClass.effect, decodeU, toNat_rd, immU_eq]
  exact implements_write _ _

theorem implements_auipc :
    Implements s (s.arch.write (Rv32i.rd w) (s.pc + Rv32i.immU w)).next
      (InsnClass.auipc.effect (decodeU opc w) s) := by
  simp only [InsnClass.effect, decodeU, toNat_rd, immU_eq]
  exact implements_write _ _

theorem implements_jal :
    Implements s ((s.arch.write (Rv32i.rd w) (s.pc + 4#32)).jump (s.pc + Rv32i.immJ w))
      (InsnClass.jal.effect (decodeJ opc w) s) := by
  simp only [InsnClass.effect, decodeJ, toNat_rd, immJ_eq]
  exact implements_write_jump _ _ _

section Sources

variable (hx0 : s.getReg 0 = 0#32)

include hx0

theorem implements_jalr :
    Implements s ((s.arch.write (Rv32i.rd w) (s.pc + 4#32)).jump
        ((s.arch.x (Rv32i.rs1 w) + Rv32i.immI w) &&& ~~~1#32))
      (InsnClass.jalr.effect (decodeI opc w) s) := by
  simp only [InsnClass.effect, decodeI, toNat_rd, toNat_rs1, immI_eq, CPUState.arch_x hx0,
    Bits.and_not_one]
  exact implements_write_jump _ _ _

theorem implements_branch (cond : Word → Word → Bool) :
    Implements s (s.arch.branch (cond (s.arch.x (Rv32i.rs1 w)) (s.arch.x (Rv32i.rs2 w)))
        (Rv32i.immB w))
      ((InsnClass.branch cond).effect (decodeB opc w) s) := by
  simp only [InsnClass.effect, decodeB, toNat_rs1, toNat_rs2, immB_eq, CPUState.arch_x hx0]
  refine ⟨_, rfl, ?_, rfl, rfl, rfl⟩
  rw [CPUState.arch_setPC, Rv32i.State.branch]
  split_ifs <;> rfl

theorem implements_rr (op : Word → Word → Word) :
    Implements s (s.arch.write (Rv32i.rd w)
        (op (s.arch.x (Rv32i.rs1 w)) (s.arch.x (Rv32i.rs2 w)))).next
      ((InsnClass.rr op).effect (decodeR opc w) s) := by
  simp only [InsnClass.effect, decodeR, toNat_rd, toNat_rs1, toNat_rs2, CPUState.arch_x hx0]
  exact implements_write _ _

theorem implements_ri (op : Word → Word → Word) :
    Implements s (s.arch.write (Rv32i.rd w) (op (s.arch.x (Rv32i.rs1 w)) (Rv32i.immI w))).next
      ((InsnClass.ri op).effect (decodeI opc w) s) := by
  simp only [InsnClass.effect, decodeI, toNat_rd, toNat_rs1, immI_eq, CPUState.arch_x hx0]
  exact implements_write _ _

theorem implements_shift (op : Word → Word → Word) :
    Implements s (s.arch.write (Rv32i.rd w)
        (op (s.arch.x (Rv32i.rs1 w)) (piece 24 20 0 0 w))).next
      ((InsnClass.ri op).effect (decodeShift opc w) s) := by
  simp only [InsnClass.effect, decodeShift, toNat_rd, toNat_rs1, CPUState.arch_x hx0]
  exact implements_write _ _

/-- A load extends what it reads. -/
theorem implements_load {T : MemTy} {Signed : Bool} {v : BitVec T.bits}
    (h : Memory.read T s.memory (s.arch.x (Rv32i.rs1 w) + Rv32i.immI w) = .ok v) :
    Implements s (s.arch.write (Rv32i.rd w) (InsnClass.extend Signed v)).next
      ((InsnClass.load T Signed).effect (decodeI opc w) s) := by
  rw [CPUState.arch_x hx0] at h
  simp only [InsnClass.effect, decodeI, toNat_rd, toNat_rs1, immI_eq, h]
  exact implements_write _ _

/-- A store writes what is in the register. -/
theorem implements_store {T : MemTy} {memory : μ} {σ : Rv32i.State}
    (h : Memory.write T s.memory (s.arch.x (Rv32i.rs1 w) + Rv32i.immS w)
      ((s.arch.x (Rv32i.rs2 w)).setWidth T.bits) = .ok memory)
    (hσ : CPUState.arch { s with memory } = σ) :
    Implements s σ.next ((InsnClass.store T).effect (decodeS opc w) s) := by
  rw [CPUState.arch_x hx0, CPUState.arch_x hx0] at h
  simp only [InsnClass.effect, decodeS, toNat_rs1, toNat_rs2, immS_eq, h]
  refine ⟨_, rfl, ?_, rfl, rfl, rfl⟩
  rw [CPUState.arch_setPC, hσ, Rv32i.State.next, ← hσ]
  rfl

end Sources

end Handlers

/-! ### The instructions -/

section Instructions

variable (s : CPUState μ) (w : Word)

/-- A load of a `T` at the effective address of `w` goes through. -/
def LoadSucceeds (T : MemTy) : Prop :=
  ∃ v, Memory.read T s.memory (s.arch.x (Rv32i.rs1 w) + Rv32i.immI w) = .ok v

/-- A store of the low bits of `rs2` at the effective address of `w` goes through. -/
def StoreSucceeds (T : MemTy) : Prop :=
  ∃ memory, Memory.write T s.memory (s.arch.x (Rv32i.rs1 w) + Rv32i.immS w)
    ((s.arch.x (Rv32i.rs2 w)).setWidth T.bits) = .ok memory

/-- The access of the instruction, if it makes one, goes through. -/
def AccessSucceeds : Mnemonic → Prop
  | .lb | .lbu => LoadSucceeds s w .byte
  | .lh | .lhu => LoadSucceeds s w .half
  | .lw => LoadSucceeds s w .word
  | .sb => StoreSucceeds s w .byte
  | .sh => StoreSucceeds s w .half
  | .sw => StoreSucceeds s w .word
  | _ => True

variable {s w}

/-- Each handler has its operation in the words of the source. -/
theorem exists_implements (hx0 : s.getReg 0 = 0#32) {m : Mnemonic} (h : AccessSucceeds s w m) :
    ∃ k, (builder m w).opcode.insnClass = some k ∧
      Implements s (m.exec w s.arch) (k.effect (builder m w) s) := by
  cases m
  case lui => exact ⟨_, rfl, implements_lui⟩
  case auipc => exact ⟨_, rfl, implements_auipc⟩
  case jal => exact ⟨_, rfl, implements_jal⟩
  case jalr => exact ⟨_, rfl, implements_jalr hx0⟩
  case beq => exact ⟨_, rfl, implements_branch hx0 equalTo⟩
  case bne => exact ⟨_, rfl, implements_branch hx0 notEqualTo⟩
  case blt => exact ⟨_, rfl, implements_branch hx0 signedLess⟩
  case bge => exact ⟨_, rfl, implements_branch hx0 notSignedLess⟩
  case bltu => exact ⟨_, rfl, implements_branch hx0 less⟩
  case bgeu =>
    refine ⟨_, rfl, ?_⟩
    rw [Mnemonic.exec, ← greaterEqual_eq]
    exact implements_branch hx0 greaterEqual
  case lb =>
    obtain ⟨v, hread⟩ := h
    refine ⟨_, rfl, ?_⟩
    rw [Mnemonic.exec, CPUState.arch_mem hread, ← InsnClass.extend_true]
    exact implements_load hx0 hread
  case lh =>
    obtain ⟨v, hread⟩ := h
    refine ⟨_, rfl, ?_⟩
    rw [Mnemonic.exec, CPUState.arch_half hread, ← InsnClass.extend_true]
    exact implements_load hx0 hread
  case lw =>
    obtain ⟨v, hread⟩ := h
    refine ⟨_, rfl, ?_⟩
    rw [Mnemonic.exec, CPUState.arch_word hread, ← BitVec.setWidth_eq v, ← InsnClass.extend_false]
    exact implements_load hx0 hread
  case lbu =>
    obtain ⟨v, hread⟩ := h
    refine ⟨_, rfl, ?_⟩
    rw [Mnemonic.exec, CPUState.arch_mem hread, ← InsnClass.extend_false]
    exact implements_load hx0 hread
  case lhu =>
    obtain ⟨v, hread⟩ := h
    refine ⟨_, rfl, ?_⟩
    rw [Mnemonic.exec, CPUState.arch_half hread, ← InsnClass.extend_false]
    exact implements_load hx0 hread
  case sb =>
    obtain ⟨memory, hwrite⟩ := h
    exact ⟨_, rfl, implements_store hx0 hwrite (CPUState.arch_storeByte hwrite)⟩
  case sh =>
    obtain ⟨memory, hwrite⟩ := h
    exact ⟨_, rfl, implements_store hx0 hwrite (CPUState.arch_storeHalf hwrite)⟩
  case sw =>
    obtain ⟨memory, hwrite⟩ := h
    refine ⟨_, rfl, implements_store hx0 hwrite ?_⟩
    rw [BitVec.setWidth_eq] at hwrite
    exact CPUState.arch_storeWord hwrite
  case addi => exact ⟨_, rfl, implements_ri hx0 (· + ·)⟩
  case slti =>
    refine ⟨_, rfl, ?_⟩
    rw [Mnemonic.exec, ← compareOp_signedLess]
    exact implements_ri hx0 (compareOp signedLess)
  case sltiu =>
    refine ⟨_, rfl, ?_⟩
    rw [Mnemonic.exec, ← compareOp_less]
    exact implements_ri hx0 (compareOp less)
  case xori => exact ⟨_, rfl, implements_ri hx0 (· ^^^ ·)⟩
  case ori => exact ⟨_, rfl, implements_ri hx0 (· ||| ·)⟩
  case andi => exact ⟨_, rfl, implements_ri hx0 (· &&& ·)⟩
  case slli =>
    refine ⟨_, rfl, ?_⟩
    rw [Mnemonic.exec, ← sllHelper_eq (toNat_slice_shamt w)]
    exact implements_shift hx0 sllHelper
  case srli =>
    refine ⟨_, rfl, ?_⟩
    rw [Mnemonic.exec, ← srlHelper_eq (toNat_slice_shamt w)]
    exact implements_shift hx0 srlHelper
  case srai =>
    refine ⟨_, rfl, ?_⟩
    rw [Mnemonic.exec, ← sraHelper_eq (toNat_slice_shamt w)]
    exact implements_shift hx0 sraHelper
  case add => exact ⟨_, rfl, implements_rr hx0 (· + ·)⟩
  case sub => exact ⟨_, rfl, implements_rr hx0 (· - ·)⟩
  case sll =>
    refine ⟨_, rfl, ?_⟩
    rw [Mnemonic.exec, ← sllHelper_eq (toNat_slice_low _)]
    exact implements_rr hx0 sllHelper
  case slt =>
    refine ⟨_, rfl, ?_⟩
    rw [Mnemonic.exec, ← compareOp_signedLess]
    exact implements_rr hx0 (compareOp signedLess)
  case sltu =>
    refine ⟨_, rfl, ?_⟩
    rw [Mnemonic.exec, ← compareOp_less]
    exact implements_rr hx0 (compareOp less)
  case xor => exact ⟨_, rfl, implements_rr hx0 (· ^^^ ·)⟩
  case srl =>
    refine ⟨_, rfl, ?_⟩
    rw [Mnemonic.exec, ← srlHelper_eq (toNat_slice_low _)]
    exact implements_rr hx0 srlHelper
  case sra =>
    refine ⟨_, rfl, ?_⟩
    rw [Mnemonic.exec, ← sraHelper_eq (toNat_slice_low _)]
    exact implements_rr hx0 sraHelper
  case or => exact ⟨_, rfl, implements_rr hx0 (· ||| ·)⟩
  case and => exact ⟨_, rfl, implements_rr hx0 (· &&& ·)⟩

/-- The interpreter implements RV32I: a step at an encoding of a base instruction
is that instruction of the specification, with one more instruction counted. -/
theorem ExecEngine.step_implements {m : Mnemonic} (hm : m.Encodes w) (hx0 : s.getReg 0 = 0#32)
    (haligned : s.pc % kWordSize = 0#32) (hfetch : Memory.read32 s.memory s.pc = .ok w)
    (haccess : AccessSucceeds s w m) :
    ∃ s', ExecEngine.step.run s = .ok () s' ∧ s'.arch = m.exec w s.arch ∧
      s'.icount = s.icount + 1#64 ∧ s'.finished = s.finished ∧ s'.m_ExitCode = s.m_ExitCode := by
  obtain ⟨k, hk, s', heffect, harch, hicount, hfinished, hexit⟩ :=
    exists_implements hx0 haccess
  have hrun : (execute (builder m w)).run s = .ok () s' := (execute_eq_effect hk).trans heffect
  refine ⟨s'.incIcount, ?_, harch, ?_, hfinished, hexit⟩
  · rw [ExecEngine.step_eq_executeCounted haligned hfetch (decode_eq_builder hm), executeCounted,
      Stateful.run_seq_ok hrun]
    rfl
  · rw [CPUState.incIcount_icount, hicount]

end Instructions

/-! ### A store in plain memory -/

/-- `sh x2, -2(x1)` at address 0, with `x1` at 10. -/
def storeGuest : CPUState (PlainMemory 0#32 4096) where
  regs := ((Vector.replicate 32 0#32).set 1 10#32).set 2 0xABCD1234#32
  memory := { m_data := fun a => [0x23#8, 0x9F#8, 0x20#8, 0xFE#8].getD a 0#8 }

theorem ExecEngine.step_storeGuest :
    ∃ s', ExecEngine.step.run storeGuest = .ok () s' ∧
      s'.arch = Mnemonic.sh.exec 0xFE209F23#32 storeGuest.arch ∧ s'.icount = 1#64 ∧
      s'.finished = false ∧ s'.m_ExitCode = 0#32 :=
  ExecEngine.step_implements (m := .sh) (w := 0xFE209F23#32) (s := storeGuest)
    ⟨by decide, by decide, by decide⟩ (by decide) (by decide) rfl ⟨_, rfl⟩

end Arch

end Prot
