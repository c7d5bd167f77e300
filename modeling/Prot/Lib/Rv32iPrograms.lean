import Prot.Lib.Rv32iEncode
import Prot.Lib.Rv32iRuns
import Prot.Lib.Triple

/-!
# Verifying RV32I programs

A program is a list of instructions at an address. It runs within a set of addresses that
it does not store to, so what is proved about its words once holds for the whole run.

## Main definitions

* `StepIn`: a step within the code
* `Program`: the instructions are in memory, within the code

## Main results

* `StepIn.mem_eq`: the code is not changed
* `Program.stepIn`: the instruction at `pc` is executed
* `isRun_of_steps`: from the triples to the runs of the specification
-/

namespace Rv32i

open Hoare

/-! ### What an instruction changes -/

namespace State

variable (σ : State) (r : BitVec 5) (v target a : Word)

@[simp] theorem write_mem : (σ.write r v).mem = σ.mem := by
  unfold write; split <;> rfl

@[simp] theorem jump_mem : (σ.jump target).mem = σ.mem := rfl

@[simp] theorem jump_x : (σ.jump target).x r = σ.x r := rfl

@[simp] theorem jump_pc : (σ.jump target).pc = target := rfl

@[simp] theorem next_mem : σ.next.mem = σ.mem := rfl

@[simp] theorem next_x : σ.next.x r = σ.x r := rfl

@[simp] theorem next_pc : σ.next.pc = σ.pc + 4#32 := rfl

@[simp] theorem branch_mem (taken : Bool) : (σ.branch taken a).mem = σ.mem := by
  unfold branch; split <;> rfl

/-- Register 0 reads as zero. -/
@[simp] theorem x_zero : σ.x 0#5 = 0#32 := if_pos rfl

variable {σ r}

/-- A write is read back, except from register 0. -/
theorem x_write_self (h : r ≠ 0#5) : (σ.write r v).x r = v := by
  rw [write, if_neg h, x, if_neg h]
  exact Function.update_self ..

/-- A write leaves the other registers alone. -/
theorem x_write_of_ne {s : BitVec 5} (h : s ≠ r) : (σ.write r v).x s = σ.x s := by
  rw [write]
  split
  · rfl
  · simp only [x, Function.update_of_ne h]

variable {v a} {x : Word}

theorem storeByte_mem_of_not_within {b : BitVec 8} (h : ¬ Within a 1 x) :
    (σ.storeByte a b).mem x = σ.mem x := by
  refine Function.update_of_ne ?_ _ _
  rintro rfl
  exact h (by simp [Within])

theorem storeHalf_mem_of_not_within {b : BitVec 16} (h : ¬ Within a 2 x) :
    (σ.storeHalf a b).mem x = σ.mem x := by
  rw [Within, BitVec.toNat_sub] at h
  rw [storeHalf, storeByte_mem_of_not_within, storeByte_mem_of_not_within]
  · rw [Within, BitVec.toNat_sub]
    omega
  · rw [Within, BitVec.toNat_sub, BitVec.toNat_add]
    have ha := a.isLt
    have hx := x.isLt
    simp only [BitVec.toNat_ofNat]
    omega

theorem storeWord_mem_of_not_within {b : Word} (h : ¬ Within a 4 x) :
    (σ.storeWord a b).mem x = σ.mem x := by
  rw [Within, BitVec.toNat_sub] at h
  rw [storeWord, storeHalf_mem_of_not_within, storeHalf_mem_of_not_within]
  · rw [Within, BitVec.toNat_sub]
    omega
  · rw [Within, BitVec.toNat_sub, BitVec.toNat_add]
    have ha := a.isLt
    have hx := x.isLt
    simp only [BitVec.toNat_ofNat]
    omega

end State

/-- An instruction changes only the bytes that it stores. -/
theorem Mnemonic.exec_mem_of_not_within {m : Mnemonic} {σ : State} {x : Word}
    (h : ∀ b ∈ m.storeBytes, ¬ Within σ.storeAddr b x) :
    (m.exec σ.fetched σ).mem x = σ.mem x := by
  cases m
  case sb => exact State.storeByte_mem_of_not_within (h 1 rfl)
  case sh => exact State.storeHalf_mem_of_not_within (h 2 rfl)
  case sw => exact State.storeWord_mem_of_not_within (h 4 rfl)
  all_goals simp [Mnemonic.exec]

/-! ### Steps within the code -/

/-- One instruction of a program whose words are all in `code`, where it stores nothing. The
predicate says which instructions may be executed in which state. -/
structure StepIn (code : Set Word) (ok : Mnemonic → State → Prop) (σ σ' : State) : Prop where
  aligned : σ.pc % 4#32 = 0#32
  inside : ∀ x, Within σ.pc 4 x → x ∈ code
  exec : ∃ m : Mnemonic, m.Encodes σ.fetched ∧ m.InSpace σ ∧ ok m σ ∧
    (∀ b ∈ m.storeBytes, ∀ x, Within σ.storeAddr b x → x ∉ code) ∧ σ' = m.exec σ.fetched σ

variable {code : Set Word} {ok : Mnemonic → State → Prop} {σ σ' : State} {n : ℕ}

/-- The code is not changed. -/
theorem StepIn.mem_eq (h : StepIn code ok σ σ') {x : Word} (hx : x ∈ code) :
    σ'.mem x = σ.mem x := by
  obtain ⟨-, -, m, -, -, -, hspares, rfl⟩ := h
  exact Mnemonic.exec_mem_of_not_within fun b hb hwithin => hspares b hb x hwithin hx

/-! ### Programs -/

/-- The little-endian word at an address. -/
def wordOf (mem : Word → BitVec 8) (a : Word) : Word :=
  mem (a + 3#32) ++ mem (a + 2#32) ++ mem (a + 1#32) ++ mem a

/-- The instructions are in memory from `a` on, and within the code. -/
structure Program (code : Set Word) (a : Word) (insns : List Insn) (mem : Word → BitVec 8) :
    Prop where
  aligned : a % 4#32 = 0#32
  inside : ∀ k < insns.length, ∀ x, Within (a + BitVec.ofNat 32 (4 * k)) 4 x → x ∈ code
  word_eq : ∀ k (hk : k < insns.length),
    wordOf mem (a + BitVec.ofNat 32 (4 * k)) = insns[k].encode

namespace Program

variable {a : Word} {insns : List Insn} {mem mem' : Word → BitVec 8} {k : ℕ}

/-- The bytes of a word. -/
theorem wordOf_congr (h : ∀ x, Within a 4 x → mem' x = mem x) : wordOf mem' a = wordOf mem a := by
  have hbyte : ∀ i < 4, mem' (a + BitVec.ofNat 32 i) = mem (a + BitVec.ofNat 32 i) := by
    intro i hi
    refine h _ ?_
    rw [Within, BitVec.add_comm, BitVec.add_sub_cancel, BitVec.toNat_ofNat]
    omega
  have hzero := hbyte 0 (by decide)
  rw [BitVec.add_zero] at hzero
  rw [wordOf, wordOf, hbyte 3 (by decide), hbyte 2 (by decide), hbyte 1 (by decide), hzero]

/-- A program stays where it is. -/
theorem of_mem_eq (h : Program code a insns mem) (hmem : ∀ x ∈ code, mem' x = mem x) :
    Program code a insns mem' where
  aligned := h.aligned
  inside := h.inside
  word_eq k hk := by
    rw [← h.word_eq k hk]
    exact wordOf_congr fun x hx => hmem x (h.inside k hk x hx)

/-- The instructions of a program are aligned. -/
theorem add_aligned (h : Program code a insns mem) (k : ℕ) :
    (a + BitVec.ofNat 32 (4 * k)) % 4#32 = 0#32 := by
  have haligned := congrArg BitVec.toNat h.aligned
  refine BitVec.eq_of_toNat_eq ?_
  rw [BitVec.toNat_umod] at haligned ⊢
  rw [BitVec.toNat_add, BitVec.toNat_ofNat]
  change a.toNat % 4 = 0 at haligned
  change _ % 4 = 0
  omega

/-- What is fetched inside a program is its instruction there. -/
theorem fetched_eq (h : Program code a insns σ.mem) {insn : Insn} (hk : insns[k]? = some insn)
    (hpc : σ.pc = a + BitVec.ofNat 32 (4 * k)) : σ.fetched = insn.encode := by
  obtain ⟨hlt, rfl⟩ := List.getElem?_eq_some_iff.mp hk
  rw [State.fetched, hpc]
  exact h.word_eq k hlt

/-- The instruction at `pc` is executed. -/
theorem stepIn (h : Program code a insns σ.mem) {m : Mnemonic} {o : m.format.Operands}
    (hk : insns[k]? = some (.base m o)) (hpc : σ.pc = a + BitVec.ofNat 32 (4 * k))
    (hspace : m.InSpace σ) (hok : ok m σ)
    (hspares : ∀ b ∈ m.storeBytes, ∀ x, Within σ.storeAddr b x → x ∉ code) :
    StepIn code ok σ (m.exec (Insn.base m o).encode σ) := by
  have hfetched := h.fetched_eq hk hpc
  obtain ⟨hlt, -⟩ := List.getElem?_eq_some_iff.mp hk
  refine ⟨hpc ▸ h.add_aligned k, hpc ▸ h.inside k hlt, m, ?_, hspace, hok, hspares, ?_⟩
  · rw [hfetched]
    exact Insn.encodes m o
  · rw [hfetched]

end Program

/-! ### Straight-line code -/

/-- `li rd, imm`, for an immediate of 12 bits. -/
def li (rd : BitVec 5) (imm : BitVec 12) : Insn :=
  .base .addi ({ rd, rs1 := 0#5, imm } : IOperands)

/-- `addi x0, x0, 0`. -/
def nop : Insn := li 0#5 0#12

/-- `jal label`, which links in `ra`. -/
def jal (offset : Offset 21) : Insn := .base .jal ({ rd := 1#5, offset } : JOperands)

namespace Program

variable {a : Word} {insns : List Insn} {k : ℕ}

theorem stepIn_li (h : Program code a insns σ.mem) {rd : BitVec 5} {imm : BitVec 12}
    (hk : insns[k]? = some (li rd imm)) (hpc : σ.pc = a + BitVec.ofNat 32 (4 * k))
    (hok : ok .addi σ) : StepIn code ok σ (σ.write rd (imm.signExtend 32)).next := by
  have hstep := h.stepIn (m := .addi) hk hpc ⟨nofun, nofun⟩ hok nofun
  simpa [Mnemonic.exec, Insn.encode, Format.encode, Mnemonic.format, immI_packI] using hstep

theorem stepIn_jal (h : Program code a insns σ.mem) {offset : Offset 21}
    (hk : insns[k]? = some (jal offset)) (hpc : σ.pc = a + BitVec.ofNat 32 (4 * k))
    (hok : ok .jal σ) :
    StepIn code ok σ
      ((σ.write 1#5 (σ.pc + 4#32)).jump (σ.pc + offset.val.signExtend 32)) := by
  have hstep := h.stepIn (m := .jal) hk hpc ⟨nofun, nofun⟩ hok nofun
  simpa [Mnemonic.exec, Insn.encode, Format.encode, Mnemonic.format,
    immJ_packJ _ _ _ offset.even] using hstep

theorem stepIn_nop (h : Program code a insns σ.mem) (hk : insns[k]? = some nop)
    (hpc : σ.pc = a + BitVec.ofNat 32 (4 * k)) (hok : ok .addi σ) :
    StepIn code ok σ σ.next := by
  have hstep := h.stepIn_li hk hpc hok
  rwa [State.write, if_pos rfl] at hstep

end Program

/-- The next instruction of a program. -/
theorem pc_next {a : Word} {k : ℕ} (hpc : σ.pc = a + BitVec.ofNat 32 (4 * k)) :
    σ.next.pc = a + BitVec.ofNat 32 (4 * (k + 1)) := by
  rw [State.next_pc, hpc, BitVec.add_assoc, Nat.mul_succ, BitVec.ofNat_add]

/-! ### Runs of the specification -/

/-- What is proved by triples is a run of the specification. -/
theorem exists_isRun_of_steps (h : Steps (StepIn code ok) n σ σ') (haligned : σ'.pc % 4#32 = 0#32) :
    ∃ trace, trace 0 = σ ∧ trace n = σ' ∧ IsRun trace n ∧
      ∀ k < n, StepIn code ok (trace k) (trace (k + 1)) := by
  obtain ⟨trace, hfirst, hlast, htrace⟩ := h.exists_trace
  refine ⟨trace, hfirst, hlast, ⟨fun k hk => ?_, fun k hk => ?_⟩, htrace⟩
  · rcases hk.lt_or_eq with hlt | rfl
    · exact (htrace k hlt).aligned
    · rwa [hlast]
  · obtain ⟨m, hm, hspace, -, -, hnext⟩ := (htrace k hk).exec
    exact ⟨m, hm, hspace, hnext⟩

end Rv32i
