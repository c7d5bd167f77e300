import Prot.Lib.Rv32iPrograms
import Prot.Simulator

/-!
# Benchmark programs

The benchmarks are linked with `start.s`, which clears the registers, calls `main` and exits
with what `main` returns. One of them, `nopbench`, is in assembly itself: its `main` is a
number of `nop`s and an exit.

Both are verified against the specification, for any address, stack and number of `nop`s,
and then run by the simulator on any of its engines. The assembler and the linker are not
part of the repository. What they do is taken from the file: the words of the instructions
are in its image.

## Main results

* `start_triple`: what `start.s` does before it calls `main`
* `main_of_start`: the exit code of a benchmark, from what its `main` returns
* `main_of_nopbench`: the run of `nopbench`
-/

namespace Prot

open Isa Interpreter Stateful Hoare
open Rv32i

/-! ### Any program -/

/-- The backend of this name, if there is one, gets the instruction right. -/
def KeptBy (backend : String) (m : Mnemonic) (σ : Rv32i.State) : Prop :=
  ∀ b ∈ JitFactory.backendOf backend, b.Keeps m σ

namespace SimApp

variable {build : Build FullMemory} {file : Option ElfFile} {program : ElfProgram}
  {opts : Options} {code : Set Word} {ok : Mnemonic → Rv32i.State → Prop}

/-- A run in the code that stays inside the code spares it. -/
theorem sparesCode_of_stepIn {trace : ℕ → Rv32i.State} {n : ℕ}
    (htrace : ∀ k < n, StepIn code ok (trace k) (trace (k + 1)))
    (hlast : ∀ x, Within (trace n).pc 4 x → x ∈ code) : SparesCode trace n := by
  intro i hi m hm b hb j hj x hx hx'
  obtain ⟨m', hm', -, -, hspares, -⟩ := (htrace i hi).exec
  cases encodes_unique hm hm'
  refine hspares b hb x hx ?_
  rcases hj.lt_or_eq with hlt | rfl
  · exact (htrace j hlt).inside x hx'
  · exact hlast x hx'

variable (build) in
/-- What is proved of a program by triples is what the simulator reports, on any engine. -/
theorem exists_main_of_steps (hfile : ElfProgram.ofFile file = .ok program)
    (hwf : program.WellFormed)
    (hbackend : opts.jitBackend = "" ∨ opts.jitBackend ∈ JitFactory.backends build)
    {n : ℕ} {σ : Rv32i.State}
    (hsteps : Steps (StepIn code (KeptBy opts.jitBackend)) n (startState program opts.stackTop) σ)
    (haligned : σ.pc % 4#32 = 0#32) (hinside : ∀ x, Within σ.pc 4 x → x ∈ code)
    (hexit : AsksExit σ) (hshort : n + 1 < 2 ^ 32) :
    ∃ fuel, main build file opts fuel = some (.ok ⟨σ.x 10#5, BitVec.ofNat 64 (n + 1)⟩) := by
  obtain ⟨trace, hfirst, rfl, hrun, htrace⟩ := exists_isRun_of_steps hsteps haligned
  rcases hbackend with hempty | hbackend
  · have hopts : opts.interpreted = opts := by rw [Options.interpreted, ← hempty]
    exact hopts ▸ exists_main_interpreted_of_isRun hfile hwf hfirst hrun hexit
  · obtain ⟨icount, hmain, hcount⟩ :=
      exists_main_of_isRun hfile hwf hfirst hrun hexit (sparesCode_of_stepIn htrace hinside)
        hbackend fun b hb k hk m hm => by
          obtain ⟨m', hm', -, hkept, -⟩ := (htrace k hk).exec
          cases encodes_unique hm hm'
          exact hkept b hb
    rwa [hcount hshort] at hmain

end SimApp

/-! ### `start.s` -/

/-- `x2` is set by the simulator. -/
def cleared : List (BitVec 5) :=
  [1#5, 3#5, 4#5, 5#5, 6#5, 7#5, 8#5, 9#5, 10#5, 11#5, 12#5, 13#5, 14#5, 15#5, 16#5, 17#5, 18#5,
    19#5, 20#5, 21#5, 22#5, 23#5, 24#5, 25#5, 26#5, 27#5, 28#5, 29#5, 30#5, 31#5]

/-- The instructions of `start.s`, with the distance from the call to `main`. -/
def startCode (main : Offset 21) : List Insn :=
  cleared.map (li · 0#12) ++ [jal main, li 17#5 93#12, .ecall]

/-- What `main` is entered with. -/
structure Entered (start : Word) (main : Offset 21) (sp : Word) (mem : Word → BitVec 8)
    (σ : Rv32i.State) : Prop where
  pc : σ.pc = start + 120#32 + main.val.signExtend 32
  ra : σ.x 1#5 = start + 124#32
  sp : σ.x 2#5 = sp
  zero : ∀ r, r ≠ 1#5 → r ≠ 2#5 → σ.x r = 0#32
  mem : σ.mem = mem

section Start

variable {code : Set Word} {ok : Mnemonic → Rv32i.State → Prop} {start sp : Word}
  {main : Offset 21} {mem : Word → BitVec 8}

/-- The registers that come first in the list have been cleared. -/
structure Clearing (start sp : Word) (mem : Word → BitVec 8) (i : ℕ) (σ : Rv32i.State) :
    Prop where
  pc : σ.pc = start + BitVec.ofNat 32 (4 * i)
  sp : σ.x 2#5 = sp
  zero : ∀ r ∈ cleared.take i, σ.x r = 0#32
  mem : σ.mem = mem

/-- One `li` more has cleared a register. -/
theorem clearing_triple (hcode : Program code start (startCode main) mem)
    (hok : ∀ σ, ok .addi σ) {i : ℕ} (hi : i < cleared.length) :
    Triple (StepIn code ok) (Clearing start sp mem i) 1 (Clearing start sp mem (i + 1)) := by
  refine .step fun σ hσ => ?_
  have hinsn : (startCode main)[i]? = some (li cleared[i] 0#12) := by
    rw [startCode, List.getElem?_append_left (by simpa using hi), List.getElem?_map,
      List.getElem?_eq_getElem hi]
    rfl
  have hmem : cleared[i] ∈ cleared := List.getElem_mem hi
  have hzero : cleared[i] ≠ 0#5 := fun h => absurd (h ▸ hmem) (by decide)
  have hsp : 2#5 ≠ cleared[i] := fun h => absurd (h ▸ hmem) (by decide)
  refine ⟨_, (hσ.mem ▸ hcode).stepIn_li hinsn hσ.pc (hok σ), pc_next (by simpa using hσ.pc), ?_,
    fun r hr => ?_, by simpa using hσ.mem⟩
  · rw [State.next_x, State.x_write_of_ne _ hsp, hσ.sp]
  · rw [State.next_x]
    by_cases hlast : r = cleared[i]
    · rw [hlast, State.x_write_self _ hzero]
      rfl
    · rw [State.x_write_of_ne _ hlast]
      rw [List.take_add_one, List.getElem?_eq_getElem hi, List.mem_append] at hr
      exact hσ.zero r (hr.resolve_right (by simpa using hlast))

/-- `start.s` clears all registers but the stack pointer. -/
theorem mem_cleared : ∀ r : BitVec 5, r ≠ 0#5 → r ≠ 2#5 → r ∈ cleared := by decide

/-- Whatever is in the other registers, they are zero when `main` is called. -/
theorem start_triple (hcode : Program code start (startCode main) mem) (haddi : ∀ σ, ok .addi σ)
    (hjal : ∀ σ, ok .jal σ) :
    Triple (StepIn code ok) (fun σ => σ.pc = start ∧ σ.x 2#5 = sp ∧ σ.mem = mem) 31
      (Entered start main sp mem) := by
  have hclear : Triple (StepIn code ok) (Clearing start sp mem 0) (30 * 1)
      (Clearing start sp mem 30) :=
    .iterate fun i hi => clearing_triple hcode haddi hi
  have hcall : Triple (StepIn code ok) (Clearing start sp mem 30) 1
      (Entered start main sp mem) := by
    refine .step fun σ hσ => ⟨_, (hσ.mem ▸ hcode).stepIn_jal (k := 30) rfl hσ.pc (hjal σ), ?_⟩
    have hpc : σ.pc = start + 120#32 := hσ.pc
    refine ⟨by rw [State.jump_pc, hpc], ?_, ?_, fun r hra hsp => ?_, by simpa using hσ.mem⟩
    · rw [State.jump_x, State.x_write_self _ (by decide), hpc, BitVec.add_assoc]
      rfl
    · rw [State.jump_x, State.x_write_of_ne _ (by decide), hσ.sp]
    · rw [State.jump_x, State.x_write_of_ne _ hra]
      by_cases hzero : r = 0#5
      · rw [hzero, State.x_zero]
      · exact hσ.zero r (mem_cleared r hzero hsp)
  refine (hclear.seq hcall).conseq (fun σ ⟨hpc, hsp, hmem⟩ => ?_) fun _ => id
  exact ⟨by rw [hpc]; exact (BitVec.add_zero start).symm, hsp, nofun, hmem⟩

/-- The call of the exit is next, with `v` as its argument. -/
structure Exiting (code : Set Word) (v : Word) (σ : Rv32i.State) : Prop where
  aligned : σ.pc % 4#32 = 0#32
  inside : ∀ x, Within σ.pc 4 x → x ∈ code
  asks : AsksExit σ
  arg : σ.x 10#5 = v

/-- After `li a7, 93`, there is a call in the code. -/
theorem exiting_triple {a v : Word} {insns : List Insn} {k : ℕ} (haddi : ∀ σ, ok .addi σ)
    (hli : insns[k]? = some (li 17#5 93#12)) (hecall : insns[k + 1]? = some .ecall) :
    Triple (StepIn code ok) (fun σ => (σ.pc = a + BitVec.ofNat 32 (4 * k) ∧ σ.x 10#5 = v) ∧
      Program code a insns σ.mem) 1 (Exiting code v) := by
  refine .step fun σ ⟨⟨hpc, harg⟩, hcode⟩ =>
    ⟨_, hcode.stepIn_li hli hpc (haddi σ), ?_⟩
  have hpc' := pc_next (σ := σ.write 17#5 (BitVec.signExtend 32 93#12)) (by simpa using hpc)
  obtain ⟨hlt, -⟩ := List.getElem?_eq_some_iff.mp hecall
  refine ⟨hpc' ▸ hcode.add_aligned _, hpc' ▸ hcode.inside _ hlt, ⟨?_, ?_⟩, ?_⟩
  · exact Program.fetched_eq (by simpa using hcode) hecall hpc'
  · rw [State.next_x, State.x_write_self _ (by decide)]
    rfl
  · rw [State.next_x, State.x_write_of_ne _ (by decide), harg]

end Start

/-- What a program keeps in memory for its whole run. -/
theorem program_of_stepIn {code : Set Word} {ok : Mnemonic → Rv32i.State → Prop} {a : Word}
    {insns : List Insn} (σ σ' : Rv32i.State) (h : StepIn code ok σ σ')
    (hcode : Program code a insns σ.mem) : Program code a insns σ'.mem :=
  hcode.of_mem_eq fun _ hx => h.mem_eq hx

section KeptBy

variable {backend : String} {σ : Rv32i.State}

theorem keptBy_addi : KeptBy backend .addi σ := by
  intro b _
  cases b with
  | ir => nofun
  | llvm => exact fun hmem => absurd hmem (by decide)
  | xbyak | asmjit | lightning | mir => trivial

theorem keptBy_jal : KeptBy backend .jal σ := by
  intro b _
  cases b with
  | ir => nofun
  | llvm => exact fun hmem => absurd hmem (by decide)
  | xbyak | asmjit | lightning | mir => trivial

end KeptBy

/-! ### `nopbench` -/

/-- The instructions of `main` in `nopbench.s`. -/
def nopbenchCode (amount : ℕ) : List Insn :=
  List.replicate amount nop ++ [li 10#5 0#12, li 17#5 93#12, .ecall]

section Nopbench

variable {code : Set Word} {ok : Mnemonic → Rv32i.State → Prop} {a : Word} {amount : ℕ}
  {mem : Word → BitVec 8}

theorem nops_triple (hcode : Program code a (nopbenchCode amount) mem) (haddi : ∀ σ, ok .addi σ) :
    Triple (StepIn code ok) (fun σ => σ.pc = a ∧ σ.mem = mem) amount
      fun σ => σ.pc = a + BitVec.ofNat 32 (4 * amount) ∧ σ.mem = mem := by
  have hnops := Triple.iterate (R := StepIn code ok) (n := amount) (c := 1)
    (I := fun i σ => σ.pc = a + BitVec.ofNat 32 (4 * i) ∧ σ.mem = mem) fun i hi => by
      refine .step fun σ ⟨hpc, hmem⟩ => ?_
      have hnop : (nopbenchCode amount)[i]? = some nop := by
        rw [nopbenchCode, List.getElem?_append_left (by simpa using hi)]
        simp [hi]
      exact ⟨_, (hmem ▸ hcode).stepIn_nop hnop hpc (haddi σ), pc_next hpc, hmem⟩
  rw [Nat.mul_one] at hnops
  exact hnops.conseq (fun σ ⟨hpc, hmem⟩ => ⟨by rw [hpc]; exact (BitVec.add_zero a).symm, hmem⟩)
    fun _ => id

/-- What comes after the nops. -/
theorem nopbenchCode_getElem? (amount k : ℕ) :
    (nopbenchCode amount)[amount + k]? = [li 10#5 0#12, li 17#5 93#12, .ecall][k]? := by
  rw [nopbenchCode, List.getElem?_append_right (by simp)]
  simp

/-- The `nop`s fit into the address space, or the first of them would be something else. -/
theorem amount_lt (hcode : Program code a (nopbenchCode amount) mem) : amount < 2 ^ 30 := by
  by_contra hge
  have hli : (nopbenchCode amount)[amount]? = some (li 10#5 0#12) := nopbenchCode_getElem? amount 0
  obtain ⟨hlt, hli⟩ := List.getElem?_eq_some_iff.mp hli
  have hnop : (nopbenchCode amount)[amount - 2 ^ 30]? = some nop := by
    rw [nopbenchCode, List.getElem?_append_left (by rw [List.length_replicate]; omega),
      List.getElem?_replicate, if_pos (by omega)]
  obtain ⟨hlt', hnop⟩ := List.getElem?_eq_some_iff.mp hnop
  -- both are at the same address
  have haddr : a + BitVec.ofNat 32 (4 * (amount - 2 ^ 30)) = a + BitVec.ofNat 32 (4 * amount) := by
    refine congrArg (a + ·) (BitVec.eq_of_toNat_eq ?_)
    rw [BitVec.toNat_ofNat, BitVec.toNat_ofNat]
    omega
  have hwords := (hcode.word_eq _ hlt').symm.trans ((congrArg (wordOf mem) haddr).trans
    (hcode.word_eq _ hlt))
  rw [hnop, hli] at hwords
  exact absurd hwords (by decide)

/-- The nops, and two `li` after them, lead to the call. -/
theorem nopbench_triple (hcode : Program code a (nopbenchCode amount) mem)
    (haddi : ∀ σ, ok .addi σ) :
    Triple (StepIn code ok) (fun σ => σ.pc = a ∧ σ.mem = mem) (amount + 1 + 1)
      (Exiting code 0#32) := by
  have hli : Triple (StepIn code ok)
      (fun σ => σ.pc = a + BitVec.ofNat 32 (4 * amount) ∧ σ.mem = mem) 1
      (fun σ => (σ.pc = a + BitVec.ofNat 32 (4 * (amount + 1)) ∧ σ.x 10#5 = 0#32) ∧
        Program code a (nopbenchCode amount) σ.mem) := by
    refine .step fun σ ⟨hpc, hmem⟩ => ⟨_, (hmem ▸ hcode).stepIn_li
      (nopbenchCode_getElem? amount 0) hpc (haddi σ), ⟨pc_next (by simpa using hpc), ?_⟩, ?_⟩
    · rw [State.next_x, State.x_write_self _ (by decide)]
      rfl
    · simpa [hmem] using hcode
  exact ((nops_triple hcode haddi).seq hli).seq
    (exiting_triple haddi (nopbenchCode_getElem? amount 1) (nopbenchCode_getElem? amount 2))

end Nopbench

/-! ### On the simulator -/

namespace SimApp

variable (build : Build FullMemory) {file : Option ElfFile} {program : ElfProgram}
  (opts : Options) {code : Set Word} {offset : Offset 21}

/-- If `main`, entered with zeroed registers and the stack of the options, returns `v` after
`n` instructions, the simulator reports `v` and the instructions of `start.s` besides. It
does so on any of its engines. -/
theorem main_of_start (hfile : ElfProgram.ofFile file = .ok program) (hwf : program.WellFormed)
    (hbackend : opts.jitBackend = "" ∨ opts.jitBackend ∈ JitFactory.backends build)
    (hcode : Program code program.e_entry (startCode offset) program.image) {n : ℕ} {v : Word}
    (hmain : Triple (StepIn code (KeptBy opts.jitBackend))
      (Entered program.e_entry offset opts.stackTop program.image) n
      fun σ => σ.pc = program.e_entry + 124#32 ∧ σ.x 10#5 = v)
    (hshort : n + 33 < 2 ^ 32) :
    ∃ fuel, SimApp.main build file opts fuel = some (.ok ⟨v, BitVec.ofNat 64 (n + 33)⟩) := by
  have hstart : Triple (StepIn code (KeptBy opts.jitBackend)) _ 31
      (Entered program.e_entry offset opts.stackTop program.image) :=
    start_triple hcode (fun _ => keptBy_addi) fun _ => keptBy_jal
  -- `start.s` is still in memory when `main` returns
  have hrun := (hstart.seq hmain).frame (I := fun σ =>
    Program code program.e_entry (startCode offset) σ.mem) program_of_stepIn
  have hexit : Triple (StepIn code (KeptBy opts.jitBackend)) _ 1 (Exiting code v) :=
    exiting_triple (a := program.e_entry) (fun _ => keptBy_addi)
      (show (startCode offset)[31]? = _ from rfl) rfl
  obtain ⟨σ, hsteps, hexiting⟩ :=
    (hrun.seq hexit) (startState program opts.stackTop) ⟨⟨rfl, rfl, rfl⟩, hcode⟩
  have hreport := exists_main_of_steps build hfile hwf hbackend hsteps hexiting.aligned
    hexiting.inside hexiting.asks (by omega)
  rwa [hexiting.arg, show 31 + n + 1 + 1 = n + 33 by omega] at hreport

/-- `nopbench` exits with zero, for any number of `nop`s that the file has, and each of them is
counted. -/
theorem main_of_nopbench (hfile : ElfProgram.ofFile file = .ok program) (hwf : program.WellFormed)
    (hbackend : opts.jitBackend = "" ∨ opts.jitBackend ∈ JitFactory.backends build)
    (hstart : Program code program.e_entry (startCode offset) program.image) {amount : ℕ}
    (hnops : Program code (program.e_entry + 120#32 + offset.val.signExtend 32)
      (nopbenchCode amount) program.image) :
    ∃ fuel, SimApp.main build file opts fuel =
      some (.ok ⟨0#32, BitVec.ofNat 64 (amount + 34)⟩) := by
  have hlt := amount_lt hnops
  have hcall : Triple (StepIn code (KeptBy opts.jitBackend)) _ 31
      (Entered program.e_entry offset opts.stackTop program.image) :=
    start_triple hstart (fun _ => keptBy_addi) fun _ => keptBy_jal
  have hmain : Triple (StepIn code (KeptBy opts.jitBackend))
      (Entered program.e_entry offset opts.stackTop program.image) (amount + 1 + 1)
      (Exiting code 0#32) :=
    (nopbench_triple hnops fun _ => keptBy_addi).conseq (fun _ hσ => ⟨hσ.pc, hσ.mem⟩) fun _ => id
  obtain ⟨σ, hsteps, hexiting⟩ :=
    (hcall.seq hmain) (startState program opts.stackTop) ⟨rfl, rfl, rfl⟩
  have hreport := exists_main_of_steps build hfile hwf hbackend hsteps hexiting.aligned
    hexiting.inside hexiting.asks (by omega)
  rwa [hexiting.arg, show 31 + (amount + 1 + 1) + 1 = amount + 34 by omega] at hreport

/-! ### Two small files -/

/-- The bytes of the instructions. -/
def assemble (insns : List Insn) : List Byte := insns.flatMap fun insn => toBytes 4 insn.encode

/-- The distance to what comes after `start.s`. -/
def afterStart : Offset 21 := ⟨12#21, rfl⟩

/-- One segment, which begins with `start.s`. -/
def benchFile (main : List Insn) (size : Word)
    (hsize : (assemble (startCode afterStart ++ main)).length = size.toNat) : ElfFile where
  elf := {
    e_type := Elf.ET_EXEC
    ei_data := Elf.ELFDATA2LSB
    ei_class := Elf.ELFCLASS32
    e_machine := Elf.EM_RISCV
    segments := [⟨PT_LOAD, 0x1000#32, size, size, assemble (startCode afterStart ++ main), hsize⟩] }
  e_entry := 0x1000#32

/-- The file for two nops. -/
def nopbenchFile : ElfFile := benchFile (nopbenchCode 2) 152#32 rfl

/-- The program in the file. -/
def nopbench : ElfProgram := { m_elf := nopbenchFile.elf, valid := rfl, e_entry := 0x1000#32 }

theorem wellFormed_nopbench : nopbench.WellFormed :=
  wellFormed_of_loads_eq rfl ⟨by decide, by decide⟩

theorem program_nopbench_start :
    Program Set.univ 0x1000#32 (startCode afterStart) nopbench.image where
  aligned := rfl
  inside _ _ _ _ := trivial
  word_eq := by decide +kernel

theorem program_nopbench_main :
    Program Set.univ 0x1084#32 (nopbenchCode 2) nopbench.image where
  aligned := rfl
  inside _ _ _ _ := trivial
  word_eq := by decide +kernel

theorem main_of_nopbench_two :
    ∃ fuel, SimApp.main sampleBuild (some nopbenchFile) { jitBackend := "llvm" } fuel =
      some (.ok ⟨0#32, 36#64⟩) :=
  main_of_nopbench sampleBuild { jitBackend := "llvm" }
    (show ElfProgram.ofFile (some nopbenchFile) = .ok nopbench from rfl) wellFormed_nopbench
    (.inr (by decide)) program_nopbench_start program_nopbench_main

/-- `li a0, 7; ret`. -/
def returnSevenCode : List Insn :=
  [li 10#5 7#12, .base .jalr ({ rd := 0#5, rs1 := 1#5, imm := 0#12 } : IOperands)]

/-- The file for a `main` that returns 7. -/
def returnSevenFile : ElfFile := benchFile returnSevenCode 140#32 rfl

/-- The program in the file. -/
def returnSeven : ElfProgram :=
  { m_elf := returnSevenFile.elf, valid := rfl, e_entry := 0x1000#32 }

theorem wellFormed_returnSeven : returnSeven.WellFormed :=
  wellFormed_of_loads_eq rfl ⟨by decide, by decide⟩

theorem program_returnSeven_start :
    Program Set.univ 0x1000#32 (startCode afterStart) returnSeven.image where
  aligned := rfl
  inside _ _ _ _ := trivial
  word_eq := by decide +kernel

theorem program_returnSeven_main :
    Program Set.univ 0x1084#32 returnSevenCode returnSeven.image where
  aligned := rfl
  inside _ _ _ _ := trivial
  word_eq := by decide +kernel

/-- `main` returns 7. -/
theorem returnSeven_triple :
    Triple (StepIn Set.univ (KeptBy "xbyak"))
      (Entered returnSeven.e_entry afterStart kDefaultStack returnSeven.image) 2
      fun σ => σ.pc = returnSeven.e_entry + 124#32 ∧ σ.x 10#5 = 7#32 := by
  refine .seq (m := 1) (n := 1) (Q := fun σ => (σ.pc = 0x1088#32 ∧ σ.x 1#5 = 0x107C#32) ∧
    σ.x 10#5 = 7#32 ∧ σ.mem = returnSeven.image) (.step fun σ hσ => ?_) (.step ?_)
  · have hcode : Program Set.univ 0x1084#32 returnSevenCode σ.mem :=
      hσ.mem ▸ program_returnSeven_main
    refine ⟨_, hcode.stepIn_li (k := 0) rfl hσ.pc keptBy_addi, ⟨?_, ?_⟩, ?_, ?_⟩
    · rw [State.next_pc, State.write_pc, hσ.pc]
      rfl
    · rw [State.next_x, State.x_write_of_ne _ (by decide), hσ.ra]
      rfl
    · rw [State.next_x, State.x_write_self _ (by decide)]
      rfl
    · rw [State.next_mem, State.write_mem, hσ.mem]
  · rintro σ ⟨⟨hpc, hra⟩, harg, hmem⟩
    have hcode : Program Set.univ 0x1084#32 returnSevenCode σ.mem :=
      hmem ▸ program_returnSeven_main
    have hkept : KeptBy "xbyak" .jalr σ := by
      rintro _ ⟨rfl⟩
      trivial
    refine ⟨_, hcode.stepIn (m := .jalr) (k := 1) rfl hpc ⟨nofun, nofun⟩ hkept nofun, ?_, harg⟩
    change (σ.x 1#5 + 0#32) &&& ~~~1#32 = _
    rw [hra]
    rfl

theorem main_of_start_returnSeven :
    ∃ fuel, SimApp.main sampleBuild (some returnSevenFile) { jitBackend := "xbyak" } fuel =
      some (.ok ⟨7#32, 35#64⟩) :=
  main_of_start sampleBuild { jitBackend := "xbyak" }
    (show ElfProgram.ofFile (some returnSevenFile) = .ok returnSeven from rfl)
    wellFormed_returnSeven (.inr (by decide)) program_returnSeven_start returnSeven_triple
    (by decide)

end SimApp

end Prot
