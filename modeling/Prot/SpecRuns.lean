import Prot.Lib.Rv32iRuns
import Prot.DecodeEncode
import Prot.PlainBounds
import Prot.Rv32iExec
import Prot.Jit.BackendRuns

/-!
# From the specification to the engines

A program is run as the specification of the base instruction set has it, up to a call
that asks for the exit. The interpreter, given the same registers, `pc` and memory, goes
through the same states, counts the instructions and exits with the argument of the call.
If the program stores to no word that it fetches, so does an engine with a backend.

Memory covers the whole address space, as the simulator has it. All that is asked of the
program is said about its run in the specification.

## Main results

* `exists_at`, `at_or_exited`: the interpreter follows the specification
* `exits_of_isRun`: the exit of a program, on every engine
-/

namespace Prot

open Isa Interpreter Stateful
open Rv32i (Mnemonic IsRun SparesCode)

instance FullMemory.fact_space : Fact ((0#32 : Addr).toNat + 2 ^ 32 ≤ 2 ^ 32) := ⟨by decide⟩

namespace FullMemory

variable {T : MemTy} {m : FullMemory} {addr : Addr}

theorem exists_read (h : addr.toNat + T.bytes ≤ 2 ^ 32) : ∃ v, Memory.read T m addr = .ok v :=
  ⟨_, PlainMemory.read_eq_ok.mpr ⟨addr.toNat, by simp, h, rfl⟩⟩

theorem exists_write (h : addr.toNat + T.bytes ≤ 2 ^ 32) (v : BitVec T.bits) :
    ∃ m', Memory.write T m addr v = .ok m' :=
  ⟨_, PlainMemory.write_eq_ok.mpr ⟨addr.toNat, by simp, h, rfl⟩⟩

/-- An aligned word does not reach past the end. -/
theorem exists_read32 (h : addr % kWordSize = 0#32) : ∃ v, Memory.read32 m addr = .ok v := by
  refine exists_read (T := .word) ?_
  have haddr := addr.isLt
  have hmod := congrArg BitVec.toNat h
  rw [BitVec.toNat_umod] at hmod
  change _ % 4 = 0 at hmod
  change addr.toNat + 4 ≤ 2 ^ 32
  omega

end FullMemory

/-! ### One instruction -/

section Step

variable {s : CPUState FullMemory} {m : Mnemonic}

/-- What is fetched is the word that the specification fetches. -/
theorem read32_fetched (haligned : s.pc % kWordSize = 0#32) :
    Memory.read32 s.memory s.pc = .ok s.arch.fetched := by
  obtain ⟨w, hread⟩ := FullMemory.exists_read32 (m := s.memory) haligned
  rw [hread, Rv32i.State.fetched]
  exact congrArg Except.ok (CPUState.arch_word hread).symm

/-- An instruction whose access is in the address space makes it. -/
theorem accessSucceeds_of_inSpace (h : m.InSpace s.arch) :
    AccessSucceeds s s.arch.fetched m := by
  obtain ⟨hload, hstore⟩ := h
  cases m
  case lb | lbu => exact FullMemory.exists_read (T := .byte) (hload 1 rfl)
  case lh | lhu => exact FullMemory.exists_read (T := .half) (hload 2 rfl)
  case lw => exact FullMemory.exists_read (T := .word) (hload 4 rfl)
  case sb => exact FullMemory.exists_write (T := .byte) (hstore 1 rfl) _
  case sh => exact FullMemory.exists_write (T := .half) (hstore 2 rfl) _
  case sw => exact FullMemory.exists_write (T := .word) (hstore 4 rfl) _
  all_goals trivial

/-- The interpreter's run executes the instruction that the specification executes. -/
theorem exists_runStep_of_encodes (hrunning : s.finished = false) (hzero : s.getReg 0 = 0#32)
    (haligned : s.pc % kWordSize = 0#32) (hm : m.Encodes s.arch.fetched)
    (hspace : m.InSpace s.arch) :
    Fetches s (builder m s.arch.fetched) ∧ ∃ s', RunStep s s' ∧
      s'.arch = m.exec s.arch.fetched s.arch ∧ s'.finished = false ∧ s'.getReg 0 = 0#32 ∧
      s'.icount = s.icount + 1#64 := by
  have hfetch : Fetches s (builder m s.arch.fetched) :=
    ⟨hrunning, s.arch.fetched, read32_fetched haligned, decode_eq_builder hm⟩
  obtain ⟨k, hk, s₁, heffect, harch, hicount, hfinished, -⟩ :=
    exists_implements hzero (accessSucceeds_of_inSpace hspace)
  have hexec : (executeCounted (builder m s.arch.fetched)).run s = .ok () s₁.incIcount := by
    rw [executeCounted, run_seq_ok ((execute_eq_effect hk).trans heffect)]
    rfl
  refine ⟨hfetch, s₁.incIcount, hfetch.runStep haligned hexec, harch, hfinished.trans hrunning, ?_,
    icount_of_executeCounted hexec⟩
  exact (executeCounted_getReg_zero _ 0#32).ok hzero hexec

end Step

/-! ### What the backends get wrong -/

/-- The backend does what the specification says. The exceptions are a `JALR` that links in
its base, and a shift by the lower half of a register that holds more. -/
def Backend.Keeps (b : Backend) (m : Mnemonic) (σ : Rv32i.State) : Prop :=
  match b with
  | ir => m = .jalr → Rv32i.rd σ.fetched = Rv32i.rs1 σ.fetched → Rv32i.rd σ.fetched ≠ 0#5 →
      (σ.pc + 4#32 + Rv32i.immI σ.fetched) &&& ~~~1#32 = σ.loadAddr &&& ~~~1#32
  | llvm => m ∈ [.sll, .srl, .sra] → (σ.x (Rv32i.rs2 σ.fetched)).toNat < 32
  | _ => True

theorem linkHarmless_of_keeps {s : CPUState FullMemory} {m : Mnemonic} (hzero : s.getReg 0 = 0#32)
    (h : Backend.ir.Keeps m s.arch) : IR.LinkHarmless (builder m s.arch.fetched) s := by
  intro hopcode hlink hne
  obtain rfl : m = .jalr := by cases m <;> first | rfl | cases hopcode
  have hrd : Rv32i.rd s.arch.fetched = Rv32i.rs1 s.arch.fetched :=
    BitVec.eq_of_toNat_eq ((toNat_rd _).symm.trans ((congrArg BitVec.toNat hlink).trans
      (toNat_rs1 _)))
  have hne' : Rv32i.rd s.arch.fetched ≠ 0#5 := fun hx0 =>
    hne (BitVec.eq_of_toNat_eq ((toNat_rd _).trans (by rw [hx0]; rfl)))
  have hspec := h rfl hrd hne'
  rw [Rv32i.State.loadAddr, CPUState.arch_x hzero, ← immI_eq, ← toNat_rs1] at hspec
  exact hspec

theorem shiftInRange_of_keeps {s : CPUState FullMemory} {m : Mnemonic} (hzero : s.getReg 0 = 0#32)
    (h : Backend.llvm.Keeps m s.arch) : LLVM.ShiftInRange (builder m s.arch.fetched) s := by
  intro hshift
  have hmem : m ∈ [Mnemonic.sll, .srl, .sra] := by cases m <;> first | decide | cases hshift
  have hspec := h hmem
  rw [CPUState.arch_x hzero, ← toNat_rs2] at hspec
  cases m <;> first | exact hspec | cases hshift

/-- An instruction that a backend keeps is one it respects. -/
theorem respects_of_keeps {s : CPUState FullMemory} {m : Mnemonic} {b : Backend}
    (hzero : s.getReg 0 = 0#32) (h : b.Keeps m s.arch) :
    b.Respects (builder m s.arch.fetched) s := by
  cases b with
  | ir => exact linkHarmless_of_keeps hzero h
  | llvm => exact shiftInRange_of_keeps hzero h
  | xbyak | asmjit | lightning | mir => trivial

/-! ### Runs -/

/-- The program asks for the exit: an `ECALL` with 93 in `x17`. -/
structure AsksExit (σ : Rv32i.State) : Prop where
  fetched : σ.fetched = Rv32i.ecall
  num : σ.x 17#5 = CPUState.kExit

/-- The interpreter's run is where the specification is after `k` instructions. -/
structure At (init : CPUState FullMemory) (trace : ℕ → Rv32i.State) (k : ℕ)
    (s : CPUState FullMemory) : Prop where
  reached : Reaches init s
  arch_eq : s.arch = trace k
  running : s.finished = false
  zero : s.getReg 0 = 0#32
  icount : s.icount = init.icount + BitVec.ofNat 64 k

section Runs

variable {init s t : CPUState FullMemory} {trace : ℕ → Rv32i.State} {n k : ℕ}

theorem At.aligned (h : At init trace k s) (hrun : IsRun trace n) (hk : k ≤ n) :
    s.pc % kWordSize = 0#32 := by
  have haligned := hrun.aligned k hk
  rw [← h.arch_eq] at haligned
  exact haligned

/-- One instruction of both. -/
theorem At.exists_step (h : At init trace k s) (hrun : IsRun trace n) (hk : k < n) :
    ∃ m : Mnemonic, m.Encodes (trace k).fetched ∧ Fetches s (builder m (trace k).fetched) ∧
      ∃ s', RunStep s s' ∧ At init trace (k + 1) s' := by
  obtain ⟨m, hm, hspace, hnext⟩ := hrun.exec k hk
  have haligned := h.aligned hrun hk.le
  rw [← h.arch_eq] at hm hspace hnext
  obtain ⟨hfetch, s', hstep, harch, hfinished, hzero, hicount⟩ :=
    exists_runStep_of_encodes h.running h.zero haligned hm hspace
  rw [← h.arch_eq]
  refine ⟨m, hm, hfetch, s', hstep, h.reached.tail hstep, harch.trans hnext.symm, hfinished, hzero,
    ?_⟩
  rw [hicount, h.icount, BitVec.add_assoc, BitVec.ofNat_add]

/-- The simulator reaches every state of the run. -/
theorem exists_at (hrun : IsRun trace n) (hinit : At init trace 0 init) (hk : k ≤ n) :
    ∃ s, At init trace k s := by
  induction k with
  | zero => exact ⟨init, hinit⟩
  | succ k ih =>
    obtain ⟨s, hs⟩ := ih (Nat.le_of_succ_le hk)
    obtain ⟨-, -, -, s', -, hs'⟩ := hs.exists_step hrun hk
    exact ⟨s', hs'⟩

/-- The call at the end. -/
theorem At.exitsAt (h : At init trace n s) (hrun : IsRun trace n) (hexit : AsksExit (trace n)) :
    ∃ insn, ExitsAt s insn := by
  have haligned := h.aligned hrun le_rfl
  obtain ⟨hfetched, hnum⟩ := hexit
  rw [← h.arch_eq] at hfetched hnum
  rw [CPUState.arch_x h.zero] at hnum
  have hread := read32_fetched haligned
  rw [hfetched] at hread
  obtain ⟨insn, hdecode, hopcode⟩ :
      ∃ insn, decode Rv32i.ecall = some insn ∧ insn.opcode = .kECALL := ⟨_, rfl, rfl⟩
  exact ⟨insn, haligned, ⟨h.running, _, hread, hdecode⟩, hopcode, hnum⟩

/-- The run goes nowhere else. -/
theorem at_or_exited (hrun : IsRun trace n) (hinit : At init trace 0 init)
    (hexit : AsksExit (trace n)) (ht : Reaches init t) :
    (∃ k ≤ n, At init trace k t) ∨ ∃ s, At init trace n s ∧ t = s.exited := by
  induction ht with
  | refl => exact .inl ⟨0, Nat.zero_le n, hinit⟩
  | @tail t u _ hstep ih =>
    rcases ih with ⟨k, hk, hat⟩ | ⟨s, -, rfl⟩
    · rcases hk.lt_or_eq with hlt | rfl
      · obtain ⟨-, -, -, s', hstep', hat'⟩ := hat.exists_step hrun hlt
        rw [hstep.unique hstep']
        exact .inl ⟨k + 1, hlt, hat'⟩
      · obtain ⟨insn, hexits⟩ := hat.exitsAt hrun hexit
        exact .inr ⟨t, hat, hstep.unique hexits.runStep⟩
    · cases hstep.1

/-- The decoder takes the operands of a store from the fields of the specification. -/
theorem builder_of_store {m : Mnemonic} {w : Word} {T : MemTy}
    (h : (builder m w).opcode.insnClass = some (.store T)) :
    T.bytes ∈ m.storeBytes ∧ (builder m w).rs1.toNat = (Rv32i.rs1 w).toNat ∧
      (builder m w).imm = Rv32i.immS w := by
  cases m <;> cases h <;> exact ⟨rfl, toNat_rs1 w, immS_eq w⟩

/-- A store of the run is a store of the specification. -/
theorem At.storesAt (h : At init trace k s) (hrun : IsRun trace n) (hk : k < n) {T : MemTy}
    {addr : Addr} (hstore : StoresAt s T addr) :
    ∃ m : Mnemonic, m.Encodes (trace k).fetched ∧ T.bytes ∈ m.storeBytes ∧
      addr = (trace k).storeAddr := by
  obtain ⟨m, hm, hfetch, -⟩ := h.exists_step hrun hk
  obtain ⟨hrunning, bytes, insn, hread, hdecode, hclass, haddr⟩ := hstore
  rw [Fetches.unique ⟨hrunning, bytes, hread, hdecode⟩ hfetch] at hclass haddr
  obtain ⟨hbytes, hrs1, himm⟩ := builder_of_store hclass
  refine ⟨m, hm, hbytes, ?_⟩
  rw [haddr, hrs1, himm, Rv32i.State.storeAddr, ← CPUState.arch_x h.zero, h.arch_eq]

/-- A program that spares its code does so in the interpreter's run. -/
theorem noSelfModification_of_isRun (hrun : IsRun trace n) (hinit : At init trace 0 init)
    (hexit : AsksExit (trace n)) (hspares : SparesCode trace n) : NoSelfModification init := by
  intro s t T addr hs ht hstore hrunning x hx
  rcases at_or_exited hrun hinit hexit hs with ⟨i, hi, hat⟩ | ⟨_, -, rfl⟩
  · rcases hi.lt_or_eq with hlt | rfl
    · obtain ⟨m, hm, hbytes, rfl⟩ := hat.storesAt hrun hlt hstore
      rcases at_or_exited hrun hinit hexit ht with ⟨j, hj, hat'⟩ | ⟨_, -, rfl⟩
      · have hpc : t.pc = (trace j).pc := congrArg Rv32i.State.pc hat'.arch_eq
        rw [hpc]
        exact hspares i hlt m hm T.bytes hbytes j hj x hx
      · cases hrunning
    · obtain ⟨insn, hexits⟩ := hat.exitsAt hrun hexit
      obtain ⟨hrunning', bytes, insn', hread, hdecode, hclass, -⟩ := hstore
      rw [Fetches.unique ⟨hrunning', bytes, hread, hdecode⟩ hexits.fetches, hexits.opcode] at hclass
      cases hclass
  · cases hstore.1

/-- What the backend keeps of the program's run, it gets right in the interpreter's. -/
theorem runRespects_of_isRun (hrun : IsRun trace n) (hinit : At init trace 0 init)
    (hexit : AsksExit (trace n)) {b : Backend}
    (hkeeps : ∀ k < n, ∀ m : Mnemonic, m.Encodes (trace k).fetched → b.Keeps m (trace k)) :
    RunRespects b init := by
  intro t insn ht hfetch
  rcases at_or_exited hrun hinit hexit ht with ⟨k, hk, hat⟩ | ⟨_, -, rfl⟩
  · rcases hk.lt_or_eq with hlt | rfl
    · obtain ⟨m, hm, hfetch', -⟩ := hat.exists_step hrun hlt
      rw [hfetch.unique hfetch']
      have hkept := hkeeps k hlt m hm
      rw [← hat.arch_eq] at hkept ⊢
      exact respects_of_keeps hat.zero hkept
    · obtain ⟨insn', hexits⟩ := hat.exitsAt hrun hexit
      rw [hfetch.unique hexits.fetches]
      have hopcode := hexits.opcode
      cases b with
      | ir => exact IR.linkHarmless_of_ne (by rw [hopcode]; decide)
      | llvm =>
        intro hshift
        rw [hopcode] at hshift
        cases hshift
      | xbyak | asmjit | lightning | mir => trivial
  · cases hfetch.1

/-- A run that is short enough carries nothing into the upper half of the counter. -/
theorem noCarry_of_isRun (hrun : IsRun trace n) (hinit : At init trace 0 init)
    (hexit : AsksExit (trace n)) (hshort : init.icount.toNat % 2 ^ 32 + n + 1 < 2 ^ 32) :
    NoCarry init := by
  intro t ht
  obtain ⟨k, hk, hicount⟩ : ∃ k ≤ n + 1, t.icount = init.icount + BitVec.ofNat 64 k := by
    rcases at_or_exited hrun hinit hexit ht with ⟨k, hk, hat⟩ | ⟨s, hat, rfl⟩
    · exact ⟨k, Nat.le_succ_of_le hk, hat.icount⟩
    · refine ⟨n + 1, le_rfl, ?_⟩
      change s.icount + 1#64 = _
      rw [hat.icount, BitVec.add_assoc, BitVec.ofNat_add]
  rw [hicount, BitVec.toNat_add, BitVec.toNat_ofNat]
  have hinit := init.icount.isLt
  omega

/-- A program that, by the specification, runs `n` instructions and then asks for the exit
exits on the interpreter with that code and `n + 1` instructions counted. If it spares its
code, it does so on every engine, whatever the threshold. A counter may only be off if it has
a carry to miss. -/
theorem exits_of_isRun (hrunning : init.finished = false) (hzero : init.getReg 0 = 0#32)
    (hinit : init.arch = trace 0) (hrun : IsRun trace n) (hexit : AsksExit (trace n)) :
    ∃ s', (∃ fuel, Hart.runInterpreter fuel init = some (.ok () s')) ∧
      s'.m_ExitCode = (trace n).x 10#5 ∧ s'.arch = (trace n).next ∧
      s'.icount = init.icount + BitVec.ofNat 64 (n + 1) ∧
      (SparesCode trace n → ∀ (τ : Type) (m_translator : Option (Translator τ FullMemory)),
        (∀ translate ∈ m_translator, ∃ b : Backend, b.Translates translate ∧
          ∀ k < n, ∀ m : Mnemonic, m.Encodes (trace k).fetched → b.Keeps m (trace k)) →
        ∀ config ts, ∃ fuel j, JitEngine.step config m_translator fuel
            { cpu := init, translatorState := ts } = some (.ok () j) ∧
          j.cpu = s'.withIcount j.cpu.icount ∧
          (init.icount.toNat % 2 ^ 32 + n + 1 < 2 ^ 32 → j.cpu = s')) := by
  have hat : At init trace 0 init := ⟨.refl, hinit, hrunning, hzero, by simp⟩
  obtain ⟨s, hs⟩ := exists_at hrun hat le_rfl
  obtain ⟨insn, hexits⟩ := hs.exitsAt hrun hexit
  have hreach : Reaches init s.exited := hs.reached.tail hexits.runStep
  obtain ⟨fuel, hfuel⟩ := runInterpreter_eq_ok_iff.mpr ⟨hreach, rfl⟩
  have hcount : s.exited.icount = init.icount + BitVec.ofNat 64 (n + 1) := by
    change s.icount + 1#64 = _
    rw [hs.icount, BitVec.add_assoc, BitVec.ofNat_add]
  refine ⟨s.exited, ⟨fuel, hfuel⟩, ?_, ?_, hcount, ?_⟩
  · rw [← hs.arch_eq, CPUState.arch_x hs.zero]
    rfl
  · rw [← hs.arch_eq]
    rfl
  · intro hspares τ m_translator hkeeps config ts
    have hserves : JitEngine.Serves m_translator init := by
      intro translate htranslate
      obtain ⟨b, htranslates, hkept⟩ := hkeeps translate htranslate
      exact ⟨b, htranslates, runRespects_of_isRun hrun hat hexit hkept⟩
    obtain ⟨fuel', j, hstep, hcpu, hexact⟩ :=
      JitEngine.run_eq_of_serves hserves config ts hzero
        (noSelfModification_of_isRun hrun hat hexit hspares).settlesCode hfuel
    exact ⟨fuel', j, hstep, hcpu, fun hshort => hexact (noCarry_of_isRun hrun hat hexit hshort)⟩

end Runs

end Prot
