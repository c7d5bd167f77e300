import Prot.BasicBlock
import Prot.PlainMemory
import Prot.Lib.Loop
import Mathlib.Logic.Relation

/-!
# The execution engine and the hart

`ExecEngine::step` executes the instruction at `pc`, `Hart::run` repeats a step
until the guest has exited. What the run fetches and stores is read off the
states it goes through.
-/

namespace Prot

open Isa Interpreter Stateful

variable {μ : Type} [Memory μ]

/-- `ExecEngine::step`, on the interpreter. -/
def ExecEngine.step : EStateM Exn (CPUState μ) Unit := do
  let cpu ← get
  let pc := cpu.getPC
  if pc % kWordSize ≠ 0#32 then
    throw (.misalignedPC pc)
  let bytes ← Stateful.ofExcept (Memory.read .word cpu.memory cpu.getPC)
  match decode bytes with
  | none => throw (.undefinedInstruction bytes)
  | some instr =>
    execute instr
    modify fun cpu => cpu.incIcount

/-- `Hart::run` for an engine whose step is `step`. -/
def Hart.run (step : Loop.Fueled Exn (CPUState μ)) : Loop.Fueled Exn (CPUState μ) :=
  Loop.whileNot (fun cpu => cpu.finished) step

/-- `Hart::run` on the plain interpreter. -/
def Hart.runInterpreter : Loop.Fueled Exn (CPUState μ) := Hart.run (Loop.ofEStateM ExecEngine.step)

/-- What a step does once its checks have passed. -/
theorem ExecEngine.step_eq_executeCounted {s : CPUState μ} {bytes : Word} {insn : Instruction}
    (haligned : s.pc % kWordSize = 0#32) (hread : Memory.read32 s.memory s.pc = .ok bytes)
    (hdecode : decode bytes = some insn) :
    ExecEngine.step.run s = (executeCounted insn).run s := by
  have hread' : Memory.read .word s.memory s.pc = .ok bytes := hread
  simp [step, haligned, hread', hdecode, executeCounted]

/-- A step that returns has passed its checks. -/
theorem ExecEngine.exists_of_step_eq_ok {s s' : CPUState μ}
    (h : ExecEngine.step.run s = .ok () s') :
    s.pc % kWordSize = 0#32 ∧ ∃ bytes insn, Memory.read32 s.memory s.pc = .ok bytes ∧
      decode bytes = some insn ∧ (executeCounted insn).run s = .ok () s' := by
  by_cases haligned : s.pc % kWordSize = 0#32
  · refine ⟨haligned, ?_⟩
    cases hread : Memory.read .word s.memory s.pc with
    | error e => simp [step, haligned, hread] at h
    | ok bytes =>
      cases hdecode : decode bytes with
      | none => simp [step, haligned, hread, hdecode] at h
      | some insn =>
        rw [step_eq_executeCounted haligned hread hdecode] at h
        exact ⟨bytes, insn, hread, hdecode, h⟩
  · simp [step, haligned] at h

section Raises

variable {s s' : CPUState μ} {e : Exn}

/-- The first check is that of the alignment. -/
theorem ExecEngine.step_of_misaligned (h : s.pc % kWordSize ≠ 0#32) :
    ExecEngine.step.run s = .error (.misalignedPC s.pc) s := by
  simp [step, h]

/-- A fetch that raises ends the step. -/
theorem ExecEngine.step_of_read_error (haligned : s.pc % kWordSize = 0#32)
    (hread : Memory.read32 s.memory s.pc = .error e) : ExecEngine.step.run s = .error e s := by
  have hread' : Memory.read .word s.memory s.pc = .error e := hread
  simp [step, haligned, hread']

/-- A word that does not decode ends the step. -/
theorem ExecEngine.step_of_decode_eq_none {bytes : Word} (haligned : s.pc % kWordSize = 0#32)
    (hread : Memory.read32 s.memory s.pc = .ok bytes) (hdecode : decode bytes = none) :
    ExecEngine.step.run s = .error (.undefinedInstruction bytes) s := by
  have hread' : Memory.read .word s.memory s.pc = .ok bytes := hread
  simp [step, haligned, hread', hdecode]

/-- From an aligned `pc`, what raises is the fetch, the decoder or the instruction. -/
theorem ExecEngine.step_error_of_aligned (haligned : s.pc % kWordSize = 0#32)
    (h : ExecEngine.step.run s = .error e s') :
    s' = s ∧ ∀ bytes insn, Memory.read32 s.memory s.pc = .ok bytes → decode bytes = some insn →
      (executeCounted insn).run s = .error e s := by
  cases hread : Memory.read32 s.memory s.pc with
  | error e' =>
    rw [step_of_read_error haligned hread] at h
    cases h
    exact ⟨rfl, fun _ _ hok => by cases hok⟩
  | ok bytes =>
    cases hdecode : decode bytes with
    | none =>
      rw [step_of_decode_eq_none haligned hread hdecode] at h
      cases h
      refine ⟨rfl, fun _ _ hok hsome => ?_⟩
      cases hok
      rw [hdecode] at hsome
      cases hsome
    | some insn =>
      rw [step_eq_executeCounted haligned hread hdecode] at h
      obtain rfl := (executeCounted_error h).1
      refine ⟨rfl, fun _ _ hok hsome => ?_⟩
      cases hok
      rw [hdecode] at hsome
      cases hsome
      exact h

/-- A step that raises, for whatever reason, changes nothing. -/
theorem ExecEngine.state_eq_of_step_error (h : ExecEngine.step.run s = .error e s') :
    s' = s := by
  by_cases haligned : s.pc % kWordSize = 0#32
  · exact (step_error_of_aligned haligned h).1
  · rw [step_of_misaligned haligned] at h
    cases h
    rfl

/-- A page that holds `lw x1, 0(x2)`, and a base past its end. -/
def loadPastEndGuest : CPUState (PlainMemory 0#32 4096) :=
  ({ memory := ⟨fun offset => (0x00012083#32).extractLsb' (8 * offset) 8⟩ } :
    CPUState _).setReg 2 0x2000#32

theorem ExecEngine.step_loadPastEndGuest :
    ∃ e s', ExecEngine.step.run loadPastEndGuest = .error e s' ∧ s' = loadPastEndGuest :=
  have h : ExecEngine.step.run loadPastEndGuest = .error .assertionFailed loadPastEndGuest := rfl
  ⟨.assertionFailed, loadPastEndGuest, h, ExecEngine.state_eq_of_step_error h⟩

end Raises

/-! ### Runs -/

/-- One round of the interpreter's run. -/
def RunStep (s s' : CPUState μ) : Prop :=
  s.finished = false ∧ ExecEngine.step.run s = .ok () s'

/-- The states that the run from `init` goes through. -/
abbrev Reaches : CPUState μ → CPUState μ → Prop := Relation.ReflTransGen RunStep

/-- The run stores a `T` at `addr` when it steps from `s`. -/
def StoresAt (s : CPUState μ) (T : MemTy) (addr : Addr) : Prop :=
  s.finished = false ∧ ∃ bytes insn, Memory.read32 s.memory s.pc = .ok bytes ∧
    decode bytes = some insn ∧ insn.opcode.insnClass = some (.store T) ∧
    addr = s.getReg insn.rs1.toNat + insn.imm

/-- No store of the run from `init` writes a byte of a word that the run fetches. -/
def NoSelfModification (init : CPUState μ) : Prop :=
  ∀ s t T addr, Reaches init s → Reaches init t → StoresAt s T addr → t.finished = false →
    NoOverlap addr T.bytes t.pc 4

/-- A run that is over goes nowhere. -/
theorem eq_of_reaches_of_finished {s t : CPUState μ} (hs : s.finished = true) (h : Reaches s t) :
    t = s := by
  rcases Relation.ReflTransGen.cases_head h with rfl | ⟨s₁, hfirst, -⟩
  · rfl
  · rw [hfirst.1] at hs
    cases hs

/-- A state has one next state. -/
theorem RunStep.unique {s s₁ s₂ : CPUState μ} (h₁ : RunStep s s₁) (h₂ : RunStep s s₂) :
    s₁ = s₂ := by
  have h := h₁.2.symm.trans h₂.2
  cases h
  rfl

/-- A step executes an instruction, which ends a block or does not. -/
theorem RunStep.exists_executeCounted {s s₁ : CPUState μ} (h : RunStep s s₁) :
    ∃ bytes insn last, Memory.read32 s.memory s.pc = .ok bytes ∧ decode bytes = some insn ∧
      isTerminator insn.opcode = .ok last ∧ (executeCounted insn).run s = .ok () s₁ := by
  obtain ⟨_, bytes, insn, hread, hdecode, hexec⟩ := ExecEngine.exists_of_step_eq_ok h.2
  obtain ⟨k, -, hk, -, -⟩ := exists_of_executeCounted_eq_ok hexec
  obtain ⟨last, hlast⟩ := exists_isTerminator hk
  exact ⟨bytes, insn, last, hread, hdecode, hlast, hexec⟩

/-- Inside a block the run goes on with the next word. -/
theorem pc_of_inner {insn : Instruction} {s s₁ : CPUState μ}
    (hinner : isTerminator insn.opcode = .ok false)
    (hexec : (executeCounted insn).run s = .ok () s₁) :
    s₁.pc = s.pc + kWordSize ∧ s₁.finished = s.finished := by
  obtain ⟨k, s₀, hk, heffect, rfl⟩ := exists_of_executeCounted_eq_ok hexec
  obtain ⟨hpc, hfin⟩ := effect_of_fallsThrough (fallsThrough_of_not_isTerminator hk hinner) heffect
  exact ⟨hpc, hfin⟩

/-- A step leaves memory alone, or makes the one store that its instruction asks for. -/
theorem RunStep.memory {s s' : CPUState μ} (h : RunStep s s') :
    s'.memory = s.memory ∨ ∃ T addr v, StoresAt s T addr ∧
      Memory.write T s.memory addr v = .ok s'.memory := by
  obtain ⟨hrunning, hstep⟩ := h
  obtain ⟨_, bytes, insn, hread, hdecode, hexec⟩ := ExecEngine.exists_of_step_eq_ok hstep
  obtain ⟨k, s₁, hk, heffect, rfl⟩ := exists_of_executeCounted_eq_ok hexec
  rcases effect_memory heffect with hsame | ⟨T, rfl, hwrite⟩
  · exact .inl hsame
  · exact .inr ⟨T, _, _, ⟨hrunning, bytes, insn, hread, hdecode, hk, rfl⟩, hwrite⟩

section Fetch

variable [LawfulMemory μ] {init s t t' : CPUState μ}

/-- A page that was just allocated holds no instruction. -/
theorem decode_zero : decode 0#32 = none := by decide

/-- What the run fetches at some point, it could have fetched at any point: a
word that no store touches keeps its value, and a page allocated meanwhile holds
zeros, which do not decode. -/
theorem read32_of_fetched (hpure : NoSelfModification init) (ht : Reaches init t)
    (hnext : RunStep t t') {bytes : Word} (hfetch : Memory.read32 t.memory t.pc = .ok bytes)
    (hs : Reaches init s) : Memory.read32 s.memory t.pc = .ok bytes := by
  obtain ⟨haligned, bytes', insn, hread, hdecode, -⟩ := ExecEngine.exists_of_step_eq_ok hnext.2
  -- zeros do not decode, so what was fetched is not an untouched page
  have hnonzero : bytes ≠ 0#32 := by
    rintro rfl
    rw [hfetch] at hread
    cases hread
    rw [decode_zero] at hdecode
    cases hdecode
  have hmod : t.pc.toNat % 4 = 0 := by
    have h := congrArg BitVec.toNat haligned
    simpa [kWordSize, BitVec.toNat_umod] using h
  -- neither direction of a step changes what is read at this address
  have hkeep : ∀ u v, Reaches init u → RunStep u v →
      (Memory.read32 u.memory t.pc = .ok bytes ↔ Memory.read32 v.memory t.pc = .ok bytes) := by
    intro u v hu huv
    rcases huv.memory with hsame | ⟨T, addr, val, hstore, hwrite⟩
    · rw [hsame]
    · have hdisjoint := hpure u t T addr hu ht hstore hnext.1
      constructor
      · exact LawfulMemory.read32_write_of_disjoint hwrite hdisjoint
      · intro hv
        exact (LawfulMemory.read_of_write hwrite hmod hdisjoint hv).resolve_right hnonzero
  -- from the initial state, then, the word is the same all along the run
  have hinit : ∀ u, Reaches init u →
      (Memory.read32 init.memory t.pc = .ok bytes ↔ Memory.read32 u.memory t.pc = .ok bytes) := by
    intro u hu
    induction hu with
    | refl => exact Iff.rfl
    | tail hu huv ih => exact ih.trans (hkeep _ _ hu huv)
  exact (hinit s hs).mp ((hinit t ht).mpr hfetch)

/-- From every unfinished state of a run that returns, the words ahead form a
block, the same one wherever the run stands, and the run executes it as
`interpretInsns` does. -/
theorem exists_block_ahead (hpure : NoSelfModification init) (singleStep : Bool) {fuel : ℕ}
    {s' : CPUState μ} (hs : Reaches init s) (hrunning : s.finished = false)
    (hrun : Hart.runInterpreter (fuel + 1) s = some (.ok () s')) :
    ∃ insns s₂,
      (∀ t, Reaches init t → IsBlockAt (Memory.read32 t.memory) singleStep s.pc insns) ∧
      (interpretInsns insns).run s = .ok () s₂ ∧ Reaches init s₂ ∧ insns.length ≤ fuel ∧
      Hart.runInterpreter fuel s₂ = some (.ok () s') := by
  induction fuel generalizing s with
  | zero =>
    obtain ⟨s₁, _, hrest⟩ := Loop.exists_of_whileNot_eq_ok hrunning hrun
    cases hrest
  | succ fuel ih =>
    obtain ⟨s₁, hbody, hrest⟩ := Loop.exists_of_whileNot_eq_ok hrunning hrun
    have hstep : RunStep s s₁ := ⟨hrunning, Option.some.inj hbody⟩
    have hs₁ : Reaches init s₁ := hs.tail hstep
    obtain ⟨bytes, insn, last, hread, hdecode, hterm, hexec⟩ := hstep.exists_executeCounted
    have hfetch : ∀ t, Reaches init t → Memory.read32 t.memory s.pc = .ok bytes :=
      fun t ht => read32_of_fetched hpure hs hstep hread ht
    -- a last instruction is a block of its own
    by_cases hlast : singleStep = true ∨ last = true
    · have hends := hlast.imp_right fun h => hterm.trans (congrArg Except.ok h)
      exact ⟨[insn], s₁, fun t ht => .last (hfetch t ht) hdecode hends, by
        simp [interpretInsns, hexec], hs₁, by simp, hrest⟩
    · obtain ⟨hmore, rfl⟩ : singleStep = false ∧ last = false := by simpa using hlast
      obtain ⟨hpc, hfin⟩ := pc_of_inner hterm hexec
      -- any other falls through to the block that starts with the next word
      obtain ⟨insns, s₂, hblock, hinterp, hs₂, hlen, hrest'⟩ :=
        ih hs₁ (hfin.trans hrunning) hrest
      refine ⟨insn :: insns, s₂, fun t ht => ?_, ?_, hs₂, by simpa using hlen, ?_⟩
      · exact .cons (hfetch t ht) hdecode hmore hterm (hpc ▸ hblock t ht)
      · rw [interpretInsns, List.forM_cons, run_seq_ok hexec]
        exact hinterp
      · exact Loop.whileNot_mono (Nat.le_succ fuel) (fun _ _ _ _ _ h => h) hrest'

end Fetch

end Prot
