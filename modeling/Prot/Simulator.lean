import Prot.ElfImage
import Prot.PlainFlat
import Prot.Jit.Factory
import Prot.SpecRuns

/-!
# The simulator

`main` of the simulator opens the file, creates the engine that the user asks for, loads the
segments into four gigabytes of plain memory and runs the hart. It returns the exit code of
the guest, or fails over an exception from any of these.

What the command line gives is taken as parsed. The dump and the measured time are left out.

## Main definitions

* `SimApp.main`: from the file and the options to the exit code
* `startState`: what the specification starts from

## Main results

* `exists_boot`: the state of the guest before its first instruction
* `main_backend`: the exit code and the backend
* `main_of_isRun`: the exit code by the specification
-/

namespace Prot

open Isa Interpreter Stateful
open Rv32i (Mnemonic IsRun SparesCode)

/-! ### Files -/

/-- What the parser makes of a file that it accepts. -/
structure ElfFile where
  elf : Elf
  e_entry : Word

/-- What ends the simulator early. -/
inductive SimError where
  | failedToLoad
  | invalidElf (e : Elf.Invalid)
  | undefinedBackend (e : UndefinedBackend)
  | guest (e : Exn)

/-- A loader, with the entry point of its file. -/
structure ElfProgram extends ElfLoader where
  e_entry : Word

namespace ElfProgram

/-- The constructor of `ElfLoader`. -/
def ofFile : Option ElfFile → Except SimError ElfProgram
  | none => throw .failedToLoad
  | some file =>
    match h : file.elf.validate with
    | .ok () => pure { m_elf := file.elf, valid := h, e_entry := file.e_entry }
    | .error e => throw (.invalidElf e)

/-- The accessor widens the field, and the address is narrowed again. -/
def getEntryPoint (program : ElfProgram) : Addr := (program.e_entry.setWidth 64).setWidth 32

theorem getEntryPoint_eq (program : ElfProgram) : program.getEntryPoint = program.e_entry :=
  BitVec.setWidth_setWidth_of_le _ (by decide)

end ElfProgram

instance (seg : Segment) (x : Addr) : Decidable (seg.Contains x) :=
  inferInstanceAs (Decidable (_ ∧ _))

/-! ### The hart -/

section Hart

variable {μ : Type}

/-- `Hart::load`. -/
def Hart.load [BlockMemory μ] (program : ElfProgram) : EStateM Exn (CPUState μ) Unit := fun cpu =>
  match program.loadMemory.run cpu.memory with
  | .ok _ memory => .ok () ({ cpu with memory }.setPC program.getEntryPoint)
  | .error e memory => .error e { cpu with memory }

/-- `Hart::setSP`. -/
def Hart.setSP (addr : Addr) : EStateM Exn (CPUState μ) Unit := modify (·.setReg 2 addr)

variable [Memory μ]

/-- The engines that `main` creates. -/
inductive Engine (μ : Type) where
  | interpreter
  | jit (config : JitEngine.Config) (m_translator : Option (Translator Unit μ))

/-- What is left of the CPU when the engine is gone. -/
def JitState.result {τ : Type} :
    EStateM.Result Exn (JitState τ μ) Unit → EStateM.Result Exn (CPUState μ) Unit
  | .ok _ j => .ok () j.cpu
  | .error e j => .error e j.cpu

/-- `Hart::run`, with an engine that has just been created. -/
def Engine.run : Engine μ → Loop.Fueled Exn (CPUState μ)
  | interpreter => Hart.runInterpreter
  | jit config m_translator => fun fuel cpu =>
    (Loop.whileNot (fun j => j.cpu.finished) (JitEngine.step config m_translator) fuel
      { cpu, translatorState := () }).map JitState.result

variable {config : JitEngine.Config} {m_translator : Option (Translator Unit μ)}
  {cpu : CPUState μ}

/-- The loop of the hart around the loop of the engine makes one round. -/
theorem Engine.exists_run_jit_iff {r : EStateM.Result Exn (CPUState μ) Unit} :
    (∃ n, (Engine.jit config m_translator).run n cpu = some r) ↔
      ∃ r', (∃ n, JitEngine.step config m_translator n { cpu, translatorState := () } = some r') ∧
        JitState.result r' = r := by
  simp only [Engine.run, Option.map_eq_some_iff]
  rw [exists_comm]
  refine exists_congr fun r' => ?_
  rw [exists_and_right]
  exact and_congr_left fun _ => Loop.exists_whileNot_whileNot_iff

/-- The engine returns when the loop around its blocks does. -/
theorem Engine.exists_run_jit_ok_iff {s : CPUState μ} :
    (∃ n, (Engine.jit config m_translator).run n cpu = some (.ok () s)) ↔
      ∃ n j, JitEngine.step config m_translator n { cpu, translatorState := () } =
        some (.ok () j) ∧ j.cpu = s := by
  rw [Engine.exists_run_jit_iff]
  constructor
  · rintro ⟨_ | _, ⟨n, hstep⟩, hresult⟩
    · cases hresult
      exact ⟨n, _, hstep, rfl⟩
    · cases hresult
  · rintro ⟨n, j, hstep, rfl⟩
    exact ⟨_, ⟨n, hstep⟩, rfl⟩

/-- The engine raises when the loop around its blocks does. -/
theorem Engine.exists_run_jit_error_iff {e : Exn} {s : CPUState μ} :
    (∃ n, (Engine.jit config m_translator).run n cpu = some (.error e s)) ↔
      ∃ n j, JitEngine.step config m_translator n { cpu, translatorState := () } =
        some (.error e j) ∧ j.cpu = s := by
  rw [Engine.exists_run_jit_iff]
  constructor
  · rintro ⟨_ | _, ⟨n, hstep⟩, hresult⟩
    · cases hresult
    · cases hresult
      exact ⟨n, _, hstep, rfl⟩
  · rintro ⟨n, j, hstep, rfl⟩
    exact ⟨_, ⟨n, hstep⟩, rfl⟩

end Hart

/-! ### `main` -/

namespace SimApp

/-- The stack pointer that is set if none is given. -/
def kDefaultStack : Addr := 0x7fffffff#32

/-- The options, with the defaults of the command line. -/
structure Options where
  stackTop : Addr := kDefaultStack
  jitBackend : String := ""
  jitConfig : JitEngine.Config := { execThreshold := 10#64 }

/-- What `main` reports of a guest that has exited. -/
structure Report where
  exitCode : Word
  icount : Icount

/-- The hart is loaded, and then its stack pointer is set. -/
def boot (program : ElfProgram) (stackTop : Addr) :
    EStateM.Result Exn (CPUState FullMemory) Unit :=
  (do Hart.load program; Hart.setSP stackTop : EStateM Exn (CPUState FullMemory) Unit).run
    { memory := {} }

/-- The engine that the options ask for: the interpreter, or the engine with a backend. -/
def createEngine (build : Build FullMemory) (opts : Options) :
    Except SimError (Engine FullMemory) :=
  let jitEnabled := opts.jitBackend ≠ ""
  if jitEnabled then
    match JitFactory.createTranslator build opts.jitBackend with
    | .ok translator => pure (.jit opts.jitConfig translator)
    | .error e => throw (.undefinedBackend e)
  else pure .interpreter

/-- What is printed after a run. -/
def report : EStateM.Result Exn (CPUState FullMemory) Unit → Except SimError Report
  | .ok _ cpu => .ok { exitCode := cpu.m_ExitCode, icount := cpu.icount }
  | .error e _ => .error (.guest e)

/-- `main`, as long as `fuel` lasts. -/
def main (build : Build FullMemory) (file : Option ElfFile) (opts : Options) (fuel : ℕ) :
    Option (Except SimError Report) :=
  match ElfProgram.ofFile file with
  | .error e => some (.error e)
  | .ok program =>
    match createEngine build opts with
    | .error e => some (.error e)
    | .ok engine =>
      match boot program opts.stackTop with
      | .error e _ => some (.error (.guest e))
      | .ok _ cpu => (engine.run fuel cpu).map report

end SimApp

/-! ### Where the guest starts -/

/-- The bytes of the segments, and zeros around them. -/
def ElfLoader.image (loader : ElfLoader) (x : Addr) : Byte :=
  match loader.loads.find? fun seg => seg.Contains x with
  | some seg => seg.byte (x.toNat - seg.p_vaddr.toNat)
  | none => 0#8

/-- An image in memory is the image of the file, with zeros around it. -/
theorem ElfLoader.image_eq_of_isImage {loader : ElfLoader} {f : FlatMemory}
    (h : IsImage loader.loads (fun _ => none) f) (x : Addr) : (f x).getD 0#8 = loader.image x := by
  rw [ElfLoader.image]
  split
  · next seg hfind =>
    have hcontains : seg.Contains x := by simpa using List.find?_some hfind
    rw [h.inside seg (List.mem_of_find?_eq_some hfind) x hcontains, Option.getD_some]
  · next hfind =>
    have hnone : ∀ seg ∈ loader.loads, ¬ seg.Contains x := by simpa using hfind
    rw [h.outside x hnone, Option.getD_none]

/-- The image of the file is in memory, `pc` is at its entry point, and all registers but the
stack pointer are zero. -/
def startState (program : ElfProgram) (stackTop : Addr) : Rv32i.State where
  regs r := if r = 2#5 then stackTop else 0#32
  pc := program.e_entry
  mem := program.image

namespace SimApp

variable {program : ElfProgram} {stackTop : Addr} {cpu : CPUState FullMemory}

/-- What `boot` leaves, but for the memory. -/
def booted (program : ElfProgram) (stackTop : Addr) (memory : FullMemory) : CPUState FullMemory :=
  (CPUState.setPC { memory } program.getEntryPoint).setReg 2 stackTop

/-- Booting is loading the file and setting two registers. -/
theorem boot_eq_ok_iff : boot program stackTop = .ok () cpu ↔
    ∃ memory, program.loadMemory.run {} = .ok () memory ∧
      cpu = booted program stackTop memory := by
  have hboot : boot program stackTop =
      match program.loadMemory.run {} with
      | .ok _ memory => .ok () (booted program stackTop memory)
      | .error e memory => .error e { memory } := by
    cases hload : program.loadMemory.run ({} : FullMemory) with
    | ok _ memory =>
      have hrun : (Hart.load program).run { memory := ({} : FullMemory) } =
          .ok () (CPUState.setPC { memory } program.getEntryPoint) := by
        change Hart.load program _ = _
        rw [Hart.load, hload]
      rw [boot, run_seq_ok hrun]
      rfl
    | error e memory =>
      have hrun : (Hart.load program).run { memory := ({} : FullMemory) } =
          .error e { memory } := by
        change Hart.load program _ = _
        rw [Hart.load, hload]
      rw [boot, run_seq_error hrun]
  rw [hboot]
  cases program.loadMemory.run ({} : FullMemory) with
  | ok _ memory =>
    constructor
    · rintro ⟨rfl⟩
      exact ⟨memory, rfl, rfl⟩
    · rintro ⟨_, ⟨rfl⟩, rfl⟩
      rfl
  | error e memory => exact iff_of_false nofun fun ⟨_, h, _⟩ => nomatch h

/-- A CPU that was booted is running. -/
theorem finished_of_boot (h : boot program stackTop = .ok () cpu) : cpu.finished = false := by
  obtain ⟨memory, -, rfl⟩ := boot_eq_ok_iff.mp h
  rfl

theorem getReg_zero_of_boot (h : boot program stackTop = .ok () cpu) : cpu.getReg 0 = 0#32 := by
  obtain ⟨memory, -, rfl⟩ := boot_eq_ok_iff.mp h
  rfl

theorem icount_of_boot (h : boot program stackTop = .ok () cpu) : cpu.icount = 0#64 := by
  obtain ⟨memory, -, rfl⟩ := boot_eq_ok_iff.mp h
  rfl

/-- All registers are zero at first. -/
theorem arch_booted {memory : FullMemory} (h : ∀ x, memory.byteAt x = program.image x) :
    (booted program stackTop memory).arch = startState program stackTop := by
  refine Rv32i.State.ext (funext fun r => ?_) program.getEntryPoint_eq (funext h)
  change (booted program stackTop memory).getReg r.toNat = if r = 2#5 then stackTop else 0#32
  rw [booted]
  split_ifs with hr
  · subst hr
    rw [CPUState.setReg_of_ne _ _ two_ne_zero]
    exact CPUState.getReg_putReg_self _ _ (by decide)
  · have hne : 2 ≠ r.toNat := fun h => hr (BitVec.eq_of_toNat_eq h.symm)
    rw [CPUState.getReg_setReg_of_ne _ _ hne, CPUState.setPC_getReg, CPUState.getReg,
      Vector.getElem?_replicate, if_pos r.isLt, Option.getD_some]

variable (stackTop) in
/-- A file that is well formed is loaded, and the guest starts from what it says. -/
theorem exists_boot (hwf : program.WellFormed) :
    ∃ cpu, boot program stackTop = .ok () cpu ∧ cpu.arch = startState program stackTop := by
  have hcovers : ∀ seg ∈ program.loads,
      (PlainMemory.flatStore 0#32 (2 ^ 32)).Covers seg.p_vaddr seg.p_memsz.toNat :=
    fun seg hseg => ⟨Nat.zero_le _, by simpa using (hwf.segment seg hseg).space,
      (hwf.segment seg hseg).space⟩
  obtain ⟨memory, f, hload, hholds, himage⟩ :=
    exists_holds_forM_load (PlainMemory.flatStore 0#32 (2 ^ 32)) hwf.segment hwf.disjoint hcovers
      PlainMemory.represents_empty
  refine ⟨_, boot_eq_ok_iff.mpr ⟨memory, hload, rfl⟩, arch_booted fun x => ?_⟩
  rw [← ElfLoader.image_eq_of_isImage himage x, ← hholds x (Nat.zero_le _) (by simp [x.isLt])]
  rfl

/-! ### What `main` comes to -/

variable {build : Build FullMemory} {file : Option ElfFile} {opts : Options}

/-- The same options without `--jit`. -/
def Options.interpreted (opts : Options) : Options := { opts with jitBackend := "" }

/-- With no backend, the interpreter runs. -/
theorem createEngine_interpreted : createEngine build opts.interpreted = .ok .interpreter := rfl

/-- A backend that is built in has an engine. -/
theorem exists_createEngine (hbackend : opts.jitBackend ∈ JitFactory.backends build) :
    ∃ t, JitFactory.createTranslator build opts.jitBackend = .ok t ∧
      createEngine build opts = .ok (.jit opts.jitConfig t) := by
  obtain ⟨t, ht⟩ := JitFactory.exists_createTranslator_iff.mpr hbackend
  have hne : opts.jitBackend ≠ "" := by
    intro hempty
    rw [hempty] at hbackend
    exact absurd hbackend (by simp [JitFactory.backends, JitFactory.kFactories])
  refine ⟨t, ht, ?_⟩
  rw [createEngine]
  simp only [hne, ne_eq, not_false_eq_true, if_true, ht]
  rfl

section Main

variable {engine : Engine FullMemory}

/-- If the guest does not come to run, the engine does not matter. -/
theorem main_eq_interpreted (hengine : createEngine build opts = .ok engine)
    (h : ∀ program cpu, ElfProgram.ofFile file = .ok program →
      boot program opts.stackTop ≠ .ok () cpu) (n : ℕ) :
    main build file opts n = main build file opts.interpreted n := by
  rw [main, main]
  cases hfile : ElfProgram.ofFile file with
  | error e => rfl
  | ok program =>
    simp only [hengine, createEngine_interpreted]
    cases hboot : boot program opts.stackTop with
    | error e s => simp only [Options.interpreted, hboot]
    | ok _ cpu => exact absurd hboot (h program cpu hfile)

/-- All is set, and the engine runs. -/
theorem main_eq_map (hfile : ElfProgram.ofFile file = .ok program)
    (hengine : createEngine build opts = .ok engine)
    (hboot : boot program opts.stackTop = .ok () cpu) (n : ℕ) :
    main build file opts n = (engine.run n cpu).map report := by
  rw [main, hfile]
  simp only [hengine, hboot]

/-- The simulator reports what a run ends in. -/
theorem exists_main_ok_iff (hfile : ElfProgram.ofFile file = .ok program)
    (hengine : createEngine build opts = .ok engine)
    (hboot : boot program opts.stackTop = .ok () cpu) {r : Report} :
    (∃ n, main build file opts n = some (.ok r)) ↔
      ∃ s, (∃ n, engine.run n cpu = some (.ok () s)) ∧ r = ⟨s.m_ExitCode, s.icount⟩ := by
  simp only [main_eq_map hfile hengine hboot, Option.map_eq_some_iff]
  constructor
  · rintro ⟨n, _ | ⟨e, s⟩, hrun, hreport⟩
    · cases hreport
      exact ⟨_, ⟨n, hrun⟩, rfl⟩
    · cases hreport
  · rintro ⟨s, ⟨n, hrun⟩, rfl⟩
    exact ⟨n, _, hrun, rfl⟩

/-- The exit code of the simulator is that of a run. -/
theorem exists_main_exitCode_iff (hfile : ElfProgram.ofFile file = .ok program)
    (hengine : createEngine build opts = .ok engine)
    (hboot : boot program opts.stackTop = .ok () cpu) {code : Word} :
    (∃ n r, main build file opts n = some (.ok r) ∧ r.exitCode = code) ↔
      ∃ s, (∃ n, engine.run n cpu = some (.ok () s)) ∧ s.m_ExitCode = code := by
  rw [exists_comm]
  simp only [exists_and_right, exists_main_ok_iff hfile hengine hboot]
  constructor
  · rintro ⟨_, ⟨s, hrun, rfl⟩, hcode⟩
    exact ⟨s, hrun, hcode⟩
  · rintro ⟨s, hrun, hcode⟩
    exact ⟨_, ⟨s, hrun, rfl⟩, hcode⟩

/-- The simulator fails when the run raises. -/
theorem exists_main_error_iff (hfile : ElfProgram.ofFile file = .ok program)
    (hengine : createEngine build opts = .ok engine)
    (hboot : boot program opts.stackTop = .ok () cpu) :
    (∃ n e, main build file opts n = some (.error e)) ↔
      ∃ e s n, engine.run n cpu = some (.error e s) := by
  simp only [main_eq_map hfile hengine hboot, Option.map_eq_some_iff]
  constructor
  · rintro ⟨n, _, _ | ⟨e, s⟩, hrun, hreport⟩
    · cases hreport
    · exact ⟨e, s, n, hrun⟩
  · rintro ⟨e, s, n, hrun⟩
    exact ⟨n, _, _, hrun, rfl⟩

end Main

/-- What a backend asks of the guest. -/
structure Suits (backend : String) (cpu : CPUState FullMemory) : Prop where
  settled : SettlesCode cpu
  aligned : FetchesAligned cpu
  respects : ∀ b ∈ JitFactory.backendOf backend, RunRespects b cpu

/-- The conditions on a backend are those of its translator. -/
theorem Suits.serves {backend : String} {t : Option (Translator Unit FullMemory)}
    (h : Suits backend cpu) (ht : JitFactory.createTranslator build backend = .ok t) :
    JitEngine.Serves t cpu := by
  intro translate htranslate
  obtain ⟨b, hb, htranslates⟩ := JitFactory.translates_of_createTranslator ht translate htranslate
  exact ⟨b, htranslates, h.respects b hb⟩

variable (build opts)

/-- Whatever backend is asked for, a guest that it suits exits if it does on the interpreter,
and with the same code. If the simulator fails over an exception, it also fails without a
backend. The other way around it need not, since the engine may collect a block forever; but
it does when it single-steps. -/
theorem main_backend (hbackend : opts.jitBackend ∈ JitFactory.backends build)
    (hsuits : ∀ program cpu, ElfProgram.ofFile file = .ok program →
      boot program opts.stackTop = .ok () cpu → Suits opts.jitBackend cpu) :
    (∀ code, (∃ n r, main build file opts n = some (.ok r) ∧ r.exitCode = code) ↔
      ∃ n r, main build file opts.interpreted n = some (.ok r) ∧ r.exitCode = code) ∧
    ((∃ n e, main build file opts n = some (.error e)) →
      ∃ n e, main build file opts.interpreted n = some (.error e)) ∧
    (opts.jitConfig.singleStep = true →
      (∃ n e, main build file opts.interpreted n = some (.error e)) →
      ∃ n e, main build file opts n = some (.error e)) := by
  obtain ⟨t, ht, hengine⟩ := exists_createEngine hbackend
  by_cases hguest : ∃ program cpu, ElfProgram.ofFile file = .ok program ∧
      boot program opts.stackTop = .ok () cpu
  · obtain ⟨program, cpu, hfile, hboot⟩ := hguest
    have hguest := hsuits program cpu hfile hboot
    have hserves := hguest.serves ht
    have hzero := getReg_zero_of_boot hboot
    refine ⟨fun code => ?_, ?_, ?_⟩
    · rw [exists_main_exitCode_iff hfile hengine hboot,
        exists_main_exitCode_iff hfile createEngine_interpreted hboot]
      have hexit := JitEngine.exitCode_iff hserves opts.jitConfig () hzero hguest.settled
        hguest.aligned code
      simp only [Engine.exists_run_jit_ok_iff]
      constructor
      · rintro ⟨_, ⟨n, j, hstep, rfl⟩, hcode⟩
        obtain ⟨m, s, hinterp, hcode'⟩ := hexit.mp ⟨n, j, hstep, hcode⟩
        exact ⟨s, ⟨m, hinterp⟩, hcode'⟩
      · rintro ⟨s, ⟨n, hinterp⟩, hcode⟩
        obtain ⟨m, j, hstep, hcode'⟩ := hexit.mpr ⟨n, s, hinterp, hcode⟩
        exact ⟨j.cpu, ⟨m, j, hstep, rfl⟩, hcode'⟩
    · rw [exists_main_error_iff hfile hengine hboot,
        exists_main_error_iff hfile createEngine_interpreted hboot]
      rintro ⟨e, s, hrun⟩
      obtain ⟨n, j, hstep, -⟩ := Engine.exists_run_jit_error_iff.mp hrun
      obtain ⟨m, e', s', hinterp⟩ := JitEngine.runInterpreter_error_of_serves hserves hzero
        hguest.settled hguest.aligned hstep
      exact ⟨e', s', m, hinterp⟩
    · rw [exists_main_error_iff hfile hengine hboot,
        exists_main_error_iff hfile createEngine_interpreted hboot]
      rintro hsingle ⟨e, s, n, hinterp⟩
      obtain ⟨m, e', j, hstep⟩ := JitEngine.step_error_of_serves hserves hsingle () hzero
        hguest.settled hguest.aligned hinterp
      exact ⟨e', j.cpu, Engine.exists_run_jit_error_iff.mpr ⟨m, j, hstep, rfl⟩⟩
  · push Not at hguest
    simp only [main_eq_interpreted hengine hguest]
    exact ⟨fun _ => trivial, id, fun _ => id⟩

section Spec

variable {build opts} {trace : ℕ → Rv32i.State} {n : ℕ}

/-- Without a backend, the simulator follows the specification to the exit. -/
theorem exists_main_interpreted_of_isRun (hfile : ElfProgram.ofFile file = .ok program)
    (hwf : program.WellFormed) (hstart : trace 0 = startState program opts.stackTop)
    (hrun : IsRun trace n) (hexit : AsksExit (trace n)) :
    ∃ fuel, main build file opts.interpreted fuel =
      some (.ok ⟨(trace n).x 10#5, BitVec.ofNat 64 (n + 1)⟩) := by
  obtain ⟨cpu, hboot, harch⟩ := exists_boot opts.stackTop hwf
  obtain ⟨s', hinterp, hcode, -, hcount, -⟩ := exits_of_isRun (finished_of_boot hboot)
    (getReg_zero_of_boot hboot) (harch.trans hstart.symm) hrun hexit
  rw [icount_of_boot hboot, BitVec.zero_add] at hcount
  exact (exists_main_ok_iff hfile createEngine_interpreted hboot).mpr
    ⟨s', hinterp, by rw [hcode, hcount]⟩

/-- With a backend, it does so too. -/
theorem exists_main_of_isRun (hfile : ElfProgram.ofFile file = .ok program)
    (hwf : program.WellFormed) (hstart : trace 0 = startState program opts.stackTop)
    (hrun : IsRun trace n) (hexit : AsksExit (trace n)) (hspares : SparesCode trace n)
    (hbackend : opts.jitBackend ∈ JitFactory.backends build)
    (hkeeps : ∀ b ∈ JitFactory.backendOf opts.jitBackend, ∀ k < n, ∀ m : Mnemonic,
      m.Encodes (trace k).fetched → b.Keeps m (trace k)) :
    ∃ icount, (∃ fuel, main build file opts fuel = some (.ok ⟨(trace n).x 10#5, icount⟩)) ∧
      (n + 1 < 2 ^ 32 → icount = BitVec.ofNat 64 (n + 1)) := by
  obtain ⟨cpu, hboot, harch⟩ := exists_boot opts.stackTop hwf
  have hicount := icount_of_boot hboot
  obtain ⟨s', -, hcode, -, hcount, hjit⟩ := exits_of_isRun (finished_of_boot hboot)
    (getReg_zero_of_boot hboot) (harch.trans hstart.symm) hrun hexit
  rw [hicount, BitVec.zero_add] at hcount
  obtain ⟨t, ht, hengine⟩ := exists_createEngine hbackend
  have hkept : ∀ translate ∈ t, ∃ b : Backend, b.Translates translate ∧
      ∀ k < n, ∀ m : Mnemonic, m.Encodes (trace k).fetched → b.Keeps m (trace k) := by
    intro translate htranslate
    obtain ⟨b, hb, htranslates⟩ :=
      JitFactory.translates_of_createTranslator ht translate htranslate
    exact ⟨b, htranslates, hkeeps b hb⟩
  obtain ⟨fuel, j, hstep, hcpu, hexact⟩ := hjit hspares Unit t hkept opts.jitConfig ()
  have hreport : ∃ fuel, main build file opts fuel = some (.ok ⟨s'.m_ExitCode, j.cpu.icount⟩) :=
    (exists_main_ok_iff hfile hengine hboot).mpr
      ⟨j.cpu, Engine.exists_run_jit_ok_iff.mpr ⟨fuel, j, hstep, rfl⟩, by rw [hcpu]; rfl⟩
  rw [← hcode, ← hcount]
  refine ⟨j.cpu.icount, hreport, fun hshort => ?_⟩
  rw [hexact (by rw [hicount]; simpa using hshort)]

variable (build opts)

/-- A program that, by the specification, runs `n` instructions from where the file says and
then asks for the exit makes the simulator report the argument of the call and `n + 1`
instructions. If it spares its code, the backends report the same, apart from what they get
wrong and, after `2 ^ 32` instructions, the count. -/
theorem main_of_isRun (hfile : ElfProgram.ofFile file = .ok program) (hwf : program.WellFormed)
    (hstart : trace 0 = startState program opts.stackTop) (hrun : IsRun trace n)
    (hexit : AsksExit (trace n)) :
    (∃ fuel, main build file opts.interpreted fuel =
      some (.ok ⟨(trace n).x 10#5, BitVec.ofNat 64 (n + 1)⟩)) ∧
    (SparesCode trace n → opts.jitBackend ∈ JitFactory.backends build →
      (∀ b ∈ JitFactory.backendOf opts.jitBackend, ∀ k < n, ∀ m : Mnemonic,
        m.Encodes (trace k).fetched → b.Keeps m (trace k)) →
      ∃ icount, (∃ fuel, main build file opts fuel = some (.ok ⟨(trace n).x 10#5, icount⟩)) ∧
        (n + 1 < 2 ^ 32 → icount = BitVec.ofNat 64 (n + 1))) :=
  ⟨exists_main_interpreted_of_isRun hfile hwf hstart hrun hexit,
    exists_main_of_isRun hfile hwf hstart hrun hexit⟩

end Spec

/-! ### A file that exits at once -/

/-- A build whose registers hold nothing of use. -/
def sampleBuild : Build FullMemory where
  xbyak := ⟨0x7000#64, ⟨XByak.sampleAddr, XByak.sampleAddr_injective⟩, fun _ _ => 0#64⟩
  xbyakJunk :=
    { regs := fun _ => 0#64, flags := none, stack := [], mem := { cpu := { memory := {} } } }
  asmjitState := 0x7000#64
  asmjitJunk :=
    { regs := fun _ => 0#64, flags := none, stack := [], mem := { cpu := { memory := {} } } }
  lightning := ⟨0x7000#64, fun _ _ => 0#64⟩
  lightningJunk := { regs := fun _ => 0#64, mem := { cpu := { memory := {} } } }
  mirState := 0x7000#64
  mirJunk := { regs := fun _ => 0#64, upper := fun _ => 0#32, mem := { cpu := { memory := {} } } }

/-- `addi x10, x0, 7; addi x17, x0, 93; ecall`. -/
def exitSevenCode : List Byte :=
  [0x13#8, 0x05#8, 0x70#8, 0x00#8, 0x93#8, 0x08#8, 0xD0#8, 0x05#8, 0x73#8, 0x00#8, 0x00#8, 0x00#8]

/-- A file with one segment: `li a0, 7`, `li a7, 93` and `ecall`. -/
def exitSevenFile : ElfFile where
  elf := {
    e_type := Elf.ET_EXEC
    ei_data := Elf.ELFDATA2LSB
    ei_class := Elf.ELFCLASS32
    e_machine := Elf.EM_RISCV
    segments := [⟨PT_LOAD, 0x1000#32, 12#32, 12#32, exitSevenCode, rfl⟩] }
  e_entry := 0x1000#32

/-- The program in the file. -/
def exitSeven : ElfProgram := { m_elf := exitSevenFile.elf, valid := rfl, e_entry := 0x1000#32 }

theorem ofFile_exitSevenFile : ElfProgram.ofFile (some exitSevenFile) = .ok exitSeven := rfl

/-- A file with one segment is well formed if the segment is. -/
theorem wellFormed_of_loads_eq {loader : ElfLoader} {seg : Segment} (hloads : loader.loads = [seg])
    (hwf : seg.WellFormed) : loader.WellFormed where
  segment := by
    rw [hloads]
    exact List.forall_mem_singleton.mpr hwf
  disjoint := hloads ▸ List.pairwise_singleton ..

theorem wellFormed_exitSeven : exitSeven.WellFormed :=
  wellFormed_of_loads_eq rfl ⟨by decide, by decide⟩

/-- Two additions. -/
def exitSevenTrace : ℕ → Rv32i.State
  | 0 => startState exitSeven kDefaultStack
  | k + 1 => Mnemonic.addi.exec (exitSevenTrace k).fetched (exitSevenTrace k)

theorem isRun_exitSevenTrace : IsRun exitSevenTrace 2 where
  aligned k hk := by interval_cases k <;> rfl
  exec k hk := by
    refine ⟨.addi, ?_, ⟨nofun, nofun⟩, rfl⟩
    interval_cases k <;> exact ⟨by decide, by decide, by decide⟩

theorem asksExit_exitSevenTrace : AsksExit (exitSevenTrace 2) := ⟨by decide, by decide⟩

theorem eq_addi_of_encodes {k : ℕ} (hk : k < 2) {m : Mnemonic}
    (h : m.Encodes (exitSevenTrace k).fetched) : m = .addi := by
  refine encodes_unique h ?_
  interval_cases k <;> exact ⟨by decide, by decide, by decide⟩

theorem sparesCode_exitSevenTrace : SparesCode exitSevenTrace 2 := by
  intro i hi m hm b hb
  cases eq_addi_of_encodes hi hm
  cases hb

theorem keeps_exitSevenTrace (b : Backend) {k : ℕ} (hk : k < 2) {m : Mnemonic}
    (h : m.Encodes (exitSevenTrace k).fetched) : b.Keeps m (exitSevenTrace k) := by
  cases eq_addi_of_encodes hk h
  cases b with
  | ir => nofun
  | llvm => exact fun hmem => absurd hmem (by decide)
  | xbyak | asmjit | lightning | mir => trivial

/-- The file exits with 7, on the interpreter and on a backend. -/
theorem main_of_isRun_exitSeven :
    (∃ fuel, main sampleBuild (some exitSevenFile) {} fuel = some (.ok ⟨7#32, 3#64⟩)) ∧
      ∃ fuel, main sampleBuild (some exitSevenFile) { jitBackend := "ir" } fuel =
        some (.ok ⟨7#32, 3#64⟩) := by
  obtain ⟨hinterpreted, hjit⟩ := main_of_isRun sampleBuild { jitBackend := "ir" }
    ofFile_exitSevenFile wellFormed_exitSeven rfl isRun_exitSevenTrace asksExit_exitSevenTrace
  obtain ⟨icount, hrun, hcount⟩ := hjit sparesCode_exitSevenTrace (by decide)
    fun b _ k hk m hm => keeps_exitSevenTrace b hk hm
  cases hcount (by decide)
  exact ⟨hinterpreted, hrun⟩

/-- The run in the specification answers what a backend asks. -/
theorem suits_of_boot (h : boot exitSeven kDefaultStack = .ok () cpu) (backend : String) :
    Suits backend cpu := by
  obtain ⟨cpu', hboot, harch⟩ := exists_boot kDefaultStack wellFormed_exitSeven
  cases h.symm.trans hboot
  have hat : At cpu exitSevenTrace 0 cpu :=
    ⟨.refl, harch, finished_of_boot h, getReg_zero_of_boot h, by simp⟩
  obtain ⟨s', ⟨fuel, hrun⟩, -⟩ := exits_of_isRun (finished_of_boot h) (getReg_zero_of_boot h)
    harch isRun_exitSevenTrace asksExit_exitSevenTrace
  exact {
    settled := (noSelfModification_of_isRun isRun_exitSevenTrace hat asksExit_exitSevenTrace
      sparesCode_exitSevenTrace).settlesCode
    aligned := fetchesAligned_of_returns hrun
    respects := fun b _ => runRespects_of_isRun isRun_exitSevenTrace hat asksExit_exitSevenTrace
      fun k hk m hm => keeps_exitSevenTrace b hk hm }

/-- The file exits with 7 on a backend exactly if it does so on the interpreter. -/
theorem main_backend_exitSeven :
    (∃ n r, main sampleBuild (some exitSevenFile) { jitBackend := "ir" } n = some (.ok r) ∧
        r.exitCode = 7#32) ↔
      ∃ n r, main sampleBuild (some exitSevenFile) {} n = some (.ok r) ∧ r.exitCode = 7#32 :=
  (main_backend sampleBuild { jitBackend := "ir" } (by decide) fun program cpu hfile hboot => by
    cases ofFile_exitSevenFile.symm.trans hfile
    exact suits_of_boot hboot "ir").1 7#32

end SimApp

end Prot
