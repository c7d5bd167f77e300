import Prot.ExecEngine
import Prot.PlainMemory

/-!
# The JIT engine

`JitEngine::step` runs the guest block by block: through the translation-block
cache, by translating the block, or by interpreting it. A generated function is
a computation on the CPU state; a translator may keep a state of its own.

The main result, `JitEngine.step_eq_interpreter`, says that none of this shows:
with translators that are correct block by block, and a guest that does not
modify the code it runs, the engine ends where the interpreter ends.
-/

namespace Prot

open Isa Interpreter

variable {μ τ : Type}

/-- `void (*)(CPUState &)`. -/
abbrev JitFunction (μ : Type) := EStateM Exn (CPUState μ) Unit

/-- `JitEngine::BBInfo`: a basic block, and how often it was interpreted. -/
structure BBInfo where
  insns : List Instruction := []
  num_exec : SizeT := 0#64

/-- `Translator::translate`; a null pointer is `none`, and `τ` is what the
translator keeps between calls. -/
abbrev Translator (τ μ : Type) := BBInfo → EStateM Exn τ (Option (JitFunction μ))

/-! ### The translation-block cache -/

namespace TbCache

/-- There are `2 ^ 22` slots. -/
def kSizeLog2 : ℕ := 22

/-- The number of the slots. -/
def kSize : Word := 1#32 <<< kSizeLog2

/-- Instructions have four bytes. -/
def kGpaGranularityLog2 : ℕ := 2

/-- `TbCache::Entry`. A slot without a function is empty, whatever its address is. -/
structure Entry (μ : Type) where
  func : Option (JitFunction μ) := none
  gpa : Word := 0#32

/-- The slot of an address. -/
def getHash (gpa : Word) : Word := (gpa >>> kGpaGranularityLog2) &&& (kSize - 1#32)

end TbCache

/-- A direct-mapped cache. -/
structure TbCache (μ : Type) where
  m_cache : Word → TbCache.Entry μ := fun _ => {}

namespace TbCache

/-- The entry in the slot of an address. -/
def get (c : TbCache μ) (gpa : Word) : Entry μ := c.m_cache (getHash gpa)

/-- `TbCache::lookup`. -/
def lookup (c : TbCache μ) (gpa : Word) : Option (JitFunction μ) :=
  let entry := c.get gpa
  if entry.gpa = gpa then entry.func else none

/-- `TbCache::insert`, which takes the slot from whatever was in it. -/
def insert (c : TbCache μ) (gpa : Word) (func : JitFunction μ) : TbCache μ where
  m_cache := Function.update c.m_cache (getHash gpa) { func := some func, gpa := gpa }

/-- An empty cache has nothing for any address, zero included. -/
theorem lookup_empty (gpa : Word) : ({} : TbCache μ).lookup gpa = none := by
  have hentry : (({} : TbCache μ).get gpa).func = none := rfl
  simp only [lookup, hentry, ite_self]

/-- The cache returns only what was inserted under the very same address,
whatever else has shared its slot since. -/
theorem lookup_insert {c : TbCache μ} {gpa a : Word} {func f : JitFunction μ}
    (h : (c.insert gpa func).lookup a = some f) : (a = gpa ∧ f = func) ∨ c.lookup a = some f := by
  by_cases hslot : getHash a = getHash gpa
  · simp only [lookup, get, insert, hslot, Function.update_self] at h
    split at h
    · next heq => exact .inl ⟨heq.symm, (Option.some.inj h).symm⟩
    · cases h
  · simp only [lookup, get, insert, Function.update_of_ne hslot] at h
    exact .inr h

end TbCache

/-! ### The engine -/

section Engine

variable [Memory μ]

/-- `JitEngine::Config`. The dump before each block is left out. -/
structure JitEngine.Config where
  execThreshold : SizeT := 0#64
  singleStep : Bool := false

/-- The engine with the CPU that it runs. -/
structure JitState (τ μ : Type) where
  cpu : CPUState μ
  m_tbCache : TbCache μ := {}
  m_cacheBB : Addr → Option BBInfo := fun _ => none
  /-- What the translator keeps. -/
  translatorState : τ

namespace JitEngine

/-- Runs a computation on the CPU. -/
def onCpu {α : Type} (x : EStateM Exn (CPUState μ) α) : EStateM Exn (JitState τ μ) α := fun j =>
  match x.run j.cpu with
  | .ok a cpu => .ok a { j with cpu }
  | .error e cpu => .error e { j with cpu }

/-- Runs a computation on the state of the translator. -/
def onTranslator {α : Type} (x : EStateM Exn τ α) : EStateM Exn (JitState τ μ) α := fun j =>
  match x.run j.translatorState with
  | .ok a translatorState => .ok a { j with translatorState }
  | .error e translatorState => .error e { j with translatorState }

section Parts

omit [Memory μ]

variable {α : Type} {j : JitState τ μ} {a : α} {e : Exn}

theorem run_onCpu_ok {x : EStateM Exn (CPUState μ) α} {cpu : CPUState μ}
    (h : x.run j.cpu = .ok a cpu) : (onCpu x).run j = .ok a { j with cpu } := by
  simp only [onCpu, EStateM.run] at h ⊢
  rw [h]

theorem run_onCpu_error {x : EStateM Exn (CPUState μ) α} {cpu : CPUState μ}
    (h : x.run j.cpu = .error e cpu) : (onCpu x).run j = .error e { j with cpu } := by
  simp only [onCpu, EStateM.run] at h ⊢
  rw [h]

theorem run_onTranslator_ok {x : EStateM Exn τ α} {ts : τ}
    (h : x.run j.translatorState = .ok a ts) :
    (onTranslator x).run j = .ok a { j with translatorState := ts } := by
  simp only [onTranslator, EStateM.run] at h ⊢
  rw [h]

theorem run_onTranslator_error {x : EStateM Exn τ α} {ts : τ}
    (h : x.run j.translatorState = .error e ts) :
    (onTranslator x).run j = .error e { j with translatorState := ts } := by
  simp only [onTranslator, EStateM.run] at h ⊢
  rw [h]

theorem exists_of_run_onCpu_eq_ok {x : EStateM Exn (CPUState μ) α} {j' : JitState τ μ}
    (h : (onCpu x).run j = .ok a j') : ∃ cpu, x.run j.cpu = .ok a cpu ∧ j' = { j with cpu } := by
  cases hx : x.run j.cpu with
  | ok b cpu =>
    rw [run_onCpu_ok hx] at h
    cases h
    exact ⟨cpu, rfl, rfl⟩
  | error e cpu =>
    rw [run_onCpu_error hx] at h
    cases h

end Parts

/-- Sets the entry for `pc` in `m_cacheBB`. -/
def setBB (pc : Addr) (bb : BBInfo) (j : JitState τ μ) : JitState τ μ :=
  { j with m_cacheBB := Function.update j.m_cacheBB pc (some bb) }

omit [Memory μ] in
/-- An entry of the map is the one just made or an older one. -/
theorem m_cacheBB_setBB {pc a : Addr} {bb info : BBInfo} {j : JitState τ μ}
    (h : (setBB pc bb j).m_cacheBB a = some info) :
    (a = pc ∧ info = bb) ∨ j.m_cacheBB a = some info := by
  by_cases ha : a = pc
  · simp only [setBB, ha, Function.update_self] at h
    exact .inl ⟨ha, (Option.some.inj h).symm⟩
  · simp only [setBB, Function.update_of_ne ha] at h
    exact .inr h

/-- Inserts code into the cache. -/
def insertTb (pc : Addr) (code : JitFunction μ) (j : JitState τ μ) : JitState τ μ :=
  { j with m_tbCache := j.m_tbCache.insert pc code }

/-- `m_cacheBB.try_emplace(pc)` and the collection of a new block. The entry is made before the
collection begins, so one that raises leaves what it has collected in the map. -/
def tryEmplace (singleStep : Bool) (fuel : ℕ) (pc : Addr) (j : JitState τ μ) :
    Option (EStateM.Result Exn (JitState τ μ) BBInfo) :=
  match j.m_cacheBB pc with
  | some bb => some (.ok bb j)
  | none =>
    match collectBlock (Memory.read .word j.cpu.memory) singleStep fuel pc [] with
    | none => none
    | some (insns, none) => some (.ok { insns } (setBB pc { insns } j))
    | some (insns, some e) => some (.error e (setBB pc { insns } j))

/-- `JitEngine::interpret`. -/
def interpret (pc : Addr) (info : BBInfo) : EStateM Exn (JitState τ μ) Unit := do
  onCpu (interpretInsns info.insns)
  modify (setBB pc { info with num_exec := info.num_exec + 1#64 })

/-- What `JitEngine::step` does with a block that is in no translation cache. Generated code is
cached after it has run, and only if it returned. -/
def runBlock (config : Config) (m_translator : Option (Translator τ μ)) (pc : Addr)
    (bb : BBInfo) : EStateM Exn (JitState τ μ) Unit :=
  match m_translator with
  | some translate =>
    if bb.num_exec ≥ config.execThreshold then do
      let code ← onTranslator (translate bb)
      match code with
      | none => throw (.failedToTranslate pc)
      | some code =>
        onCpu code
        modify (insertTb pc code)
    else interpret pc bb
  | none => interpret pc bb

/-- The body of the loop in `JitEngine::step`. The cache is consulted only if there is a
translator. -/
def stepBody (config : Config) (m_translator : Option (Translator τ μ)) :
    Loop.Fueled Exn (JitState τ μ) := fun fuel j =>
  let pc := j.cpu.getPC
  match m_translator.bind fun _ => j.m_tbCache.lookup pc with
  | some found => some ((onCpu found).run j)
  | none =>
    match tryEmplace config.singleStep fuel pc j with
    | none => none
    | some (.error e j) => some (.error e j)
    | some (.ok bb j) => some ((runBlock config m_translator pc bb).run j)

/-- `JitEngine::step`. -/
def step (config : Config) (m_translator : Option (Translator τ μ)) :
    Loop.Fueled Exn (JitState τ μ) :=
  Loop.whileNot (fun j => j.cpu.finished) (stepBody config m_translator)

/-! ### Equivalence with the interpreter -/

/-- A generated function does what interpreting the block does, wherever that
raises nothing. -/
def Computes (code : JitFunction μ) (insns : List Instruction) : Prop :=
  ∀ s s' : CPUState μ, s.getReg 0 = 0#32 → (interpretInsns insns).run s = .ok () s' →
    code.run s = .ok () s'

/-- In every state of its own and for every block, the translator returns a function, and never
a null pointer, and the function computes the block. -/
def BlockCorrect (translate : Translator τ μ) : Prop :=
  ∀ info ts, IsBlock info.insns → ∃ code ts', (translate info).run ts = .ok (some code) ts' ∧
    Computes code info.insns

/-- Wherever the run from `init` stands, the words from `a` on are the block `insns`. -/
def StableBlock (init : CPUState μ) (singleStep : Bool) (a : Addr) (insns : List Instruction) :
    Prop :=
  ∀ t, Reaches init t → IsBlockAt (Memory.read32 t.memory) singleStep a insns

/-- The engine is where the interpreter is, and its caches agree with every
memory of the interpreter's run. -/
structure Simulates (init : CPUState μ) (singleStep : Bool) (s : CPUState μ)
    (j : JitState τ μ) : Prop where
  cpu_eq : j.cpu = s
  reached : Reaches init s
  zero : s.getReg 0 = 0#32
  bb_stable : ∀ a info, j.m_cacheBB a = some info → StableBlock init singleStep a info.insns
  tb_computes : ∀ a code, j.m_tbCache.lookup a = some code →
    ∃ insns, StableBlock init singleStep a insns ∧ Computes code insns

section Rounds

variable {init s s₂ s' : CPUState μ} {j : JitState τ μ} {config : Config}
  {m_translator : Option (Translator τ μ)} {insns : List Instruction}

/-- The block that is found or collected is the block ahead: an entry of the map agrees with
memory by the invariant, and a new one is what memory holds now. -/
theorem tryEmplace_eq_ok (hsim : Simulates init config.singleStep s j) {fuel : ℕ}
    (hblock : StableBlock init config.singleStep s.pc insns) (hfuel : insns.length ≤ fuel) :
    ∃ bb j', tryEmplace config.singleStep fuel s.pc j = some (.ok bb j') ∧ bb.insns = insns ∧
      Simulates init config.singleStep s j' := by
  cases hbb : j.m_cacheBB s.pc with
  | some bb =>
    refine ⟨bb, j, by simp [tryEmplace, hbb], ?_, hsim⟩
    exact (hsim.bb_stable _ _ hbb s hsim.reached).unique (hblock s hsim.reached)
  | none =>
    have hcollect := (hblock s hsim.reached).collectBlock_eq hfuel []
    rw [List.nil_append] at hcollect
    refine ⟨{ insns }, setBB s.pc { insns } j, ?_, rfl, ?_⟩
    · simp only [tryEmplace, hbb, hsim.cpu_eq, Memory.read_word, hcollect]
    · refine { hsim with bb_stable := fun a info hinfo => ?_ }
      rcases m_cacheBB_setBB hinfo with ⟨rfl, rfl⟩ | hold
      · exact hblock
      · exact hsim.bb_stable a info hold

/-- Running code that computes the block ahead moves both sides past the block. -/
theorem onCpu_eq_ok (hsim : Simulates init config.singleStep s j) {code : JitFunction μ}
    (hcode : code.run s = .ok () s₂) (hreach : Reaches init s₂) (hzero : s₂.getReg 0 = 0#32) :
    ∃ j', (onCpu code).run j = .ok () j' ∧ Simulates init config.singleStep s₂ j' := by
  rw [← hsim.cpu_eq] at hcode
  exact ⟨{ j with cpu := s₂ }, run_onCpu_ok hcode,
    ⟨rfl, hreach, hzero, hsim.bb_stable, hsim.tb_computes⟩⟩

/-- Interpreting the block ahead, which also counts the execution. -/
theorem interpret_eq_ok (hsim : Simulates init config.singleStep s j) {bb : BBInfo}
    (hblock : StableBlock init config.singleStep s.pc bb.insns)
    (hinterp : (interpretInsns bb.insns).run s = .ok () s₂) (hreach : Reaches init s₂)
    (hzero : s₂.getReg 0 = 0#32) :
    ∃ j', (interpret s.pc bb).run j = .ok () j' ∧ Simulates init config.singleStep s₂ j' := by
  obtain ⟨j₁, hrun, hsim₁⟩ := onCpu_eq_ok hsim hinterp hreach hzero
  refine ⟨setBB s.pc { bb with num_exec := bb.num_exec + 1#64 } j₁, ?_, ?_⟩
  · rw [interpret, Stateful.run_seq_ok hrun, EStateM.run_modify]
  · refine { hsim₁ with bb_stable := fun a info hinfo => ?_ }
    rcases m_cacheBB_setBB hinfo with ⟨rfl, rfl⟩ | hold
    · exact hblock
    · exact hsim₁.bb_stable a info hold

/-- The block ahead, by translation or by interpretation. -/
theorem runBlock_eq_ok (hcorrect : ∀ translate ∈ m_translator, BlockCorrect translate)
    (hsim : Simulates init config.singleStep s j) {bb : BBInfo}
    (hblock : StableBlock init config.singleStep s.pc bb.insns)
    (hinterp : (interpretInsns bb.insns).run s = .ok () s₂) (hreach : Reaches init s₂)
    (hzero : s₂.getReg 0 = 0#32) :
    ∃ j', (runBlock config m_translator s.pc bb).run j = .ok () j' ∧
      Simulates init config.singleStep s₂ j' := by
  cases m_translator with
  | none => exact interpret_eq_ok hsim hblock hinterp hreach hzero
  | some translate =>
    by_cases hhot : bb.num_exec ≥ config.execThreshold
    · obtain ⟨code, ts', htranslate, hcomputes⟩ :=
        hcorrect translate rfl bb j.translatorState (hblock s hsim.reached).isBlock
      have hsim' : Simulates init config.singleStep s { j with translatorState := ts' } :=
        ⟨hsim.cpu_eq, hsim.reached, hsim.zero, hsim.bb_stable, hsim.tb_computes⟩
      obtain ⟨j₁, hrun, hsim₁⟩ :=
        onCpu_eq_ok hsim' (hcomputes s s₂ hsim.zero hinterp) hreach hzero
      have htrans := run_onTranslator_ok htranslate
      refine ⟨insertTb s.pc code j₁, ?_, ?_⟩
      · simp only [runBlock, if_pos hhot]
        rw [Stateful.run_seq_ok htrans, Stateful.run_seq_ok hrun, EStateM.run_modify]
      · refine { hsim₁ with tb_computes := fun a f hf => ?_ }
        rcases TbCache.lookup_insert hf with ⟨rfl, rfl⟩ | hold
        · exact ⟨bb.insns, hblock, hcomputes⟩
        · exact hsim₁.tb_computes a f hold
    · simp only [runBlock, if_neg hhot]
      exact interpret_eq_ok hsim hblock hinterp hreach hzero

/-- One round of the engine runs the block ahead. On a hit the cached code computes the block at
`pc`, which is the one ahead; on a miss it is collected, and translated or interpreted. -/
theorem stepBody_of_block_ahead (hcorrect : ∀ translate ∈ m_translator, BlockCorrect translate)
    (hsim : Simulates init config.singleStep s j) {fuel : ℕ}
    (hblock : StableBlock init config.singleStep s.pc insns) (hfuel : insns.length ≤ fuel)
    (hinterp : (interpretInsns insns).run s = .ok () s₂) (hreach : Reaches init s₂) :
    ∃ j₂, stepBody config m_translator fuel j = some (.ok () j₂) ∧
      Simulates init config.singleStep s₂ j₂ := by
  have hzero : s₂.getReg 0 = 0#32 := (interpretInsns_getReg_zero insns 0#32).ok hsim.zero hinterp
  cases hlookup : m_translator.bind fun _ => j.m_tbCache.lookup j.cpu.getPC with
  | some found =>
    obtain ⟨_, _, hfound⟩ := Option.bind_eq_some_iff.mp hlookup
    obtain ⟨insns', hblock', hcomputes⟩ := hsim.tb_computes _ _ hfound
    have hsame : insns' = insns := by
      rw [hsim.cpu_eq] at hblock'
      exact (hblock' s hsim.reached).unique (hblock s hsim.reached)
    subst hsame
    obtain ⟨j₂, hcall, hsim₂⟩ := onCpu_eq_ok hsim (hcomputes s s₂ hsim.zero hinterp) hreach hzero
    exact ⟨j₂, by simp only [stepBody, hlookup, hcall], hsim₂⟩
  | none =>
    obtain ⟨bb, j₁, hcollect, rfl, hsim₁⟩ := tryEmplace_eq_ok hsim hblock hfuel
    obtain ⟨j₂, hblockRun, hsim₂⟩ := runBlock_eq_ok hcorrect hsim₁ hblock hinterp hreach hzero
    refine ⟨j₂, ?_, hsim₂⟩
    simp only [stepBody, hlookup]
    rw [hsim.cpu_eq, CPUState.getPC_eq, hcollect]
    simp only [hblockRun]

/-- One round of the engine does the work of a whole block of the interpreter's run. -/
theorem exists_stepBody_eq_ok [LawfulMemory μ]
    (hcorrect : ∀ translate ∈ m_translator, BlockCorrect translate)
    (hpure : NoSelfModification init) (hsim : Simulates init config.singleStep s j)
    (hrunning : s.finished = false) {fuel : ℕ}
    (hrun : Hart.runInterpreter (fuel + 1) s = some (.ok () s')) :
    ∃ s₂ j₂, stepBody config m_translator fuel j = some (.ok () j₂) ∧
      Simulates init config.singleStep s₂ j₂ ∧
      Hart.runInterpreter fuel s₂ = some (.ok () s') := by
  obtain ⟨insns, s₂, hblock, hinterp, hreach, hfuel, hrest⟩ :=
    exists_block_ahead hpure config.singleStep hsim.reached hrunning hrun
  obtain ⟨j₂, hbody, hsim₂⟩ :=
    stepBody_of_block_ahead hcorrect hsim hblock hfuel hinterp hreach
  exact ⟨s₂, j₂, hbody, hsim₂, hrest⟩

/-- The engine with empty caches. -/
theorem simulates_init (hzero : init.getReg 0 = 0#32) (singleStep : Bool) (ts : τ) :
    Simulates init singleStep init { cpu := init, translatorState := ts } where
  cpu_eq := rfl
  reached := .refl
  zero := hzero
  bb_stable _ _ h := by cases h
  tb_computes a code h := by
    rw [TbCache.lookup_empty] at h
    cases h

end Rounds

/-- The engine started with empty caches returns where the interpreter's run does, and stands
beside it in the end. -/
theorem exists_step_simulates [LawfulMemory μ] (config : Config)
    {m_translator : Option (Translator τ μ)}
    (hcorrect : ∀ translate ∈ m_translator, BlockCorrect translate) (ts : τ)
    {init s' : CPUState μ} (hzero : init.getReg 0 = 0#32) (hpure : NoSelfModification init)
    {fuel : ℕ} (hrun : Hart.runInterpreter fuel init = some (.ok () s')) :
    ∃ j', step config m_translator fuel { cpu := init, translatorState := ts } =
      some (.ok () j') ∧ Simulates init config.singleStep s' j' := by
  have hsame : ∀ (s : CPUState μ) (j : JitState τ μ),
      Simulates init config.singleStep s j → s.finished = j.cpu.finished :=
    fun s j hsim => by rw [hsim.cpu_eq]
  exact Loop.whileNot_simulation hsame
    (fun fuel s j s' hsim hrunning hrun =>
      exists_stepBody_eq_ok hcorrect hpure hsim hrunning hrun)
    (simulates_init hzero config.singleStep ts) hrun

/-- Engine equivalence: where the plain interpreter's run returns, the engine
started with empty caches returns in the same CPU state. -/
theorem step_eq_interpreter [LawfulMemory μ] (config : Config)
    (m_translator : Option (Translator τ μ))
    (hcorrect : ∀ translate ∈ m_translator, BlockCorrect translate) (ts : τ)
    {init s' : CPUState μ} (hzero : init.getReg 0 = 0#32) (hpure : NoSelfModification init)
    {fuel : ℕ} (hrun : Hart.runInterpreter fuel init = some (.ok () s')) :
    ∃ fuel' j', step config m_translator fuel' { cpu := init, translatorState := ts } =
      some (.ok () j') ∧ j'.cpu = s' := by
  obtain ⟨j', hstep, hsim⟩ := exists_step_simulates config hcorrect ts hzero hpure hrun
  exact ⟨fuel, j', hstep, hsim.cpu_eq⟩

end JitEngine

end Engine

/-! ### Guests that exit -/

namespace JitEngine

/-- One page at address zero that holds a single `ecall`. -/
def exitImage : PlainMemory 0#32 4096 where
  m_data := fun offset => if offset = 0 then 0x73#8 else 0#8

/-- Calls `exit(7)`. -/
def exitGuest : CPUState (PlainMemory 0#32 4096) :=
  ({ memory := exitImage } : CPUState _).setReg 17 93#32 |>.setReg 10 7#32

/-- The guest after its call. -/
def exitedGuest : CPUState (PlainMemory 0#32 4096) :=
  { exitGuest with finished := true, pc := 4#32, icount := 1#64, m_ExitCode := 7#32 }

/-- A page with `addi x5, x5, -1; bne x5, x0, -4; ecall` at address zero. -/
def countdownImage : PlainMemory 0#32 4096 where
  m_data := fun offset => (0x00000073FE029EE3FFF28293#96).extractLsb' (8 * offset) 8

/-- A guest with two blocks: a loop that counts `x5` down to zero, and a call of `exit(7)`. -/
def countdown (x5 pc : Word) (icount : Icount) : CPUState (PlainMemory 0#32 4096) :=
  ({ memory := countdownImage, pc, icount } : CPUState _).setReg 17 93#32 |>.setReg 10 7#32
    |>.setReg 5 x5

/-- The guest goes round its loop three times. -/
def countdownGuest : CPUState (PlainMemory 0#32 4096) := countdown 3#32 0#32 0#64

/-- The guest after its call, the seventh instruction. -/
def countedDown : CPUState (PlainMemory 0#32 4096) :=
  { countdown 0#32 12#32 7#64 with finished := true, m_ExitCode := 7#32 }

/-- The block of the loop. -/
def countdownLoop : List Instruction :=
  [{ opcode := .kADDI, rs1 := 5#8, rd := 5#8, imm := -1#32 },
    { opcode := .kBNE, rs1 := 5#8, imm := -4#32 }]

/-- The states of the run, one after the other. -/
def countdownTrace : ℕ → CPUState (PlainMemory 0#32 4096)
  | 0 => countdownGuest
  | 1 => countdown 2#32 4#32 1#64
  | 2 => countdown 2#32 0#32 2#64
  | 3 => countdown 1#32 4#32 3#64
  | 4 => countdown 1#32 0#32 4#64
  | 5 => countdown 0#32 4#32 5#64
  | 6 => countdown 0#32 8#32 6#64
  | _ => countedDown

theorem runStep_countdown {k : ℕ} (hk : k < 7) :
    RunStep (countdownTrace k) (countdownTrace (k + 1)) := by
  interval_cases k <;> exact ⟨rfl, rfl⟩

/-- The trace has all the states of the run. -/
theorem exists_of_reaches_countdown {t : CPUState (PlainMemory 0#32 4096)}
    (h : Reaches countdownGuest t) : ∃ k ≤ 7, t = countdownTrace k := by
  induction h with
  | refl => exact ⟨0, by decide, rfl⟩
  | tail _ hstep ih =>
    obtain ⟨k, hk, rfl⟩ := ih
    rcases hk.lt_or_eq with hlt | rfl
    · exact ⟨k + 1, hlt, hstep.unique (runStep_countdown hlt)⟩
    · cases hstep.1

/-- The run goes through the states of the trace. -/
theorem reaches_countdown {k : ℕ} (hk : k ≤ 7) : Reaches countdownGuest (countdownTrace k) := by
  induction k with
  | zero => exact .refl
  | succ k ih => exact (ih (by omega)).tail (runStep_countdown hk)

theorem runInterpreter_countdown :
    Hart.runInterpreter 8 countdownGuest = some (.ok () countedDown) := rfl

/-- None of the three instructions stores. -/
theorem noSelfModification_countdown : NoSelfModification countdownGuest := by
  rintro s t T addr hs - ⟨hrunning, bytes, insn, hread, hdecode, hclass, -⟩ -
  obtain ⟨k, hk, rfl⟩ := exists_of_reaches_countdown hs
  rcases hk.lt_or_eq with hlt | rfl
  · interval_cases k <;> cases hread <;> cases hdecode <;> cases hclass
  · cases hrunning

theorem memory_countdown {k : ℕ} (hk : k ≤ 7) : (countdownTrace k).memory = countdownImage := by
  interval_cases k <;> rfl

/-- The run is at the loop after every other step, until the loop is left. -/
theorem atLoop_countdown {k : ℕ} (hk : k < 3) :
    (countdownTrace (2 * k)).pc = 0#32 ∧ (countdownTrace (2 * k)).finished = false := by
  interval_cases k <;> exact ⟨rfl, rfl⟩

/-- Wherever the run stands, the loop is at address zero. -/
theorem stableBlock_countdownLoop : StableBlock countdownGuest false 0#32 countdownLoop := by
  intro t ht
  obtain ⟨k, hk, rfl⟩ := exists_of_reaches_countdown ht
  rw [memory_countdown hk]
  exact .cons rfl rfl rfl rfl (.last rfl rfl (.inr rfl))

/-- One time round the loop. -/
theorem interpret_countdownLoop {k : ℕ} (hk : k < 3) :
    (interpretInsns countdownLoop).run (countdownTrace (2 * k)) =
      .ok () (countdownTrace (2 * k + 2)) := by
  interval_cases k <;> rfl

/-- A round of an engine that stands at the loop. -/
theorem exists_round_countdown {τ : Type} {execThreshold : SizeT}
    {m_translator : Option (Translator τ (PlainMemory 0#32 4096))}
    (hcorrect : ∀ translate ∈ m_translator, BlockCorrect translate)
    {j : JitState τ (PlainMemory 0#32 4096)} {k : ℕ} (hk : k < 3)
    (hsim : Simulates countdownGuest false (countdownTrace (2 * k)) j) :
    ∃ j₂, stepBody { execThreshold } m_translator 2 j = some (.ok () j₂) ∧
      Simulates countdownGuest false (countdownTrace (2 * k + 2)) j₂ := by
  have hblock : StableBlock countdownGuest false (countdownTrace (2 * k)).pc countdownLoop := by
    rw [(atLoop_countdown hk).1]
    exact stableBlock_countdownLoop
  exact @stepBody_of_block_ahead _ _ _ _ _ _ _ { execThreshold } _ _ hcorrect hsim 2 hblock
    (Nat.le_refl 2) (interpret_countdownLoop hk) (reaches_countdown (by omega))

/-- A translator that generates a call of the interpreter. -/
def interpTranslator : Translator Unit (PlainMemory 0#32 4096) := fun info =>
  pure (some (interpretInsns info.insns))

theorem blockCorrect_interpTranslator : BlockCorrect interpTranslator :=
  fun info _ _ => ⟨interpretInsns info.insns, (), rfl, fun _ _ _ h => h⟩

/-- Any engine ends where the guest has counted down. -/
theorem exists_step_countdown {τ : Type} (execThreshold : SizeT)
    {m_translator : Option (Translator τ (PlainMemory 0#32 4096))}
    (hcorrect : ∀ translate ∈ m_translator, BlockCorrect translate) (ts : τ) :
    ∃ j, step { execThreshold } m_translator 8 { cpu := countdownGuest, translatorState := ts } =
      some (.ok () j) ∧ j.cpu = countedDown := by
  obtain ⟨j, hstep, hsim⟩ := exists_step_simulates { execThreshold } hcorrect ts rfl
    noSelfModification_countdown runInterpreter_countdown
  exact ⟨j, hstep, hsim.cpu_eq⟩

/-- With a threshold of one, the loop is interpreted, then translated, then found in the
cache, and the engine ends where the interpreter does. -/
theorem step_countdownGuest :
    ∃ fuel j', step { execThreshold := 1#64 } (some interpTranslator) fuel
      { cpu := countdownGuest, translatorState := () } = some (.ok () j') ∧
      j'.cpu = countedDown :=
  step_eq_interpreter { execThreshold := 1#64 } (some interpTranslator)
    (by rintro _ ⟨rfl⟩; exact blockCorrect_interpTranslator) () rfl noSelfModification_countdown
    runInterpreter_countdown

end JitEngine

end Prot
