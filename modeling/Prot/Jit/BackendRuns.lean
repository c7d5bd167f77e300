import Prot.Jit.TranslatedRuns
import Prot.Outcomes

/-!
# Backends against the interpreter

An engine with any of the backends, at any threshold, whether it single-steps or not, comes
to what the engine without a translator comes to. The code of the guest is settled when it is
run, it fetches from aligned addresses, and it meets no instruction that the backend gets wrong.

Where the interpreter's run returns, the engine then returns in the same state but for the
counter. The backends that count in 32 bits lose the carry of their counter, and nothing else.

## Main results

* `along_of_settled`: the instructions of a block, as the run fetches them
* `step_beside`: the engines with a backend and without
* `run_eq_interpreter`: the engine with a backend and the interpreter
* `exitCode_iff`: how the guest exits on any engine
* `step_settled`: how any engine ends
-/

namespace Prot

open Isa Interpreter Stateful Loop

variable {μ τ τ' : Type} [Memory μ]

/-- The count of the run stays within the lower half of the counter. -/
def NoCarry (init : CPUState μ) : Prop :=
  ∀ t, Reaches init t → t.icount.toNat / 2 ^ 32 = init.icount.toNat / 2 ^ 32

/-- No instruction that the run fetches is one that the backend gets wrong. -/
def RunRespects (b : Backend) (init : CPUState μ) : Prop :=
  ∀ t insn, Reaches init t → Fetches t insn → b.Respects insn t

variable [LawfulMemory μ] {init s₀ s : CPUState μ} {b : Backend}

/-- What holds of every instruction that the run fetches holds along a block that was
collected when it was entered, as far as it is executed. -/
theorem along_of_settled (hsettled : SettlesCode init) (haligned : FetchesAligned init)
    {P : Instruction → CPUState μ → Prop} (hP : ∀ insn s n, P insn (s.withIcount n) ↔ P insn s)
    (hfetches : ∀ t insn, Reaches init t → Fetches t insn → P insn t) {singleStep : Bool}
    {insns : List Instruction} (hs₀ : Reaches init s₀) (hahead : Ahead s₀ s)
    (hrunning : s.finished = false)
    (hblock : IsBlockAt (Memory.read32 s₀.memory) singleStep s.pc insns) : Along P insns s := by
  induction insns generalizing s with
  | nil => trivial
  | cons insn insns ih =>
    have hs := hs₀.trans (reaches_of_inside hahead)
    obtain ⟨bytes, _, _, hcons, hread, hdecode, -⟩ := hblock.exists_eq_cons
    cases hcons
    obtain ⟨hstep, hread'⟩ := hsettled.step_of_read32 hs₀ hahead (haligned s hs hrunning)
      hrunning hread hdecode
    refine ⟨hfetches s insn hs ⟨hrunning, bytes, hread', hdecode⟩, ?_⟩
    cases hexec : (execute insn).run s with
    | error e s₁ => trivial
    | ok _ s₁ =>
      have hcounted : (executeCounted insn).run s = .ok () s₁.incIcount := by
        rw [executeCounted, run_seq_ok hexec]
        rfl
      have hrun : RunStep s s₁.incIcount := ⟨hrunning, hstep.trans hcounted⟩
      cases hblock with
      | last => trivial
      | cons _ _ _ hinner htail =>
        have hover : StepsOver false s s₁.incIcount := ⟨hrun, bytes, insn, hread', hdecode, hinner⟩
        obtain ⟨hpc, hfin⟩ := pc_of_inner hinner hcounted
        have halong := ih (hahead.tail hover) (hfin.trans hrunning) (hpc ▸ htail)
        exact (along_withIcount hP _).mp halong

namespace JitEngine

variable {config : Config} {R : Icount → Icount → Prop} {j : JitState τ μ}

/-- A backend that gets the run right gets the blocks right that the rounds come to. -/
theorem Settled.faithful (h : Settled init config s j) (hsettled : SettlesCode init)
    (haligned : FetchesAligned init) (hrespects : RunRespects b init)
    (hnext : ∀ t t₂ n c, Reaches init t → Reaches init t₂ → n < 2 ^ 32 →
      t₂.icount = t.icount + BitVec.ofNat 64 n → R t.icount c →
      R t₂.icount (b.counter.next n c))
    {insns : List Instruction} (hinsns : Dispatches config j insns) :
    Faithful b R insns j.cpu := by
  obtain ⟨hs, hsim⟩ := h
  obtain ⟨hrunning, n, bb, j₁, hemplace, rfl⟩ := hinsns
  have hcpu := hsim.cpu_eq
  subst hcpu
  have hblock : IsBlockAt (Memory.read32 j.cpu.memory) config.singleStep j.cpu.pc bb.insns := by
    rcases tryEmplace_ok hemplace with ⟨hbb, -⟩ | ⟨-, -, hblock⟩
    · exact hsim.bb_stable _ _ hbb j.cpu .refl
    · exact hblock
  have hlen := hblock.length_le.trans_lt (show 2 ^ 30 < 2 ^ 32 by decide)
  constructor
  · exact along_of_settled hsettled haligned (fun _ _ k => Backend.respects_withIcount k)
      hrespects hs .refl hrunning hblock
  · intro s₂ c hinterp hc
    have hreach := (hblock.reaches hsettled haligned hs .refl hrunning hinterp).1
    have hicount := icount_of_interpretInsns hinterp
    exact hicount ▸ hnext _ s₂ _ c hs (hs.trans hreach) hlen hicount hc

/-- The engine without a translator stands where the interpreter stands. -/
theorem exists_settled_of_ran (ts : τ) (hzero : init.getReg 0 = 0#32)
    (hsettled : SettlesCode init) (haligned : FetchesAligned init)
    (hran : Ran config (none : Option (Translator τ μ)) { cpu := init, translatorState := ts } j) :
    ∃ s, Settled init config s j := by
  induction hran with
  | refl => exact ⟨init, settled_init hzero config ts⟩
  | tail _ hreturns ih =>
    obtain ⟨hrunning, n, hbody⟩ := hreturns
    exact round_settled hsettled haligned n _ _ ih hrunning hbody

/-- On any fuel, the engine with a backend and the one without a translator both run out of
it, or return, or raise the same exception. The counts are related in any way that the rounds
keep. -/
theorem step_beside {translate : Translator τ' μ} (htranslates : b.Translates translate)
    (config config' : Config) (hsingle : config'.singleStep = config.singleStep) (ts : τ) (ts' : τ')
    (hzero : init.getReg 0 = 0#32) (hsettled : SettlesCode init)
    (haligned : FetchesAligned init) (hrespects : RunRespects b init) (hrefl : ∀ c, R c c)
    (hadd : ∀ c c' n, R c c' → R (c + n) (c' + n))
    (hnext : ∀ t t₂ n c, Reaches init t → Reaches init t₂ → n < 2 ^ 32 →
      t₂.icount = t.icount + BitVec.ofNat 64 n → R t.icount c →
      R t₂.icount (b.counter.next n c)) (fuel : ℕ) :
    Option.Rel
      (Parallel (fun j j' => j'.cpu = j.cpu.withIcount j'.cpu.icount ∧
        R j.cpu.icount j'.cpu.icount) SameExn)
      (step config (none : Option (Translator τ μ)) fuel { cpu := init, translatorState := ts })
      (step config' (some translate) fuel { cpu := init, translatorState := ts' }) := by
  have hparallel := step_parallel htranslates hsingle hadd (fun j hran insns hinsns => by
    obtain ⟨s, h⟩ := exists_settled_of_ran ts hzero hsettled haligned hran
    exact h.faithful hsettled haligned hrespects hnext hinsns) (.init hrefl hzero ts ts') fuel
  exact Parallel.rel_mono hparallel (fun _ _ h => ⟨h.cpu_eq, h.icount⟩) fun _ _ _ _ => id

/-- The counters that cannot be told apart are related in such a way. -/
theorem step_beside_agrees {translate : Translator τ' μ} (htranslates : b.Translates translate)
    (config config' : Config) (hsingle : config'.singleStep = config.singleStep) (ts : τ) (ts' : τ')
    (hzero : init.getReg 0 = 0#32) (hsettled : SettlesCode init)
    (haligned : FetchesAligned init) (hrespects : RunRespects b init) (fuel : ℕ) :
    Option.Rel
      (Parallel (fun j j' => j'.cpu = j.cpu.withIcount j'.cpu.icount ∧
        b.counter.Agrees j.cpu.icount j'.cpu.icount) SameExn)
      (step config (none : Option (Translator τ μ)) fuel { cpu := init, translatorState := ts })
      (step config' (some translate) fuel { cpu := init, translatorState := ts' }) :=
  step_beside (R := fun c c' => b.counter.Agrees c c') htranslates config config' hsingle ts ts'
    hzero hsettled haligned hrespects b.counter.agrees_refl (fun _ _ n h => h.add n)
    (fun _ _ n _ _ _ _ hicount h => hicount ▸ h.next n) fuel

/-- Where there is no carry, the counters are equal. -/
theorem step_beside_eq {translate : Translator τ' μ} (htranslates : b.Translates translate)
    (config config' : Config) (hsingle : config'.singleStep = config.singleStep) (ts : τ) (ts' : τ')
    (hzero : init.getReg 0 = 0#32) (hsettled : SettlesCode init)
    (haligned : FetchesAligned init) (hrespects : RunRespects b init) (hcarry : NoCarry init)
    (fuel : ℕ) :
    Option.Rel
      (Parallel (fun j j' => j'.cpu = j.cpu.withIcount j'.cpu.icount ∧
        j.cpu.icount = j'.cpu.icount) SameExn)
      (step config (none : Option (Translator τ μ)) fuel { cpu := init, translatorState := ts })
      (step config' (some translate) fuel { cpu := init, translatorState := ts' }) := by
  refine step_beside (R := Eq) htranslates config config' hsingle ts ts' hzero hsettled haligned
    hrespects (fun _ => rfl) (fun _ _ n h => congrArg (· + n) h) ?_ fuel
  intro t t₂ n c ht ht₂ hn hicount h
  subst h
  rw [hicount]
  refine (Counter.next_eq_of_same_half hn b.counter ?_).symm
  rw [← hicount, hcarry t ht, hcarry t₂ ht₂]

/-- Where the interpreter returns, an engine with a backend returns. The state is the same but
for a counter that may miss carries, and the same if there are none to miss. -/
theorem run_eq_interpreter {translate : Translator τ' μ} (htranslates : b.Translates translate)
    (config : Config) (ts : τ') {s' : CPUState μ} (hzero : init.getReg 0 = 0#32)
    (hsettled : SettlesCode init) (hrespects : RunRespects b init) {fuel : ℕ}
    (hrun : Hart.runInterpreter fuel init = some (.ok () s')) :
    ∃ fuel' j', step config (some translate) fuel' { cpu := init, translatorState := ts } =
        some (.ok () j') ∧
      j'.cpu = s'.withIcount j'.cpu.icount ∧ b.counter.Agrees s'.icount j'.cpu.icount ∧
      (NoCarry init → j'.cpu = s') := by
  have haligned := fetchesAligned_of_returns hrun
  -- the engine without a translator, and beside it the one with the backend
  obtain ⟨n, j, hstep, rfl⟩ :=
    exists_step_of_runInterpreter blockCorrect_none config () hzero hsettled hrun
  have hbeside := step_beside_agrees htranslates config config rfl () ts hzero hsettled haligned
    hrespects n
  obtain ⟨j', hstep', hcpu, hagrees⟩ := Parallel.ok_right hbeside hstep
  refine ⟨n, j', hstep', hcpu, hagrees, fun hcarry => ?_⟩
  have hexact := step_beside_eq htranslates config config rfl () ts hzero hsettled haligned
    hrespects hcarry n
  obtain ⟨j'', hstep'', -, hicount⟩ := Parallel.ok_right hexact hstep
  cases hstep'.symm.trans hstep''
  rw [hcpu, ← hicount, CPUState.withIcount_self]

/-! ### Any engine -/

/-- There is no translator, or one of a backend that gets the run right. -/
def Serves (m_translator : Option (Translator τ μ)) (init : CPUState μ) : Prop :=
  ∀ translate ∈ m_translator, ∃ b : Backend, b.Translates translate ∧ RunRespects b init

omit [LawfulMemory μ] in
/-- An engine without a translator runs beside itself. -/
theorem step_beside_none (config : Config) (fuel : ℕ) (j₀ : JitState τ μ) :
    Option.Rel
      (Parallel (fun j j' => j'.cpu = j.cpu.withIcount j'.cpu.icount) SameExn)
      (step config (none : Option (Translator τ μ)) fuel j₀)
      (step config (none : Option (Translator τ μ)) fuel j₀) := by
  cases step config (none : Option (Translator τ μ)) fuel j₀ with
  | none => exact .none
  | some r =>
    cases r with
    | ok _ j => exact .some (.returned rfl)
    | error e j => exact .some (.raised rfl)

/-- What a translator adds to the engine cannot be told from the registers, `pc`, memory, exit
code or exception. -/
theorem step_beside_serves {m_translator : Option (Translator τ μ)}
    (hserves : Serves m_translator init) (config : Config) (ts : τ) (hzero : init.getReg 0 = 0#32)
    (hsettled : SettlesCode init) (haligned : FetchesAligned init) (fuel : ℕ) :
    Option.Rel
      (Parallel (fun j j' => j'.cpu = j.cpu.withIcount j'.cpu.icount) SameExn)
      (step config (none : Option (Translator τ μ)) fuel { cpu := init, translatorState := ts })
      (step config m_translator fuel { cpu := init, translatorState := ts }) := by
  cases m_translator with
  | none => exact step_beside_none _ _ _
  | some translate =>
    obtain ⟨b, htranslates, hrespects⟩ := hserves translate rfl
    exact Parallel.rel_mono (step_beside_agrees htranslates config config rfl ts ts hzero hsettled
      haligned hrespects fuel) (fun _ _ h => h.1) fun _ _ _ _ => id

/-- Where the interpreter returns, any engine returns. -/
theorem run_eq_of_serves {m_translator : Option (Translator τ μ)}
    (hserves : Serves m_translator init) (config : Config) (ts : τ) {s' : CPUState μ}
    (hzero : init.getReg 0 = 0#32) (hsettled : SettlesCode init) {fuel : ℕ}
    (hrun : Hart.runInterpreter fuel init = some (.ok () s')) :
    ∃ n j, step config m_translator n { cpu := init, translatorState := ts } = some (.ok () j) ∧
      j.cpu = s'.withIcount j.cpu.icount ∧ (NoCarry init → j.cpu = s') := by
  cases m_translator with
  | none =>
    obtain ⟨n, j, hstep, rfl⟩ :=
      exists_step_of_runInterpreter blockCorrect_none config ts hzero hsettled hrun
    exact ⟨n, j, hstep, rfl, fun _ => rfl⟩
  | some translate =>
    obtain ⟨b, htranslates, hrespects⟩ := hserves translate rfl
    obtain ⟨n, j, hstep, hcpu, -, hexact⟩ :=
      run_eq_interpreter htranslates config ts hzero hsettled hrespects hrun
    exact ⟨n, j, hstep, hcpu, hexact⟩

/-- Any engine exits if and only if the interpreter does, with the same code. -/
theorem exitCode_iff {m_translator : Option (Translator τ μ)} (hserves : Serves m_translator init)
    (config : Config) (ts : τ) (hzero : init.getReg 0 = 0#32) (hsettled : SettlesCode init)
    (haligned : FetchesAligned init) (code : Word) :
    (∃ n j, step config m_translator n { cpu := init, translatorState := ts } = some (.ok () j) ∧
        j.cpu.m_ExitCode = code) ↔
      ∃ n s', Hart.runInterpreter n init = some (.ok () s') ∧ s'.m_ExitCode = code := by
  have hbeside := step_beside_serves hserves config ts hzero hsettled haligned
  constructor
  · rintro ⟨n, j', hstep', rfl⟩
    obtain ⟨j, hstep, hcpu⟩ := Parallel.ok_left (hbeside n) hstep'
    obtain ⟨m, hrun⟩ := runInterpreter_of_step_ok hzero hsettled haligned hstep
    exact ⟨m, j.cpu, hrun, by rw [hcpu]; rfl⟩
  · rintro ⟨n, s', hrun, rfl⟩
    obtain ⟨m, j, hstep, rfl⟩ :=
      exists_step_of_runInterpreter blockCorrect_none config ts hzero hsettled hrun
    obtain ⟨j', hstep', hcpu⟩ := Parallel.ok_right (hbeside m) hstep
    exact ⟨m, j', hstep', by rw [hcpu]; rfl⟩

/-- If any engine raises, so does the interpreter. -/
theorem runInterpreter_error_of_serves {m_translator : Option (Translator τ μ)}
    (hserves : Serves m_translator init) {config : Config} {ts : τ}
    (hzero : init.getReg 0 = 0#32) (hsettled : SettlesCode init)
    (haligned : FetchesAligned init) {n : ℕ} {e : Exn} {j : JitState τ μ}
    (hstep : step config m_translator n { cpu := init, translatorState := ts } =
      some (.error e j)) :
    ∃ m e' s', Hart.runInterpreter m init = some (.error e' s') := by
  obtain ⟨e', j', hstep', -⟩ :=
    Parallel.error_left (step_beside_serves hserves config ts hzero hsettled haligned n) hstep
  obtain ⟨-, m, e', s', -, hrun⟩ := runInterpreter_of_step_error hzero hsettled haligned hstep'
  exact ⟨m, e', s', hrun⟩

/-- If the interpreter raises, so does any engine that single-steps. -/
theorem step_error_of_serves {m_translator : Option (Translator τ μ)}
    (hserves : Serves m_translator init) {config : Config} (hsingle : config.singleStep = true)
    (ts : τ) (hzero : init.getReg 0 = 0#32) (hsettled : SettlesCode init)
    (haligned : FetchesAligned init) {n : ℕ} {e : Exn} {s' : CPUState μ}
    (hrun : Hart.runInterpreter n init = some (.error e s')) :
    ∃ m e' j, step config m_translator m { cpu := init, translatorState := ts } =
      some (.error e' j) := by
  obtain ⟨m, r, hstep, hr⟩ :=
    exists_step_of_runInterpreter_singleStep hsingle ts hzero hsettled haligned hrun
  cases hr with
  | raised h =>
    obtain ⟨e', j', hstep', -⟩ :=
      Parallel.error_right (step_beside_serves hserves config ts hzero hsettled haligned m) hstep
    exact ⟨m, e', j', hstep'⟩

/-- A guest whose code is settled when it is run returns on any engine if and only if it
returns on the interpreter, and then in the same state but for the counter. If an engine
raises, so does the interpreter. -/
theorem step_settled {m_translator : Option (Translator τ μ)} (hserves : Serves m_translator init)
    (config : Config) (ts : τ) (hzero : init.getReg 0 = 0#32) (hsettled : SettlesCode init)
    (haligned : FetchesAligned init) :
    (∀ n s', Hart.runInterpreter n init = some (.ok () s') →
      ∃ m j, step config m_translator m { cpu := init, translatorState := ts } =
        some (.ok () j) ∧ j.cpu = s'.withIcount j.cpu.icount) ∧
    (∀ n j, step config m_translator n { cpu := init, translatorState := ts } =
        some (.ok () j) →
      ∃ m s', Hart.runInterpreter m init = some (.ok () s') ∧
        j.cpu = s'.withIcount j.cpu.icount) ∧
    ∀ n e j, step config m_translator n { cpu := init, translatorState := ts } =
        some (.error e j) →
      ∃ m e' s', Hart.runInterpreter m init = some (.error e' s') := by
  have hbeside := step_beside_serves hserves config ts hzero hsettled haligned
  refine ⟨fun n s' hrun => ?_, fun n j' hstep' => ?_, fun n e j hstep =>
    runInterpreter_error_of_serves hserves hzero hsettled haligned hstep⟩
  · obtain ⟨m, j, hstep, hcpu, -⟩ := run_eq_of_serves hserves config ts hzero hsettled hrun
    exact ⟨m, j, hstep, hcpu⟩
  · obtain ⟨j, hstep, hcpu⟩ := Parallel.ok_left (hbeside n) hstep'
    obtain ⟨m, hrun⟩ := runInterpreter_of_step_ok hzero hsettled haligned hstep
    exact ⟨m, j.cpu, hrun, hcpu⟩

/-- Stores an `ecall` at address 16, jumps there and exits. -/
def loadingGuest : CPUState (PlainMemory 0#32 4096) :=
  ({ memory := ⟨fun offset => (0x00C0006F00502823#64).extractLsb' (8 * offset) 8⟩ } : CPUState _)
    |>.setReg 5 0x73#32 |>.setReg 17 93#32 |>.setReg 10 7#32

/-- After the store. -/
def afterStore : CPUState (PlainMemory 0#32 4096) := finalState (ExecEngine.step.run loadingGuest)

/-- After the jump. -/
def afterJump : CPUState (PlainMemory 0#32 4096) := finalState (ExecEngine.step.run afterStore)

/-- After the instruction that was stored. -/
def afterLoaded : CPUState (PlainMemory 0#32 4096) := finalState (ExecEngine.step.run afterJump)

theorem runStep_loadingGuest : RunStep loadingGuest afterStore := ⟨rfl, rfl⟩

theorem runStep_afterStore : RunStep afterStore afterJump := ⟨rfl, rfl⟩

theorem runStep_afterJump : RunStep afterJump afterLoaded := ⟨rfl, rfl⟩

section LoadingGuest

variable {s : CPUState (PlainMemory 0#32 4096)}

theorem cases_of_reaches_loadingGuest (h : Reaches loadingGuest s) :
    s = loadingGuest ∨ s = afterStore ∨ s = afterJump ∨ s = afterLoaded := by
  rcases Relation.ReflTransGen.cases_head h with rfl | ⟨_, hfirst, h⟩
  · exact .inl rfl
  rw [← runStep_loadingGuest.unique hfirst] at h
  rcases Relation.ReflTransGen.cases_head h with rfl | ⟨_, hnext, h⟩
  · exact .inr (.inl rfl)
  rw [← runStep_afterStore.unique hnext] at h
  rcases Relation.ReflTransGen.cases_head h with rfl | ⟨_, hlast, h⟩
  · exact .inr (.inr (.inl rfl))
  rw [← runStep_afterJump.unique hlast] at h
  exact .inr (.inr (.inr (eq_of_reaches_of_finished rfl h)))

theorem not_reaches_loadingGuest : ¬ Reaches afterJump loadingGuest := by
  intro h
  rcases Relation.ReflTransGen.cases_head h with hsame | ⟨_, hlast, h⟩
  · cases congrArg CPUState.icount hsame
  rw [← runStep_afterJump.unique hlast] at h
  cases congrArg CPUState.icount (eq_of_reaches_of_finished rfl h)

theorem not_ahead_loadingGuest : ¬ Ahead loadingGuest afterJump := by
  intro h
  rcases Relation.ReflTransGen.cases_head h with hsame | ⟨_, hfirst, h⟩
  · cases congrArg CPUState.icount hsame
  rw [← runStep_loadingGuest.unique hfirst.1] at h
  rcases Relation.ReflTransGen.cases_head h with hsame | ⟨_, ⟨-, bytes, insn, hcode⟩, -⟩
  · cases congrArg CPUState.icount hsame
  · obtain ⟨hread, hdecode, hinner⟩ := hcode
    cases hread
    cases hdecode
    cases hinner

theorem noOverlap_of_le {a b : Addr} (h : b.toNat + 4 ≤ a.toNat ∧ a.toNat + 4 ≤ 2 ^ 32) :
    NoOverlap a 4 b 4 := by
  intro x hstore hfetch
  simp only [InRange] at hstore hfetch
  bv_omega

/-- Only the first instruction stores, and the block ends before the word that it stores. -/
theorem settlesCode_loadingGuest : SettlesCode loadingGuest := by
  intro s t T addr hs ht hstore hrunning hwhen
  obtain ⟨hstep, bytes, insn, hread, hdecode, hclass, rfl⟩ := hstore
  rcases cases_of_reaches_loadingGuest hs with rfl | rfl | rfl | rfl
  · cases hread
    cases hdecode
    cases hclass
    rcases cases_of_reaches_loadingGuest ht with rfl | rfl | rfl | rfl
    · exact noOverlap_of_le (by decide)
    · exact noOverlap_of_le (by decide)
    · exact absurd hwhen (not_or.mpr ⟨not_reaches_loadingGuest, not_ahead_loadingGuest⟩)
    · cases hrunning
  · cases hread
    cases hdecode
    cases hclass
  · cases hread
    cases hdecode
    cases hclass
  · cases hstep

theorem step_settled_loadingGuest :
    ∃ m j, step { execThreshold := 0#64 } (some (AsmJit.translator 0x7000#64 AsmJit.sampleMachine))
        m { cpu := loadingGuest, translatorState := () } = some (.ok () j) ∧
      j.cpu = afterLoaded.withIcount j.cpu.icount :=
  have hrun : Hart.runInterpreter 4 loadingGuest = some (.ok () afterLoaded) := rfl
  (step_settled (by
    rintro _ ⟨rfl⟩
    exact ⟨.asmjit, AsmJit.translates_translator _ _, fun _ _ _ _ => trivial⟩)
    { execThreshold := 0#64 } () rfl settlesCode_loadingGuest (fetchesAligned_of_returns hrun)).1 4
    afterLoaded hrun

end LoadingGuest

end JitEngine

end Prot
