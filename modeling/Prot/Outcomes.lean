import Prot.SettledCode

/-!
# The outcomes of the engine

What the engine without a translator can come to, compared with what the interpreter comes
to, on a guest whose code is settled when it is run. The engine returns if and only if the
interpreter does, in the same state. If the engine raises, the interpreter raises in the same
state or later in the same block. So the engine never ends a run that goes on.

An engine that single-steps reads no further than the interpreter. It has the same
outcomes, faults included.

## Main results

* `Settled.round_ok`, `Settled.round_error`: the run of the interpreter behind a round
* `step_outcomes`: what the engine comes to
* `step_singleStep_outcomes`: the same, if it single-steps
-/

namespace Prot

open Isa Interpreter Stateful Loop

variable {μ τ : Type} [Memory μ]

namespace JitEngine

theorem blockCorrect_none :
    ∀ translate ∈ (none : Option (Translator τ μ)), BlockCorrect translate := nofun

section Rounds

variable [LawfulMemory μ] {init s s' : CPUState μ} {config : Config} {j j' : JitState τ μ}
  {e : Exn} {n : ℕ}

omit [LawfulMemory μ] in
/-- A round runs the block in memory, or cannot collect it. -/
theorem Simulates.stepBody_cases (hsim : Simulates init config.singleStep s j)
    {r : EStateM.Result Exn (JitState τ μ) Unit}
    (h : stepBody config (none : Option (Translator τ μ)) n j = some r) :
    (∃ bb j₁, IsBlockAt (Memory.read32 s.memory) config.singleStep s.pc bb.insns ∧
      j₁.cpu = s ∧ r = (interpret s.pc bb).run j₁ ∧
      (StableBlock init config.singleStep s.pc bb.insns →
        Simulates init config.singleStep s j₁)) ∨
    ∃ e insns, FaultsAt (Memory.read32 s.memory) config.singleStep s.pc e ∧
      r = .error e (setBB s.pc { insns } j) := by
  rcases JitEngine.stepBody_cases h with ⟨_, hfound, -⟩ |
    ⟨-, ⟨bb, j₁, hemplace, rfl⟩ | ⟨e, j₁, hemplace, rfl⟩⟩
  · cases hfound
  · rw [hsim.cpu_eq] at hemplace
    rcases tryEmplace_ok hemplace with ⟨hbb, rfl⟩ | ⟨-, rfl, hblock⟩
    · exact .inl ⟨bb, j₁, hsim.bb_stable _ _ hbb s hsim.reached, hsim.cpu_eq, by
        rw [hsim.cpu_eq]; rfl, fun _ => hsim⟩
    · rw [hsim.cpu_eq] at hblock
      refine .inl ⟨bb, setBB s.pc bb j, hblock, hsim.cpu_eq, by rw [hsim.cpu_eq]; rfl,
        fun hstable => { hsim with bb_stable := fun a info hinfo => ?_ }⟩
      rcases m_cacheBB_setBB hinfo with ⟨rfl, rfl⟩ | hold
      · exact hstable
      · exact hsim.bb_stable a info hold
  · rw [hsim.cpu_eq] at hemplace
    obtain ⟨-, hfaults, insns, rfl⟩ := tryEmplace_error hemplace
    rw [hsim.cpu_eq] at hfaults
    exact .inr ⟨e, insns, hfaults, rfl⟩

/-- The engine is where the interpreter is, and its caches agree with every memory that the
run has from now on. -/
def Settled (init : CPUState μ) (config : Config) (s : CPUState μ) (j : JitState τ μ) : Prop :=
  Reaches init s ∧ Simulates s config.singleStep s j

omit [LawfulMemory μ] in
/-- At the start, nothing is cached. -/
theorem settled_init (hzero : init.getReg 0 = 0#32) (config : Config) (ts : τ) :
    Settled init config init { cpu := init, translatorState := ts } :=
  ⟨.refl, simulates_init hzero config.singleStep ts⟩

omit [LawfulMemory μ] in
/-- The memories of the past do not matter any more. -/
theorem Simulates.settled (h : Simulates s config.singleStep s' j) (hs : Reaches init s) :
    Settled init config s' j := by
  refine ⟨hs.trans h.reached, h.cpu_eq, .refl, h.zero, fun a info hinfo t ht => ?_,
    fun a code hcode => ?_⟩
  · exact h.bb_stable a info hinfo t (h.reached.trans ht)
  · obtain ⟨insns, hstable, hcomputes⟩ := h.tb_computes a code hcode
    exact ⟨insns, fun t ht => hstable t (h.reached.trans ht), hcomputes⟩

/-- One round of the engine does the work of a whole block of the interpreter's run. -/
theorem Settled.exists_stepBody_eq_ok {m_translator : Option (Translator τ μ)}
    (hcorrect : ∀ translate ∈ m_translator, BlockCorrect translate)
    (hsettled : SettlesCode init) (h : Settled init config s j) (hrunning : s.finished = false)
    (hrun : Hart.runInterpreter (n + 1) s = some (.ok () s')) :
    ∃ s₂ j₂, stepBody config m_translator n j = some (.ok () j₂) ∧
      Settled init config s₂ j₂ ∧ Hart.runInterpreter n s₂ = some (.ok () s') := by
  obtain ⟨hs, hsim⟩ := h
  obtain ⟨insns, s₂, hblock, hinterp, hreach, hfuel, hrest⟩ :=
    hsettled.exists_block_ahead config.singleStep hs hrunning hrun
  obtain ⟨j₂, hbody, hsim₂⟩ := stepBody_of_block_ahead hcorrect hsim
    (fun t ht => hblock t (hs.trans ht) (.inl ht)) hfuel hinterp hreach
  exact ⟨s₂, j₂, hbody, hsim₂.settled hs, hrest⟩

/-- A round that returns is a part of the run. -/
theorem Settled.round_ok (hsettled : SettlesCode init) (haligned : FetchesAligned init)
    (h : Settled init config s j) (hrunning : s.finished = false)
    (hbody : stepBody config (none : Option (Translator τ μ)) n j = some (.ok () j')) :
    ∃ s₂, Settled init config s₂ j' := by
  obtain ⟨hs, hsim⟩ := h
  rcases hsim.stepBody_cases hbody with ⟨bb, j₁, hblock, rfl, hinterp, hemplaced⟩ |
    ⟨_, _, _, hraise⟩
  · obtain ⟨cpu, hcpu, -⟩ := run_interpret_ok.mp hinterp.symm
    obtain ⟨hreach, hkept⟩ := hblock.reaches hsettled haligned hs .refl hrunning hcpu
    have hstable : StableBlock j₁.cpu config.singleStep j₁.cpu.pc bb.insns :=
      fun t ht => hkept t (hs.trans ht) (.inl ht)
    have hzero := (interpretInsns_getReg_zero bb.insns 0#32).ok hsim.zero hcpu
    obtain ⟨j₂, hrun, hsim₂⟩ := interpret_eq_ok (hemplaced hstable) hstable hcpu hreach hzero
    rw [hrun] at hinterp
    cases hinterp
    exact ⟨cpu, hsim₂.settled hs⟩
  · cases hraise

/-- Behind a round that raises, the run raises too, in the state that the engine left or
later in the block. -/
theorem Settled.round_error (hsettled : SettlesCode init) (haligned : FetchesAligned init)
    (h : Settled init config s j) (hrunning : s.finished = false)
    (hbody : stepBody config (none : Option (Translator τ μ)) n j = some (.error e j')) :
    Reaches s j'.cpu ∧ ∃ s' e', Ahead j'.cpu s' ∧ RaisesAt s' e' := by
  obtain ⟨hs, hsim⟩ := h
  rcases hsim.stepBody_cases hbody with ⟨bb, j₁, hblock, rfl, hinterp, -⟩ |
    ⟨e, insns, hfaults, hraise⟩
  · cases hcpu : (interpretInsns bb.insns).run j₁.cpu with
    | ok _ s₂ =>
      rw [run_interpret_ok.mpr ⟨s₂, hcpu, rfl⟩] at hinterp
      cases hinterp
    | error e' s₂ =>
      obtain ⟨hreach, hraises⟩ := hblock.raisesAt hsettled haligned hs .refl hrunning hcpu
      rw [interpret, run_seq_error (run_onCpu_error hcpu)] at hinterp
      cases hinterp
      exact ⟨hreach, s₂, _, .refl, hraises⟩
  · cases hraise
    obtain ⟨s', e', hinside, hraises⟩ := hfaults.raisesAt hsettled haligned hs .refl hrunning rfl
    rw [← hsim.cpu_eq]
    exact ⟨.refl, s', e', hsim.cpu_eq ▸ hinside, hraises⟩

/-- Where the interpreter returns, so does the engine, with any translator that is correct. -/
theorem exists_step_of_runInterpreter {m_translator : Option (Translator τ μ)}
    (hcorrect : ∀ translate ∈ m_translator, BlockCorrect translate) (config : Config) (ts : τ)
    (hzero : init.getReg 0 = 0#32) (hsettled : SettlesCode init)
    (hrun : Hart.runInterpreter n init = some (.ok () s')) :
    ∃ n j, step config m_translator n { cpu := init, translatorState := ts } = some (.ok () j) ∧
      j.cpu = s' := by
  have hsame : ∀ (s : CPUState μ) (j : JitState τ μ),
      Settled init config s j → s.finished = j.cpu.finished :=
    fun s j h => by rw [h.2.cpu_eq]
  obtain ⟨j, hstep, hj⟩ := whileNot_simulation hsame
    (fun fuel s j s' h hrunning hrun => h.exists_stepBody_eq_ok hcorrect hsettled hrunning hrun)
    (settled_init hzero config ts) hrun
  exact ⟨n, j, hstep, hj.2.cpu_eq⟩

/-- The engine stands where the interpreter stands, round after round. -/
theorem round_settled (hsettled : SettlesCode init) (haligned : FetchesAligned init)
    (n : ℕ) (j j' : JitState τ μ) (h : ∃ s, Settled init config s j)
    (hrunning : j.cpu.finished = false)
    (hbody : stepBody config (none : Option (Translator τ μ)) n j = some (.ok () j')) :
    ∃ s, Settled init config s j' := by
  obtain ⟨s, hs⟩ := h
  exact hs.round_ok hsettled haligned (hs.2.cpu_eq ▸ hrunning) hbody

/-- Where the engine returns, so does the interpreter. -/
theorem runInterpreter_of_step_ok {ts : τ} (hzero : init.getReg 0 = 0#32)
    (hsettled : SettlesCode init) (haligned : FetchesAligned init)
    (hstep : step config (none : Option (Translator τ μ)) n
      { cpu := init, translatorState := ts } = some (.ok () j)) :
    ∃ m, Hart.runInterpreter m init = some (.ok () j.cpu) := by
  obtain ⟨⟨s, hs, hsim⟩, hfinished⟩ :=
    invariant_of_whileNot_eq_ok (round_settled hsettled haligned)
      ⟨init, settled_init hzero config ts⟩ hstep
  rw [runInterpreter_eq_ok_iff, hsim.cpu_eq]
  exact ⟨hs, hsim.cpu_eq ▸ hfinished⟩

/-- Where the engine raises, the interpreter raises there or further on in the block. -/
theorem runInterpreter_of_step_error {ts : τ} (hzero : init.getReg 0 = 0#32)
    (hsettled : SettlesCode init) (haligned : FetchesAligned init)
    (hstep : step config (none : Option (Translator τ μ)) n
      { cpu := init, translatorState := ts } = some (.error e j)) :
    Reaches init j.cpu ∧ ∃ m e' s', Ahead j.cpu s' ∧
      Hart.runInterpreter m init = some (.error e' s') := by
  obtain ⟨j₀, m, ⟨s, hs⟩, hrunning, hbody⟩ :=
    invariant_of_whileNot_eq_error (round_settled hsettled haligned)
      ⟨init, settled_init hzero config ts⟩ hstep
  obtain ⟨hreach, s', e', hinside, hraise⟩ :=
    hs.round_error hsettled haligned (hs.2.cpu_eq ▸ hrunning) hbody
  have hreach' := hs.1.trans hreach
  obtain ⟨m', hrun⟩ :=
    runInterpreter_eq_error_iff.mpr ⟨hreach'.trans (reaches_of_inside hinside), hraise⟩
  exact ⟨hreach', m', e', s', hinside, hrun⟩

/-- What the engine without a translator comes to. It returns if and only if the
interpreter does, in the same state. Where it raises, the interpreter raises as well, in the
state that the engine leaves or further on in the same block. A run that goes on forever
keeps the engine going forever. -/
theorem step_outcomes (config : Config) (ts : τ) (hzero : init.getReg 0 = 0#32)
    (hsettled : SettlesCode init) (haligned : FetchesAligned init) :
    (∀ s', (∃ n j, step config (none : Option (Translator τ μ)) n
        { cpu := init, translatorState := ts } = some (.ok () j) ∧ j.cpu = s') ↔
      ∃ n, Hart.runInterpreter n init = some (.ok () s')) ∧
    (∀ n e j, step config (none : Option (Translator τ μ)) n
        { cpu := init, translatorState := ts } = some (.error e j) →
      Reaches init j.cpu ∧ ∃ m e' s', Ahead j.cpu s' ∧
        Hart.runInterpreter m init = some (.error e' s')) ∧
    ((∀ n, Hart.runInterpreter n init = none) →
      ∀ n, step config (none : Option (Translator τ μ)) n
        { cpu := init, translatorState := ts } = none) := by
  refine ⟨fun s' => ⟨?_, fun ⟨n, hrun⟩ =>
      exists_step_of_runInterpreter blockCorrect_none config ts hzero hsettled hrun⟩,
    fun n e j => runInterpreter_of_step_error hzero hsettled haligned, fun hnever n => ?_⟩
  · rintro ⟨n, j, hstep, rfl⟩
    exact runInterpreter_of_step_ok hzero hsettled haligned hstep
  · cases hstep : step config (none : Option (Translator τ μ)) n
      { cpu := init, translatorState := ts } with
    | none => rfl
    | some r =>
      cases r with
      | ok _ j =>
        obtain ⟨m, hrun⟩ := runInterpreter_of_step_ok hzero hsettled haligned hstep
        rw [hnever m] at hrun
        cases hrun
      | error e j =>
        obtain ⟨-, m, e', s', -, hrun⟩ := runInterpreter_of_step_error hzero hsettled haligned hstep
        rw [hnever m] at hrun
        cases hrun

end Rounds

/-- The engine raises over a word that the interpreter comes to after one instruction. -/
theorem step_outcomes_addiGuest :
    Reaches addiGuest addiGuest ∧ ∃ m e' s',
      Ahead addiGuest s' ∧ Hart.runInterpreter m addiGuest = some (.error e' s') :=
  (step_outcomes {} () rfl noSelfModification_addiGuest.settlesCode fun _ h _ =>
    aligned_addiGuest h).2.1 3 _ _ rfl

/-! ### Single-stepping -/

/-- The two engines have their own words for an instruction that is not defined. -/
inductive SameFault (pc : Addr) : Exn → Exn → Prop
  | refl (e : Exn) : SameFault pc e e
  | undefined (bytes : Word) : SameFault pc (.undefinedInstruction bytes) (.cannotDecode bytes pc)

/-- The interpreter and an engine end alike, and in the same state. -/
abbrev SameOutcome : EStateM.Result Exn (CPUState μ) Unit →
    EStateM.Result Exn (JitState τ μ) Unit → Prop :=
  Parallel (fun s j => j.cpu = s) fun e s e' j => j.cpu = s ∧ SameFault s.pc e e'

section SingleStep

variable [LawfulMemory μ] {init s : CPUState μ} {config : Config} {j : JitState τ μ}

omit [LawfulMemory μ] in
/-- A round that has the fuel for its block comes to an end. -/
theorem Simulates.exists_stepBody_eq_some (hsim : Simulates init config.singleStep s j)
    {insns : List Instruction}
    (hblock : IsBlockAt (Memory.read32 s.memory) config.singleStep s.pc insns) {n : ℕ}
    (hfuel : insns.length ≤ n) :
    ∃ r, stepBody config (none : Option (Translator τ μ)) n j = some r := by
  have hcollect := hblock.collectBlock_eq hfuel []
  rw [List.nil_append] at hcollect
  cases hbb : j.m_cacheBB s.pc with
  | some bb =>
    refine ⟨(runBlock config none s.pc bb).run j, ?_⟩
    simp only [stepBody, Option.bind_none, tryEmplace, hsim.cpu_eq, CPUState.getPC_eq, hbb]
  | none =>
    refine ⟨(runBlock config none s.pc { insns }).run (setBB s.pc { insns } j), ?_⟩
    simp only [stepBody, Option.bind_none, tryEmplace, hsim.cpu_eq, CPUState.getPC_eq, hbb,
      Memory.read_word, hcollect]

/-- An instruction is a block of its own, which a round executes. -/
theorem Settled.round_of_decode (hsingle : config.singleStep = true)
    (hsettled : SettlesCode init) (h : Settled init config s j)
    (hrunning : s.finished = false) (haligned : s.pc % kWordSize = 0#32) {bytes : Word}
    {insn : Instruction} (hread : Memory.read32 s.memory s.pc = .ok bytes)
    (hdecode : decode bytes = some insn) (n : ℕ) :
    Option.Rel
      (Parallel (Settled init config) fun e s e' j => j.cpu = s ∧ SameFault s.pc e e')
      (some ((executeCounted insn).run s))
      (stepBody config (none : Option (Translator τ μ)) (n + 1) j) := by
  obtain ⟨hs, hsim⟩ := h
  have hblock : IsBlockAt (Memory.read32 s.memory) config.singleStep s.pc [insn] :=
    .last hread hdecode (.inl hsingle)
  obtain ⟨bb, j₁, hinsns, hcpu, hemplaced, hbody⟩ : ∃ bb j₁, bb.insns = [insn] ∧ j₁.cpu = s ∧
      (StableBlock s config.singleStep s.pc [insn] → Simulates s config.singleStep s j₁) ∧
      stepBody config (none : Option (Translator τ μ)) (n + 1) j =
        some ((interpret s.pc bb).run j₁) := by
    obtain ⟨r, hr⟩ := hsim.exists_stepBody_eq_some hblock (Nat.le_add_left 1 n)
    rcases hsim.stepBody_cases hr with ⟨bb, j₁, hat, hcpu, rfl, hemplaced⟩ | ⟨e, _, hfaults, -⟩
    · have hinsns := hat.unique hblock
      exact ⟨bb, j₁, hinsns, hcpu, hinsns ▸ hemplaced, hr⟩
    · exact absurd hblock hfaults.not_isBlockAt
  rw [hbody]
  subst hcpu
  have hstep := ExecEngine.step_eq_executeCounted haligned hread hdecode
  cases hexec : (executeCounted insn).run j₁.cpu with
  | ok _ s₁ =>
    have hrun : RunStep j₁.cpu s₁ := ⟨hrunning, hstep.trans hexec⟩
    have hstable : StableBlock j₁.cpu config.singleStep j₁.cpu.pc bb.insns := by
      rw [hinsns]
      exact fun t ht => .last (hsettled.read32_after hs hrunning ht hread) hdecode (.inl hsingle)
    have hinterp : (interpretInsns bb.insns).run j₁.cpu = .ok () s₁ := by
      simp [interpretInsns, hinsns, hexec]
    obtain ⟨j₂, hreturn, hsim₂⟩ := interpret_eq_ok (hemplaced (hinsns ▸ hstable)) hstable hinterp
      (.single hrun) ((executeCounted_getReg_zero insn 0#32).ok hsim.zero hexec)
    rw [hreturn]
    exact .some (.returned (hsim₂.settled hs))
  | error e s₁ =>
    obtain ⟨rfl, -⟩ := executeCounted_error hexec
    have hinterp : (interpretInsns bb.insns).run j₁.cpu = .error e j₁.cpu := by
      rw [interpretInsns, hinsns, List.forM_cons, run_seq_error hexec]
    rw [interpret, run_seq_error (run_onCpu_error hinterp)]
    exact .some (.raised ⟨rfl, .refl e⟩)

/-- A round is a step. -/
theorem Settled.round_singleStep (hsingle : config.singleStep = true)
    (hsettled : SettlesCode init) (haligned : FetchesAligned init)
    (h : Settled init config s j) (hrunning : s.finished = false) (n : ℕ) :
    Option.Rel
      (Parallel (Settled init config) fun e s e' j => j.cpu = s ∧ SameFault s.pc e e')
      (some (ExecEngine.step.run s))
      (stepBody config (none : Option (Translator τ μ)) (n + 1) j) := by
  have hpc := haligned s h.1 hrunning
  have hcpu := h.2.cpu_eq
  have hbody : (∀ insns, ¬ IsBlockAt (Memory.read32 s.memory) config.singleStep s.pc insns) →
      ∀ e, collectBlock (Memory.read32 s.memory) config.singleStep (n + 1) s.pc [] =
        some ([], some e) →
      stepBody config (none : Option (Translator τ μ)) (n + 1) j =
        some (.error e (setBB s.pc {} j)) := by
    intro hnot e hcollect
    have hbb : j.m_cacheBB s.pc = none := by
      cases hbb : j.m_cacheBB s.pc with
      | none => rfl
      | some bb => exact absurd (h.2.bb_stable _ _ hbb s .refl) (hnot _)
    simp only [stepBody, Option.bind_none, tryEmplace, hcpu, CPUState.getPC_eq, hbb,
      Memory.read_word, hcollect]
  cases hread : Memory.read32 s.memory s.pc with
  | error e =>
    rw [ExecEngine.step_of_read_error hpc hread,
      hbody (fun _ => (FaultsAt.read hread).not_isBlockAt) e (by simp [collectBlock, hread])]
    exact .some (.raised ⟨hcpu, .refl e⟩)
  | ok bytes =>
    cases hdecode : decode bytes with
    | none =>
      rw [ExecEngine.step_of_decode_eq_none hpc hread hdecode,
        hbody (fun _ => (FaultsAt.decode hread hdecode).not_isBlockAt) (.cannotDecode bytes s.pc)
          (by simp [collectBlock, hread, hdecode])]
      exact .some (.raised ⟨hcpu, .undefined bytes⟩)
    | some insn =>
      rw [ExecEngine.step_eq_executeCounted hpc hread hdecode]
      exact h.round_of_decode hsingle hsettled hrunning hpc hread hdecode n

/-- Step by step, on fuel for one more word to be collected. -/
theorem singleStep_parallel (hsingle : config.singleStep = true) (ts : τ)
    (hzero : init.getReg 0 = 0#32) (hsettled : SettlesCode init)
    (haligned : FetchesAligned init) (n : ℕ) :
    Option.Rel SameOutcome (Hart.runInterpreter n init)
      (whileNot (fun j => j.cpu.finished)
        (fun n => stepBody config (none : Option (Translator τ μ)) (n + 1)) n
        { cpu := init, translatorState := ts }) := by
  refine Parallel.rel_mono (whileNot_parallel (I := fun _ => True)
    (R := Settled init config) (fun s j h => by rw [h.2.cpu_eq])
    (fun _ _ _ _ _ _ => trivial) (fun n s j _ h hrunning => ?_) n trivial
    (settled_init hzero config ts)) (fun _ _ h => h.2.cpu_eq) fun _ _ _ _ => id
  exact h.round_singleStep hsingle hsettled haligned hrunning n

/-- Whatever the interpreter ends in, the engine ends in as well. -/
theorem exists_step_of_runInterpreter_singleStep (hsingle : config.singleStep = true) (ts : τ)
    (hzero : init.getReg 0 = 0#32) (hsettled : SettlesCode init)
    (haligned : FetchesAligned init) {n : ℕ} {r : EStateM.Result Exn (CPUState μ) Unit}
    (hrun : Hart.runInterpreter n init = some r) :
    ∃ m r', step config (none : Option (Translator τ μ)) m
      { cpu := init, translatorState := ts } = some r' ∧ SameOutcome r r' := by
  obtain ⟨r', hstep, hsame⟩ :=
    Parallel.exists_right (singleStep_parallel hsingle ts hzero hsettled haligned n) hrun
  exact ⟨n + 1, r', whileNot_succ hstep, hsame⟩

/-- An engine that single-steps comes to what the interpreter comes to: it returns in the
same state, or raises over the same fault in the same state, or goes on forever. -/
theorem step_singleStep_outcomes (hsingle : config.singleStep = true) (ts : τ)
    (hzero : init.getReg 0 = 0#32) (hsettled : SettlesCode init)
    (haligned : FetchesAligned init) :
    (∀ n r, Hart.runInterpreter n init = some r →
      ∃ m r', step config (none : Option (Translator τ μ)) m
        { cpu := init, translatorState := ts } = some r' ∧ SameOutcome r r') ∧
    ∀ m r', step config (none : Option (Translator τ μ)) m
        { cpu := init, translatorState := ts } = some r' →
      ∃ n r, Hart.runInterpreter n init = some r ∧ SameOutcome r r' := by
  refine ⟨fun n r => exists_step_of_runInterpreter_singleStep hsingle ts hzero hsettled haligned,
    fun m r' hstep => ?_⟩
  -- the fuel that was enough is enough with one more unit for each round
  have hmore := whileNot_mono_body (fun n _ _ => stepBody_mono (Nat.le_succ n)) hstep
  obtain ⟨r, hrun, hsame⟩ :=
    Parallel.exists_left (singleStep_parallel hsingle ts hzero hsettled haligned m) hmore
  exact ⟨m, r, hrun, hsame⟩

end SingleStep

theorem step_singleStep_outcomes_addiGuest :
    ∃ m r', step { singleStep := true } none m
        ({ cpu := addiGuest, translatorState := () } : JitState Unit _) = some r' ∧
      SameOutcome (.error (.undefinedInstruction 0#32) afterAddi) r' :=
  (step_singleStep_outcomes rfl () rfl noSelfModification_addiGuest.settlesCode fun _ h _ =>
    aligned_addiGuest h).1 2 _ rfl

end JitEngine

end Prot
