import Prot.BlockCache

/-!
# Runs that raise

The interpreter raises in the state in which an instruction cannot be fetched, decoded
or executed. `JitEngine::step` reads a whole block before it executes any of it. So it
raises in the same state if the block in which the run ends is complete in memory, and
in the state in which the run entered the block if it is not.

The engine has no translator here, and does not single-step.

## Main results

* `step_mono`: more fuel changes no result of the engine
* `exists_block_ahead_or_inside`: the run executes a block, or ends inside one
* `step_of_runInterpreter_error`: where the engine raises
-/

namespace Prot

open Isa Interpreter Stateful

variable {μ τ : Type} [Memory μ]

/-! ### Blocks of a run -/

/-- A step of the run that executes an instruction of some kind, the last one of a block
or another. -/
def StepsOver (last : Bool) (s s' : CPUState μ) : Prop :=
  RunStep s s' ∧ ∃ bytes insn, Memory.read32 s.memory s.pc = .ok bytes ∧
    decode bytes = some insn ∧ isTerminator insn.opcode = .ok last

/-- The run enters a block in `s`, and is still inside it in `s'`. -/
structure LastBlock (init s s' : CPUState μ) : Prop where
  entered : s = init ∨ ∃ t, Reaches init t ∧ StepsOver true t s
  inside : Relation.ReflTransGen (StepsOver false) s s'

section Run

variable {init s s₁ s' : CPUState μ} {e : Exn} {fuel : ℕ}

/-- Steps inside a block are steps of the run. -/
theorem reaches_of_inside (h : Relation.ReflTransGen (StepsOver false) s s') : Reaches s s' :=
  h.lift id fun _ _ hstep => hstep.1

/-- Every step executes one or the other kind of instruction. -/
theorem RunStep.exists_stepsOver (h : RunStep s s₁) :
    ∃ bytes insn last, Memory.read32 s.memory s.pc = .ok bytes ∧ decode bytes = some insn ∧
      isTerminator insn.opcode = .ok last ∧ (executeCounted insn).run s = .ok () s₁ ∧
      StepsOver last s s₁ := by
  obtain ⟨bytes, insn, last, hread, hdecode, hlast, hexec⟩ := h.exists_executeCounted
  exact ⟨bytes, insn, last, hread, hdecode, hlast, hexec, h, bytes, insn, hread, hdecode, hlast⟩

theorem StepsOver.exists_executeCounted {last : Bool} (h : StepsOver last s s₁) :
    ∃ bytes insn, Memory.read32 s.memory s.pc = .ok bytes ∧ decode bytes = some insn ∧
      isTerminator insn.opcode = .ok last ∧ (executeCounted insn).run s = .ok () s₁ := by
  obtain ⟨hstep, bytes, insn, hread, hdecode, hlast⟩ := h
  obtain ⟨bytes', insn', _, hread', hdecode', -, hexec⟩ := hstep.exists_executeCounted
  cases hread.symm.trans hread'
  cases hdecode.symm.trans hdecode'
  exact ⟨bytes, insn, hread, hdecode, hlast, hexec⟩

variable [LawfulMemory μ]

/-- The run from an unfinished state ends in its block, or executes the block. -/
theorem exists_block_ahead_or_inside (hpure : NoSelfModification init) (hs : Reaches init s)
    (haligned : ∀ t, Reaches init t → t.pc % kWordSize = 0#32)
    (hrun : Hart.runInterpreter fuel s = some (.error e s')) :
    s.finished = false ∧
      ((Relation.ReflTransGen (StepsOver false) s s' ∧ s'.finished = false ∧
        ExecEngine.step.run s' = .error e s') ∨
      ∃ insns s₂ fuel₂, fuel₂ < fuel ∧
        (∀ t, Reaches init t → IsBlockAt (Memory.read32 t.memory) false s.pc insns) ∧
        (interpretInsns insns).run s = .ok () s₂ ∧ (∃ t, Reaches init t ∧ StepsOver true t s₂) ∧
        Hart.runInterpreter fuel₂ s₂ = some (.error e s')) := by
  induction fuel generalizing s with
  | zero => cases hrun
  | succ fuel ih =>
    obtain ⟨hrunning, hbody⟩ := Loop.exists_of_whileNot_eq_error hrun
    refine ⟨hrunning, ?_⟩
    rcases hbody with hraise | ⟨s₁, hbody, hrest⟩
    · -- the first step raises, and leaves everything as it was
      have hstep : ExecEngine.step.run s = .error e s' := Option.some.inj hraise
      obtain ⟨rfl, -⟩ := ExecEngine.step_error_of_aligned (haligned s hs) hstep
      exact .inl ⟨.refl, hrunning, hstep⟩
    · have hstep : RunStep s s₁ := ⟨hrunning, Option.some.inj hbody⟩
      obtain ⟨bytes, insn, last, hread, hdecode, hterm, hexec, hover⟩ := hstep.exists_stepsOver
      have hfetch : ∀ t, Reaches init t → Memory.read32 t.memory s.pc = .ok bytes :=
        fun t ht => read32_of_fetched hpure hs hstep hread ht
      have hsingle : (interpretInsns [insn]).run s = .ok () s₁ := by simp [interpretInsns, hexec]
      cases last with
      | true =>
        exact .inr ⟨[insn], s₁, fuel, Nat.lt_succ_self fuel,
          fun t ht => .last (hfetch t ht) hdecode (.inr hterm), hsingle, ⟨s, hs, hover⟩, hrest⟩
      | false =>
        obtain ⟨hpc, hfin⟩ := pc_of_inner hterm hexec
        rcases (ih (hs.tail hstep) hrest).2 with ⟨hinside, hend⟩ |
          ⟨insns, s₂, fuel₂, hlt, hblock, hinterp, hentered, hrest'⟩
        · exact .inl ⟨.head hover hinside, hend⟩
        · refine .inr ⟨insn :: insns, s₂, fuel₂, by omega, fun t ht => ?_, ?_, hentered, hrest'⟩
          · exact .cons (hfetch t ht) hdecode rfl hterm (hpc ▸ hblock t ht)
          · rw [interpretInsns, List.forM_cons, run_seq_ok hexec]
            exact hinterp

/-- No store of the run changes a word that it is yet to fetch. -/
theorem read32_of_reaches (hpure : NoSelfModification init) (hs : Reaches init s)
    (hreach : Reaches s s') (hrunning : s'.finished = false) {bytes : Word}
    (hread : Memory.read32 s.memory s'.pc = .ok bytes) :
    Memory.read32 s'.memory s'.pc = .ok bytes := by
  have hs' := hs.trans hreach
  suffices h : ∀ u, Reaches s u → Memory.read32 u.memory s'.pc = .ok bytes from h s' hreach
  intro u hu
  induction hu with
  | refl => exact hread
  | tail hu huv ih =>
    rcases huv.memory with hsame | ⟨T, addr, val, hstore, hwrite⟩
    · rwa [hsame]
    · exact LawfulMemory.read32_write_of_disjoint hwrite
        (hpure _ s' T addr (hs.trans hu) hs' hstore hrunning) ih

/-- A complete block raises where the run raises that ends inside it. -/
theorem interpretInsns_eq_error (hpure : NoSelfModification init) {s₀ : CPUState μ}
    (hs₀ : Reaches init s₀) (hreach : Reaches s₀ s)
    (hinside : Relation.ReflTransGen (StepsOver false) s s') (hrunning : s'.finished = false)
    (haligned : s'.pc % kWordSize = 0#32) (hstep : ExecEngine.step.run s' = .error e s')
    {insns : List Instruction} (hblock : IsBlockAt (Memory.read32 s₀.memory) false s.pc insns) :
    (interpretInsns insns).run s = .error e s' := by
  induction hinside using Relation.ReflTransGen.head_induction_on generalizing insns with
  | refl =>
    -- the first word of the rest of the block is the one at which the run raises
    obtain ⟨bytes, inst, rest, rfl, hread, hdecode, -⟩ := hblock.exists_eq_cons
    rw [interpretInsns, List.forM_cons]
    exact run_seq_error ((ExecEngine.step_error_of_aligned haligned hstep).2 _ _
      (read32_of_reaches hpure hs₀ hreach hrunning hread) hdecode)
  | @head s s₁ hover _ ih =>
    obtain ⟨bytes, insn, hread, hdecode, hinner, hexec⟩ := hover.exists_executeCounted
    obtain ⟨bytes', insn', rest, rfl, hread', hdecode', hrest⟩ := hblock.exists_eq_cons
    -- the block begins with the instruction that the run executes
    have hfetch := read32_of_fetched hpure (hs₀.trans hreach) hover.1 hread hs₀
    cases hfetch.symm.trans hread'
    cases hdecode.symm.trans hdecode'
    rw [interpretInsns, List.forM_cons, run_seq_ok hexec]
    refine ih (hreach.tail hover.1) ?_
    rw [(pc_of_inner hinner hexec).1]
    exact hrest rfl hinner

end Run

/-! ### The engine on more fuel -/

namespace JitEngine

section Fuel

variable {config : Config} {m_translator : Option (Translator τ μ)} {j j' : JitState τ μ}
  {r : EStateM.Result Exn (JitState τ μ) Unit} {n m : ℕ}

/-- More fuel changes no block that is found or collected. -/
theorem tryEmplace_mono {singleStep : Bool} {pc : Addr}
    {r : EStateM.Result Exn (JitState τ μ) BBInfo} (hle : n ≤ m)
    (h : tryEmplace singleStep n pc j = some r) : tryEmplace singleStep m pc j = some r := by
  cases hbb : j.m_cacheBB pc with
  | some bb => simpa only [tryEmplace, hbb] using h
  | none =>
    simp only [tryEmplace, hbb] at h ⊢
    cases hcollect : collectBlock (Memory.read .word j.cpu.memory) singleStep n pc [] with
    | none =>
      rw [hcollect] at h
      cases h
    | some collected =>
      rw [hcollect] at h
      rwa [collectBlock_mono hle hcollect]

/-- More fuel changes no round. -/
theorem stepBody_mono (hle : n ≤ m) (h : stepBody config m_translator n j = some r) :
    stepBody config m_translator m j = some r := by
  cases hlookup : m_translator.bind fun _ => j.m_tbCache.lookup j.cpu.getPC with
  | some found => simpa only [stepBody, hlookup] using h
  | none =>
    simp only [stepBody, hlookup] at h ⊢
    cases hemplace : tryEmplace config.singleStep n j.cpu.getPC j with
    | none =>
      rw [hemplace] at h
      cases h
    | some emplaced =>
      rw [hemplace] at h
      rwa [tryEmplace_mono hle hemplace]

/-- More fuel changes no result of the engine. -/
theorem step_mono (hle : n ≤ m) (h : step config m_translator n j = some r) :
    step config m_translator m j = some r :=
  Loop.whileNot_mono hle (fun _ _ _ _ hle h => stepBody_mono hle h) h

/-- The engine has one result. -/
theorem step_unique {r' : EStateM.Result Exn (JitState τ μ) Unit}
    (h : step config m_translator n j = some r) (h' : step config m_translator m j = some r') :
    r = r' := by
  have hleft := step_mono (Nat.le_max_left n m) h
  rw [step_mono (Nat.le_max_right n m) h'] at hleft
  exact (Option.some.inj hleft).symm

/-- A round that returns leads to the same results. -/
theorem exists_step_iff (hrunning : j.cpu.finished = false)
    (hbody : stepBody config m_translator n j = some (.ok () j')) :
    (∃ fuel, step config m_translator fuel j = some r) ↔
      ∃ fuel, step config m_translator fuel j' = some r :=
  Loop.exists_whileNot_iff (fun _ _ _ _ hle h => stepBody_mono hle h) hrunning hbody

/-- A round that raises ends the loop. -/
theorem step_of_error {e : Exn} (hrunning : j.cpu.finished = false)
    (hbody : stepBody config m_translator n j = some (.error e j')) :
    step config m_translator (n + 1) j = some (.error e j') :=
  Loop.whileNot_of_error hrunning hbody

end Fuel

/-! ### Rounds of the engine -/

/-- The engine stands where the run enters a block; what it has cached are blocks of
every memory of the run. -/
structure Follows (init s : CPUState μ) (j : JitState τ μ) : Prop where
  cpu_eq : j.cpu = s
  reached : Reaches init s
  bb_stable : ∀ a info, j.m_cacheBB a = some info → StableBlock init false a info.insns

section Rounds

variable {init s s₂ s' : CPUState μ} {j : JitState τ μ} {config : Config} {e : Exn}
  {insns : List Instruction}

/-- Without an entry, a round from here on is the collection of a block. -/
theorem Follows.stepBody_eq_collect (hsingle : config.singleStep = false) (h : Follows init s j)
    (hbb : j.m_cacheBB s.pc = none) (fuel : ℕ) :
    stepBody config (none : Option (Translator τ μ)) fuel j =
      match collectBlock (Memory.read32 s.memory) false fuel s.pc [] with
      | none => none
      | some (insns, none) => some ((interpret s.pc { insns }).run (setBB s.pc { insns } j))
      | some (insns, some e) => some (.error e (setBB s.pc { insns } j)) := by
  simp only [stepBody, Option.bind_none, tryEmplace, h.cpu_eq, CPUState.getPC_eq, hbb,
    Memory.read_word, hsingle, runBlock]
  rcases collectBlock (Memory.read32 s.memory) false fuel s.pc [] with _ | ⟨insns, _ | e⟩ <;> rfl

/-- The block in memory is interpreted, whether it is in the map or not. -/
theorem Follows.stepBody_eq (hsingle : config.singleStep = false) (h : Follows init s j)
    (hblock : IsBlockAt (Memory.read32 s.memory) false s.pc insns) :
    ∃ fuel bb j₁, bb.insns = insns ∧ j₁.cpu = s ∧
      (∀ a info, j₁.m_cacheBB a = some info → a = s.pc ∧ info.insns = insns ∨
        StableBlock init false a info.insns) ∧
      stepBody config (none : Option (Translator τ μ)) fuel j =
        some ((interpret s.pc bb).run j₁) := by
  have hpc : j.cpu.getPC = s.pc := by rw [h.cpu_eq, CPUState.getPC_eq]
  cases hbb : j.m_cacheBB s.pc with
  | some bb =>
    refine ⟨0, bb, j, (h.bb_stable _ _ hbb s h.reached).unique hblock, h.cpu_eq,
      fun a info hinfo => .inr (h.bb_stable a info hinfo), ?_⟩
    simp only [stepBody, Option.bind_none, tryEmplace, hpc, hbb, runBlock]
  | none =>
    have hcollect := hblock.collectBlock_eq le_rfl []
    rw [List.nil_append] at hcollect
    refine ⟨insns.length, { insns }, setBB s.pc { insns } j, rfl, h.cpu_eq,
      fun a info hinfo => ?_, ?_⟩
    · rcases m_cacheBB_setBB hinfo with ⟨rfl, rfl⟩ | hold
      · exact .inl ⟨rfl, rfl⟩
      · exact .inr (h.bb_stable a info hold)
    · rw [h.stepBody_eq_collect hsingle hbb, hcollect]

/-- A round over a complete block of the run. -/
theorem Follows.round (hsingle : config.singleStep = false) (h : Follows init s j)
    (hstable : StableBlock init false s.pc insns)
    (hinterp : (interpretInsns insns).run s = .ok () s₂) (hreach : Reaches init s₂) :
    ∃ fuel j₂, stepBody config (none : Option (Translator τ μ)) fuel j = some (.ok () j₂) ∧
      Follows init s₂ j₂ := by
  obtain ⟨fuel, bb, j₁, rfl, rfl, hcached, hbody⟩ :=
    h.stepBody_eq hsingle (hstable s h.reached)
  rw [interpret, run_seq_ok (run_onCpu_ok hinterp), EStateM.run_modify] at hbody
  refine ⟨fuel, _, hbody, rfl, hreach, fun a info hinfo => ?_⟩
  rcases m_cacheBB_setBB hinfo with ⟨rfl, rfl⟩ | hold
  · exact hstable
  · rcases hcached a info hold with ⟨rfl, hinsns⟩ | hcached
    · rwa [hinsns]
    · exact hcached

/-- A round over a complete block that raises. -/
theorem Follows.round_error (hsingle : config.singleStep = false) (h : Follows init s j)
    (hblock : IsBlockAt (Memory.read32 s.memory) false s.pc insns)
    (hinterp : (interpretInsns insns).run s = .error e s') :
    ∃ fuel j₂, stepBody config (none : Option (Translator τ μ)) fuel j = some (.error e j₂) ∧
      j₂.cpu = s' := by
  obtain ⟨fuel, bb, j₁, rfl, rfl, -, hbody⟩ := h.stepBody_eq hsingle hblock
  rw [interpret, run_seq_error (run_onCpu_error hinterp)] at hbody
  exact ⟨fuel, _, hbody, rfl⟩

/-- What is cached is a block in memory. -/
theorem Follows.m_cacheBB_eq_none (h : Follows init s j)
    (hblock : ¬ ∃ insns, IsBlockAt (Memory.read32 s.memory) false s.pc insns) :
    j.m_cacheBB s.pc = none := by
  cases hbb : j.m_cacheBB s.pc with
  | none => rfl
  | some bb => exact absurd ⟨bb.insns, h.bb_stable _ _ hbb s h.reached⟩ hblock

/-- A round that cannot collect its block leaves the guest as it is. -/
theorem Follows.round_faults (hsingle : config.singleStep = false) (h : Follows init s j)
    (hfaults : FaultsAt (Memory.read32 s.memory) false s.pc e) :
    ∃ fuel j₂, stepBody config (none : Option (Translator τ μ)) fuel j = some (.error e j₂) ∧
      j₂.cpu = s := by
  have hbb := h.m_cacheBB_eq_none fun ⟨_, hblock⟩ => hfaults.not_isBlockAt hblock
  obtain ⟨fuel, insns, hcollect⟩ := hfaults.exists_collectBlock_eq []
  refine ⟨fuel, setBB s.pc { insns } j, ?_, h.cpu_eq⟩
  rw [h.stepBody_eq_collect hsingle hbb, hcollect]

/-- A collection that never ends. -/
theorem Follows.stepBody_eq_none (hsingle : config.singleStep = false) (h : Follows init s j)
    (hblock : ¬ ∃ insns, IsBlockAt (Memory.read32 s.memory) false s.pc insns)
    (hfaults : ¬ ∃ e, FaultsAt (Memory.read32 s.memory) false s.pc e) (fuel : ℕ) :
    stepBody config (none : Option (Translator τ μ)) fuel j = none := by
  rw [h.stepBody_eq_collect hsingle (h.m_cacheBB_eq_none hblock)]
  rcases hcollect : collectBlock (Memory.read32 s.memory) false fuel s.pc [] with
    _ | ⟨insns, _ | e⟩
  · rfl
  · obtain ⟨new, -, hnew⟩ := isBlockAt_of_collectBlock hcollect
    exact absurd ⟨new, hnew⟩ hblock
  · exact absurd ⟨e, faultsAt_of_collectBlock hcollect⟩ hfaults

/-- The engine comes to the block in which the run ends. -/
theorem exists_lastBlock [LawfulMemory μ] (hsingle : config.singleStep = false)
    (hpure : NoSelfModification init)
    (haligned : ∀ t, Reaches init t → t.pc % kWordSize = 0#32) (h : Follows init s j)
    (hentered : s = init ∨ ∃ t, Reaches init t ∧ StepsOver true t s) {fuel : ℕ}
    (hrun : Hart.runInterpreter fuel s = some (.error e s')) :
    ∃ (s₀ : CPUState μ) (j₀ : JitState τ μ), LastBlock init s₀ s' ∧ s₀.finished = false ∧
      s'.finished = false ∧ ExecEngine.step.run s' = .error e s' ∧ Follows init s₀ j₀ ∧
      ∀ r, (∃ n, step config none n j = some r) ↔ ∃ n, step config none n j₀ = some r := by
  induction fuel using Nat.strong_induction_on generalizing s j with
  | _ fuel ih =>
    obtain ⟨hrunning, ⟨hinside, hrunning', hstep⟩ |
      ⟨insns, s₂, fuel₂, hlt, hblock, hinterp, ⟨t, ht, hover⟩, hrest⟩⟩ :=
        exists_block_ahead_or_inside hpure h.reached haligned hrun
    · exact ⟨s, j, ⟨hentered, hinside⟩, hrunning, hrunning', hstep, h, fun _ => Iff.rfl⟩
    · obtain ⟨n, j₂, hbody, h₂⟩ := h.round hsingle hblock hinterp (ht.tail hover.1)
      obtain ⟨s₀, j₀, hlast, hrunning₀, hrunning', hstep, h₀, hsame⟩ :=
        ih fuel₂ hlt h₂ (.inr ⟨t, ht, hover⟩) hrest
      refine ⟨s₀, j₀, hlast, hrunning₀, hrunning', hstep, h₀, fun r => ?_⟩
      rw [exists_step_iff (h.cpu_eq ▸ hrunning) hbody, hsame]

/-- Where the interpreter raises, the engine, started with empty caches, raises in the
same state or in the one in which the last block was entered; it depends on whether the
words of that block can all be read and decoded. -/
theorem step_of_runInterpreter_error [LawfulMemory μ] (hsingle : config.singleStep = false)
    (ts : τ) (hpure : NoSelfModification init)
    (haligned : ∀ t, Reaches init t → t.pc % kWordSize = 0#32) {fuel : ℕ}
    (hrun : Hart.runInterpreter fuel init = some (.error e s')) :
    ∃ s, LastBlock init s s' ∧
      ((∃ insns, IsBlockAt (Memory.read32 s.memory) false s.pc insns) →
        ∃ n j, step config none n { cpu := init, translatorState := ts } = some (.error e j) ∧
          j.cpu = s') ∧
      (∀ e', FaultsAt (Memory.read32 s.memory) false s.pc e' →
        ∃ n j, step config none n { cpu := init, translatorState := ts } = some (.error e' j) ∧
          j.cpu = s) ∧
      ((¬ ∃ insns, IsBlockAt (Memory.read32 s.memory) false s.pc insns) →
        (¬ ∃ e', FaultsAt (Memory.read32 s.memory) false s.pc e') →
        ∀ n, step config none n { cpu := init, translatorState := ts } = none) := by
  have hinit : Follows init init ({ cpu := init, translatorState := ts } : JitState τ μ) :=
    ⟨rfl, .refl, fun _ _ h => by cases h⟩
  obtain ⟨s, j₀, hlast, hrunning, hrunning', hstep, h, hsame⟩ :=
    exists_lastBlock hsingle hpure haligned hinit (.inl rfl) hrun
  have hrunning₀ : j₀.cpu.finished = false := h.cpu_eq ▸ hrunning
  have hs' := h.reached.trans (reaches_of_inside hlast.inside)
  refine ⟨s, hlast, ?_, ?_, ?_⟩
  · rintro ⟨insns, hblock⟩
    have hinterp := interpretInsns_eq_error hpure h.reached .refl hlast.inside hrunning'
      (haligned s' hs') hstep hblock
    obtain ⟨n, j, hbody, hj⟩ := h.round_error hsingle hblock hinterp
    obtain ⟨m, hm⟩ := (hsame _).mpr ⟨n + 1, step_of_error hrunning₀ hbody⟩
    exact ⟨m, j, hm, hj⟩
  · intro e' hfaults
    obtain ⟨n, j, hbody, hj⟩ := h.round_faults hsingle hfaults
    obtain ⟨m, hm⟩ := (hsame _).mpr ⟨n + 1, step_of_error hrunning₀ hbody⟩
    exact ⟨m, j, hm, hj⟩
  · intro hblock hfaults n
    have hnever : ∀ m, step config none m j₀ = none :=
      Loop.whileNot_eq_none hrunning₀ (h.stepBody_eq_none hsingle hblock hfaults)
    cases hn : step config none n { cpu := init, translatorState := ts } with
    | none => rfl
    | some r =>
      -- a result from the beginning would be one from the last block on
      obtain ⟨m, hm⟩ := (hsame r).mp ⟨n, hn⟩
      rw [hnever m] at hm
      cases hm

end Rounds

/-! ### A run that ends inside a block -/

/-- A page with `addi x1, x0, 5` and zeros, which are no instruction. -/
def addiGuest : CPUState (PlainMemory 0#32 4096) where
  memory := ⟨fun offset => (0x00500093#32).extractLsb' (8 * offset) 8⟩

/-- The guest after its only instruction. -/
def afterAddi : CPUState (PlainMemory 0#32 4096) :=
  ((addiGuest.setReg 1 5#32).setPC 4#32).incIcount

theorem runStep_addiGuest : RunStep addiGuest afterAddi := ⟨rfl, rfl⟩

theorem step_afterAddi :
    ExecEngine.step.run afterAddi = .error (.undefinedInstruction 0#32) afterAddi := rfl

theorem eq_of_reaches_addiGuest {t : CPUState (PlainMemory 0#32 4096)}
    (h : Reaches addiGuest t) : t = addiGuest ∨ t = afterAddi := by
  rcases Relation.ReflTransGen.cases_head h with rfl | ⟨s₁, hfirst, hrest⟩
  · exact .inl rfl
  · rw [← runStep_addiGuest.unique hfirst] at hrest
    rcases Relation.ReflTransGen.cases_head hrest with rfl | ⟨s₂, hsecond, -⟩
    · exact .inr rfl
    · have hstep := hsecond.2
      rw [step_afterAddi] at hstep
      cases hstep

/-- Neither of the two words stores. -/
theorem noSelfModification_addiGuest : NoSelfModification addiGuest := by
  rintro s t T addr hs - ⟨-, bytes, insn, hread, hdecode, hclass, -⟩ -
  rcases eq_of_reaches_addiGuest hs with rfl | rfl
  · cases hread
    cases hdecode
    cases hclass
  · cases hread
    cases hdecode

theorem aligned_addiGuest {t : CPUState (PlainMemory 0#32 4096)} (h : Reaches addiGuest t) :
    t.pc % kWordSize = 0#32 := by
  rcases eq_of_reaches_addiGuest h with rfl | rfl <;> rfl

theorem step_of_runInterpreter_error_addiGuest :
    ∃ s, LastBlock addiGuest s afterAddi ∧
      ((∃ insns, IsBlockAt (Memory.read32 s.memory) false s.pc insns) →
        ∃ n j, step {} none n ({ cpu := addiGuest, translatorState := () } : JitState Unit _) =
          some (.error (.undefinedInstruction 0#32) j) ∧ j.cpu = afterAddi) ∧
      (∀ e', FaultsAt (Memory.read32 s.memory) false s.pc e' →
        ∃ n j, step {} none n ({ cpu := addiGuest, translatorState := () } : JitState Unit _) =
          some (.error e' j) ∧ j.cpu = s) ∧
      ((¬ ∃ insns, IsBlockAt (Memory.read32 s.memory) false s.pc insns) →
        (¬ ∃ e', FaultsAt (Memory.read32 s.memory) false s.pc e') →
        ∀ n, step {} none n ({ cpu := addiGuest, translatorState := () } : JitState Unit _) =
          none) :=
  step_of_runInterpreter_error rfl () noSelfModification_addiGuest (fun _ => aligned_addiGuest)
    (show Hart.runInterpreter 2 addiGuest = some (.error (.undefinedInstruction 0#32) afterAddi)
      from rfl)

/-- Wherever the interpreter raises, the engine raises with the same registers, `pc`,
memory and instruction count. -/
def FaultsAgree (config : Config) (ts : τ) (init : CPUState μ) : Prop :=
  ∀ fuel e s', Hart.runInterpreter fuel init = some (.error e s') →
    ∃ n e' j, step config none n { cpu := init, translatorState := ts } = some (.error e' j) ∧
      j.cpu.regs = s'.regs ∧ j.cpu.pc = s'.pc ∧ j.cpu.memory = s'.memory ∧
        j.cpu.icount = s'.icount

/-- The interpreter has executed the `addi`, the engine has not. -/
theorem not_faultsAgree_addiGuest :
    NoSelfModification addiGuest ∧ (∀ t, Reaches addiGuest t → t.pc % kWordSize = 0#32) ∧
      ¬ FaultsAgree {} () addiGuest := by
  refine ⟨noSelfModification_addiGuest, fun _ => aligned_addiGuest, fun h => ?_⟩
  obtain ⟨n, e', j, hstep, -, hpc, -⟩ :=
    h 2 (.undefinedInstruction 0#32) afterAddi rfl
  have hraise : step {} none 3 ({ cpu := addiGuest, translatorState := () } : JitState Unit _) =
    some (.error (.cannotDecode 0#32 4#32) _) := rfl
  cases step_unique hraise hstep
  cases hpc

end JitEngine

end Prot
