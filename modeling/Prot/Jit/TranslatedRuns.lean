import Prot.Jit.Translators
import Prot.Alignment

/-!
# Runs with a translator and runs without

An engine that translates and an engine that only interprets go through the same blocks.
The cache of the translations, the threshold and the translator decide how a block is
executed, but not which block and, but for the counter, not what it does. This is so for
every program, also for one that writes to its own code or raises: both engines keep a
block as it was when it was first entered.

## Main definitions

* `Dispatches`: a block that a round runs
* `Faithful`: what a translation must get right of a block
* `Shadows`: a state with a translator beside a state without

## Main results

* `Shadows.round`: one round of both
* `step_parallel`: both engines run out of fuel, return or raise together
* `step_transparent`: what is left of a translator is its counter
-/

namespace Prot

open Isa Interpreter Stateful Loop

namespace JitEngine

variable {μ τ τ' : Type} [Memory μ]

/-- A round from `j` comes to run `insns`. -/
def Dispatches (config : Config) (j : JitState τ μ) (insns : List Instruction) : Prop :=
  j.cpu.finished = false ∧ ∃ fuel bb j₁,
    tryEmplace config.singleStep fuel j.cpu.pc j = some (.ok bb j₁) ∧ bb.insns = insns

/-- The backend gets every instruction of the block right, and its counter moves on from
related counts to related counts. -/
structure Faithful (b : Backend) (R : Icount → Icount → Prop) (insns : List Instruction)
    (s : CPUState μ) : Prop where
  along : Along b.Respects insns s
  next : ∀ s' c', (interpretInsns insns).run s = .ok () s' → R s.icount c' →
    R (s.icount + BitVec.ofNat 64 insns.length) (b.counter.next insns.length c')

/-- The engine with a translator has the same state but for the count, the same blocks, and
code only of these blocks. -/
structure Shadows (b : Backend) (R : Icount → Icount → Prop) (j : JitState τ μ)
    (j' : JitState τ' μ) : Prop where
  cpu_eq : j'.cpu = j.cpu.withIcount j'.cpu.icount
  icount : R j.cpu.icount j'.cpu.icount
  insnsAt_eq : insnsAt j' = insnsAt j
  zero : j.cpu.getReg 0 = 0#32
  block : ∀ a insns, insnsAt j a = some insns → IsBlock insns
  generated : ∀ a code, j'.m_tbCache.lookup a = some code →
    ∃ insns, insnsAt j a = some insns ∧ b.Calls insns code

/-- The same exception, in whatever states. -/
def SameExn {σ σ' : Type} (e : Exn) (_ : σ) (e' : Exn) (_ : σ') : Prop := e = e'

namespace Shadows

variable {b : Backend} {R : Icount → Icount → Prop} {j j₁ : JitState τ μ} {j' j₁' : JitState τ' μ}
  {config config' : Config} {translate : Translator τ' μ} {insns : List Instruction}
  {bb bb' : BBInfo} {pc : Addr}

/-- At the start, nothing is cached on either side. -/
theorem init (hrefl : ∀ c, R c c) {cpu : CPUState μ} (hzero : cpu.getReg 0 = 0#32) (ts : τ)
    (ts' : τ') : Shadows b R { cpu, translatorState := ts } { cpu, translatorState := ts' } where
  cpu_eq := rfl
  icount := hrefl _
  insnsAt_eq := rfl
  zero := hzero
  block _ _ h := by cases h
  generated a code h := by
    rw [TbCache.lookup_empty] at h
    cases h

theorem memory_eq (h : Shadows b R j j') : j'.cpu.memory = j.cpu.memory := by rw [h.cpu_eq]; rfl

theorem pc_eq (h : Shadows b R j j') : j'.cpu.pc = j.cpu.pc := by rw [h.cpu_eq]; rfl

theorem finished_eq (h : Shadows b R j j') : j'.cpu.finished = j.cpu.finished := by
  rw [h.cpu_eq]
  rfl

/-- Both sides move on in the same way, one of them with a count of its own. -/
theorem onCpu (h : Shadows b R j j') {s : CPUState μ} {c : Icount} (hzero : s.getReg 0 = 0#32)
    (hcount : R s.icount c) :
    Shadows b R { j with cpu := s } { j' with cpu := s.withIcount c } where
  cpu_eq := by rw [CPUState.withIcount_icount]
  icount := hcount
  insnsAt_eq := h.insnsAt_eq
  zero := hzero
  block := h.block
  generated := h.generated

/-- The counts of the executions do not matter. -/
theorem congr (h : Shadows b R j j') (hcpu : j₁.cpu = j.cpu) (hinsns : insnsAt j₁ = insnsAt j) :
    Shadows b R j₁ j' where
  cpu_eq := hcpu ▸ h.cpu_eq
  icount := hcpu ▸ h.icount
  insnsAt_eq := h.insnsAt_eq.trans hinsns.symm
  zero := hcpu ▸ h.zero
  block := hinsns ▸ h.block
  generated := hinsns ▸ h.generated

/-- Both sides enter blocks with the same instructions. -/
theorem setBB (h : Shadows b R j j') (hbb : bb'.insns = bb.insns) (hblock : IsBlock bb.insns)
    (hpc : insnsAt j pc = none ∨ insnsAt j pc = some bb.insns) :
    Shadows b R (JitEngine.setBB pc bb j) (JitEngine.setBB pc bb' j') := by
  refine ⟨h.cpu_eq, h.icount, ?_, h.zero, fun a insns ha => ?_, fun a code ha => ?_⟩
  · funext a
    by_cases ha : a = pc
    · rw [ha, insnsAt_setBB_self, insnsAt_setBB_self, hbb]
    · rw [insnsAt_setBB_of_ne ha, insnsAt_setBB_of_ne ha, h.insnsAt_eq]
  · by_cases hapc : a = pc
    · rw [hapc, insnsAt_setBB_self] at ha
      cases ha
      exact hblock
    · exact h.block a insns (insnsAt_setBB_of_ne hapc ▸ ha)
  · obtain ⟨insns, hinsns, hcode⟩ := h.generated a code ha
    refine ⟨insns, ?_, hcode⟩
    by_cases hapc : a = pc
    · -- there is code for `pc`, so the block was there
      subst hapc
      rw [insnsAt_setBB_self]
      rcases hpc with hnone | hsome
      · rw [hnone] at hinsns
        cases hinsns
      · exact hsome.symm.trans hinsns
    · rwa [insnsAt_setBB_of_ne hapc]

/-- Code of a block that is there may be inserted. -/
theorem insertTb (h : Shadows b R j j') {code : JitFunction μ} (hpc : insnsAt j pc = some insns)
    (hcode : b.Calls insns code) : Shadows b R j (JitEngine.insertTb pc code j') := by
  refine ⟨h.cpu_eq, h.icount, h.insnsAt_eq, h.zero, h.block, fun a found hfound => ?_⟩
  rcases TbCache.lookup_insert hfound with ⟨rfl, rfl⟩ | hold
  · exact ⟨insns, hpc, hcode⟩
  · exact h.generated a found hold

theorem translatorState (h : Shadows b R j j') (ts : τ') :
    Shadows b R j { j' with translatorState := ts } :=
  ⟨h.cpu_eq, h.icount, h.insnsAt_eq, h.zero, h.block, h.generated⟩

/-- Both sides find the block, or collect it, or fail to. -/
theorem tryEmplace (h : Shadows b R j j') (singleStep : Bool) (fuel : ℕ) (pc : Addr) :
    (JitEngine.tryEmplace singleStep fuel pc j = none ∧
      JitEngine.tryEmplace singleStep fuel pc j' = none) ∨
    (∃ e k k', JitEngine.tryEmplace singleStep fuel pc j = some (.error e k) ∧
      JitEngine.tryEmplace singleStep fuel pc j' = some (.error e k')) ∨
    ∃ bb bb' k k', JitEngine.tryEmplace singleStep fuel pc j = some (.ok bb k) ∧
      JitEngine.tryEmplace singleStep fuel pc j' = some (.ok bb' k') ∧ bb'.insns = bb.insns ∧
      insnsAt k pc = some bb.insns ∧ k.cpu = j.cpu ∧ Shadows b R k k' := by
  have hsame := congrFun h.insnsAt_eq pc
  cases hbb : j.m_cacheBB pc with
  | some bb =>
    have hpc : insnsAt j pc = some bb.insns := insnsAt_eq_some.mpr ⟨bb, hbb, rfl⟩
    obtain ⟨bb', hbb', hinsns⟩ := insnsAt_eq_some.mp (hsame.trans hpc)
    refine .inr (.inr ⟨bb, bb', j, j', ?_, ?_, hinsns, hpc, rfl, h⟩)
    · simp only [JitEngine.tryEmplace, hbb]
    · simp only [JitEngine.tryEmplace, hbb']
  | none =>
    have hpc : insnsAt j pc = none := by rw [insnsAt, hbb, Option.map_none]
    have hbb' : j'.m_cacheBB pc = none := Option.map_eq_none_iff.mp (hsame.trans hpc)
    simp only [JitEngine.tryEmplace, hbb, hbb', h.memory_eq]
    rcases hcollect : collectBlock (Memory.read .word j.cpu.memory) singleStep fuel pc [] with
      _ | ⟨insns, _ | e⟩
    · exact .inl ⟨rfl, rfl⟩
    · obtain ⟨new, rfl, hblock⟩ := isBlockAt_of_collectBlock hcollect
      exact .inr (.inr ⟨_, _, _, _, rfl, rfl, rfl, insnsAt_setBB_self, rfl,
        h.setBB rfl hblock.isBlock (.inl hpc)⟩)
    · exact .inr (.inl ⟨e, _, _, rfl, rfl⟩)

/-- Both sides interpret the block. -/
theorem interpret (h : Shadows b R j j') (hadd : ∀ c c' n, R c c' → R (c + n) (c' + n))
    (hpc : insnsAt j pc = some bb.insns) (hbb : bb'.insns = bb.insns) :
    Parallel (Shadows b R) SameExn ((JitEngine.interpret pc bb).run j)
      ((JitEngine.interpret pc bb').run j') := by
  cases hinterp : (interpretInsns bb.insns).run j.cpu with
  | error e s =>
    obtain ⟨s', hinterp'⟩ := interpretInsns_error_of_withIcount j'.cpu.icount hinterp
    rw [← h.cpu_eq, ← hbb] at hinterp'
    rw [JitEngine.interpret, JitEngine.interpret, run_seq_error (run_onCpu_error hinterp),
      run_seq_error (run_onCpu_error hinterp')]
    exact .raised rfl
  | ok _ s =>
    have hinterp' := interpretInsns_of_withIcount j'.cpu.icount hinterp
    rw [← h.cpu_eq, ← hbb] at hinterp'
    rw [run_interpret_ok.mpr ⟨s, hinterp, rfl⟩, run_interpret_ok.mpr ⟨_, hinterp', rfl⟩]
    have hzero := (interpretInsns_getReg_zero bb.insns 0#32).ok h.zero hinterp
    have hcount : R s.icount (j'.cpu.icount + BitVec.ofNat 64 bb'.insns.length) := by
      rw [icount_of_interpretInsns hinterp, hbb]
      exact hadd _ _ _ h.icount
    exact .returned ((h.onCpu hzero hcount).setBB hbb (h.block pc _ hpc) (.inr hpc))

/-- One side interprets the block, the other calls the translation. -/
theorem call (h : Shadows b R j j') (hpc : insnsAt j pc = some bb.insns) {code : JitFunction μ}
    (hcode : b.Calls bb.insns code) (hfaithful : Faithful b R bb.insns j.cpu) :
    Parallel (fun k k' => Shadows b R k k' ∧ insnsAt k pc = some bb.insns) SameExn
      ((JitEngine.interpret pc bb).run j) ((JitEngine.onCpu code).run j') := by
  have hblock := h.block pc _ hpc
  have hzero' : j'.cpu.getReg 0 = 0#32 := by
    rw [h.cpu_eq, CPUState.withIcount_getReg]
    exact h.zero
  have halong : Along b.Respects bb.insns j'.cpu := by
    rw [h.cpu_eq, along_withIcount fun _ _ n => Backend.respects_withIcount n]
    exact hfaithful.along
  cases hinterp : (interpretInsns bb.insns).run j.cpu with
  | error e s =>
    obtain ⟨s', hinterp'⟩ := interpretInsns_error_of_withIcount j'.cpu.icount hinterp
    rw [← h.cpu_eq] at hinterp'
    obtain ⟨s'', hcalled⟩ := hcode.of_error hblock hzero' halong hinterp'
    rw [JitEngine.interpret, run_seq_error (run_onCpu_error hinterp), run_onCpu_error hcalled]
    exact .raised rfl
  | ok _ s =>
    have hinterp' := interpretInsns_of_withIcount j'.cpu.icount hinterp
    rw [← h.cpu_eq] at hinterp'
    have hcalled := hcode.of_ok hblock hzero' halong hinterp'
    rw [CPUState.withIcount_withIcount] at hcalled
    rw [run_interpret_ok.mpr ⟨s, hinterp, rfl⟩, run_onCpu_ok hcalled]
    have hzero := (interpretInsns_getReg_zero bb.insns 0#32).ok h.zero hinterp
    have hcount : R s.icount (b.counter.next bb.insns.length j'.cpu.icount) := by
      rw [icount_of_interpretInsns hinterp]
      exact hfaithful.next s _ hinterp h.icount
    -- only the first side counts the execution
    exact .returned ⟨(h.onCpu hzero hcount).congr rfl (insnsAt_setBB_eq hpc), insnsAt_setBB_self⟩

end Shadows

section Parallel

variable {b : Backend} {R : Icount → Icount → Prop} {translate : Translator τ' μ}
  {config config' : Config} {j₀ j : JitState τ μ} {j' : JitState τ' μ}

/-- The translator, like the interpreter, is only asked for blocks that are cached. -/
theorem Shadows.runBlock (h : Shadows b R j j') (htranslates : b.Translates translate)
    (hadd : ∀ c c' n, R c c' → R (c + n) (c' + n)) {bb bb' : BBInfo} {pc : Addr}
    (hpc : insnsAt j pc = some bb.insns) (hbb : bb'.insns = bb.insns)
    (hfaithful : Faithful b R bb.insns j.cpu) :
    Parallel (Shadows b R) SameExn ((JitEngine.interpret pc bb).run j)
      ((JitEngine.runBlock config' (some translate) pc bb').run j') := by
  by_cases hhot : bb'.num_exec ≥ config'.execThreshold
  · simp only [JitEngine.runBlock, if_pos hhot]
    have hblock := h.block pc _ hpc
    obtain ⟨code, ts, htranslate, hcode⟩ :=
      htranslates bb' j'.translatorState (hbb.symm ▸ hblock)
    rw [run_seq_ok (run_onTranslator_ok htranslate)]
    have hcalled := (h.translatorState ts).call hpc (hbb ▸ hcode) hfaithful
    revert hcalled
    simp only [EStateM.run_bind]
    generalize (JitEngine.interpret pc bb).run j = r
    generalize (JitEngine.onCpu code).run { j' with translatorState := ts } = r'
    rintro (⟨h', hpc'⟩ | hsame)
    · exact .returned (h'.insertTb hpc' (hbb ▸ hcode))
    · exact .raised hsame
  · simp only [JitEngine.runBlock, if_neg hhot]
    exact h.interpret hadd hpc hbb

/-- One round of both engines. -/
theorem Shadows.round (h : Shadows b R j j') (htranslates : b.Translates translate)
    (hsingle : config'.singleStep = config.singleStep)
    (hadd : ∀ c c' n, R c c' → R (c + n) (c' + n)) (hrunning : j.cpu.finished = false)
    (hfaithful : ∀ insns, Dispatches config j insns → Faithful b R insns j.cpu) (fuel : ℕ) :
    Option.Rel (Parallel (Shadows b R) SameExn)
      (stepBody config (none : Option (Translator τ μ)) fuel j)
      (stepBody config' (some translate) fuel j') := by
  simp only [stepBody, Option.bind_none, Option.bind_some, CPUState.getPC_eq, h.pc_eq, hsingle]
  cases hlookup : j'.m_tbCache.lookup j.cpu.pc with
  | some found =>
    obtain ⟨insns, hinsns, hcode⟩ := h.generated _ _ hlookup
    obtain ⟨bb, hbb, rfl⟩ := insnsAt_eq_some.mp hinsns
    have hemplace : JitEngine.tryEmplace config.singleStep fuel j.cpu.pc j = some (.ok bb j) := by
      simp only [JitEngine.tryEmplace, hbb]
    rw [hemplace]
    have hcalled := h.call hinsns hcode (hfaithful _ ⟨hrunning, fuel, bb, j, hemplace, rfl⟩)
    exact .some (hcalled.mono (fun _ _ hk => hk.1) fun _ _ _ _ => id)
  | none =>
    rcases h.tryEmplace config.singleStep fuel j.cpu.pc with
      ⟨hleft, hright⟩ | ⟨e, k, k', hleft, hright⟩ |
      ⟨bb, bb', k, k', hleft, hright, hbb, hpc, hcpu, hk⟩
    · rw [hleft, hright]
      exact .none
    · rw [hleft, hright]
      exact .some (.raised rfl)
    · rw [hleft, hright]
      refine .some (hk.runBlock htranslates hadd hpc hbb ?_)
      rw [hcpu]
      exact hfaithful _ ⟨hrunning, fuel, bb, k, hleft, rfl⟩

/-- On any fuel, both engines run out of it, or return, or raise the same exception. -/
theorem step_parallel (htranslates : b.Translates translate)
    (hsingle : config'.singleStep = config.singleStep)
    (hadd : ∀ c c' n, R c c' → R (c + n) (c' + n))
    (hfaithful : ∀ j, Ran config (none : Option (Translator τ μ)) j₀ j →
      ∀ insns, Dispatches config j insns → Faithful b R insns j.cpu)
    (h : Shadows b R j₀ j') (fuel : ℕ) :
    Option.Rel (Parallel (Shadows b R) SameExn)
      (step config (none : Option (Translator τ μ)) fuel j₀)
      (step config' (some translate) fuel j') := by
  refine whileNot_parallel (I := Ran config none j₀) (fun j j' hj => hj.finished_eq.symm) ?_ ?_
    fuel .refl h
  · exact fun fuel j k hran hrunning hbody => hran.tail ⟨hrunning, fuel, hbody⟩
  · exact fun fuel j j' hran hj hrunning =>
      hj.round htranslates hsingle hadd hrunning (hfaithful j hran) fuel

/-- What is left of a translator is its counter. The engine that does not translate, and one
that does from any threshold on, run out of fuel, return or raise together, on a program
that may write to its own code; and in what they return, only the counts may differ. -/
theorem step_transparent (htranslates : b.Translates translate)
    (hsingle : config'.singleStep = config.singleStep) {init : CPUState μ}
    (hzero : init.getReg 0 = 0#32) (ts : τ) (ts' : τ')
    (hrespects : ∀ j, Ran config (none : Option (Translator τ μ))
      { cpu := init, translatorState := ts } j →
      ∀ insns, Dispatches config j insns → Along b.Respects insns j.cpu) (fuel : ℕ) :
    Option.Rel
      (Parallel (fun (j : JitState τ μ) (j' : JitState τ' μ) =>
        j'.cpu = j.cpu.withIcount j'.cpu.icount ∧
        b.counter.Agrees j.cpu.icount j'.cpu.icount ∧ insnsAt j' = insnsAt j) SameExn)
      (step config (none : Option (Translator τ μ)) fuel { cpu := init, translatorState := ts })
      (step config' (some translate) fuel { cpu := init, translatorState := ts' }) := by
  have hparallel := step_parallel (R := fun c c' => b.counter.Agrees c c') htranslates hsingle
    (fun _ _ n h => h.add n)
    (fun j hran insns hinsns => ⟨hrespects j hran insns hinsns, fun _ _ _ h => h.next _⟩)
    (.init b.counter.agrees_refl hzero ts ts') fuel
  exact Parallel.rel_mono hparallel (fun _ _ hj => ⟨hj.cpu_eq, hj.icount, hj.insnsAt_eq⟩)
    fun _ _ _ _ => id

end Parallel

/-- With a threshold of one, the loop of the guest that counts down is translated when it is
entered for the second time, and its code is called for the third one. -/
theorem step_transparent_countdownGuest :
    ∃ (j : JitState Unit (PlainMemory 0#32 4096)) (j' : JitState Unit (PlainMemory 0#32 4096)),
      step {} none 8 { cpu := countdownGuest, translatorState := () } = some (.ok () j) ∧
      step { execThreshold := 1#64 } (some (AsmJit.translator 0x7000#64 AsmJit.sampleMachine)) 8
        { cpu := countdownGuest, translatorState := () } = some (.ok () j') ∧
      j.cpu = countedDown ∧ j'.cpu = countedDown.withIcount j'.cpu.icount ∧
      Backend.asmjit.counter.Agrees 7#64 j'.cpu.icount ∧ insnsAt j' = insnsAt j := by
  have hcorrect : ∀ translate ∈ (none : Option (Translator Unit (PlainMemory 0#32 4096))),
      BlockCorrect translate := nofun
  obtain ⟨j, hstep, hcpu⟩ := exists_step_countdown 0#64 hcorrect ()
  have hparallel := step_transparent (AsmJit.translates_translator 0x7000#64 AsmJit.sampleMachine)
    (show ({ execThreshold := 1#64 } : Config).singleStep = ({} : Config).singleStep from rfl)
    (show countdownGuest.getReg 0 = 0#32 from rfl) () ()
    (fun _ _ insns _ => along_of_forall (fun _ _ => trivial) insns _) 8
  obtain ⟨j', hstep', hcpu', hagrees, hinsns⟩ := Parallel.ok_right hparallel hstep
  rw [hcpu] at hcpu' hagrees
  exact ⟨j, j', hstep, hstep', hcpu, hcpu', hagrees, hinsns⟩

end JitEngine

end Prot
