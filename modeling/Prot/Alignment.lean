import Prot.BlockCache

/-!
# Alignment of the program counter

`ExecEngine::step` checks that `pc` is a multiple of the word size before it fetches.
`JitEngine::step` does not, on any of its ways: it runs what is at `pc`, and raises
over a misaligned `pc` only by chance, if the words from there on are no block.

## Main results

* `Dispatchable.of_ran`: what the caches of a run hold
* `checksAlignment_iff`: when the next round is safe
-/

namespace Prot

open Isa Interpreter Stateful

namespace JitEngine

variable {μ τ : Type} [Memory μ] {config : Config} {m_translator : Option (Translator τ μ)}
  {pc : Addr} {bb : BBInfo} {j j₁ j' : JitState τ μ}

/-! ### Rounds that return -/

/-- A round of the loop in `JitEngine::step` that returns. -/
def Returns (config : Config) (m_translator : Option (Translator τ μ)) (j j' : JitState τ μ) :
    Prop :=
  j.cpu.finished = false ∧ ∃ fuel, stepBody config m_translator fuel j = some (.ok () j')

/-- The states that the loop goes through. -/
abbrev Ran (config : Config) (m_translator : Option (Translator τ μ)) :
    JitState τ μ → JitState τ μ → Prop :=
  Relation.ReflTransGen (Returns config m_translator)

/-- A block that was run without an exception was translated and called, or interpreted. -/
theorem runBlock_ok (h : (runBlock config m_translator pc bb).run j = .ok () j') :
    (∃ translate ∈ m_translator, ∃ code ts cpu,
      (translate bb).run j.translatorState = .ok (some code) ts ∧ code.run j.cpu = .ok () cpu ∧
        j' = insertTb pc code { j with cpu, translatorState := ts }) ∨
    ∃ cpu, (interpretInsns bb.insns).run j.cpu = .ok () cpu ∧
      j' = setBB pc { bb with num_exec := bb.num_exec + 1#64 } { j with cpu } := by
  rcases runBlock_cases config m_translator pc bb j with
    hrun | ⟨translate, hmem, ts, ⟨e, hrun⟩ | ⟨code, htranslate, hrun⟩⟩ <;> rw [hrun] at h
  · exact .inr (run_interpret_ok.mp h)
  · cases h
  · obtain ⟨cpu, hcpu, rfl⟩ := run_call_ok.mp h
    exact .inl ⟨translate, hmem, code, ts, cpu, htranslate, hcpu, rfl⟩

/-- What a round may find in the caches: blocks, and code that was generated from the
block of the same address. -/
structure Dispatchable (m_translator : Option (Translator τ μ)) (j : JitState τ μ) : Prop where
  block : ∀ pc insns, insnsAt j pc = some insns → IsBlock insns
  generated : ∀ pc code, j.m_tbCache.lookup pc = some code →
    ∃ translate ∈ m_translator, ∃ info ts ts', (translate info).run ts = .ok (some code) ts' ∧
      insnsAt j pc = some info.insns

omit [Memory μ] in
/-- An engine that was just built has nothing cached. -/
theorem dispatchable_init (cpu : CPUState μ) (ts : τ) :
    Dispatchable m_translator { cpu, translatorState := ts } where
  block _ _ h := by cases h
  generated pc code h := by
    rw [TbCache.lookup_empty] at h
    cases h

/-- A new block has no code yet, as there was no block for its address. -/
theorem Dispatchable.tryEmplace (h : Dispatchable m_translator j) {singleStep : Bool} {fuel : ℕ}
    (hemplace : tryEmplace singleStep fuel pc j = some (.ok bb j₁)) :
    Dispatchable m_translator j₁ ∧ insnsAt j₁ pc = some bb.insns := by
  rcases tryEmplace_ok hemplace with ⟨hbb, rfl⟩ | ⟨hbb, rfl, hblock⟩
  · exact ⟨h, insnsAt_eq_some.mpr ⟨bb, hbb, rfl⟩⟩
  · refine ⟨⟨fun a insns hinsns => ?_, fun a code hcode => ?_⟩, insnsAt_setBB_self⟩
    · by_cases ha : a = pc
      · rw [ha, insnsAt_setBB_self] at hinsns
        cases hinsns
        exact hblock.isBlock
      · exact h.block a insns (insnsAt_setBB_of_ne ha ▸ hinsns)
    · obtain ⟨translate, hmem, info, ts, ts', htranslate, hinsns⟩ := h.generated a code hcode
      refine ⟨translate, hmem, info, ts, ts', htranslate, ?_⟩
      rw [insnsAt_setBB_of_ne, hinsns]
      rintro rfl
      rw [insnsAt, hbb] at hinsns
      cases hinsns

/-- Code is inserted for the block that it was generated from. -/
theorem Dispatchable.runBlock (h : Dispatchable m_translator j) (hbb : insnsAt j pc = some bb.insns)
    (hrun : (runBlock config m_translator pc bb).run j = .ok () j') :
    Dispatchable m_translator j' := by
  have hsame : insnsAt (finalState ((JitEngine.runBlock config m_translator pc bb).run j)) =
      insnsAt j := insnsAt_runBlock hbb
  rw [hrun, finalState_ok] at hsame
  refine ⟨fun a insns hinsns => h.block a insns (hsame ▸ hinsns), fun a code hcode => ?_⟩
  rw [hsame]
  rcases runBlock_ok hrun with ⟨translate, hmem, code', ts, cpu, htranslate, -, rfl⟩ |
    ⟨cpu, -, rfl⟩
  · rcases TbCache.lookup_insert hcode with ⟨rfl, rfl⟩ | hold
    · exact ⟨translate, hmem, bb, _, ts, htranslate, hbb⟩
    · exact h.generated a code hold
  · exact h.generated a code hcode

/-- What a round may find stays so over a round that returns. -/
theorem Dispatchable.returns (h : Dispatchable m_translator j)
    (hreturns : Returns config m_translator j j') : Dispatchable m_translator j' := by
  obtain ⟨-, fuel, hbody⟩ := hreturns
  rcases stepBody_cases hbody with ⟨found, -, hrun⟩ |
    ⟨-, ⟨bb, j₁, hemplace, hrun⟩ | ⟨e, j₁, -, hraise⟩⟩
  · obtain ⟨cpu, -, rfl⟩ := exists_of_run_onCpu_eq_ok hrun.symm
    exact ⟨h.block, h.generated⟩
  · obtain ⟨h₁, hbb⟩ := h.tryEmplace hemplace
    exact h₁.runBlock hbb hrun.symm
  · cases hraise

/-- Over a run, blocks that were collected whole and code that was generated from them. -/
theorem Dispatchable.of_ran (cpu : CPUState μ) (ts : τ)
    (h : Ran config m_translator { cpu, translatorState := ts } j) :
    Dispatchable m_translator j := by
  induction h with
  | refl => exact dispatchable_init cpu ts
  | tail _ hreturns ih => exact ih.returns hreturns

/-! ### Misaligned rounds -/

/-- The instructions of a block that are translated and called, or interpreted. -/
def started (config : Config) (m_translator : Option (Translator τ μ)) (bb : BBInfo) (ts : τ) :
    Option (List Instruction) :=
  match m_translator with
  | some translate =>
    if bb.num_exec ≥ config.execThreshold then
      match (translate bb).run ts with
      | .ok (some _) _ => some bb.insns
      | _ => none
    else some bb.insns
  | none => some bb.insns

/-- The instructions that the round from `j` begins to execute, the first of which is the word at
`pc`. Code that is found was generated from the block of the same address. -/
def dispatched (config : Config) (m_translator : Option (Translator τ μ)) (fuel : ℕ)
    (j : JitState τ μ) : Option (List Instruction) :=
  match m_translator.bind fun _ => j.m_tbCache.lookup j.cpu.pc with
  | some _ => insnsAt j j.cpu.pc
  | none =>
    match tryEmplace config.singleStep fuel j.cpu.pc j with
    | some (.ok bb j) => started config m_translator bb j.translatorState
    | _ => none

/-- The round executes no instruction from a misaligned address, and raises instead. -/
structure ChecksAlignment (config : Config) (m_translator : Option (Translator τ μ))
    (j : JitState τ μ) : Prop where
  executes : ∀ fuel insns, dispatched config m_translator fuel j = some insns →
    ∀ k < insns.length, (j.cpu.pc + BitVec.ofNat 32 (4 * k)) % kWordSize = 0#32
  raises : j.cpu.pc % kWordSize ≠ 0#32 →
    ∃ fuel e j', stepBody config m_translator fuel j = some (.error e j') ∧ j'.cpu = j.cpu

/-- A correct translator starts every block that was collected. -/
theorem started_eq_some (hcorrect : ∀ translate ∈ m_translator, BlockCorrect translate)
    (hblock : IsBlock bb.insns) (ts : τ) :
    started config m_translator bb ts = some bb.insns := by
  cases m_translator with
  | none => rfl
  | some translate =>
    obtain ⟨code, ts', htranslate, -⟩ := hcorrect translate rfl bb ts hblock
    simp only [started, htranslate, ite_self]

/-- A round that does not raise while it collects a block starts one. -/
theorem Dispatchable.dispatched_eq_some (h : Dispatchable m_translator j)
    (hcorrect : ∀ translate ∈ m_translator, BlockCorrect translate) {fuel : ℕ}
    {r : EStateM.Result Exn (JitState τ μ) Unit}
    (hbody : stepBody config m_translator fuel j = some r)
    (hfails : ¬ CollectionFails config m_translator j) :
    ∃ insns, dispatched config m_translator fuel j = some insns ∧ IsBlock insns := by
  rcases stepBody_cases hbody with ⟨found, hfound, -⟩ |
    ⟨hlookup, ⟨bb, j₁, hemplace, -⟩ | ⟨e, j₁, hemplace, -⟩⟩
  · obtain ⟨_, _, hcode⟩ := Option.bind_eq_some_iff.mp hfound
    obtain ⟨-, -, info, -, -, -, hinsns⟩ := h.generated _ _ hcode
    exact ⟨info.insns, by simp only [dispatched, hfound, hinsns], h.block _ _ hinsns⟩
  · obtain ⟨h₁, hbb⟩ := h.tryEmplace hemplace
    have hblock := h₁.block _ _ hbb
    refine ⟨bb.insns, ?_, hblock⟩
    simp only [dispatched, hlookup, hemplace, started_eq_some hcorrect hblock]
  · obtain ⟨hbb, hfaults, -⟩ := tryEmplace_error hemplace
    exact absurd ⟨hlookup, by rw [insnsAt, hbb, Option.map_none], e, hfaults⟩ hfails

/-- If no block can be collected, nothing is executed. -/
theorem CollectionFails.checksAlignment (h : CollectionFails config m_translator j) :
    ChecksAlignment config m_translator j := by
  obtain ⟨hlookup, hcached, e, hfaults⟩ := h
  have hbb : j.m_cacheBB j.cpu.pc = none := Option.map_eq_none_iff.mp hcached
  constructor
  case executes =>
    intro fuel insns hinsns
    simp only [dispatched, hlookup] at hinsns
    split at hinsns
    · next bb j₁ hemplace =>
      rcases tryEmplace_ok hemplace with ⟨hold, -⟩ | ⟨-, -, hblock⟩
      · rw [hbb] at hold
        cases hold
      · exact absurd hblock hfaults.not_isBlockAt
    · cases hinsns
  case raises =>
    intro _
    obtain ⟨fuel, insns, hcollect⟩ := hfaults.exists_collectBlock_eq []
    refine ⟨fuel, e, setBB j.cpu.pc { insns } j, ?_, rfl⟩
    simp only [stepBody, tryEmplace, CPUState.getPC_eq, hlookup, hbb, Memory.read_word, hcollect]

/-- The words of a block that begins at an aligned address are aligned. -/
theorem add_mod_wordSize {a : Addr} (h : a % kWordSize = 0#32) (k : ℕ) :
    (a + BitVec.ofNat 32 (4 * k)) % kWordSize = 0#32 := by
  have ha := congrArg BitVec.toNat h
  refine BitVec.eq_of_toNat_eq ?_
  rw [BitVec.toNat_umod] at ha ⊢
  rw [BitVec.toNat_add, BitVec.toNat_ofNat]
  change _ % 4 = 0 at ha
  change _ % 4 = 0
  omega

/-- Wherever a run stands, the next round is safe if `pc` is aligned, or if there is no
block at `pc` to be executed, and otherwise it is not. -/
theorem checksAlignment_iff (hcorrect : ∀ translate ∈ m_translator, BlockCorrect translate)
    (cpu : CPUState μ) (ts : τ) (hran : Ran config m_translator { cpu, translatorState := ts } j) :
    ChecksAlignment config m_translator j ↔
      j.cpu.pc % kWordSize = 0#32 ∨ CollectionFails config m_translator j := by
  constructor
  · intro h
    by_contra hnot
    rw [not_or] at hnot
    obtain ⟨hmisaligned, hfails⟩ := hnot
    obtain ⟨fuel, e, j', hbody, -⟩ := h.raises hmisaligned
    obtain ⟨insns, hdispatched, hblock⟩ :=
      (Dispatchable.of_ran cpu ts hran).dispatched_eq_some hcorrect hbody hfails
    have hpos : 0 < insns.length := by
      obtain ⟨_, _, _, hat⟩ := hblock.isBlockAt
      exact List.length_pos_of_ne_nil hat.ne_nil
    have hfirst := h.executes fuel insns hdispatched 0 hpos
    rw [Nat.mul_zero, BitVec.add_zero] at hfirst
    exact hmisaligned hfirst
  · rintro (haligned | hfails)
    · exact ⟨fun _ _ _ k _ => add_mod_wordSize haligned k, fun h => absurd haligned h⟩
    · exact hfails.checksAlignment

/-- A page with `jalr x0, 6(x0)` at address zero, and zeros after it. -/
def strayGuest : CPUState (PlainMemory 0#32 4096) where
  memory := ⟨fun offset => (0x00600067#32).extractLsb' (8 * offset) 8⟩

/-- After the jump, to an address that is no multiple of four, there is nothing to execute. -/
theorem checksAlignment_strayGuest :
    ∃ j : JitState Unit (PlainMemory 0#32 4096), j.cpu.pc = 6#32 ∧
      ChecksAlignment {} (some interpTranslator) j := by
  have hreturns : Returns {} (some interpTranslator)
      ({ cpu := strayGuest, translatorState := () } : JitState Unit (PlainMemory 0#32 4096)) _ :=
    ⟨rfl, 1, rfl⟩
  refine ⟨_, rfl, (checksAlignment_iff (by rintro _ ⟨rfl⟩; exact blockCorrect_interpTranslator)
    strayGuest () (.single hreturns)).mpr (.inr ⟨rfl, rfl, _, .decode rfl rfl⟩)⟩

/-- A page with `jalr x0, 6(x0)` at address zero and `ecall` at address six. -/
def jumpGuest : CPUState (PlainMemory 0#32 4096) :=
  ({ memory := ⟨fun offset => (0x0073000000600067#64).extractLsb' (8 * offset) 8⟩ } :
    CPUState _).setReg 17 93#32

/-- After the jump, the engine executes the call. -/
theorem not_checksAlignment_jumpGuest :
    ∃ j : JitState Unit (PlainMemory 0#32 4096),
      Ran {} none { cpu := jumpGuest, translatorState := () } j ∧ j.cpu.pc = 6#32 ∧
        ¬ ChecksAlignment {} none j := by
  refine ⟨_, .single ⟨rfl, 1, rfl⟩, rfl, fun h => ?_⟩
  exact absurd (h.executes 1 _ rfl 0 Nat.one_pos) (by decide)

end JitEngine

end Prot
