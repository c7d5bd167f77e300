import Prot.JitEngine

/-!
# The block cache, whatever happens

`JitEngine::step` makes the entry of a block before it collects the block, and leaves
the entry behind if the collection raises. The entry is a prefix of the block then, or
empty, and the next call takes it for the block.

This file follows the cache over the rounds of an engine that may raise and be called
again. The code of the guest is not modified; translators and generated code are
arbitrary.

## Main results

* `stepBody_cases`: what one round does to the engine
* `integral_of_reached`: cached blocks are complete as long as every block that was
  begun could be collected, and only as long
-/

namespace Prot

open Isa Interpreter Stateful

/-! ### Complete blocks -/

/-- All of the instructions from address `a` to the first terminator, and no more. -/
structure CompleteBlock (read : Addr → Except Exn Word) (a : Addr) (insns : List Instruction) :
    Prop where
  ne_nil : insns ≠ []
  decoded : ∀ k (hk : k < insns.length), ∃ bytes, read (a + BitVec.ofNat 32 (4 * k)) = .ok bytes ∧
    decode bytes = some insns[k]
  terminated : ∀ k (hk : k < insns.length),
    isTerminator insns[k].opcode = .ok (decide (k + 1 = insns.length))

section CompleteBlock

variable {read read' : Addr → Except Exn Word} {a : Addr} {insns : List Instruction}

/-- A complete block is what the loop collects. -/
theorem CompleteBlock.isBlockAt (h : CompleteBlock read a insns) :
    IsBlockAt read false a insns := by
  induction insns generalizing a with
  | nil => exact absurd rfl h.ne_nil
  | cons inst insns ih =>
    obtain ⟨bytes, hread, hdecode⟩ := h.decoded 0 (Nat.succ_pos _)
    have hterm := h.terminated 0 (Nat.succ_pos _)
    rw [Nat.mul_zero, BitVec.add_zero] at hread
    rw [List.getElem_cons_zero] at hdecode hterm
    cases insns with
    | nil => exact .last hread hdecode (.inr hterm)
    | cons inst' insns =>
      refine .cons hread hdecode rfl (by simpa using hterm) (ih ⟨List.cons_ne_nil _ _, ?_, ?_⟩)
      · intro k hk
        have hnext := h.decoded (k + 1) (Nat.succ_lt_succ hk)
        rwa [← IsBlockAt.add_wordSize_add, List.getElem_cons_succ] at hnext
      · intro k hk
        have hnext := h.terminated (k + 1) (Nat.succ_lt_succ hk)
        simpa using hnext

/-- What the loop collects, not in single steps, is complete. -/
theorem IsBlockAt.completeBlock (h : IsBlockAt read false a insns) :
    CompleteBlock read a insns where
  ne_nil := h.ne_nil
  decoded k hk := by
    obtain ⟨bytes, hread, hdecode, -⟩ := h.getElem_eq hk
    exact ⟨bytes, hread, hdecode⟩
  terminated k hk := by
    obtain ⟨-, -, -, hterm⟩ := h.getElem_eq hk
    split at hterm
    · next hinner =>
      rw [hterm, decide_eq_false (by omega)]
    · next hlast =>
      rw [hterm.resolve_left Bool.false_ne_true, decide_eq_true (by omega)]

/-- A block whose words keep their values stays complete. -/
theorem CompleteBlock.congr (h : CompleteBlock read a insns)
    (hsame : ∀ k < insns.length, read' (a + BitVec.ofNat 32 (4 * k)) =
      read (a + BitVec.ofNat 32 (4 * k))) : CompleteBlock read' a insns where
  ne_nil := h.ne_nil
  decoded k hk := by
    rw [hsame k hk]
    exact h.decoded k hk
  terminated := h.terminated

end CompleteBlock

namespace JitEngine

variable {μ τ : Type}

/-! ### The cached instructions -/

section Cached

variable {pc a : Addr} {bb : BBInfo} {j : JitState τ μ}

/-- The instructions that are cached for an address. -/
def insnsAt (j : JitState τ μ) (pc : Addr) : Option (List Instruction) :=
  (j.m_cacheBB pc).map BBInfo.insns

/-- There are instructions for `pc` if there is an entry. -/
theorem insnsAt_eq_some {insns : List Instruction} :
    insnsAt j pc = some insns ↔ ∃ bb, j.m_cacheBB pc = some bb ∧ bb.insns = insns :=
  Option.map_eq_some_iff

@[simp] theorem insnsAt_setBB_self : insnsAt (setBB pc bb j) pc = some bb.insns := by
  simp [insnsAt, setBB]

theorem insnsAt_setBB_of_ne (h : a ≠ pc) : insnsAt (setBB pc bb j) a = insnsAt j a := by
  simp [insnsAt, setBB, h]

/-- Counting an execution does not change the instructions. -/
theorem insnsAt_setBB_eq (h : insnsAt j pc = some bb.insns) :
    insnsAt (setBB pc bb j) = insnsAt j := by
  funext a
  by_cases ha : a = pc
  · rw [ha, insnsAt_setBB_self, h]
  · exact insnsAt_setBB_of_ne ha

/-- Running on the CPU leaves the blocks alone. -/
theorem insnsAt_onCpu (x : EStateM Exn (CPUState μ) Unit) :
    insnsAt (finalState ((onCpu x).run j)) = insnsAt j := by
  cases hx : x.run j.cpu with
  | ok _ cpu =>
    rw [run_onCpu_ok hx]
    rfl
  | error e cpu =>
    rw [run_onCpu_error hx]
    rfl

end Cached

variable [Memory μ] {config : Config} {m_translator : Option (Translator τ μ)}
  {pc : Addr} {bb : BBInfo} {j j₁ j' : JitState τ μ}

/-! ### One round -/

/-- A round that returns is followed by the rest of the loop. -/
theorem step_of_ok {fuel : ℕ} (hrunning : j.cpu.finished = false)
    (hbody : stepBody config m_translator fuel j = some (.ok () j')) :
    step config m_translator (fuel + 1) j = step config m_translator fuel j' :=
  Loop.whileNot_of_ok hrunning hbody

/-- A round runs generated code, runs a block, or raises while it collects one. -/
theorem stepBody_cases {fuel : ℕ} {r : EStateM.Result Exn (JitState τ μ) Unit}
    (h : stepBody config m_translator fuel j = some r) :
    (∃ found, m_translator.bind (fun _ => j.m_tbCache.lookup j.cpu.pc) = some found ∧
      r = (onCpu found).run j) ∨
    (m_translator.bind (fun _ => j.m_tbCache.lookup j.cpu.pc) = none ∧
      ((∃ bb j₁, tryEmplace config.singleStep fuel j.cpu.pc j = some (.ok bb j₁) ∧
        r = (runBlock config m_translator j.cpu.pc bb).run j₁) ∨
      ∃ e j₁, tryEmplace config.singleStep fuel j.cpu.pc j = some (.error e j₁) ∧
        r = .error e j₁)) := by
  rw [stepBody, CPUState.getPC_eq] at h
  cases hlookup : m_translator.bind fun _ => j.m_tbCache.lookup j.cpu.pc with
  | some found =>
    simp only [hlookup] at h
    exact .inl ⟨found, rfl, (Option.some.inj h).symm⟩
  | none =>
    simp only [hlookup] at h
    refine .inr ⟨rfl, ?_⟩
    split at h
    · cases h
    · next e j₁ hcollect => exact .inr ⟨e, j₁, hcollect, (Option.some.inj h).symm⟩
    · next bb j₁ hcollect => exact .inl ⟨bb, j₁, hcollect, (Option.some.inj h).symm⟩

/-- The block was there, or it is the block in memory and there now. -/
theorem tryEmplace_ok {singleStep : Bool} {fuel : ℕ}
    (h : tryEmplace singleStep fuel pc j = some (.ok bb j₁)) :
    (j.m_cacheBB pc = some bb ∧ j₁ = j) ∨ (j.m_cacheBB pc = none ∧ j₁ = setBB pc bb j ∧
      IsBlockAt (Memory.read32 j.cpu.memory) singleStep pc bb.insns) := by
  rw [tryEmplace] at h
  split at h
  · next bb' hbb =>
    cases h
    exact .inl ⟨hbb, rfl⟩
  · next hbb =>
    split at h
    · cases h
    · next insns hcollect =>
      cases h
      obtain ⟨new, rfl, hblock⟩ := isBlockAt_of_collectBlock hcollect
      exact .inr ⟨hbb, rfl, hblock⟩
    · cases h

/-- An entry was made, for a block that could not be collected. -/
theorem tryEmplace_error {singleStep : Bool} {fuel : ℕ} {e : Exn}
    (h : tryEmplace singleStep fuel pc j = some (.error e j₁)) :
    j.m_cacheBB pc = none ∧ FaultsAt (Memory.read32 j.cpu.memory) singleStep pc e ∧
      ∃ insns, j₁ = setBB pc { insns } j := by
  rw [tryEmplace] at h
  split at h
  · cases h
  · next hbb =>
    split at h
    · cases h
    · cases h
    · next insns e' hcollect =>
      cases h
      exact ⟨hbb, faultsAt_of_collectBlock hcollect, insns, rfl⟩

/-- A block is interpreted, or the translator raises or gives up, or its code is called. -/
theorem runBlock_cases (config : Config) (m_translator : Option (Translator τ μ)) (pc : Addr)
    (bb : BBInfo) (j : JitState τ μ) :
    (runBlock config m_translator pc bb).run j = (interpret pc bb).run j ∨
    ∃ translate ∈ m_translator, ∃ ts,
      (∃ e, (runBlock config m_translator pc bb).run j =
        .error e { j with translatorState := ts }) ∨
      ∃ code, (translate bb).run j.translatorState = .ok (some code) ts ∧
        (runBlock config m_translator pc bb).run j =
          (onCpu code >>= fun _ => modify (insertTb pc code)).run
            { j with translatorState := ts } := by
  cases m_translator with
  | none => exact .inl rfl
  | some translate =>
    by_cases hhot : bb.num_exec ≥ config.execThreshold
    · simp only [runBlock, if_pos hhot]
      refine .inr ⟨translate, rfl, ?_⟩
      cases htranslate : (translate bb).run j.translatorState with
      | error e ts => exact ⟨ts, .inl ⟨e, run_seq_error (run_onTranslator_error htranslate)⟩⟩
      | ok code ts =>
        have hcall := run_onTranslator_ok htranslate
        cases code with
        | none => exact ⟨ts, .inl ⟨_, run_seq_ok hcall⟩⟩
        | some code => exact ⟨ts, .inr ⟨code, rfl, run_seq_ok hcall⟩⟩
    · left
      simp only [runBlock, if_neg hhot]

/-- A block that is interpreted to its end is counted. -/
theorem run_interpret_ok : (interpret pc bb).run j = .ok () j' ↔
    ∃ cpu, (interpretInsns bb.insns).run j.cpu = .ok () cpu ∧
      j' = setBB pc { bb with num_exec := bb.num_exec + 1#64 } { j with cpu } := by
  constructor
  · intro h
    obtain ⟨_, j₁, hinterp, hcount⟩ := run_seq_eq_ok.mp h
    obtain ⟨cpu, hcpu, rfl⟩ := exists_of_run_onCpu_eq_ok hinterp
    cases hcount
    exact ⟨cpu, hcpu, rfl⟩
  · rintro ⟨cpu, hcpu, rfl⟩
    rw [interpret, run_seq_ok (run_onCpu_ok hcpu), EStateM.run_modify]

omit [Memory μ] in
/-- Code that was generated is inserted into the cache when it has returned. -/
theorem run_call_ok {code : JitFunction μ} :
    (onCpu code >>= fun _ => modify (insertTb pc code) : EStateM Exn (JitState τ μ) Unit).run j =
        .ok () j' ↔
      ∃ cpu, code.run j.cpu = .ok () cpu ∧ j' = insertTb pc code { j with cpu } := by
  constructor
  · intro h
    obtain ⟨_, j₁, hcall, hinsert⟩ := run_seq_eq_ok.mp h
    obtain ⟨cpu, hcpu, rfl⟩ := exists_of_run_onCpu_eq_ok hcall
    cases hinsert
    exact ⟨cpu, hcpu, rfl⟩
  · rintro ⟨cpu, hcpu, rfl⟩
    exact run_seq_ok (run_onCpu_ok hcpu)

/-- Interpreting a block changes its count, and no instructions. -/
theorem insnsAt_interpret (h : insnsAt j pc = some bb.insns) :
    insnsAt (finalState ((interpret pc bb).run j)) = insnsAt j := by
  refine inv_finalState_bind (fun j' : JitState τ μ => insnsAt j' = insnsAt j)
    (insnsAt_onCpu (interpretInsns bb.insns)) fun _ j' hj' => ?_
  rw [EStateM.run_modify, finalState_ok, insnsAt_setBB_eq (by rwa [hj']), hj']

/-- Running a block changes no instructions: generated code touches the CPU only, and its entry is
in the other cache. -/
theorem insnsAt_runBlock (h : insnsAt j pc = some bb.insns) :
    insnsAt (finalState ((runBlock config m_translator pc bb).run j)) = insnsAt j := by
  rcases runBlock_cases config m_translator pc bb j with
    hrun | ⟨translate, -, ts, ⟨e, hrun⟩ | ⟨code, -, hrun⟩⟩ <;> rw [hrun]
  · exact insnsAt_interpret h
  · rfl
  · exact inv_finalState_bind (fun j' : JitState τ μ => insnsAt j' = insnsAt j) (insnsAt_onCpu code)
      fun _ _ hj' => hj'

/-! ### The cache over a run -/

/-- One round of the loop in `JitEngine::step`, whether it returns or raises. -/
def Round (config : Config) (m_translator : Option (Translator τ μ)) (j j' : JitState τ μ) : Prop :=
  j.cpu.finished = false ∧ ∃ fuel r, stepBody config m_translator fuel j = some r ∧
    j' = finalState r

/-- Every cached block is the complete block that memory holds there. -/
def Integral (j : JitState τ μ) : Prop :=
  ∀ pc insns, insnsAt j pc = some insns →
    CompleteBlock (Memory.read32 j.cpu.memory) pc insns

/-- The words of the blocks that are cached in the end have not changed. -/
def KeepsCode (j j' : JitState τ μ) : Prop :=
  ∀ pc insns, insnsAt j' pc = some insns → ∀ k < insns.length,
    Memory.read32 j'.cpu.memory (pc + BitVec.ofNat 32 (4 * k)) =
      Memory.read32 j.cpu.memory (pc + BitVec.ofNat 32 (4 * k))

/-- The round finds code or a block in a cache, or a block in memory. -/
def Collectable (config : Config) (m_translator : Option (Translator τ μ)) (j : JitState τ μ) :
    Prop :=
  m_translator.bind (fun _ => j.m_tbCache.lookup j.cpu.pc) ≠ none ∨
    insnsAt j j.cpu.pc ≠ none ∨
      ∃ insns, IsBlockAt (Memory.read32 j.cpu.memory) config.singleStep j.cpu.pc insns

/-- The round finds nothing in a cache, and meets a word that it cannot read or decode. -/
def CollectionFails (config : Config) (m_translator : Option (Translator τ μ))
    (j : JitState τ μ) : Prop :=
  m_translator.bind (fun _ => j.m_tbCache.lookup j.cpu.pc) = none ∧
    insnsAt j j.cpu.pc = none ∧
      ∃ e, FaultsAt (Memory.read32 j.cpu.memory) config.singleStep j.cpu.pc e

/-- Calling `step` again, from the state that a round left behind, raises. -/
def RaisesAgain (config : Config) (m_translator : Option (Translator τ μ)) (j' : JitState τ μ) :
    Prop :=
  ∃ fuel e j₂, step config m_translator fuel j' = some (.error e j₂)

/-- The states of an engine that is called, again and again, on the same guest: rounds of
the loop, and callers that hand over another CPU state. No code is modified, and every
block that is begun can be collected. -/
inductive Reached (config : Config) (m_translator : Option (Translator τ μ))
    (j₀ : JitState τ μ) : JitState τ μ → Prop
  | refl : Reached config m_translator j₀ j₀
  | round {j j' : JitState τ μ} (hreached : Reached config m_translator j₀ j)
      (hround : Round config m_translator j j') (hkeeps : KeepsCode j j')
      (hcollect : Collectable config m_translator j) : Reached config m_translator j₀ j'
  | caller {j : JitState τ μ} (hreached : Reached config m_translator j₀ j) (cpu : CPUState μ)
      (hkeeps : KeepsCode j { j with cpu }) : Reached config m_translator j₀ { j with cpu }

/-- A block that can be collected has no fault. -/
theorem Collectable.not_collectionFails (h : Collectable config m_translator j) :
    ¬ CollectionFails config m_translator j := by
  rintro ⟨hlookup, hbb, e, hfaults⟩
  rcases h with hhit | hcached | ⟨insns, hblock⟩
  · exact hhit hlookup
  · exact hcached hbb
  · exact hfaults.not_isBlockAt hblock

/-- Blocks that were complete are, as long as their words are not changed. -/
theorem Integral.of_keepsCode (h : Integral j) (hkeeps : KeepsCode j j')
    (hsame : insnsAt j' = insnsAt j) : Integral j' := fun pc insns hinsns =>
  (h pc insns (hsame ▸ hinsns)).congr (hkeeps pc insns hinsns)

/-- The round keeps the cache intact if its block could be collected. -/
theorem Integral.round (hsingle : config.singleStep = false) (h : Integral j)
    (hround : Round config m_translator j j') (hkeeps : KeepsCode j j')
    (hcollect : Collectable config m_translator j) : Integral j' := by
  obtain ⟨-, fuel, r, hbody, rfl⟩ := hround
  rcases stepBody_cases hbody with ⟨found, -, rfl⟩ |
    ⟨hlookup, ⟨bb, j₁, hemplace, rfl⟩ | ⟨e, j₁, hemplace, rfl⟩⟩
  · exact h.of_keepsCode hkeeps (insnsAt_onCpu found)
  · rcases tryEmplace_ok hemplace with ⟨hbb, rfl⟩ | ⟨hbb, rfl, hblock⟩
    · exact h.of_keepsCode hkeeps (insnsAt_runBlock (insnsAt_eq_some.mpr ⟨bb, hbb, rfl⟩))
    · -- the new entry holds the block that was in memory when the round began
      have hsame : insnsAt (finalState ((runBlock config m_translator j.cpu.pc bb).run
          (setBB j.cpu.pc bb j))) = insnsAt (setBB j.cpu.pc bb j) :=
        insnsAt_runBlock insnsAt_setBB_self
      rw [hsingle] at hblock
      intro a insns hinsns
      refine CompleteBlock.congr ?_ (hkeeps a insns hinsns)
      rw [hsame] at hinsns
      by_cases ha : a = j.cpu.pc
      · rw [ha, insnsAt_setBB_self] at hinsns
        cases hinsns
        exact ha ▸ hblock.completeBlock
      · exact h a insns (insnsAt_setBB_of_ne ha ▸ hinsns)
  · obtain ⟨hbb, hfaults, -⟩ := tryEmplace_error hemplace
    refine absurd ⟨hlookup, ?_, e, hfaults⟩ hcollect.not_collectionFails
    rw [insnsAt, hbb, Option.map_none]

/-- A block that could not be collected is left in the cache all the same. -/
theorem not_integral_of_round (hsingle : config.singleStep = false)
    (hround : Round config m_translator j j') (hcollect : ¬ Collectable config m_translator j) :
    ¬ Integral j' := by
  obtain ⟨-, fuel, r, hbody, rfl⟩ := hround
  simp only [Collectable, not_or, not_ne_iff] at hcollect
  obtain ⟨hlookup, hcached, hblock⟩ := hcollect
  rcases stepBody_cases hbody with ⟨found, hfound, -⟩ |
    ⟨-, ⟨bb, j₁, hemplace, -⟩ | ⟨e, j₁, hemplace, rfl⟩⟩
  · rw [hlookup] at hfound
    cases hfound
  · rcases tryEmplace_ok hemplace with ⟨hbb, -⟩ | ⟨-, -, hblock'⟩
    · rw [insnsAt, hbb] at hcached
      cases hcached
    · exact absurd ⟨_, hblock'⟩ hblock
  · obtain ⟨-, -, insns, rfl⟩ := tryEmplace_error hemplace
    rw [hsingle] at hblock
    exact fun h => hblock ⟨insns, (h j.cpu.pc insns insnsAt_setBB_self).isBlockAt⟩

/-- In whatever state the engine is reached, its cache is intact; and the next round
keeps it so, and can be repeated if it raised over a word that it could not read or
decode, exactly if it finds its code or its block. -/
theorem integral_of_reached (hsingle : config.singleStep = false) (cpu : CPUState μ) (ts : τ)
    (hreached : Reached config m_translator { cpu, translatorState := ts } j) :
    Integral j ∧ ∀ j', Round config m_translator j j' → KeepsCode j j' →
      (Integral j' ∧ (CollectionFails config m_translator j → RaisesAgain config m_translator j') ↔
        Collectable config m_translator j) := by
  have hintegral : Integral j := by
    induction hreached with
    | refl => exact fun pc insns h => by cases h
    | round _ hround hkeeps hcollect ih => exact ih.round hsingle hround hkeeps hcollect
    | caller _ cpu hkeeps ih => exact ih.of_keepsCode hkeeps rfl
  refine ⟨hintegral, fun j' hround hkeeps => ⟨fun h => ?_, fun hcollect => ?_⟩⟩
  · by_contra hcollect
    exact not_integral_of_round hsingle hround hcollect h.1
  · exact ⟨hintegral.round hsingle hround hkeeps hcollect,
      fun hfails => absurd hfails hcollect.not_collectionFails⟩

/-- The engine at the loop of the guest that counts down, after some rounds. -/
theorem exists_reached_countdown {k : ℕ} (hk : k ≤ 3) :
    ∃ j : JitState Unit (PlainMemory 0#32 4096),
      Reached {} none { cpu := countdownGuest, translatorState := () } j ∧
      Simulates countdownGuest false (countdownTrace (2 * k)) j := by
  induction k with
  | zero => exact ⟨_, .refl, simulates_init rfl false ()⟩
  | succ k ih =>
    obtain ⟨j, hreached, hsim⟩ := ih (by omega)
    obtain ⟨j', hbody, hsim'⟩ := @exists_round_countdown Unit 0#64 none nofun j k hk hsim
    obtain ⟨hpc, hrunning⟩ := atLoop_countdown hk
    rw [← hsim.cpu_eq] at hpc hrunning
    have hmemory : j'.cpu.memory = j.cpu.memory := by
      rw [hsim.cpu_eq, hsim'.cpu_eq, memory_countdown (by omega), memory_countdown (by omega)]
    have hblock : IsBlockAt (Memory.read32 j.cpu.memory) false j.cpu.pc countdownLoop := by
      rw [hpc, hsim.cpu_eq]
      exact stableBlock_countdownLoop _ hsim.reached
    exact ⟨j', hreached.round ⟨hrunning, 2, _, hbody, rfl⟩ (fun _ _ _ _ _ => by rw [hmemory])
      (.inr (.inr ⟨_, hblock⟩)), hsim'⟩

/-- The guest has left its loop, after it went round three times. -/
theorem integral_countdownGuest :
    ∃ j : JitState Unit (PlainMemory 0#32 4096), j.cpu = countdown 0#32 8#32 6#64 ∧
      Integral j ∧ ∀ j', Round {} none j j' → KeepsCode j j' →
        (Integral j' ∧ (CollectionFails {} none j → RaisesAgain {} none j') ↔
          Collectable {} none j) := by
  obtain ⟨j, hreached, hsim⟩ := exists_reached_countdown (Nat.le_refl 3)
  exact ⟨j, hsim.cpu_eq, integral_of_reached rfl countdownGuest () hreached⟩

/-! ### A block that begins with a word that is no instruction -/

/-- An empty block is interpreted over and over. -/
theorem step_eq_none_of_empty (h : insnsAt j j.cpu.pc = some [])
    (hrunning : j.cpu.finished = false) (fuel : ℕ) :
    step config (none : Option (Translator τ μ)) fuel j = none := by
  induction fuel generalizing j with
  | zero => rfl
  | succ fuel ih =>
    obtain ⟨⟨insns, n⟩, hbb, rfl⟩ := insnsAt_eq_some.mp h
    have hround : stepBody config (none : Option (Translator τ μ)) fuel j =
        some (.ok () (setBB j.cpu.pc { num_exec := n + 1#64 } j)) := by
      simp only [stepBody, tryEmplace, CPUState.getPC_eq, hbb]
      rfl
    rw [step_of_ok hrunning hround]
    exact ih insnsAt_setBB_self hrunning

/-- A page of zeros, which are no instruction. -/
def blankEngine : JitState Unit (PlainMemory 0#32 4096) :=
  { cpu := { memory := {} }, translatorState := () }

/-- The first call raises and leaves an empty block, on which the second call hangs. -/
theorem not_integral_blankEngine :
    ∃ j' : JitState Unit (PlainMemory 0#32 4096), Round {} none blankEngine j' ∧
      KeepsCode blankEngine j' ∧ CollectionFails {} none blankEngine ∧ ¬ Integral j' ∧
      ¬ RaisesAgain {} none j' := by
  refine ⟨setBB 0#32 {} blankEngine, ⟨rfl, 1, .error (.cannotDecode 0#32 0#32) _, rfl, rfl⟩,
    fun _ _ _ _ _ => rfl, ⟨rfl, rfl, _, .decode rfl decode_zero⟩, fun h => ?_, ?_⟩
  · exact (h 0#32 [] insnsAt_setBB_self).ne_nil rfl
  · rintro ⟨fuel, e, j₂, hstep⟩
    rw [step_eq_none_of_empty insnsAt_setBB_self rfl] at hstep
    cases hstep

end JitEngine

end Prot
