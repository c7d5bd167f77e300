import Prot.Tiers

/-!
# The block cache over a history

`m_cacheBB` is filled once for each address: the first round that comes to an address
collects what memory holds there, and nothing is ever collected for the address again. So on
a guest that modifies its code, the engine goes on with the code as it was when it first came
to it, in whichever tier.

The rounds may raise, callers may hand over other states, and memory changes in any way.

## Main definitions

* `Rounds`: the rounds of an engine, with the state of the guest at the beginning of each
* `getBBInfo`: what the engine tells about a block

## Main results

* `Rounds.frozen`: the blocks and the generated code, by the history
* `round_frozen`: what a round runs
* `getBBInfo_eq_some_iff`: when a block is told, and which
-/

namespace Prot

open Isa Interpreter Stateful Tiering

namespace JitEngine

variable {μ τ : Type} [Memory μ]

/-- What is collected at the `pc` of the guest, to the end of the block or to the word that
cannot be read or decoded. -/
def Collects (singleStep : Bool) (s : CPUState μ) (insns : List Instruction) : Prop :=
  ∃ fuel fault, collectBlock (Memory.read32 s.memory) singleStep fuel s.pc [] = some (insns, fault)

/-- There is one block to collect in a state. -/
theorem Collects.unique {singleStep : Bool} {s : CPUState μ} {insns insns' : List Instruction}
    (h : Collects singleStep s insns) (h' : Collects singleStep s insns') : insns = insns' := by
  obtain ⟨fuel, fault, hcollect⟩ := h
  obtain ⟨fuel', fault', hcollect'⟩ := h'
  have hsame := (collectBlock_mono (Nat.le_max_left fuel fuel') hcollect).symm.trans
    (collectBlock_mono (Nat.le_max_right fuel fuel') hcollect')
  cases hsame
  rfl

variable {config : Config} {m_translator : Option (Translator τ μ)} {j₀ j j' : JitState τ μ}
  {pc : Addr} {bb : BBInfo} {insns : List Instruction}

/-! ### One round -/

/-- The block was there, or what is collected is there now. -/
theorem tryEmplace_cases {singleStep : Bool} {fuel : ℕ}
    {r : EStateM.Result Exn (JitState τ μ) BBInfo}
    (h : tryEmplace singleStep fuel j.cpu.pc j = some r) :
    (∃ bb, j.m_cacheBB j.cpu.pc = some bb ∧ r = .ok bb j) ∨
      j.m_cacheBB j.cpu.pc = none ∧ ∃ insns, Collects singleStep j.cpu insns ∧
        finalState r = setBB j.cpu.pc { insns } j := by
  rw [tryEmplace] at h
  split at h
  · next bb hbb =>
    cases h
    exact .inl ⟨bb, hbb, rfl⟩
  · next hbb =>
    split at h
    · cases h
    · next insns hcollect =>
      cases h
      exact .inr ⟨hbb, insns, ⟨fuel, none, hcollect⟩, rfl⟩
    · next insns e hcollect =>
      cases h
      exact .inr ⟨hbb, insns, ⟨fuel, some e, hcollect⟩, rfl⟩

omit [Memory μ] in
/-- What runs on the CPU leaves the translations alone. -/
theorem m_tbCache_onCpu (x : EStateM Exn (CPUState μ) Unit) :
    (finalState ((onCpu x).run j)).m_tbCache = j.m_tbCache := by
  cases hx : x.run j.cpu with
  | ok _ cpu =>
    rw [run_onCpu_ok hx]
    rfl
  | error e cpu =>
    rw [run_onCpu_error hx]
    rfl

/-- The code is what the translator makes of these instructions. -/
def TranslationOf (m_translator : Option (Translator τ μ)) (insns : List Instruction)
    (code : JitFunction μ) : Prop :=
  ∃ translate ∈ m_translator, ∃ bb : BBInfo, bb.insns = insns ∧
    ∃ ts ts', (translate bb).run ts = .ok (some code) ts'

/-- Generated code comes with a block, and is a translation of it. -/
def Translated (m_translator : Option (Translator τ μ)) (j : JitState τ μ) : Prop :=
  ∀ pc code, j.m_tbCache.lookup pc = some code →
    ∃ insns, insnsAt j pc = some insns ∧ TranslationOf m_translator insns code

/-- The translations after a block: those that were there, and one of this block. Code that raises
is not inserted, and interpreting only counts the block, in the other cache. -/
theorem lookup_runBlock {a : Addr} {code : JitFunction μ}
    (h : (finalState ((runBlock config m_translator pc bb).run j)).m_tbCache.lookup a =
      some code) :
    j.m_tbCache.lookup a = some code ∨ a = pc ∧ TranslationOf m_translator bb.insns code := by
  rcases runBlock_cases config m_translator pc bb j with
    hrun | ⟨translate, hmem, ts, ⟨e, hrun⟩ | ⟨code', htranslate, hrun⟩⟩ <;> rw [hrun] at h
  · have hkept : (finalState ((interpret pc bb).run j)).m_tbCache = j.m_tbCache :=
      inv_finalState_bind (fun j' : JitState τ μ => j'.m_tbCache = j.m_tbCache)
        (m_tbCache_onCpu (interpretInsns bb.insns)) fun _ _ hj' => hj'
    exact .inl (hkept ▸ h)
  · exact .inl h
  · cases hcall : code'.run j.cpu with
    | ok _ cpu =>
      have hinsert : (onCpu code' >>= fun _ => modify (insertTb pc code')).run
          { j with translatorState := ts } =
            .ok () (insertTb pc code' { j with cpu, translatorState := ts }) :=
        run_call_ok.mpr ⟨cpu, hcall, rfl⟩
      rw [hinsert] at h
      rcases TbCache.lookup_insert h with ⟨rfl, rfl⟩ | hold
      · exact .inr ⟨rfl, translate, hmem, bb, rfl, j.translatorState, ts, htranslate⟩
      · exact .inl hold
    | error e cpu =>
      have hraise := run_onCpu_error (j := { j with translatorState := ts }) hcall
      rw [run_seq_error hraise] at h
      exact .inl h

/-- Running the block of an address keeps every translation with its block. -/
theorem Translated.runBlock (h : Translated m_translator j) (hbb : insnsAt j pc = some bb.insns) :
    Translated m_translator (finalState ((runBlock config m_translator pc bb).run j)) := by
  intro a code hlookup
  rw [insnsAt_runBlock hbb]
  rcases lookup_runBlock hlookup with hold | ⟨rfl, hcode⟩
  · exact h a code hold
  · exact ⟨bb.insns, hbb, hcode⟩

omit [Memory μ] in
/-- A new block replaces none. -/
theorem Translated.setBB (h : Translated m_translator j) (hnone : j.m_cacheBB pc = none) :
    Translated m_translator (setBB pc bb j) := by
  intro a code hlookup
  obtain ⟨insns, hinsns, hcode⟩ := h a code hlookup
  have hne : a ≠ pc := by
    rintro rfl
    rw [insnsAt, hnone] at hinsns
    cases hinsns
  exact ⟨insns, (insnsAt_setBB_of_ne hne).trans hinsns, hcode⟩

/-- The block is found where it was put. -/
theorem insnsAt_tryEmplace {singleStep : Bool} {fuel : ℕ} {j₁ : JitState τ μ}
    (h : tryEmplace singleStep fuel pc j = some (.ok bb j₁)) :
    insnsAt j₁ pc = some bb.insns ∧ j₁.cpu = j.cpu := by
  rcases tryEmplace_ok h with ⟨hbb, rfl⟩ | ⟨-, rfl, -⟩
  · exact ⟨insnsAt_eq_some.mpr ⟨bb, hbb, rfl⟩, rfl⟩
  · exact ⟨insnsAt_setBB_self, rfl⟩

/-- What is collected in a round at the address of the guest. -/
def Collected (singleStep : Bool) (j j' : JitState τ μ) : Prop :=
  (insnsAt j j.cpu.pc ≠ none ∧ insnsAt j' = insnsAt j) ∨
    insnsAt j j.cpu.pc = none ∧ ∃ insns, Collects singleStep j.cpu insns ∧
      insnsAt j' = Function.update (insnsAt j) j.cpu.pc (some insns)

omit [Memory μ] in
/-- Setting an entry changes the instructions at its address. -/
theorem insnsAt_setBB_new (pc : Addr) (bb : BBInfo) (j : JitState τ μ) :
    insnsAt (JitEngine.setBB pc bb j) = Function.update (insnsAt j) pc (some bb.insns) := by
  funext a
  by_cases ha : a = pc
  · rw [ha, insnsAt_setBB_self, Function.update_self]
  · rw [insnsAt_setBB_of_ne ha, Function.update_of_ne ha]

/-- A round keeps every translation with its block. It collects a block, or as much of one as it
can, only where there was none. -/
theorem Translated.round (h : Translated m_translator j) (hround : Round config m_translator j j') :
    Translated m_translator j' ∧ Collected config.singleStep j j' := by
  obtain ⟨-, fuel, r, hbody, rfl⟩ := hround
  rcases stepBody_cases hbody with ⟨found, hhit, rfl⟩ |
    ⟨-, ⟨bb, j₁, hemplace, rfl⟩ | ⟨e, j₁, hemplace, rfl⟩⟩
  · -- a hit: there is a block for the code that is found
    obtain ⟨_, -, hfound⟩ := Option.bind_eq_some_iff.mp hhit
    obtain ⟨insns, hinsns, -⟩ := h _ _ hfound
    have hsame := insnsAt_onCpu (j := j) found
    refine ⟨fun a code hlookup => ?_, .inl ⟨hinsns ▸ Option.some_ne_none _, hsame⟩⟩
    rw [hsame]
    exact h a code (m_tbCache_onCpu (j := j) found ▸ hlookup)
  · rcases tryEmplace_cases hemplace with ⟨bb', hbb, hr⟩ | ⟨hnone, insns, hcollects, hj₁⟩
    · cases hr
      have hinsns := insnsAt_eq_some.mpr ⟨bb, hbb, rfl⟩
      exact ⟨h.runBlock hinsns, .inl ⟨hinsns ▸ Option.some_ne_none _, insnsAt_runBlock hinsns⟩⟩
    · rw [finalState_ok] at hj₁
      have hinsns := (insnsAt_tryEmplace hemplace).1
      refine ⟨(hj₁ ▸ h.setBB hnone : Translated m_translator j₁).runBlock hinsns,
        .inr ⟨by rw [insnsAt, hnone]; rfl, insns, hcollects, ?_⟩⟩
      rw [insnsAt_runBlock hinsns, hj₁, insnsAt_setBB_new]
  · rcases tryEmplace_cases hemplace with ⟨bb', hbb, hr⟩ | ⟨hnone, insns, hcollects, hj₁⟩
    · cases hr
    · rw [finalState_error] at hj₁ ⊢
      rw [hj₁]
      exact ⟨h.setBB hnone,
        .inr ⟨by rw [insnsAt, hnone]; rfl, insns, hcollects, insnsAt_setBB_new _ _ _⟩⟩

/-! ### Histories -/

/-- The rounds of an engine since it was built, with the state of the guest at the beginning
of each. A round may raise, and the caller may hand over another state between two rounds. -/
inductive Rounds (config : Config) (m_translator : Option (Translator τ μ))
    (j₀ : JitState τ μ) : List (CPUState μ) → JitState τ μ → Prop
  | start : Rounds config m_translator j₀ [] j₀
  | round {history : List (CPUState μ)} {j j' : JitState τ μ}
      (hrun : Rounds config m_translator j₀ history j) (hround : Round config m_translator j j') :
      Rounds config m_translator j₀ (history ++ [j.cpu]) j'
  | caller {history : List (CPUState μ)} {j : JitState τ μ}
      (hrun : Rounds config m_translator j₀ history j) (cpu : CPUState μ) :
      Rounds config m_translator j₀ history { j with cpu }

/-- The state of the guest when it first came to the address. -/
def firstAt (history : List (CPUState μ)) (pc : Addr) : Option (CPUState μ) :=
  history.find? fun s => s.pc = pc

omit [Memory μ] in
/-- The first visit is an earlier one, or the last. -/
theorem firstAt_concat (history : List (CPUState μ)) (s : CPUState μ) (pc : Addr) :
    firstAt (history ++ [s]) pc =
      (firstAt history pc).or (if s.pc = pc then some s else none) := by
  simp [firstAt, List.find?_append, List.find?_singleton]

/-- There is a block for each address that the guest came to, collected when it first came
there, and the generated code is a translation of it. -/
structure Frozen (config : Config) (m_translator : Option (Translator τ μ))
    (history : List (CPUState μ)) (j : JitState τ μ) : Prop where
  collected : ∀ pc, Option.Rel (Collects config.singleStep) (firstAt history pc) (insnsAt j pc)
  translated : Translated m_translator j

variable {history : List (CPUState μ)} {cpu : CPUState μ} {ts : τ}

/-- A round keeps the blocks frozen: the guest was there before, or it is collected now. -/
theorem Frozen.round (h : Frozen config m_translator history j)
    (hround : Round config m_translator j j') :
    Frozen config m_translator (history ++ [j.cpu]) j' := by
  obtain ⟨htranslated, hcollected⟩ := h.translated.round hround
  refine ⟨fun pc => ?_, htranslated⟩
  have hrel := h.collected pc
  rw [firstAt_concat]
  rcases hcollected with ⟨hknown, hsame⟩ | ⟨hnone, insns, hcollects, hnew⟩
  · rw [hsame]
    by_cases hpc : j.cpu.pc = pc
    · subst hpc
      obtain ⟨insns, hinsns⟩ := Option.ne_none_iff_exists'.mp hknown
      rw [hinsns] at hrel ⊢
      generalize firstAt history j.cpu.pc = first at hrel ⊢
      cases hrel with
      | some hcollects => exact .some hcollects
    · rwa [if_neg hpc, Option.or_none]
  · rw [hnew]
    by_cases hpc : j.cpu.pc = pc
    · subst hpc
      rw [hnone] at hrel
      rw [Function.update_self, if_pos rfl]
      generalize firstAt history j.cpu.pc = first at hrel ⊢
      cases hrel with
      | none => exact .some hcollects
    · rwa [if_neg hpc, Option.or_none, Function.update_of_ne (Ne.symm hpc)]

/-- Blocks are frozen over a run of rounds. -/
theorem Rounds.frozen
    (hrun : Rounds config m_translator { cpu, translatorState := ts } history j) :
    Frozen config m_translator history j := by
  induction hrun with
  | start => exact ⟨fun _ => .none, fun pc code hlookup => by
      rw [TbCache.lookup_empty] at hlookup
      cases hlookup⟩
  | round _ hround ih => exact ih.round hround
  | caller _ cpu ih => exact ⟨ih.collected, ih.translated⟩

/-- A block was collected at the first visit of its address. -/
theorem Frozen.exists_first (h : Frozen config m_translator history j)
    (hinsns : insnsAt j pc = some insns) :
    ∃ s, firstAt history pc = some s ∧ Collects config.singleStep s insns := by
  have hrel := h.collected pc
  rw [hinsns] at hrel
  generalize firstAt history pc = first at hrel ⊢
  cases hrel with
  | some hcollects => exact ⟨_, rfl, hcollects⟩

/-- An address that was visited has its block. -/
theorem Frozen.exists_insns (h : Frozen config m_translator history j) {s : CPUState μ}
    (hfirst : firstAt history pc = some s) :
    ∃ insns, insnsAt j pc = some insns ∧ Collects config.singleStep s insns := by
  have hrel := h.collected pc
  rw [hfirst] at hrel
  generalize insnsAt j pc = found at hrel ⊢
  cases hrel with
  | some hcollects => exact ⟨_, rfl, hcollects⟩

/-- What a round runs, if it returns: the instructions that were collected when the guest
first came to the address, or code that the translator made of these. What memory holds there
by now makes no difference. -/
theorem round_frozen
    (hrun : Rounds config m_translator { cpu, translatorState := ts } history j)
    (hrunning : j.cpu.finished = false) {fuel : ℕ}
    (hbody : stepBody config m_translator fuel j = some (.ok () j')) :
    ∃ s insns, firstAt (history ++ [j.cpu]) j.cpu.pc = some s ∧
      Collects config.singleStep s insns ∧
      ((interpretInsns insns).run j.cpu = .ok () j'.cpu ∨
        ∃ code, TranslationOf m_translator insns code ∧ code.run j.cpu = .ok () j'.cpu) := by
  have hfrozen' := hrun.frozen.round ⟨hrunning, fuel, _, hbody, rfl⟩
  rw [finalState_ok] at hfrozen'
  rcases stepBody_cases hbody with ⟨found, hhit, hcall⟩ |
    ⟨-, ⟨bb, j₁, hemplace, hblock⟩ | ⟨e, j₁, -, hraise⟩⟩
  · -- the code was made of the block that is there
    obtain ⟨_, -, hfound⟩ := Option.bind_eq_some_iff.mp hhit
    obtain ⟨insns, hinsns, hcode⟩ := hrun.frozen.translated _ _ hfound
    obtain ⟨cpu', hcpu, rfl⟩ := exists_of_run_onCpu_eq_ok hcall.symm
    obtain ⟨s, hfirst, hcollects⟩ := hfrozen'.exists_first hinsns
    exact ⟨s, insns, hfirst, hcollects, .inr ⟨found, hcode, hcpu⟩⟩
  · obtain ⟨hinsns, hcpu₁⟩ := insnsAt_tryEmplace hemplace
    have hsame : insnsAt (finalState ((runBlock config m_translator j.cpu.pc bb).run j₁)) =
        insnsAt j₁ := insnsAt_runBlock hinsns
    rw [← hblock, finalState_ok] at hsame
    obtain ⟨s, hfirst, hcollects⟩ := hfrozen'.exists_first (hsame ▸ hinsns)
    refine ⟨s, bb.insns, hfirst, hcollects, ?_⟩
    rcases runBlock_cases config m_translator j.cpu.pc bb j₁ with
      hinterp | ⟨translate, hmem, ts', ⟨e, hraise⟩ | ⟨code, htranslate, hcall⟩⟩
    · obtain ⟨cpu', hcpu, rfl⟩ := run_interpret_ok.mp (hblock.trans hinterp).symm
      exact .inl (hcpu₁ ▸ hcpu)
    · cases hblock.trans hraise
    · obtain ⟨cpu', hcpu, rfl⟩ := run_call_ok.mp (hblock.trans hcall).symm
      exact .inr ⟨code, ⟨translate, hmem, bb, rfl, _, ts', htranslate⟩, hcpu₁ ▸ hcpu⟩
  · cases hraise

/-- The memory is erased after the first round, and the second one exits like the first. -/
theorem round_frozen_erased :
    let erased : CPUState (PlainMemory 0#32 4096) :=
      { exitGuest with memory := { m_data := fun _ => 0#8 } }
    ∃ s insns, firstAt [exitGuest, erased] 0#32 = some s ∧ Collects false s insns ∧
      ((interpretInsns insns).run erased = .ok () { exitedGuest with memory := erased.memory } ∨
        ∃ code, TranslationOf (some interpTranslator) insns code ∧
          code.run erased = .ok () { exitedGuest with memory := erased.memory }) := by
  intro erased
  have hfirst : Rounds { execThreshold := 1#64 } (some interpTranslator)
      { cpu := exitGuest, translatorState := () } [exitGuest] _ :=
    .round .start ⟨rfl, 1, _, rfl, rfl⟩
  exact @round_frozen _ _ _ _ _ _ _ _ _ _ (hfirst.caller erased) rfl 1 rfl

/-! ### What the engine tells -/

/-- `JitEngine::getBBInfo`: the block at `pc`, if it is translated when it is entered. -/
def getBBInfo (config : Config) (j : JitState τ μ) (pc : Addr) : Option BBInfo :=
  match j.m_cacheBB pc with
  | some found => if found.num_exec ≥ config.execThreshold then some found else none
  | none => none

omit [Memory μ] in
/-- What is told is the entry, from the threshold on. -/
theorem getBBInfo_eq_some : getBBInfo config j pc = some bb ↔
    j.m_cacheBB pc = some bb ∧ config.execThreshold ≤ bb.num_exec := by
  rw [getBBInfo]
  cases j.m_cacheBB pc with
  | none => simp
  | some found =>
    simp only [Option.ite_none_right_eq_some, Option.some.injEq]
    constructor
    · rintro ⟨hhot, rfl⟩
      exact ⟨rfl, hhot⟩
    · rintro ⟨rfl, hhot⟩
      exact ⟨hhot, rfl⟩

variable {translate : Translator τ μ} {tiers : Tiering.History Addr}

/-- A round that returns is a round. -/
theorem TierRun.exists_rounds (hrun : TierRun config translate j₀ tiers j) :
    ∃ history, Rounds config (some translate) j₀ history j ∧
      history.map (fun s => s.pc) = tiers.map Prod.fst := by
  induction hrun with
  | start => exact ⟨[], .start, rfl⟩
  | @round tiers j j' tier _ hrunning hround ih =>
    obtain ⟨history, hrounds, hpcs⟩ := ih
    obtain ⟨fuel, hbody⟩ := stepBody_eq_ok_iff.mpr ⟨tier, hround⟩
    refine ⟨history ++ [j.cpu], hrounds.round ⟨hrunning, fuel, _, hbody, rfl⟩, ?_⟩
    rw [List.map_append, List.map_append, hpcs]
    rfl
  | caller _ cpu ih =>
    obtain ⟨history, hrounds, hpcs⟩ := ih
    exact ⟨history, hrounds.caller cpu, hpcs⟩

omit [Memory μ] in
/-- The guest came to the address if and only if there is a first time. -/
theorem exists_firstAt_iff {history : List (CPUState μ)} :
    (∃ s, firstAt history pc = some s) ↔ pc ∈ history.map fun s => s.pc := by
  rw [← Option.isSome_iff_exists, firstAt, List.find?_isSome, List.mem_map]
  simp only [decide_eq_true_eq]

/-- The engine counts as many executions of a block as it was entered, up to the threshold. -/
theorem TierRun.num_exec_eq
    (hrun : TierRun config translate { cpu, translatorState := ts } tiers j)
    (hbb : j.m_cacheBB pc = some bb) :
    bb.num_exec.toNat = min (entries tiers pc) config.execThreshold.toNat := by
  obtain ⟨s, hscheduled, htracks⟩ := hrun.exists_scheduled
  rw [← hscheduled.remembers.count_eq, ← htracks.count_eq, execs, hbb]
  rfl

/-- What is told of a block, by the rounds of the run. -/
theorem TierRun.getBBInfo_iff
    (hrun : TierRun config translate { cpu, translatorState := ts } tiers j)
    (hrounds : Rounds config (some translate) { cpu, translatorState := ts } history j) :
    getBBInfo config j pc = some bb ↔
      bb.num_exec = config.execThreshold ∧ config.execThreshold.toNat ≤ entries tiers pc ∧
      ∃ s, firstAt history pc = some s ∧ Collects config.singleStep s bb.insns := by
  rw [getBBInfo_eq_some]
  constructor
  · rintro ⟨hbb, hhot⟩
    have hexecs := hrun.num_exec_eq hbb
    have hle := BitVec.le_def.mp hhot
    have hinsns := insnsAt_eq_some.mpr ⟨bb, hbb, rfl⟩
    exact ⟨BitVec.eq_of_toNat_eq (by omega), by omega, hrounds.frozen.exists_first hinsns⟩
  · rintro ⟨hexecs, hentries, first, hfirst, hcollects⟩
    obtain ⟨insns, hinsns, hcollects'⟩ := hrounds.frozen.exists_insns hfirst
    obtain ⟨bb', hbb', rfl⟩ := insnsAt_eq_some.mp hinsns
    have hexecs' := hrun.num_exec_eq hbb'
    have hnum : bb'.num_exec = bb.num_exec := BitVec.eq_of_toNat_eq (by rw [hexecs]; omega)
    have hinsns' := hcollects'.unique hcollects
    have hsame : bb' = bb := by
      cases bb
      cases bb'
      simp only at hnum hinsns'
      rw [hnum, hinsns']
    exact ⟨hsame ▸ hbb', hexecs ▸ BitVec.le_refl _⟩

/-- A block is told once it was entered as often as the threshold, and at least once: with that
count, and with the instructions that were collected when it was first entered. -/
theorem getBBInfo_eq_some_iff
    (hrun : TierRun config translate { cpu, translatorState := ts } tiers j) :
    ∃ history, Rounds config (some translate) { cpu, translatorState := ts } history j ∧
      history.map (fun s => s.pc) = tiers.map Prod.fst ∧
      (∀ pc bb, getBBInfo config j pc = some bb ↔
        bb.num_exec = config.execThreshold ∧
        config.execThreshold.toNat ≤ entries tiers pc ∧
        ∃ s, firstAt history pc = some s ∧ Collects config.singleStep s bb.insns) ∧
      ∀ pc, (∃ bb, getBBInfo config j pc = some bb) ↔
        config.execThreshold.toNat ≤ entries tiers pc ∧ 0 < entries tiers pc := by
  obtain ⟨history, hrounds, hpcs⟩ := hrun.exists_rounds
  have hentered : ∀ pc, 0 < entries tiers pc ↔ ∃ s, firstAt history pc = some s := by
    intro pc
    rw [exists_firstAt_iff, hpcs, entries, List.count_pos_iff]
  refine ⟨history, hrounds, hpcs, fun pc bb => hrun.getBBInfo_iff hrounds, fun pc => ?_⟩
  constructor
  · rintro ⟨bb, hbb⟩
    obtain ⟨-, hentries, s, hfirst, -⟩ := (hrun.getBBInfo_iff hrounds).mp hbb
    exact ⟨hentries, (hentered pc).mpr ⟨s, hfirst⟩⟩
  · rintro ⟨hentries, hpos⟩
    obtain ⟨s, hfirst⟩ := (hentered pc).mp hpos
    obtain ⟨insns, -, hcollects⟩ := hrounds.frozen.exists_insns hfirst
    exact ⟨{ insns, num_exec := config.execThreshold },
      (hrun.getBBInfo_iff hrounds).mpr ⟨rfl, hentries, s, hfirst, hcollects⟩⟩

/-- With a threshold of two, the loop of the guest that counts down is told, as it was
interpreted twice and then translated; the block of the call, which was entered once, is not. -/
theorem getBBInfo_eq_some_iff_countdownGuest :
    ∃ j : JitState Unit (PlainMemory 0#32 4096), j.cpu = countedDown ∧
      (∃ bb, getBBInfo { execThreshold := 2#64 } j 0#32 = some bb) ∧
      ¬ ∃ bb, getBBInfo { execThreshold := 2#64 } j 8#32 = some bb := by
  have hstart : TierRun { execThreshold := 2#64 } interpTranslator
      { cpu := countdownGuest, translatorState := () } [] _ := .start
  have hcold := hstart.round rfl (@TierRound.interpreted _ _ _ _ _ _ 2 { insns := countdownLoop }
    _ (countdown 2#32 0#32 2#64) rfl rfl (by decide) rfl)
  have hwarm := hcold.round rfl (@TierRound.interpreted _ _ _ _ _ _ 2 _ _
    (countdown 1#32 0#32 4#64) rfl rfl (by decide) rfl)
  have hhot := hwarm.round rfl (@TierRound.translated _ _ _ _ _ _ 2 _ _ _ _
    (countdown 0#32 8#32 6#64) rfl rfl (by decide) rfl rfl)
  have hcall := hhot.round rfl (@TierRound.interpreted _ _ _ _ _ _ 2 _ _ countedDown rfl rfl
    (by decide) rfl)
  obtain ⟨-, -, -, -, htold⟩ := getBBInfo_eq_some_iff hcall
  exact ⟨_, rfl, (htold 0#32).mpr (by decide), fun h => absurd ((htold 8#32).mp h) (by decide)⟩

end JitEngine

end Prot
