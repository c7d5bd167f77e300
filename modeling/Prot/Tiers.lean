import Prot.BlockCache
import Prot.TbHistory
import Prot.Lib.Tiering

/-!
# The tiers of the engine

`JitEngine::step` counts the executions of a block where it keeps the instructions, and
only those that it interprets; the code is kept in `TbCache`, where the code of another
block may take its place. The count is never reset, so a block that was pushed out is
translated again.

The tier of a round is read off what the round calls. What follows from the order of the
rounds is known of any scheduler that counts up to a threshold.

## Main results

* `stepBody_eq_ok_iff`: what a round with a translator calls if it returns
* `Tracks.round`: the engine is such a scheduler
* `tier_counts`: how often a block is interpreted, and when it is translated
-/

namespace Prot

open Isa Interpreter Stateful Tiering

namespace JitEngine

variable {μ τ : Type} [Memory μ]

/-! ### Rounds with a translator -/

/-- A round that returns, by the way in which it runs the block at `pc`. -/
inductive TierRound (config : Config) (translate : Translator τ μ) (j : JitState τ μ) :
    Tier → JitState τ μ → Prop
  /-- The code that is in the cache is called. -/
  | cached {found : JitFunction μ} {cpu : CPUState μ}
      (hhit : j.m_tbCache.lookup j.cpu.pc = some found) (hcall : found.run j.cpu = .ok () cpu) :
      TierRound config translate j .cached { j with cpu }
  | interpreted {fuel : ℕ} {bb : BBInfo} {j₁ : JitState τ μ} {cpu : CPUState μ}
      (hmiss : j.m_tbCache.lookup j.cpu.pc = none)
      (hemplace : tryEmplace config.singleStep fuel j.cpu.pc j = some (.ok bb j₁))
      (hcold : bb.num_exec < config.execThreshold)
      (hinterp : (interpretInsns bb.insns).run j₁.cpu = .ok () cpu) :
      TierRound config translate j .interpreted
        (setBB j.cpu.pc { bb with num_exec := bb.num_exec + 1#64 } { j₁ with cpu })
  /-- The translator is called, then its code, and the code is inserted into the cache. -/
  | translated {fuel : ℕ} {bb : BBInfo} {j₁ : JitState τ μ} {code : JitFunction μ} {ts : τ}
      {cpu : CPUState μ} (hmiss : j.m_tbCache.lookup j.cpu.pc = none)
      (hemplace : tryEmplace config.singleStep fuel j.cpu.pc j = some (.ok bb j₁))
      (hhot : config.execThreshold ≤ bb.num_exec)
      (htranslate : (translate bb).run j₁.translatorState = .ok (some code) ts)
      (hcall : code.run j₁.cpu = .ok () cpu) :
      TierRound config translate j .translated
        (insertTb j.cpu.pc code { j₁ with cpu, translatorState := ts })

variable {config : Config} {translate : Translator τ μ} {j j' : JitState τ μ}

/-- A hot block is translated, and the code runs before it is inserted. -/
theorem run_runBlock_hot_ok {pc : Addr} {bb : BBInfo} (hhot : config.execThreshold ≤ bb.num_exec) :
    (runBlock config (some translate) pc bb).run j = .ok () j' ↔ ∃ code ts cpu,
      (translate bb).run j.translatorState = .ok (some code) ts ∧ code.run j.cpu = .ok () cpu ∧
        j' = insertTb pc code { j with cpu, translatorState := ts } := by
  simp only [runBlock, if_pos hhot]
  constructor
  · intro h
    cases htranslate : (translate bb).run j.translatorState with
    | error e ts =>
      rw [run_seq_error (run_onTranslator_error htranslate)] at h
      cases h
    | ok code ts =>
      rw [run_seq_ok (run_onTranslator_ok htranslate)] at h
      cases code with
      | none => cases h
      | some code =>
        obtain ⟨cpu, hcpu, rfl⟩ := run_call_ok.mp h
        exact ⟨code, ts, cpu, rfl, hcpu, rfl⟩
  · rintro ⟨code, ts, cpu, htranslate, hcpu, rfl⟩
    rw [run_seq_ok (run_onTranslator_ok htranslate)]
    exact run_call_ok.mpr ⟨cpu, hcpu, rfl⟩

/-- A round returns exactly in one of these ways. -/
theorem stepBody_eq_ok_iff :
    (∃ fuel, stepBody config (some translate) fuel j = some (.ok () j')) ↔
      ∃ tier, TierRound config translate j tier j' := by
  constructor
  · rintro ⟨fuel, hbody⟩
    rcases stepBody_cases hbody with ⟨found, hhit, hrun⟩ |
      ⟨hmiss, ⟨bb, j₁, hemplace, hrun⟩ | ⟨e, j₁, -, hraise⟩⟩
    · obtain ⟨cpu, hcall, rfl⟩ := exists_of_run_onCpu_eq_ok hrun.symm
      exact ⟨.cached, .cached hhit hcall⟩
    · by_cases hhot : config.execThreshold ≤ bb.num_exec
      · obtain ⟨code, ts, cpu, htranslate, hcall, rfl⟩ :=
          (run_runBlock_hot_ok hhot).mp hrun.symm
        exact ⟨.translated, .translated hmiss hemplace hhot htranslate hcall⟩
      · simp only [runBlock, if_neg hhot] at hrun
        obtain ⟨cpu, hinterp, rfl⟩ := run_interpret_ok.mp hrun.symm
        exact ⟨.interpreted, .interpreted hmiss hemplace (BitVec.not_le.mp hhot) hinterp⟩
    · cases hraise
  · rintro ⟨tier, hround⟩
    cases hround with
    | cached hhit hcall =>
      exact ⟨0, by simp only [stepBody, CPUState.getPC_eq, Option.bind_some, hhit,
        run_onCpu_ok hcall]⟩
    | @interpreted fuel _ _ _ hmiss hemplace hcold hinterp =>
      refine ⟨fuel, ?_⟩
      simp only [stepBody, CPUState.getPC_eq, Option.bind_some, hmiss, hemplace, runBlock,
        if_neg (BitVec.not_le.mpr hcold), run_interpret_ok.mpr ⟨_, hinterp, rfl⟩]
    | @translated fuel _ _ _ _ _ hmiss hemplace hhot htranslate hcall =>
      refine ⟨fuel, ?_⟩
      simp only [stepBody, CPUState.getPC_eq, Option.bind_some, hmiss, hemplace,
        (run_runBlock_hot_ok hhot).mpr ⟨_, _, _, htranslate, hcall, rfl⟩]

/-! ### Rounds as entries of a scheduler -/

/-- How often the engine counts that the block at `pc` was executed. -/
def execs (j : JitState τ μ) (pc : Addr) : ℕ :=
  ((j.m_cacheBB pc).map fun bb => bb.num_exec.toNat).getD 0

omit [Memory μ] in
/-- Setting an entry changes the count at its address. -/
theorem execs_setBB (j : JitState τ μ) (pc a : Addr) (bb : BBInfo) :
    execs (setBB pc bb j) a = if a = pc then bb.num_exec.toNat else execs j a := by
  simp only [execs, setBB, Function.update_apply]
  split <;> rfl

/-- A new entry counts no executions, like an address without an entry. -/
theorem execs_of_tryEmplace {singleStep : Bool} {fuel : ℕ} {pc : Addr} {bb : BBInfo}
    {j₁ : JitState τ μ} (h : tryEmplace singleStep fuel pc j = some (.ok bb j₁)) :
    bb.num_exec.toNat = execs j pc ∧ execs j₁ = execs j ∧ j₁.m_tbCache = j.m_tbCache := by
  rw [tryEmplace] at h
  split at h
  · next bb' hbb =>
    cases h
    exact ⟨by rw [execs, hbb]; rfl, rfl, rfl⟩
  · next hbb =>
    have hzero : execs j pc = 0 := by rw [execs, hbb]; rfl
    split at h
    · cases h
    · cases h
      refine ⟨hzero.symm, funext fun a => ?_, rfl⟩
      rw [execs_setBB]
      split
      · next ha => exact (ha ▸ hzero).symm
      · rfl
    · cases h

/-- The engine and the scheduler count alike, and their tables have the same keys. -/
structure Tracks (j : JitState τ μ) (s : Scheduler Addr Word) : Prop where
  count_eq : ∀ pc, execs j pc = s.count pc
  keys_eq : ∀ slot, (j.m_tbCache.table slot).map Prod.fst = (s.table slot).map Prod.fst

variable {s : Scheduler Addr Word} {tier : Tier}

omit [Memory μ] in
/-- The caches have code for the same addresses. -/
theorem Tracks.lookup_iff (h : Tracks j s) (pc : Addr) :
    j.m_tbCache.lookup pc ≠ none ↔ DirectMapped.lookup TbCache.getHash s.table pc = some () := by
  have hunit : ∀ o : Option Unit, o = some () ↔ o.isSome := by
    rintro (_ | _) <;> simp
  rw [hunit, DirectMapped.isSome_lookup, ← h.keys_eq, ← DirectMapped.isSome_lookup,
    ← TbCache.lookup_eq, Option.isSome_iff_ne_none]

/-- A round is the entry of a block, in the tier that the scheduler would give it. -/
theorem Tracks.round (h : Tracks j s) (hround : TierRound config translate j tier j') :
    tier = s.tier TbCache.getHash config.execThreshold.toNat j.cpu.pc ∧
      Tracks j' (s.enter TbCache.getHash config.execThreshold.toNat j.cpu.pc) := by
  have hlookup := h.lookup_iff j.cpu.pc
  have hcount := h.count_eq j.cpu.pc
  cases hround with
  | cached hhit hcall =>
    have htier : s.tier TbCache.getHash config.execThreshold.toNat j.cpu.pc = .cached :=
      tier_eq_cached.mpr (hlookup.mp (hhit ▸ Option.some_ne_none _))
    rw [Scheduler.enter, htier]
    exact ⟨rfl, h.count_eq, h.keys_eq⟩
  | @interpreted fuel bb j₁ cpu hmiss hemplace hcold hinterp =>
    obtain ⟨hbb, hexecs, htable⟩ := execs_of_tryEmplace hemplace
    have hlt := BitVec.lt_def.mp hcold
    have htier : s.tier TbCache.getHash config.execThreshold.toNat j.cpu.pc = .interpreted :=
      tier_eq_interpreted.mpr ⟨fun hhit => hlookup.mpr hhit hmiss, by omega⟩
    refine ⟨htier.symm, fun a => ?_, fun slot => ?_⟩
    · -- the count stays below the threshold, so it does not wrap around
      have hnext : (bb.num_exec + 1#64).toNat = bb.num_exec.toNat + 1 := by
        have hthreshold := config.execThreshold.isLt
        rw [BitVec.toNat_add, BitVec.toNat_ofNat]
        omega
      have hexecs : execs { j₁ with cpu } a = s.count a := by
        rw [← h.count_eq, ← hexecs]
        rfl
      rw [execs_setBB, count_enter, htier, hnext, hexecs]
      by_cases ha : a = j.cpu.pc
      · rw [if_pos ha, if_pos ⟨ha.symm, rfl⟩, ha, hbb, hcount]
      · rw [if_neg ha, if_neg fun hsame => ha hsame.1.symm, Nat.add_zero]
    · rw [table_enter, htier]
      change (j₁.m_tbCache.table slot).map Prod.fst = _
      rw [htable]
      exact h.keys_eq slot
  | @translated fuel bb j₁ code ts cpu hmiss hemplace hhot htranslate hcall =>
    obtain ⟨hbb, hexecs, htable⟩ := execs_of_tryEmplace hemplace
    have hle := BitVec.le_def.mp hhot
    have htier : s.tier TbCache.getHash config.execThreshold.toNat j.cpu.pc = .translated :=
      tier_eq_translated.mpr ⟨fun hhit => hlookup.mpr hhit hmiss, by omega⟩
    refine ⟨htier.symm, fun a => ?_, fun slot => ?_⟩
    · rw [count_enter, htier, if_neg fun hsame => Tier.noConfusion hsame.2, ← h.count_eq, ← hexecs]
      rfl
    · rw [table_enter, htier]
      change ((j₁.m_tbCache.insert j.cpu.pc code).table slot).map Prod.fst =
        (DirectMapped.insert TbCache.getHash s.table (j.cpu.pc, ()) slot).map Prod.fst
      rw [TbCache.table_insert, DirectMapped.map_fst_insert, DirectMapped.map_fst_insert, htable,
        h.keys_eq]

/-! ### Runs -/

/-- The rounds of the engine since it was built, with the address and the tier of each, as
long as nothing raises. A caller may hand over another CPU state between two rounds. -/
inductive TierRun (config : Config) (translate : Translator τ μ) (j₀ : JitState τ μ) :
    History Addr → JitState τ μ → Prop
  | start : TierRun config translate j₀ [] j₀
  | round {history : History Addr} {j j' : JitState τ μ} {tier : Tier}
      (hrun : TierRun config translate j₀ history j) (hrunning : j.cpu.finished = false)
      (hround : TierRound config translate j tier j') :
      TierRun config translate j₀ (history ++ [(j.cpu.pc, tier)]) j'
  | caller {history : History Addr} {j : JitState τ μ}
      (hrun : TierRun config translate j₀ history j) (cpu : CPUState μ) :
      TierRun config translate j₀ history { j with cpu }

/-- A call of `step` that returns goes on with the run. -/
theorem TierRun.step {j₀ : JitState τ μ} {history : History Addr}
    (hrun : TierRun config translate j₀ history j) {fuel : ℕ}
    (hstep : step config (some translate) fuel j = some (.ok () j')) :
    ∃ history', TierRun config translate j₀ (history ++ history') j' := by
  induction fuel generalizing j history with
  | zero => cases hstep
  | succ fuel ih =>
    cases hfinished : j.cpu.finished with
    | true =>
      cases (Loop.whileNot_of_done (s := j) hfinished fuel).symm.trans hstep
      exact ⟨[], by rwa [List.append_nil]⟩
    | false =>
      obtain ⟨j₁, hbody, hrest⟩ := Loop.exists_of_whileNot_eq_ok (s := j) hfinished hstep
      obtain ⟨tier, hround⟩ := stepBody_eq_ok_iff.mp ⟨fuel, hbody⟩
      obtain ⟨history', hrun'⟩ := ih (hrun.round hfinished hround) hrest
      exact ⟨(j.cpu.pc, tier) :: history', by rwa [List.append_cons]⟩

variable {cpu : CPUState μ} {ts : τ} {history : History Addr}

/-- The engine keeps to what a scheduler does with the same entries. -/
theorem TierRun.exists_scheduled
    (hrun : TierRun config translate { cpu, translatorState := ts } history j) :
    ∃ s, Scheduled TbCache.getHash config.execThreshold.toNat history s ∧ Tracks j s := by
  induction hrun with
  | start => exact ⟨{}, .nil, fun _ => rfl, fun _ => rfl⟩
  | round _ _ hround ih =>
    obtain ⟨s, hscheduled, htracks⟩ := ih
    obtain ⟨rfl, htracks'⟩ := htracks.round hround
    exact ⟨_, hscheduled.concat _, htracks'⟩
  | caller _ cpu ih =>
    obtain ⟨s, hscheduled, htracks⟩ := ih
    exact ⟨s, hscheduled, htracks.count_eq, htracks.keys_eq⟩

/-- How the entries of the block at `pc` are run. The first ones are interpreted, as many as
the threshold, and all of the later ones run translated code. The block is translated if there
are later ones, and again only after the code of another block took its slot. -/
structure Counted (threshold : ℕ) (history : History Addr) (pc : Addr) : Prop where
  interpreted_iff : ∀ before tier after, history = before ++ (pc, tier) :: after →
    (tier = .interpreted ↔ entries before pc < threshold)
  count_interpreted : history.count (pc, .interpreted) = min (entries history pc) threshold
  translated_iff : (pc, .translated) ∈ history ↔ threshold < entries history pc
  evicted : ∀ before between after,
    history = before ++ (pc, .translated) :: between ++ (pc, .translated) :: after →
    (pc, .translated) ∉ between →
    ∃ q, (q, .translated) ∈ between ∧ q ≠ pc ∧ TbCache.getHash q = TbCache.getHash pc

/-- Over a run, the counts and the tiers are those of the history. -/
theorem TierRun.counted
    (hrun : TierRun config translate { cpu, translatorState := ts } history j) (pc : Addr) :
    Counted config.execThreshold.toNat history pc := by
  obtain ⟨s, hscheduled, -⟩ := hrun.exists_scheduled
  exact ⟨fun _ _ _ => hscheduled.interpreted_iff, hscheduled.count_interpreted pc,
    hscheduled.translated_iff pc, fun _ _ _ => hscheduled.exists_evicted⟩

/-- The rounds since the engine was built count as they should, and they go on to do so in a
call of `step` that returns. -/
theorem tier_counts (hrun : TierRun config translate { cpu, translatorState := ts } history j) :
    (∀ pc, Counted config.execThreshold.toNat history pc) ∧
    ∀ fuel j', step config (some translate) fuel j = some (.ok () j') →
      ∃ rounds, TierRun config translate { cpu, translatorState := ts } (history ++ rounds) j' ∧
        ∀ pc, Counted config.execThreshold.toNat (history ++ rounds) pc := by
  refine ⟨hrun.counted, fun fuel j' hstep => ?_⟩
  obtain ⟨rounds, hrun'⟩ := hrun.step hstep
  exact ⟨rounds, hrun', hrun'.counted⟩

/-- With a threshold of one, the loop of the guest that counts down is interpreted, then
translated, then found in the cache. A whole call of `step` returns. -/
theorem tier_counts_countdownGuest :
    (∃ j, TierRun { execThreshold := 1#64 } interpTranslator
        { cpu := countdownGuest, translatorState := () }
        [(0#32, .interpreted), (0#32, .translated), (0#32, .cached)] j ∧
      Counted 1 [(0#32, .interpreted), (0#32, .translated), (0#32, .cached)] 0#32) ∧
    ∃ fuel j' rounds, step { execThreshold := 1#64 } (some interpTranslator) fuel
        { cpu := countdownGuest, translatorState := () } = some (.ok () j') ∧
      TierRun { execThreshold := 1#64 } interpTranslator
        { cpu := countdownGuest, translatorState := () } rounds j' ∧ Counted 1 rounds 0#32 := by
  have hstart : TierRun { execThreshold := 1#64 } interpTranslator
      { cpu := countdownGuest, translatorState := () } [] _ := .start
  have hcold := hstart.round rfl (@TierRound.interpreted _ _ _ _ _ _ 2 { insns := countdownLoop }
    _ (countdown 2#32 0#32 2#64) rfl rfl (by decide) rfl)
  have hhot := hcold.round rfl (@TierRound.translated _ _ _ _ _ _ 2 _ _ _ _
    (countdown 1#32 0#32 4#64) rfl rfl (by decide) rfl rfl)
  have hcached := hhot.round rfl (@TierRound.cached _ _ _ _ _ _ _
    (countdown 0#32 8#32 6#64) rfl rfl)
  have hcorrect : ∀ translate ∈ some interpTranslator, BlockCorrect translate := by
    rintro _ ⟨rfl⟩
    exact blockCorrect_interpTranslator
  obtain ⟨j', hstep, -⟩ := exists_step_countdown 1#64 hcorrect ()
  obtain ⟨rounds, hrun, hcounted⟩ := (tier_counts hstart).2 8 j' hstep
  exact ⟨⟨_, hcached, (tier_counts hcached).1 0#32⟩, 8, j', rounds, hstep, hrun, hcounted 0#32⟩

end JitEngine

end Prot
