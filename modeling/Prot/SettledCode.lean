import Prot.FaultingRuns
import Prot.GuestRuns

/-!
# Guests that bring their code with them

A guest may write code before it runs it, as a loader or a translator does. The engine
collects a block when the guest first comes to it, so what is written before is in the block.
What matters is that nothing is written to the words of a block from then on: neither to what
was executed before, nor to what is ahead in the block that is executed.

## Main definitions

* `SettlesCode`: the stores of the run leave such words alone

## Main results

* `SettlesCode.exists_block_ahead`: a block stays as it is from the time it is entered
* `IsBlockAt.reaches`, `IsBlockAt.raisesAt`: the blocks of the engine are parts of the run
* `FaultsAt.raisesAt`: where the engine cannot collect a block, the run raises
-/

namespace Prot

open Isa Interpreter Stateful Loop

variable {μ : Type} [Memory μ]

/-- What is executed in `t` is ahead of `s` in the same block. -/
abbrev Ahead : CPUState μ → CPUState μ → Prop := Relation.ReflTransGen (StepsOver false)

/-- No store of the run writes a byte of a word that was fetched before or is ahead in the
block. -/
def SettlesCode (init : CPUState μ) : Prop :=
  ∀ s t T addr, Reaches init s → Reaches init t → StoresAt s T addr → t.finished = false →
    Reaches t s ∨ Ahead s t → NoOverlap addr T.bytes t.pc 4

/-- Code that is never modified has settled. -/
theorem NoSelfModification.settlesCode {init : CPUState μ} (h : NoSelfModification init) :
    SettlesCode init :=
  fun s t T addr hs ht hstore hrunning _ => h s t T addr hs ht hstore hrunning

/-! ### Words that are fetched -/

section Words

variable [LawfulMemory μ] {init s s₁ t u v : CPUState μ} {a : Addr} {bytes : Word}

/-- A step keeps a word that it does not store to. -/
theorem RunStep.read32_kept (h : RunStep u v)
    (hdisjoint : ∀ T addr, StoresAt u T addr → NoOverlap addr T.bytes a 4)
    (hread : Memory.read32 u.memory a = .ok bytes) : Memory.read32 v.memory a = .ok bytes := by
  rcases h.memory with hsame | ⟨T, addr, val, hstore, hwrite⟩
  · rw [hsame, hread]
  · exact LawfulMemory.read32_write_of_disjoint hwrite (hdisjoint T addr hstore) hread

/-- It was there before, unless it is in a page that the step has allocated. -/
theorem RunStep.read32_was (h : RunStep u v)
    (hdisjoint : ∀ T addr, StoresAt u T addr → NoOverlap addr T.bytes a 4)
    (haligned : a % kWordSize = 0#32) (hnonzero : bytes ≠ 0#32)
    (hread : Memory.read32 v.memory a = .ok bytes) : Memory.read32 u.memory a = .ok bytes := by
  have hmod : a.toNat % 4 = 0 := by
    have h := congrArg BitVec.toNat haligned
    simpa [kWordSize, BitVec.toNat_umod] using h
  rcases h.memory with hsame | ⟨T, addr, val, hstore, hwrite⟩
  · rw [← hsame, hread]
  · exact (LawfulMemory.read_of_write hwrite hmod (hdisjoint T addr hstore) hread).resolve_right
      hnonzero

/-- A word that was fetched stays as it is. -/
theorem SettlesCode.read32_after (h : SettlesCode init) (ht : Reaches init t)
    (hrunning : t.finished = false) (hreach : Reaches t u)
    (hread : Memory.read32 t.memory t.pc = .ok bytes) :
    Memory.read32 u.memory t.pc = .ok bytes := by
  induction hreach with
  | refl => exact hread
  | @tail u v hu huv ih =>
    exact huv.read32_kept (fun T addr hstore =>
      h u t T addr (ht.trans hu) ht hstore hrunning (.inl hu)) ih

/-- A word ahead in the block keeps its value until it is fetched. -/
theorem SettlesCode.read32_ahead (h : SettlesCode init) (hs : Reaches init s)
    (hrunning : t.finished = false) (hahead : Ahead s t)
    (hread : Memory.read32 s.memory t.pc = .ok bytes) :
    Memory.read32 t.memory t.pc = .ok bytes := by
  induction hahead using Relation.ReflTransGen.head_induction_on with
  | refl => exact hread
  | @head s s₁ hstep hrest ih =>
    have hs₁ := hs.tail hstep.1
    have ht := hs₁.trans (reaches_of_inside hrest)
    exact ih hs₁ (hstep.1.read32_kept (fun T addr hstore =>
      h s t T addr hs ht hstore hrunning (.inr (.head hstep hrest))) hread)

/-- A word ahead in the block that is not zero was there when the block was entered. -/
theorem SettlesCode.read32_back (h : SettlesCode init) (hs : Reaches init s)
    (haligned : t.pc % kWordSize = 0#32) (hrunning : t.finished = false) (hahead : Ahead s t)
    (hnonzero : bytes ≠ 0#32) (hread : Memory.read32 t.memory t.pc = .ok bytes) :
    Memory.read32 s.memory t.pc = .ok bytes := by
  induction hahead using Relation.ReflTransGen.head_induction_on with
  | refl => exact hread
  | @head s s₁ hstep hrest ih =>
    have hs₁ := hs.tail hstep.1
    have ht := hs₁.trans (reaches_of_inside hrest)
    exact hstep.1.read32_was (fun T addr hstore =>
      h s t T addr hs ht hstore hrunning (.inr (.head hstep hrest))) haligned hnonzero (ih hs₁)

/-- A word that could not be read when the block was entered and now can is zero. -/
theorem SettlesCode.eq_zero_of_read32 (h : SettlesCode init) (hs : Reaches init s)
    (haligned : t.pc % kWordSize = 0#32) (hrunning : t.finished = false) (hahead : Ahead s t)
    {e : Exn} (hfails : Memory.read32 s.memory t.pc = .error e)
    (hread : Memory.read32 t.memory t.pc = .ok bytes) : bytes = 0#32 := by
  by_contra hnonzero
  cases hfails.symm.trans (h.read32_back hs haligned hrunning hahead hnonzero hread)

/-- What is fetched in `s` is the same in every later state and in every earlier one of the
same block. -/
theorem SettlesCode.read32_of_fetched (h : SettlesCode init) (hs : Reaches init s)
    (hrun : RunStep s s₁) (hread : Memory.read32 s.memory s.pc = .ok bytes)
    (ht : Reaches init t) (hwhen : Reaches s t ∨ Ahead t s) :
    Memory.read32 t.memory s.pc = .ok bytes := by
  rcases hwhen with hafter | hbefore
  · exact h.read32_after hs hrun.1 hafter hread
  · obtain ⟨haligned, bytes', insn, hread', hdecode, -⟩ := ExecEngine.exists_of_step_eq_ok hrun.2
    have hnonzero : bytes ≠ 0#32 := by
      rintro rfl
      cases hread.symm.trans hread'
      rw [decode_zero] at hdecode
      cases hdecode
    exact h.read32_back ht haligned hrun.1 hbefore hnonzero hread

end Words

/-! ### Blocks -/

section Blocks

variable [LawfulMemory μ] {init s₀ s s₁ s₂ t : CPUState μ} {singleStep : Bool}
  {insns : List Instruction} {e : Exn}

omit [LawfulMemory μ] in
/-- What comes after `s`, or before it in the block, does so from the next instruction too. -/
theorem StepsOver.after_or_ahead (h : StepsOver false s s₁) (hwhen : Reaches s t ∨ Ahead t s) :
    Reaches s₁ t ∨ Ahead t s₁ := by
  rcases hwhen with hafter | hbefore
  · rcases Relation.ReflTransGen.cases_head hafter with rfl | ⟨s₁', hfirst, hrest⟩
    · exact .inr (.single h)
    · rw [h.1.unique hfirst]
      exact .inl hrest
  · exact .inr (hbefore.tail h)

/-- From every unfinished state of a run that returns, the words ahead form a block, the same
one from the time the block was entered, and the run executes it as `interpretInsns` does. -/
theorem SettlesCode.exists_block_ahead (hsettled : SettlesCode init) (singleStep : Bool) {fuel : ℕ}
    {s' : CPUState μ} (hs : Reaches init s) (hrunning : s.finished = false)
    (hrun : Hart.runInterpreter (fuel + 1) s = some (.ok () s')) :
    ∃ insns s₂,
      (∀ t, Reaches init t → Reaches s t ∨ Ahead t s →
        IsBlockAt (Memory.read32 t.memory) singleStep s.pc insns) ∧
      (interpretInsns insns).run s = .ok () s₂ ∧ Reaches s s₂ ∧ insns.length ≤ fuel ∧
      Hart.runInterpreter fuel s₂ = some (.ok () s') := by
  induction fuel generalizing s with
  | zero =>
    obtain ⟨s₁, _, hrest⟩ := exists_of_whileNot_eq_ok hrunning hrun
    cases hrest
  | succ fuel ih =>
    obtain ⟨s₁, hbody, hrest⟩ := exists_of_whileNot_eq_ok hrunning hrun
    have hstep : RunStep s s₁ := ⟨hrunning, Option.some.inj hbody⟩
    obtain ⟨bytes, insn, last, hread, hdecode, hterm, hexec, hover⟩ := hstep.exists_stepsOver
    have hfetch := fun t => hsettled.read32_of_fetched (t := t) hs hstep hread
    -- a last instruction is a block of its own
    by_cases hlast : singleStep = true ∨ last = true
    · have hends := hlast.imp_right fun h => hterm.trans (congrArg Except.ok h)
      exact ⟨[insn], s₁, fun t ht hwhen => .last (hfetch t ht hwhen) hdecode hends, by
        simp [interpretInsns, hexec], .single hstep, by simp, hrest⟩
    · obtain ⟨hmore, rfl⟩ : singleStep = false ∧ last = false := by simpa using hlast
      obtain ⟨hpc, hfin⟩ := pc_of_inner hterm hexec
      -- any other falls through to the block that starts with the next word
      obtain ⟨insns, s₂, hblock, hinterp, hs₂, hlen, hrest'⟩ :=
        ih (hs.tail hstep) (hfin.trans hrunning) hrest
      refine ⟨insn :: insns, s₂, fun t ht hwhen => ?_, ?_, .head hstep hs₂, by simpa using hlen, ?_⟩
      · exact .cons (hfetch t ht hwhen) hdecode hmore hterm
          (hpc ▸ hblock t ht (hover.after_or_ahead hwhen))
      · rw [interpretInsns, List.forM_cons, run_seq_ok hexec]
        exact hinterp
      · exact whileNot_mono (Nat.le_succ fuel) (fun _ _ _ _ _ h => h) hrest'

/-- An instruction that was read when the block was entered is the one that is executed. -/
theorem SettlesCode.step_of_read32 (h : SettlesCode init) (hs₀ : Reaches init s₀)
    (hahead : Ahead s₀ s) (haligned : s.pc % kWordSize = 0#32) (hrunning : s.finished = false)
    {bytes : Word} {insn : Instruction} (hread : Memory.read32 s₀.memory s.pc = .ok bytes)
    (hdecode : decode bytes = some insn) :
    ExecEngine.step.run s = (executeCounted insn).run s ∧
      Memory.read32 s.memory s.pc = .ok bytes := by
  have hread' := h.read32_ahead hs₀ hrunning hahead hread
  exact ⟨ExecEngine.step_eq_executeCounted haligned hread' hdecode, hread'⟩

/-- A block that was collected when it was entered and is executed to its end is a part of the
run. -/
theorem IsBlockAt.reaches (hsettled : SettlesCode init)
    (haligned : FetchesAligned init) (hs₀ : Reaches init s₀)
    (hahead : Ahead s₀ s) (hrunning : s.finished = false)
    (hblock : IsBlockAt (Memory.read32 s₀.memory) singleStep s.pc insns)
    (hinterp : (interpretInsns insns).run s = .ok () s₂) :
    Reaches s s₂ ∧ ∀ t, Reaches init t → Reaches s t ∨ Ahead t s →
      IsBlockAt (Memory.read32 t.memory) singleStep s.pc insns := by
  induction insns generalizing s with
  | nil => exact absurd rfl hblock.ne_nil
  | cons insn insns ih =>
    have hs := hs₀.trans (reaches_of_inside hahead)
    rw [interpretInsns, List.forM_cons, run_seq_eq_ok] at hinterp
    obtain ⟨_, s₁, hexec, hrest⟩ := hinterp
    cases hblock with
    | last hread hdecode hlast =>
      cases hrest
      obtain ⟨hstep, hread'⟩ := hsettled.step_of_read32 hs₀ hahead (haligned s hs hrunning)
        hrunning hread hdecode
      have hrun : RunStep s s₂ := ⟨hrunning, hstep.trans hexec⟩
      exact ⟨.single hrun, fun t ht hwhen =>
        .last (hsettled.read32_of_fetched hs hrun hread' ht hwhen) hdecode hlast⟩
    | cons hread hdecode hmore hinner htail =>
      obtain ⟨hstep, hread'⟩ := hsettled.step_of_read32 hs₀ hahead (haligned s hs hrunning)
        hrunning hread hdecode
      have hrun : RunStep s s₁ := ⟨hrunning, hstep.trans hexec⟩
      have hover : StepsOver false s s₁ := ⟨hrun, _, insn, hread', hdecode, hinner⟩
      obtain ⟨hpc, hfin⟩ := pc_of_inner hinner hexec
      obtain ⟨hreach₂, hstable⟩ :=
        ih (hahead.tail hover) (hfin.trans hrunning) (hpc ▸ htail) hrest
      exact ⟨.head hrun hreach₂, fun t ht hwhen =>
        .cons (hsettled.read32_of_fetched hs hrun hread' ht hwhen) hdecode hmore hinner
          (hpc ▸ hstable t ht (hover.after_or_ahead hwhen))⟩

/-- A block that was collected when it was entered and raises does so in a state of the run. -/
theorem IsBlockAt.raisesAt (hsettled : SettlesCode init) (haligned : FetchesAligned init)
    (hs₀ : Reaches init s₀) (hahead : Ahead s₀ s) (hrunning : s.finished = false)
    (hblock : IsBlockAt (Memory.read32 s₀.memory) singleStep s.pc insns)
    (hinterp : (interpretInsns insns).run s = .error e s₂) :
    Reaches s s₂ ∧ RaisesAt s₂ e := by
  induction insns generalizing s with
  | nil => cases hinterp
  | cons insn insns ih =>
    have hs := hs₀.trans (reaches_of_inside hahead)
    obtain ⟨bytes, _, _, hcons, hread, hdecode, -⟩ := hblock.exists_eq_cons
    cases hcons
    obtain ⟨hstep, hread'⟩ := hsettled.step_of_read32 hs₀ hahead (haligned s hs hrunning)
      hrunning hread hdecode
    rw [interpretInsns, List.forM_cons, EStateM.run_bind] at hinterp
    cases hexec : (executeCounted insn).run s with
    | error e' s₁ =>
      rw [hexec] at hinterp
      cases hinterp
      obtain ⟨rfl, -⟩ := executeCounted_error hexec
      exact ⟨.refl, hrunning, hstep.trans hexec⟩
    | ok _ s₁ =>
      rw [hexec] at hinterp
      have hrun : RunStep s s₁ := ⟨hrunning, hstep.trans hexec⟩
      cases hblock with
      | last => cases hinterp
      | cons _ _ _ hinner htail =>
        have hover : StepsOver false s s₁ := ⟨hrun, bytes, insn, hread', hdecode, hinner⟩
        obtain ⟨hpc, hfin⟩ := pc_of_inner hinner hexec
        obtain ⟨hreach₂, hraises⟩ :=
          ih (hahead.tail hover) (hfin.trans hrunning) (hpc ▸ htail) hinterp
        exact ⟨.head hrun hreach₂, hraises⟩

/-- If a block cannot be collected, the run raises before the end of it. -/
theorem FaultsAt.raisesAt (hsettled : SettlesCode init) (haligned : FetchesAligned init)
    (hs₀ : Reaches init s₀) {a : Addr}
    (hfaults : FaultsAt (Memory.read32 s₀.memory) singleStep a e)
    (hahead : Ahead s₀ s) (hrunning : s.finished = false) (ha : a = s.pc) :
    ∃ s' e', Ahead s s' ∧ RaisesAt s' e' := by
  have hpc := haligned s (hs₀.trans (reaches_of_inside hahead)) hrunning
  induction hfaults generalizing s with subst ha
  | read hfails =>
    cases hread : Memory.read32 s.memory s.pc with
    | error e' => exact ⟨s, e', .refl, hrunning, ExecEngine.step_of_read_error hpc hread⟩
    | ok bytes =>
      -- the page is there by now, but nothing was stored in the word
      obtain rfl := hsettled.eq_zero_of_read32 hs₀ hpc hrunning hahead hfails hread
      exact ⟨s, _, .refl, hrunning, ExecEngine.step_of_decode_eq_none hpc hread decode_zero⟩
  | decode hread hdecode =>
    have hread' := hsettled.read32_ahead hs₀ hrunning hahead hread
    exact ⟨s, _, .refl, hrunning, ExecEngine.step_of_decode_eq_none hpc hread' hdecode⟩
  | @cons _ bytes insn e hread hdecode _ hinner _ ih =>
    obtain ⟨hstep, hread'⟩ := hsettled.step_of_read32 hs₀ hahead hpc hrunning hread hdecode
    cases hexec : (executeCounted insn).run s with
    | error e' s₁ =>
      obtain ⟨rfl, -⟩ := executeCounted_error hexec
      exact ⟨_, e', .refl, hrunning, hstep.trans hexec⟩
    | ok _ s₁ =>
      have hover : StepsOver false s s₁ :=
        ⟨⟨hrunning, hstep.trans hexec⟩, bytes, insn, hread', hdecode, hinner⟩
      obtain ⟨hnext, hfin⟩ := pc_of_inner hinner hexec
      have hahead₁ := hahead.tail hover
      obtain ⟨s', e', hinside, hraises⟩ := ih hahead₁ (hfin.trans hrunning) hnext.symm
        (haligned s₁ (hs₀.trans (reaches_of_inside hahead₁)) (hfin.trans hrunning))
      exact ⟨s', e', .head hover hinside, hraises⟩

end Blocks

end Prot
