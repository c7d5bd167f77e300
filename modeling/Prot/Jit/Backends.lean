import Prot.Jit.XByak
import Prot.Jit.AsmJit
import Prot.Jit.Lightning
import Prot.Jit.MIR
import Prot.Jit.IR
import Prot.Jit.LLVM
import Prot.JitEngine

/-!
# The backends side by side

What a caller sees of a translated block is the same kind of thing for every
backend: the host it comes back with, or an exception and the states in which
helpers were called. This file compares the backends on two things that the
interpreter does instruction by instruction and most of them do once per block:
counting instructions, and having the counter and `pc` in memory.

The one backend that counts as the interpreter does is a translator that the
engine can rely on for every block.
-/

namespace Prot

open Isa Interpreter Stateful

/-- The translators with an update of `icount` of their own; `llvm` stands for both
users of the builder. -/
inductive Backend where
  | xbyak | asmjit | lightning | mir | ir | llvm
  deriving DecidableEq

namespace Backend

/-- The access that updates `icount`. -/
def counter : Backend → Counter
  | asmjit | lightning | mir => .dword
  | xbyak | ir | llvm => .qword

section Calls

variable {μ : Type} [Memory μ]

/-- Calling the translation of `insns` on a host gives a result. All else that the
generated code runs on is arbitrary, as long as it gets the state pointer. -/
inductive Runs (insns : List Instruction) :
    Backend → Host μ → EStateM.Result Exn (Host μ) Unit → Prop
  | xbyak (pf : XByak.Platform μ) {code : XByak.Code} {m : XByak.Machine μ}
      (htranslate : XByak.translate pf.link insns = .ok code)
      (hentry : m.regs .p0 = pf.statePtr) :
      Runs insns .xbyak m.mem (visible (·.mem) ((pf.env.run code).run m))
  | asmjit (statePtr : BitVec 64) {code : AsmJit.Code} {m : AsmJit.Machine μ}
      (htranslate : AsmJit.translate insns = .ok code)
      (hentry : m.regs .state_ptr = statePtr) :
      Runs insns .asmjit m.mem (visible (·.mem) (((AsmJit.env statePtr).run code).run m))
  | lightning (pf : Lightning.Platform μ) {code : Lightning.Code} {m : Lightning.Machine μ}
      (htranslate : Lightning.translate insns = .ok code)
      (hentry : m.regs .V0 = pf.statePtr) :
      Runs insns .lightning m.mem (visible (·.mem) ((pf.env.run code).run m))
  | mir (statePtr : BitVec 64) {code : MIR.Code} {m : MIR.Machine μ}
      (htranslate : MIR.translate insns = .ok code)
      (hentry : m.regs .state_ptr = statePtr) :
      Runs insns .mir m.mem (visible (·.mem) (((MIR.env statePtr).run none code).run m))
  | ir {code : Builder BitVec Unit} {h : Host μ} (htranslate : IR.run insns = .ok code) :
      Runs insns .ir h ((IR.eval code).run h)
  | llvm {code : Builder BitVec Unit} {h : Host μ}
      (htranslate : LLVM.translate insns = .ok code) :
      Runs insns .llvm h ((LLVM.eval code).run h)

/-- How the backend executes one instruction. -/
def exec : Backend → Instruction → EStateM Exn (CPUState μ) Unit
  | ir => IR.executeStoringFirst
  | llvm => LLVM.executeInRange
  | _ => execute

/-- The state in memory, in a block that was entered at `entryPC`. -/
def stale (entryPC : Word) : Backend → CPUState μ → CPUState μ
  -- both keep `pc` out of memory until the block ends
  | mir | ir => (·.setPC entryPC)
  | _ => id

/-- What calling the translation of `insns` amounts to. -/
def meaning (b : Backend) (insns : List Instruction) (entryPC : Word) :
    EStateM Exn (Host μ) Unit :=
  -- the only backend that counts after each instruction
  if b = xbyak then forM insns (traced id executeCounted)
  else countedAtEnd b.counter (b.stale entryPC) b.exec insns

/-- A run of the code agrees with the meaning of the block. -/
theorem Runs.agrees {insns : List Instruction} (hblock : IsBlock insns) {b : Backend} {h : Host μ}
    {r : EStateM.Result Exn (Host μ) Unit} (hrun : Runs insns b h r)
    (hzero : h.cpu.getReg 0 = 0#32) : Agrees id r ((b.meaning insns h.cpu.pc).run h) := by
  have hdecoded := hblock.decoded
  cases hrun with
  | @xbyak pf code m htranslate hentry =>
    obtain ⟨_, htranslate', hrefines⟩ := XByak.translate_refines pf m.stack hdecoded
    cases htranslate.symm.trans htranslate'
    exact (Agrees.of_matches (hrefines _ ⟨hentry, rfl, hzero⟩)).visible
  | @asmjit statePtr code m htranslate hentry =>
    obtain ⟨_, htranslate', himplements⟩ :=
      AsmJit.translate_implements (μ := μ) statePtr m.stack hdecoded
    cases htranslate.symm.trans htranslate'
    exact (Agrees.of_matches (himplements _ ⟨hentry, rfl, hzero⟩)).visible
  | @lightning pf code m htranslate hentry =>
    obtain ⟨_, htranslate', himplements⟩ := Lightning.translate_implements pf hdecoded
    cases htranslate.symm.trans htranslate'
    exact (Agrees.of_matches (himplements _ ⟨hentry, hzero⟩)).visible
  | @mir statePtr code m htranslate hentry =>
    obtain ⟨_, htranslate', hagrees⟩ := MIR.translate_agrees (μ := μ) statePtr hdecoded
    cases htranslate.symm.trans htranslate'
    exact (hagrees m hentry hzero).visible
  | ir htranslate =>
    obtain ⟨_, htranslate', hagrees⟩ :=
      IR.run_agrees (μ := μ) hdecoded (hblock.length_le.trans_lt (by decide))
    cases htranslate.symm.trans htranslate'
    exact hagrees h hzero
  | llvm htranslate =>
    obtain ⟨_, htranslate', himplements⟩ := LLVM.translate_implements (μ := μ) hdecoded
    cases htranslate.symm.trans htranslate'
    exact Agrees.of_matches (himplements h trivial)

/-! ### Executing one instruction -/

theorem exec_icount (b : Backend) (insn : Instruction) (n : Icount) :
    Preserves (fun s : CPUState μ => s.icount = n) (b.exec insn) := by
  cases b with
  | ir => exact IR.executeStoringFirst_icount insn n
  | llvm => exact executeIf_preserves (execute_icount insn n)
  | xbyak | asmjit | lightning | mir => exact execute_icount insn n

theorem exec_getReg_zero (b : Backend) (insn : Instruction) (v : Word) :
    Preserves (fun s : CPUState μ => s.getReg 0 = v) (b.exec insn) := by
  cases b with
  | ir => exact IR.executeStoringFirst_getReg_zero insn v
  | llvm => exact executeIf_preserves (execute_getReg_zero insn v)
  | xbyak | asmjit | lightning | mir => exact execute_getReg_zero insn v

/-- The backends differ from the interpreter in jumps and shifts only. -/
theorem exec_of_callsHelper (b : Backend) {insn : Instruction}
    (hcalls : insn.opcode.callsHelper = true) (s : CPUState μ) :
    (b.exec insn).run s = (execute insn).run s := by
  obtain ⟨opcode, rs1, rs2, rd, imm⟩ := insn
  cases b with
  | ir =>
    rw [exec, IR.executeStoringFirst_of_ne]
    rintro rfl
    cases hcalls
  | llvm =>
    refine run_executeIf_of_pos fun hshift => ?_
    cases opcode <;> simp [LLVM.isRegisterShift] at hshift <;> cases hcalls
  | xbyak | asmjit | lightning | mir => rfl

/-! ### Counting -/

/-- A translated block that returns has updated the counter, by its length, and left
`x0` alone. -/
theorem Runs.of_ok {insns : List Instruction} (hblock : IsBlock insns) {b : Backend}
    {h h' : Host μ} (hrun : Runs insns b h (.ok () h')) (hzero : h.cpu.getReg 0 = 0#32) :
    h'.cpu.icount = b.counter.next insns.length h.cpu.icount ∧ h'.cpu.getReg 0 = 0#32 := by
  have hmeaning := (hrun.agrees hblock hzero).ok_abstract rfl
  rw [id, meaning] at hmeaning
  split at hmeaning
  · next hb =>
    subst hb
    rw [run_forM_traced] at hmeaning
    cases hinterp : (forM insns executeCounted).run h.cpu with
    | ok _ s =>
      rw [hinterp] at hmeaning
      cases hmeaning
      exact ⟨icount_of_interpretInsns hinterp,
        (interpretInsns_getReg_zero insns 0#32).ok hzero hinterp⟩
    | error e s =>
      rw [hinterp] at hmeaning
      cases hmeaning
  · rw [countedAtEnd, run_seq_eq_ok] at hmeaning
    obtain ⟨_, h₁, htraced, hcount⟩ := hmeaning
    rw [run_forM_traced] at htraced
    cases hexec : (forM insns b.exec).run h.cpu with
    | ok _ s =>
      rw [hexec] at htraced
      cases htraced
      cases hcount
      have hicount := (Preserves.forM insns fun insn _ => b.exec_icount insn h.cpu.icount).ok
        rfl hexec
      have hzero' := (Preserves.forM insns fun insn _ => b.exec_getReg_zero insn 0#32).ok
        hzero hexec
      exact ⟨by rw [CPUState.withIcount_icount, hicount], hzero'⟩
    | error e s =>
      rw [hexec] at htraced
      cases htraced

end Calls

/-- What executes a block. -/
inductive Tier where
  | interpreter
  | translated (b : Backend)
  deriving DecidableEq

/-- The counter can be moved on by `n` without a carry out of a `dword`, if the tier
moves it on by a `dword`. -/
def CounterFits (tier : Tier) (n : ℕ) (c : Icount) : Prop :=
  match tier with
  | .interpreter => True
  | .translated b => b.counter = .dword → c.toNat % 2 ^ 32 + n < 2 ^ 32

/-- The blocks of a run with what executes each of them. -/
abbrev Schedule := List (Tier × List Instruction)

/-- The number of instructions in a schedule. -/
def Schedule.size (schedule : Schedule) : ℕ := (schedule.map fun step => step.2.length).sum

theorem Schedule.size_cons (tier : Tier) (insns : List Instruction) (schedule : Schedule) :
    Schedule.size ((tier, insns) :: schedule) = insns.length + schedule.size := rfl

/-- Every step of a schedule that starts at the count `c` fits. -/
def Schedule.CountersFit : Schedule → Icount → Prop
  | [], _ => True
  | (tier, insns) :: schedule, c =>
    CounterFits tier insns.length c ∧ CountersFit schedule (c + BitVec.ofNat 64 insns.length)

section Runs

variable {μ : Type} [Memory μ]

/-- A block that returns, in one tier or another. -/
inductive Executes (insns : List Instruction) : Tier → CPUState μ → CPUState μ → Prop
  | interpreted {s s' : CPUState μ} (hinterp : (interpretInsns insns).run s = .ok () s') :
      Executes insns .interpreter s s'
  | called {b : Backend} {h h' : Host μ} (hrun : Runs insns b h (.ok () h')) :
      Executes insns (.translated b) h.cpu h'.cpu

/-- The states that a schedule leads to. -/
inductive MixedRun : Schedule → CPUState μ → CPUState μ → Prop
  | nil (s : CPUState μ) : MixedRun [] s s
  | cons {tier : Tier} {insns : List Instruction} {schedule : Schedule} {s s₁ s' : CPUState μ}
      (hblock : IsBlock insns) (hstep : Executes insns tier s s₁)
      (hrest : MixedRun schedule s₁ s') : MixedRun ((tier, insns) :: schedule) s s'

/-- A block keeps register 0 zero. -/
theorem Executes.getReg_zero {insns : List Instruction} (hblock : IsBlock insns) {tier : Tier}
    {s s' : CPUState μ} (hstep : Executes insns tier s s') (hzero : s.getReg 0 = 0#32) :
    s'.getReg 0 = 0#32 := by
  cases hstep with
  | interpreted hinterp => exact (interpretInsns_getReg_zero insns 0#32).ok hzero hinterp
  | called hrun => exact (hrun.of_ok hblock hzero).2

/-- One block is counted right exactly if the counter fits. -/
theorem Executes.icount_eq_iff {insns : List Instruction} (hblock : IsBlock insns) {tier : Tier}
    {s s' : CPUState μ} (hstep : Executes insns tier s s') (hzero : s.getReg 0 = 0#32) :
    s'.icount = s.icount + BitVec.ofNat 64 insns.length ↔
      CounterFits tier insns.length s.icount := by
  cases hstep with
  | interpreted hinterp => exact iff_of_true (icount_of_interpretInsns hinterp) trivial
  | @called b h h' hrun =>
    rw [(hrun.of_ok hblock hzero).1, CounterFits]
    cases b.counter with
    | dword =>
      rw [Counter.next_dword_eq_iff (hblock.length_le.trans_lt (by decide))]
      simp
    | qword => exact iff_of_true rfl nofun

/-- A run in which every counter fits has counted its instructions. -/
theorem MixedRun.icount_eq {schedule : Schedule} {s s' : CPUState μ}
    (hrun : MixedRun schedule s s') (hzero : s.getReg 0 = 0#32)
    (hfit : schedule.CountersFit s.icount) :
    s'.icount = s.icount + BitVec.ofNat 64 schedule.size := by
  induction hrun with
  | nil s => simp [Schedule.size]
  | @cons tier insns schedule s s₁ s' hblock hstep hrest ih =>
    have hicount := (hstep.icount_eq_iff hblock hzero).mpr hfit.1
    rw [ih (hstep.getReg_zero hblock hzero) (hicount ▸ hfit.2), hicount, Schedule.size_cons,
      BitVec.ofNat_add, BitVec.add_assoc]

/-- A translated block is counted right exactly if the counter fits, and a run in which
every counter fits reports the number of its instructions, whatever executed them. -/
theorem icount_of_mixedRun {s : CPUState μ} (hzero : s.getReg 0 = 0#32) :
    (∀ insns tier s', IsBlock insns → Executes insns tier s s' →
      (s'.icount = s.icount + BitVec.ofNat 64 insns.length ↔
        CounterFits tier insns.length s.icount)) ∧
    ∀ schedule s', MixedRun schedule s s' → schedule.CountersFit s.icount →
      s'.icount = s.icount + BitVec.ofNat 64 schedule.size :=
  ⟨fun _ _ _ hblock hstep => hstep.icount_eq_iff hblock hzero,
    fun _ _ hrun hfit => hrun.icount_eq hzero hfit⟩

end Runs

/-! ### A counter that does not fit -/

/-- A machine whose other registers hold junk. -/
def asmjitMachine (s : CPUState (PlainMemory 0#32 4096)) : AsmJit.Machine (PlainMemory 0#32 4096) :=
  { AsmJit.sampleMachine with mem := { cpu := s } }

/-- Where the interpreter returns, so does code that counts at the end. -/
theorem exists_runs_asmjit {insns : List Instruction} {s s' : CPUState (PlainMemory 0#32 4096)}
    (hblock : IsBlock insns) (hzero : s.getReg 0 = 0#32)
    (hinterp : (interpretInsns insns).run s = .ok () s') :
    ∃ h', Runs insns .asmjit { cpu := s } (.ok () h') := by
  obtain ⟨code, htranslate, himplements⟩ :=
    AsmJit.translate_implements (μ := PlainMemory 0#32 4096) 0x7000#64 [] hblock.decoded
  obtain ⟨m', hrun, -⟩ := himplements.ok (t := asmjitMachine s) ⟨rfl, rfl, hzero⟩
    (run_countedAtEnd .dword id hinterp)
  have hruns : Runs insns .asmjit (asmjitMachine s).mem _ := Runs.asmjit 0x7000#64 htranslate rfl
  rw [hrun] at hruns
  exact ⟨m'.mem, hruns⟩

/-- The sample block twice: interpreted, and then in a translation that counts in a `dword`. -/
theorem icount_sampleInsns :
    ∃ s', MixedRun [(.interpreter, sampleInsns), (.translated .asmjit, sampleInsns)]
      sampleGuest s' ∧ s'.icount = 6#64 := by
  have hblock := isBlock_sampleInsns
  obtain ⟨h', hcalled⟩ := exists_runs_asmjit (s := sampleResult) hblock rfl rfl
  have hrun : MixedRun [(.interpreter, sampleInsns), (.translated .asmjit, sampleInsns)]
      sampleGuest h'.cpu :=
    .cons hblock (.interpreted interpretInsns_sampleGuest)
      (.cons hblock (.called hcalled) (.nil _))
  exact ⟨h'.cpu, hrun,
    (icount_of_mixedRun rfl).2 _ _ hrun ⟨trivial, fun _ => by decide, trivial⟩⟩

/-- The sample guest after `2 ^ 32 - 1` instructions. -/
def longGuest : CPUState (PlainMemory 0#32 4096) := sampleGuest.withIcount 0xffffffff#64

/-- The carry out of the lower half is lost. -/
theorem icount_longGuest_ne :
    IsBlock sampleInsns ∧ longGuest.getReg 0 = 0#32 ∧
      ∃ s', Executes sampleInsns (.translated .asmjit) longGuest s' ∧
        s'.icount ≠ longGuest.icount + BitVec.ofNat 64 sampleInsns.length := by
  obtain ⟨h', hrun⟩ := exists_runs_asmjit (s := longGuest) isBlock_sampleInsns rfl rfl
  have hstep : Executes sampleInsns (.translated .asmjit) longGuest h'.cpu := .called hrun
  refine ⟨isBlock_sampleInsns, rfl, h'.cpu, hstep, fun h => ?_⟩
  have hfit := (hstep.icount_eq_iff isBlock_sampleInsns rfl).mp h
  exact absurd (hfit rfl) (by decide)

/-! ### The states that helpers see -/

section HelperStates

variable {μ : Type}

/-- A block without calls leaves no record. -/
theorem trace_eq_nil {stale : CPUState μ → CPUState μ}
    {exec : Instruction → EStateM Exn (CPUState μ) Unit} {insns : List Instruction}
    (hcalls : ∀ insn ∈ insns, insn.opcode.callsHelper = false) (s : CPUState μ) :
    trace stale exec insns s = [] := by
  induction insns generalizing s with
  | nil => rfl
  | cons insn insns ih =>
    rw [trace, hcalls insn List.mem_cons_self, if_neg Bool.false_ne_true, List.nil_append]
    -- with an exception the record ends, and it is empty already
    cases (exec insn).run s with
    | ok _ s' => exact ih (fun i hi => hcalls i (List.mem_cons_of_mem insn hi)) s'
    | error e s' => rfl

variable [Memory μ]

/-- A block that is counted at its end calls every helper with the counter of its start. -/
theorem icount_of_mem_trace (b : Backend) {entryPC : Word} {insns : List Instruction}
    {s cpu : CPUState μ} (hmem : cpu ∈ trace (b.stale entryPC) b.exec insns s) :
    cpu.icount = s.icount := by
  induction insns generalizing s with
  | nil => cases hmem
  | cons insn insns ih =>
    rw [trace, List.mem_append] at hmem
    rcases hmem with hhead | htail
    · split at hhead
      · rw [List.mem_singleton.mp hhead]
        cases b <;> rfl
      · cases hhead
    · cases hexec : (b.exec insn).run s with
      | ok _ s' =>
        rw [hexec] at htail
        rw [ih htail]
        exact (b.exec_icount insn s.icount).ok rfl hexec
      | error e s' =>
        rw [hexec] at htail
        cases htail

/-- An instruction that calls no helper returns. -/
theorem exists_run_execute_eq_ok {insn : Instruction} {k : InsnClass}
    (hk : insn.opcode.insnClass = some k) (hcalls : insn.opcode.callsHelper = false)
    (s : CPUState μ) : ∃ s', (execute insn).run s = .ok () s' := by
  rw [callsHelper_eq hk] at hcalls
  rw [execute_eq_effect hk]
  cases k with
  | load | store | ecall => cases hcalls
  | rr | ri | lui | auipc | branch | jal | jalr | nop => exact ⟨_, rfl⟩

/-- An instruction that returns has been counted. -/
theorem run_executeCounted_of_ok {insn : Instruction} {s s' : CPUState μ}
    (h : (execute insn).run s = .ok () s') :
    (executeCounted insn).run s = .ok () s'.incIcount := by
  rw [executeCounted, run_seq_ok h]
  rfl

/-- The interpreter reaches the first helper call of a block, having counted what
comes before it. -/
theorem exists_mem_interpretTrace {insns : List Instruction} (hdecoded : Decoded insns)
    (hcalls : ∃ insn ∈ insns, insn.opcode.callsHelper = true) (s : CPUState μ) :
    ∃ k < insns.length, ∃ cpu ∈ interpretTrace insns s,
      cpu.icount = s.icount + BitVec.ofNat 64 k := by
  induction insns generalizing s with
  | nil =>
    obtain ⟨_, hmem, -⟩ := hcalls
    cases hmem
  | cons insn insns ih =>
    -- the first call is here, or after an instruction that cannot raise
    cases hhead : insn.opcode.callsHelper with
    | true =>
      refine ⟨0, Nat.succ_pos _, s, ?_, by simp⟩
      simp [trace, hhead]
    | false =>
      obtain ⟨k, hk⟩ := hdecoded.insnClass insn List.mem_cons_self
      obtain ⟨s', hexec⟩ := exists_run_execute_eq_ok hk hhead s
      have hrest : ∃ i ∈ insns, i.opcode.callsHelper = true := by
        obtain ⟨i, hmem, hi⟩ := hcalls
        rcases List.mem_cons.mp hmem with rfl | hmem
        · rw [hhead] at hi
          cases hi
        · exact ⟨i, hmem, hi⟩
      obtain ⟨j, hj, cpu, hmem, hicount⟩ :=
        ih (fun i hi => hdecoded i (List.mem_cons_of_mem insn hi)) hrest s'.incIcount
      have hkeep : s'.icount = s.icount := (execute_icount insn s.icount).ok rfl hexec
      refine ⟨j + 1, Nat.succ_lt_succ hj, cpu, ?_, ?_⟩
      · rw [interpretTrace, trace, run_executeCounted_of_ok hexec]
        exact List.mem_append_right _ hmem
      · rw [hicount, CPUState.incIcount_icount, hkeep, BitVec.add_assoc, Nat.add_comm j,
          BitVec.ofNat_add]

/-- No helper is called after the first instruction of the block. -/
def CallsAtStart (insns : List Instruction) (s : CPUState μ) : Prop :=
  (∀ insn ∈ insns.tail, insn.opcode.callsHelper = false) ∨
    ∃ insn ∈ insns.head?, ∃ e s', (execute insn).run s = .error e s'

omit [Memory μ] in
/-- At the start of a block, `pc` is not stale. -/
theorem stale_self (b : Backend) (s : CPUState μ) : b.stale s.pc s = s := by
  cases b <;> rfl

/-- After the first instruction, the interpreter's counter is ahead. -/
theorem ne_interpretTrace {insns : List Instruction} (hdecoded : Decoded insns)
    (hlength : insns.length < 2 ^ 30)
    (hcalls : ∃ insn ∈ insns, insn.opcode.callsHelper = true) {s : CPUState μ} {c : Icount}
    (hicount : s.icount = c + 1#64) {record : List (CPUState μ)}
    (hrecord : ∀ cpu ∈ record, cpu.icount = c) : record ≠ interpretTrace insns s := by
  rintro rfl
  obtain ⟨k, hk, cpu, hmem, hcpu⟩ := exists_mem_interpretTrace hdecoded hcalls s
  rw [hrecord cpu hmem, hicount] at hcpu
  have hnat := congrArg BitVec.toNat hcpu
  rw [BitVec.toNat_add, BitVec.toNat_add, BitVec.toNat_ofNat, BitVec.toNat_ofNat] at hnat
  have hc := c.isLt
  omega

/-- The backend and the interpreter start with the same call, if the first instruction
is one. So what counts is the rest of the block. -/
theorem trace_eq_interpretTrace_iff (b : Backend) {insns : List Instruction}
    (hblock : IsBlock insns) (s : CPUState μ) :
    trace (b.stale s.pc) b.exec insns s = interpretTrace insns s ↔ CallsAtStart insns s := by
  have hlength := hblock.length_le
  have hdecoded := hblock.decoded
  cases insns with
  | nil => exact iff_of_true rfl (.inl nofun)
  | cons insn insns =>
    -- everything that the backend records has the count of the start
    have hrecord : ∀ cpu ∈ trace (b.stale s.pc) b.exec (insn :: insns) s, cpu.icount = s.icount :=
      fun cpu hmem => b.icount_of_mem_trace hmem
    rw [trace] at hrecord
    rw [interpretTrace, trace, trace, stale_self, id, List.append_cancel_left_eq, CallsAtStart,
      List.tail_cons, List.head?_cons]
    cases hexec : (execute insn).run s with
    | error e s' =>
      -- only a helper can raise
      have hcalls : insn.opcode.callsHelper = true := by
        obtain ⟨k, hk⟩ := hdecoded.insnClass insn List.mem_cons_self
        by_contra hno
        obtain ⟨_, hok⟩ := exists_run_execute_eq_ok hk (Bool.not_eq_true _ ▸ hno) s
        cases hexec.symm.trans hok
      have hcounted : (executeCounted insn).run s = .error e s' := run_seq_error hexec
      rw [b.exec_of_callsHelper hcalls, hexec, hcounted]
      exact iff_of_true rfl (.inr ⟨insn, rfl, e, s', hexec⟩)
    | ok _ s' =>
      rw [run_executeCounted_of_ok hexec]
      change _ = interpretTrace insns s'.incIcount ↔ _
      constructor
      · intro heq
        refine .inl fun i hi => ?_
        -- a later call would be recorded with a count of the interpreter
        by_contra hcalls
        have hicount : s'.incIcount.icount = s.icount + 1#64 := by
          rw [CPUState.incIcount_icount, (execute_icount insn s.icount).ok rfl hexec]
        exact ne_interpretTrace (fun i hi => hdecoded i (List.mem_cons_of_mem insn hi))
          (Nat.lt_of_succ_le hlength) ⟨i, hi, by simpa using hcalls⟩ hicount
          (fun cpu hmem => hrecord cpu (List.mem_append_right _ hmem)) heq
      · rintro (hcalls | ⟨_, ⟨⟩, e, s'', herror⟩)
        · rw [interpretTrace, trace_eq_nil hcalls]
          cases (b.exec insn).run s with
          | ok _ s'' => exact trace_eq_nil hcalls s''
          | error e s'' => rfl
        · cases hexec.symm.trans herror

/-- The helpers were called in the states of the trace. -/
theorem Runs.calls_eq {insns : List Instruction} (hblock : IsBlock insns) {b : Backend}
    (hb : b ≠ .xbyak) {s : CPUState μ} (hzero : s.getReg 0 = 0#32)
    {r : EStateM.Result Exn (Host μ) Unit} (hrun : Runs insns b { cpu := s } r) :
    (finalState r).calls = trace (b.stale s.pc) b.exec insns s := by
  have hcalls := (hrun.agrees hblock hzero).calls_eq
  rwa [meaning, if_neg hb, calls_countedAtEnd, List.nil_append] at hcalls

/-- A translated block calls its helpers in the states in which the interpreter reaches
the calls exactly if it has none after its first instruction. -/
theorem calls_eq_iff {insns : List Instruction} (hblock : IsBlock insns) {b : Backend}
    (hb : b ≠ .xbyak) {s : CPUState μ} (hzero : s.getReg 0 = 0#32)
    {r : EStateM.Result Exn (Host μ) Unit} (hrun : Runs insns b { cpu := s } r) :
    (finalState r).calls = interpretTrace insns s ↔ CallsAtStart insns s := by
  rw [hrun.calls_eq hblock hb hzero, trace_eq_interpretTrace_iff b hblock s]

end HelperStates

theorem calls_sampleInsns :
    ∃ h', Runs sampleInsns .asmjit { cpu := sampleGuest } (.ok () h') ∧
      (h'.calls = interpretTrace sampleInsns sampleGuest ↔
        CallsAtStart sampleInsns sampleGuest) := by
  obtain ⟨h', hrun⟩ := exists_runs_asmjit isBlock_sampleInsns rfl interpretInsns_sampleGuest
  exact ⟨h', hrun, calls_eq_iff isBlock_sampleInsns (by decide) rfl hrun⟩

theorem not_callsAtStart_sampleInsns : ¬ CallsAtStart sampleInsns sampleGuest := by
  rintro (hcalls | ⟨_, ⟨⟩, e, s', herror⟩)
  · exact absurd (hcalls _ List.mem_cons_self) (by decide)
  · cases herror

/-- The store and the `ECALL` find the counter that the block started with. -/
theorem calls_sampleInsns_ne :
    IsBlock sampleInsns ∧ sampleGuest.getReg 0 = 0#32 ∧
      ∃ h', Runs sampleInsns .asmjit { cpu := sampleGuest } (.ok () h') ∧
        h'.calls ≠ interpretTrace sampleInsns sampleGuest := by
  obtain ⟨h', hrun⟩ := exists_runs_asmjit isBlock_sampleInsns rfl interpretInsns_sampleGuest
  refine ⟨isBlock_sampleInsns, rfl, h', hrun, fun h => not_callsAtStart_sampleInsns ?_⟩
  rw [← trace_eq_interpretTrace_iff .asmjit isBlock_sampleInsns, ← h]
  exact (hrun.calls_eq isBlock_sampleInsns (by decide) rfl).symm

end Backend

/-! ### XByak in the engine -/

namespace XByak

variable {μ : Type} [Memory μ] (pf : Platform μ) (junk : Machine μ)

/-- The machine at a call of generated code: the state pointer is the argument, and
everything else is as `junk` has it. -/
def Platform.enter (s : CPUState μ) : Machine μ :=
  (junk.set64 .p0 pf.statePtr).setMem { cpu := s }

/-- Generated code as the function that the engine calls. -/
def Platform.jitFunction (code : Code) : JitFunction μ := fun s =>
  match visible (·.mem) ((pf.env.run code).run (pf.enter junk s)) with
  | .ok _ h => .ok () h.cpu
  | .error e h => .error e h.cpu

/-- The translator, as the engine sees it. -/
def Platform.translator : Translator Unit μ := fun info => do
  let code ← Stateful.ofExcept (translate pf.link info.insns)
  return some (pf.jitFunction junk code)

/-- The engine may rely on this backend for every block. -/
theorem blockCorrect_translator : JitEngine.BlockCorrect (pf.translator junk) := by
  intro info ts hblock
  obtain ⟨code, htranslate, hrefines⟩ := translate_refines pf junk.stack hblock.decoded
  refine ⟨pf.jitFunction junk code, ts, ?_, fun s s' hzero hinterp => ?_⟩
  · rw [Platform.translator, htranslate]
    rfl
  have hentry : (pf.enter junk s).regs .p0 = pf.statePtr := by
    simp [Platform.enter]
  have htraced : (forM info.insns (traced id executeCounted)).run (pf.enter junk s).mem =
      .ok () { cpu := s', calls := interpretTrace info.insns s } := by
    rw [run_forM_traced]
    exact congrArg (Host.outcome _) hinterp
  obtain ⟨m', hrun, hhost, -⟩ :=
    hrefines.ok (t := pf.enter junk s) ⟨hentry, rfl, hzero⟩ htraced
  change (match visible (·.mem) ((pf.env.run code).run (pf.enter junk s)) with
    | .ok _ h => EStateM.Result.ok () h.cpu
    | .error e h => .error e h.cpu) = _
  rw [hrun, visible, hhost]

end XByak

end Prot
