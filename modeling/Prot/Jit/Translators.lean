import Prot.Jit.Backends

/-!
# The backends as translators of the engine

The engine calls the code of a block as a function on the `CPUState`. Where interpreting
the block returns, that function returns in the same state but for the counter, and where
interpreting it raises, so does the function. The exceptions are the instructions that a
backend gets wrong: register shifts by 32 or more in the function that LLVM compiles, and
a `JALR` over its own base in the graph of `ir`.

## Main definitions

* `Backend.Respects`: the backend gets the instruction right
* `Backend.Calls`, `Backend.Translates`: what a function, and a translator, may rely on

## Main results

* `Runs.of_ok_interpretInsns`, `Runs.of_error_interpretInsns`: what calling a translation
  gives
* `translates_translatorOf`: every backend is a translator
-/

namespace Prot

open Isa Interpreter Stateful

/-- What the caller of generated code gets back of the host. An exception of a helper is taken
to pass through the frames of the generated code to the caller, as it does where the host can
unwind them. -/
def Host.returned {μ : Type} :
    EStateM.Result Exn (Host μ) Unit → EStateM.Result Exn (CPUState μ) Unit
  | .ok _ h => .ok () h.cpu
  | .error e h => .error e h.cpu

namespace Backend

variable {μ : Type}

/-- The backend does in `s` what the interpreter does. -/
def Respects (b : Backend) (insn : Instruction) (s : CPUState μ) : Prop :=
  match b with
  | ir => IR.LinkHarmless insn s
  | llvm => LLVM.ShiftInRange insn s
  | _ => True

/-- The counter is not what an instruction is executed by. -/
theorem respects_withIcount {b : Backend} {insn : Instruction} {s : CPUState μ} (n : Icount) :
    b.Respects insn (s.withIcount n) ↔ b.Respects insn s := by
  cases b <;> exact Iff.rfl

variable [Memory μ]

/-! ### Blocks that the backend respects -/

section Respected

variable {b : Backend} {insns : List Instruction} {s s' : CPUState μ}

/-- An instruction that a backend respects does what the interpreter does. The target of a `jalr`
is the one that is computed before the link is stored. -/
theorem exec_of_respects {insn : Instruction} (hwf : insn.WellFormed) (h : b.Respects insn s) :
    (b.exec insn).run s = (execute insn).run s := by
  cases b with
  | ir =>
    by_cases hopcode : insn.opcode = .kJALR
    · have hk : insn.opcode.insnClass = some .jalr := by rw [hopcode]; rfl
      obtain ⟨target, htarget, hiff⟩ := IR.jalrStoringFirst_eq hwf s hopcode
      rw [exec, IR.executeStoringFirst, if_pos hopcode, EStateM.run_modify, htarget,
        execute_eq_effect hk, hiff.mpr h]
      rfl
    · rw [exec, IR.executeStoringFirst_of_ne hopcode]
  | llvm => exact run_executeIf_of_pos h
  | xbyak | asmjit | lightning | mir => rfl

/-- A block that a backend respects does what the interpreter does. -/
theorem run_forM_exec (hdecoded : Decoded insns) (h : Along b.Respects insns s) :
    (forM insns b.exec).run s = (forM insns execute).run s := by
  induction insns generalizing s with
  | nil => rfl
  | cons insn insns ih =>
    have hexec := b.exec_of_respects (hdecoded.wellFormed insn List.mem_cons_self) h.1
    rw [List.forM_cons, List.forM_cons, EStateM.run_bind, EStateM.run_bind, hexec]
    cases hrun : (execute insn).run s with
    | error e s₁ => rfl
    | ok _ s₁ =>
      exact ih (fun i hi => hdecoded i (List.mem_cons_of_mem insn hi))
        ((along_cons_of_ok hrun).mp h).2

/-- Where the interpreter returns, the meaning of the translation does. -/
theorem meaning_of_ok (hdecoded : Decoded insns) (h : Along b.Respects insns s)
    (hinterp : (interpretInsns insns).run s = .ok () s') :
    ∃ calls, (b.meaning insns s.pc).run { cpu := s } =
      .ok () { cpu := s'.withIcount (b.counter.next insns.length s.icount), calls } := by
  rw [meaning]
  split
  · next hb =>
    subst hb
    rw [run_forM_traced]
    change ∃ calls, Host.outcome _ ((interpretInsns insns).run s) = _
    rw [hinterp]
    have hicount : s'.icount = Counter.next insns.length s.icount xbyak.counter :=
      icount_of_interpretInsns hinterp
    rw [← hicount]
    exact ⟨_, rfl⟩
  · have hexec := (run_forM_exec hdecoded h).trans (run_forM_execute hinterp)
    rw [run_countedAtEnd_of_ok b.counter (b.stale s.pc) hexec, CPUState.withIcount_withIcount,
      CPUState.withIcount_icount]
    exact ⟨_, rfl⟩

/-- Where the interpreter raises, the meaning of the translation does. -/
theorem meaning_of_error (hdecoded : Decoded insns) (h : Along b.Respects insns s) {e : Exn}
    (hinterp : (interpretInsns insns).run s = .error e s') :
    ∃ host, (b.meaning insns s.pc).run { cpu := s } = .error e host := by
  rw [meaning]
  split
  · rw [run_forM_traced]
    change ∃ host, Host.outcome _ ((interpretInsns insns).run s) = _
    rw [hinterp]
    exact ⟨_, rfl⟩
  · have hexec := (run_forM_exec hdecoded h).trans (run_forM_execute_error hinterp)
    have htraced := run_forM_traced (b.stale s.pc) b.exec insns { cpu := s }
    rw [hexec] at htraced
    exact ⟨_, run_seq_error htraced⟩

end Respected

/-- Calling the translation of a block that the interpreter executes to its end. -/
theorem Runs.of_ok_interpretInsns {insns : List Instruction} (hblock : IsBlock insns) {b : Backend}
    {s s' : CPUState μ} {r : EStateM.Result Exn (Host μ) Unit}
    (hrun : Runs insns b { cpu := s } r) (hzero : s.getReg 0 = 0#32)
    (h : Along b.Respects insns s) (hinterp : (interpretInsns insns).run s = .ok () s') :
    ∃ host, r = .ok () host ∧
      host.cpu = s'.withIcount (b.counter.next insns.length s.icount) := by
  obtain ⟨calls, hmeaning⟩ := meaning_of_ok hblock.decoded h hinterp
  obtain ⟨host, hr, hhost⟩ := (hrun.agrees hblock hzero).ok hmeaning
  exact ⟨host, hr, congrArg Host.cpu hhost⟩

/-- Calling the translation of a block that the interpreter raises over. -/
theorem Runs.of_error_interpretInsns {insns : List Instruction} (hblock : IsBlock insns)
    {b : Backend} {s s' : CPUState μ} {r : EStateM.Result Exn (Host μ) Unit} {e : Exn}
    (hrun : Runs insns b { cpu := s } r) (hzero : s.getReg 0 = 0#32)
    (h : Along b.Respects insns s) (hinterp : (interpretInsns insns).run s = .error e s') :
    ∃ host, r = .error e host := by
  obtain ⟨host, hmeaning⟩ := meaning_of_error hblock.decoded h hinterp
  exact (hrun.agrees hblock hzero).error hmeaning

/-! ### Translators -/

/-- The function calls the translation of a block. -/
def Calls (b : Backend) (insns : List Instruction) (code : JitFunction μ) : Prop :=
  ∀ s, ∃ r, Runs insns b { cpu := s } r ∧ code.run s = Host.returned r

/-- In every state of its own, the translator returns a function that calls what the backend
emits for the block. -/
def Translates {τ : Type} (b : Backend) (translate : Translator τ μ) : Prop :=
  ∀ info ts, IsBlock info.insns → ∃ code ts', (translate info).run ts = .ok (some code) ts' ∧
    b.Calls info.insns code

section Calls

variable {b : Backend} {insns : List Instruction} {code : JitFunction μ} {s s' : CPUState μ}

/-- Code for a block that the interpreter runs to its end does so too, but for its own count. -/
theorem Calls.of_ok (hcode : b.Calls insns code) (hblock : IsBlock insns)
    (hzero : s.getReg 0 = 0#32) (h : Along b.Respects insns s)
    (hinterp : (interpretInsns insns).run s = .ok () s') :
    code.run s = .ok () (s'.withIcount (b.counter.next insns.length s.icount)) := by
  obtain ⟨r, hrun, hreturned⟩ := hcode s
  obtain ⟨host, rfl, hhost⟩ := hrun.of_ok_interpretInsns hblock hzero h hinterp
  rw [hreturned, Host.returned, hhost]

/-- Code for a block in which the interpreter raises does so too. -/
theorem Calls.of_error (hcode : b.Calls insns code) (hblock : IsBlock insns)
    (hzero : s.getReg 0 = 0#32) (h : Along b.Respects insns s) {e : Exn}
    (hinterp : (interpretInsns insns).run s = .error e s') :
    ∃ s'', code.run s = .error e s'' := by
  obtain ⟨r, hrun, hreturned⟩ := hcode s
  obtain ⟨host, rfl⟩ := hrun.of_error_interpretInsns hblock hzero h hinterp
  exact ⟨host.cpu, hreturned⟩

end Calls

/-- A translator from what a backend emits, and from how the code is called. -/
def translatorOf {C : Type} (translate : List Instruction → Except Exn C)
    (call : C → CPUState μ → EStateM.Result Exn (Host μ) Unit) : Translator Unit μ := fun info => do
  let code ← Stateful.ofExcept (translate info.insns)
  return some fun s => Host.returned (call code s)

/-- A translator whose code runs as the backend says. -/
theorem translates_translatorOf {b : Backend} {C : Type}
    {translate : List Instruction → Except Exn C}
    {call : C → CPUState μ → EStateM.Result Exn (Host μ) Unit}
    (htranslate : ∀ insns, IsBlock insns → ∃ code, translate insns = .ok code)
    (hcall : ∀ insns code s, translate insns = .ok code → Runs insns b { cpu := s } (call code s)) :
    b.Translates (translatorOf translate call) := by
  intro info ts hblock
  obtain ⟨code, hcode⟩ := htranslate info.insns hblock
  refine ⟨fun s => Host.returned (call code s), ts, ?_, fun s => ?_⟩
  · rw [translatorOf, hcode]
    rfl
  · exact ⟨call code s, hcall info.insns code s hcode, rfl⟩

end Backend

/-! ### The six translators

The state pointer is an argument of the generated function. The other registers hold
whatever they held, as `junk` has it. -/

open Backend

variable {μ : Type} [Memory μ]

theorem XByak.translates_translator (pf : XByak.Platform μ) (junk : XByak.Machine μ) :
    xbyak.Translates (pf.translator junk) := by
  have hcall : ∀ insns code s, XByak.translate pf.link insns = .ok code →
      Runs insns xbyak { cpu := s }
        (visible (·.mem) ((pf.env.run code).run (pf.enter junk s))) := by
    intro insns code s hcode
    have hentry : (pf.enter junk s).regs .p0 = pf.statePtr := by simp [XByak.Platform.enter]
    exact Runs.xbyak pf hcode hentry
  refine translates_translatorOf (fun insns hblock => ?_) hcall
  obtain ⟨code, hcode, -⟩ := XByak.translate_refines pf junk.stack hblock.decoded
  exact ⟨code, hcode⟩

namespace AsmJit

variable (statePtr : BitVec 64) (junk : Machine μ)

/-- The translator, as the engine sees it. -/
def translator : Translator Unit μ :=
  translatorOf translate fun code s => visible (·.mem) (((env statePtr).run code).run
    ((junk.set64 .state_ptr statePtr).setMem { cpu := s }))

theorem translates_translator : asmjit.Translates (translator statePtr junk) := by
  refine translates_translatorOf (fun insns hblock => ?_) fun insns code s hcode => ?_
  · obtain ⟨code, hcode, -⟩ := translate_implements (μ := μ) statePtr junk.stack hblock.decoded
    exact ⟨code, hcode⟩
  · have hentry : ((junk.set64 .state_ptr statePtr).setMem { cpu := s }).regs .state_ptr =
        statePtr := by simp
    exact Runs.asmjit statePtr hcode hentry

end AsmJit

namespace Lightning

variable (pf : Platform μ) (junk : Machine μ)

/-- The translator, as the engine sees it. -/
def Platform.translator : Translator Unit μ :=
  translatorOf translate fun code s => visible (·.mem) ((pf.env.run code).run
    ((junk.set .V0 pf.statePtr).setMem { cpu := s }))

theorem translates_translator : lightning.Translates (pf.translator junk) := by
  refine translates_translatorOf (fun insns hblock => ?_) fun insns code s hcode => ?_
  · obtain ⟨code, hcode, -⟩ := translate_implements pf hblock.decoded
    exact ⟨code, hcode⟩
  · have hentry : ((junk.set .V0 pf.statePtr).setMem { cpu := s }).regs .V0 = pf.statePtr := by simp
    exact Runs.lightning pf hcode hentry

end Lightning

namespace MIR

variable (statePtr : BitVec 64) (junk : Machine μ)

/-- The translator, as the engine sees it. -/
def translator : Translator Unit μ :=
  translatorOf translate fun code s => visible (·.mem) (((env statePtr).run none code).run
    ((junk.set .state_ptr statePtr).setMem { cpu := s }))

theorem translates_translator : mir.Translates (translator statePtr junk) := by
  refine translates_translatorOf (fun insns hblock => ?_) fun insns code s hcode => ?_
  · obtain ⟨code, hcode, -⟩ := translate_agrees (μ := μ) statePtr hblock.decoded
    exact ⟨code, hcode⟩
  · have hentry : ((junk.set .state_ptr statePtr).setMem { cpu := s }).regs .state_ptr =
        statePtr := by simp
    exact Runs.mir statePtr hcode hentry

end MIR

/-- `IRJit`. -/
def IR.translator : Translator Unit μ :=
  translatorOf IR.run fun code s => (IR.eval code).run { cpu := s }

theorem IR.translates_translator : ir.Translates (IR.translator (μ := μ)) := by
  refine translates_translatorOf (fun insns hblock => ?_) fun insns code s hcode => ?_
  · obtain ⟨code, hcode, -⟩ :=
      IR.run_agrees (μ := μ) hblock.decoded (hblock.length_le.trans_lt (by decide))
    exact ⟨code, hcode⟩
  · exact Runs.ir hcode

/-- `LLVMBasedJIT` and `TPDEJit`, which compile the same function. -/
def LLVM.translator : Translator Unit μ :=
  translatorOf LLVM.translate fun code s => (LLVM.eval code).run { cpu := s }

theorem LLVM.translates_translator : llvm.Translates (LLVM.translator (μ := μ)) := by
  refine translates_translatorOf (fun insns hblock => ?_) fun insns code s hcode => ?_
  · obtain ⟨code, hcode, -⟩ := LLVM.translate_implements (μ := μ) hblock.decoded
    exact ⟨code, hcode⟩
  · exact Runs.llvm hcode

end Prot
