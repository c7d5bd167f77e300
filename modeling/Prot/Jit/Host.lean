import Prot.BasicBlock
import Prot.PlainMemory

/-!
# Generated code and its host

Generated code works on the `CPUState` it is given a pointer to, field by field,
and calls C++ helpers for memory accesses and system calls. `Host` is that
state, with a record of the states the helpers were called in.

`traced` is the interpreter under the same record. Every backend is proved to
refine `forM insns (traced …)`; what the record holds where a backend keeps
some field out of memory is its parameter `stale`.
-/

namespace Prot

open Isa Interpreter Stateful

/-- Loads, stores and `ECALL` are translated to calls. -/
def InsnClass.callsHelper : InsnClass → Bool
  | .load _ _ | .store _ | .ecall => true
  | _ => false

/-- The opcodes for which code calls a helper: loads, stores and `ecall`. -/
def Isa.Opcode.callsHelper (opc : Opcode) : Bool := opc.insnClass.any (·.callsHelper)

/-- The CPU that generated code works on, and the record of its calls. -/
structure Host (μ : Type) where
  cpu : CPUState μ
  /-- The states that helpers were called in, oldest first. -/
  calls : List (CPUState μ) := []

/-- A field of `CPUState`, at the width of the access. -/
inductive Field : ℕ → Type where
  | reg (id : ℕ) : Field 32
  | pc : Field 32
  | icount : Field 64
  /-- `icount` accessed as a `dword`. -/
  | icountLow : Field 32

namespace Field

variable {μ : Type}

/-- The value of a field. -/
def load {w : ℕ} : Field w → CPUState μ → BitVec w
  | reg id, cpu => cpu.getReg id
  | pc, cpu => cpu.pc
  | icount, cpu => cpu.icount
  | icountLow, cpu => cpu.icount.setWidth 32

/-- Writes a field. The upper half of the counter stays in place if its lower half is written. -/
def store {w : ℕ} : Field w → BitVec w → CPUState μ → CPUState μ
  | reg id, v, cpu => cpu.putReg id v
  | pc, v, cpu => cpu.setPC v
  | icount, v, cpu => cpu.withIcount v
  -- the upper half stays in place
  | icountLow, v, cpu => cpu.withIcount (((cpu.icount >>> 32) <<< 32) ||| v.setWidth 64)

end Field

namespace Host

variable {μ : Type}

/-- A result of the CPU, on a host with the given record. -/
def outcome (calls : List (CPUState μ)) :
    EStateM.Result Exn (CPUState μ) Unit → EStateM.Result Exn (Host μ) Unit
  | .ok _ cpu => .ok () { cpu, calls }
  | .error e cpu => .error e { cpu, calls }

/-- Runs a computation of the CPU on the host. -/
def onCpu (x : EStateM Exn (CPUState μ) Unit) : EStateM Exn (Host μ) Unit := fun h =>
  outcome h.calls (x.run h.cpu)

/-- Reads a field of the CPU. -/
def load {w : ℕ} (field : Field w) (h : Host μ) : BitVec w := field.load h.cpu

/-- Writes a field of the CPU. -/
def store {w : ℕ} (field : Field w) (v : BitVec w) (h : Host μ) : Host μ :=
  { h with cpu := field.store v h.cpu }

@[simp] theorem load_reg (id : ℕ) (h : Host μ) : load (.reg id) h = h.cpu.getReg id := rfl

@[simp] theorem load_pc (h : Host μ) : load .pc h = h.cpu.pc := rfl

@[simp] theorem load_icount (h : Host μ) : load .icount h = h.cpu.icount := rfl

@[simp] theorem store_pc (v : Word) (h : Host μ) :
    store .pc v h = { h with cpu := h.cpu.setPC v } := rfl

@[simp] theorem store_icount (v : Icount) (h : Host μ) :
    store .icount v h = { h with cpu := h.cpu.withIcount v } := rfl

/-- A store guarded against `x0` is `setReg`. -/
theorem setReg_eq_store {rd : Operand} (hrd : rd ≠ 0#8) (v : Word) (h : Host μ) :
    store (.reg rd.toNat) v h = { h with cpu := h.cpu.setReg rd.toNat v } := by
  have hne : rd.toNat ≠ 0 := fun h => hrd (BitVec.eq_of_toNat_eq h)
  rw [CPUState.setReg_of_ne _ _ hne]
  rfl

/-- Records a call in the state `cpu`. -/
def record (cpu : CPUState μ) (h : Host μ) : Host μ := { h with calls := h.calls ++ [cpu] }

end Host

/-! ### Helpers -/

/-- The functions that generated code calls. -/
inductive Helper where
  | load (T : MemTy)
  | store (T : MemTy)
  | syscall
  deriving DecidableEq

section Helpers

variable {μ : Type} [Memory μ]

/-- Reads from guest memory. -/
def Host.loadHelper (T : MemTy) (addr : Addr) : EStateM Exn (Host μ) (BitVec T.bits) := do
  modify fun h => h.record h.cpu
  let h ← get
  Stateful.ofExcept (Memory.read T h.cpu.memory addr)

/-- Writes to guest memory. -/
def Host.storeHelper (T : MemTy) (addr : Addr) (val : BitVec T.bits) :
    EStateM Exn (Host μ) Unit := do
  modify fun h => h.record h.cpu
  let h ← get
  let memory ← Stateful.ofExcept (Memory.write T h.cpu.memory addr val)
  set { h with cpu := { h.cpu with memory } }

/-- Makes the system call. -/
def Host.syscallHelper : EStateM Exn (Host μ) Unit := do
  modify fun h => h.record h.cpu
  let h ← get
  let cpu ← Stateful.ofExcept h.cpu.emulateSysCall
  set { h with cpu }

/-- A call from machine code, where arguments and result are 32-bit registers: a
narrower argument is truncated, a narrower result zero-extended. -/
def Helper.call : Helper → Addr → Word → EStateM Exn (Host μ) (Option Word)
  | .load T, addr, _ => do
    let v ← Host.loadHelper T addr
    return some (v.setWidth 32)
  | .store T, addr, val => do
    Host.storeHelper T addr (val.setWidth T.bits)
    return none
  | .syscall, _, _ => do
    Host.syscallHelper
    return none

/-- A call with 64-bit arguments, the first of which is the state pointer. -/
def Helper.callArgs (statePtr : BitVec 64) (helper : Helper) (args : List (BitVec 64)) :
    EStateM Exn (Host μ) (Option (BitVec 64)) := do
  let argument (k : ℕ) : Word := ((args[k]?).getD 0#64).setWidth 32
  -- a helper given anything else would follow a wild pointer
  if args.head? = some statePtr then
    let ret ← helper.call (argument 1) (argument 2)
    return ret.map (·.setWidth 64)
  else throw .undefinedBehaviour

/-- A helper given the CPU first is called with the two words that follow. -/
theorem run_callArgs (statePtr : BitVec 64) (helper : Helper) (args : List (BitVec 64))
    (h : Host μ) :
    (helper.callArgs statePtr (statePtr :: args)).run h =
      match (helper.call (((args[0]?).getD 0#64).setWidth 32)
        (((args[1]?).getD 0#64).setWidth 32)).run h with
      | .ok ret h => .ok (ret.map (·.setWidth 64)) h
      | .error e h => .error e h := by
  simp only [Helper.callArgs, List.head?_cons, if_true, List.getElem?_cons_succ,
    EStateM.run_bind]
  cases (helper.call (((args[0]?).getD 0#64).setWidth 32)
    (((args[1]?).getD 0#64).setWidth 32)).run h <;> rfl

section Calls

variable (T : MemTy) (addr : Addr) (val : Word) (h : Host μ)

/-- A load gives what memory holds, and it leaves the CPU alone. -/
theorem run_loadHelper :
    (Host.loadHelper T addr).run h =
      match Memory.read T h.cpu.memory addr with
      | .ok v => .ok v (h.record h.cpu)
      | .error e => .error e (h.record h.cpu) := by
  simp only [Host.loadHelper]
  cases hread : Memory.read T h.cpu.memory addr <;> simp [Host.record, hread]

/-- A store writes memory, and nothing if it raises. -/
theorem run_storeHelper (val : BitVec T.bits) :
    (Host.storeHelper T addr val).run h =
      match Memory.write T h.cpu.memory addr val with
      | .ok memory => .ok () { h.record h.cpu with cpu := { h.cpu with memory } }
      | .error e => .error e (h.record h.cpu) := by
  simp only [Host.storeHelper]
  cases hwrite : Memory.write T h.cpu.memory addr val <;> simp [Host.record, hwrite]

omit [Memory μ] in
/-- A system call does what the CPU does. -/
theorem run_syscallHelper :
    Host.syscallHelper.run h =
      match h.cpu.emulateSysCall with
      | .ok cpu => .ok () { h.record h.cpu with cpu }
      | .error e => .error e (h.record h.cpu) := by
  simp only [Host.syscallHelper]
  cases hcall : h.cpu.emulateSysCall <;> simp [Host.record, hcall]

theorem run_call_load :
    ((Helper.load T).call addr val).run h =
      match Memory.read T h.cpu.memory addr with
      | .ok v => .ok (some (v.setWidth 32)) (h.record h.cpu)
      | .error e => .error e (h.record h.cpu) := by
  rw [Helper.call, EStateM.run_bind, run_loadHelper]
  cases Memory.read T h.cpu.memory addr <;> rfl

theorem run_call_store :
    ((Helper.store T).call addr val).run h =
      match Memory.write T h.cpu.memory addr (val.setWidth T.bits) with
      | .ok memory => .ok none { h.record h.cpu with cpu := { h.cpu with memory } }
      | .error e => .error e (h.record h.cpu) := by
  rw [Helper.call, EStateM.run_bind, run_storeHelper]
  cases Memory.write T h.cpu.memory addr (val.setWidth T.bits) <;> rfl

theorem run_call_syscall :
    (Helper.syscall.call addr val).run h =
      match h.cpu.emulateSysCall with
      | .ok cpu => .ok none { h.record h.cpu with cpu }
      | .error e => .error e (h.record h.cpu) := by
  rw [Helper.call, EStateM.run_bind, run_syscallHelper]
  cases h.cpu.emulateSysCall <;> rfl

end Calls

end Helpers

/-! ### The interpreter under the record -/

section Traced

variable {μ : Type} (stale : CPUState μ → CPUState μ)
  (exec : Instruction → EStateM Exn (CPUState μ) Unit)

/-- Executes an instruction, and records the state it starts in, seen through
`stale`, if it is one that calls a helper. -/
def traced (insn : Instruction) : EStateM Exn (Host μ) Unit := do
  -- recorded before the instruction runs, as it may raise
  if insn.opcode.callsHelper then
    modify fun h => h.record (stale h.cpu)
  Host.onCpu (exec insn)

/-- The states in which executing a block reaches the instructions that call a helper. -/
def trace : List Instruction → CPUState μ → List (CPUState μ)
  | [], _ => []
  | insn :: insns, s =>
    (if insn.opcode.callsHelper then [stale s] else []) ++
      match (exec insn).run s with
      | .ok _ s' => trace insns s'
      | .error _ _ => []

/-- An instruction that is traced extends the record by the state it would call a helper in. -/
theorem run_traced (insn : Instruction) (h : Host μ) :
    (traced stale exec insn).run h =
      Host.outcome (h.calls ++ if insn.opcode.callsHelper then [stale h.cpu] else [])
        ((exec insn).run h.cpu) := by
  by_cases hcalls : insn.opcode.callsHelper = true
  · rw [traced, if_pos hcalls, if_pos hcalls, EStateM.run_bind, EStateM.run_modify]
    rfl
  · rw [traced, if_neg hcalls, if_neg hcalls, List.append_nil]
    rfl

/-- The record of a run is the trace, and nothing else differs from the plain run. -/
theorem run_forM_traced (insns : List Instruction) (h : Host μ) :
    (forM insns (traced stale exec)).run h =
      Host.outcome (h.calls ++ trace stale exec insns h.cpu) ((forM insns exec).run h.cpu) := by
  induction insns generalizing h with
  | nil => simp [trace, Host.outcome]
  | cons insn insns ih =>
    rw [List.forM_cons, List.forM_cons, EStateM.run_bind, EStateM.run_bind, run_traced, trace]
    cases (exec insn).run h.cpu with
    | error e s' => simp [Host.outcome]
    | ok _ s' =>
      simp only [Host.outcome, ih, ← List.append_assoc]

end Traced

section TracedExecute

variable {μ : Type} [Memory μ] {insn : Instruction} {h : Host μ}

/-- The states in which the interpreter reaches the helper calls of a block. -/
abbrev interpretTrace : List Instruction → CPUState μ → List (CPUState μ) :=
  trace id executeCounted

/-- Whether an opcode calls a helper depends on its class. -/
theorem callsHelper_eq {k : InsnClass} (hk : insn.opcode.insnClass = some k) :
    insn.opcode.callsHelper = k.callsHelper := by
  rw [Opcode.callsHelper, hk, Option.any_some]

/-- The traced interpreter, read through the classes. -/
theorem traced_eq_effect {k : InsnClass} (hk : insn.opcode.insnClass = some k)
    (stale : CPUState μ → CPUState μ) :
    (traced stale execute insn).run h =
      Host.outcome (h.calls ++ if k.callsHelper then [stale h.cpu] else [])
        (k.effect insn h.cpu) := by
  rw [run_traced, callsHelper_eq hk, execute_eq_effect hk]

/-- What calls no helper leaves the record alone. -/
theorem traced_of_not_callsHelper {k : InsnClass} (hk : insn.opcode.insnClass = some k)
    (hcalls : k.callsHelper = false) (stale : CPUState μ → CPUState μ) :
    (traced stale execute insn).run h = Host.outcome h.calls (k.effect insn h.cpu) := by
  rw [traced_eq_effect hk, hcalls, if_neg Bool.false_ne_true, List.append_nil]

/-- Counting an instruction comes after everything else it does. -/
theorem traced_executeCounted (stale : CPUState μ → CPUState μ) (insn : Instruction) :
    traced stale executeCounted insn =
      (traced stale execute insn >>= fun _ =>
        modify fun h => { h with cpu := h.cpu.incIcount }) := by
  funext h
  change (traced stale executeCounted insn).run h = EStateM.run (_ >>= _) h
  rw [EStateM.run_bind, run_traced, run_traced, executeCounted, EStateM.run_bind]
  cases (execute insn).run h.cpu <;> rfl

end TracedExecute

/-! ### Counting at the end

Every backend but one counts the instructions of a block at once, after the last of them. -/

/-- The width of the access to `icount`. -/
inductive Counter where
  | dword | qword
  deriving DecidableEq

/-- The counter after `n` more instructions. A `dword` access leaves the upper half alone. -/
def Counter.next (n : ℕ) (c : Icount) : Counter → Icount
  | .dword => ((c >>> 32) <<< 32) ||| (c.setWidth 32 + BitVec.ofNat 32 n).setWidth 64
  | .qword => c + BitVec.ofNat 64 n

theorem Counter.toNat_next_dword {n : ℕ} (c : Icount) :
    (Counter.next n c .dword).toNat =
      c.toNat / 2 ^ 32 * 2 ^ 32 + (c.toNat % 2 ^ 32 + n) % 2 ^ 32 := by
  have hc := c.isLt
  have hlow : ((c.setWidth 32 + BitVec.ofNat 32 n).setWidth 64).toNat =
      (c.toNat % 2 ^ 32 + n) % 2 ^ 32 := by
    rw [BitVec.toNat_setWidth_of_le (by decide), BitVec.toNat_add, BitVec.toNat_setWidth,
      BitVec.toNat_ofNat, Nat.add_mod_mod]
  have hhigh : ((c >>> 32) <<< 32).toNat = (c.toNat / 2 ^ 32) <<< 32 := by
    rw [BitVec.toNat_shiftLeft, BitVec.toNat_ushiftRight, Nat.shiftRight_eq_div_pow,
      Nat.shiftLeft_eq, Nat.mod_eq_of_lt (by omega)]
  rw [Counter.next, BitVec.toNat_or, hlow, hhigh,
    ← Nat.shiftLeft_add_eq_or_of_lt (Nat.mod_lt _ (by decide)), Nat.shiftLeft_eq]

/-- Without a carry, the lower half can be counted alone. -/
theorem Counter.next_dword_eq_iff {n : ℕ} (hn : n < 2 ^ 32) {c : Icount} :
    Counter.next n c .dword = c + BitVec.ofNat 64 n ↔ c.toNat % 2 ^ 32 + n < 2 ^ 32 := by
  have hc := c.isLt
  rw [← BitVec.toNat_inj, toNat_next_dword, BitVec.toNat_add, BitVec.toNat_ofNat]
  omega

/-- A count whose upper half does not change has no carry. -/
theorem Counter.next_eq_of_same_half {n : ℕ} (hn : n < 2 ^ 32) {c : Icount} (counter : Counter)
    (h : (c + BitVec.ofNat 64 n).toNat / 2 ^ 32 = c.toNat / 2 ^ 32) :
    counter.next n c = c + BitVec.ofNat 64 n := by
  cases counter with
  | qword => rfl
  | dword =>
    rw [next_dword_eq_iff hn]
    have hc := c.isLt
    rw [BitVec.toNat_add, BitVec.toNat_ofNat] at h
    omega

/-- Two counts that a counter cannot tell apart. -/
def Counter.Agrees (c c' : Icount) : Counter → Prop
  | .dword => c.setWidth 32 = c'.setWidth 32
  | .qword => c = c'

theorem Counter.agrees_refl (counter : Counter) (c : Icount) : counter.Agrees c c := by
  cases counter <;> rfl

theorem Counter.Agrees.add {counter : Counter} {c c' : Icount} (h : counter.Agrees c c')
    (n : Icount) : counter.Agrees (c + n) (c' + n) := by
  cases counter with
  | dword =>
    change (c + n).setWidth 32 = (c' + n).setWidth 32
    have hlow : c.setWidth 32 = c'.setWidth 32 := h
    have hle : 32 ≤ 64 := by decide
    rw [BitVec.setWidth_add c n hle, BitVec.setWidth_add c' n hle, hlow]
  | qword => exact congrArg (· + n) h

/-- Both move on, one by the instructions and one by the block. -/
theorem Counter.Agrees.next {counter : Counter} {c c' : Icount} (h : counter.Agrees c c')
    (n : ℕ) : counter.Agrees (c + BitVec.ofNat 64 n) (counter.next n c') := by
  cases counter with
  | dword =>
    have hlow := congrArg BitVec.toNat h
    rw [BitVec.toNat_setWidth, BitVec.toNat_setWidth] at hlow
    refine BitVec.eq_of_toNat_eq ?_
    rw [BitVec.toNat_setWidth, BitVec.toNat_setWidth, toNat_next_dword, BitVec.toNat_add,
      BitVec.toNat_ofNat]
    omega
  | qword => exact congrArg (· + BitVec.ofNat 64 n) h

section CountedAtEnd

variable {μ : Type}

/-- Executes a block under the record, then counts its instructions. -/
def countedAtEnd (counter : Counter) (stale : CPUState μ → CPUState μ)
    (exec : Instruction → EStateM Exn (CPUState μ) Unit) (insns : List Instruction) :
    EStateM Exn (Host μ) Unit := do
  forM insns (traced stale exec)
  modify fun h => { h with cpu := h.cpu.withIcount (counter.next insns.length h.cpu.icount) }

/-- Where executing a block returns, so does counting it at the end. -/
theorem run_countedAtEnd_of_ok {exec : Instruction → EStateM Exn (CPUState μ) Unit}
    {insns : List Instruction} {s s' : CPUState μ} (counter : Counter)
    (stale : CPUState μ → CPUState μ) (hexec : (forM insns exec).run s = .ok () s') :
    (countedAtEnd counter stale exec insns).run { cpu := s } =
      .ok () { cpu := s'.withIcount (counter.next insns.length s'.icount)
               calls := trace stale exec insns s } := by
  have htraced : (forM insns (traced stale exec)).run { cpu := s } =
      .ok () { cpu := s', calls := trace stale exec insns s } := by
    rw [run_forM_traced, hexec]
    rfl
  rw [countedAtEnd, run_seq_ok htraced]
  rfl

/-- Counting at the end leaves the record alone. -/
theorem calls_countedAtEnd (counter : Counter) (stale : CPUState μ → CPUState μ)
    (exec : Instruction → EStateM Exn (CPUState μ) Unit) (insns : List Instruction) (h : Host μ) :
    (finalState ((countedAtEnd counter stale exec insns).run h)).calls =
      h.calls ++ trace stale exec insns h.cpu := by
  rw [countedAtEnd, EStateM.run_bind, run_forM_traced]
  cases (forM insns exec).run h.cpu <;> rfl

/-- Where the interpreter returns, so does a block counted at the end, and only the
counter may differ. -/
theorem run_countedAtEnd [Memory μ] {insns : List Instruction} {s s' : CPUState μ}
    (counter : Counter) (stale : CPUState μ → CPUState μ)
    (hinterp : (interpretInsns insns).run s = .ok () s') :
    (countedAtEnd counter stale execute insns).run { cpu := s } =
      .ok () { cpu := s'.withIcount (counter.next insns.length s.icount)
               calls := trace stale execute insns s } := by
  rw [run_countedAtEnd_of_ok counter stale (run_forM_execute hinterp),
    CPUState.withIcount_withIcount, CPUState.withIcount_icount]

end CountedAtEnd

/-! ### What a caller sees -/

/-- The caller of generated code sees the host that it returns with; of an exception
that escapes, only the record. -/
inductive Agrees {μ τ : Type} (mem : τ → Host μ) :
    EStateM.Result Exn τ Unit → EStateM.Result Exn (Host μ) Unit → Prop
  | returned {t : τ} {h : Host μ} (same : mem t = h) : Agrees mem (.ok () t) (.ok () h)
  | raised {e : Exn} {t : τ} {h : Host μ} (same : (mem t).calls = h.calls) :
      Agrees mem (.error e t) (.error e h)

section Agrees

variable {μ τ : Type} {mem : τ → Host μ} {r : EStateM.Result Exn τ Unit}
  {r' : EStateM.Result Exn (Host μ) Unit}

theorem Agrees.of_matches {inv : τ → Prop} (h : Matches mem inv r r') : Agrees mem r r' := by
  cases h with
  | returned same _ => exact .returned same
  | raised same => exact .raised (congrArg _ same)

/-- The record does not depend on how the code ended. -/
theorem Agrees.calls_eq (h : Agrees mem r r') :
    (mem (finalState r)).calls = (finalState r').calls := by
  cases h with
  | returned same => exact congrArg _ same
  | raised same => exact same

/-- A result, with nothing of the machine but the host. -/
def visible (mem : τ → Host μ) :
    EStateM.Result Exn τ Unit → EStateM.Result Exn (Host μ) Unit
  | .ok _ t => .ok () (mem t)
  | .error e t => .error e (mem t)

theorem finalState_visible (mem : τ → Host μ) (r : EStateM.Result Exn τ Unit) :
    finalState (visible mem r) = mem (finalState r) := by
  cases r <;> rfl

/-- What agrees still agrees when only the host is looked at. -/
theorem Agrees.visible (h : Agrees mem r r') : Agrees id (visible mem r) r' := by
  cases h with
  | returned same => exact .returned same
  | raised same => exact .raised same

/-- If the code returns, so does what it stands for. -/
theorem Agrees.ok_abstract {t : τ} (hagrees : Agrees mem r r') (hr : r = .ok () t) :
    r' = .ok () (mem t) := by
  subst hr
  cases hagrees with
  | returned same => rw [same]

/-- If what it stands for returns, so does the code. -/
theorem Agrees.ok {h : Host μ} (hagrees : Agrees mem r r') (hr : r' = .ok () h) :
    ∃ t, r = .ok () t ∧ mem t = h := by
  subst hr
  cases hagrees with
  | returned same => exact ⟨_, rfl, same⟩

/-- If what it stands for raises, so does the code. -/
theorem Agrees.error {e : Exn} {h : Host μ} (hagrees : Agrees mem r r') (hr : r' = .error e h) :
    ∃ t, r = .error e t := by
  subst hr
  cases hagrees with
  | raised _ => exact ⟨_, rfl⟩

end Agrees

/-! ### Stores that spare `x0` -/

/-- Any field but register 0. -/
def Field.NotZero : {w : ℕ} → Field w → Prop
  | _, reg id => id ≠ 0
  | _, _ => True

/-- A guard on the operand is a guard on the number of the register. -/
@[simp] theorem Field.notZero_reg {rd : Operand} :
    (Field.reg rd.toNat).NotZero ↔ rd ≠ 0#8 :=
  not_congr ⟨fun h => BitVec.eq_of_toNat_eq h, congrArg _⟩

@[simp] theorem Field.notZero_pc : Field.pc.NotZero := trivial

@[simp] theorem Field.notZero_icount : Field.icount.NotZero := trivial

@[simp] theorem Field.notZero_icountLow : Field.icountLow.NotZero := trivial

namespace Host

variable {μ : Type}

/-- `x0` is zero, now and in every state that a helper was called in. -/
structure ZeroReg (h : Host μ) : Prop where
  cpu : h.cpu.getReg 0 = 0#32
  calls : ∀ cpu ∈ h.calls, cpu.getReg 0 = 0#32

/-- A store away from register 0 keeps it zero. -/
theorem ZeroReg.store {h : Host μ} (hzero : h.ZeroReg) {w : ℕ} {field : Field w}
    (hfield : field.NotZero) (v : BitVec w) : (h.store field v).ZeroReg := by
  refine ⟨?_, hzero.calls⟩
  rw [← hzero.cpu]
  cases field with
  | reg id =>
    change (h.cpu.putReg id v).getReg 0 = h.cpu.getReg 0
    rw [← CPUState.setReg_of_ne _ _ hfield, CPUState.getReg_zero_setReg]
  | pc | icount | icountLow => rfl

theorem ZeroReg.record {h : Host μ} (hzero : h.ZeroReg) : (h.record h.cpu).ZeroReg where
  cpu := hzero.cpu
  calls cpu hmem := by
    rcases List.mem_append.mp hmem with hmem | hmem
    · exact hzero.calls cpu hmem
    · rw [List.mem_singleton.mp hmem]
      exact hzero.cpu

variable [Memory μ] {h : Host μ}

theorem ZeroReg.loadHelper (hzero : h.ZeroReg) (T : MemTy) (addr : Addr) :
    (finalState ((loadHelper T addr).run h)).ZeroReg := by
  rw [run_loadHelper]
  cases Memory.read T h.cpu.memory addr <;> exact hzero.record

theorem ZeroReg.storeHelper (hzero : h.ZeroReg) (T : MemTy) (addr : Addr) (val : BitVec T.bits) :
    (finalState ((storeHelper T addr val).run h)).ZeroReg := by
  rw [run_storeHelper]
  cases Memory.write T h.cpu.memory addr val with
  | ok memory => exact ⟨hzero.cpu, hzero.record.calls⟩
  | error e => exact hzero.record

omit [Memory μ] in
theorem ZeroReg.syscallHelper (hzero : h.ZeroReg) :
    (finalState (syscallHelper.run h)).ZeroReg := by
  rw [run_syscallHelper]
  cases hcall : h.cpu.emulateSysCall with
  | ok cpu =>
    refine ⟨?_, hzero.record.calls⟩
    rw [CPUState.emulateSysCall_ok hcall]
    exact hzero.cpu
  | error e => exact hzero.record

/-- No helper touches `x0`. -/
theorem ZeroReg.call (hzero : h.ZeroReg) (helper : Helper) (addr : Addr) (val : Word) :
    (finalState ((helper.call addr val).run h)).ZeroReg := by
  cases helper with
  | load T => exact inv_finalState_bind _ (hzero.loadHelper T addr) fun _ _ => id
  | store T => exact inv_finalState_bind _ (hzero.storeHelper T addr _) fun _ _ => id
  | syscall => exact inv_finalState_bind _ hzero.syscallHelper fun _ _ => id

/-- A call of any helper keeps register 0 zero. -/
theorem ZeroReg.callArgs (hzero : h.ZeroReg) (statePtr : BitVec 64) (helper : Helper)
    (args : List (BitVec 64)) : (finalState ((helper.callArgs statePtr args).run h)).ZeroReg := by
  rw [Helper.callArgs]
  split
  · exact inv_finalState_bind _ (hzero.call helper _ _) fun _ _ => id
  · exact hzero

end Host

/-! ### A sample block -/

/-- `addi x1, x0, 5; sw x1, 8(x0); ecall`. -/
def sampleInsns : List Instruction :=
  [{ opcode := .kADDI, rd := 1#8, imm := 5#32 },
    { opcode := .kSW, rs2 := 1#8, imm := 8#32 },
    { opcode := .kECALL }]

/-- `addi x1, x0, 5`, `sw x1, 8(x0)`, and `ecall` from there on. -/
def sampleCode (a : Addr) : Except Exn Word :=
  if a = 0#32 then .ok 0x00500093#32
  else if a = 4#32 then .ok 0x00102423#32
  else .ok 0x00000073#32

theorem isBlock_sampleInsns : IsBlock sampleInsns := ⟨sampleCode, false, 3, 0#32, rfl⟩

/-- About to call `exit(7)`, with zeroed memory. -/
def sampleGuest : CPUState (PlainMemory 0#32 4096) :=
  ({ memory := {} } : CPUState _).setReg 17 93#32 |>.setReg 10 7#32

/-- The CPU after the block. -/
def sampleResult : CPUState (PlainMemory 0#32 4096) :=
  finalState ((interpretInsns sampleInsns).run sampleGuest)

theorem interpretInsns_sampleGuest :
    (interpretInsns sampleInsns).run sampleGuest = .ok () sampleResult := rfl

end Prot
