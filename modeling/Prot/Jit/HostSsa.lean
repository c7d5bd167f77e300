import Prot.Jit.Host
import Prot.Lib.Ssa

/-!
# SSA code on the host

Two of the backends build SSA code. Its effects are loads and stores through
the state pointer, and calls of helpers, with arguments and results as wide as
the helpers declare them.
-/

namespace Prot

open Isa Stateful Ssa

/-- The effects, over the names `V` of values. -/
inductive StateOp (V : ℕ → Type) : Option ℕ → Type
  | load {w : ℕ} (field : Field w) : StateOp V (some w)
  /-- Loads the low bytes of a register. -/
  | loadLow (T : MemTy) (id : ℕ) : StateOp V (some T.bits)
  | store {w : ℕ} (field : Field w) (val : V w) : StateOp V none
  | callLoad (T : MemTy) (addr : V 32) : StateOp V (some T.bits)
  | callStore (T : MemTy) (addr : V 32) (val : V T.bits) : StateOp V none
  | callSyscall : StateOp V none

/-- Code that is built against the CPU. -/
abbrev Builder (V : ℕ → Type) (α : Type) := Code StateOp V α

/-- The register array has 32 elements. -/
def Field.InBounds {w : ℕ} : Field w → Prop
  | reg id => id < 32
  | _ => True

instance {w : ℕ} : (field : Field w) → Decidable field.InBounds
  | .reg id => inferInstanceAs (Decidable (id < 32))
  | .pc | .icount | .icountLow => inferInstanceAs (Decidable True)

section Handle

variable {μ : Type} [Memory μ]

/-- What the operations do to the host. -/
def StateOp.handle : {r : Option ℕ} → StateOp BitVec r → EStateM Exn (Host μ) (Ret BitVec r)
  | _, load field => do
    -- an access outside the array of registers is undefined
    let h ← get
    if field.InBounds then pure (h.load field) else throw .undefinedBehaviour
  | _, loadLow T id => do
    let h ← get
    if id < 32 then pure ((h.cpu.getReg id).setWidth T.bits) else throw .undefinedBehaviour
  | _, store field val =>
    if field.InBounds then modify fun h => h.store field val else throw .undefinedBehaviour
  | _, callLoad T addr => Host.loadHelper T addr
  | _, callStore T addr val => Host.storeHelper T addr val
  | _, callSyscall => Host.syscallHelper

/-- The meaning of SSA code, under a rule for shifts. -/
def ssaEnv (shift : ShiftRule) : Ssa.Env StateOp (Host μ) Exn where
  shift := shift
  poison := .poison
  handle := StateOp.handle

end Handle

namespace Builder

section Build

variable {V : ℕ → Type} {v w : ℕ}

/-- A constant. -/
def const (val : BitVec w) : Builder V (V w) := Code.emit (.const val)

/-- An operation on two values. -/
def bin (op : BinOp) (lhs rhs : V w) : Builder V (V w) := Code.emit (.bin op lhs rhs)

/-- A comparison. -/
def icmp (pred : Pred) (lhs rhs : V w) : Builder V (V 1) := Code.emit (.icmp pred lhs rhs)

/-- One of two values. -/
def select (cond : V 1) (ifTrue ifFalse : V w) : Builder V (V w) :=
  Code.emit (.select cond ifTrue ifFalse)

/-- Extends a value with zeros. -/
def zext (w : ℕ) (val : V v) : Builder V (V w) := Code.emit (.zext val)

/-- Extends the sign of a value. -/
def sext (w : ℕ) (val : V v) : Builder V (V w) := Code.emit (.sext val)

/-- Keeps the lower bits of a value. -/
def trunc (w : ℕ) (val : V v) : Builder V (V w) := Code.emit (.trunc val)

/-- Loads a field. -/
def load (field : Field w) : Builder V (V w) := Code.perform (StateOp.load field)

/-- Loads the lower bits of a register. -/
def loadLow (T : MemTy) (id : ℕ) : Builder V (V T.bits) := Code.perform (StateOp.loadLow T id)

/-- Stores to a field. -/
def store (field : Field w) (val : V w) : Builder V Unit := Code.perform (StateOp.store field val)

/-- Calls a load helper. -/
def callLoad (T : MemTy) (addr : V 32) : Builder V (V T.bits) :=
  Code.perform (StateOp.callLoad T addr)

/-- Calls a store helper. -/
def callStore (T : MemTy) (addr : V 32) (val : V T.bits) : Builder V Unit :=
  Code.perform (StateOp.callStore T addr val)

/-- Calls the system call helper. -/
def callSyscall : Builder V Unit := Code.perform StateOp.callSyscall

end Build

/-! ### Rules -/

section Rules

variable {μ : Type} [Memory μ] {shift : ShiftRule} {h : Host μ} {T : MemTy} {addr : Addr}
  {v w : ℕ} {lhs rhs : BitVec w}

@[simp] theorem eval_const : (ssaEnv (μ := μ) shift).eval (const lhs) = pure lhs :=
  Env.eval_emit ..

@[simp] theorem eval_add :
    (ssaEnv (μ := μ) shift).eval (bin .add lhs rhs) = pure (lhs + rhs) :=
  Env.eval_emit ..

@[simp] theorem eval_and :
    (ssaEnv (μ := μ) shift).eval (bin .and lhs rhs) = pure (lhs &&& rhs) :=
  Env.eval_emit ..

@[simp] theorem eval_icmp {pred : Pred} :
    (ssaEnv (μ := μ) shift).eval (icmp pred lhs rhs) =
      pure (BitVec.ofBool (pred.holds lhs rhs)) :=
  Env.eval_emit ..

@[simp] theorem eval_select {cond : Bool} :
    (ssaEnv (μ := μ) shift).eval (select (BitVec.ofBool cond) lhs rhs) =
      pure (if cond then lhs else rhs) :=
  (Env.eval_emit ..).trans Env.evalRhs_select

@[simp] theorem eval_zext : (ssaEnv (μ := μ) shift).eval (zext v lhs) = pure (lhs.setWidth v) :=
  Env.eval_emit ..

@[simp] theorem eval_sext : (ssaEnv (μ := μ) shift).eval (sext v lhs) = pure (lhs.signExtend v) :=
  Env.eval_emit ..

@[simp] theorem eval_trunc :
    (ssaEnv (μ := μ) shift).eval (trunc v lhs) = pure (lhs.setWidth v) :=
  Env.eval_emit ..

theorem run_bin {op : BinOp} {val : BitVec w} (hop : op.eval shift lhs rhs = some val) :
    ((ssaEnv shift).eval (bin op lhs rhs)).run h = .ok val h := by
  rw [bin, Env.eval_emit, Env.evalRhs_bin_of_eq_some hop]
  rfl

theorem run_bin_poison {op : BinOp} (hop : op.eval shift lhs rhs = none) :
    ((ssaEnv shift).eval (bin op lhs rhs)).run h = .error .poison h := by
  rw [bin, Env.eval_emit, Env.evalRhs_bin_of_eq_none hop]
  rfl

theorem run_load (field : Field w) (hfield : field.InBounds) :
    ((ssaEnv shift).eval (load field)).run h = .ok (h.load field) h := by
  rw [load, Env.eval_perform]
  change (StateOp.load field).handle.run h = _
  simp only [StateOp.handle, if_pos hfield]
  rfl

theorem run_loadLow {id : ℕ} (hid : id < 32) :
    ((ssaEnv shift).eval (loadLow T id)).run h = .ok ((h.cpu.getReg id).setWidth T.bits) h := by
  rw [loadLow, Env.eval_perform]
  change (StateOp.loadLow T id).handle.run h = _
  simp only [StateOp.handle, if_pos hid]
  rfl

theorem run_store (field : Field w) (hfield : field.InBounds) :
    ((ssaEnv shift).eval (store field lhs)).run h = .ok () (h.store field lhs) := by
  rw [store, Env.eval_perform]
  change (StateOp.store field lhs).handle.run h = _
  simp only [StateOp.handle, if_pos hfield]
  rfl

theorem run_callLoad :
    ((ssaEnv shift).eval (callLoad T addr)).run h =
      match Memory.read T h.cpu.memory addr with
      | .ok v => .ok v (h.record h.cpu)
      | .error e => .error e (h.record h.cpu) := by
  rw [callLoad, Env.eval_perform]
  exact run_loadHelper T addr h

theorem run_callStore {val : BitVec T.bits} :
    ((ssaEnv shift).eval (callStore T addr val)).run h =
      match Memory.write T h.cpu.memory addr val with
      | .ok memory => .ok () { h.record h.cpu with cpu := { h.cpu with memory } }
      | .error e => .error e (h.record h.cpu) := by
  rw [callStore, Env.eval_perform]
  exact run_storeHelper T addr h val

theorem run_callSyscall :
    ((ssaEnv shift).eval callSyscall).run h =
      match h.cpu.emulateSysCall with
      | .ok cpu => .ok () { h.record h.cpu with cpu }
      | .error e => .error e (h.record h.cpu) := by
  rw [callSyscall, Env.eval_perform]
  exact run_syscallHelper h

end Rules

end Builder

end Prot
