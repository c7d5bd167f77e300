import Prot.Jit.Host
import Prot.Lib.X86

/-!
# x86-64 code on the host

What the two backends that emit x86-64 share: the memory object is the host's
CPU state, reached through one register that must survive from one guest
instruction to the next.
-/

namespace Prot.HostX86

open Isa Interpreter Stateful X86

variable {R X μ : Type}

/-- Code that works on the CPU state at `statePtr`. -/
def hostEnv (statePtr : BitVec 64) (ext : X → EStateM Exn (State R (Host μ)) Unit) :
    Env R Field X (Host μ) Exn where
  base := statePtr
  load := Host.load
  store := Host.store
  ext := ext
  fault := .undefinedBehaviour

section Env

variable {statePtr : BitVec 64} {ext : X → EStateM Exn (State R (Host μ)) Unit} {w : ℕ}
  (field : Field w) (v : BitVec w) (h : Host μ) (x : X)

@[simp] theorem hostEnv_load : (hostEnv statePtr ext).load field h = Host.load field h := rfl

@[simp] theorem hostEnv_store : (hostEnv statePtr ext).store field v h = Host.store field v h := rfl

@[simp] theorem hostEnv_ext : (hostEnv statePtr ext).ext x = ext x := rfl

end Env

/-- The machine between two guest instructions; `p` is the register with the state pointer. -/
structure Inv (env : Env R Field X (Host μ) Exn) (p : R) (stack : List (BitVec 64))
    (m : State R (Host μ)) : Prop where
  base : m.regs p = env.base
  stack_eq : m.stack = stack
  zero : m.mem.cpu.getReg 0 = 0#32

/-- The end of an instruction: the state pointer and the stack are as before. -/
theorem matches_ok {env : Env R Field X (Host μ) Exn} {p : R} {stack : List (BitVec 64)}
    {m m' : State R (Host μ)} {cpu : CPUState μ} {calls : List (CPUState μ)}
    (hinv : Inv env p stack m) (hbase : m'.regs p = m.regs p) (hstack : m'.stack = m.stack)
    (hmem : m'.mem = { cpu, calls }) (hzero : cpu.getReg 0 = m.mem.cpu.getReg 0) :
    Matches (·.mem) (Inv env p stack) (.ok () m' : EStateM.Result Exn (State R (Host μ)) Unit)
      (.ok () { cpu, calls }) :=
  .returned hmem ⟨hbase.trans hinv.base, hstack.trans hinv.stack_eq, by
    rw [hmem]; exact hzero.trans hinv.zero⟩

/-- The low bits of a register whose low half is known. -/
theorem setWidth_regs_of_get32 {m : State R (Host μ)} {w : ℕ} {r : R} {v : BitVec w} (hw : w ≤ 32)
    (h : m.get32 r = v.setWidth 32) : (m.regs r).setWidth w = v := by
  have hlow : (m.regs r).setWidth w = (m.get32 r).setWidth w := by
    rw [State.get32, BitVec.setWidth_setWidth_of_le _ hw]
  rw [hlow, h, BitVec.setWidth_setWidth_of_le _ hw, BitVec.setWidth_eq]

/-! ### Operations of the machine and of the interpreter -/

/-- Both use five bits of a shift count. -/
theorem shift_eval_eq (op : Shift) (x count : Word) :
    op.eval x (count.setWidth 8) =
      match op with
      | .shl => sllHelper x count
      | .shr => srlHelper x count
      | .sar => sraHelper x count := by
  have hcount : (count.setWidth 8).toNat % 32 = (slice 4 0 count).toNat := by
    rw [toNat_slice_four_zero, BitVec.toNat_setWidth]
    omega
  cases op <;> simp only [Shift.eval, hcount] <;> rfl

/-- The condition `ae` is `std::greater_equal`. -/
theorem holds_greaterEqual (lhs rhs : Word) :
    Cond.holds (.compare lhs rhs) .ae = greaterEqual lhs rhs := by
  rw [holds_ae, greaterEqual_eq]

end Prot.HostX86
