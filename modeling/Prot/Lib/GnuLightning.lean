import Prot.Lib.Stateful
import Mathlib.Data.BitVec
import Mathlib.Logic.Function.Basic

/-!
# A subset of GNU lightning

The three-address code of GNU lightning on a 64-bit machine, over any set of
registers and one memory object of 32-bit fields reached through a base
pointer. What is called is a parameter.

An operation without a documented result is a fault: a shift by the width of a
register or more, the result of a call that returns none. A call leaves junk in
every register that the callee need not save.
-/

namespace GnuLightning

/-- The operations, of which `lsh`, `rsh` and `rsh_u` shift. An operation with `_u` is unsigned. -/
inductive Op where
  | add | sub | and | or | xor
  | lsh | rsh | rsh_u
  | lt | lt_u | ge | ge_u | eq | ne
  deriving DecidableEq

/-- A comparison gives 1 or 0. -/
def bit (b : Bool) : BitVec 64 := (BitVec.ofBool b).setWidth 64

/-- The value of an operation. A shift by the width of a register or more has none. -/
def Op.eval (op : Op) (x y : BitVec 64) : Option (BitVec 64) :=
  match op with
  | .add => some (x + y)
  | .sub => some (x - y)
  | .and => some (x &&& y)
  | .or => some (x ||| y)
  | .xor => some (x ^^^ y)
  | .lsh => if y.toNat < 64 then some (x <<< y.toNat) else none
  | .rsh => if y.toNat < 64 then some (x.sshiftRight y.toNat) else none
  | .rsh_u => if y.toNat < 64 then some (x >>> y.toNat) else none
  | .lt => some (bit (x.slt y))
  | .lt_u => some (bit (x.ult y))
  | .ge => some (bit (!x.slt y))
  | .ge_u => some (bit (!x.ult y))
  | .eq => some (bit (x == y))
  | .ne => some (bit (x != y))

section Syntax

variable (R M X : Type)

/-- `M` names the 32-bit fields of the object, `X` what can be called. -/
inductive Insn where
  | movi (dst : R) (v : BitVec 64)
  | opr (op : Op) (dst lhs rhs : R)
  | opi (op : Op) (dst lhs : R) (rhs : BitVec 64)
  /-- Loads a field and extends its sign. -/
  | ldxi_i (dst base : R) (field : M)
  /-- Loads a field and extends it with zeros. -/
  | ldxi_ui (dst base : R) (field : M)
  /-- Stores the low half of a register. -/
  | stxi_i (field : M) (base src : R)
  /-- Moves `src` if `cond` is zero. -/
  | movzr (dst src cond : R)
  /-- Extracts the `len` bits from `pos` on, and extends their sign. -/
  | extr (dst src : R) (pos len : ℕ)
  | prepare
  | pushargr (src : R)
  | finishi (callee : X)
  | retval (dst : R)

end Syntax

/-! ### Semantics -/

variable {R M X H ε : Type}

/-- The registers, the arguments pushed so far, the result of the last call, and what
the base pointer leads to. -/
structure State (R H : Type) where
  regs : R → BitVec 64
  args : List (BitVec 64) := []
  ret : Option (BitVec 64) := none
  mem : H

/-- What the code runs against. -/
structure Env (R M X H ε : Type) where
  /-- The address of the object. -/
  base : BitVec 64
  load : M → H → BitVec 32
  store : M → BitVec 32 → H → H
  call : X → List (BitVec 64) → EStateM ε H (Option (BitVec 64))
  /-- The registers that a callee saves. -/
  saved : R → Bool
  /-- What a callee leaves in the others. -/
  clobber : H → R → BitVec 64
  fault : ε

namespace State

/-- Replaces what the base pointer leads to. -/
def setMem (s : State R H) (mem : H) : State R H := { s with mem }

variable (s : State R H) (h : H)

@[simp] theorem regs_setMem : (s.setMem h).regs = s.regs := rfl

@[simp] theorem mem_setMem : (s.setMem h).mem = h := rfl

/-- After `prepare` and the arguments. -/
def withArgs (s : State R H) (args : List (BitVec 64)) : State R H := { s with args }

@[simp] theorem regs_withArgs (args : List (BitVec 64)) : (s.withArgs args).regs = s.regs := rfl

@[simp] theorem mem_withArgs (args : List (BitVec 64)) : (s.withArgs args).mem = s.mem := rfl

@[simp] theorem args_withArgs (args : List (BitVec 64)) : (s.withArgs args).args = args := rfl

variable [DecidableEq R]

/-- Writes a register. -/
def set (s : State R H) (r : R) (v : BitVec 64) : State R H :=
  { s with regs := Function.update s.regs r v }

variable (r : R) (v : BitVec 64)

@[simp] theorem mem_set : (s.set r v).mem = s.mem := rfl

@[simp] theorem regs_set_self : (s.set r v).regs r = v := Function.update_self ..

@[simp] theorem regs_set_of_ne {q : R} (hq : q ≠ r) : (s.set r v).regs q = s.regs q :=
  Function.update_of_ne hq ..

end State

namespace Env

variable (env : Env R M X H ε)

/-- Checks the base of a field. -/
def checkBase (base : R) : EStateM ε (State R H) Unit := do
  let s ← get
  if s.regs base = env.base then pure () else throw env.fault

/-- Goes on with a value that is there. -/
def defined (x : Option (BitVec 64)) : EStateM ε (State R H) (BitVec 64) :=
  match x with
  | some v => pure v
  | none => throw env.fault

/-- The state after a call that returned. -/
def returned (s : State R H) (ret : Option (BitVec 64)) (h : H) : State R H where
  -- the arguments are used up by the call
  regs r := if env.saved r then s.regs r else env.clobber h r
  args := []
  ret := ret
  mem := h

/-- Calls a function. An exception leaves what it has done to the object. -/
def finish (callee : X) : EStateM ε (State R H) Unit := fun s =>
  match (env.call callee s.args).run s.mem with
  | .ok ret h => .ok () (env.returned s ret h)
  | .error e h => .error e (s.setMem h)

theorem run_checkBase {env : Env R M X H ε} {s : State R H} {base : R}
    (h : s.regs base = env.base) : (env.checkBase base).run s = .ok () s := by
  simp [checkBase, h]

/-- A call keeps the registers that a callee saves. -/
theorem regs_returned_of_saved {env : Env R M X H ε} {s : State R H} {ret : Option (BitVec 64)}
    {h : H} {r : R} (hsaved : env.saved r = true) : (env.returned s ret h).regs r = s.regs r :=
  if_pos hsaved

variable [DecidableEq R]

/-- One instruction. -/
def step : Insn R M X → EStateM ε (State R H) Unit
  | .movi dst v => modify fun s => s.set dst v
  | .opr op dst lhs rhs => do
    let s ← get
    let v ← env.defined (op.eval (s.regs lhs) (s.regs rhs))
    modify fun s => s.set dst v
  | .opi op dst lhs rhs => do
    let s ← get
    let v ← env.defined (op.eval (s.regs lhs) rhs)
    modify fun s => s.set dst v
  | .ldxi_i dst base field => do
    env.checkBase base
    modify fun s => s.set dst ((env.load field s.mem).signExtend 64)
  | .ldxi_ui dst base field => do
    env.checkBase base
    modify fun s => s.set dst ((env.load field s.mem).setWidth 64)
  | .stxi_i field base src => do
    env.checkBase base
    modify fun s => s.setMem (env.store field ((s.regs src).setWidth 32) s.mem)
  | .movzr dst src cond =>
    modify fun s => s.set dst (if s.regs cond = 0#64 then s.regs src else s.regs dst)
  | .extr dst src pos len =>
    modify fun s => s.set dst (((s.regs src).extractLsb' pos len).signExtend 64)
  | .prepare => modify fun s => s.withArgs []
  | .pushargr src => modify fun s => s.withArgs (s.args ++ [s.regs src])
  | .finishi callee => env.finish callee
  | .retval dst => do
    let s ← get
    let v ← env.defined s.ret
    modify fun s => s.set dst v

/-- Straight-line code. -/
def run (code : List (Insn R M X)) : EStateM ε (State R H) Unit := forM code env.step

/-! ### Execution rules -/

section Rules

variable {env} {s : State R H} {code : List (Insn R M X)} {dst src base lhs rhs cond : R}
  {field : M} {op : Op} {v w : BitVec 64}

@[simp] theorem run_nil : (env.run []).run s = .ok () s := rfl

theorem run_append (code' : List (Insn R M X)) :
    env.run (code ++ code') = (env.run code >>= fun _ => env.run code') := by
  rw [run, List.forM_append]
  rfl

theorem run_cons_of_ok {insn : Insn R M X} {s' : State R H}
    (h : (env.step insn).run s = .ok () s') :
    (env.run (insn :: code)).run s = (env.run code).run s' := by
  rw [run, List.forM_cons, Stateful.run_seq_ok h, run]

@[simp] theorem run_movi :
    (env.run (.movi dst v :: code)).run s = (env.run code).run (s.set dst v) :=
  run_cons_of_ok rfl

theorem run_opr (h : op.eval (s.regs lhs) (s.regs rhs) = some w) :
    (env.run (.opr op dst lhs rhs :: code)).run s = (env.run code).run (s.set dst w) :=
  run_cons_of_ok (by simp [step, defined, h])

theorem run_opi (h : op.eval (s.regs lhs) v = some w) :
    (env.run (.opi op dst lhs v :: code)).run s = (env.run code).run (s.set dst w) :=
  run_cons_of_ok (by simp [step, defined, h])

@[simp] theorem run_ldxi_i (h : s.regs base = env.base) :
    (env.run (.ldxi_i dst base field :: code)).run s =
      (env.run code).run (s.set dst ((env.load field s.mem).signExtend 64)) :=
  run_cons_of_ok (by simp [step, run_checkBase h])

@[simp] theorem run_ldxi_ui (h : s.regs base = env.base) :
    (env.run (.ldxi_ui dst base field :: code)).run s =
      (env.run code).run (s.set dst ((env.load field s.mem).setWidth 64)) :=
  run_cons_of_ok (by simp [step, run_checkBase h])

@[simp] theorem run_stxi_i (h : s.regs base = env.base) :
    (env.run (.stxi_i field base src :: code)).run s =
      (env.run code).run (s.setMem (env.store field ((s.regs src).setWidth 32) s.mem)) :=
  run_cons_of_ok (by simp [step, run_checkBase h])

@[simp] theorem run_movzr :
    (env.run (.movzr dst src cond :: code)).run s =
      (env.run code).run
        (s.set dst (if s.regs cond = 0#64 then s.regs src else s.regs dst)) :=
  run_cons_of_ok rfl

@[simp] theorem run_extr {pos len : ℕ} :
    (env.run (.extr dst src pos len :: code)).run s =
      (env.run code).run (s.set dst (((s.regs src).extractLsb' pos len).signExtend 64)) :=
  run_cons_of_ok rfl

@[simp] theorem run_prepare :
    (env.run (.prepare :: code)).run s = (env.run code).run (s.withArgs []) :=
  run_cons_of_ok rfl

@[simp] theorem run_pushargr :
    (env.run (.pushargr src :: code)).run s =
      (env.run code).run (s.withArgs (s.args ++ [s.regs src])) :=
  run_cons_of_ok rfl

theorem run_finishi {callee : X} :
    (env.run (.finishi callee :: code)).run s =
      match (env.call callee s.args).run s.mem with
      | .ok ret h => (env.run code).run (env.returned s ret h)
      | .error e h => .error e (s.setMem h) := by
  rw [run, List.forM_cons, EStateM.run_bind, step]
  simp only [finish, EStateM.run]
  cases env.call callee s.args s.mem <;> rfl

theorem run_retval (h : s.ret = some v) :
    (env.run (.retval dst :: code)).run s = (env.run code).run (s.set dst v) :=
  run_cons_of_ok (by simp [step, defined, h])

end Rules

section Arithmetic

variable {env} {s : State R H} {code : List (Insn R M X)} {dst lhs rhs : R} {v : BitVec 64}

@[simp] theorem run_addr :
    (env.run (.opr .add dst lhs rhs :: code)).run s =
      (env.run code).run (s.set dst (s.regs lhs + s.regs rhs)) := run_opr rfl

@[simp] theorem run_addi :
    (env.run (.opi .add dst lhs v :: code)).run s =
      (env.run code).run (s.set dst (s.regs lhs + v)) := run_opi rfl

@[simp] theorem run_andi :
    (env.run (.opi .and dst lhs v :: code)).run s =
      (env.run code).run (s.set dst (s.regs lhs &&& v)) := run_opi rfl

end Arithmetic

end Env

/-! ### What code writes -/

section Writes

variable {P : M → Prop}

/-- The instruction stores to no field outside `P`. -/
def Insn.WritesIn (P : M → Prop) : Insn R M X → Prop
  | .stxi_i field _ _ => P field
  | _ => True

section Insns

variable (dst src lhs rhs base : R) (field : M)

@[simp] theorem writesIn_stxi_i :
    (.stxi_i field base src : Insn R M X).WritesIn P ↔ P field := Iff.rfl

@[simp] theorem writesIn_movi (v : BitVec 64) : (.movi dst v : Insn R M X).WritesIn P := trivial

@[simp] theorem writesIn_opr (op : Op) : (.opr op dst lhs rhs : Insn R M X).WritesIn P := trivial

@[simp] theorem writesIn_opi (op : Op) (v : BitVec 64) :
    (.opi op dst lhs v : Insn R M X).WritesIn P := trivial

@[simp] theorem writesIn_ldxi_i : (.ldxi_i dst base field : Insn R M X).WritesIn P := trivial

@[simp] theorem writesIn_ldxi_ui : (.ldxi_ui dst base field : Insn R M X).WritesIn P := trivial

@[simp] theorem writesIn_movzr (cond : R) : (.movzr dst src cond : Insn R M X).WritesIn P := trivial

@[simp] theorem writesIn_extr (pos len : ℕ) :
    (.extr dst src pos len : Insn R M X).WritesIn P := trivial

@[simp] theorem writesIn_prepare : (.prepare : Insn R M X).WritesIn P := trivial

@[simp] theorem writesIn_pushargr : (.pushargr src : Insn R M X).WritesIn P := trivial

@[simp] theorem writesIn_finishi (callee : X) : (.finishi callee : Insn R M X).WritesIn P := trivial

@[simp] theorem writesIn_retval : (.retval dst : Insn R M X).WritesIn P := trivial

end Insns

def WritesIn (P : M → Prop) (code : List (Insn R M X)) : Prop :=
  ∀ insn ∈ code, insn.WritesIn P

section Code

variable {insn : Insn R M X} {code code' : List (Insn R M X)}

@[simp] theorem writesIn_nil : WritesIn P ([] : List (Insn R M X)) := nofun

@[simp] theorem writesIn_cons :
    WritesIn P (insn :: code) ↔ insn.WritesIn P ∧ WritesIn P code :=
  List.forall_mem_cons

@[simp] theorem writesIn_append :
    WritesIn P (code ++ code') ↔ WritesIn P code ∧ WritesIn P code' :=
  List.forall_mem_append

theorem writesIn_flatten {codes : List (List (Insn R M X))}
    (h : ∀ code ∈ codes, WritesIn P code) : WritesIn P codes.flatten := by
  intro insn hmem
  obtain ⟨code, hcode, hmem⟩ := List.mem_flatten.mp hmem
  exact h code hcode insn hmem

end Code

/-- Stores to the fields in `P` stay inside `inv`, and so do the calls. -/
structure Env.Maintains (env : Env R M X H ε) (P : M → Prop) (inv : H → Prop) : Prop where
  store : ∀ {field : M} (v : BitVec 32) {h : H}, P field → inv h → inv (env.store field v h)
  call : ∀ callee args {h : H}, inv h →
    inv (Stateful.finalState ((env.call callee args).run h))

namespace Env

open Stateful

variable {env : Env R M X H ε} {inv : H → Prop}

theorem readsOnly_checkBase (base : R) : ReadsOnly (env.checkBase base) := by
  intro s
  by_cases h : s.regs base = env.base
  · rw [run_checkBase h, finalState_ok]
  · simp only [checkBase, EStateM.run_bind, EStateM.run_get, if_neg h]
    rfl

theorem readsOnly_defined (x : Option (BitVec 64)) :
    ReadsOnly (env.defined x : EStateM ε (State R H) (BitVec 64)) := by
  cases x <;> exact fun _ => rfl

/-- A call keeps what every callee keeps. -/
theorem preserves_finish (hmaintains : env.Maintains P inv) (callee : X) :
    Preserves (fun s => inv s.mem) (env.finish callee : EStateM ε (State R H) Unit) := by
  intro s hs
  have hcall := hmaintains.call callee s.args hs
  simp only [finish, EStateM.run] at hcall ⊢
  revert hcall
  cases env.call callee s.args s.mem <;> exact id

variable [DecidableEq R]

/-- An instruction keeps an invariant if the field it writes does: everything but a store and a
call leaves the object alone. -/
theorem preserves_step (hmaintains : env.Maintains P inv) {insn : Insn R M X}
    (hwrites : insn.WritesIn P) : Preserves (fun s => inv s.mem) (env.step insn) := by
  cases insn with
  | stxi_i field base src =>
    exact .readsOnly_bind (readsOnly_checkBase base) fun _ _ hs => hmaintains.store _ hwrites hs
  | finishi callee => exact preserves_finish hmaintains callee
  | opr | opi | retval =>
    exact .readsOnly_bind (x := get) (fun _ => rfl) fun _ =>
      .readsOnly_bind (readsOnly_defined _) fun _ _ hs => hs
  | ldxi_i dst base field | ldxi_ui dst base field =>
    exact .readsOnly_bind (readsOnly_checkBase base) fun _ _ hs => hs
  | movi | movzr | extr | prepare | pushargr => exact fun _ hs => hs

/-- Code that stores to the fields in `P` only stays inside what these stores maintain. -/
theorem preserves_run (hmaintains : env.Maintains P inv) {code : List (Insn R M X)}
    (hwrites : WritesIn P code) :
    Preserves (fun s => inv s.mem) (env.run code) :=
  .forM code fun insn hmem => preserves_step hmaintains (hwrites insn hmem)

end Env

end Writes

end GnuLightning
