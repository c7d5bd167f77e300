import Prot.Lib.Stateful
import Mathlib.Data.BitVec
import Mathlib.Logic.Function.Basic

/-!
# A subset of x86-64

The 32-bit integer instructions that small code generators emit, over any set of
registers (the physical ones, or the virtual ones of an assembler that allocates
registers itself), and over one memory object reached through a base pointer.
What a call does is a parameter.

The flags are known only after a comparison: every instruction that
computes leaves them unknown, moves keep them, and reading unknown flags is
a fault. So code that runs without a fault means what it means on the real
machine.

## Main results

* `holds_l`, `holds_b` and so on: each condition code, read as a comparison
* `Env.preserves_run`: an invariant of the object, from the fields that code stores to
-/

namespace X86

/-! ### Condition codes -/

/-- The flags that a condition is about: zero, sign, overflow and carry. -/
structure Flags where
  zf : Bool
  sf : Bool
  of : Bool
  cf : Bool

/-- The flags of `lhs - rhs`. -/
def Flags.compare (lhs rhs : BitVec 32) : Flags where
  zf := lhs - rhs == 0#32
  sf := (lhs - rhs).msb
  of := lhs.ssubOverflow rhs
  cf := lhs.usubOverflow rhs

/-- The conditions. `l`, `ge` and `g` are signed, `b`, `ae` and `a` are unsigned. -/
inductive Cond where
  | e | ne | l | ge | g | b | ae | a
  deriving DecidableEq

/-- Whether a condition holds, from the flags. -/
def Cond.holds (f : Flags) : Cond → Bool
  | .e => f.zf
  | .ne => !f.zf
  | .l => f.sf != f.of
  | .ge => f.sf == f.of
  | .g => !f.zf && f.sf == f.of
  | .b => f.cf
  | .ae => !f.cf
  | .a => !f.cf && !f.zf

section Compare

variable (lhs rhs : BitVec 32)

/-- A comparison finds two equal words equal. -/
@[simp] theorem zf_compare : (Flags.compare lhs rhs).zf = (lhs == rhs) := by
  rw [Bool.eq_iff_iff]
  simp [Flags.compare, BitVec.sub_eq_iff_eq_add]

/-- The carry is the unsigned order. -/
@[simp] theorem cf_compare : (Flags.compare lhs rhs).cf = lhs.ult rhs := by
  simp [Flags.compare, BitVec.usubOverflow, BitVec.ult_eq_decide]

/-- Sign and overflow together are the signed order, however the difference wraps around. -/
@[simp] theorem sf_bne_of_compare :
    ((Flags.compare lhs rhs).sf != (Flags.compare lhs rhs).of) = lhs.slt rhs := by
  have hl := BitVec.toInt_lt (x := lhs)
  have hl' := BitVec.le_toInt (x := lhs)
  have hr := BitVec.toInt_lt (x := rhs)
  have hr' := BitVec.le_toInt (x := rhs)
  simp only [Flags.compare, BitVec.slt_eq_decide, BitVec.msb_eq_toInt, BitVec.ssubOverflow,
    BitVec.toInt_sub, Int.bmod_def]
  rw [Bool.eq_iff_iff, bne_iff_ne, ne_eq, Bool.eq_iff_iff]
  simp only [Bool.or_eq_true, decide_eq_true_eq]
  split_ifs <;> omega

theorem holds_e : Cond.holds (.compare lhs rhs) .e = (lhs == rhs) := zf_compare lhs rhs

theorem holds_ne : Cond.holds (.compare lhs rhs) .ne = (lhs != rhs) := by
  simp [Cond.holds, bne]

theorem holds_l : Cond.holds (.compare lhs rhs) .l = lhs.slt rhs := sf_bne_of_compare lhs rhs

theorem holds_ge : Cond.holds (.compare lhs rhs) .ge = !lhs.slt rhs := by
  rw [← sf_bne_of_compare, Cond.holds, bne, Bool.not_not]

theorem holds_b : Cond.holds (.compare lhs rhs) .b = lhs.ult rhs := cf_compare lhs rhs

theorem holds_ae : Cond.holds (.compare lhs rhs) .ae = !lhs.ult rhs := by
  simp [Cond.holds]

/-- `g` is `l` with the operands exchanged. -/
theorem holds_g : Cond.holds (.compare lhs rhs) .g = rhs.slt lhs := by
  have hge := holds_ge lhs rhs
  rw [Cond.holds] at hge
  rw [Cond.holds, hge, zf_compare, Bool.eq_iff_iff]
  simp only [BitVec.slt_eq_decide, Bool.and_eq_true, Bool.not_eq_true', beq_eq_false_iff_ne,
    decide_eq_false_iff_not, decide_eq_true_eq, ne_eq, ← BitVec.toInt_inj]
  omega

/-- `a` is `b` with the operands exchanged. -/
theorem holds_a : Cond.holds (.compare lhs rhs) .a = rhs.ult lhs := by
  rw [Cond.holds, zf_compare, cf_compare, Bool.eq_iff_iff]
  simp only [BitVec.ult_eq_decide, Bool.and_eq_true, Bool.not_eq_true', beq_eq_false_iff_ne,
    decide_eq_false_iff_not, decide_eq_true_eq, ne_eq, ← BitVec.toNat_inj]
  omega

end Compare

/-! ### Instructions -/

/-- The operations on two words that overwrite the first. -/
inductive Alu where
  | add | sub | and | or | xor
  deriving DecidableEq

/-- The result of an operation. -/
def Alu.eval : Alu → BitVec 32 → BitVec 32 → BitVec 32
  | .add => (· + ·)
  | .sub => (· - ·)
  | .and => (· &&& ·)
  | .or => (· ||| ·)
  | .xor => (· ^^^ ·)

section Eval

variable (x y : BitVec 32)

@[simp] theorem eval_add : Alu.add.eval x y = x + y := rfl

@[simp] theorem eval_and : Alu.and.eval x y = x &&& y := rfl

end Eval

/-- The shifts. -/
inductive Shift where
  | shl | shr | sar
  deriving DecidableEq

/-- Only the low five bits of the count are used. -/
def Shift.eval (op : Shift) (x : BitVec 32) (count : BitVec 8) : BitVec 32 :=
  let n := count.toNat % 32
  match op with
  | .shl => x <<< n
  | .shr => x >>> n
  | .sar => x.sshiftRight n

section Syntax

variable (R : Type) (M : ℕ → Type) (X : Type)

/-- A source that is no field: a register or a constant. -/
inductive RegImm where
  | reg (r : R)
  | imm (v : BitVec 32)

/-- A 32-bit source operand. `M w` names the `w`-bit fields of the object. -/
inductive Operand where
  | reg (r : R)
  | imm (v : BitVec 32)
  | mem (base : R) (field : M 32)

/-- The instructions that are emitted. -/
inductive Insn where
  | mov (dst : R) (src : Operand R M)
  | movMem (base : R) (field : M 32) (src : RegImm R)
  | movImm64 (dst : R) (v : BitVec 64)
  | alu (op : Alu) (dst : R) (src : Operand R M)
  | aluMem (op : Alu) (base : R) (field : M 32) (src : RegImm R)
  | incMem64 (base : R) (field : M 64)
  | cmp (lhs rhs : Operand R M)
  | setcc (cc : Cond) (dst : R)
  | cmov (cc : Cond) (dst src : R)
  | shift (op : Shift) (dst : R) (count : RegImm R)
  | movzx8 (dst src : R)
  | movsx8 (dst src : R)
  | movsx16 (dst src : R)
  /-- Sign-extends the low byte of the accumulator to sixteen bits. -/
  | cbw (acc : R)
  /-- Sign-extends the low half of the accumulator to thirty-two bits. -/
  | cwde (acc : R)
  | push (src : R)
  | pop (dst : R)
  /-- An instruction of the client, such as a call. -/
  | ext (x : X)

end Syntax

/-! ### Semantics -/

variable {R : Type} {M : ℕ → Type} {X H ε : Type}

/-- The registers, the flags if known, the stack, and what the base pointer leads to. -/
structure State (R H : Type) where
  regs : R → BitVec 64
  flags : Option Flags
  stack : List (BitVec 64)
  mem : H

/-- What the code runs against. -/
structure Env (R : Type) (M : ℕ → Type) (X H ε : Type) where
  /-- The address of the object. -/
  base : BitVec 64
  load : {w : ℕ} → M w → H → BitVec w
  store : {w : ℕ} → M w → BitVec w → H → H
  ext : X → EStateM ε (State R H) Unit
  /-- What an instruction without a defined meaning raises. -/
  fault : ε

namespace State

/-- The lower half of a register. -/
def get32 (s : State R H) (r : R) : BitVec 32 := (s.regs r).setWidth 32

/-- Replaces what the base pointer leads to. -/
def setMem (s : State R H) (mem : H) : State R H := { s with mem }

/-- Replaces the stack. -/
def setStack (s : State R H) (stack : List (BitVec 64)) : State R H := { s with stack }

/-- The flags are those of a comparison. -/
def setFlags (s : State R H) (f : Flags) : State R H := { s with flags := some f }

/-- The flags are nothing that the code may rely on. -/
def forgetFlags (s : State R H) : State R H := { s with flags := none }

section Fields

variable (s : State R H) (r : R) (h : H) (f : Flags) (stack : List (BitVec 64))

@[simp] theorem stack_setMem : (s.setMem h).stack = s.stack := rfl

@[simp] theorem regs_setMem : (s.setMem h).regs = s.regs := rfl

@[simp] theorem mem_setMem : (s.setMem h).mem = h := rfl

@[simp] theorem get32_setMem : (s.setMem h).get32 r = s.get32 r := rfl

@[simp] theorem stack_setStack : (s.setStack stack).stack = stack := rfl

@[simp] theorem regs_setStack : (s.setStack stack).regs = s.regs := rfl

@[simp] theorem mem_setStack : (s.setStack stack).mem = s.mem := rfl

@[simp] theorem get32_setStack : (s.setStack stack).get32 r = s.get32 r := rfl

@[simp] theorem stack_setFlags : (s.setFlags f).stack = s.stack := rfl

@[simp] theorem regs_setFlags : (s.setFlags f).regs = s.regs := rfl

@[simp] theorem mem_setFlags : (s.setFlags f).mem = s.mem := rfl

@[simp] theorem stack_forgetFlags : s.forgetFlags.stack = s.stack := rfl

@[simp] theorem regs_forgetFlags : s.forgetFlags.regs = s.regs := rfl

@[simp] theorem mem_forgetFlags : s.forgetFlags.mem = s.mem := rfl

@[simp] theorem get32_forgetFlags : s.forgetFlags.get32 r = s.get32 r := rfl

end Fields

section Registers

variable [DecidableEq R]

/-- Writes all of a register. -/
def set64 (s : State R H) (r : R) (v : BitVec 64) : State R H :=
  { s with regs := Function.update s.regs r v }

/-- Writing half a register clears the other half. -/
def set32 (s : State R H) (r : R) (v : BitVec 32) : State R H := s.set64 r (v.setWidth 64)

/-- Writing the low `w` bits of a register keeps the others. -/
def setLow (s : State R H) (r : R) {w : ℕ} (v : BitVec w) : State R H :=
  s.set64 r (((s.regs r >>> w) <<< w) ||| v.setWidth 64)

variable (s : State R H) (r : R) (v : BitVec 64) (x : BitVec 32) {w : ℕ} (y : BitVec w)

@[simp] theorem stack_set64 : (s.set64 r v).stack = s.stack := rfl

@[simp] theorem mem_set64 : (s.set64 r v).mem = s.mem := rfl

@[simp] theorem regs_set64_self : (s.set64 r v).regs r = v := Function.update_self ..

@[simp] theorem regs_set64_of_ne {q : R} (hq : q ≠ r) : (s.set64 r v).regs q = s.regs q :=
  Function.update_of_ne hq ..

@[simp] theorem get32_set64_of_ne {q : R} (hq : q ≠ r) : (s.set64 r v).get32 q = s.get32 q := by
  rw [get32, regs_set64_of_ne s r v hq, get32]

@[simp] theorem stack_set32 : (s.set32 r x).stack = s.stack := rfl

@[simp] theorem mem_set32 : (s.set32 r x).mem = s.mem := rfl

@[simp] theorem regs_set32_self : (s.set32 r x).regs r = x.setWidth 64 := Function.update_self ..

@[simp] theorem regs_set32_of_ne {q : R} (hq : q ≠ r) : (s.set32 r x).regs q = s.regs q :=
  Function.update_of_ne hq ..

@[simp] theorem get32_set32_self : (s.set32 r x).get32 r = x := by
  simp [get32]

@[simp] theorem get32_set32_of_ne {q : R} (hq : q ≠ r) : (s.set32 r x).get32 q = s.get32 q := by
  rw [get32, regs_set32_of_ne s r x hq, get32]

theorem set32_set32 (z : BitVec 32) : (s.set32 r x).set32 r z = s.set32 r z := by
  simp only [set32, set64, Function.update_idem]

@[simp] theorem stack_setLow : (s.setLow r y).stack = s.stack := rfl

@[simp] theorem mem_setLow : (s.setLow r y).mem = s.mem := rfl

@[simp] theorem regs_setLow_of_ne {q : R} (hq : q ≠ r) : (s.setLow r y).regs q = s.regs q :=
  Function.update_of_ne hq ..

/-- The part of a register that was just written. -/
theorem setWidth_regs_setLow_self (hw : w ≤ 64) :
    ((s.setLow r y).regs r).setWidth w = y := by
  rw [setLow, regs_set64_self]
  ext i hi
  simp [hi, show i < 64 by omega]

/-- A byte set in a register that was zero. -/
theorem get32_setLow_of_zero (hzero : s.get32 r = 0#32) :
    (s.setLow r y).get32 r = y.setWidth 32 := by
  rw [get32, setLow, regs_set64_self]
  refine BitVec.eq_of_getLsbD_eq fun i hi => ?_
  have hbit : (s.regs r).getLsbD i = false := by
    have h := congrArg (fun v => v.getLsbD i) hzero
    simpa [get32, hi] using h
  by_cases hlow : i < w
  · simp [hlow]
  · simp [hlow, hbit, show w + (i - w) = i by omega]

end Registers

end State

namespace Env

variable (env : Env R M X H ε)

/-- A memory operand has a meaning if it is based on the object. -/
def Valid (s : State R H) : Operand R M → Prop
  | .mem base _ => s.regs base = env.base
  | _ => True

instance (s : State R H) : (src : Operand R M) → Decidable (env.Valid s src)
  | .mem base _ => inferInstanceAs (Decidable (s.regs base = env.base))
  | .reg _ | .imm _ => inferInstanceAs (Decidable True)

/-- What an operand stands for. -/
def value (s : State R H) : Operand R M → BitVec 32
  | .reg r => s.get32 r
  | .imm v => v
  | .mem _ field => env.load field s.mem

/-- Reads an operand. -/
def operand (src : Operand R M) : EStateM ε (State R H) (BitVec 32) := do
  let s ← get
  if env.Valid s src then pure (env.value s src) else throw env.fault

/-- Checks the base of a memory operand that is written. -/
def checkBase (base : R) : EStateM ε (State R H) Unit := do
  let s ← get
  if s.regs base = env.base then pure () else throw env.fault

/-- What a source stands for. -/
def source (s : State R H) : RegImm R → BitVec 32
  | .reg r => s.get32 r
  | .imm v => v

/-- Tests a condition. Without a comparison before it there is none. -/
def condition (cc : Cond) : EStateM ε (State R H) Bool := do
  match (← get).flags with
  | some f => pure (cc.holds f)
  | none => throw env.fault

section Operands

variable {env} {s : State R H} {base : R}

@[simp] theorem valid_reg {r : R} : env.Valid s (.reg r) := trivial

@[simp] theorem valid_imm {v : BitVec 32} : env.Valid s (.imm v) := trivial

@[simp] theorem valid_mem {field : M 32} :
    env.Valid s (.mem base field) ↔ s.regs base = env.base := Iff.rfl

@[simp] theorem value_reg {r : R} : env.value s (.reg r) = s.get32 r := rfl

@[simp] theorem value_imm {v : BitVec 32} : env.value s (.imm v) = v := rfl

@[simp] theorem value_mem {field : M 32} :
    env.value s (.mem base field) = env.load field s.mem := rfl

@[simp] theorem source_reg {r : R} : source s (.reg r) = s.get32 r := rfl

@[simp] theorem source_imm {v : BitVec 32} : source s (.imm v) = v := rfl

theorem run_operand {opd : Operand R M} (h : env.Valid s opd) :
    (env.operand opd).run s = .ok (env.value s opd) s := by
  simp [operand, h]

theorem run_checkBase (h : s.regs base = env.base) : (env.checkBase base).run s = .ok () s := by
  simp [checkBase, h]

/-- After a comparison, a condition can be tested. -/
theorem run_condition {cc : Cond} {f : Flags} (h : s.flags = some f) :
    (env.condition cc).run s = .ok (cc.holds f) s := by
  simp [condition, h]

end Operands

variable [DecidableEq R]

/-- One instruction. -/
def step : Insn R M X → EStateM ε (State R H) Unit
  | .mov dst src => do
    let v ← env.operand src
    modify fun s => s.set32 dst v
  | .movMem base field src => do
    env.checkBase base
    modify fun s => s.setMem (env.store field (source s src) s.mem)
  | .movImm64 dst v => modify fun s => s.set64 dst v
  | .alu op dst src => do
    let v ← env.operand src
    modify fun s => (s.set32 dst (op.eval (s.get32 dst) v)).forgetFlags
  | .aluMem op base field src => do
    env.checkBase base
    modify fun s =>
      (s.setMem
        (env.store field (op.eval (env.load field s.mem) (source s src)) s.mem)).forgetFlags
  | .incMem64 base field => do
    env.checkBase base
    modify fun s =>
      (s.setMem (env.store field (env.load field s.mem + 1#64) s.mem)).forgetFlags
  | .cmp lhs rhs => do
    -- only a comparison defines the flags
    let l ← env.operand lhs
    let r ← env.operand rhs
    modify fun s => s.setFlags (.compare l r)
  | .setcc cc dst => do
    let holds ← env.condition cc
    modify fun s => s.setLow dst (BitVec.ofBool holds |>.setWidth 8)
  | .cmov cc dst src => do
    let holds ← env.condition cc
    modify fun s => s.set32 dst (if holds then s.get32 src else s.get32 dst)
  | .shift op dst count =>
    modify fun s =>
      (s.set32 dst (op.eval (s.get32 dst) ((source s count).setWidth 8))).forgetFlags
  | .movzx8 dst src => modify fun s => s.set32 dst (((s.regs src).setWidth 8).setWidth 32)
  | .movsx8 dst src => modify fun s => s.set32 dst (((s.regs src).setWidth 8).signExtend 32)
  | .movsx16 dst src => modify fun s => s.set32 dst (((s.regs src).setWidth 16).signExtend 32)
  | .cbw acc => modify fun s => s.setLow acc (((s.regs acc).setWidth 8).signExtend 16)
  | .cwde acc => modify fun s => s.set32 acc (((s.regs acc).setWidth 16).signExtend 32)
  | .push src => modify fun s => s.setStack (s.regs src :: s.stack)
  | .pop dst => do
    match (← get).stack with
    | v :: rest => modify fun s => (s.setStack rest).set64 dst v
    | [] => throw env.fault
  | .ext x => env.ext x

/-- Straight-line code. -/
def run (code : List (Insn R M X)) : EStateM ε (State R H) Unit := forM code env.step

/-! ### Execution rules

One rule for each instruction, which runs it and leaves the code after it. Their
side conditions are what would otherwise be a fault. -/

section Rules

variable {env} {s : State R H} {code : List (Insn R M X)} {dst src base : R}

@[simp] theorem run_nil : (env.run []).run s = .ok () s := rfl

theorem run_cons_of_ok {insn : Insn R M X} {s' : State R H}
    (h : (env.step insn).run s = .ok () s') :
    (env.run (insn :: code)).run s = (env.run code).run s' := by
  rw [run, List.forM_cons, Stateful.run_seq_ok h, run]

theorem run_append (code' : List (Insn R M X)) :
    env.run (code ++ code') = (env.run code >>= fun _ => env.run code') := by
  rw [run, List.forM_append]
  rfl

@[simp] theorem run_mov {opd : Operand R M} (h : env.Valid s opd) :
    (env.run (.mov dst opd :: code)).run s =
      (env.run code).run (s.set32 dst (env.value s opd)) :=
  run_cons_of_ok (by simp [step, run_operand h])

@[simp] theorem run_movMem {field : M 32} {opd : RegImm R} (h : s.regs base = env.base) :
    (env.run (.movMem base field opd :: code)).run s =
      (env.run code).run (s.setMem (env.store field (source s opd) s.mem)) :=
  run_cons_of_ok (by simp [step, run_checkBase h])

@[simp] theorem run_movImm64 {v : BitVec 64} :
    (env.run (.movImm64 dst v :: code)).run s = (env.run code).run (s.set64 dst v) :=
  run_cons_of_ok rfl

@[simp] theorem run_alu {op : Alu} {opd : Operand R M} (h : env.Valid s opd) :
    (env.run (.alu op dst opd :: code)).run s =
      (env.run code).run (s.set32 dst (op.eval (s.get32 dst) (env.value s opd))).forgetFlags :=
  run_cons_of_ok (by simp [step, run_operand h])

@[simp] theorem run_aluMem {op : Alu} {field : M 32} {opd : RegImm R}
    (h : s.regs base = env.base) :
    (env.run (.aluMem op base field opd :: code)).run s =
      (env.run code).run (s.setMem (env.store field
        (op.eval (env.load field s.mem) (source s opd)) s.mem)).forgetFlags :=
  run_cons_of_ok (by simp [step, run_checkBase h])

@[simp] theorem run_incMem64 {field : M 64} (h : s.regs base = env.base) :
    (env.run (.incMem64 base field :: code)).run s =
      (env.run code).run
        (s.setMem (env.store field (env.load field s.mem + 1#64) s.mem)).forgetFlags :=
  run_cons_of_ok (by simp [step, run_checkBase h])

@[simp] theorem run_cmp {lhs rhs : Operand R M} (hl : env.Valid s lhs) (hr : env.Valid s rhs) :
    (env.run (.cmp lhs rhs :: code)).run s =
      (env.run code).run (s.setFlags (.compare (env.value s lhs) (env.value s rhs))) :=
  run_cons_of_ok (by simp [step, run_operand hl, run_operand hr])

theorem run_setcc {cc : Cond} {f : Flags} (h : s.flags = some f) :
    (env.run (.setcc cc dst :: code)).run s =
      (env.run code).run (s.setLow dst ((BitVec.ofBool (cc.holds f)).setWidth 8)) :=
  run_cons_of_ok (by simp [step, run_condition h])

theorem run_cmov {cc : Cond} {f : Flags} (h : s.flags = some f) :
    (env.run (.cmov cc dst src :: code)).run s =
      (env.run code).run
        (s.set32 dst (if cc.holds f then s.get32 src else s.get32 dst)) :=
  run_cons_of_ok (by simp [step, run_condition h])

@[simp] theorem run_shift {op : Shift} {count : RegImm R} :
    (env.run (.shift op dst count :: code)).run s =
      (env.run code).run
        (s.set32 dst (op.eval (s.get32 dst) ((source s count).setWidth 8))).forgetFlags :=
  run_cons_of_ok rfl

@[simp] theorem run_movzx8 :
    (env.run (.movzx8 dst src :: code)).run s =
      (env.run code).run (s.set32 dst (((s.regs src).setWidth 8).setWidth 32)) :=
  run_cons_of_ok rfl

@[simp] theorem run_movsx8 :
    (env.run (.movsx8 dst src :: code)).run s =
      (env.run code).run (s.set32 dst (((s.regs src).setWidth 8).signExtend 32)) :=
  run_cons_of_ok rfl

@[simp] theorem run_movsx16 :
    (env.run (.movsx16 dst src :: code)).run s =
      (env.run code).run (s.set32 dst (((s.regs src).setWidth 16).signExtend 32)) :=
  run_cons_of_ok rfl

@[simp] theorem run_cbw :
    (env.run (.cbw dst :: code)).run s =
      (env.run code).run (s.setLow dst (((s.regs dst).setWidth 8).signExtend 16)) :=
  run_cons_of_ok rfl

@[simp] theorem run_cwde :
    (env.run (.cwde dst :: code)).run s =
      (env.run code).run (s.set32 dst (((s.regs dst).setWidth 16).signExtend 32)) :=
  run_cons_of_ok rfl

@[simp] theorem run_push :
    (env.run (.push src :: code)).run s =
      (env.run code).run (s.setStack (s.regs src :: s.stack)) :=
  run_cons_of_ok rfl

theorem run_pop {v : BitVec 64} {rest : List (BitVec 64)} (h : s.stack = v :: rest) :
    (env.run (.pop dst :: code)).run s =
      (env.run code).run ((s.setStack rest).set64 dst v) :=
  run_cons_of_ok (by simp [step, h])

theorem run_ext {x : X} :
    (env.run (.ext x :: code)).run s =
      match (env.ext x).run s with
      | .ok _ s' => (env.run code).run s'
      | .error e s' => .error e s' := by
  rw [run, List.forM_cons, EStateM.run_bind, step]
  cases (env.ext x).run s <;> rfl

end Rules

end Env

/-! ### What code writes -/

section Writes

variable {P : {w : ℕ} → M w → Prop}

/-- The instruction stores to no field outside `P`. -/
def Insn.WritesIn (P : {w : ℕ} → M w → Prop) : Insn R M X → Prop
  | .movMem _ field _ | .aluMem _ _ field _ => P field
  | .incMem64 _ field => P field
  | _ => True

section Insns

variable (dst src base : R) (field : M 32) (opd : RegImm R)

@[simp] theorem writesIn_movMem :
    (.movMem base field opd : Insn R M X).WritesIn P ↔ P field := Iff.rfl

@[simp] theorem writesIn_aluMem (op : Alu) :
    (.aluMem op base field opd : Insn R M X).WritesIn P ↔ P field := Iff.rfl

@[simp] theorem writesIn_incMem64 (field : M 64) :
    (.incMem64 base field : Insn R M X).WritesIn P ↔ P field := Iff.rfl

@[simp] theorem writesIn_mov (opd : Operand R M) : (.mov dst opd : Insn R M X).WritesIn P := trivial

@[simp] theorem writesIn_movImm64 (v : BitVec 64) :
    (.movImm64 dst v : Insn R M X).WritesIn P := trivial

@[simp] theorem writesIn_alu (op : Alu) (opd : Operand R M) :
    (.alu op dst opd : Insn R M X).WritesIn P := trivial

@[simp] theorem writesIn_cmp (lhs rhs : Operand R M) :
    (.cmp lhs rhs : Insn R M X).WritesIn P := trivial

@[simp] theorem writesIn_setcc (cc : Cond) : (.setcc cc dst : Insn R M X).WritesIn P := trivial

@[simp] theorem writesIn_cmov (cc : Cond) : (.cmov cc dst src : Insn R M X).WritesIn P := trivial

@[simp] theorem writesIn_shift (op : Shift) (count : RegImm R) :
    (.shift op dst count : Insn R M X).WritesIn P := trivial

@[simp] theorem writesIn_movzx8 : (.movzx8 dst src : Insn R M X).WritesIn P := trivial

@[simp] theorem writesIn_movsx8 : (.movsx8 dst src : Insn R M X).WritesIn P := trivial

@[simp] theorem writesIn_movsx16 : (.movsx16 dst src : Insn R M X).WritesIn P := trivial

@[simp] theorem writesIn_cbw : (.cbw dst : Insn R M X).WritesIn P := trivial

@[simp] theorem writesIn_cwde : (.cwde dst : Insn R M X).WritesIn P := trivial

@[simp] theorem writesIn_push : (.push dst : Insn R M X).WritesIn P := trivial

@[simp] theorem writesIn_pop : (.pop dst : Insn R M X).WritesIn P := trivial

@[simp] theorem writesIn_ext (x : X) : (.ext x : Insn R M X).WritesIn P := trivial

end Insns

/-- Every instruction writes to such fields only. -/
def WritesIn (P : {w : ℕ} → M w → Prop) (code : List (Insn R M X)) : Prop :=
  ∀ insn ∈ code, insn.WritesIn P

section Code

variable {insn : Insn R M X} {code code' : List (Insn R M X)}

@[simp] theorem writesIn_nil : WritesIn P ([] : List (Insn R M X)) := nofun

@[simp] theorem writesIn_cons :
    WritesIn P (insn :: code) ↔ insn.WritesIn P ∧ WritesIn P code :=
  List.forall_mem_cons

@[simp] theorem writesIn_append :
    WritesIn P (code ++ code') ↔ WritesIn P code ∧ WritesIn P code' :=
  List.forall_mem_append

theorem writesIn_flatten {codes : List (List (Insn R M X))}
    (h : ∀ code ∈ codes, WritesIn P code) : WritesIn P codes.flatten := by
  intro insn hmem
  obtain ⟨code, hcode, hmem⟩ := List.mem_flatten.mp hmem
  exact h code hcode insn hmem

end Code

/-- Stores to the fields in `P` stay inside `inv`, and so does what the client calls. -/
structure Env.Maintains (env : Env R M X H ε) (P : {w : ℕ} → M w → Prop) (inv : H → Prop) :
    Prop where
  store : ∀ {w : ℕ} {field : M w} (v : BitVec w) {h : H},
    P field → inv h → inv (env.store field v h)
  ext : ∀ x, Stateful.Preserves (fun s => inv s.mem) (env.ext x)

namespace Env

open Stateful

variable {env : Env R M X H ε} {inv : H → Prop}

theorem readsOnly_operand (src : Operand R M) : ReadsOnly (env.operand src) := by
  intro s
  by_cases h : env.Valid s src
  · rw [run_operand h, finalState_ok]
  · simp only [operand, EStateM.run_bind, EStateM.run_get, if_neg h]
    rfl

theorem readsOnly_checkBase (base : R) : ReadsOnly (env.checkBase base) := by
  intro s
  by_cases h : s.regs base = env.base
  · rw [run_checkBase h, finalState_ok]
  · simp only [checkBase, EStateM.run_bind, EStateM.run_get, if_neg h]
    rfl

theorem readsOnly_condition (cc : Cond) : ReadsOnly (env.condition cc) := by
  intro s
  cases h : s.flags with
  | some f => rw [run_condition h, finalState_ok]
  | none =>
    simp only [condition, EStateM.run_bind, EStateM.run_get, h]
    rfl

variable [DecidableEq R]

/-- An instruction keeps an invariant if the field it writes does: everything but a store and an
extension leaves the object alone. -/
theorem preserves_step (hmaintains : env.Maintains P inv) {insn : Insn R M X}
    (hwrites : insn.WritesIn P) : Preserves (fun s => inv s.mem) (env.step insn) := by
  cases insn with
  | ext x => exact hmaintains.ext x
  | movMem base field src | aluMem op base field src | incMem64 base field =>
    exact .readsOnly_bind (readsOnly_checkBase base) fun _ _ hs => hmaintains.store _ hwrites hs
  | mov dst src | alu op dst src =>
    exact .readsOnly_bind (readsOnly_operand src) fun _ _ hs => hs
  | cmp lhs rhs =>
    exact .readsOnly_bind (readsOnly_operand lhs) fun _ =>
      .readsOnly_bind (readsOnly_operand rhs) fun _ _ hs => hs
  | setcc cc dst | cmov cc dst src =>
    exact .readsOnly_bind (readsOnly_condition cc) fun _ _ hs => hs
  | pop dst =>
    refine .readsOnly_bind (x := get) (fun _ => rfl) fun s => ?_
    cases s.stack <;> exact fun _ hs => hs
  | movImm64 | shift | movzx8 | movsx8 | movsx16 | cbw | cwde | push => exact fun _ hs => hs

/-- Code that stores to the fields in `P` only stays inside what these stores maintain. -/
theorem preserves_run (hmaintains : env.Maintains P inv) {code : List (Insn R M X)}
    (hwrites : WritesIn P code) :
    Preserves (fun s => inv s.mem) (env.run code) :=
  .forM code fun insn hmem => preserves_step hmaintains (hwrites insn hmem)

end Env

end Writes

end X86
