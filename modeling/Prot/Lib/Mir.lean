import Prot.Lib.Stateful
import Mathlib.Data.BitVec
import Mathlib.Logic.Function.Basic

/-!
# A subset of MIR

Functions of the MIR intermediate language with 64-bit registers, 32-bit
operations and 32-bit unsigned memory operands, over any set of registers and
labels, and over one memory object reached through a base pointer. What is
called is a parameter.

A 32-bit operation looks at the low halves of its operands and defines the low
half of its result; what the upper half holds afterwards is drawn from a stream
of the state, so that a result about all initial states is a result about all
upper halves.

Control only moves forward: a jump skips to its label further on, and a jump
to a label that is not there is a fault.

## Main results

* `Env.run_append`: code whose jumps stay inside it composes with what follows
-/

namespace Mir

/-- The 32-bit operations. -/
inductive SOp where
  | adds | subs | ands | ors | xors | lshs | urshs | rshs | lts | ults
  deriving DecidableEq

/-- A comparison gives 1 or 0. -/
def bit (b : Bool) : BitVec 32 := (BitVec.ofBool b).setWidth 32

/-- Shifts use the amount modulo 32. -/
def SOp.eval (op : SOp) (x y : BitVec 32) : BitVec 32 :=
  match op with
  | .adds => x + y
  | .subs => x - y
  | .ands => x &&& y
  | .ors => x ||| y
  | .xors => x ^^^ y
  | .lshs => x <<< (y.toNat % 32)
  | .urshs => x >>> (y.toNat % 32)
  | .rshs => x.sshiftRight (y.toNat % 32)
  | .lts => bit (x.slt y)
  | .ults => bit (x.ult y)

@[simp] theorem eval_adds (x y : BitVec 32) : SOp.adds.eval x y = x + y := rfl

/-- The conditions of the 32-bit branches. -/
inductive SCond where
  | beqs | bnes | blts | bges | ublts | ubges
  deriving DecidableEq

/-- Whether a 32-bit comparison holds. -/
def SCond.holds (c : SCond) (x y : BitVec 32) : Bool :=
  match c with
  | .beqs => x == y
  | .bnes => x != y
  | .blts => x.slt y
  | .bges => !x.slt y
  | .ublts => x.ult y
  | .ubges => !x.ult y

/-- The integer types of a prototype. -/
inductive Ty where
  | i8 | u8 | i16 | u16 | u32
  deriving DecidableEq

/-- A result of the type, in a register. -/
def Ty.convert (v : BitVec 64) : Ty → BitVec 64
  | .i8 => (v.setWidth 8).signExtend 64
  | .u8 => (v.setWidth 8).setWidth 64
  | .i16 => (v.setWidth 16).signExtend 64
  | .u16 => (v.setWidth 16).setWidth 64
  | .u32 => (v.setWidth 32).setWidth 64

section Syntax

variable (R M L X : Type)

/-- `M` names the 32-bit fields of the object. -/
inductive Operand where
  | reg (r : R)
  | int (v : BitVec 64)
  | mem (base : R) (field : M)

/-- Where a result goes: a register, or a field of an object. -/
inductive Dst where
  | reg (r : R)
  | mem (base : R) (field : M)

/-- The instructions that are emitted. An `S` is for the lower 32 bits. -/
inductive Insn where
  | mov (dst : Dst R M) (src : Operand R M)
  | opS (op : SOp) (dst : Dst R M) (lhs rhs : Operand R M)
  | and (dst : Dst R M) (lhs rhs : Operand R M)
  | branchS (cond : SCond) (target : L) (lhs rhs : Operand R M)
  | jmp (target : L)
  | label (l : L)
  | call (callee : X) (res : Option (Ty × R)) (args : List R)

end Syntax

variable {R M L X H ε : Type}

/-- Where an instruction may jump to. -/
def Insn.target : Insn R M L X → Option L
  | .branchS _ target _ _ | .jmp target => some target
  | _ => none

/-- The label that an instruction places. -/
def Insn.labelOf : Insn R M L X → Option L
  | .label l => some l
  | _ => none

section Targets

variable (dst : Dst R M) (src lhs rhs : Operand R M) (l : L)

@[simp] theorem target_mov : (.mov dst src : Insn R M L X).target = none := rfl

@[simp] theorem target_opS (op : SOp) : (.opS op dst lhs rhs : Insn R M L X).target = none := rfl

@[simp] theorem target_and : (.and dst lhs rhs : Insn R M L X).target = none := rfl

@[simp] theorem target_branchS (c : SCond) :
    (.branchS c l lhs rhs : Insn R M L X).target = some l := rfl

@[simp] theorem target_jmp : (.jmp l : Insn R M L X).target = some l := rfl

@[simp] theorem target_label : (.label l : Insn R M L X).target = none := rfl

@[simp] theorem target_call (callee : X) (res : Option (Ty × R)) (args : List R) :
    (.call callee res args : Insn R M L X).target = none := rfl

end Targets

/-- The labels that the code places. -/
def labels (code : List (Insn R M L X)) : List L := code.filterMap Insn.labelOf

/-- Every jump goes to a label further on. -/
def Closed : List (Insn R M L X) → Prop
  | [] => True
  | insn :: code => (∀ l, insn.target = some l → l ∈ labels code) ∧ Closed code

section Closed

variable {insn : Insn R M L X} {code code' : List (Insn R M L X)}

@[simp] theorem closed_nil : Closed ([] : List (Insn R M L X)) := trivial

@[simp] theorem closed_cons : Closed (insn :: code) ↔
    (∀ l, insn.target = some l → l ∈ labels code) ∧ Closed code := Iff.rfl

/-- Jumps within each of two pieces stay within both. -/
@[simp] theorem closed_append (h : Closed code) (h' : Closed code') : Closed (code ++ code') := by
  induction code with
  | nil => exact h'
  | cons insn code ih =>
    refine ⟨fun l hl => ?_, ih h.2⟩
    have hlabels : labels (code ++ code') = labels code ++ labels code' := List.filterMap_append
    exact hlabels ▸ List.mem_append_left _ (h.1 l hl)

end Closed

/-! ### Semantics -/

/-- The registers, the upper halves to come, and what the base pointer leads to. -/
structure State (R H : Type) where
  regs : R → BitVec 64
  upper : ℕ → BitVec 32
  mem : H

/-- What the code runs against. -/
structure Env (R M X H ε : Type) where
  /-- The address of the object. -/
  base : BitVec 64
  load : M → H → BitVec 32
  store : M → BitVec 32 → H → H
  call : X → List (BitVec 64) → EStateM ε H (Option (BitVec 64))
  fault : ε

namespace State

/-- The low half of a register. -/
def low (s : State R H) (r : R) : BitVec 32 := (s.regs r).setWidth 32

/-- Replaces what the base pointer leads to. -/
def setMem (s : State R H) (mem : H) : State R H := { s with mem }

variable (s : State R H) (r : R) (h : H)

@[simp] theorem setWidth_regs : (s.regs r).setWidth 32 = s.low r := rfl

@[simp] theorem regs_setMem : (s.setMem h).regs = s.regs := rfl

@[simp] theorem low_setMem : (s.setMem h).low r = s.low r := rfl

@[simp] theorem mem_setMem : (s.setMem h).mem = h := rfl

variable [DecidableEq R]

/-- Writes all of a register. -/
def set (s : State R H) (r : R) (v : BitVec 64) : State R H :=
  { s with regs := Function.update s.regs r v }

/-- The result of a 32-bit operation. -/
def setLow (s : State R H) (r : R) (v : BitVec 32) : State R H :=
  { s with
    -- the upper half is whatever comes next in the stream
    regs := Function.update s.regs r (s.upper 0 ++ v)
    upper := fun n => s.upper (n + 1) }

variable (v : BitVec 64) (x : BitVec 32)

@[simp] theorem mem_set : (s.set r v).mem = s.mem := rfl

@[simp] theorem regs_set_self : (s.set r v).regs r = v := Function.update_self ..

@[simp] theorem low_set_self : (s.set r v).low r = v.setWidth 32 := by
  rw [low, regs_set_self]

@[simp] theorem regs_set_of_ne {q : R} (hq : q ≠ r) : (s.set r v).regs q = s.regs q :=
  Function.update_of_ne hq ..

@[simp] theorem low_set_of_ne {q : R} (hq : q ≠ r) : (s.set r v).low q = s.low q := by
  rw [low, regs_set_of_ne s r v hq, low]

@[simp] theorem mem_setLow : (s.setLow r x).mem = s.mem := rfl

@[simp] theorem low_setLow_self : (s.setLow r x).low r = x := by
  have hregs : (s.setLow r x).regs r = s.upper 0 ++ x := Function.update_self ..
  rw [low, hregs]
  exact BitVec.setWidth_append_eq_right

@[simp] theorem regs_setLow_of_ne {q : R} (hq : q ≠ r) : (s.setLow r x).regs q = s.regs q :=
  Function.update_of_ne hq ..

@[simp] theorem low_setLow_of_ne {q : R} (hq : q ≠ r) : (s.setLow r x).low q = s.low q := by
  rw [low, regs_setLow_of_ne s r x hq, low]

end State

namespace Env

variable (env : Env R M X H ε)

/-- A memory operand has a meaning if it is based on the object. -/
def Valid (s : State R H) : Operand R M → Prop
  | .mem base _ => s.regs base = env.base
  | _ => True

instance (s : State R H) : (src : Operand R M) → Decidable (env.Valid s src)
  | .mem base _ => inferInstanceAs (Decidable (s.regs base = env.base))
  | .reg _ | .int _ => inferInstanceAs (Decidable True)

/-- What an operand stands for. A field has 32 bits, and zeros above them. -/
def value (s : State R H) : Operand R M → BitVec 64
  | .reg r => s.regs r
  | .int v => v
  | .mem _ field => (env.load field s.mem).setWidth 64

/-- The low half of an operand. -/
def low (s : State R H) (src : Operand R M) : BitVec 32 := (env.value s src).setWidth 32

/-- Reads an operand. -/
def operand (src : Operand R M) : EStateM ε (State R H) (BitVec 64) := do
  let s ← get
  if env.Valid s src then pure (env.value s src) else throw env.fault

/-- Stores the low half of a value. -/
def storeLow (base : R) (field : M) (v : BitVec 32) : EStateM ε (State R H) Unit := do
  let s ← get
  if s.regs base = env.base then set (s.setMem (env.store field v s.mem)) else throw env.fault

section Operands

variable {env} {s : State R H} {base : R} {field : M}

@[simp] theorem valid_reg {r : R} : env.Valid s (.reg r) := trivial

@[simp] theorem valid_int {v : BitVec 64} : env.Valid s (.int v) := trivial

@[simp] theorem valid_mem : env.Valid s (.mem base field) ↔ s.regs base = env.base := Iff.rfl

@[simp] theorem value_reg {r : R} : env.value s (.reg r) = s.regs r := rfl

@[simp] theorem value_int {v : BitVec 64} : env.value s (.int v) = v := rfl

@[simp] theorem value_mem :
    env.value s (.mem base field) = (env.load field s.mem).setWidth 64 := rfl

@[simp] theorem low_reg {r : R} : env.low s (.reg r) = s.low r := rfl

@[simp] theorem low_int {v : BitVec 64} : env.low s (.int v) = v.setWidth 32 := rfl

theorem run_operand {opd : Operand R M} (h : env.Valid s opd) :
    (env.operand opd).run s = .ok (env.value s opd) s := by
  simp [operand, h]

/-- A store through the base pointer succeeds. -/
theorem run_storeLow {v : BitVec 32} (h : s.regs base = env.base) :
    (env.storeLow base field v).run s = .ok () (s.setMem (env.store field v s.mem)) := by
  simp [storeLow, h]

end Operands

variable [DecidableEq R]

/-- Writes a result, of which a field takes the lower half. -/
def write (v : BitVec 64) : Dst R M → EStateM ε (State R H) Unit
  | .reg r => modify fun s => s.set r v
  | .mem base field => env.storeLow base field (v.setWidth 32)

/-- Writes a 32-bit result. -/
def writeLow (v : BitVec 32) : Dst R M → EStateM ε (State R H) Unit
  | .reg r => modify fun s => s.setLow r v
  | .mem base field => env.storeLow base field v

/-- A call keeps every register but the one of its result. -/
def callFn (callee : X) (res : Option (Ty × R)) (args : List R) :
    EStateM ε (State R H) Unit := fun s =>
  match (env.call callee (args.map s.regs)).run s.mem with
  | .error e h => .error e (s.setMem h)
  | .ok ret h =>
    match res, ret with
    | none, _ => .ok () (s.setMem h)
    | some (ty, r), some v => .ok () ((s.setMem h).set r (ty.convert v))
    | some _, none => .error env.fault (s.setMem h)

/-- One instruction, and where it jumps to. -/
def step : Insn R M L X → EStateM ε (State R H) (Option L)
  | .mov dst src => do
    let v ← env.operand src
    env.write v dst
    return none
  | .opS op dst lhs rhs => do
    let l ← env.operand lhs
    let r ← env.operand rhs
    env.writeLow (op.eval (l.setWidth 32) (r.setWidth 32)) dst
    return none
  | .and dst lhs rhs => do
    let l ← env.operand lhs
    let r ← env.operand rhs
    env.write (l &&& r) dst
    return none
  | .branchS cond target lhs rhs => do
    let l ← env.operand lhs
    let r ← env.operand rhs
    return if cond.holds (l.setWidth 32) (r.setWidth 32) then some target else none
  | .jmp target => return some target
  | .label _ => return none
  | .call callee res args => do
    env.callFn callee res args
    return none

variable [DecidableEq L]

/-- Runs the code, skipping to a label if one is given. -/
def run : Option L → List (Insn R M L X) → EStateM ε (State R H) Unit
  | none, [] => pure ()
  | some _, [] => throw env.fault
  | none, insn :: code => do
    let target ← env.step insn
    run target code
  -- while skipping, nothing but the label has a meaning
  | some l, insn :: code => if insn.labelOf = some l then run none code else run (some l) code

/-! ### Execution rules -/

section Rules

variable {env} {s s' : State R H} {code : List (Insn R M L X)} {r base : R} {field : M}

@[simp] theorem run_nil : (env.run (none : Option L) ([] : List (Insn R M L X))).run s = .ok () s :=
  rfl

theorem run_cons_of_ok {insn : Insn R M L X} {target : Option L}
    (h : (env.step insn).run s = .ok target s') :
    (env.run none (insn :: code)).run s = (env.run target code).run s' := by
  rw [run, Stateful.run_seq_ok h]

@[simp] theorem run_mov_reg {src : Operand R M} (h : env.Valid s src) :
    (env.run none (.mov (.reg r) src :: code)).run s =
      (env.run none code).run (s.set r (env.value s src)) :=
  run_cons_of_ok (by simp [step, write, run_operand h, -bind_pure_comp])

@[simp] theorem run_mov_mem {src : Operand R M} (h : env.Valid s src)
    (hbase : s.regs base = env.base) :
    (env.run none (.mov (.mem base field) src :: code)).run s =
      (env.run none code).run (s.setMem (env.store field (env.low s src) s.mem)) :=
  run_cons_of_ok (by simp [step, write, run_operand h, run_storeLow hbase, low, -bind_pure_comp])

@[simp] theorem run_opS_reg {op : SOp} {lhs rhs : Operand R M} (hl : env.Valid s lhs)
    (hr : env.Valid s rhs) :
    (env.run none (.opS op (.reg r) lhs rhs :: code)).run s =
      (env.run none code).run (s.setLow r (op.eval (env.low s lhs) (env.low s rhs))) :=
  run_cons_of_ok (by simp [step, writeLow, run_operand hl, run_operand hr, low, -bind_pure_comp])

@[simp] theorem run_opS_mem {op : SOp} {lhs rhs : Operand R M} (hl : env.Valid s lhs)
    (hr : env.Valid s rhs) (hbase : s.regs base = env.base) :
    (env.run none (.opS op (.mem base field) lhs rhs :: code)).run s =
      (env.run none code).run
        (s.setMem (env.store field (op.eval (env.low s lhs) (env.low s rhs)) s.mem)) :=
  run_cons_of_ok (by
    simp [step, writeLow, run_operand hl, run_operand hr, run_storeLow hbase, low, -bind_pure_comp])

@[simp] theorem run_and_reg {lhs rhs : Operand R M} (hl : env.Valid s lhs)
    (hr : env.Valid s rhs) :
    (env.run none (.and (.reg r) lhs rhs :: code)).run s =
      (env.run none code).run (s.set r (env.value s lhs &&& env.value s rhs)) :=
  run_cons_of_ok (by simp [step, write, run_operand hl, run_operand hr, -bind_pure_comp])

@[simp] theorem run_branchS {cond : SCond} {target : L} {lhs rhs : Operand R M}
    (hl : env.Valid s lhs) (hr : env.Valid s rhs) :
    (env.run none (.branchS cond target lhs rhs :: code)).run s =
      (env.run (if cond.holds (env.low s lhs) (env.low s rhs) then some target else none)
        code).run s :=
  run_cons_of_ok (by simp [step, run_operand hl, run_operand hr, -bind_pure_comp]; rfl)

@[simp] theorem run_jmp {target : L} :
    (env.run none (.jmp target :: code)).run s = (env.run (some target) code).run s :=
  run_cons_of_ok rfl

@[simp] theorem run_label {l : L} :
    (env.run none (.label l :: code)).run s = (env.run none code).run s :=
  run_cons_of_ok rfl

/-- A jump skips what is not its label. -/
theorem run_skip {insn : Insn R M L X} {l : L} (h : insn.labelOf ≠ some l) :
    env.run (some l) (insn :: code) = env.run (some l) code := by
  rw [run, if_neg h]

/-- A jump lands on its label. -/
theorem run_land {l : L} : env.run (some l) (.label l :: code) = env.run none code := by
  exact if_pos rfl

theorem run_call {callee : X} {res : Option (Ty × R)} {args : List R} :
    (env.run none (.call callee res args :: code)).run s =
      match (env.callFn callee res args).run s with
      | .ok _ s' => (env.run none code).run s'
      | .error e s' => .error e s' := by
  rw [run, EStateM.run_bind, step, EStateM.run_bind]
  cases (env.callFn callee res args).run s <;> rfl

omit [DecidableEq L] in
/-- An instruction jumps nowhere but to its target. -/
theorem target_of_step {insn : Insn R M L X} {l : L}
    (h : (env.step insn).run s = .ok (some l) s') : insn.target = some l := by
  cases insn with
  | mov dst src =>
    obtain ⟨_, _, -, h⟩ := Stateful.run_seq_eq_ok.mp h
    obtain ⟨_, _, -, h⟩ := Stateful.run_seq_eq_ok.mp h
    cases h
  | opS op dst lhs rhs | and dst lhs rhs =>
    obtain ⟨_, _, -, h⟩ := Stateful.run_seq_eq_ok.mp h
    obtain ⟨_, _, -, h⟩ := Stateful.run_seq_eq_ok.mp h
    obtain ⟨_, _, -, h⟩ := Stateful.run_seq_eq_ok.mp h
    cases h
  | branchS cond target lhs rhs =>
    obtain ⟨_, _, -, h⟩ := Stateful.run_seq_eq_ok.mp h
    obtain ⟨_, _, -, h⟩ := Stateful.run_seq_eq_ok.mp h
    rw [EStateM.run_pure] at h
    split at h <;> cases h
    rfl
  | jmp target =>
    cases h
    rfl
  | label l => cases h
  | call callee res args =>
    obtain ⟨_, _, -, h⟩ := Stateful.run_seq_eq_ok.mp h
    cases h

/-- A piece of code whose jumps stay inside it runs to its end, where the next begins. The
induction is along the code, for running and for skipping: the label that is looked for is this
instruction, or it is still ahead. -/
theorem run_append_run {target : Option L} (hclosed : Closed code)
    (htarget : ∀ l, target = some l → l ∈ labels code) (code' : List (Insn R M L X)) :
    (env.run target (code ++ code')).run s =
      (env.run target code >>= fun _ => env.run none code').run s := by
  induction code generalizing target s with
  | nil =>
    cases target with
    | none => rfl
    | some l => exact absurd (htarget l rfl) List.not_mem_nil
  | cons insn code ih =>
    cases target with
    | none =>
      rw [List.cons_append, run, run, bind_assoc, EStateM.run_bind, EStateM.run_bind]
      cases hstep : (env.step insn).run s with
      | ok target s' => exact ih hclosed.2 fun l hl => hclosed.1 l (target_of_step (hl ▸ hstep))
      | error e s' => rfl
    | some l =>
      by_cases hlabel : insn.labelOf = some l
      · rw [List.cons_append, run, run, if_pos hlabel, if_pos hlabel]
        exact ih hclosed.2 fun l hl => by cases hl
      · rw [List.cons_append, run, run, if_neg hlabel, if_neg hlabel]
        refine ih hclosed.2 fun l' hl' => ?_
        obtain ⟨i, hi, hil⟩ := List.mem_filterMap.mp (htarget l rfl)
        cases hl'
        rcases List.mem_cons.mp hi with rfl | hi
        · exact absurd hil hlabel
        · exact List.mem_filterMap.mpr ⟨i, hi, hil⟩

/-- Code whose jumps stay inside it composes with what follows. -/
theorem run_append (hclosed : Closed code) (code' : List (Insn R M L X)) :
    env.run none (code ++ code') = (env.run none code >>= fun _ => env.run none code') :=
  funext fun _ => run_append_run hclosed (fun _ hl => by cases hl) code'

end Rules

end Env

/-! ### What code writes -/

section Writes

variable {P : M → Prop}

/-- Every field that is written satisfies `P`. -/
@[simp] def Dst.WritesIn (P : M → Prop) : Dst R M → Prop
  | .reg _ => True
  | .mem _ field => P field

/-- The instruction stores to no field outside `P`. -/
def Insn.WritesIn (P : M → Prop) : Insn R M L X → Prop
  | .mov dst _ | .opS _ dst _ _ | .and dst _ _ => dst.WritesIn P
  | _ => True

section Insns

variable (dst : Dst R M) (src lhs rhs : Operand R M) (l : L)

@[simp] theorem writesIn_mov : (.mov dst src : Insn R M L X).WritesIn P ↔ dst.WritesIn P := Iff.rfl

@[simp] theorem writesIn_opS (op : SOp) :
    (.opS op dst lhs rhs : Insn R M L X).WritesIn P ↔ dst.WritesIn P := Iff.rfl

@[simp] theorem writesIn_and :
    (.and dst lhs rhs : Insn R M L X).WritesIn P ↔ dst.WritesIn P := Iff.rfl

@[simp] theorem writesIn_branchS (c : SCond) :
    (.branchS c l lhs rhs : Insn R M L X).WritesIn P := trivial

@[simp] theorem writesIn_jmp : (.jmp l : Insn R M L X).WritesIn P := trivial

@[simp] theorem writesIn_label : (.label l : Insn R M L X).WritesIn P := trivial

@[simp] theorem writesIn_call (callee : X) (res : Option (Ty × R)) (args : List R) :
    (.call callee res args : Insn R M L X).WritesIn P := trivial

end Insns

/-- Every instruction writes to such fields only. -/
def WritesIn (P : M → Prop) (code : List (Insn R M L X)) : Prop :=
  ∀ insn ∈ code, insn.WritesIn P

section Code

variable {insn : Insn R M L X} {code code' : List (Insn R M L X)}

@[simp] theorem writesIn_nil : WritesIn P ([] : List (Insn R M L X)) := nofun

@[simp] theorem writesIn_cons :
    WritesIn P (insn :: code) ↔ insn.WritesIn P ∧ WritesIn P code :=
  List.forall_mem_cons

@[simp] theorem writesIn_append :
    WritesIn P (code ++ code') ↔ WritesIn P code ∧ WritesIn P code' :=
  List.forall_mem_append

end Code

/-- Stores to the fields in `P` stay inside `inv`, and so do the calls. -/
structure Env.Maintains (env : Env R M X H ε) (P : M → Prop) (inv : H → Prop) : Prop where
  store : ∀ {field : M} (v : BitVec 32) {h : H}, P field → inv h → inv (env.store field v h)
  call : ∀ callee args {h : H}, inv h →
    inv (Stateful.finalState ((env.call callee args).run h))

namespace Env

open Stateful

variable {env : Env R M X H ε} {inv : H → Prop}

theorem readsOnly_operand (src : Operand R M) : ReadsOnly (env.operand src) := by
  intro s
  by_cases h : env.Valid s src
  · rw [run_operand h, finalState_ok]
  · simp only [operand, EStateM.run_bind, EStateM.run_get, if_neg h]
    rfl

/-- A store keeps an invariant that its field keeps. -/
theorem preserves_storeLow (hmaintains : env.Maintains P inv) (base : R) {field : M}
    (hfield : P field) (v : BitVec 32) :
    Preserves (fun s => inv s.mem) (env.storeLow base field v) := by
  intro s hs
  by_cases h : s.regs base = env.base
  · rw [run_storeLow h]
    exact hmaintains.store v hfield hs
  · simp only [storeLow, EStateM.run_bind, EStateM.run_get, if_neg h]
    exact hs

variable [DecidableEq R]

/-- Writing a result keeps an invariant that its field keeps. -/
theorem preserves_write (hmaintains : env.Maintains P inv) {dst : Dst R M}
    (hwrites : dst.WritesIn P) (v : BitVec 64) :
    Preserves (fun s => inv s.mem) (env.write v dst) := by
  cases dst with
  | reg r => exact fun _ hs => hs
  | mem base field => exact preserves_storeLow hmaintains base hwrites _

/-- Writing a 32-bit result keeps an invariant that its field keeps. -/
theorem preserves_writeLow (hmaintains : env.Maintains P inv) {dst : Dst R M}
    (hwrites : dst.WritesIn P) (v : BitVec 32) :
    Preserves (fun s => inv s.mem) (env.writeLow v dst) := by
  cases dst with
  | reg r => exact fun _ hs => hs
  | mem base field => exact preserves_storeLow hmaintains base hwrites v

/-- A call keeps what every callee keeps, whether the result is there or not. -/
theorem preserves_callFn (hmaintains : env.Maintains P inv) (callee : X)
    (res : Option (Ty × R)) (args : List R) :
    Preserves (fun s => inv s.mem) (env.callFn callee res args) := by
  intro s hs
  have hcall := hmaintains.call callee (args.map s.regs) hs
  simp only [callFn, EStateM.run] at hcall ⊢
  revert hcall
  cases env.call callee (args.map s.regs) s.mem with
  | error e h => exact id
  | ok ret h => cases res <;> cases ret <;> exact id

omit [DecidableEq R] in
/-- What an instruction reads first is up to the instruction. -/
theorem inv_finalState_operand (src : Operand R M) {α : Type}
    {y : BitVec 64 → EStateM ε (State R H) α} {s : State R H} (hs : inv s.mem)
    (hy : ∀ v s', inv s'.mem → inv (finalState ((y v).run s')).mem) :
    inv (finalState ((env.operand src >>= y).run s)).mem :=
  inv_finalState_bind (fun s : State R H => inv s.mem) ((readsOnly_operand src s).symm ▸ hs) hy

omit [DecidableEq R] in
/-- Naming a target does nothing more. -/
theorem inv_finalState_target {x : EStateM ε (State R H) Unit}
    (hx : Preserves (fun s => inv s.mem) x) (target : Option L) {s : State R H} (hs : inv s.mem) :
    inv (finalState ((x >>= fun _ => pure target).run s)).mem :=
  inv_finalState_bind (fun s : State R H => inv s.mem) (hx s hs) fun _ _ => id

/-- However the instruction ends, and wherever it jumps to. -/
theorem inv_finalState_step (hmaintains : env.Maintains P inv) {insn : Insn R M L X}
    (hwrites : insn.WritesIn P) {s : State R H} (hs : inv s.mem) :
    inv (finalState ((env.step insn).run s)).mem := by
  cases insn with
  | mov dst src =>
    exact inv_finalState_operand src hs fun v _ hs' =>
      inv_finalState_target (preserves_write hmaintains hwrites v) none hs'
  | opS op dst lhs rhs =>
    exact inv_finalState_operand lhs hs fun l _ hs' => inv_finalState_operand rhs hs' fun r _ hs' =>
      inv_finalState_target (preserves_writeLow hmaintains hwrites _) none hs'
  | and dst lhs rhs =>
    exact inv_finalState_operand lhs hs fun l _ hs' => inv_finalState_operand rhs hs' fun r _ hs' =>
      inv_finalState_target (preserves_write hmaintains hwrites _) none hs'
  | branchS cond target lhs rhs =>
    exact inv_finalState_operand lhs hs fun _ _ hs' =>
      inv_finalState_operand rhs hs' fun _ _ => id
  | jmp | label => exact hs
  | call callee res args =>
    exact inv_finalState_target (preserves_callFn hmaintains callee res args) none hs

variable [DecidableEq L]

/-- Code that stores to the fields in `P` only stays inside what these stores maintain,
also from within a jump. -/
theorem preserves_run (hmaintains : env.Maintains P inv) {code : List (Insn R M L X)}
    (hwrites : WritesIn P code) (target : Option L) :
    Preserves (fun s => inv s.mem) (env.run target code) := by
  induction code generalizing target with
  | nil => cases target <;> exact fun _ hs => hs
  | cons insn code ih =>
    obtain ⟨hhead, htail⟩ := writesIn_cons.mp hwrites
    cases target with
    | none =>
      intro s hs
      rw [run]
      exact inv_finalState_bind (fun s : State R H => inv s.mem)
        (inv_finalState_step hmaintains hhead hs) fun target => ih htail target
    | some l =>
      rw [run]
      split
      · exact ih htail none
      · exact ih htail (some l)

end Env

end Writes

end Mir
