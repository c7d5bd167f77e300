import Prot.Lib.Stateful

/-!
# Straight-line code in SSA form

A builder of SSA code emits operations and gets back a name for the value of
each. Such code is represented by what the builder does with the names: `Code`
is a free monad over the pure operations `Rhs` and the effects `E` of the
client, generic in the type `V w` of the names of `w`-bit values. The code is
evaluated by taking the values themselves as names.

What a shift by the width of its operand or more means differs between the
languages of this kind, so it is left to a `ShiftRule`.

## Main definitions

* `Ssa.Code`: code that ends with a value of the builder's own
* `Ssa.Env.eval`: evaluates code, with a handler of its effects

## Main results

* `Ssa.Env.eval_bind`: code that is built in sequence runs in sequence
* `Ssa.Env.eval_forM`, `Ssa.Env.eval_foldlM`: so does code built in a loop
* `Ssa.Env.inv_finalState_eval`: an invariant, from the effects that code has
-/

namespace Ssa

/-- The operations on two values of one width. -/
inductive BinOp where
  | add | sub | and | or | xor | shl | lshr | ashr
  deriving DecidableEq

/-- The predicates of a comparison. -/
inductive Pred where
  | eq | ne | slt | sge | ult | uge
  deriving DecidableEq

/-- The operations without effect, by the width of their value. -/
inductive Rhs (V : ℕ → Type) : ℕ → Type
  | const {w : ℕ} (val : BitVec w) : Rhs V w
  | bin {w : ℕ} (op : BinOp) (lhs rhs : V w) : Rhs V w
  | icmp {w : ℕ} (pred : Pred) (lhs rhs : V w) : Rhs V 1
  | select {w : ℕ} (cond : V 1) (ifTrue ifFalse : V w) : Rhs V w
  | zext {v w : ℕ} (val : V v) : Rhs V w
  | sext {v w : ℕ} (val : V v) : Rhs V w
  | trunc {v w : ℕ} (val : V v) : Rhs V w

/-- What an effect gives back: nothing, or a value of some width. -/
abbrev Ret (V : ℕ → Type) : Option ℕ → Type
  | none => Unit
  | some w => V w

/-- Code under construction: a value that is named, or an effect, and what is built from its
result. -/
inductive Code (E : (ℕ → Type) → Option ℕ → Type) (V : ℕ → Type) (α : Type) : Type
  | ret (a : α)
  | value {w : ℕ} (rhs : Rhs V w) (k : V w → Code E V α)
  | effect {r : Option ℕ} (e : E V r) (k : Ret V r → Code E V α)

namespace Code

variable {E : (ℕ → Type) → Option ℕ → Type} {V : ℕ → Type} {α β : Type}

/-- One builder after another. -/
def bind : Code E V α → (α → Code E V β) → Code E V β
  | ret a, f => f a
  | value rhs k, f => value rhs fun v => bind (k v) f
  | effect e k, f => effect e fun v => bind (k v) f

instance : Monad (Code E V) where
  pure := ret
  bind := bind

/-- Emits an operation. -/
def emit {w : ℕ} (rhs : Rhs V w) : Code E V (V w) := value rhs ret

/-- Emits an effect. -/
def perform {r : Option ℕ} (e : E V r) : Code E V (Ret V r) := effect e ret

end Code

/-! ### Values -/

/-- The number of places that a shift moves by, if it has a value at all. -/
abbrev ShiftRule := (w : ℕ) → BitVec w → Option ℕ

/-- The amount is taken modulo the width. -/
def wrapShift : ShiftRule := fun w amount => some (amount.toNat % w)

/-- An amount of the width or more makes the result poison. -/
def strictShift : ShiftRule := fun w amount =>
  if amount.toNat < w then some amount.toNat else none

/-- A shift by less than the width is what it says. -/
theorem strictShift_of_lt {w : ℕ} {amount : BitVec w} (h : amount.toNat < w) :
    strictShift w amount = some amount.toNat := if_pos h

/-- A shift by the width or more is poison. -/
theorem strictShift_of_le {w : ℕ} {amount : BitVec w} (h : w ≤ amount.toNat) :
    strictShift w amount = none := if_neg (Nat.not_lt.mpr h)

section Eval

variable (shift : ShiftRule) {w : ℕ} (a b : BitVec w)

/-- No value is the poison value. -/
def BinOp.eval : BinOp → Option (BitVec w)
  | add => some (a + b)
  | sub => some (a - b)
  | and => some (a &&& b)
  | or => some (a ||| b)
  | xor => some (a ^^^ b)
  | shl => (shift w b).map (a <<< ·)
  | lshr => (shift w b).map (a >>> ·)
  | ashr => (shift w b).map a.sshiftRight

/-- Whether a predicate holds. -/
def Pred.holds : Pred → Bool
  | eq => a == b
  | ne => a != b
  | slt => a.slt b
  | sge => !a.slt b
  | ult => a.ult b
  | uge => !a.ult b

/-- The value of a right-hand side, unless it is poison. -/
def Rhs.eval : {w : ℕ} → Rhs BitVec w → Option (BitVec w)
  | _, const val => some val
  | _, bin op lhs rhs => op.eval shift lhs rhs
  | _, icmp pred lhs rhs => some (BitVec.ofBool (pred.holds lhs rhs))
  | _, select cond ifTrue ifFalse => some (if cond = 1#1 then ifTrue else ifFalse)
  | w, zext val => some (val.setWidth w)
  | w, sext val => some (val.signExtend w)
  | w, trunc val => some (val.setWidth w)

end Eval

/-! ### Evaluation -/

/-- How shifts are taken, and what the effects do. -/
structure Env (E : (ℕ → Type) → Option ℕ → Type) (H ε : Type) where
  shift : ShiftRule
  /-- Raised by an operation whose value is poison. -/
  poison : ε
  handle : {r : Option ℕ} → E BitVec r → EStateM ε H (Ret BitVec r)

namespace Env

variable {E : (ℕ → Type) → Option ℕ → Type} {H ε α β : Type} (env : Env E H ε)

/-- The value of an operation, if it is not poison. -/
def evalRhs {w : ℕ} (rhs : Rhs BitVec w) : EStateM ε H (BitVec w) :=
  match rhs.eval env.shift with
  | some v => pure v
  | none => throw env.poison

/-- Runs the code: the values are computed, and the effects take place in their order. -/
def eval : Code E BitVec α → EStateM ε H α
  | .ret a => pure a
  | .value rhs k => do
    let v ← env.evalRhs rhs
    eval (k v)
  | .effect e k => do
    let v ← env.handle e
    eval (k v)

@[simp] theorem eval_pure (a : α) : env.eval (pure a) = pure a := rfl

/-- A named value is what its right-hand side computes. -/
@[simp] theorem eval_emit {w : ℕ} (rhs : Rhs BitVec w) :
    env.eval (.emit rhs) = env.evalRhs rhs := bind_pure _

@[simp] theorem eval_perform {r : Option ℕ} (e : E BitVec r) :
    env.eval (.perform e) = env.handle e := bind_pure _

/-- Code that is built in sequence runs in sequence. -/
@[simp] theorem eval_bind (c : Code E BitVec α) (f : α → Code E BitVec β) :
    env.eval (c >>= f) = env.eval c >>= fun a => env.eval (f a) := by
  change env.eval (c.bind f) = _
  induction c with
  | ret a => rw [Code.bind, eval, pure_bind]
  | value rhs k ih => simp only [Code.bind, eval, bind_assoc, ih]
  | effect e k ih => simp only [Code.bind, eval, bind_assoc, ih]

/-- Code that is built in a loop runs in a loop. -/
theorem eval_forM {γ : Type} (f : γ → Code E BitVec PUnit) (l : List γ) :
    env.eval (forM l f) = forM l fun c => env.eval (f c) := by
  induction l with
  | nil => rfl
  | cons c l ih => rw [List.forM_cons, List.forM_cons, eval_bind, ih]

/-- A loop that builds code unrolls into a loop that runs it. -/
theorem eval_foldlM {γ : Type} (f : α → γ → Code E BitVec α) (l : List γ) (a : α) :
    env.eval (l.foldlM f a) = l.foldlM (fun a c => env.eval (f a c)) a := by
  induction l generalizing a with
  | nil => rfl
  | cons c l ih =>
    rw [List.foldlM_cons, List.foldlM_cons, eval_bind]
    simp only [ih]

section Rules

variable {env} {w v : ℕ} {lhs rhs : BitVec w} {h : H}

/-- A selection between two values is a conditional. -/
@[simp] theorem evalRhs_select {cond : Bool} :
    env.evalRhs (.select (BitVec.ofBool cond) lhs rhs) = pure (if cond then lhs else rhs) := by
  cases cond <;> rfl

theorem evalRhs_bin_of_eq_some {op : BinOp} {val : BitVec w}
    (hop : op.eval env.shift lhs rhs = some val) :
    env.evalRhs (.bin op lhs rhs) = pure val := by
  simp only [evalRhs, Rhs.eval, hop]

theorem evalRhs_bin_of_eq_none {op : BinOp} (hop : op.eval env.shift lhs rhs = none) :
    env.evalRhs (.bin op lhs rhs) = throw env.poison := by
  simp only [evalRhs, Rhs.eval, hop]

end Rules

end Env

/-! ### What effects code has -/

section Effects

variable {E : (ℕ → Type) → Option ℕ → Type} {V : ℕ → Type} {H ε α β γ : Type}

/-- Every effect is in `P`, whatever the values before it. -/
def Code.EffectsIn (P : {r : Option ℕ} → E V r → Prop) : Code E V α → Prop
  | .ret _ => True
  | .value _ k => ∀ v, EffectsIn P (k v)
  | .effect e k => P e ∧ ∀ v, EffectsIn P (k v)

namespace Code

variable {P : {r : Option ℕ} → E V r → Prop}

@[simp] theorem effectsIn_pure (a : α) : EffectsIn P (pure a : Code E V α) := trivial

@[simp] theorem effectsIn_emit {w : ℕ} (rhs : Rhs V w) : EffectsIn P (.emit rhs : Code E V (V w)) :=
  fun _ => trivial

@[simp] theorem effectsIn_perform {r : Option ℕ} {e : E V r} :
    EffectsIn P (.perform e) ↔ P e := and_iff_left fun _ => trivial

@[simp] theorem effectsIn_emit_bind {w : ℕ} {rhs : Rhs V w} {f : V w → Code E V α} :
    (Code.emit rhs >>= f).EffectsIn P ↔ ∀ v, (f v).EffectsIn P := Iff.rfl

@[simp] theorem effectsIn_perform_bind {r : Option ℕ} {e : E V r} {f : Ret V r → Code E V α} :
    (Code.perform e >>= f).EffectsIn P ↔ P e ∧ ∀ v, (f v).EffectsIn P := Iff.rfl

/-- The effects of two builders are those of each. -/
theorem EffectsIn.bind {c : Code E V α} {f : α → Code E V β} (hc : c.EffectsIn P)
    (hf : ∀ a, (f a).EffectsIn P) : (c >>= f).EffectsIn P := by
  change (c.bind f).EffectsIn P
  induction c with
  | ret a => exact hf a
  | value rhs k ih => exact fun v => ih v (hc v)
  | effect e k ih => exact ⟨hc.1, fun v => ih v (hc.2 v)⟩

/-- The effects of a loop are those of its body. -/
theorem effectsIn_forM {f : γ → Code E V PUnit} {l : List γ}
    (hf : ∀ c ∈ l, (f c).EffectsIn P) : (forM l f).EffectsIn P := by
  induction l with
  | nil => trivial
  | cons c l ih =>
    obtain ⟨hhead, htail⟩ := List.forall_mem_cons.mp hf
    rw [List.forM_cons]
    exact hhead.bind fun _ => ih htail

/-- The effects of a loop with an accumulator are those of its body. -/
theorem effectsIn_foldlM {f : α → γ → Code E V α} {l : List γ}
    (hf : ∀ c ∈ l, ∀ a, (f a c).EffectsIn P) (a : α) : (l.foldlM f a).EffectsIn P := by
  induction l generalizing a with
  | nil => trivial
  | cons c l ih =>
    obtain ⟨hhead, htail⟩ := List.forall_mem_cons.mp hf
    rw [List.foldlM_cons]
    exact (hhead a).bind fun a' => ih htail a'

end Code

open Stateful

/-- Code whose effects are all in `P` stays inside what these effects maintain, whatever
its shifts mean. -/
theorem Env.inv_finalState_eval {env : Env E H ε} {P : {r : Option ℕ} → E BitVec r → Prop}
    {inv : H → Prop}
    (hhandle : ∀ {r : Option ℕ} {e : E BitVec r} {h : H}, P e → inv h →
      inv (finalState ((env.handle e).run h)))
    {code : Code E BitVec α} (hcode : code.EffectsIn P) {h : H} (hinv : inv h) :
    inv (finalState ((env.eval code).run h)) := by
  induction code generalizing h with
  | ret a => exact hinv
  | value rhs k ih =>
    rw [eval]
    refine inv_finalState_bind inv ?_ fun v _ => ih v (hcode v)
    rw [evalRhs]
    cases rhs.eval env.shift <;> exact hinv
  | effect e k ih =>
    rw [eval]
    exact inv_finalState_bind inv (hhandle hcode.1 hinv) fun v _ => ih v (hcode.2 v)

end Effects

end Ssa
