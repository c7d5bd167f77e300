import Mathlib.Tactic.Common

/-!
# Stateful computations and their refinement

A computation over a mutable state that an exception can stop halfway is an
`EStateM`: it returns, or it raises, and either way it leaves a state behind.
This file adds what a refinement proof needs: reading the state left behind,
running a list of commands, and comparing a concrete computation with an
abstract one through a projection of the states.

## Main definitions

* `Stateful.Matches`: two results agree through a projection, and the concrete
  one is back inside an invariant when it returned
* `Stateful.Refines`: from every concrete state inside the invariant, the
  results match

## Main results

* `Refines.seq`, `Refines.forM`: refinement composes along sequencing and along
  a list of commands
* `Refines.ok`: a refined computation returns wherever the abstract one does
-/

namespace Stateful

variable {ε σ τ α β : Type}

/-- The state a result leaves behind, whether it returned or raised. -/
def finalState : EStateM.Result ε σ α → σ
  | .ok _ s => s
  | .error _ s => s

@[simp] theorem finalState_ok (a : α) (s : σ) :
    finalState (.ok a s : EStateM.Result ε σ α) = s := rfl

@[simp] theorem finalState_error (e : ε) (s : σ) :
    finalState (.error e s : EStateM.Result ε σ α) = s := rfl

/-- A computation that neither reads nor writes the state. -/
def ofExcept (x : Except ε α) : EStateM ε σ α := fun s =>
  match x with
  | .ok a => .ok a s
  | .error e => .error e s

@[simp] theorem run_ofExcept_ok (a : α) (s : σ) :
    (ofExcept (.ok a) : EStateM ε σ α).run s = .ok a s := rfl

@[simp] theorem run_ofExcept_error (e : ε) (s : σ) :
    (ofExcept (.error e) : EStateM ε σ α).run s = .error e s := rfl

/-! ### Sequencing -/

/-- What returns is followed by the rest. -/
theorem run_seq_ok {x : EStateM ε σ α} {y : α → EStateM ε σ β} {s s' : σ} {a : α}
    (h : x.run s = .ok a s') : (x >>= y).run s = (y a).run s' := by
  rw [EStateM.run_bind, h]

theorem run_seq_error {x : EStateM ε σ α} {y : α → EStateM ε σ β} {s s' : σ} {e : ε}
    (h : x.run s = .error e s') : (x >>= y).run s = .error e s' := by
  rw [EStateM.run_bind, h]

/-- A sequence returns only if both halves do. -/
theorem run_seq_eq_ok {x : EStateM ε σ α} {y : α → EStateM ε σ β} {s s'' : σ} {b : β} :
    (x >>= y).run s = .ok b s'' ↔
      ∃ a s', x.run s = .ok a s' ∧ (y a).run s' = .ok b s'' := by
  rw [EStateM.run_bind]
  cases h : x.run s with
  | ok a s' => simp
  | error e s' => simp

/-- Running concatenated command lists runs one list after the other. -/
theorem forM_flatten (f : α → EStateM ε σ PUnit) (lists : List (List α)) :
    forM lists.flatten f = forM lists fun l => forM l f := by
  induction lists with
  | nil => rfl
  | cons l lists ih => rw [List.flatten_cons, List.forM_append, ih, List.forM_cons]

/-- A list of commands none of which does anything. -/
theorem run_forM_eq_self {f : α → EStateM ε σ PUnit} {l : List α} {s : σ}
    (h : ∀ a ∈ l, (f a).run s = .ok () s) : (forM l f).run s = .ok () s := by
  induction l with
  | nil => rfl
  | cons a l ih =>
    rw [List.forM_cons, run_seq_ok (h a List.mem_cons_self)]
    exact ih fun b hb => h b (List.mem_cons_of_mem a hb)

/-- A list of commands returns if each of them does, wherever it is run. -/
theorem exists_run_forM_ok {f : α → EStateM ε σ PUnit} {l : List α}
    (h : ∀ a ∈ l, ∀ s, ∃ s', (f a).run s = .ok () s') (s : σ) :
    ∃ s', (forM l f).run s = .ok () s' := by
  induction l generalizing s with
  | nil => exact ⟨s, rfl⟩
  | cons a l ih =>
    obtain ⟨s₁, ha⟩ := h a List.mem_cons_self s
    rw [List.forM_cons, run_seq_ok ha]
    exact ih (fun b hb => h b (List.mem_cons_of_mem a hb)) s₁

/-- A list of commands raises if one of them does, wherever it is run. -/
theorem exists_run_forM_error {f : α → EStateM ε σ PUnit} {l : List α} {a : α} (ha : a ∈ l)
    (h : ∀ s, ∃ e s', (f a).run s = .error e s') (s : σ) :
    ∃ e s', (forM l f).run s = .error e s' := by
  induction l generalizing s with
  | nil => cases ha
  | cons b l ih =>
    rw [List.forM_cons]
    cases hb : (f b).run s with
    | error e s' => exact ⟨e, s', run_seq_error hb⟩
    | ok _ s' =>
      rcases List.mem_cons.mp ha with rfl | ha
      · obtain ⟨e, s'', hraise⟩ := h s
        rw [hb] at hraise
        cases hraise
      · rw [run_seq_ok hb]
        exact ih ha s'

/-! ### Loops that pass on a value -/

/-- Keeps the value that a step passes on in the state. -/
def threaded (f : α → EStateM ε σ α) : EStateM ε (α × σ) Unit := fun s =>
  match (f s.1).run s.2 with
  | .ok a s' => .ok () (a, s')
  | .error e s' => .error e (s.1, s')

/-- A step that returns hands on its value in the state. -/
theorem run_threaded_ok {f : α → EStateM ε σ α} {a a' : α} {s s' : σ}
    (h : (f a).run s = .ok a' s') : (threaded f).run (a, s) = .ok () (a', s') := by
  change (match (f a).run s with
    | .ok a s' => EStateM.Result.ok () (a, s')
    | .error e s' => .error e (a, s')) = _
  rw [h]

/-- A step that raises leaves the old value there. -/
theorem run_threaded_error {f : α → EStateM ε σ α} {a : α} {s s' : σ} {e : ε}
    (h : (f a).run s = .error e s') : (threaded f).run (a, s) = .error e (a, s') := by
  change (match (f a).run s with
    | .ok a s' => EStateM.Result.ok () (a, s')
    | .error e s' => .error e (a, s')) = _
  rw [h]

/-- A fold is a loop that threads its accumulator through the state, except that an exception
loses the value, and the state is kept. -/
theorem run_foldlM (f : β → α → EStateM ε σ α) (l : List β) (a : α) (s : σ) :
    (l.foldlM (fun a b => f b a) a).run s =
      match (forM l fun b => threaded (f b)).run (a, s) with
      | .ok _ s' => .ok s'.1 s'.2
      | .error e s' => .error e s'.2 := by
  induction l generalizing a s with
  | nil => rfl
  | cons b l ih =>
    rw [List.foldlM_cons, List.forM_cons, EStateM.run_bind, EStateM.run_bind]
    cases h : (f b a).run s with
    | ok a' s' =>
      rw [run_threaded_ok h]
      exact ih a' s'
    | error e s' => rw [run_threaded_error h]

/-- A list is translated if each of its elements is. -/
theorem exists_mapM_eq_ok {f : α → Except ε β} {P : α → β → Prop} (l : List α)
    (each : ∀ a ∈ l, ∃ b, f a = .ok b ∧ P a b) :
    ∃ bs, l.mapM f = .ok bs ∧ List.Forall₂ P l bs := by
  induction l with
  | nil => exact ⟨[], rfl, .nil⟩
  | cons a l ih =>
    obtain ⟨b, hb, hP⟩ := each a List.mem_cons_self
    obtain ⟨bs, hbs, hrest⟩ := ih fun a' ha' => each a' (List.mem_cons_of_mem a ha')
    refine ⟨b :: bs, ?_, .cons hP hrest⟩
    rw [List.mapM_cons, hb, hbs]
    rfl

/-- A translation in two halves succeeds only if both do. -/
theorem exists_of_bind_eq_ok {x : Except ε α} {f : α → Except ε β} {b : β}
    (h : x >>= f = .ok b) : ∃ a, x = .ok a ∧ f a = .ok b := by
  cases x with
  | ok a => exact ⟨a, rfl, h⟩
  | error e => cases h

/-- Whatever is in the result of a translation comes from one of the elements. -/
theorem exists_of_mem_mapM {f : α → Except ε β} {l : List α} {bs : List β}
    (h : l.mapM f = .ok bs) {b : β} (hb : b ∈ bs) : ∃ a ∈ l, f a = .ok b := by
  induction l generalizing bs with
  | nil =>
    cases h
    cases hb
  | cons a l ih =>
    rw [List.mapM_cons] at h
    obtain ⟨b', hhead, h⟩ := exists_of_bind_eq_ok h
    obtain ⟨bs', htail, h⟩ := exists_of_bind_eq_ok h
    cases h
    rcases List.mem_cons.mp hb with rfl | hb
    · exact ⟨a, List.mem_cons_self, hhead⟩
    · obtain ⟨a', ha', hfa'⟩ := ih htail hb
      exact ⟨a', List.mem_cons_of_mem a ha', hfa'⟩

/-! ### Invariants -/

/-- In a sequence, the second half starts inside `inv` if the first half ends there. -/
theorem inv_finalState_bind (inv : σ → Prop) {x : EStateM ε σ α} {y : α → EStateM ε σ β} {s : σ}
    (hx : inv (finalState (x.run s)))
    (hy : ∀ a s', inv s' → inv (finalState ((y a).run s'))) :
    inv (finalState ((x >>= y).run s)) := by
  rw [EStateM.run_bind]
  revert hx
  cases x.run s with
  | ok a s' => exact hy a s'
  | error e s' => exact id

/-- However the computation ends, the state is what it was. -/
def ReadsOnly (x : EStateM ε σ α) : Prop := ∀ s, finalState (x.run s) = s

/-- However the computation ends, the state it leaves behind is inside `inv` again. -/
def Preserves (inv : σ → Prop) (x : EStateM ε σ Unit) : Prop :=
  ∀ s, inv s → inv (finalState (x.run s))

namespace Preserves

variable {inv : σ → Prop} {x y : EStateM ε σ Unit}

/-- What returns keeps the invariant. -/
theorem ok (h : Preserves inv x) {s s' : σ} (hs : inv s) (hx : x.run s = .ok () s') : inv s' := by
  have hs' := h s hs
  rwa [hx] at hs'

/-- One after the other keeps it. -/
theorem seq (hx : Preserves inv x) (hy : Preserves inv y) :
    Preserves inv (x >>= fun _ => y) :=
  fun s hs => inv_finalState_bind inv (hx s hs) fun _ => hy

/-- What a step reads first is up to the step. -/
theorem readsOnly_bind {x : EStateM ε σ α} {y : α → EStateM ε σ Unit} (hx : ReadsOnly x)
    (hy : ∀ a, Preserves inv (y a)) : Preserves inv (x >>= y) :=
  fun s hs => inv_finalState_bind inv ((hx s).symm ▸ hs) hy

/-- A loop keeps it if each round does. -/
theorem forM {f : α → EStateM ε σ Unit} (l : List α) (each : ∀ a ∈ l, Preserves inv (f a)) :
    Preserves inv (forM l f) := by
  induction l with
  | nil => exact fun _ hs => hs
  | cons a l ih =>
    rw [List.forM_cons]
    exact seq (each a List.mem_cons_self) (ih fun b hb => each b (List.mem_cons_of_mem a hb))

end Preserves

/-! ### Refinement through a projection -/

/-- A concrete result agrees with an abstract one through `proj`. The invariant
need hold again only if the computation returned. -/
inductive Matches (proj : τ → σ) (inv : τ → Prop) :
    EStateM.Result ε τ Unit → EStateM.Result ε σ Unit → Prop
  | returned {t : τ} {s : σ} (same : proj t = s) (kept : inv t) :
      Matches proj inv (.ok () t) (.ok () s)
  | raised {e : ε} {t : τ} {s : σ} (same : proj t = s) :
      Matches proj inv (.error e t) (.error e s)

/-- From every concrete state inside `inv`, the computation `x` does what the
abstract computation `y` does from the projected state. -/
def Refines (proj : τ → σ) (inv : τ → Prop)
    (x : EStateM ε τ Unit) (y : EStateM ε σ Unit) : Prop :=
  ∀ t, inv t → Matches proj inv (x.run t) (y.run (proj t))

namespace Refines

variable {proj : τ → σ} {inv : τ → Prop} {x x' : EStateM ε τ Unit} {y y' : EStateM ε σ Unit}

theorem pure : Refines (ε := ε) proj inv (pure ()) (pure ()) :=
  fun _ kept => .returned rfl kept

/-- Refinement composes along sequencing. -/
theorem seq (first : Refines proj inv x y) (second : Refines proj inv x' y') :
    Refines proj inv (x >>= fun _ => x') (y >>= fun _ => y') := by
  intro t kept
  have hfirst := first t kept
  rw [EStateM.run_bind, EStateM.run_bind]
  revert hfirst
  generalize x.run t = concrete
  generalize y.run (proj t) = abstract
  rintro (⟨same, kept'⟩ | same)
  · subst same
    exact second _ kept'
  · exact .raised same

/-- Refinement of each command gives refinement of the list. -/
theorem forM {f : α → EStateM ε τ Unit} {g : α → EStateM ε σ Unit} (l : List α)
    (each : ∀ a ∈ l, Refines proj inv (f a) (g a)) :
    Refines proj inv (forM l f) (forM l g) := by
  induction l with
  | nil => exact pure
  | cons a l ih =>
    rw [List.forM_cons, List.forM_cons]
    exact seq (each a List.mem_cons_self) (ih fun b hb => each b (List.mem_cons_of_mem a hb))

/-- Refinement of the pieces of a translation gives refinement of the whole. -/
theorem forM₂ {f : α → EStateM ε τ Unit} {g : β → EStateM ε σ Unit} {l : List β} {l' : List α}
    (each : List.Forall₂ (fun b a => Refines proj inv (f a) (g b)) l l') :
    Refines proj inv (ForM.forM l' f) (ForM.forM l g) := by
  induction each with
  | nil => exact pure
  | cons head _ ih =>
    rw [List.forM_cons, List.forM_cons]
    exact seq head ih

/-- Where the abstract computation returns, so does the concrete one. -/
theorem ok (h : Refines proj inv x y) {t : τ} (kept : inv t) {s' : σ}
    (hy : y.run (proj t) = .ok () s') :
    ∃ t', x.run t = .ok () t' ∧ proj t' = s' ∧ inv t' := by
  have hmatch := h t kept
  rw [hy] at hmatch
  generalize hx : x.run t = concrete at hmatch
  cases hmatch with
  | returned same kept' => exact ⟨_, rfl, same, kept'⟩

/-- Where the concrete computation returns, so does the abstract one. -/
theorem ok_abstract (h : Refines proj inv x y) {t t' : τ} (kept : inv t)
    (hx : x.run t = .ok () t') : y.run (proj t) = .ok () (proj t') ∧ inv t' := by
  have hmatch := h t kept
  rw [hx] at hmatch
  generalize y.run (proj t) = abstract at hmatch
  cases hmatch with
  | returned same kept' => exact ⟨by rw [same], kept'⟩

/-- Whatever happens, the states left behind correspond. -/
theorem finalState_eq (h : Refines proj inv x y) {t : τ} (kept : inv t) :
    proj (finalState (x.run t)) = finalState (y.run (proj t)) := by
  have hmatch := h t kept
  revert hmatch
  generalize x.run t = concrete
  generalize y.run (proj t) = abstract
  rintro (⟨same, _⟩ | same)
  · exact same
  · exact same

end Refines

end Stateful
