import Mathlib.Data.Nat.Notation
import Mathlib.Tactic.TypeStar

/-!
# Total correctness, with the number of steps

For a machine that is given by what a step can do, a triple says that every state with the
precondition has a run of a given length to a state with the postcondition.

## Main definitions

* `Steps`: runs of a given length
* `Triple`: what a number of steps establishes

## Main results

* `Triple.seq`, `Triple.iterate`: one after the other, and again and again
* `Steps.exists_trace`: the states that a run goes through
-/

namespace Hoare

variable {σ : Type*}

/-- A run of `n` steps. -/
inductive Steps (R : σ → σ → Prop) : ℕ → σ → σ → Prop
  | refl (s : σ) : Steps R 0 s s
  | head {n : ℕ} {s t u : σ} (hstep : R s t) (hrest : Steps R n t u) : Steps R (n + 1) s u

namespace Steps

variable {R : σ → σ → Prop} {m n : ℕ} {s t u : σ}

theorem single (h : R s t) : Steps R 1 s t := .head h (.refl t)

/-- Runs compose, and their lengths add up. -/
theorem trans (h : Steps R m s t) (h' : Steps R n t u) : Steps R (m + n) s u := by
  induction h with
  | refl s => rwa [Nat.zero_add]
  | head hstep _ ih =>
    rw [Nat.succ_add]
    exact .head hstep (ih h')

/-- What every step keeps, a run keeps. -/
theorem invariant {I : σ → Prop} (hI : ∀ s t, R s t → I s → I t) (h : Steps R n s t) (hs : I s) :
    I t := by
  induction h with
  | refl s => exact hs
  | head hstep _ ih => exact ih (hI _ _ hstep hs)

/-- The run as a sequence of states. -/
theorem exists_trace (h : Steps R n s t) :
    ∃ trace : ℕ → σ, trace 0 = s ∧ trace n = t ∧ ∀ k < n, R (trace k) (trace (k + 1)) := by
  induction h with
  | refl s => exact ⟨fun _ => s, rfl, rfl, fun k hk => absurd hk (Nat.not_lt_zero k)⟩
  | @head n s t u hstep _ ih =>
    obtain ⟨trace, hfirst, hlast, htrace⟩ := ih
    refine ⟨fun k => Nat.casesOn k s trace, rfl, hlast, fun k hk => ?_⟩
    cases k with
    | zero =>
      rw [← hfirst] at hstep
      exact hstep
    | succ k => exact htrace k (Nat.lt_of_succ_lt_succ hk)

end Steps

/-- From every state with `P`, there is a run of `n` steps to a state with `Q`. -/
def Triple (R : σ → σ → Prop) (P : σ → Prop) (n : ℕ) (Q : σ → Prop) : Prop :=
  ∀ s, P s → ∃ t, Steps R n s t ∧ Q t

namespace Triple

variable {R : σ → σ → Prop} {P P' Q Q' S : σ → Prop} {m n : ℕ}

/-- The rule of a single step. -/
theorem step (h : ∀ s, P s → ∃ t, R s t ∧ Q t) : Triple R P 1 Q := fun s hs =>
  let ⟨t, hstep, ht⟩ := h s hs
  ⟨t, .single hstep, ht⟩

/-- The rule of consequence. -/
theorem conseq (h : Triple R P n Q) (hP : ∀ s, P' s → P s) (hQ : ∀ s, Q s → Q' s) :
    Triple R P' n Q' := fun s hs =>
  let ⟨t, hrun, ht⟩ := h s (hP s hs)
  ⟨t, hrun, hQ t ht⟩

/-- The rule of composition. -/
theorem seq (h : Triple R P m Q) (h' : Triple R Q n S) : Triple R P (m + n) S := by
  intro s hs
  obtain ⟨t, hrun, ht⟩ := h s hs
  obtain ⟨u, hrun', hu⟩ := h' t ht
  exact ⟨u, hrun.trans hrun', hu⟩

/-- A part that is executed again and again, with a count of the rounds. -/
theorem iterate {I : ℕ → σ → Prop} {c : ℕ} (h : ∀ i < n, Triple R (I i) c (I (i + 1))) :
    Triple R (I 0) (n * c) (I n) := by
  induction n with
  | zero =>
    rw [Nat.zero_mul]
    exact fun s hs => ⟨s, .refl s, hs⟩
  | succ n ih =>
    rw [Nat.succ_mul]
    exact (ih fun i hi => h i (Nat.lt_succ_of_lt hi)).seq (h n (Nat.lt_succ_self n))

/-- What every step keeps need not be proved along the way. -/
theorem frame {I : σ → Prop} (hI : ∀ s t, R s t → I s → I t) (h : Triple R P n Q) :
    Triple R (fun s => P s ∧ I s) n fun s => Q s ∧ I s := by
  rintro s ⟨hs, hI'⟩
  obtain ⟨t, hrun, ht⟩ := h s hs
  exact ⟨t, hrun, ht, hrun.invariant hI hI'⟩

end Triple

end Hoare
