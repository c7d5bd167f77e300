import Prot.Lib.Stateful
import Mathlib.Logic.Relation

/-!
# Loops that run until a flag is set

A `while` loop over a computation that may raise, run on fuel. Its body may
contain loops of its own, so it is handed the fuel that is left and may run out
of it.

## Main results

* `whileNot_mono`: more fuel changes no result, provided it changes none of the body's
* `whileNot_simulation`: a loop whose every round does the work of several
  rounds of another loop terminates where the other does, in related states
* `whileNot_parallel`: two loops whose rounds end alike end alike
* `exists_whileNot_eq_ok_iff`, `exists_whileNot_eq_error_iff`: a loop by the states that it goes
  through
-/

namespace Loop

variable {ε σ τ : Type}

/-- What is left of a computation that ran on fuel: nothing, or its result. -/
abbrev Fueled (ε σ : Type) := ℕ → σ → Option (EStateM.Result ε σ Unit)

/-- A computation that needs no fuel. -/
def ofEStateM (x : EStateM ε σ Unit) : Fueled ε σ := fun _ s => some (x.run s)

/-- `while (!done) body`. -/
def whileNot (done : σ → Bool) (body : Fueled ε σ) : Fueled ε σ
  | 0, _ => none
  | fuel + 1, s =>
    if done s then some (.ok () s)
    else
      -- the body gets what is left, and may use it up
      match body fuel s with
      | none => none
      | some (.error e s') => some (.error e s')
      | some (.ok _ s') => whileNot done body fuel s'

section Rules

variable {done : σ → Bool} {body : Fueled ε σ} {fuel : ℕ} {s s' : σ}

/-- The loop ends once it is done. -/
theorem whileNot_of_done (h : done s = true) (fuel : ℕ) :
    whileNot done body (fuel + 1) s = some (.ok () s) := by
  rw [whileNot, if_pos h]

/-- A round that returns is followed by the rest, on one unit of fuel less. -/
theorem whileNot_of_ok (h : done s = false) (hbody : body fuel s = some (.ok () s')) :
    whileNot done body (fuel + 1) s = whileNot done body fuel s' := by
  rw [whileNot, if_neg (by simp [h]), hbody]

/-- A loop that returns from an unfinished state went through its body, which returned. -/
theorem exists_of_whileNot_eq_ok (h : done s = false)
    (hrun : whileNot done body (fuel + 1) s = some (.ok () s')) :
    ∃ s₁, body fuel s = some (.ok () s₁) ∧ whileNot done body fuel s₁ = some (.ok () s') := by
  rw [whileNot, if_neg (by simp [h])] at hrun
  split at hrun
  · cases hrun
  · cases hrun
  · next s₁ hbody => exact ⟨s₁, hbody, hrun⟩

/-- A round that raises ends the loop. -/
theorem whileNot_of_error {e : ε} (h : done s = false)
    (hbody : body fuel s = some (.error e s')) :
    whileNot done body (fuel + 1) s = some (.error e s') := by
  rw [whileNot, if_neg (by simp [h]), hbody]

/-- A body that never ends is never left. -/
theorem whileNot_eq_none (h : done s = false) (hbody : ∀ fuel, body fuel s = none) (fuel : ℕ) :
    whileNot done body fuel s = none := by
  cases fuel with
  | zero => rfl
  | succ fuel => rw [whileNot, if_neg (by simp [h]), hbody]

/-- A loop that raises does so in its body, at once or later on. -/
theorem exists_of_whileNot_eq_error {e : ε}
    (hrun : whileNot done body (fuel + 1) s = some (.error e s')) :
    done s = false ∧ (body fuel s = some (.error e s') ∨
      ∃ s₁, body fuel s = some (.ok () s₁) ∧ whileNot done body fuel s₁ = some (.error e s')) := by
  cases h : done s with
  | true =>
    rw [whileNot_of_done h] at hrun
    cases hrun
  | false =>
    rw [whileNot, if_neg (by simp [h])] at hrun
    refine ⟨rfl, ?_⟩
    split at hrun
    · cases hrun
    · next e' s₁ hbody =>
      cases hrun
      exact .inl hbody
    · next s₁ hbody => exact .inr ⟨s₁, hbody, hrun⟩

/-- More fuel changes no result, if it changes none of the body. -/
theorem whileNot_mono {fuel' : ℕ} {r : EStateM.Result ε σ Unit} (hle : fuel ≤ fuel')
    (hbody : ∀ n m s r, n ≤ m → body n s = some r → body m s = some r)
    (hrun : whileNot done body fuel s = some r) : whileNot done body fuel' s = some r := by
  induction fuel generalizing s fuel' with
  | zero => cases hrun
  | succ fuel ih =>
    obtain ⟨fuel', rfl⟩ : ∃ k, fuel' = k + 1 := ⟨fuel' - 1, by omega⟩
    cases h : done s with
    | true => rwa [whileNot_of_done h] at hrun ⊢
    | false =>
      rw [whileNot, if_neg (by simp [h])] at hrun ⊢
      cases hfirst : body fuel s with
      | none =>
        rw [hfirst] at hrun
        cases hrun
      | some first =>
        rw [hbody _ _ _ _ (by omega) hfirst]
        rw [hfirst] at hrun
        cases first with
        | error e s₁ => exact hrun
        | ok _ s₁ => exact ih (by omega) hrun

/-- A body that has the results of another, and more. -/
theorem whileNot_mono_body {body' : Fueled ε σ} {r : EStateM.Result ε σ Unit}
    (hbody : ∀ n s r, body n s = some r → body' n s = some r)
    (hrun : whileNot done body fuel s = some r) : whileNot done body' fuel s = some r := by
  induction fuel generalizing s with
  | zero => cases hrun
  | succ fuel ih =>
    cases h : done s with
    | true => rwa [whileNot_of_done h] at hrun ⊢
    | false =>
      rw [whileNot, if_neg (by simp [h])] at hrun ⊢
      cases hfirst : body fuel s with
      | none =>
        rw [hfirst] at hrun
        cases hrun
      | some first =>
        rw [hbody _ _ _ hfirst]
        rw [hfirst] at hrun
        cases first with
        | error e s₁ => exact hrun
        | ok _ s₁ => exact ih hrun

/-- A loop whose body gets one more unit of fuel has the results of one that gets it. -/
theorem whileNot_succ {r : EStateM.Result ε σ Unit}
    (hrun : whileNot done (fun n => body (n + 1)) fuel s = some r) :
    whileNot done body (fuel + 1) s = some r := by
  induction fuel generalizing s with
  | zero => cases hrun
  | succ fuel ih =>
    cases h : done s with
    | true => rwa [whileNot_of_done h] at hrun ⊢
    | false =>
      rw [whileNot, if_neg (by simp [h])] at hrun ⊢
      split at hrun
      · cases hrun
      · exact hrun
      · exact ih hrun

/-- A loop whose body returns once has the results that it has from there on. -/
theorem exists_whileNot_iff {n : ℕ} {r : EStateM.Result ε σ Unit}
    (hmono : ∀ n m s r, n ≤ m → body n s = some r → body m s = some r) (h : done s = false)
    (hbody : body n s = some (.ok () s')) :
    (∃ fuel, whileNot done body fuel s = some r) ↔ ∃ fuel, whileNot done body fuel s' = some r := by
  have hround : ∀ m, n ≤ m → whileNot done body (m + 1) s = whileNot done body m s' :=
    fun m hm => whileNot_of_ok h (hmono _ _ _ _ hm hbody)
  constructor
  · rintro ⟨fuel, hrun⟩
    refine ⟨max n fuel, ?_⟩
    rw [← hround _ (Nat.le_max_left n fuel)]
    exact whileNot_mono (by omega) hmono hrun
  · rintro ⟨fuel, hrun⟩
    refine ⟨max n fuel + 1, ?_⟩
    rw [hround _ (Nat.le_max_left n fuel)]
    exact whileNot_mono (Nat.le_max_right n fuel) hmono hrun

end Rules

/-! ### Invariants -/

section Invariant

variable {done : σ → Bool} {body : Fueled ε σ} {I : σ → Prop} {n : ℕ} {s s' : σ}

/-- An invariant of the rounds holds where the loop returns. -/
theorem invariant_of_whileNot_eq_ok
    (hround : ∀ n s s', I s → done s = false → body n s = some (.ok () s') → I s') (h : I s)
    (hrun : whileNot done body n s = some (.ok () s')) : I s' ∧ done s' = true := by
  induction n generalizing s with
  | zero => cases hrun
  | succ n ih =>
    cases hdone : done s with
    | true =>
      rw [whileNot_of_done hdone] at hrun
      cases hrun
      exact ⟨h, hdone⟩
    | false =>
      obtain ⟨s₁, hfirst, hrest⟩ := exists_of_whileNot_eq_ok hdone hrun
      exact ih (hround n s s₁ h hdone hfirst) hrest

/-- A loop that raises does so in a round that began with the invariant. -/
theorem invariant_of_whileNot_eq_error {e : ε}
    (hround : ∀ n s s', I s → done s = false → body n s = some (.ok () s') → I s') (h : I s)
    (hrun : whileNot done body n s = some (.error e s')) :
    ∃ t n, I t ∧ done t = false ∧ body n t = some (.error e s') := by
  induction n generalizing s with
  | zero => cases hrun
  | succ n ih =>
    obtain ⟨hdone, hraise | ⟨s₁, hfirst, hrest⟩⟩ := exists_of_whileNot_eq_error hrun
    · exact ⟨s, n, h, hdone, hraise⟩
    · exact ih (hround n s s₁ h hdone hfirst) hrest

end Invariant

/-- A loop around a loop with the same condition makes one round. -/
theorem exists_whileNot_whileNot_iff {done : σ → Bool} {body : Fueled ε σ} {s : σ}
    {r : EStateM.Result ε σ Unit} :
    (∃ n, whileNot done (whileNot done body) n s = some r) ↔
      ∃ n, whileNot done body n s = some r := by
  cases h : done s with
  | true =>
    constructor <;> rintro ⟨_ | n, hrun⟩
    · cases hrun
    · exact ⟨n + 1, by rwa [whileNot_of_done h] at hrun ⊢⟩
    · cases hrun
    · exact ⟨n + 1, by rwa [whileNot_of_done h] at hrun ⊢⟩
  | false =>
    have hends : ∀ n s', whileNot done body n s = some (.ok () s') → done s' = true :=
      fun n s' hrun => (invariant_of_whileNot_eq_ok (fun _ _ _ _ _ _ => trivial)
        (show (fun _ => True) s from trivial) hrun).2
    constructor
    · rintro ⟨_ | n, hrun⟩
      · cases hrun
      · refine ⟨n, ?_⟩
        rw [whileNot, if_neg (by simp [h])] at hrun
        split at hrun
        · cases hrun
        · next hinner => rw [hinner, hrun]
        · next s' hinner =>
          cases n with
          | zero => cases hinner
          | succ n =>
            rw [whileNot_of_done (hends _ _ hinner)] at hrun
            rw [hinner, hrun]
    · rintro ⟨n, hrun⟩
      refine ⟨n + 1, ?_⟩
      cases r with
      | error e s' => rw [whileNot_of_error h hrun]
      | ok _ s' =>
        rw [whileNot_of_ok h hrun]
        cases n with
        | zero => cases hrun
        | succ n => exact whileNot_of_done (hends _ _ hrun) n

/-- If one round of the second loop does what some rounds of the first do, and
leaves the first with a run that still returns, the second loop returns too. -/
theorem whileNot_simulation {R : σ → τ → Prop} {done₁ : σ → Bool} {done₂ : τ → Bool}
    {body₁ : Fueled ε σ} {body₂ : Fueled ε τ}
    (hdone : ∀ s t, R s t → done₁ s = done₂ t)
    (hround : ∀ fuel s t s', R s t → done₁ s = false →
      whileNot done₁ body₁ (fuel + 1) s = some (.ok () s') →
      ∃ s₂ t₂, body₂ fuel t = some (.ok () t₂) ∧ R s₂ t₂ ∧
        whileNot done₁ body₁ fuel s₂ = some (.ok () s'))
    {fuel : ℕ} {s s' : σ} {t : τ} (hR : R s t)
    (hrun : whileNot done₁ body₁ fuel s = some (.ok () s')) :
    ∃ t', whileNot done₂ body₂ fuel t = some (.ok () t') ∧ R s' t' := by
  -- on the fuel of the first loop, which each round of the second uses up
  induction fuel generalizing s t with
  | zero => cases hrun
  | succ fuel ih =>
    cases h : done₁ s with
    | true =>
      rw [whileNot_of_done h] at hrun
      cases hrun
      exact ⟨t, whileNot_of_done (hdone _ _ hR ▸ h) fuel, hR⟩
    | false =>
      obtain ⟨s₂, t₂, hbody, hR₂, hrest⟩ := hround fuel s t s' hR h hrun
      obtain ⟨t', hrun', hR'⟩ := ih hR₂ hrest
      exact ⟨t', by rw [whileNot_of_ok (hdone _ _ hR ▸ h) hbody, hrun'], hR'⟩

/-! ### Loops in parallel -/

/-- Two results of one kind: returned in states related by `R`, or raised as `E` has it. -/
inductive Parallel {ε' : Type} (R : σ → τ → Prop) (E : ε → σ → ε' → τ → Prop) :
    EStateM.Result ε σ Unit → EStateM.Result ε' τ Unit → Prop
  | returned {s : σ} {t : τ} (h : R s t) : Parallel R E (.ok () s) (.ok () t)
  | raised {e : ε} {e' : ε'} {s : σ} {t : τ} (h : E e s e' t) :
      Parallel R E (.error e s) (.error e' t)

theorem Parallel.mono {ε' : Type} {R R' : σ → τ → Prop} {E E' : ε → σ → ε' → τ → Prop}
    {r : EStateM.Result ε σ Unit} {r' : EStateM.Result ε' τ Unit} (h : Parallel R E r r')
    (hR : ∀ s t, R s t → R' s t) (hE : ∀ e s e' t, E e s e' t → E' e s e' t) :
    Parallel R' E' r r' := by
  cases h with
  | returned h => exact .returned (hR _ _ h)
  | raised h => exact .raised (hE _ _ _ _ h)

theorem Parallel.rel_mono {ε' : Type} {R R' : σ → τ → Prop} {E E' : ε → σ → ε' → τ → Prop}
    {x : Option (EStateM.Result ε σ Unit)} {y : Option (EStateM.Result ε' τ Unit)}
    (h : Option.Rel (Parallel R E) x y) (hR : ∀ s t, R s t → R' s t)
    (hE : ∀ e s e' t, E e s e' t → E' e s e' t) : Option.Rel (Parallel R' E') x y := by
  cases h with
  | some h => exact .some (h.mono hR hE)
  | none => exact .none

section Ends

variable {ε' : Type} {R : σ → τ → Prop} {E : ε → σ → ε' → τ → Prop}
  {x : Option (EStateM.Result ε σ Unit)} {y : Option (EStateM.Result ε' τ Unit)}

/-- If one of two that end alike ends, so does the other. -/
theorem Parallel.exists_right {r : EStateM.Result ε σ Unit} (h : Option.Rel (Parallel R E) x y)
    (hx : x = some r) : ∃ r', y = some r' ∧ Parallel R E r r' := by
  subst hx
  cases h with
  | some h => exact ⟨_, rfl, h⟩

/-- If the second run has a result, so has the first. -/
theorem Parallel.exists_left {r' : EStateM.Result ε' τ Unit} (h : Option.Rel (Parallel R E) x y)
    (hy : y = some r') : ∃ r, x = some r ∧ Parallel R E r r' := by
  subst hy
  cases h with
  | some h => exact ⟨_, rfl, h⟩

/-- If the first run returns, so does the second. -/
theorem Parallel.ok_right {s : σ} (h : Option.Rel (Parallel R E) x y) (hx : x = some (.ok () s)) :
    ∃ t, y = some (.ok () t) ∧ R s t := by
  obtain ⟨r', hy, hr⟩ := Parallel.exists_right h hx
  cases hr with
  | returned hR => exact ⟨_, hy, hR⟩

/-- If the second run returns, so does the first. -/
theorem Parallel.ok_left {t : τ} (h : Option.Rel (Parallel R E) x y) (hy : y = some (.ok () t)) :
    ∃ s, x = some (.ok () s) ∧ R s t := by
  obtain ⟨r, hx, hr⟩ := Parallel.exists_left h hy
  cases hr with
  | returned hR => exact ⟨_, hx, hR⟩

/-- If the first run raises, so does the second. -/
theorem Parallel.error_right {e : ε} {s : σ} (h : Option.Rel (Parallel R E) x y)
    (hx : x = some (.error e s)) : ∃ e' t, y = some (.error e' t) ∧ E e s e' t := by
  obtain ⟨r', hy, hr⟩ := Parallel.exists_right h hx
  cases hr with
  | raised hE => exact ⟨_, _, hy, hE⟩

/-- If the second run raises, so does the first. -/
theorem Parallel.error_left {e' : ε'} {t : τ} (h : Option.Rel (Parallel R E) x y)
    (hy : y = some (.error e' t)) : ∃ e s, x = some (.error e s) ∧ E e s e' t := by
  obtain ⟨r, hx, hr⟩ := Parallel.exists_left h hy
  cases hr with
  | raised hE => exact ⟨_, _, hx, hE⟩

end Ends

/-- Two loops whose rounds end alike end alike: on any fuel, both or none of them run out
of it, return or raise. -/
theorem whileNot_parallel {ε' : Type} {R : σ → τ → Prop} {E : ε → σ → ε' → τ → Prop}
    {I : σ → Prop} {done₁ : σ → Bool} {done₂ : τ → Bool} {body₁ : Fueled ε σ}
    {body₂ : Fueled ε' τ} (hdone : ∀ s t, R s t → done₁ s = done₂ t)
    (hkeeps : ∀ fuel s s', I s → done₁ s = false → body₁ fuel s = some (.ok () s') → I s')
    (hround : ∀ fuel s t, I s → R s t → done₁ s = false →
      Option.Rel (Parallel R E) (body₁ fuel s) (body₂ fuel t)) (fuel : ℕ) {s : σ} {t : τ}
    (hs : I s) (h : R s t) :
    Option.Rel (Parallel R E) (whileNot done₁ body₁ fuel s) (whileNot done₂ body₂ fuel t) := by
  induction fuel generalizing s t with
  | zero => exact .none
  | succ fuel ih =>
    cases hrunning : done₁ s with
    | true =>
      rw [whileNot_of_done hrunning, whileNot_of_done (hdone s t h ▸ hrunning)]
      exact .some (.returned h)
    | false =>
      have hrunning' : done₂ t = false := hdone s t h ▸ hrunning
      have hbodies := hround fuel s t hs h hrunning
      have hnext := hkeeps fuel s
      rw [whileNot, if_neg (by simp [hrunning]), whileNot, if_neg (by simp [hrunning'])]
      revert hbodies hnext
      generalize body₁ fuel s = first
      generalize body₂ fuel t = second
      rintro (⟨h' | h'⟩ | _) hnext
      · exact ih (hnext _ hs hrunning rfl) h'
      · exact .some (.raised h')
      · exact .none

/-! ### Loops by their rounds -/

section Rounds

variable {done : σ → Bool} {x : EStateM ε σ Unit} {s s' t : σ}

/-- One round of the loop over `x`. -/
def Turn (done : σ → Bool) (x : EStateM ε σ Unit) (s s' : σ) : Prop :=
  done s = false ∧ x.run s = .ok () s'

/-- The loop has the results that it has from any state that it goes through. -/
theorem exists_whileNot_iff_of_turns (h : Relation.ReflTransGen (Turn done x) s t)
    {r : EStateM.Result ε σ Unit} :
    (∃ n, whileNot done (ofEStateM x) n s = some r) ↔
      ∃ n, whileNot done (ofEStateM x) n t = some r := by
  induction h with
  | refl => exact Iff.rfl
  | @tail t u _ hturn ih =>
    rw [ih]
    exact exists_whileNot_iff (n := 0) (fun _ _ _ _ _ h => h) hturn.1 (congrArg some hturn.2)

/-- A loop returns after the turns that lead to a state that is done. -/
theorem exists_whileNot_eq_ok_iff :
    (∃ n, whileNot done (ofEStateM x) n s = some (.ok () s')) ↔
      Relation.ReflTransGen (Turn done x) s s' ∧ done s' = true := by
  constructor
  · rintro ⟨n, hrun⟩
    induction n generalizing s with
    | zero => cases hrun
    | succ n ih =>
      cases h : done s with
      | true =>
        rw [whileNot_of_done h] at hrun
        cases hrun
        exact ⟨.refl, h⟩
      | false =>
        obtain ⟨s₁, hfirst, hrest⟩ := exists_of_whileNot_eq_ok h hrun
        obtain ⟨hturns, hdone⟩ := ih hrest
        exact ⟨.head ⟨h, Option.some.inj hfirst⟩ hturns, hdone⟩
  · rintro ⟨hturns, hdone⟩
    exact (exists_whileNot_iff_of_turns hturns).mpr ⟨1, whileNot_of_done hdone 0⟩

/-- A loop raises after the turns that lead to a round that does. -/
theorem exists_whileNot_eq_error_iff {e : ε} :
    (∃ n, whileNot done (ofEStateM x) n s = some (.error e s')) ↔
      ∃ t, Relation.ReflTransGen (Turn done x) s t ∧ done t = false ∧ x.run t = .error e s' := by
  constructor
  · rintro ⟨n, hrun⟩
    induction n generalizing s with
    | zero => cases hrun
    | succ n ih =>
      obtain ⟨h, hraise | ⟨s₁, hfirst, hrest⟩⟩ := exists_of_whileNot_eq_error hrun
      · exact ⟨s, .refl, h, Option.some.inj hraise⟩
      · obtain ⟨t, hturns, ht, hraise⟩ := ih hrest
        exact ⟨t, .head ⟨h, Option.some.inj hfirst⟩ hturns, ht, hraise⟩
  · rintro ⟨t, hturns, ht, hraise⟩
    refine (exists_whileNot_iff_of_turns hturns).mpr ⟨1, ?_⟩
    exact whileNot_of_error ht (congrArg some hraise)

end Rounds

end Loop
