import Prot.Lib.DirectMapped

/-!
# Tiered execution

A unit of code is interpreted until it was entered a number of times, and then translated.
The translations are kept in a direct-mapped table, where one pushes out another; a unit
whose translation is gone is translated again. Which tier an entry goes to depends on
nothing but the entries before it.

## Main definitions

* `Tiering.Scheduler`: the counts, and the table of the translations
* `Tiering.Scheduled`: the histories of a scheduler

## Main results

* `Scheduled.interpreted_iff`: the first entries are interpreted, up to the threshold
* `Scheduled.translated_iff`: what is entered more often is translated
* `Scheduled.exists_evicted`: a unit is translated again after it was pushed out
-/

namespace Tiering

open DirectMapped

/-- How an entry is run: interpreted, or translated and run, or run by a translation that
is in the table. -/
inductive Tier where
  | interpreted | translated | cached
  deriving DecidableEq, Repr

variable {α σ : Type}

/-- The entries so far, with their tiers. -/
abbrev History (α : Type) := List (α × Tier)

/-- The units in the order in which they were translated. -/
def translations (history : History α) : List (α × Unit) :=
  history.filterMap fun e => if e.2 = .translated then some (e.1, ()) else none

/-- A translated unit is one that was entered that way. -/
theorem mem_translations {history : History α} {e : α × Unit} :
    e ∈ translations history ↔ (e.1, Tier.translated) ∈ history := by
  simp [translations, Prod.ext_iff]

/-- The translations of two histories, one after the other. -/
@[simp] theorem translations_append (history history' : History α) :
    translations (history ++ history') = translations history ++ translations history' :=
  List.filterMap_append

/-- What the scheduler remembers: the counts, and the table of the translated units. -/
structure Scheduler (α σ : Type) where
  /-- How often a unit was interpreted. -/
  count : α → ℕ := fun _ => 0
  table : Table α σ Unit := fun _ => none

variable [DecidableEq α] {hash : α → σ} {threshold : ℕ} {history : History α}
  {s : Scheduler α σ} {a b : α}

/-- How often a unit was entered. -/
def entries (history : History α) (a : α) : ℕ := (history.map Prod.fst).count a

/-- One entry more for the unit that is entered. -/
theorem entries_concat (history : History α) (a b : α) (t : Tier) :
    entries (history ++ [(a, t)]) b = entries history b + if a = b then 1 else 0 := by
  simp [entries, List.count_singleton]

/-! ### The tier of an entry -/

section Tier

/-- The tier of the next entry. -/
def Scheduler.tier (hash : α → σ) (threshold : ℕ) (s : Scheduler α σ) (a : α) : Tier :=
  if lookup hash s.table a = some () then .cached
  else if s.count a < threshold then .interpreted
  else .translated

/-- A unit runs from the table if it is there. -/
theorem tier_eq_cached :
    s.tier hash threshold a = .cached ↔ lookup hash s.table a = some () := by
  rw [Scheduler.tier]
  split_ifs <;> simp_all

/-- A unit is interpreted while its count is below the threshold. -/
theorem tier_eq_interpreted : s.tier hash threshold a = .interpreted ↔
    lookup hash s.table a ≠ some () ∧ s.count a < threshold := by
  rw [Scheduler.tier]
  split_ifs <;> simp_all

/-- A unit is translated once its count has reached the threshold. -/
theorem tier_eq_translated : s.tier hash threshold a = .translated ↔
    lookup hash s.table a ≠ some () ∧ threshold ≤ s.count a := by
  rw [Scheduler.tier]
  split_ifs <;> simp_all

end Tier

/-! ### Histories -/

variable [DecidableEq σ]

/-- Enters a unit: a count goes up, or the table gets a translation. -/
def Scheduler.enter (hash : α → σ) (threshold : ℕ) (s : Scheduler α σ) (a : α) :
    Scheduler α σ :=
  match s.tier hash threshold a with
  | .interpreted => { s with count := Function.update s.count a (s.count a + 1) }
  | .translated => { s with table := insert hash s.table (a, ()) }
  | .cached => s

/-- Only an interpreted entry is counted. -/
theorem count_enter (s : Scheduler α σ) (a b : α) : (s.enter hash threshold a).count b =
    s.count b + if a = b ∧ s.tier hash threshold a = .interpreted then 1 else 0 := by
  rw [Scheduler.enter]
  cases s.tier hash threshold a with
  | interpreted =>
    by_cases h : a = b
    · subst h
      simp
    · simp [h, Ne.symm h]
  | translated | cached => simp

/-- Only a translation is inserted. -/
theorem table_enter (s : Scheduler α σ) (a : α) : (s.enter hash threshold a).table =
    (translations [(a, s.tier hash threshold a)]).foldl (insert hash) s.table := by
  rw [Scheduler.enter]
  cases s.tier hash threshold a with
  | interpreted | translated | cached => rfl

/-- The histories, and the scheduler after each. -/
inductive Scheduled (hash : α → σ) (threshold : ℕ) : History α → Scheduler α σ → Prop
  | nil : Scheduled hash threshold [] {}
  | concat {history : History α} {s : Scheduler α σ} (h : Scheduled hash threshold history s)
      (a : α) : Scheduled hash threshold (history ++ [(a, s.tier hash threshold a)])
        (s.enter hash threshold a)

/-- What the scheduler keeps of its history. -/
structure Remembers (hash : α → σ) (threshold : ℕ) (history : History α) (s : Scheduler α σ) :
    Prop where
  count_eq : ∀ a, s.count a = min (entries history a) threshold
  interpreted_eq : ∀ a, history.count (a, .interpreted) = s.count a
  translated_iff : ∀ a, (a, .translated) ∈ history ↔ threshold < entries history a
  table_eq : s.table = ofInserts hash (translations history)

namespace Remembers

variable (h : Remembers hash threshold history s)

include h

/-- A translation that is in the table was made at some entry. -/
theorem lt_entries_of_lookup (hlookup : lookup hash s.table a = some ()) :
    threshold < entries history a := by
  rw [h.table_eq, lookup_ofInserts_eq_some] at hlookup
  obtain ⟨before, after, hsplit, -⟩ := hlookup
  refine (h.translated_iff a).mp (mem_translations (e := (a, ())) |>.mp ?_)
  rw [hsplit]
  exact List.mem_append_right _ List.mem_cons_self

/-- A unit is interpreted exactly for its first `threshold` entries. -/
theorem interpreted_iff :
    s.tier hash threshold a = .interpreted ↔ entries history a < threshold := by
  have hcount := h.count_eq a
  rw [tier_eq_interpreted, hcount]
  constructor
  · rintro ⟨-, hlt⟩
    omega
  · intro hlt
    refine ⟨fun hlookup => ?_, by omega⟩
    have hhot := h.lt_entries_of_lookup hlookup
    omega

/-- A translated unit has had `threshold` entries. -/
theorem le_entries_of_translated (htier : s.tier hash threshold a = .translated) :
    threshold ≤ entries history a := by
  have hle := (tier_eq_translated.mp htier).2
  rw [h.count_eq a] at hle
  omega

/-- One more entry. -/
theorem enter (a : α) : Remembers hash threshold (history ++ [(a, s.tier hash threshold a)])
    (s.enter hash threshold a) where
  count_eq b := by
    rw [count_enter, entries_concat, h.count_eq b]
    by_cases hb : a = b
    · subst hb
      simp only [true_and, if_true, h.interpreted_iff]
      split_ifs <;> omega
    · simp [hb]
  interpreted_eq b := by
    rw [count_enter, List.count_append, h.interpreted_eq b, List.count_singleton]
    simp
  translated_iff b := by
    rw [List.mem_append, h.translated_iff b, List.mem_singleton, entries_concat, Prod.mk.injEq]
    by_cases hb : b = a
    · subst hb
      rw [if_pos rfl]
      cases htier : s.tier hash threshold b with
      | interpreted =>
        have hcold := h.interpreted_iff.mp htier
        simp
        omega
      | translated =>
        have hhot := h.le_entries_of_translated htier
        simp
        omega
      | cached =>
        have hhot := h.lt_entries_of_lookup (tier_eq_cached.mp htier)
        simp
        omega
    · simp [hb, Ne.symm hb]
  table_eq := by
    rw [table_enter, h.table_eq, translations_append, ofInserts, ofInserts, List.foldl_append]

end Remembers

/-- The scheduler remembers what it needs of every history. -/
theorem Scheduled.remembers (h : Scheduled hash threshold history s) :
    Remembers hash threshold history s := by
  induction h with
  | nil => exact ⟨fun _ => (Nat.zero_min _).symm, fun _ => rfl, fun _ => by simp [entries], rfl⟩
  | concat _ a ih => exact ih.enter a

/-- Each entry of a history was the next one at some time. -/
theorem Scheduled.exists_of_append {before after : History α} {t : Tier}
    (h : Scheduled hash threshold (before ++ (a, t) :: after) s) :
    ∃ s', Scheduled hash threshold before s' ∧ t = s'.tier hash threshold a := by
  generalize hhistory : before ++ (a, t) :: after = history at h
  induction h generalizing after with
  | nil => simp at hhistory
  | @concat history s h b ih =>
    rcases concat_eq_append_cons.mp hhistory.symm with ⟨rfl, hlast, -⟩ | ⟨rest, hrest, -⟩
    · cases hlast
      exact ⟨s, h, rfl⟩
    · exact ih hrest.symm

/-! ### What a history shows -/

namespace Scheduled

variable (h : Scheduled hash threshold history s)

include h

/-- An entry is interpreted if there were fewer of them than the threshold. -/
theorem interpreted_iff {before after : History α} {t : Tier}
    (hsplit : history = before ++ (a, t) :: after) :
    t = .interpreted ↔ entries before a < threshold := by
  subst hsplit
  obtain ⟨s', h', rfl⟩ := h.exists_of_append
  exact h'.remembers.interpreted_iff

/-- How many of the entries of a unit are interpreted. -/
theorem count_interpreted (a : α) :
    history.count (a, .interpreted) = min (entries history a) threshold := by
  rw [h.remembers.interpreted_eq, h.remembers.count_eq]

/-- Which units have been translated. -/
theorem translated_iff (a : α) : (a, .translated) ∈ history ↔ threshold < entries history a :=
  h.remembers.translated_iff a

/-- Between two translations of a unit, another one took its slot. -/
theorem exists_evicted {before between after : History α}
    (hsplit : history = before ++ (a, .translated) :: between ++ (a, .translated) :: after)
    (hnext : (a, .translated) ∉ between) :
    ∃ b, (b, .translated) ∈ between ∧ b ≠ a ∧ hash b = hash a := by
  subst hsplit
  obtain ⟨s', h', htier⟩ := h.exists_of_append
  obtain ⟨hmiss, -⟩ := tier_eq_translated.mp htier.symm
  rw [h'.remembers.table_eq] at hmiss
  by_contra hnone
  push Not at hnone
  refine hmiss (lookup_ofInserts_eq_some.mpr
    ⟨translations before, translations between, ?_, fun e he => ?_⟩)
  · rw [translations_append, ← List.singleton_append, translations_append]
    rfl
  · have hmem := mem_translations.mp he
    exact hnone e.1 hmem fun hsame => hnext (hsame ▸ hmem)

end Scheduled

end Tiering
