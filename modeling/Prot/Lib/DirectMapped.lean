import Mathlib.Logic.Function.Basic
import Mathlib.Data.List.Basic
import Mathlib.Data.List.Induction

/-!
# Direct-mapped tables

A table with one slot for all the keys that have the same hash. An insert takes the slot,
whatever key was in it, and a lookup compares the key. So the table holds, of a whole
history of inserts, the last one for each slot.

## Main results

* `slot_ofInserts`: what a history leaves in a slot
* `lookup_ofInserts_eq_some`, `lookup_ofInserts_eq_none`: what a history leaves for a key
-/

namespace DirectMapped

variable {α σ β : Type}

/-- One slot for each hash, with a key and its value, or empty. -/
abbrev Table (α σ β : Type) := σ → Option (α × β)

section Operations

variable (hash : α → σ)

/-- The value in the slot of the key, if it is that key's. -/
def lookup [DecidableEq α] (t : Table α σ β) (a : α) : Option β :=
  match t (hash a) with
  | some (a', b) => if a' = a then some b else none
  | none => none

variable [DecidableEq σ]

/-- Fills the slot of the key, and drops what was there. -/
def insert (t : Table α σ β) (entry : α × β) : Table α σ β :=
  Function.update t (hash entry.1) (some entry)

/-- The table after a list of inserts. -/
def ofInserts (inserts : List (α × β)) : Table α σ β :=
  inserts.foldl (insert hash) fun _ => none

end Operations

section Lookup

variable [DecidableEq α] {hash : α → σ}

/-- A key is found if its slot holds it. -/
theorem lookup_eq_some {t : Table α σ β} {a : α} {b : β} :
    lookup hash t a = some b ↔ t (hash a) = some (a, b) := by
  rw [lookup]
  split
  · next a' b' hslot =>
    rw [hslot]
    by_cases ha : a' = a <;> simp [ha]
  · next hslot => simp [hslot]

/-- Only the keys say whether a lookup finds something. -/
theorem isSome_lookup {t : Table α σ β} {a : α} :
    (lookup hash t a).isSome ↔ (t (hash a)).map Prod.fst = some a := by
  rw [lookup]
  split
  · next a' b hslot =>
    rw [hslot, Option.map_some, Option.some.injEq]
    by_cases ha : a' = a <;> simp [ha]
  · next hslot => simp [hslot]

end Lookup

/-- An element of an extended list is the new one, or it was there before. -/
theorem concat_eq_append_cons {l before after : List α} {last a : α} :
    l ++ [last] = before ++ a :: after ↔ (l = before ∧ last = a ∧ after = []) ∨
      ∃ rest, l = before ++ a :: rest ∧ after = rest ++ [last] := by
  constructor
  · intro h
    rcases List.eq_nil_or_concat' after with rfl | ⟨rest, last', rfl⟩
    · obtain ⟨hl, hlast⟩ := List.append_singleton_inj.mp h
      exact .inl ⟨hl, hlast, rfl⟩
    · rw [← List.cons_append, ← List.append_assoc, List.append_singleton_inj] at h
      exact .inr ⟨rest, h.1, by rw [h.2]⟩
  · rintro (⟨rfl, rfl, rfl⟩ | ⟨rest, rfl, rfl⟩)
    · rfl
    · rw [List.append_assoc, List.cons_append]

section History

variable [DecidableEq σ] {hash : α → σ}

/-- The key in each slot after an insert. -/
theorem map_fst_insert (t : Table α σ β) (entry : α × β) (s : σ) :
    (insert hash t entry s).map Prod.fst =
      if s = hash entry.1 then some entry.1 else (t s).map Prod.fst := by
  rw [insert, Function.update_apply]
  split <;> rfl

@[simp] theorem ofInserts_concat (inserts : List (α × β)) (entry : α × β) :
    ofInserts hash (inserts ++ [entry]) = insert hash (ofInserts hash inserts) entry := by
  rw [ofInserts, List.foldl_append]
  rfl

/-- A slot holds the last insert into it. -/
theorem slot_ofInserts {inserts : List (α × β)} {s : σ} {entry : α × β} :
    ofInserts hash inserts s = some entry ↔ ∃ before after, inserts = before ++ entry :: after ∧
      hash entry.1 = s ∧ ∀ e ∈ after, hash e.1 ≠ s := by
  induction inserts using List.reverseRecOn with
  | nil => simp [ofInserts]
  | append_singleton inserts last ih =>
    rw [ofInserts_concat, insert]
    by_cases hslot : s = hash last.1
    · rw [hslot, Function.update_self, Option.some.injEq]
      constructor
      · rintro rfl
        exact ⟨inserts, [], rfl, rfl, fun e he => (List.not_mem_nil he).elim⟩
      · rintro ⟨before, after, hsplit, -, hafter⟩
        rcases concat_eq_append_cons.mp hsplit with ⟨-, hlast, -⟩ | ⟨rest, -, rfl⟩
        · exact hlast
        · exact absurd rfl (hafter last (List.mem_append_right _ List.mem_cons_self))
    · rw [Function.update_of_ne hslot, ih]
      constructor
      · rintro ⟨before, after, rfl, hentry, hafter⟩
        refine ⟨before, after ++ [last], by simp, hentry, ?_⟩
        rw [List.forall_mem_append, List.forall_mem_singleton]
        exact ⟨hafter, Ne.symm hslot⟩
      · rintro ⟨before, after, hsplit, hentry, hafter⟩
        rcases concat_eq_append_cons.mp hsplit with ⟨-, rfl, -⟩ | ⟨rest, hrest, rfl⟩
        · exact absurd hentry.symm hslot
        · exact ⟨before, rest, hrest, hentry, (List.forall_mem_append.mp hafter).1⟩

/-- A lookup brings the last insert for the key if no insert took the slot since. -/
theorem lookup_ofInserts_eq_some [DecidableEq α] {inserts : List (α × β)} {a : α} {b : β} :
    lookup hash (ofInserts hash inserts) a = some b ↔ ∃ before after,
      inserts = before ++ (a, b) :: after ∧ ∀ e ∈ after, hash e.1 ≠ hash a := by
  rw [lookup_eq_some, slot_ofInserts]
  exact exists₂_congr fun _ _ => and_congr_right fun _ => and_iff_right rfl

/-- Nothing is left of a key whose slot was taken after its last insert. -/
theorem lookup_ofInserts_eq_none [DecidableEq α] {before after : List (α × β)} {a : α} {b : β}
    (hlast : ∀ e ∈ after, e.1 ≠ a) (htaken : ∃ e ∈ after, hash e.1 = hash a) :
    lookup hash (ofInserts hash (before ++ (a, b) :: after)) a = none := by
  obtain ⟨e, he, hslot⟩ := htaken
  refine Option.eq_none_iff_forall_ne_some.mpr fun b' hb' => ?_
  obtain ⟨before', after', hsplit, hafter'⟩ := lookup_ofInserts_eq_some.mp hb'
  -- the insert that is found is the last one for the key, or it comes before that
  rcases List.append_eq_append_iff.mp hsplit with ⟨between, -, hrest⟩ | ⟨between, -, hrest⟩
  · rcases List.cons_eq_append_iff.mp hrest with ⟨-, hsame⟩ | ⟨between', -, rfl⟩
    · obtain ⟨-, rfl⟩ := List.cons.inj hsame
      exact hafter' e he hslot
    · exact hlast _ (List.mem_append_right _ List.mem_cons_self) rfl
  · rcases List.cons_eq_append_iff.mp hrest with ⟨-, hsame⟩ | ⟨between', -, rfl⟩
    · obtain ⟨-, rfl⟩ := List.cons.inj hsame
      exact hafter' e he hslot
    · exact hafter' e (List.mem_append_right _ (List.mem_cons_of_mem _ he)) hslot

end History

end DirectMapped
