import Prot.JitEngine
import Prot.Lib.DirectMapped

/-!
# The translation-block cache over a history

`TbCache` is a direct-mapped table. Its empty slots carry the guest address zero, which is
the address of a block like any other; what makes a slot empty is that its function is null.

## Main results

* `TbCache.lookup_eq`: a lookup is a lookup in the table of the slots that are not empty
* `TbCache.lookup_latest`: what a lookup returns after any list of inserts
-/

namespace Prot

namespace TbCache

variable {μ : Type}

/-- The slots that have a function. -/
def table (c : TbCache μ) : DirectMapped.Table Word Word (JitFunction μ) := fun slot =>
  (c.m_cache slot).func.map fun func => ((c.m_cache slot).gpa, func)

theorem table_insert (c : TbCache μ) (gpa : Word) (func : JitFunction μ) :
    (c.insert gpa func).table = DirectMapped.insert getHash c.table (gpa, func) := by
  funext slot
  by_cases hslot : slot = getHash gpa
  · simp [table, insert, DirectMapped.insert, hslot]
  · simp [table, insert, DirectMapped.insert, hslot]

theorem lookup_eq (c : TbCache μ) (gpa : Word) :
    c.lookup gpa = DirectMapped.lookup getHash c.table gpa := by
  simp only [lookup, get, DirectMapped.lookup, table]
  cases (c.m_cache (getHash gpa)).func with
  | none => exact ite_self none
  | some func => rfl

/-! ### Histories -/

/-- The cache after a list of inserts. -/
def ofInserts (inserts : List (Word × JitFunction μ)) : TbCache μ :=
  inserts.foldl (fun c i => c.insert i.1 i.2) {}

@[simp] theorem ofInserts_concat (inserts : List (Word × JitFunction μ)) (gpa : Word)
    (func : JitFunction μ) :
    ofInserts (inserts ++ [(gpa, func)]) = (ofInserts inserts).insert gpa func := by
  rw [ofInserts, List.foldl_append]
  rfl

theorem table_ofInserts (inserts : List (Word × JitFunction μ)) :
    (ofInserts inserts).table = DirectMapped.ofInserts getHash inserts := by
  induction inserts using List.reverseRecOn with
  | nil => rfl
  | append_singleton inserts last ih =>
    rw [ofInserts_concat, table_insert, ih, DirectMapped.ofInserts_concat]

/-- What is found is the last insert into the slot. -/
theorem lookup_ofInserts_eq_some {inserts : List (Word × JitFunction μ)} {gpa : Word}
    {func : JitFunction μ} :
    (ofInserts inserts).lookup gpa = some func ↔ ∃ before after,
      inserts = before ++ (gpa, func) :: after ∧ ∀ i ∈ after, getHash i.1 ≠ getHash gpa := by
  rw [lookup_eq, table_ofInserts, DirectMapped.lookup_ofInserts_eq_some]

/-- A lookup brings the last insert for the very address, unless a later insert for another
one took the slot, and nothing if there is no insert for the address. -/
theorem lookup_latest (inserts : List (Word × JitFunction μ)) (gpa : Word) :
    (∀ before func after, inserts = before ++ (gpa, func) :: after → (∀ i ∈ after, i.1 ≠ gpa) →
      (ofInserts inserts).lookup gpa =
        if ∃ i ∈ after, getHash i.1 = getHash gpa then none else some func) ∧
    ((∀ i ∈ inserts, i.1 ≠ gpa) → (ofInserts inserts).lookup gpa = none) ∧
    ∀ func, (ofInserts inserts).lookup gpa = some func → (gpa, func) ∈ inserts := by
  have hmem : ∀ func, (ofInserts inserts).lookup gpa = some func → (gpa, func) ∈ inserts := by
    intro func hfunc
    obtain ⟨before, after, rfl, -⟩ := lookup_ofInserts_eq_some.mp hfunc
    exact List.mem_append_right _ List.mem_cons_self
  refine ⟨?_, fun hno => ?_, hmem⟩
  · rintro before func after rfl hlast
    split
    · next htaken =>
      rw [lookup_eq, table_ofInserts]
      exact DirectMapped.lookup_ofInserts_eq_none hlast htaken
    · next hkept =>
      push Not at hkept
      exact lookup_ofInserts_eq_some.mpr ⟨before, after, rfl, hkept⟩
  · exact Option.eq_none_iff_forall_ne_some.mpr fun func hfunc => hno _ (hmem func hfunc) rfl

/-- Two addresses that share the slot of address zero. -/
theorem lookup_latest_shared :
    let returns : JitFunction Unit := fun s => .ok () s
    let exits : JitFunction Unit := fun s => .ok () { s with finished := true }
    let inserts : List (Word × JitFunction Unit) := [(0#32, exits), (0x1000000#32, returns)]
    (ofInserts inserts).lookup 0#32 = none ∧
      (ofInserts inserts).lookup 0x1000000#32 = some returns := by
  intro returns exits inserts
  have hzero := (lookup_latest inserts 0#32).1 [] exits [(0x1000000#32, returns)] rfl (by simp)
  have hother := (lookup_latest inserts 0x1000000#32).1 [(0#32, exits)] returns [] rfl (by simp)
  have hslot : getHash 0x1000000#32 = getHash 0#32 := by decide
  rw [if_pos ⟨_, List.mem_cons_self, hslot⟩] at hzero
  rw [if_neg (by simp)] at hother
  exact ⟨hzero, hother⟩

end TbCache

end Prot
