import Prot.Interpreter
import Prot.TypedAccess

/-!
# Bounds of plain memory

`PlainMemory` has a check of the whole range of an access, and does not call it. What
is called is an assertion about the first byte alone, which also lets the end of the
mapping through. So an access that begins inside the mapping, or right at its end, and
runs past the end is carried out on bytes that are not in the mapping.

The sum in the assertion has 64 bits, and the constructor rejects a mapping for which it
would wrap. This file says, for each of the access functions, which offsets it touches, and compares
them with the mapping. The last section does the same for what a guest can issue.

## Main results

* `PlainAccess.run_perform_eq_undefinedBehaviour`: an access has no meaning exactly if
  it touches an offset past the mapping
* `contained_iff`: the accesses that are contained, for any mapping, and for a guest
-/

namespace Prot

/-- The access functions of `PlainMemory`. -/
inductive PlainAccess where
  | read (T : MemTy)
  | write (T : MemTy) (val : BitVec T.bits)
  | readBlock (dest : List Byte)
  | writeBlock (src : List Byte)

namespace PlainAccess

/-- The number of bytes that are accessed. -/
def bytes : PlainAccess → ℕ
  | read T => T.bytes
  | write T _ => T.bytes
  | readBlock dest => dest.length
  | writeBlock src => src.length

variable {m_start : Addr} {size : ℕ}

/-- The access, as its caller sees it if the caller looks at the memory alone. -/
def perform (addr : Addr) : PlainAccess → EStateM Exn (PlainMemory m_start size) Unit
  | read T => fun m =>
    match Memory.read T m addr with
    | .ok _ => .ok () m
    | .error e => .error e m
  | write T val => PlainMemory.overwrite fun m => Memory.write T m addr val
  | readBlock dest => fun m =>
    match (BlockMemory.readBlock m addr).run dest with
    | .ok _ _ => .ok () m
    | .error e _ => .error e m
  | writeBlock src => BlockMemory.writeBlock src addr

/-- The offsets of the bytes that the access touches, unless the assertion stops it. -/
def touched (m_start : Addr) (size : ℕ) (addr : Addr) (a : PlainAccess) :
    Except Exn (List ℕ) := do
  let offset ← PlainMemory.addrToOffset m_start size addr
  pure (List.range' offset a.bytes)

/-- The access stays inside the mapping, or is rejected before it touches memory. -/
inductive Contained (m : PlainMemory m_start size) (addr : Addr) (a : PlainAccess) : Prop
  | inside {offsets : List ℕ} (htouched : a.touched m_start size addr = .ok offsets)
      (hinside : ∀ offset ∈ offsets, offset < size)
  | rejected {e : Exn} (hdefined : e ≠ .undefinedBehaviour)
      (hraise : (a.perform addr).run m = .error e m)

/-! ### What an access does -/

/-- The memory after the access, which begins at an offset. -/
def result (offset : ℕ) (m : PlainMemory m_start size) : PlainAccess → PlainMemory m_start size
  | read _ | readBlock _ => m
  | write _ val => { m_data := PlainMemory.store m.m_data offset val }
  | writeBlock src => { m_data := PlainMemory.storeBytes m.m_data offset src }

section Perform

variable {m : PlainMemory m_start size} {addr : Addr}

/-- Every access function translates the address before it does anything else. -/
theorem run_perform (a : PlainAccess) :
    (a.perform addr).run m =
      match PlainMemory.translate m_start size a.bytes addr with
      | .ok offset => .ok () (a.result offset m)
      | .error e => .error e m := by
  cases a with
  | read T =>
    change (match Memory.read T m addr with
      | .ok _ => EStateM.Result.ok () m
      | .error e => .error e m) = _
    rw [PlainMemory.read_eq, PlainMemory.readAs, bytes]
    cases PlainMemory.translate m_start size T.bytes addr <;> rfl
  | write T val =>
    rw [perform, PlainMemory.run_overwrite, PlainMemory.write_eq, PlainMemory.writeAs, bytes]
    cases PlainMemory.translate m_start size T.bytes addr <;> rfl
  | readBlock dest =>
    change (match (BlockMemory.readBlock m addr).run dest with
      | .ok _ _ => EStateM.Result.ok () m
      | .error e _ => .error e m) = _
    rw [PlainMemory.run_readBlock, bytes]
    cases PlainMemory.translate m_start size dest.length addr <;> rfl
  | writeBlock src => exact PlainMemory.run_writeBlock m addr src

/-! The assertion stops what begins outside the mapping; the rest is up to the end of
the access. -/

/-- Only an access that begins outside of the mapping is rejected. -/
theorem translate_of_outside {n : ℕ}
    (h : addr.toNat < m_start.toNat ∨ m_start.toNat + size < addr.toNat) :
    PlainMemory.translate m_start size n addr = .error .assertionFailed := by
  rw [PlainMemory.translate, PlainMemory.addrToOffset, if_neg (by omega)]
  rfl

/-- An access that begins inside and ends past the mapping has no defined meaning. -/
theorem translate_of_past {n : ℕ} (hle : m_start.toNat ≤ addr.toNat)
    (hend : addr.toNat ≤ m_start.toNat + size) (hpast : m_start.toNat + size < addr.toNat + n) :
    PlainMemory.translate m_start size n addr = .error .undefinedBehaviour := by
  rw [PlainMemory.translate, PlainMemory.addrToOffset, if_pos ⟨hle, hend⟩]
  exact if_neg (by omega)

/-- The bytes that an access touches, if it is not rejected. -/
theorem touched_eq_ok {a : PlainAccess} {offsets : List ℕ} :
    a.touched m_start size addr = .ok offsets ↔
      (m_start.toNat ≤ addr.toNat ∧ addr.toNat ≤ m_start.toNat + size) ∧
        offsets = List.range' (addr.toNat - m_start.toNat) a.bytes := by
  rw [touched, PlainMemory.addrToOffset]
  split
  · next hbegin =>
    rw [pure_bind, and_iff_right hbegin]
    exact ⟨fun h => (Except.ok.inj h).symm, fun h => congrArg Except.ok h.symm⟩
  · next hbegin => exact iff_of_false (fun h => by cases h) fun h => hbegin h.1

/-- The bytes of an access that begins in the mapping are all in it if the end is. -/
theorem forall_lt_iff (a : PlainAccess) (hle : m_start.toNat ≤ addr.toNat)
    (hend : addr.toNat ≤ m_start.toNat + size) :
    (∀ offset ∈ List.range' (addr.toNat - m_start.toNat) a.bytes, offset < size) ↔
      addr.toNat + a.bytes ≤ m_start.toNat + size := by
  constructor
  · intro h
    by_contra hpast
    have hlast := h (addr.toNat - m_start.toNat + (a.bytes - 1))
      (List.mem_range'_1.mpr (by omega))
    omega
  · intro h offset hoffset
    have hrange := List.mem_range'_1.mp hoffset
    omega

/-- An access has no meaning exactly if it touches an offset past the mapping. -/
theorem run_perform_eq_undefinedBehaviour (a : PlainAccess) :
    (a.perform addr).run m = .error .undefinedBehaviour m ↔
      ∃ offsets, a.touched m_start size addr = .ok offsets ∧ ∃ offset ∈ offsets, size ≤ offset := by
  constructor
  · intro hrun
    by_cases hbegin : m_start.toNat ≤ addr.toNat ∧ addr.toNat ≤ m_start.toNat + size
    · refine ⟨_, touched_eq_ok.mpr ⟨hbegin, rfl⟩, ?_⟩
      by_contra hinside
      push Not at hinside
      have hfits := (forall_lt_iff a hbegin.1 hbegin.2).mp hinside
      rw [run_perform, PlainMemory.translate_eq_ok.mpr
        ⟨Nat.add_sub_cancel' hbegin.1, by omega⟩] at hrun
      cases hrun
    · rw [run_perform, translate_of_outside (by omega)] at hrun
      cases hrun
  · rintro ⟨offsets, htouched, offset, hoffset, hpast⟩
    obtain ⟨⟨hle, hend⟩, rfl⟩ := touched_eq_ok.mp htouched
    have hrange := List.mem_range'_1.mp hoffset
    rw [run_perform, translate_of_past hle hend (by omega)]

/-- The accesses that are contained begin outside the mapping or end in it. -/
theorem contained_of_ends (a : PlainAccess)
    (h : addr.toNat < m_start.toNat ∨ m_start.toNat + size < addr.toNat ∨
      addr.toNat + a.bytes ≤ m_start.toNat + size) : a.Contained m addr := by
  by_cases hbegin : m_start.toNat ≤ addr.toNat ∧ addr.toNat ≤ m_start.toNat + size
  · exact .inside (touched_eq_ok.mpr ⟨hbegin, rfl⟩)
      ((forall_lt_iff a hbegin.1 hbegin.2).mpr (by omega))
  · refine .rejected (e := .assertionFailed) (by decide) ?_
    rw [run_perform, translate_of_outside (by omega)]

/-- The last byte of an access that goes past the end is outside. -/
theorem not_contained (a : PlainAccess) (hle : m_start.toNat ≤ addr.toNat)
    (hend : addr.toNat ≤ m_start.toNat + size)
    (hpast : m_start.toNat + size < addr.toNat + a.bytes) : ¬ a.Contained m addr := by
  rintro (⟨htouched, hinside⟩ | ⟨hdefined, hraise⟩)
  · obtain ⟨-, rfl⟩ := touched_eq_ok.mp htouched
    have hfits := (forall_lt_iff a hle hend).mp hinside
    omega
  · rw [run_perform, translate_of_past hle hend hpast] at hraise
    cases hraise
    exact hdefined rfl

/-- An access is contained if it is rejected or ends in the mapping. -/
theorem contained_iff_ends (a : PlainAccess) :
    a.Contained m addr ↔ addr.toNat < m_start.toNat ∨ m_start.toNat + size < addr.toNat ∨
      addr.toNat + a.bytes ≤ m_start.toNat + size := by
  refine ⟨fun h => ?_, contained_of_ends a⟩
  by_contra hends
  push Not at hends
  exact not_contained a hends.1 hends.2.1 hends.2.2 h

/-- An access is contained unless its meaning is undefined. -/
theorem contained_iff_ne (a : PlainAccess) :
    a.Contained m addr ↔ (a.perform addr).run m ≠ .error .undefinedBehaviour m := by
  rw [contained_iff_ends, Ne, run_perform_eq_undefinedBehaviour]
  constructor
  · rintro hends ⟨offsets, htouched, offset, hoffset, hpast⟩
    obtain ⟨⟨hle, hend⟩, rfl⟩ := touched_eq_ok.mp htouched
    have hrange := List.mem_range'_1.mp hoffset
    omega
  · intro hdefined
    by_contra hends
    push Not at hends
    obtain ⟨hle, hend, hpast⟩ := hends
    exact hdefined ⟨_, touched_eq_ok.mpr ⟨⟨hle, hend⟩, rfl⟩,
      addr.toNat - m_start.toNat + (a.bytes - 1), List.mem_range'_1.mpr (by omega), by omega⟩

end Perform

end PlainAccess

/-! ### Accesses of the guest -/

section Guest

open Isa Interpreter

/-- `makePlain(4 GiB)`. -/
abbrev FullMemory := PlainMemory 0#32 (2 ^ 32)

variable {μ : Type}

/-- The access that an instruction issues, if it is a load or a store, and its address. -/
def issued (insn : Instruction) (s : CPUState μ) : Option (PlainAccess × Addr) :=
  let addr := s.getReg insn.rs1.toNat + insn.imm
  match insn.opcode.insnClass with
  | some (.load T _) => some (.read T, addr)
  | some (.store T) => some (.write T ((s.getReg insn.rs2.toNat).setWidth T.bits), addr)
  | _ => none

/-- What the instruction touches is in the memory. -/
def GuestContained (insn : Instruction) (s : CPUState FullMemory) : Prop :=
  ∀ a addr, issued insn s = some (a, addr) → a.Contained s.memory addr

variable {insn : Instruction} {s : CPUState FullMemory} {a : PlainAccess} {addr : Addr}

/-- The interpreter raises what the access raises. -/
theorem execute_eq_error_iff (hissued : issued insn s = some (a, addr)) (e : Exn) :
    (execute insn).run s = .error e s ↔ (a.perform addr).run s.memory = .error e s.memory := by
  unfold issued at hissued
  split at hissued
  · next T Signed hclass =>
    cases hissued
    rw [execute_eq_effect hclass, InsnClass.effect]
    change _ ↔ (match Memory.read T s.memory _ with
      | .ok _ => EStateM.Result.ok () s.memory
      | .error e => .error e s.memory) = _
    cases Memory.read T s.memory (s.getReg insn.rs1.toNat + insn.imm) <;> simp
  · next T hclass =>
    cases hissued
    rw [execute_eq_effect hclass, InsnClass.effect, PlainAccess.perform,
      PlainMemory.run_overwrite]
    cases Memory.write T s.memory (s.getReg insn.rs1.toNat + insn.imm)
      ((s.getReg insn.rs2.toNat).setWidth T.bits) <;> simp
  · cases hissued

/-- Nothing but a load or a store that is not contained has no meaning. -/
theorem execute_eq_undefinedBehaviour_iff :
    (execute insn).run s = .error .undefinedBehaviour s ↔ ¬ GuestContained insn s := by
  cases hissued : issued insn s with
  | some access =>
    obtain ⟨a, addr⟩ := access
    have hcontained : GuestContained insn s ↔ a.Contained s.memory addr := by
      simp [GuestContained, hissued]
    rw [execute_eq_error_iff hissued, hcontained, PlainAccess.contained_iff_ne, ne_eq, not_not]
  | none =>
    have hcontained : GuestContained insn s := fun a addr h => by rw [hissued] at h; cases h
    refine iff_of_false (fun hrun => ?_) (not_not_intro hcontained)
    cases hk : insn.opcode.insnClass with
    | none =>
      rw [execute_of_insnClass_eq_none hk] at hrun
      cases hrun
    | some k =>
      rw [execute_eq_effect hk] at hrun
      cases k with
      | load T Signed => simp [issued, hk] at hissued
      | store T => simp [issued, hk] at hissued
      | ecall =>
        rw [InsnClass.effect, CPUState.emulateSysCall_eq] at hrun
        split_ifs at hrun
        cases hrun
      | rr | ri | lui | auipc | branch | jal | jalr | nop => cases hrun

/-- The accesses that are contained: any access to any mapping, and what a guest issues to
the full memory. -/
theorem contained_iff {m_start : Addr} {size : ℕ} (m : PlainMemory m_start size) (addr : Addr)
    (a : PlainAccess) (insn : Instruction) (s : CPUState FullMemory) :
    (a.Contained m addr ↔ addr.toNat < m_start.toNat ∨ m_start.toNat + size < addr.toNat ∨
      addr.toNat + a.bytes ≤ m_start.toNat + size) ∧
    (GuestContained insn s ↔
      ∀ a addr, issued insn s = some (a, addr) → addr.toNat + a.bytes ≤ 2 ^ 32) := by
  refine ⟨PlainAccess.contained_iff_ends a, forall_congr' fun a => forall_congr' fun addr =>
    imp_congr_right fun _ => ?_⟩
  have haddr := addr.isLt
  rw [PlainAccess.contained_iff_ends]
  change addr.toNat < 0 ∨ 0 + 2 ^ 32 < addr.toNat ∨ addr.toNat + a.bytes ≤ 0 + 2 ^ 32 ↔ _
  omega

/-- `lw x1, 0(x2)`. -/
def straddlingLoad : Instruction := { opcode := .kLW, rs1 := 2#8, rd := 1#8 }

/-- The word begins two bytes below the top of the address space. -/
def straddlingGuest : CPUState FullMemory := ({ memory := {} } : CPUState _).setReg 2 0xFFFFFFFE#32

theorem not_contained_straddlingLoad : ¬ GuestContained straddlingLoad straddlingGuest := by
  intro h
  have hcontained := h (.read .word) 0xFFFFFFFE#32 rfl
  exact PlainAccess.not_contained _ (by decide) (by decide) (by decide) hcontained

end Guest

end Prot
