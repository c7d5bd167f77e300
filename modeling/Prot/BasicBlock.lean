import Prot.Decode
import Prot.Interpreter

/-!
# Basic blocks

A block is what `JitEngine::step` collects from memory before it interprets or
translates it: decoded instructions up to the first terminator, or a single
instruction when single-stepping. `collectBlock` is that loop. `IsBlockAt`
describes the blocks it returns, without the loop.

Interpreting a block executes its instructions in order and counts each one.
-/

namespace Prot

open Isa Interpreter Stateful

/-! ### Collecting -/

/-- The loop that fills a block from `curAddr` on, as long as `fuel` lasts. It
ends with the instructions pushed so far, and the exception if one was raised. -/
def collectBlock (read : Addr → Except Exn Word) (singleStep : Bool) :
    ℕ → Addr → List Instruction → Option (List Instruction × Option Exn)
  | 0, _, _ => none
  | fuel + 1, curAddr, insns =>
    match read curAddr with
    | .error e => some (insns, some e)
    | .ok bytes =>
      match decode bytes with
      | none => some (insns, some (.cannotDecode bytes curAddr))
      | some inst =>
        -- the instruction is in the block before anything can stop the loop
        let insns := insns ++ [inst]
        if singleStep then some (insns, none)
        else
          match isTerminator inst.opcode with
          | .error e => some (insns, some e)
          | .ok true => some (insns, none)
          | .ok false => collectBlock read singleStep fuel (curAddr + kWordSize) insns

/-- The instructions `insns` are the block at address `a`. -/
inductive IsBlockAt (read : Addr → Except Exn Word) (singleStep : Bool) :
    Addr → List Instruction → Prop
  | last {a : Addr} {bytes : Word} {inst : Instruction} (hread : read a = .ok bytes)
      (hdecode : decode bytes = some inst)
      (hlast : singleStep = true ∨ isTerminator inst.opcode = .ok true) :
      IsBlockAt read singleStep a [inst]
  | cons {a : Addr} {bytes : Word} {inst : Instruction} {insns : List Instruction}
      (hread : read a = .ok bytes) (hdecode : decode bytes = some inst)
      (hmore : singleStep = false) (hinner : isTerminator inst.opcode = .ok false)
      (hrest : IsBlockAt read singleStep (a + kWordSize) insns) :
      IsBlockAt read singleStep a (inst :: insns)

/-- From address `a` on, a word that cannot be read or decoded comes before the end of
the block, and the loop raises `e` there. -/
inductive FaultsAt (read : Addr → Except Exn Word) (singleStep : Bool) : Addr → Exn → Prop
  | read {a : Addr} {e : Exn} (hread : read a = .error e) : FaultsAt read singleStep a e
  | decode {a : Addr} {bytes : Word} (hread : read a = .ok bytes) (hdecode : decode bytes = none) :
      FaultsAt read singleStep a (.cannotDecode bytes a)
  | cons {a : Addr} {bytes : Word} {inst : Instruction} {e : Exn} (hread : read a = .ok bytes)
      (hdecode : decode bytes = some inst) (hmore : singleStep = false)
      (hinner : isTerminator inst.opcode = .ok false)
      (hrest : FaultsAt read singleStep (a + kWordSize) e) : FaultsAt read singleStep a e

section Collect

variable {read : Addr → Except Exn Word} {singleStep : Bool}

/-- More fuel changes no block that was collected. -/
theorem collectBlock_mono {fuel fuel' : ℕ} (hle : fuel ≤ fuel') {a : Addr}
    {acc : List Instruction} {r : List Instruction × Option Exn}
    (h : collectBlock read singleStep fuel a acc = some r) :
    collectBlock read singleStep fuel' a acc = some r := by
  induction fuel generalizing fuel' a acc with
  | zero => cases h
  | succ fuel ih =>
    obtain ⟨fuel', rfl⟩ := Nat.exists_eq_add_of_le' (Nat.lt_of_lt_of_le fuel.succ_pos hle)
    cases hread : read a with
    | error e => simpa [collectBlock, hread] using h
    | ok bytes =>
      cases hdecode : decode bytes with
      | none => simpa [collectBlock, hread, hdecode] using h
      | some inst =>
        cases hterm : isTerminator inst.opcode with
        | error e => simpa [collectBlock, hread, hdecode, hterm] using h
        | ok last =>
          simp only [collectBlock, hread, hdecode, hterm] at h ⊢
          cases last with
          | true => exact h
          | false =>
            split
            · next hss => rwa [if_pos hss] at h
            · next hss =>
              rw [if_neg hss] at h
              exact ih (by omega) h

/-- A collection that raises nothing returns a block. -/
theorem isBlockAt_of_collectBlock {fuel : ℕ} {a : Addr} {acc insns : List Instruction}
    (h : collectBlock read singleStep fuel a acc = some (insns, none)) :
    ∃ new, insns = acc ++ new ∧ IsBlockAt read singleStep a new := by
  induction fuel generalizing a acc with
  | zero => simp [collectBlock] at h
  | succ fuel ih =>
    simp only [collectBlock] at h
    split at h
    · simp at h
    · next bytes hread =>
      split at h
      · simp at h
      · next inst hdecode =>
        split at h
        · next hss =>
          exact ⟨[inst], by simpa using h.symm, .last hread hdecode (.inl hss)⟩
        · next hss =>
          split at h
          · simp at h
          · next hterm =>
            exact ⟨[inst], by simpa using h.symm, .last hread hdecode (.inr hterm)⟩
          · next hterm =>
            obtain ⟨new, rfl, hnew⟩ := ih h
            exact ⟨inst :: new, by simp, .cons hread hdecode (by simpa using hss) hterm hnew⟩

/-- The loop returns every block, given fuel for its instructions. -/
theorem IsBlockAt.collectBlock_eq {a : Addr} {insns : List Instruction}
    (h : IsBlockAt read singleStep a insns) {fuel : ℕ} (hfuel : insns.length ≤ fuel)
    (acc : List Instruction) :
    collectBlock read singleStep fuel a acc = some (acc ++ insns, none) := by
  induction h generalizing fuel acc with
  | last hread hdecode hlast =>
    obtain ⟨fuel, rfl⟩ : ∃ k, fuel = k + 1 := ⟨fuel - 1, by simp at hfuel; omega⟩
    rcases hlast with hss | hterm
    · simp [collectBlock, hread, hdecode, hss]
    · simp [collectBlock, hread, hdecode, hterm]
  | cons hread hdecode hmore hinner hrest ih =>
    obtain ⟨fuel, rfl⟩ : ∃ k, fuel = k + 1 := ⟨fuel - 1, by simp at hfuel; omega⟩
    subst hmore
    simp [collectBlock, hread, hdecode, hinner, ih (by simpa using hfuel)]

/-- Memory, address and stepping mode determine the block. -/
theorem IsBlockAt.unique {a : Addr} {insns insns' : List Instruction}
    (h : IsBlockAt read singleStep a insns) (h' : IsBlockAt read singleStep a insns') :
    insns = insns' := by
  have heq := h.collectBlock_eq (Nat.le_max_left insns.length insns'.length) []
  rw [h'.collectBlock_eq (Nat.le_max_right insns.length insns'.length) []] at heq
  simpa using heq.symm

/-- Every opcode that is decoded has a class. -/
theorem exists_insnClass {opc : Opcode} (h : opc.isDecoded = true) :
    ∃ k, opc.insnClass = some k := by
  cases opc <;> first | exact ⟨_, rfl⟩ | cases h

/-- A collection that raises met such a word. -/
theorem faultsAt_of_collectBlock {fuel : ℕ} {a : Addr} {acc insns : List Instruction} {e : Exn}
    (h : collectBlock read singleStep fuel a acc = some (insns, some e)) :
    FaultsAt read singleStep a e := by
  induction fuel generalizing a acc with
  | zero => cases h
  | succ fuel ih =>
    simp only [collectBlock] at h
    split at h
    · next e' hread =>
      cases h
      exact .read hread
    · next bytes hread =>
      split at h
      · next hdecode =>
        cases h
        exact .decode hread hdecode
      · next inst hdecode =>
        split at h
        · cases h
        · next hss =>
          split at h
          · next e' hterm =>
            obtain ⟨k, hk⟩ := exists_insnClass (wellFormed_of_decode hdecode).isDecoded
            obtain ⟨b, hb⟩ := exists_isTerminator hk
            rw [hb] at hterm
            cases hterm
          · cases h
          · next hterm => exact .cons hread hdecode (by simpa using hss) hterm (ih h)

/-- A collection that meets a fault raises it, on enough fuel. -/
theorem FaultsAt.exists_collectBlock_eq {a : Addr} {e : Exn} (h : FaultsAt read singleStep a e)
    (acc : List Instruction) :
    ∃ fuel insns, collectBlock read singleStep fuel a acc = some (insns, some e) := by
  induction h generalizing acc with
  | read hread => exact ⟨1, acc, by simp [collectBlock, hread]⟩
  | decode hread hdecode => exact ⟨1, acc, by simp [collectBlock, hread, hdecode]⟩
  | @cons a bytes inst e hread hdecode hmore hinner hrest ih =>
    subst hmore
    obtain ⟨fuel, insns, hcollect⟩ := ih (acc ++ [inst])
    exact ⟨fuel + 1, insns, by simp [collectBlock, hread, hdecode, hinner, hcollect]⟩

/-- What begins at an address is a block or raises, but not both. -/
theorem FaultsAt.not_isBlockAt {a : Addr} {e : Exn} (h : FaultsAt read singleStep a e)
    {insns : List Instruction} : ¬ IsBlockAt read singleStep a insns := by
  intro hblock
  obtain ⟨fuel, insns', hraise⟩ := h.exists_collectBlock_eq []
  have hreturn := hblock.collectBlock_eq (Nat.le_max_left insns.length fuel) []
  rw [collectBlock_mono (Nat.le_max_right insns.length fuel) hraise] at hreturn
  cases hreturn

end Collect

/-- A block of the engine: some memory, address and stepping mode make the
collection loop return it. -/
def IsBlock (insns : List Instruction) : Prop :=
  ∃ read singleStep fuel a, collectBlock read singleStep fuel a [] = some (insns, none)

/-- A list of decoded instructions. -/
def Decoded (insns : List Instruction) : Prop :=
  ∀ insn ∈ insns, ∃ word, decode word = some insn

/-- The decoder guarantees the ranges of all fields. -/
theorem Decoded.wellFormed {insns : List Instruction} (h : Decoded insns) :
    ∀ insn ∈ insns, insn.WellFormed :=
  fun insn hmem => (h insn hmem).elim fun _ hdecode => wellFormed_of_decode hdecode

/-- Every instruction of a block has a class. -/
theorem Decoded.insnClass {insns : List Instruction} (h : Decoded insns) :
    ∀ insn ∈ insns, ∃ k, insn.opcode.insnClass = some k :=
  fun insn hmem => exists_insnClass (h.wellFormed insn hmem).isDecoded

namespace IsBlockAt

variable {read : Addr → Except Exn Word} {singleStep : Bool} {a : Addr}
  {insns : List Instruction}

/-- A block is decoded from its words. -/
theorem decoded (h : IsBlockAt read singleStep a insns) : Decoded insns := by
  induction h with
  | last _ hdecode _ =>
    intro insn hmem
    obtain rfl := List.mem_singleton.mp hmem
    exact ⟨_, hdecode⟩
  | cons _ hdecode _ _ _ ih =>
    intro insn hmem
    rcases List.mem_cons.mp hmem with rfl | hmem
    · exact ⟨_, hdecode⟩
    · exact ih insn hmem

/-- A block begins with a word, and goes on after an instruction that ends no block. -/
theorem exists_eq_cons (h : IsBlockAt read singleStep a insns) :
    ∃ bytes inst rest, insns = inst :: rest ∧ read a = .ok bytes ∧ decode bytes = some inst ∧
      (singleStep = false → isTerminator inst.opcode = .ok false →
        IsBlockAt read singleStep (a + kWordSize) rest) := by
  cases h with
  | @last _ bytes inst hread hdecode hlast =>
    refine ⟨bytes, inst, [], rfl, hread, hdecode, fun hmore hinner => ?_⟩
    rw [hmore, hinner] at hlast
    simp at hlast
  | @cons _ bytes inst rest hread hdecode _ _ hrest =>
    exact ⟨bytes, inst, rest, rfl, hread, hdecode, fun _ _ => hrest⟩

/-- A block has at least one instruction. -/
theorem ne_nil (h : IsBlockAt read singleStep a insns) : insns ≠ [] := by
  cases h <;> simp

theorem add_wordSize_add (a : Addr) (k : ℕ) :
    a + kWordSize + BitVec.ofNat 32 (4 * k) = a + BitVec.ofNat 32 (4 * (k + 1)) := by
  rw [BitVec.add_assoc, kWordSize, ← BitVec.ofNat_add]
  congr 2
  omega

/-- The `k`-th instruction is the word at the `k`-th address, and a terminator
only at the end. -/
theorem getElem_eq (h : IsBlockAt read singleStep a insns) {k : ℕ} (hk : k < insns.length) :
    ∃ bytes, read (a + BitVec.ofNat 32 (4 * k)) = .ok bytes ∧ decode bytes = some insns[k] ∧
      if k + 1 < insns.length then isTerminator insns[k].opcode = .ok false
      else singleStep = true ∨ isTerminator insns[k].opcode = .ok true := by
  induction h generalizing k with
  | last hread hdecode hlast =>
    obtain rfl : k = 0 := by simpa using hk
    exact ⟨_, by simpa using hread, by simpa using hdecode, by simpa using hlast⟩
  | @cons a bytes inst insns hread hdecode _ hinner hrest ih =>
    cases k with
    | zero =>
      have hpos : 0 < insns.length := List.length_pos_of_ne_nil hrest.ne_nil
      exact ⟨_, by simpa using hread, by simpa using hdecode, by simpa [hpos] using hinner⟩
    | succ k =>
      obtain ⟨bytes', hread', hdecode', hpos'⟩ := ih (by simpa using hk)
      exact ⟨bytes', add_wordSize_add a k ▸ hread', by simpa using hdecode', by simpa using hpos'⟩

/-- A block of several instructions was not collected in single steps. -/
theorem singleStep_eq_false (h : IsBlockAt read singleStep a insns) (hlen : 1 < insns.length) :
    singleStep = false := by
  cases h with
  | last => simp at hlen
  | cons _ _ hmore _ _ => exact hmore

/-- A block is shorter than the address space: `2 ^ 30` places after an instruction comes the same
word again, which would be a terminator and none. -/
theorem length_le (h : IsBlockAt read singleStep a insns) : insns.length ≤ 2 ^ 30 := by
  by_contra hlong
  have hpos : insns.length - 1 < insns.length := by omega
  -- the last instruction, and the one `2 ^ 30` places before it
  obtain ⟨bytes, hread, hdecode, hlast⟩ := h.getElem_eq hpos
  obtain ⟨bytes', hread', hdecode', hinner⟩ :=
    h.getElem_eq (show insns.length - 1 - 2 ^ 30 < insns.length by omega)
  -- four times `2 ^ 30` is the size of the address space
  have hwrap : a + BitVec.ofNat 32 (4 * (insns.length - 1)) =
      a + BitVec.ofNat 32 (4 * (insns.length - 1 - 2 ^ 30)) := by
    refine congrArg (a + ·) (BitVec.eq_of_toNat_eq ?_)
    rw [BitVec.toNat_ofNat, BitVec.toNat_ofNat]
    omega
  rw [hwrap, hread'] at hread
  cases hread
  rw [hdecode'] at hdecode
  rw [if_neg (by omega), ← Option.some.inj hdecode] at hlast
  rw [if_pos (by omega)] at hinner
  -- so the same word is a terminator and is not
  rcases hlast with hss | hterm
  · rw [h.singleStep_eq_false (by omega)] at hss
    cases hss
  · rw [hinner] at hterm
    cases hterm

end IsBlockAt

theorem IsBlockAt.isBlock {read : Addr → Except Exn Word} {singleStep : Bool} {a : Addr}
    {insns : List Instruction} (h : IsBlockAt read singleStep a insns) : IsBlock insns :=
  ⟨read, singleStep, insns.length, a, h.collectBlock_eq le_rfl []⟩

/-- What is a block is one somewhere. -/
theorem IsBlock.isBlockAt {insns : List Instruction} (h : IsBlock insns) :
    ∃ read singleStep a, IsBlockAt read singleStep a insns := by
  obtain ⟨read, singleStep, fuel, a, hcollect⟩ := h
  obtain ⟨new, rfl, hblock⟩ := isBlockAt_of_collectBlock hcollect
  exact ⟨read, singleStep, a, hblock⟩

theorem IsBlock.decoded {insns : List Instruction} (h : IsBlock insns) : Decoded insns := by
  obtain ⟨_, _, _, hblock⟩ := h.isBlockAt
  exact hblock.decoded

/-- The number of instructions of a block fits into 32 bits. -/
theorem IsBlock.length_le {insns : List Instruction} (h : IsBlock insns) :
    insns.length ≤ 2 ^ 30 := by
  obtain ⟨_, _, _, hblock⟩ := h.isBlockAt
  exact hblock.length_le

/-! ### Interpreting -/

section Interpret

variable {μ : Type} [Memory μ]

/-- One round of the loop in `JitEngine::interpret`. -/
def executeCounted (insn : Instruction) : EStateM Exn (CPUState μ) Unit := do
  execute insn
  modify fun cpu => cpu.incIcount

/-- The loop in `JitEngine::interpret`. -/
def interpretInsns (insns : List Instruction) : EStateM Exn (CPUState μ) Unit :=
  forM insns executeCounted

/-- A round that returns executed an instruction of some class, and counted it. -/
theorem exists_of_executeCounted_eq_ok {insn : Instruction} {s s' : CPUState μ}
    (h : (executeCounted insn).run s = .ok () s') :
    ∃ k s₁, insn.opcode.insnClass = some k ∧ k.effect insn s = .ok () s₁ ∧
      s' = s₁.incIcount := by
  rw [executeCounted, run_seq_eq_ok] at h
  obtain ⟨_, s₁, hexec, hcount⟩ := h
  cases hk : insn.opcode.insnClass with
  | none =>
    rw [execute_of_insnClass_eq_none hk] at hexec
    cases hexec
  | some k =>
    rw [execute_eq_effect hk] at hexec
    cases hcount
    exact ⟨k, s₁, rfl, hexec, rfl⟩

/-- A round that raises has not counted, nor done anything else. -/
theorem executeCounted_error {insn : Instruction} {s s' : CPUState μ} {e : Exn}
    (h : (executeCounted insn).run s = .error e s') :
    s' = s ∧ (execute insn).run s = .error e s := by
  rw [executeCounted, EStateM.run_bind] at h
  cases hexec : (execute insn).run s with
  | ok _ s₁ =>
    rw [hexec] at h
    cases h
  | error e' s₁ =>
    rw [hexec] at h
    cases h
    obtain rfl := execute_error hexec
    exact ⟨rfl, rfl⟩

/-- Up to the counter, interpreting a block is executing its instructions. -/
theorem interpretInsns_withIcount (n : Icount) (insns : List Instruction) :
    Refines (·.withIcount n) (fun _ => True) (interpretInsns (μ := μ) insns)
      (forM insns execute) := by
  refine Refines.forM insns fun insn _ s _ => ?_
  have hexec := execute_withIcount n insn s trivial
  simp only [executeCounted, EStateM.run_bind]
  revert hexec
  cases (execute insn).run s with
  | ok _ s' =>
    generalize (execute insn).run (s.withIcount n) = r
    rintro ⟨same, -⟩
    exact .returned same trivial
  | error e s' =>
    generalize (execute insn).run (s.withIcount n) = r
    rintro (_ | same)
    exact .raised same

/-- Interpreting a block counts its instructions, modulo `2 ^ 64`. -/
theorem icount_of_interpretInsns {insns : List Instruction} {s s' : CPUState μ}
    (h : (interpretInsns insns).run s = .ok () s') :
    s'.icount = s.icount + BitVec.ofNat 64 insns.length := by
  induction insns generalizing s with
  | nil =>
    cases h
    simp
  | cons insn insns ih =>
    rw [interpretInsns, List.forM_cons, run_seq_eq_ok] at h
    obtain ⟨_, s₁, hfirst, hrest⟩ := h
    rw [executeCounted, run_seq_eq_ok] at hfirst
    obtain ⟨_, s₀, hexec, hcount⟩ := hfirst
    have hkeep : s₀.icount = s.icount := (execute_icount insn s.icount).ok rfl hexec
    cases hcount
    rw [ih hrest, List.length_cons, CPUState.incIcount_icount, hkeep, BitVec.add_assoc,
      Nat.add_comm, BitVec.ofNat_add]

/-- Without the counter, interpreting a block is executing its instructions. -/
theorem run_forM_execute {insns : List Instruction} {s s' : CPUState μ}
    (h : (interpretInsns insns).run s = .ok () s') :
    (forM insns execute).run s = .ok () (s'.withIcount s.icount) := by
  have hmatch := interpretInsns_withIcount s.icount insns s trivial
  simp only [h, CPUState.withIcount_self] at hmatch
  generalize (forM insns execute).run s = abstract at hmatch
  cases hmatch with
  | returned same _ => rw [same]

/-- Without the counter, a block raises as its instructions do. -/
theorem run_forM_execute_error {insns : List Instruction} {s s' : CPUState μ} {e : Exn}
    (h : (interpretInsns insns).run s = .error e s') :
    (forM insns execute).run s = .error e (s'.withIcount s.icount) := by
  have hmatch := interpretInsns_withIcount s.icount insns s trivial
  simp only [h, CPUState.withIcount_self] at hmatch
  generalize (forM insns execute).run s = abstract at hmatch
  cases hmatch with
  | raised same => rw [same]

/-- Interpreting a block from another count. -/
theorem interpretInsns_of_withIcount {insns : List Instruction} {s s' : CPUState μ} (n : Icount)
    (h : (interpretInsns insns).run s = .ok () s') :
    (interpretInsns insns).run (s.withIcount n) =
      .ok () (s'.withIcount (n + BitVec.ofNat 64 insns.length)) := by
  have hmatch := interpretInsns_withIcount n insns s trivial
  have hmatch' := interpretInsns_withIcount n insns (s.withIcount n) trivial
  simp only [CPUState.withIcount_withIcount] at hmatch hmatch'
  rw [h] at hmatch
  generalize (forM insns execute).run (s.withIcount n) = abstract at hmatch hmatch'
  cases hmatch with
  | returned same _ =>
    cases hinterp : (interpretInsns insns).run (s.withIcount n) with
    | error e t =>
      rw [hinterp] at hmatch'
      cases hmatch'
    | ok _ t =>
      rw [hinterp] at hmatch'
      have hicount := icount_of_interpretInsns hinterp
      rw [CPUState.withIcount_icount] at hicount
      cases hmatch' with
      | returned same' _ =>
        rw [← hicount, ← CPUState.withIcount_withIcount s' n, same, ← same',
          CPUState.withIcount_withIcount, CPUState.withIcount_self]

/-- A block that raises does so from any count. -/
theorem interpretInsns_error_of_withIcount {insns : List Instruction} {s s' : CPUState μ} {e : Exn}
    (n : Icount) (h : (interpretInsns insns).run s = .error e s') :
    ∃ s'', (interpretInsns insns).run (s.withIcount n) = .error e s'' := by
  have hmatch := interpretInsns_withIcount n insns s trivial
  have hmatch' := interpretInsns_withIcount n insns (s.withIcount n) trivial
  simp only [CPUState.withIcount_withIcount] at hmatch hmatch'
  rw [h] at hmatch
  generalize (forM insns execute).run (s.withIcount n) = abstract at hmatch hmatch'
  cases hmatch with
  | raised _ =>
    generalize (interpretInsns insns).run (s.withIcount n) = r at hmatch'
    cases hmatch' with
    | raised _ => exact ⟨_, rfl⟩

/-- `x0` stays as it is. -/
theorem executeCounted_getReg_zero (insn : Instruction) (v : Word) :
    Preserves (fun s : CPUState μ => s.getReg 0 = v) (executeCounted insn) :=
  (execute_getReg_zero insn v).seq fun _ hs => hs

/-- `x0` stays as it is over a block. -/
theorem interpretInsns_getReg_zero (insns : List Instruction) (v : Word) :
    Preserves (fun s : CPUState μ => s.getReg 0 = v) (interpretInsns insns) :=
  .forM insns fun insn _ => executeCounted_getReg_zero insn v

/-- `P` holds of every instruction of a block, in the state in which executing the
block reaches it. -/
def Along (P : Instruction → CPUState μ → Prop) : List Instruction → CPUState μ → Prop
  | [], _ => True
  | insn :: insns, s =>
    P insn s ∧
      match (execute insn).run s with
      | .ok _ s' => Along P insns s'
      | .error _ _ => True

/-- The first instruction, and then the others from where it leads. -/
theorem along_cons_of_ok {P : Instruction → CPUState μ → Prop} {insn : Instruction}
    {insns : List Instruction} {s s' : CPUState μ} (h : (execute insn).run s = .ok () s') :
    Along P (insn :: insns) s ↔ P insn s ∧ Along P insns s' := by
  rw [Along, h]

/-- What holds everywhere holds along every block. -/
theorem along_of_forall {P : Instruction → CPUState μ → Prop} (h : ∀ insn s, P insn s)
    (insns : List Instruction) (s : CPUState μ) : Along P insns s := by
  induction insns generalizing s with
  | nil => trivial
  | cons insn insns ih =>
    refine ⟨h insn s, ?_⟩
    cases (execute insn).run s with
    | ok _ s' => exact ih s'
    | error _ _ => trivial

/-- What is not about the counter holds along a block from any count. -/
theorem along_withIcount {P : Instruction → CPUState μ → Prop}
    (hP : ∀ insn s n, P insn (s.withIcount n) ↔ P insn s) {insns : List Instruction}
    {s : CPUState μ} (n : Icount) : Along P insns (s.withIcount n) ↔ Along P insns s := by
  induction insns generalizing s with
  | nil => exact Iff.rfl
  | cons insn insns ih =>
    rw [Along, Along, hP]
    refine and_congr_right fun _ => ?_
    have hmatch := execute_withIcount n insn s trivial
    revert hmatch
    cases (execute insn).run s with
    | ok _ s₁ =>
      generalize (execute insn).run (s.withIcount n) = r
      rintro ⟨rfl, -⟩
      exact ih
    | error e s₁ =>
      generalize (execute insn).run (s.withIcount n) = r
      rintro (_ | same)
      exact Iff.rfl

section ExecuteIf

variable (P : Instruction → CPUState μ → Prop) [∀ insn s, Decidable (P insn s)] (e : Exn)

/-- Executes an instruction if `P` allows it. -/
def executeIf (insn : Instruction) : EStateM Exn (CPUState μ) Unit := do
  let s ← get
  if P insn s then execute insn else throw e

variable {P e} {insn : Instruction} {s : CPUState μ}

/-- Where the condition holds, nothing is different. -/
theorem run_executeIf_of_pos (h : P insn s) :
    (executeIf P e insn).run s = (execute insn).run s := by
  rw [executeIf, EStateM.run_bind, EStateM.run_get]
  simp only [if_pos h]

/-- Where it does not, the instruction raises. -/
theorem run_executeIf_of_neg (h : ¬ P insn s) : (executeIf P e insn).run s = .error e s := by
  rw [executeIf, EStateM.run_bind, EStateM.run_get]
  simp only [if_neg h]
  rfl

theorem executeIf_preserves {inv : CPUState μ → Prop} (h : Preserves inv (execute insn)) :
    Preserves inv (executeIf P e insn) := by
  intro s hs
  by_cases hP : P insn s
  · rw [run_executeIf_of_pos hP]
    exact h s hs
  · rwa [run_executeIf_of_neg hP]

/-- A block returns if it is executed to its end and `P` holds along the way. -/
theorem run_forM_executeIf {insns : List Instruction} {s' : CPUState μ} :
    (forM insns (executeIf P e)).run s = .ok () s' ↔
      (forM insns execute).run s = .ok () s' ∧ Along P insns s := by
  induction insns generalizing s with
  | nil => simp [Along]
  | cons insn insns ih =>
    rw [List.forM_cons, List.forM_cons, Along, EStateM.run_bind, EStateM.run_bind]
    by_cases h : P insn s
    · rw [run_executeIf_of_pos h]
      cases (execute insn).run s with
      | ok _ s₁ => simp only [ih, h, true_and]
      | error e' s₁ => simp
    · rw [run_executeIf_of_neg h]
      simp [h]

end ExecuteIf

end Interpret

end Prot
