import Prot.Lib.Rv32i

/-!
# Runs of RV32I programs

A program of the base instruction set runs by fetching the word at `pc` from the memory
that it also loads from and stores to. A run is given by the states that it goes through.
What a run asks of its environment is that `pc` be aligned and that no access reach past
the end of the address space.

## Main definitions

* `IsRun`: a run of a number of instructions
* `SparesCode`: the run stores to no word that it fetches
-/

namespace Rv32i

/-- The word at `pc`. -/
def State.fetched (σ : State) : Word := σ.word σ.pc

/-- `x` is one of the `n` bytes from `a` on. -/
def Within (a : Word) (n : ℕ) (x : Word) : Prop := (x - a).toNat < n

namespace Mnemonic

/-- The number of bytes that are loaded. -/
def loadBytes : Mnemonic → Option ℕ
  | lb | lbu => some 1
  | lh | lhu => some 2
  | lw => some 4
  | _ => none

/-- The number of bytes that are stored. -/
def storeBytes : Mnemonic → Option ℕ
  | sb => some 1
  | sh => some 2
  | sw => some 4
  | _ => none

end Mnemonic

/-- Where the fetched instruction loads from, if it is a load. -/
def State.loadAddr (σ : State) : Word := σ.x (rs1 σ.fetched) + immI σ.fetched

/-- Where the fetched instruction stores to, if it is a store. -/
def State.storeAddr (σ : State) : Word := σ.x (rs1 σ.fetched) + immS σ.fetched

/-- The access of the fetched instruction ends within the address space. -/
structure Mnemonic.InSpace (m : Mnemonic) (σ : State) : Prop where
  load : ∀ n ∈ m.loadBytes, σ.loadAddr.toNat + n ≤ 2 ^ 32
  store : ∀ n ∈ m.storeBytes, σ.storeAddr.toNat + n ≤ 2 ^ 32

/-- The first `n` instructions of a program that goes through the states of the sequence. -/
structure IsRun (trace : ℕ → State) (n : ℕ) : Prop where
  aligned : ∀ k ≤ n, (trace k).pc % 4#32 = 0#32
  exec : ∀ k < n, ∃ m : Mnemonic, m.Encodes (trace k).fetched ∧ m.InSpace (trace k) ∧
    trace (k + 1) = m.exec (trace k).fetched (trace k)

/-- What the run stores never overlaps a word that it fetches. -/
def SparesCode (trace : ℕ → State) (n : ℕ) : Prop :=
  ∀ i < n, ∀ m : Mnemonic, m.Encodes (trace i).fetched → ∀ b ∈ m.storeBytes, ∀ j ≤ n, ∀ x,
    Within (trace i).storeAddr b x → ¬ Within (trace j).pc 4 x

/-- The word that calls the execution environment. -/
def ecall : Word := 0x73#32

end Rv32i
