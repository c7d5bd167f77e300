import Prot.PagedMemory
import Prot.PlainMemory
import Mathlib.Data.Nat.Digits.Defs

/-!
# Typed access on top of block access

The templates `read<T>` and `write<T>` of `Memory` call a virtual function for each of
the narrow types and a block function for any other. The virtual functions, unless they
are overridden, call the templates back. So there is no end to a narrow access to a
memory that leaves them as they are, which is what `PagedMem` does.

## Main results

* `TypedAccess.readAgrees_of_override`: a function that is overridden as it should be
* `TypedAccess.read_eq_none`: a function that is not overridden never returns
* `Implementation.agrees_iff`: typed and block access, for each memory and type
-/

namespace Prot

/-! ### Values and their bytes -/

/-- The unsigned types that the templates are instantiated with. -/
inductive UnsignedTy where
  | narrow (T : MemTy)
  | uint64

namespace UnsignedTy

/-- `sizeof(T)`. -/
def bytes : UnsignedTy → ℕ
  | .narrow T => T.bytes
  | .uint64 => 8

/-- `sizeofBits<T>()`. -/
abbrev bits : UnsignedTy → ℕ
  | .narrow T => T.bits
  | .uint64 => 64

end UnsignedTy

/-- `std::bit_cast` from an array of bytes, on a little-endian host. -/
def fromBytes (w : ℕ) (bytes : List Byte) : BitVec w :=
  BitVec.ofNat w (Nat.ofDigits 256 (bytes.map BitVec.toNat))

/-- `std::bit_cast` to an array of `n` bytes. -/
def toBytes {w : ℕ} (n : ℕ) (val : BitVec w) : List Byte := (List.range n).map (byteOf val)

@[simp] theorem length_toBytes {w : ℕ} (n : ℕ) (val : BitVec w) : (toBytes n val).length = n := by
  rw [toBytes, List.length_map, List.length_range]

/-- The digits of a value in base 256 are its bytes. -/
theorem byteOf_fromBytes {w : ℕ} {bytes : List Byte} {k : ℕ} (hk : k < bytes.length)
    (hw : 8 * k + 8 ≤ w) : byteOf (fromBytes w bytes) k = bytes[k] := by
  -- the digits from the `k`-th on
  have hdigits : Nat.ofDigits 256 (bytes.map BitVec.toNat) / 2 ^ (8 * k) % 2 ^ 8 =
      (bytes[k]).toNat := by
    have hlt : ∀ d ∈ bytes.map BitVec.toNat, d < 256 := by
      intro d hd
      obtain ⟨b, -, rfl⟩ := List.mem_map.mp hd
      exact b.isLt
    have hdrop := Nat.ofDigits_div_pow_eq_ofDigits_drop k (by decide : 0 < 256) _ hlt
    rw [Nat.pow_mul]
    rw [show 2 ^ 8 = 256 from rfl, hdrop, ← List.map_drop, List.drop_eq_getElem_cons hk,
      List.map_cons, Nat.ofDigits_cons, Nat.add_mul_mod_self_left]
    exact Nat.mod_eq_of_lt (bytes[k]).isLt
  refine BitVec.eq_of_toNat_eq ?_
  rw [byteOf, fromBytes, BitVec.extractLsb'_toNat, BitVec.toNat_ofNat, Nat.shiftRight_eq_div_pow,
    ← hdigits]
  obtain ⟨r, rfl⟩ := Nat.exists_eq_add_of_le hw
  rw [Nat.add_assoc, Nat.pow_add, Nat.mod_mul_right_div_self,
    Nat.mod_mod_of_dvd _ (Nat.pow_dvd_pow 2 (Nat.le_add_right 8 r))]

/-! ### Dispatch -/

/-- The virtual functions of `Memory` that have a body, where a class overrides them. -/
class TypedOverrides (μ : Type) where
  read8 : Option (μ → Addr → Except Exn Byte) := none
  read16 : Option (μ → Addr → Except Exn Half) := none
  read32 : Option (μ → Addr → Except Exn Word) := none
  write8 : Option (Addr → Byte → EStateM Exn μ Unit) := none
  write16 : Option (Addr → Half → EStateM Exn μ Unit) := none
  write32 : Option (Addr → Word → EStateM Exn μ Unit) := none

namespace TypedOverrides

variable {μ : Type} [TypedOverrides μ]

/-- The override of a narrow read, if the memory has one. -/
def read : (T : MemTy) → Option (μ → Addr → Except Exn (BitVec T.bits))
  | .byte => read8
  | .half => read16
  | .word => read32

/-- The override of a narrow write, if the memory has one. -/
def write : (T : MemTy) → Option (Addr → BitVec T.bits → EStateM Exn μ Unit)
  | .byte => write8
  | .half => write16
  | .word => write32

end TypedOverrides

namespace TypedAccess

open Stateful

variable {μ : Type} [BlockMemory μ]

/-- `readBlock` into an array `buf` that was not initialised, and the value of its bytes. -/
def readBuffer (T : UnsignedTy) (m : μ) (addr : Addr) (buf : List Byte) :
    Except Exn (BitVec T.bits) :=
  match (BlockMemory.readBlock m addr).run buf with
  | .ok _ data => .ok (fromBytes T.bits data)
  | .error e _ => .error e

/-- `writeBlock` from the array of the bytes of a value. -/
def writeBuffer (T : UnsignedTy) (addr : Addr) (val : BitVec T.bits) : EStateM Exn μ Unit :=
  BlockMemory.writeBlock (toBytes T.bytes val) addr

variable [TypedOverrides μ]

/-! A call takes one unit of fuel; `none` is a call that has not returned when there is
none left. -/

mutual

/-- `Memory::read<T>`. -/
def read (buf : List Byte) : ℕ → (T : UnsignedTy) → μ → Addr →
    Option (Except Exn (BitVec T.bits))
  | 0, _, _, _ => none
  | fuel + 1, .narrow T, m, addr => readVirtual buf fuel T m addr
  | _ + 1, .uint64, m, addr => some (readBuffer .uint64 m addr buf)

/-- `Memory::read8` and its siblings, as they are dispatched. -/
def readVirtual (buf : List Byte) : ℕ → (T : MemTy) → μ → Addr →
    Option (Except Exn (BitVec T.bits))
  | 0, _, _, _ => none
  | fuel + 1, T, m, addr =>
    match TypedOverrides.read T with
    | some override => some (override m addr)
    | none => read buf fuel (.narrow T) m addr

end

mutual

/-- `Memory::write<T>`. -/
def write : ℕ → (T : UnsignedTy) → Addr → BitVec T.bits → μ →
    Option (EStateM.Result Exn μ Unit)
  | 0, _, _, _, _ => none
  | fuel + 1, .narrow T, addr, val, m => writeVirtual fuel T addr val m
  | _ + 1, .uint64, addr, val, m => some ((writeBuffer .uint64 addr val).run m)

/-- `Memory::write8` and its siblings, as they are dispatched. -/
def writeVirtual : ℕ → (T : MemTy) → Addr → BitVec T.bits → μ →
    Option (EStateM.Result Exn μ Unit)
  | 0, _, _, _, _ => none
  | fuel + 1, T, addr, val, m =>
    match TypedOverrides.write T with
    | some override => some ((override addr val).run m)
    | none => write fuel (.narrow T) addr val m

end

/-- A typed read returns, and what it returns or raises is what a block read gives. -/
def ReadAgrees (m : μ) (addr : Addr) (T : UnsignedTy) : Prop :=
  ∀ buf : List Byte, buf.length = T.bytes →
    ∃ n, ∀ fuel ≥ n, read buf fuel T m addr = some (readBuffer T m addr buf)

/-- A typed write returns, and does what a block write of the bytes of the value does. -/
def WriteAgrees (m : μ) (addr : Addr) (T : UnsignedTy) : Prop :=
  ∀ val : BitVec T.bits,
    ∃ n, ∀ fuel ≥ n, write fuel T addr val m = some ((writeBuffer T addr val).run m)

section Dispatch

variable {m : μ} {addr : Addr} {T : MemTy}

/-! The wide type does not go through a virtual function. -/

/-- Wide reads go through the block read. -/
theorem readAgrees_uint64 (m : μ) (addr : Addr) : ReadAgrees m addr .uint64 := by
  refine fun buf _ => ⟨1, fun fuel hfuel => ?_⟩
  obtain ⟨fuel, rfl⟩ := Nat.exists_eq_add_of_le' hfuel
  rw [read]

/-- Wide writes go through the block write. -/
theorem writeAgrees_uint64 (m : μ) (addr : Addr) : WriteAgrees m addr .uint64 := by
  refine fun val => ⟨1, fun fuel hfuel => ?_⟩
  obtain ⟨fuel, rfl⟩ := Nat.exists_eq_add_of_le' hfuel
  rw [write]

/-! An override that does what the block function does ends the recursion. -/

/-- An override agrees if it reads what the block read does. -/
theorem readAgrees_of_override {f : μ → Addr → Except Exn (BitVec T.bits)}
    (hread : TypedOverrides.read T = some f)
    (hf : ∀ buf : List Byte, buf.length = T.bytes → f m addr = readBuffer (.narrow T) m addr buf) :
    ReadAgrees m addr (.narrow T) := by
  refine fun buf hbuf => ⟨2, fun fuel hfuel => ?_⟩
  obtain ⟨fuel, rfl⟩ := Nat.exists_eq_add_of_le' hfuel
  rw [read, readVirtual, hread]
  exact congrArg some (hf buf hbuf)

/-- An override agrees if it writes what the block write does. -/
theorem writeAgrees_of_override {f : Addr → BitVec T.bits → EStateM Exn μ Unit}
    (hwrite : TypedOverrides.write T = some f)
    (hf : ∀ val, (f addr val).run m = (writeBuffer (.narrow T) addr val).run m) :
    WriteAgrees m addr (.narrow T) := by
  refine fun val => ⟨2, fun fuel hfuel => ?_⟩
  obtain ⟨fuel, rfl⟩ := Nat.exists_eq_add_of_le' hfuel
  rw [write, writeVirtual, hwrite]
  exact congrArg some (hf val)

/-! Without an override, the template and the virtual function call each other for ever. -/

/-- Without an override, a narrow read calls itself forever. -/
theorem read_eq_none (hread : TypedOverrides.read (μ := μ) T = none) (buf : List Byte)
    (fuel : ℕ) : read buf fuel (.narrow T) m addr = none := by
  induction fuel using Nat.twoStepInduction with
  | zero => rfl
  | one => rfl
  | more fuel ih _ => rw [read, readVirtual, hread, ih]

/-- Without an override, a narrow write calls itself forever. -/
theorem write_eq_none (hwrite : TypedOverrides.write (μ := μ) T = none) (val : BitVec T.bits)
    (fuel : ℕ) : write fuel (.narrow T) addr val m = none := by
  induction fuel using Nat.twoStepInduction with
  | zero => rfl
  | one => rfl
  | more fuel ih _ => rw [write, writeVirtual, hwrite, ih]

theorem not_readAgrees (hread : TypedOverrides.read (μ := μ) T = none) :
    ¬ ReadAgrees m addr (.narrow T) := by
  intro h
  obtain ⟨n, hn⟩ := h (List.replicate T.bytes 0#8) List.length_replicate
  have hnone := hn n le_rfl
  rw [read_eq_none hread] at hnone
  cases hnone

theorem not_writeAgrees (hwrite : TypedOverrides.write (μ := μ) T = none) :
    ¬ WriteAgrees m addr (.narrow T) := by
  intro h
  obtain ⟨n, hn⟩ := h 0
  have hnone := hn n le_rfl
  rw [write_eq_none hwrite] at hnone
  cases hnone

end Dispatch

end TypedAccess

/-! ### The two memories -/

open TypedAccess Stateful

namespace PlainMemory

variable {m_start : Addr} {size : ℕ}

/-- A write that returns the memory, as one on the memory. -/
def overwrite {μ : Type} (f : μ → Except Exn μ) : EStateM Exn μ Unit := fun m =>
  match f m with
  | .ok m' => .ok () m'
  | .error e => .error e m

theorem run_overwrite {μ : Type} (f : μ → Except Exn μ) (m : μ) :
    (overwrite f).run m =
      match f m with
      | .ok m' => .ok () m'
      | .error e => .error e m := rfl

instance : TypedOverrides (PlainMemory m_start size) where
  read8 := some Memory.read8
  read16 := some Memory.read16
  read32 := some Memory.read32
  write8 := some fun addr val => overwrite fun m => Memory.write8 m addr val
  write16 := some fun addr val => overwrite fun m => Memory.write16 m addr val
  write32 := some fun addr val => overwrite fun m => Memory.write32 m addr val

theorem overrides_read (T : MemTy) :
    TypedOverrides.read (μ := PlainMemory m_start size) T = some (readAs T) := by
  cases T <;> rfl

theorem overrides_write (T : MemTy) :
    TypedOverrides.write (μ := PlainMemory m_start size) T =
      some fun addr val => overwrite fun m => writeAs T m addr val := by
  cases T <;> rfl

/-- Loading bytes and loading a value agree. -/
theorem fromBytes_loadBytes (data : ℕ → Byte) (offset : ℕ) (T : MemTy) :
    fromBytes T.bits (loadBytes data offset T.bytes) = load data offset T := by
  have hbyte : ∀ k < T.bytes, byteOf (fromBytes T.bits (loadBytes data offset T.bytes)) k =
      byteOf (load data offset T) k := by
    intro k hk
    have hlength : (loadBytes data offset T.bytes).length = T.bytes := by simp [loadBytes]
    rw [byteOf_fromBytes (hlength.symm ▸ hk), byteOf_load _ _ hk]
    · simp [loadBytes]
    · rw [MemTy.bits_eq]
      omega
  cases T with
  | byte => exact eq_of_byteOf (w := 1) hbyte
  | half => exact eq_of_byteOf (w := 2) hbyte
  | word => exact eq_of_byteOf (w := 4) hbyte

/-- Storing bytes and storing a value agree. -/
theorem storeBytes_toBytes (data : ℕ → Byte) (offset : ℕ) {T : MemTy} (val : BitVec T.bits) :
    storeBytes data offset (toBytes T.bytes val) = store data offset val := by
  funext x
  rw [storeBytes, store, length_toBytes]
  split
  · next hin =>
    simp [toBytes, show x - offset < T.bytes by omega]
  · rfl

theorem run_readBlock (m : PlainMemory m_start size) (addr : Addr) (dest : List Byte) :
    (BlockMemory.readBlock m addr).run dest =
      match translate m_start size dest.length addr with
      | .ok offset => .ok () (loadBytes m.m_data offset dest.length)
      | .error e => .error e dest := by
  change (readBlock m addr).run dest = _
  cases h : translate m_start size dest.length addr <;> simp [readBlock, h]

theorem run_writeBlock (m : PlainMemory m_start size) (addr : Addr) (src : List Byte) :
    (BlockMemory.writeBlock src addr).run m =
      match translate m_start size src.length addr with
      | .ok offset => .ok () { m_data := storeBytes m.m_data offset src }
      | .error e => .error e m := by
  change (writeBlock src addr).run m = _
  cases h : translate m_start size src.length addr <;> simp [writeBlock, h]

/-- A narrow read reads the bytes of the block. -/
theorem readAs_eq (T : MemTy) (m : PlainMemory m_start size) (addr : Addr) {buf : List Byte}
    (hbuf : buf.length = T.bytes) : readAs T m addr = readBuffer (.narrow T) m addr buf := by
  rw [readAs, readBuffer, run_readBlock, hbuf]
  cases translate m_start size T.bytes addr with
  | error e => rfl
  | ok offset => exact congrArg Except.ok (fromBytes_loadBytes m.m_data offset T).symm

/-- A narrow write writes the bytes of the value. -/
theorem overwrite_writeAs (T : MemTy) (m : PlainMemory m_start size) (addr : Addr)
    (val : BitVec T.bits) :
    (overwrite fun m : PlainMemory m_start size => writeAs T m addr val).run m =
      (writeBuffer (.narrow T) addr val).run m := by
  rw [writeBuffer, run_writeBlock, UnsignedTy.bytes, length_toBytes, run_overwrite, writeAs]
  cases translate m_start size T.bytes addr with
  | error e => rfl
  | ok offset =>
    have hdata := storeBytes_toBytes m.m_data offset val
    exact congrArg (fun data =>
      (.ok () ⟨data⟩ : EStateM.Result Exn (PlainMemory m_start size) Unit)) hdata.symm

/-- All reads of a plain memory agree. -/
theorem readAgrees (m : PlainMemory m_start size) (addr : Addr) (T : MemTy) :
    ReadAgrees m addr (.narrow T) :=
  readAgrees_of_override (overrides_read T) fun _ hbuf => readAs_eq T m addr hbuf

/-- All writes of a plain memory agree. -/
theorem writeAgrees (m : PlainMemory m_start size) (addr : Addr) (T : MemTy) :
    WriteAgrees m addr (.narrow T) :=
  writeAgrees_of_override (overrides_write T) fun val => overwrite_writeAs T m addr val

end PlainMemory

namespace PagedMem

variable {c : PagedMemConfig}

/-- Nothing is overridden. -/
instance : TypedOverrides (PagedMem c) where

/-- A paged memory overrides no read. -/
theorem overrides_read (T : MemTy) : TypedOverrides.read (μ := PagedMem c) T = none := by
  cases T <;> rfl

/-- A paged memory overrides no write. -/
theorem overrides_write (T : MemTy) : TypedOverrides.write (μ := PagedMem c) T = none := by
  cases T <;> rfl

end PagedMem

/-- The classes derived from `Memory`. -/
inductive Implementation where
  | plain (m_start : Addr) (size : ℕ)
  | paged (c : PagedMemConfig)

namespace Implementation

/-- The type of the states of a memory. -/
def State : Implementation → Type
  | .plain m_start size => PlainMemory m_start size
  | .paged c => PagedMem c

instance (M : Implementation) : BlockMemory M.State :=
  match M with
  | .plain m_start size => inferInstanceAs (BlockMemory (PlainMemory m_start size))
  | .paged c => inferInstanceAs (BlockMemory (PagedMem c))

instance (M : Implementation) : TypedOverrides M.State :=
  match M with
  | .plain m_start size => inferInstanceAs (TypedOverrides (PlainMemory m_start size))
  | .paged c => inferInstanceAs (TypedOverrides (PagedMem c))

/-- The class overrides the virtual functions, or the type does not go through one. -/
def BreaksCycle (M : Implementation) (T : UnsignedTy) : Prop :=
  (∃ m_start size, M = .plain m_start size) ∨ T = .uint64

/-- For any state of either memory and any address. -/
theorem agrees_iff (M : Implementation) (m : M.State) (addr : Addr) (T : UnsignedTy) :
    (ReadAgrees m addr T ↔ M.BreaksCycle T) ∧ (WriteAgrees m addr T ↔ M.BreaksCycle T) := by
  cases T with
  | uint64 =>
    have hcycle : M.BreaksCycle .uint64 := .inr rfl
    exact ⟨iff_of_true (readAgrees_uint64 m addr) hcycle,
      iff_of_true (writeAgrees_uint64 m addr) hcycle⟩
  | narrow T =>
    cases M with
    | plain m_start size =>
      have hcycle : (plain m_start size).BreaksCycle (.narrow T) := .inl ⟨m_start, size, rfl⟩
      exact ⟨iff_of_true (PlainMemory.readAgrees m addr T) hcycle,
        iff_of_true (PlainMemory.writeAgrees m addr T) hcycle⟩
    | paged c =>
      have hcycle : ¬ (paged c).BreaksCycle (.narrow T) := by
        rintro (⟨_, _, h⟩ | h) <;> cases h
      exact ⟨iff_of_false (not_readAgrees (PagedMem.overrides_read (c := c) T)) hcycle,
        iff_of_false (not_writeAgrees (PagedMem.overrides_write (c := c) T)) hcycle⟩

/-- A byte that was just written cannot be read. -/
theorem not_readAgrees_afterWrite :
    let m := finalState ((BlockMemory.writeBlock [1#8] 0#32).run
      ({} : PagedMem ⟨20, by decide⟩))
    ¬ ReadAgrees m 0#32 (.narrow .byte) :=
  not_readAgrees (PagedMem.overrides_read .byte)

end Implementation

end Prot
