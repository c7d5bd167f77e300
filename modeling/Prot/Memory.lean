import Prot.Isa

/-!
# Memory

The simulator reaches guest memory only through the virtual functions of
`Memory`, and the templates `read<T>` and `write<T>` dispatch on the width. The
class records those functions; an access either returns or raises.

`LawfulMemory` is what every engine relies on, stated byte by byte. A store
may make more addresses readable, as a lazily allocated page does, but then
what becomes readable is zero.
-/

namespace Prot

/-- The unsigned types an instruction transfers. -/
inductive MemTy where
  | byte | half | word
  deriving DecidableEq, Repr

/-- `sizeof(T)`. -/
def MemTy.bytes : MemTy → ℕ
  | .byte => 1
  | .half => 2
  | .word => 4

/-- `sizeofBits<T>()`. -/
abbrev MemTy.bits : MemTy → ℕ
  | .byte => 8
  | .half => 16
  | .word => 32

theorem MemTy.bits_le (T : MemTy) : T.bits ≤ 32 := by
  cases T <;> decide

theorem MemTy.bits_eq (T : MemTy) : T.bits = 8 * T.bytes := by
  cases T <;> rfl

/-- The typed virtual functions of a memory of type `μ`. -/
class Memory (μ : Type) where
  read8 : μ → Addr → Except Exn Byte
  read16 : μ → Addr → Except Exn Half
  read32 : μ → Addr → Except Exn Word
  write8 : μ → Addr → Byte → Except Exn μ
  write16 : μ → Addr → Half → Except Exn μ
  write32 : μ → Addr → Word → Except Exn μ

namespace Memory

variable {μ : Type} [Memory μ]

/-- `read<T>`. -/
def read : (T : MemTy) → μ → Addr → Except Exn (BitVec T.bits)
  | .byte, m, addr => read8 m addr
  | .half, m, addr => read16 m addr
  | .word, m, addr => read32 m addr

/-- `write<T>`. -/
def write : (T : MemTy) → μ → Addr → BitVec T.bits → Except Exn μ
  | .byte, m, addr, val => write8 m addr val
  | .half, m, addr, val => write16 m addr val
  | .word, m, addr, val => write32 m addr val

theorem read_word (m : μ) : read .word m = read32 m := rfl

end Memory

/-- The `k`-th byte of a word, counted from the least significant one. -/
def byteOf {w : ℕ} (v : BitVec w) (k : ℕ) : Byte := v.extractLsb' (8 * k) 8

/-- Is `x` one of the `n` bytes from `addr` on? -/
def InRange (addr : Addr) (n : ℕ) (x : Addr) : Prop := (x - addr).toNat < n

instance (addr : Addr) (n : ℕ) (x : Addr) : Decidable (InRange addr n x) :=
  inferInstanceAs (Decidable (_ < _))

/-- The `n` bytes from `a` on and the `k` bytes from `b` on do not overlap. -/
def NoOverlap (a : Addr) (n : ℕ) (b : Addr) (k : ℕ) : Prop :=
  ∀ x, InRange a n x → ¬ InRange b k x

/-- A memory of bytes. Successful accesses move little-endian values in and out
of the bytes, and touch nothing else. -/
class LawfulMemory (μ : Type) [Memory μ] where
  byteAt : μ → Addr → Byte
  read_byte {T : MemTy} {m : μ} {addr : Addr} {v : BitVec T.bits}
    (h : Memory.read T m addr = .ok v) {k : ℕ} (hk : k < T.bytes) :
    byteOf v k = byteAt m (addr + BitVec.ofNat 32 k)
  byteAt_write {T : MemTy} {m m' : μ} {addr : Addr} {v : BitVec T.bits}
    (h : Memory.write T m addr v = .ok m') (x : Addr) :
    byteAt m' x = if InRange addr T.bytes x then byteOf v (x - addr).toNat else byteAt m x
  /-- Stores revoke no access. -/
  read_write {T : MemTy} {m m' : μ} {addr : Addr} {v : BitVec T.bits}
    (h : Memory.write T m addr v = .ok m') {a : Addr} {x : Word}
    (hread : Memory.read32 m a = .ok x) : ∃ x', Memory.read32 m' a = .ok x'
  /-- An aligned word that a store elsewhere made readable is zero. -/
  read_of_write {T : MemTy} {m m' : μ} {addr : Addr} {v : BitVec T.bits}
    (h : Memory.write T m addr v = .ok m') {a : Addr} {x : Word}
    (haligned : a.toNat % 4 = 0) (hdisjoint : NoOverlap addr T.bytes a 4)
    (hread : Memory.read32 m' a = .ok x) : Memory.read32 m a = .ok x ∨ x = 0#32

section Bytes

variable {w : ℕ}

/-- A word is determined by its bytes. -/
theorem eq_of_byteOf {v v' : BitVec (8 * w)} (h : ∀ k < w, byteOf v k = byteOf v' k) : v = v' := by
  ext i hi
  have hbyte := congrArg (fun b => b.getLsbD (i % 8)) (h (i / 8) (by omega))
  have hlow : i % 8 < 8 := Nat.mod_lt _ (by decide)
  simpa [byteOf, hlow, Nat.div_add_mod, hi] using hbyte

end Bytes

namespace LawfulMemory

variable {μ : Type} [Memory μ] [LawfulMemory μ]

/-- A word keeps its value across a store elsewhere. -/
theorem read32_write_of_disjoint {T : MemTy} {m m' : μ} {addr a : Addr} {v : BitVec T.bits}
    {x : Word} (h : Memory.write T m addr v = .ok m') (hdisjoint : NoOverlap addr T.bytes a 4)
    (hread : Memory.read32 m a = .ok x) : Memory.read32 m' a = .ok x := by
  obtain ⟨x', hread'⟩ := read_write h hread
  rw [hread']
  refine congrArg Except.ok (eq_of_byteOf (w := 4) fun k hk => ?_)
  have hx : byteOf x k = byteAt m (a + BitVec.ofNat 32 k) := read_byte (T := .word) hread hk
  have hx' : byteOf x' k = byteAt m' (a + BitVec.ofNat 32 k) := read_byte (T := .word) hread' hk
  have hin : InRange a 4 (a + BitVec.ofNat 32 k) := by
    have hsub : a + BitVec.ofNat 32 k - a = BitVec.ofNat 32 k := by
      rw [BitVec.add_comm, BitVec.add_sub_cancel]
    simp only [InRange, hsub, BitVec.toNat_ofNat]
    omega
  rw [hx, hx', byteAt_write h, if_neg fun hstore => hdisjoint _ hstore hin]

end LawfulMemory

end Prot
