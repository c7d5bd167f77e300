import Prot.BlockMemory
import Prot.Lib.Stateful
import Mathlib.Tactic.IntervalCases

/-!
# Plain memory

`PlainMemory` keeps the guest's memory in one host mapping of `size` bytes that
starts at the guest address `m_start`; both are fixed when it is built. The only
check is an assertion, which lets the end of the mapping through. An access past
the mapping has no defined meaning.
-/

namespace Prot

/-- The bytes of the mapping, zero at first. -/
structure PlainMemory (m_start : Addr) (size : ℕ) where
  m_data : ℕ → Byte := fun _ => 0#8

namespace PlainMemory

variable {m_start : Addr} {size : ℕ}

/-- `addrToOffset`, which checks the first byte of an access. It lets the end of the mapping
pass. -/
def addrToOffset (m_start : Addr) (size : ℕ) (addr : Addr) : Except Exn ℕ :=
  if m_start.toNat ≤ addr.toNat ∧ addr.toNat ≤ m_start.toNat + size then
    pure (addr.toNat - m_start.toNat)
  else throw .assertionFailed

/-- `*translateAddr(addr)` for an access of `n` bytes. Past the end of the mapping there is no
byte to access. -/
def translate (m_start : Addr) (size : ℕ) (n : ℕ) (addr : Addr) : Except Exn ℕ := do
  let offset ← addrToOffset m_start size addr
  if offset + n ≤ size then pure offset else throw .undefinedBehaviour

/-- The little-endian value at an offset. -/
def load (data : ℕ → Byte) (offset : ℕ) : (T : MemTy) → BitVec T.bits
  | .byte => data offset
  | .half => data (offset + 1) ++ data offset
  | .word => data (offset + 3) ++ data (offset + 2) ++ data (offset + 1) ++ data offset

/-- Puts the little-endian bytes of a value at an offset. -/
def store (data : ℕ → Byte) (offset : ℕ) {T : MemTy} (val : BitVec T.bits) : ℕ → Byte := fun x =>
  if offset ≤ x ∧ x < offset + T.bytes then byteOf val (x - offset) else data x

/-- `read8`, `read16` and `read32`. -/
def readAs (T : MemTy) (m : PlainMemory m_start size) (addr : Addr) :
    Except Exn (BitVec T.bits) := do
  let offset ← translate m_start size T.bytes addr
  pure (load m.m_data offset T)

/-- `write8`, `write16` and `write32`. -/
def writeAs (T : MemTy) (m : PlainMemory m_start size) (addr : Addr) (val : BitVec T.bits) :
    Except Exn (PlainMemory m_start size) := do
  let offset ← translate m_start size T.bytes addr
  pure { m_data := store m.m_data offset val }

instance : Memory (PlainMemory m_start size) where
  read8 := readAs .byte
  read16 := readAs .half
  read32 := readAs .word
  write8 := writeAs .byte
  write16 := writeAs .half
  write32 := writeAs .word

/-- The `n` bytes from an offset on. -/
def loadBytes (data : ℕ → Byte) (offset n : ℕ) : List Byte :=
  (List.range n).map fun i => data (offset + i)

/-- The mapping after `memcpy` to the offset. -/
def storeBytes (data : ℕ → Byte) (offset : ℕ) (src : List Byte) : ℕ → Byte := fun x =>
  if offset ≤ x ∧ x < offset + src.length then src.getD (x - offset) 0#8 else data x

/-- `PlainMemory::writeBlock`, whose check of the range is commented out. -/
def writeBlock (src : List Byte) (addr : Addr) : EStateM Exn (PlainMemory m_start size) Unit := do
  let offset ← Stateful.ofExcept (translate m_start size src.length addr)
  modify fun m => { m_data := storeBytes m.m_data offset src }

/-- `PlainMemory::readBlock`; the state is the destination. -/
def readBlock (m : PlainMemory m_start size) (addr : Addr) : EStateM Exn (List Byte) Unit := do
  let dest ← get
  let offset ← Stateful.ofExcept (translate m_start size dest.length addr)
  set (loadBytes m.m_data offset dest.length)

instance : BlockMemory (PlainMemory m_start size) where
  writeBlock := writeBlock
  readBlock := readBlock

/-- All typed reads are alike. -/
theorem read_eq (T : MemTy) (m : PlainMemory m_start size) (addr : Addr) :
    Memory.read T m addr = readAs T m addr := by
  cases T <;> rfl

/-- All typed writes are alike. -/
theorem write_eq (T : MemTy) (m : PlainMemory m_start size) (addr : Addr) (val : BitVec T.bits) :
    Memory.write T m addr val = writeAs T m addr val := by
  cases T <;> rfl

/-- Values are little-endian. -/
theorem byteOf_load (data : ℕ → Byte) (offset : ℕ) {T : MemTy} {k : ℕ} (hk : k < T.bytes) :
    byteOf (load data offset T) k = data (offset + k) := by
  cases T with
  | byte =>
    obtain rfl : k = 0 := by simpa [MemTy.bytes] using hk
    exact BitVec.extractLsb'_eq_self
  | half | word =>
    simp only [MemTy.bytes] at hk
    interval_cases k <;>
      simp (disch := omega) only [byteOf, load, BitVec.extractLsb'_append_eq_of_add_le,
        BitVec.extractLsb'_append_eq_of_le] <;>
      exact BitVec.extractLsb'_eq_self

/-- A load depends on its bytes only. -/
theorem load_congr {data data' : ℕ → Byte} {offset : ℕ} {T : MemTy}
    (h : ∀ k < T.bytes, data (offset + k) = data' (offset + k)) :
    load data offset T = load data' offset T := by
  cases T with
  | byte => exact h 0 (by decide)
  | half => simp only [load, h 1 (by decide), show data offset = data' offset from h 0 (by decide)]
  | word =>
    simp only [load, h 1 (by decide), h 2 (by decide), h 3 (by decide),
      show data offset = data' offset from h 0 (by decide)]

/-- An access goes through exactly when it lies inside the mapping. -/
theorem translate_eq_ok {n : ℕ} {addr : Addr} {offset : ℕ} :
    translate m_start size n addr = .ok offset ↔
      m_start.toNat + offset = addr.toNat ∧ offset + n ≤ size := by
  simp only [translate, addrToOffset]
  constructor
  · intro h
    split at h
    · simp only [pure_bind] at h
      split at h
      · cases h
        omega
      · cases h
    · cases h
  · rintro ⟨hoffset, hfits⟩
    rw [if_pos (by omega), pure_bind, if_pos (by omega)]
    exact congrArg Except.ok (by omega)

/-- A read succeeds inside the mapping, with the value stored there. -/
theorem read_eq_ok {T : MemTy} {m : PlainMemory m_start size} {addr : Addr} {v : BitVec T.bits} :
    Memory.read T m addr = .ok v ↔ ∃ offset, m_start.toNat + offset = addr.toNat ∧
      offset + T.bytes ≤ size ∧ load m.m_data offset T = v := by
  rw [read_eq, readAs]
  constructor
  · intro h
    cases ht : translate m_start size T.bytes addr with
    | error e => rw [ht] at h; cases h
    | ok offset =>
      rw [ht] at h
      obtain ⟨hoffset, hfits⟩ := translate_eq_ok.mp ht
      exact ⟨offset, hoffset, hfits, Except.ok.inj h⟩
  · rintro ⟨offset, hoffset, hfits, rfl⟩
    rw [translate_eq_ok.mpr ⟨hoffset, hfits⟩]
    rfl

/-- A write succeeds inside the mapping. -/
theorem write_eq_ok {T : MemTy} {m m' : PlainMemory m_start size} {addr : Addr}
    {v : BitVec T.bits} :
    Memory.write T m addr v = .ok m' ↔ ∃ offset, m_start.toNat + offset = addr.toNat ∧
      offset + T.bytes ≤ size ∧ m' = { m_data := store m.m_data offset v } := by
  rw [write_eq, writeAs]
  constructor
  · intro h
    cases ht : translate m_start size T.bytes addr with
    | error e => rw [ht] at h; cases h
    | ok offset =>
      rw [ht] at h
      obtain ⟨hoffset, hfits⟩ := translate_eq_ok.mp ht
      exact ⟨offset, hoffset, hfits, (Except.ok.inj h).symm⟩
  · rintro ⟨offset, hoffset, hfits, rfl⟩
    rw [translate_eq_ok.mpr ⟨hoffset, hfits⟩]
    rfl

/-- The byte that the guest sees at an address. -/
def byteAt (m : PlainMemory m_start size) (addr : Addr) : Byte :=
  if m_start.toNat ≤ addr.toNat then m.m_data (addr.toNat - m_start.toNat) else 0#8

/-- In a mapping that ends within the address space, no access wraps around. -/
theorem byteAt_add {m : PlainMemory m_start size} {addr : Addr} {offset n k : ℕ}
    (hspace : m_start.toNat + size ≤ 2 ^ 32) (hoffset : m_start.toNat + offset = addr.toNat)
    (hfits : offset + n ≤ size) (hk : k < n) :
    m.byteAt (addr + BitVec.ofNat 32 k) = m.m_data (offset + k) := by
  have haddr : (addr + BitVec.ofNat 32 k).toNat = addr.toNat + k := by
    rw [BitVec.toNat_add, BitVec.toNat_ofNat]
    omega
  rw [byteAt, haddr, if_pos (by omega)]
  congr 1
  omega

/-- A range of guest addresses within the mapping does not wrap around. -/
theorem inRange_iff {addr x : Addr} {offset n : ℕ} (hspace : m_start.toNat + size ≤ 2 ^ 32)
    (hoffset : m_start.toNat + offset = addr.toNat) (hfits : offset + n ≤ size) :
    InRange addr n x ↔ addr.toNat ≤ x.toNat ∧ x.toNat < addr.toNat + n := by
  have hx := x.isLt
  rw [InRange, BitVec.toNat_sub]
  omega

/-- A store changes the bytes of its range. -/
theorem byteAt_store {m : PlainMemory m_start size} {T : MemTy} {addr x : Addr} {offset : ℕ}
    {v : BitVec T.bits} (hspace : m_start.toNat + size ≤ 2 ^ 32)
    (hoffset : m_start.toNat + offset = addr.toNat) (hfits : offset + T.bytes ≤ size) :
    ({ m_data := store m.m_data offset v } : PlainMemory m_start size).byteAt x =
      if InRange addr T.bytes x then byteOf v (x - addr).toNat else m.byteAt x := by
  by_cases hin : InRange addr T.bytes x
  · have hrange := (inRange_iff hspace hoffset hfits).mp hin
    have hsub : (x - addr).toNat = x.toNat - m_start.toNat - offset := by
      have hx := x.isLt
      rw [BitVec.toNat_sub]
      omega
    rw [if_pos hin, byteAt, if_pos (by omega), hsub]
    exact if_pos (by omega)
  · have hrange := mt (inRange_iff hspace hoffset hfits).mpr hin
    rw [if_neg hin, byteAt, byteAt]
    by_cases hstart : m_start.toNat ≤ x.toNat
    · rw [if_pos hstart, if_pos hstart]
      exact if_neg (by omega)
    · rw [if_neg hstart, if_neg hstart]

instance [hspace : Fact (m_start.toNat + size ≤ 2 ^ 32)] :
    LawfulMemory (PlainMemory m_start size) where
  byteAt := byteAt
  read_byte h _ hk := by
    obtain ⟨offset, hoffset, hfits, rfl⟩ := read_eq_ok.mp h
    rw [byteOf_load _ _ hk, byteAt_add hspace.out hoffset hfits hk]
  byteAt_write h x := by
    obtain ⟨offset, hoffset, hfits, rfl⟩ := write_eq_ok.mp h
    exact byteAt_store hspace.out hoffset hfits
  read_write h a x hread := by
    obtain ⟨offset, hoffset, hfits, -⟩ := (read_eq_ok (T := .word)).mp hread
    exact ⟨_, (read_eq_ok (T := .word)).mpr ⟨offset, hoffset, hfits, rfl⟩⟩
  read_of_write h a x _ hdisjoint hread := by
    obtain ⟨offset, hoffset, hfits, rfl⟩ := write_eq_ok.mp h
    obtain ⟨offset', hoffset', hfits', rfl⟩ := (read_eq_ok (T := .word)).mp hread
    refine .inl ((read_eq_ok (T := .word)).mpr ⟨offset', hoffset', hfits', ?_⟩)
    refine load_congr fun k hk => (if_neg fun hstore => ?_).symm
    have hspace := hspace.out
    have hk4 : k < 4 := hk
    have hfits4 : offset' + 4 ≤ size := hfits'
    have hx : (a + BitVec.ofNat 32 k).toNat = a.toNat + k := by
      rw [BitVec.toNat_add, BitVec.toNat_ofNat]
      omega
    exact hdisjoint (a + BitVec.ofNat 32 k) ((inRange_iff hspace hoffset hfits).mpr (by omega))
      ((inRange_iff hspace hoffset' hfits4).mpr (by omega))

/-- One page at address zero lies in the address space. -/
instance : Fact ((0#32 : Addr).toNat + 4096 ≤ 2 ^ 32) := ⟨by decide⟩

end PlainMemory

end Prot
