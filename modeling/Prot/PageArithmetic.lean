import Prot.PagedMemory

/-!
# Page arithmetic

Page numbers and offsets are taken out of an address by masks and shifts of 32 bits. The
amounts of the shifts are the bits of the page number and the bits of the offset. The
constructor of the configuration keeps the first below 32, but the second is 32 where the
first is zero, and a shift by 32 has no meaning.

## Main results

* `PagedMemConfig.isBijective_iff`: where pages and offsets are the two parts of an address
-/

namespace Prot

open Bits

namespace PagedMemConfig

variable {c : PagedMemConfig}

/-- The shifts that the functions of the configuration make. -/
def shifts (c : PagedMemConfig) : List Shift :=
  -- `pageMask`
  [⟨32, c.m_pageBits⟩, ⟨32, c.m_offsetBits⟩] ++
  -- `pageSize`
  [⟨32, c.m_offsetBits⟩] ++
  -- `numPages`
  [⟨32, c.m_pageBits⟩] ++
  -- `getPage`
  [⟨32, c.m_offsetBits⟩]

/-- Every address has a page and an offset, and is found again from them. -/
structure IsBijective (c : PagedMemConfig) : Prop where
  shifts : ∀ s ∈ c.shifts, s.Defined
  space : c.numPages * c.pageSize.toNat = 2 ^ 32
  getPage_lt : ∀ addr, c.getPage addr < c.numPages
  getOffset_lt : ∀ addr, c.getOffset addr < c.pageSize.toNat
  getAddr_parts : ∀ addr, c.getAddr (c.getPage addr) (c.getOffset addr) = .ok addr
  parts_getAddr : ∀ page offset, page < c.numPages → offset < c.pageSize.toNat →
    ∃ addr, c.getAddr page offset = .ok addr ∧ c.getPage addr = page ∧ c.getOffset addr = offset

theorem shifts_defined_iff : (∀ s ∈ c.shifts, s.Defined) ↔ c.m_pageBits ≠ 0 := by
  have hvalid := c.valid
  simp only [shifts, List.cons_append, List.nil_append, List.forall_mem_cons, List.not_mem_nil,
    false_implies, implies_true, and_true, Shift.Defined, m_offsetBits]
  omega

section HasPages

variable (hpages : 1 ≤ c.m_pageBits)

include hpages

/-- An address is put together again from its page and offset. -/
theorem getAddr_getPage_getOffset (addr : Addr) :
    c.getAddr (c.getPage addr) (c.getOffset addr) = .ok addr := by
  have hdiv : c.getPage addr < c.numPages := by
    rw [getPage_eq hpages]
    exact div_lt_numPages addr.isLt
  have hmod : c.getOffset addr < c.bytes := by
    rw [getOffset_eq hpages]
    exact Nat.mod_lt _ c.bytes_pos
  rw [getAddr_eq hpages hdiv hmod, getPage_eq hpages, getOffset_eq hpages, Nat.div_add_mod',
    BitVec.ofNat_toNat, BitVec.setWidth_eq]

theorem exists_getAddr {page offset : ℕ} (hpage : page < c.numPages) (hoffset : offset < c.bytes) :
    ∃ addr, c.getAddr page offset = .ok addr ∧ c.getPage addr = page ∧
      c.getOffset addr = offset := by
  have hlt : page * c.bytes + offset < 2 ^ 32 := by
    have hmul := Nat.mul_le_mul_right c.bytes (Nat.succ_le_of_lt hpage)
    rw [numPages_mul_bytes, Nat.succ_mul] at hmul
    omega
  have htoNat : (BitVec.ofNat 32 (page * c.bytes + offset)).toNat = page * c.bytes + offset := by
    rw [BitVec.toNat_ofNat, Nat.mod_eq_of_lt hlt]
  refine ⟨_, getAddr_eq hpages hpage hoffset, ?_, ?_⟩
  · rw [getPage_eq hpages, htoNat, Nat.add_comm, Nat.add_mul_div_right _ _ c.bytes_pos,
      Nat.div_eq_of_lt hoffset, Nat.zero_add]
  · rw [getOffset_eq hpages, htoNat, Nat.add_comm, Nat.add_mul_mod_self_right,
      Nat.mod_eq_of_lt hoffset]

/-- With page bits, nothing is lost. -/
theorem isBijective_of_hasPages : c.IsBijective where
  shifts := shifts_defined_iff.mpr (Nat.one_le_iff_ne_zero.mp hpages)
  space := by rw [toNat_pageSize hpages, numPages_mul_bytes]
  getPage_lt addr := by
    rw [getPage_eq hpages]
    exact div_lt_numPages addr.isLt
  getOffset_lt addr := by
    rw [getOffset_eq hpages, toNat_pageSize hpages]
    exact Nat.mod_lt _ c.bytes_pos
  getAddr_parts := getAddr_getPage_getOffset hpages
  parts_getAddr page offset hpage hoffset :=
    exists_getAddr hpages hpage (by rwa [toNat_pageSize hpages] at hoffset)

end HasPages

/-- The two directions are inverse to each other, unless there are no page bits. -/
theorem isBijective_iff : c.IsBijective ↔ c.m_pageBits ≠ 0 :=
  ⟨fun h => shifts_defined_iff.mp h.shifts,
    fun hpages => isBijective_of_hasPages (Nat.one_le_iff_ne_zero.mpr hpages)⟩

/-- `pageSize` shifts by the width. -/
theorem not_isBijective_zero : ¬ IsBijective ⟨0, by decide⟩ := fun h =>
  shifts_defined_iff.mp h.shifts rfl

end PagedMemConfig

end Prot
