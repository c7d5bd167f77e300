import Prot.FlatMemory
import Prot.TypedAccess

/-!
# Memories that hold a flat map

Both memories hold a map from addresses to bytes. They differ in the ranges that may
be written, and in what may be read: plain memory covers its mapping, all of which can
be read, and paged memory covers the address space, of which only the pages that were
written to can be read. What is built on block writes needs no more than that.

## Main definitions

* `FlatStore`: how a memory holds a flat map
* `PlainMemory.flatStore`, `PagedMem.flatStore`: the two memories

## Main results

* `FlatStore.fillBlock`: filling a range that is covered
-/

namespace Prot

/-- A memory holds a flat map. -/
structure FlatStore (μ : Type) [BlockMemory μ] where
  Holds : μ → FlatMemory → Prop
  /-- The ranges that may be written. -/
  Covers : Addr → ℕ → Prop
  /-- The addresses that may be read. -/
  Readable : FlatMemory → Addr → Prop
  le_of_covers {addr : Addr} {n : ℕ} (h : Covers addr n) : addr.toNat + n ≤ 2 ^ 32
  covers_take {addr : Addr} {n k : ℕ} (h : Covers addr n) (hk : k ≤ n) : Covers addr k
  covers_byte {addr : Addr} {n k : ℕ} (h : Covers addr n) (hk : k < n) :
    Covers (addr + BitVec.ofNat 32 k) 1
  writeBlock {m : μ} {f : FlatMemory} {src : List Byte} {addr : Addr} (h : Holds m f)
    (hcovers : Covers addr src.length) :
    ∃ m', (BlockMemory.writeBlock src addr).run m = .ok () m' ∧ Holds m' (f.write src addr)
  readBlock {m : μ} {f : FlatMemory} {x : Addr} (h : Holds m f) (hreadable : Readable f x)
    (b : Byte) : (BlockMemory.readBlock m x).run [b] = .ok () [(f x).getD 0#8]
  readBlock_of_not_readable {m : μ} {f : FlatMemory} {x : Addr} (h : Holds m f)
    (hnot : ¬ Readable f x) (b : Byte) : ∃ e d, (BlockMemory.readBlock m x).run [b] = .error e d
  readable_of_covers {addr x : Addr} {n : ℕ} {f : FlatMemory} (h : Covers addr n)
    (hx : InRange addr n x) (hwritten : f x ≠ none) : Readable f x
  /-- Writing revokes no permission to read. -/
  readable_mono {f f' : FlatMemory} {x : Addr} (hle : ∀ y, f y ≠ none → f' y ≠ none)
    (h : Readable f x) : Readable f' x
  /-- Nothing was written where writing elsewhere gave the permission. -/
  eq_none_of_readable {f f' : FlatMemory} {x : Addr} (hnot : ¬ Readable f x)
    (h : Readable f' x) : f x = none

namespace FlatStore

variable {μ : Type} [BlockMemory μ] (S : FlatStore μ) {m : μ} {f : FlatMemory} {addr : Addr}

/-- Filling a part of a range that is covered. -/
theorem fillBlock (value : Byte) (h : S.Holds m f) {n k count : ℕ} (hcovers : S.Covers addr n)
    (hpart : k + count ≤ n) :
    ∃ m', (BlockMemory.fillBlock (addr + BitVec.ofNat 32 k) value count).run m = .ok () m' ∧
      S.Holds m' (f.fill (addr + BitVec.ofNat 32 k) value count) := by
  have hspace := S.le_of_covers hcovers
  refine FlatMemory.run_fillBlock (by omega) (fun i hi m f h => ?_) h
  rw [BitVec.add_assoc, ← BitVec.ofNat_add]
  exact S.writeBlock h (S.covers_byte hcovers (by omega))

end FlatStore

/-! ### Plain memory -/

namespace PlainMemory

variable {m_start : Addr} {size : ℕ} {m : PlainMemory m_start size} {f : FlatMemory} {addr : Addr}

/-- The bytes of the mapping are those of the map. -/
def Represents (m : PlainMemory m_start size) (f : FlatMemory) : Prop :=
  ∀ x : Addr, m_start.toNat ≤ x.toNat → x.toNat < m_start.toNat + size →
    m.m_data (x.toNat - m_start.toNat) = (f x).getD 0#8

/-- The range lies in the mapping and in the address space. -/
structure Covers (m_start : Addr) (size : ℕ) (addr : Addr) (n : ℕ) : Prop where
  le : m_start.toNat ≤ addr.toNat
  fits : addr.toNat + n ≤ m_start.toNat + size
  space : addr.toNat + n ≤ 2 ^ 32

/-- A part of a range that is covered is covered. -/
theorem Covers.take {n k : ℕ} (h : Covers m_start size addr n) (hk : k ≤ n) :
    Covers m_start size addr k where
  le := h.le
  fits := by have := h.fits; omega
  space := by have := h.space; omega

/-- Every byte of a range that is covered is covered. -/
theorem Covers.byte {n k : ℕ} (h : Covers m_start size addr n) (hk : k < n) :
    Covers m_start size (addr + BitVec.ofNat 32 k) 1 := by
  obtain ⟨hle, hfits, hspace⟩ := h
  have haddr : (addr + BitVec.ofNat 32 k).toNat = addr.toNat + k := by
    rw [BitVec.toNat_add, BitVec.toNat_ofNat]
    omega
  constructor <;> omega

theorem Covers.translate_eq {n : ℕ} (h : Covers m_start size addr n) :
    translate m_start size n addr = .ok (addr.toNat - m_start.toNat) := by
  obtain ⟨hle, hfits, -⟩ := h
  exact translate_eq_ok.mpr ⟨Nat.add_sub_cancel' hle, by omega⟩

/-- A block that is covered is written. -/
theorem Represents.writeBlock (h : m.Represents f) {src : List Byte}
    (hcovers : Covers m_start size addr src.length) :
    ∃ m' : PlainMemory m_start size, (BlockMemory.writeBlock src addr).run m = .ok () m' ∧
      m'.Represents (f.write src addr) := by
  rw [run_writeBlock, hcovers.translate_eq]
  refine ⟨_, rfl, fun x hx hend => ?_⟩
  change storeBytes m.m_data (addr.toNat - m_start.toNat) src (x.toNat - m_start.toNat) = _
  have hin := FlatMemory.inRange_iff hcovers.space x
  have hle := hcovers.le
  by_cases hrange : InRange addr src.length x
  · have hsub : x.toNat - m_start.toNat - (addr.toNat - m_start.toNat) = (x - addr).toNat := by
      rw [BitVec.toNat_sub_of_le (BitVec.le_def.mpr (hin.mp hrange).1)]
      omega
    have hbounds := hin.mp hrange
    rw [FlatMemory.write, if_pos hrange, storeBytes, if_pos (by omega), hsub,
      List.getD_eq_getElem?_getD]
  · have hbounds := mt hin.mpr hrange
    rw [FlatMemory.write, if_neg hrange, storeBytes, if_neg (by omega)]
    exact h x hx hend

/-- A block that is covered is read. -/
theorem Represents.readBlock (h : m.Represents f) {dest : List Byte}
    (hcovers : Covers m_start size addr dest.length) :
    (BlockMemory.readBlock m addr).run dest = .ok () (f.bytes addr dest.length) := by
  rw [run_readBlock, hcovers.translate_eq]
  refine congrArg (EStateM.Result.ok ()) (List.map_congr_left fun k hk => ?_)
  have hbyte := hcovers.byte (List.mem_range.mp hk)
  have haddr : (addr + BitVec.ofNat 32 k).toNat = addr.toNat + k := by
    have hspace := hcovers.space
    have hlt := List.mem_range.mp hk
    rw [BitVec.toNat_add, BitVec.toNat_ofNat]
    omega
  rw [← h _ hbyte.le hbyte.fits, haddr]
  congr 1
  have hle := hcovers.le
  omega

/-- The addresses of the mapping, all of which can be read. -/
def Mapped (m_start : Addr) (size : ℕ) (x : Addr) : Prop :=
  m_start.toNat ≤ x.toNat ∧ x.toNat < m_start.toNat + size

theorem Covers.mapped {n : ℕ} {x : Addr} (h : Covers m_start size addr n)
    (hx : InRange addr n x) : Mapped m_start size x := by
  have hbounds := (FlatMemory.inRange_iff h.space x).mp hx
  have hle := h.le
  have hfits := h.fits
  exact ⟨by omega, by omega⟩

/-- A byte of the mapping is read. -/
theorem Represents.readBlock_singleton {x : Addr} (h : m.Represents f)
    (hmapped : Mapped m_start size x) (b : Byte) :
    (BlockMemory.readBlock m x).run [b] = .ok () [(f x).getD 0#8] := by
  have hcovers : Covers m_start size x [b].length := ⟨hmapped.1, hmapped.2, x.isLt⟩
  rw [h.readBlock hcovers]
  simp [FlatMemory.bytes]

/-- Outside of the mapping, a read raises or has no defined meaning. -/
theorem exists_run_readBlock_error {x : Addr} (hnot : ¬ Mapped m_start size x) (b : Byte) :
    ∃ e d, (BlockMemory.readBlock m x).run [b] = .error e d := by
  rw [run_readBlock]
  cases htranslate : translate m_start size [b].length x with
  | error e => exact ⟨e, [b], rfl⟩
  | ok offset =>
    obtain ⟨hoffset, hfits⟩ := translate_eq_ok.mp htranslate
    rw [List.length_singleton] at hfits
    exact absurd ⟨by omega, by omega⟩ hnot

/-- A plain memory covers what lies in its mapping. -/
def flatStore (m_start : Addr) (size : ℕ) : FlatStore (PlainMemory m_start size) where
  Holds := Represents
  Covers := Covers m_start size
  Readable _ := Mapped m_start size
  le_of_covers h := h.space
  covers_take h hk := h.take hk
  covers_byte h hk := h.byte hk
  writeBlock h hcovers := h.writeBlock hcovers
  readBlock h hmapped b := h.readBlock_singleton hmapped b
  readBlock_of_not_readable _ hnot b := exists_run_readBlock_error hnot b
  readable_of_covers h hx _ := h.mapped hx
  readable_mono _ h := h
  eq_none_of_readable hnot h := absurd h hnot

end PlainMemory

/-! ### Paged memory -/

namespace PagedMem

variable {c : PagedMemConfig}

/-- What was written can be read, with everything else on its page. -/
theorem touched_of_ne_none {f : FlatMemory} {x : Addr} (hwritten : f x ≠ none) :
    f.Touched c.bytes x 1 := by
  intro z hz
  have hzero : (z - x).toNat = 0 := Nat.lt_one_iff.mp hz
  have heq : z = x := by
    have hsub : z - x = 0#32 := BitVec.eq_of_toNat_eq hzero
    rw [← BitVec.sub_add_cancel z x, hsub, BitVec.zero_add]
  exact ⟨x, by rw [heq], hwritten⟩

/-- A paged memory covers the address space, and reads what lies on pages that were touched. -/
def flatStore (hpages : 1 ≤ c.m_pageBits) : FlatStore (PagedMem c) where
  Holds := Represents
  Covers addr n := addr.toNat + n ≤ 2 ^ 32
  Readable f x := f.Touched c.bytes x 1
  le_of_covers h := h
  covers_take h hk := by omega
  covers_byte {addr n k} h hk := by
    rw [BitVec.toNat_add, BitVec.toNat_ofNat]
    omega
  writeBlock h hcovers := h.writeBlock hpages hcovers
  readBlock {m f x} h hreadable b := by
    have hspace : x.toNat + [b].length ≤ 2 ^ 32 := x.isLt
    rw [h.readBlock hpages hspace hreadable]
    simp [FlatMemory.bytes]
  readBlock_of_not_readable {m f x} h hnot b := by
    have hspace : x.toNat + [b].length ≤ 2 ^ 32 := x.isLt
    exact h.readBlock_of_not_touched hpages hspace hnot
  readable_of_covers _ _ hwritten := touched_of_ne_none hwritten
  readable_mono hle h := fun z hz => by
    obtain ⟨y, hy, hwritten⟩ := h z hz
    exact ⟨y, hy, hle y hwritten⟩
  eq_none_of_readable hnot _ := by
    by_contra hwritten
    exact hnot (touched_of_ne_none hwritten)

end PagedMem

end Prot
