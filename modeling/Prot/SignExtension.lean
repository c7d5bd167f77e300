import Prot.Isa

/-!
# Sign extension and its masks

`signExtend` flips the sign bit and subtracts its weight, on a field that `slice` has cut
out, and cuts the result out once more. The masks come from functions that are evaluated by
the compiler, where a call that throws, or that shifts by the width of its operand, is an
error.

## Main results

* `getMaskConst_eq_some`: the masks that the compiler can make
* `signExtend_spec`: sign extension at any width, and how it composes
-/

namespace Prot

namespace Isa

open Bits

variable {T : ℕ}

/-! ### Masks as constants -/

/-- A shift in a constant expression: if it is not defined, the expression is not constant. -/
def constShiftLeft (x : BitVec T) (n : ℕ) : Option (BitVec T) :=
  if n < T then some (x <<< n) else none

/-- A call of `ones`, which does not compile if it throws. -/
def onesConst (T Num : ℕ) : Option (BitVec T) :=
  if T < Num then none
  else if Num = T then some (~~~0#T)
  else (constShiftLeft 1#T Num).map (· - 1#T)

/-- A call of `getMask`. -/
def getMaskConst (T Msb Lsb : ℕ) : Option (BitVec T) :=
  if Msb < Lsb then none
  else (onesConst T (Msb - Lsb + 1)).bind fun mask => constShiftLeft mask Lsb

/-! The shifts that the functions make; the full mask is made without one. -/

/-- The shifts of `ones`, each with the width of its type. -/
def onesShifts (T Num : ℕ) : List Shift := if Num = T then [] else [⟨T, Num⟩]

/-- The shifts of `getMask`. -/
def getMaskShifts (T Msb Lsb : ℕ) : List Shift := onesShifts T (Msb - Lsb + 1) ++ [⟨T, Lsb⟩]

/-- The shifts of `slice`. -/
def sliceShifts (T Msb Lsb : ℕ) : List Shift := getMaskShifts T Msb Lsb ++ [⟨T, Lsb⟩]

section Masks

variable {Num Msb Lsb : ℕ} {mask : BitVec T}

/-- The mask is a constant if it fits into the type. Short of the full one, its shift is defined. -/
theorem onesConst_eq_some : onesConst T Num = some mask ↔ Num ≤ T ∧ mask = ones T Num := by
  by_cases hthrow : T < Num
  · rw [onesConst, if_pos hthrow]
    exact iff_of_false nofun fun h => absurd h.1 (Nat.not_le.mpr hthrow)
  · have hle : Num ≤ T := Nat.le_of_not_lt hthrow
    rw [onesConst, if_neg hthrow, ones, and_iff_right hle, eq_comm]
    split_ifs with hfull
    · rw [Option.some.injEq]
    · rw [constShiftLeft, if_pos (by omega), Option.map_some, Option.some.injEq]

/-- The mask of a field is a constant if the field fits into the type. -/
theorem getMaskConst_eq_some : getMaskConst T Msb Lsb = some mask ↔
    Lsb ≤ Msb ∧ Msb - Lsb + 1 ≤ T ∧ Lsb < T ∧ mask = getMask T Msb Lsb := by
  by_cases hthrow : Msb < Lsb
  · rw [getMaskConst, if_pos hthrow]
    exact iff_of_false nofun fun h => absurd h.1 (Nat.not_le.mpr hthrow)
  · rw [getMaskConst, if_neg hthrow, Option.bind_eq_some_iff]
    constructor
    · rintro ⟨run, hrun, hshift⟩
      obtain ⟨hle, rfl⟩ := onesConst_eq_some.mp hrun
      rw [constShiftLeft] at hshift
      split_ifs at hshift with hlt
      cases hshift
      exact ⟨Nat.le_of_not_lt hthrow, hle, hlt, rfl⟩
    · rintro ⟨-, hle, hlt, rfl⟩
      exact ⟨_, onesConst_eq_some.mpr ⟨hle, rfl⟩, if_pos hlt⟩

theorem onesShifts_defined (h : Num ≤ T) : ∀ s ∈ onesShifts T Num, s.Defined := by
  rw [onesShifts]
  split_ifs with hfull
  · simp
  · rw [List.forall_mem_singleton]
    exact Nat.lt_of_le_of_ne h hfull

/-- Slicing a field of the type shifts by less than its width. -/
theorem sliceShifts_defined (hle : Msb - Lsb + 1 ≤ T) (hlt : Lsb < T) :
    ∀ s ∈ sliceShifts T Msb Lsb, s.Defined := by
  simp only [sliceShifts, getMaskShifts, List.forall_mem_append, List.forall_mem_singleton]
  exact ⟨⟨onesShifts_defined hle, hlt⟩, hlt⟩

end Masks

/-! ### Sign extension -/

section Extension

variable {OldSize NewSize : ℕ}

/-- Nothing is done between equal widths. -/
theorem signExtend_self (n : ℕ) (v : BitVec T) : signExtend n n v = v := if_pos rfl

theorem setWidth_signExtend_eq (hpos : 0 < OldSize) (hlt : OldSize < NewSize) (hle : NewSize ≤ T)
    (v : BitVec T) : (signExtend NewSize OldSize v).setWidth NewSize =
      BitVec.ofInt NewSize (v.setWidth OldSize).toInt := by
  rw [signExtend_eq hpos hlt hle, BitVec.setWidth_setWidth_of_le _ hle, BitVec.setWidth_eq]
  rfl

/-- Above the new width there are zeros. -/
theorem getLsbD_signExtend_of_ge (hpos : 0 < OldSize) (hlt : OldSize < NewSize) (hle : NewSize ≤ T)
    (v : BitVec T) {i : ℕ} (hi : NewSize ≤ i) :
    (signExtend NewSize OldSize v).getLsbD i = false := by
  rw [signExtend_eq hpos hlt hle, BitVec.getLsbD_setWidth, BitVec.getLsbD_of_ge _ _ hi,
    Bool.and_false]

/-- Only the old bits are looked at. -/
theorem signExtend_congr (hpos : 0 < OldSize) (hlt : OldSize < NewSize) (hle : NewSize ≤ T)
    {v v' : BitVec T} (hsame : ∀ i < OldSize, v'.getLsbD i = v.getLsbD i) :
    signExtend NewSize OldSize v' = signExtend NewSize OldSize v := by
  have hold : v'.setWidth OldSize = v.setWidth OldSize := by
    refine BitVec.eq_of_getLsbD_eq fun i hi => ?_
    rw [BitVec.getLsbD_setWidth, BitVec.getLsbD_setWidth, hsame i hi]
  rw [signExtend_eq hpos hlt hle, signExtend_eq hpos hlt hle, hold]

/-- Extending in two steps. -/
theorem signExtend_signExtend {MidSize : ℕ} (hpos : 0 < OldSize) (hmid : OldSize ≤ MidSize)
    (hnew : MidSize ≤ NewSize) (hle : NewSize ≤ T) (v : BitVec T) :
    signExtend NewSize MidSize (signExtend MidSize OldSize v) = signExtend NewSize OldSize v := by
  rcases hmid.eq_or_lt with rfl | hmid
  · rw [signExtend_self]
  rcases hnew.eq_or_lt with rfl | hnew
  · rw [signExtend_self]
  rw [signExtend_eq hpos hmid (by omega), signExtend_eq (by omega) hnew hle,
    signExtend_eq hpos (by omega) hle, BitVec.setWidth_setWidth_of_le _ (by omega),
    BitVec.setWidth_eq, Bits.signExtend_signExtend _ hmid.le hnew.le]

end Extension

/-- Two's-complement sign extension at every width, and the masks that it is made of. -/
theorem signExtend_spec {OldSize NewSize : ℕ} (hpos : 1 ≤ OldSize) (hle : NewSize ≤ T)
    (v : BitVec T) :
    (OldSize < NewSize →
      (signExtend NewSize OldSize v).setWidth NewSize =
        BitVec.ofInt NewSize (v.setWidth OldSize).toInt ∧
      (∀ i, NewSize ≤ i → (signExtend NewSize OldSize v).getLsbD i = false) ∧
      ∀ v' : BitVec T, (∀ i < OldSize, v'.getLsbD i = v.getLsbD i) →
        signExtend NewSize OldSize v' = signExtend NewSize OldSize v) ∧
    (∀ MidSize, OldSize ≤ MidSize → MidSize ≤ NewSize →
      signExtend NewSize MidSize (signExtend MidSize OldSize v) = signExtend NewSize OldSize v) ∧
    (∀ Num mask, onesConst T Num = some mask →
      mask = ones T Num ∧ ∀ s ∈ onesShifts T Num, s.Defined) ∧
    (∀ Msb Lsb mask, getMaskConst T Msb Lsb = some mask →
      mask = getMask T Msb Lsb ∧ ∀ s ∈ sliceShifts T Msb Lsb, s.Defined) ∧
    ∀ Msb Lsb, Lsb ≤ Msb → Msb < T → getMaskConst T Msb Lsb = some (getMask T Msb Lsb) := by
  refine ⟨fun hlt => ⟨setWidth_signExtend_eq hpos hlt hle v,
    fun i hi => getLsbD_signExtend_of_ge hpos hlt hle v hi,
    fun v' hsame => signExtend_congr hpos hlt hle hsame⟩,
    fun MidSize hmid hnew => signExtend_signExtend hpos hmid hnew hle v, ?_, ?_, ?_⟩
  · intro Num mask hones
    obtain ⟨hnum, rfl⟩ := onesConst_eq_some.mp hones
    exact ⟨rfl, onesShifts_defined hnum⟩
  · intro Msb Lsb mask hmask
    obtain ⟨-, hnum, hlsb, rfl⟩ := getMaskConst_eq_some.mp hmask
    exact ⟨rfl, sliceShifts_defined hnum hlsb⟩
  · intro Msb Lsb horder hmsb
    exact getMaskConst_eq_some.mpr ⟨horder, by omega, by omega, rfl⟩

/-- A byte of a word, by way of a half. -/
theorem signExtend_spec_byte :
    (signExtend 32 8 0x12345680#32).setWidth 32 = BitVec.ofInt 32 (-128) ∧
      signExtend 32 16 (signExtend 16 8 0x12345680#32) = signExtend 32 8 0x12345680#32 := by
  have hspec := @signExtend_spec 32 8 32 (by decide) (by decide) 0x12345680#32
  exact ⟨(hspec.1 (by decide)).1, hspec.2.1 16 (by decide) (by decide)⟩

end Isa

end Prot
