import Mathlib.Data.BitVec
import Mathlib.Tactic.Common

/-!
# Bit fields, masks and sign extension

Facts about fixed-width words used by decoders and code generators: a word
masked by a run of ones is the field it selects, the xor-and-subtract trick is
two's-complement sign extension, and comparing sign-extended words agrees with
comparing the words themselves, for the signed and for the unsigned order.
-/

namespace Bits

/-- A shift of an operand of `width` bits. -/
structure Shift where
  width : ℕ
  amount : ℕ

/-- A shift by the width or more has no meaning. -/
def Shift.Defined (s : Shift) : Prop := s.amount < s.width

instance (s : Shift) : Decidable s.Defined := inferInstanceAs (Decidable (_ < _))

variable {w : ℕ}

/-- A run of `n` low ones. -/
theorem ofNat_two_pow_sub_one_getLsbD (n i : ℕ) :
    (BitVec.ofNat w (2 ^ n - 1)).getLsbD i = (decide (i < w) && decide (i < n)) := by
  rw [BitVec.getLsbD_ofNat, Nat.testBit_two_pow_sub_one]

/-- Shifting one left and subtracting one builds the run of ones. -/
theorem one_shiftLeft_sub_one {n : ℕ} (hn : n < w) :
    (1#w <<< n) - 1#w = BitVec.ofNat w (2 ^ n - 1) := by
  have hpow : 2 ^ n < 2 ^ w := Nat.pow_lt_pow_right (by decide) hn
  have hpos : 0 < 2 ^ n := Nat.two_pow_pos n
  have hone : 1 % 2 ^ w = 1 := Nat.mod_eq_of_lt (by omega)
  apply BitVec.eq_of_toNat_eq
  rw [BitVec.toNat_sub_of_le]
  · simp only [BitVec.toNat_shiftLeft, BitVec.toNat_ofNat, hone, Nat.one_shiftLeft,
      Nat.mod_eq_of_lt hpow]
    rw [Nat.mod_eq_of_lt (by omega)]
  · simp only [BitVec.le_def, BitVec.toNat_shiftLeft, BitVec.toNat_ofNat, hone,
      Nat.one_shiftLeft, Nat.mod_eq_of_lt hpow]
    omega

/-- Clearing the lowest bit, by mask or by shifts. -/
theorem and_not_one (x : BitVec w) : x &&& ~~~1#w = (x >>> 1) <<< 1 := by
  refine BitVec.eq_of_getLsbD_eq fun i hi => ?_
  by_cases h : i = 0
  · subst h
    simp [BitVec.getLsbD_one]
  · simp [h, hi, show 1 + (i - 1) = i by omega, show ¬ i < 1 by omega]

/-- A field of a field. -/
theorem extractLsb'_extractLsb' (x : BitVec w) {start len start' len' : ℕ}
    (h : start + len ≤ len') :
    (x.extractLsb' start' len').extractLsb' start len = x.extractLsb' (start' + start) len := by
  ext i hi
  simp [show start + i < len' by omega, Nat.add_assoc]

/-! ### Sign extension -/

/-- Below a power of two, xor with that power adds it. -/
theorem xor_two_pow_of_lt {r k : ℕ} (hr : r < 2 ^ k) : r ^^^ 2 ^ k = r + 2 ^ k := by
  rw [Nat.add_comm]
  refine Nat.eq_of_testBit_eq fun i => ?_
  rw [Nat.testBit_xor, Nat.testBit_two_pow]
  rcases Nat.lt_trichotomy i k with hlt | rfl | hgt
  · rw [Nat.testBit_two_pow_add_gt hlt]
    simp [Nat.ne_of_gt hlt]
  · rw [Nat.testBit_two_pow_add_eq]
    simp
  · have hpow : 2 ^ (k + 1) ≤ 2 ^ i := Nat.pow_le_pow_right (by decide) hgt
    rw [Nat.testBit_lt_two_pow (by omega : r < 2 ^ i),
      Nat.testBit_lt_two_pow (by rw [Nat.pow_succ] at hpow; omega : 2 ^ k + r < 2 ^ i)]
    simp [Nat.ne_of_lt hgt]

/-- Flipping the sign bit and subtracting its weight extends the sign: the
standard branch-free form of two's-complement sign extension. -/
theorem xor_sub_eq_signExtend {n : ℕ} (x : BitVec n) (hn : 0 < n) (hw : n ≤ w) :
    (x.setWidth w ^^^ (1#w <<< (n - 1))) - (1#w <<< (n - 1)) = x.signExtend w := by
  obtain ⟨k, rfl⟩ : ∃ k, n = k + 1 := ⟨n - 1, by omega⟩
  have hpow : 2 ^ k < 2 ^ w := Nat.pow_lt_pow_right (by decide) (by omega)
  have hmono : 2 ^ (k + 1) ≤ 2 ^ w := Nat.pow_le_pow_right (by decide) hw
  have hpos : 0 < 2 ^ k := Nat.two_pow_pos k
  have hlt := x.isLt
  have hmsb := BitVec.msb_eq_decide x
  rw [Nat.add_sub_cancel] at hmsb ⊢
  rw [Nat.pow_succ] at hmono hlt
  -- the sign bit alone, as a number
  have hsign : (1#w <<< k).toNat = 2 ^ k := by
    rw [BitVec.toNat_shiftLeft, BitVec.toNat_ofNat, Nat.mod_eq_of_lt (by omega : 1 < 2 ^ w),
      Nat.one_shiftLeft, Nat.mod_eq_of_lt hpow]
  have hx : (x.setWidth w).toNat = x.toNat := by
    rw [BitVec.toNat_setWidth, Nat.mod_eq_of_lt (by omega)]
  apply BitVec.eq_of_toNat_eq
  rw [BitVec.toNat_sub, BitVec.toNat_xor, hsign, BitVec.toNat_signExtend, hx, hmsb, Nat.pow_succ]
  -- flipping the sign bit takes it away or puts it there
  by_cases hneg : 2 ^ k ≤ x.toNat
  · obtain ⟨r, hr⟩ : ∃ r, x.toNat = r + 2 ^ k := ⟨x.toNat - 2 ^ k, by omega⟩
    have hflip : (r + 2 ^ k) ^^^ 2 ^ k = r := by
      rw [← xor_two_pow_of_lt (by omega : r < 2 ^ k), Nat.xor_assoc, Nat.xor_self, Nat.xor_zero]
    rw [hr, hflip, Nat.mod_eq_of_lt (by omega)]
    simp only [Nat.le_add_left, decide_true, if_true]
    omega
  · rw [xor_two_pow_of_lt (by omega : x.toNat < 2 ^ k)]
    rw [show 2 ^ w - 2 ^ k + (x.toNat + 2 ^ k) = x.toNat + 2 ^ w by omega,
      Nat.add_mod_right, Nat.mod_eq_of_lt (by omega)]
    simp [hneg]

/-- Extending in two steps is extending in one. -/
theorem signExtend_signExtend {v u : ℕ} (x : BitVec w) (hv : w ≤ v) (hu : v ≤ u) :
    (x.signExtend v).signExtend u = x.signExtend u := by
  apply BitVec.eq_of_toInt_eq
  rw [BitVec.toInt_signExtend_of_le hu, BitVec.toInt_signExtend_of_le hv,
    BitVec.toInt_signExtend_of_le (Nat.le_trans hv hu)]

/-! ### Computing on wider registers

A code generator may keep `w`-bit words in wider registers. The low bits of a
sum, of a bitwise operation and of a left shift do not depend on how the
operands were widened; those of a right shift do. -/

section Narrowing

variable {v : ℕ} (x : BitVec w)

/-- The lower bits of an extended word are the word. -/
theorem setWidth_signExtend (h : w ≤ v) : (x.signExtend v).setWidth w = x := by
  ext i hi
  rw [BitVec.getElem_setWidth, BitVec.getLsbD_eq_getElem (by omega : i < v),
    BitVec.getElem_signExtend, dif_pos hi]

/-- Cutting an extended word back extends it less far. -/
theorem setWidth_signExtend_of_le {u : ℕ} (hu : w ≤ u) (hv : u ≤ v) :
    (x.signExtend v).setWidth u = x.signExtend u := by
  rw [← signExtend_signExtend x hu hv, setWidth_signExtend _ hv]

/-- A logical shift to the right may be taken in a wider word: zeros come in from above. -/
theorem setWidth_ushiftRight (h : w ≤ v) (n : ℕ) :
    (x.setWidth v >>> n).setWidth w = x >>> n := by
  refine BitVec.eq_of_getLsbD_eq fun i hi => ?_
  by_cases hin : n + i < w
  · simp [hi, show n + i < v by omega]
  · simp [hi, BitVec.getLsbD_of_ge x (n + i) (by omega)]

/-- An arithmetic shift to the right may be taken in a wider word: shifting first or extending
first is the same integer. -/
theorem setWidth_sshiftRight (h : w ≤ v) (n : ℕ) :
    ((x.signExtend v).sshiftRight n).setWidth w = x.sshiftRight n := by
  have hcomm : (x.signExtend v).sshiftRight n = (x.sshiftRight n).signExtend v := by
    apply BitVec.eq_of_toInt_eq
    rw [BitVec.toInt_sshiftRight, BitVec.toInt_signExtend_of_le h,
      BitVec.toInt_signExtend_of_le h, BitVec.toInt_sshiftRight]
  rw [hcomm, setWidth_signExtend _ h]

end Narrowing

/-! ### Widening comparisons

A code generator that runs `w`-bit comparisons on wider registers may extend
the operands either way, as long as the comparison it picks matches. -/

section Widening

variable {v : ℕ} (x y : BitVec w)

/-- Extending with zeros loses nothing. -/
theorem setWidth_inj (h : w ≤ v) : x.setWidth v = y.setWidth v ↔ x = y := by
  refine ⟨fun heq => ?_, congrArg _⟩
  rw [← BitVec.setWidth_eq x, ← BitVec.setWidth_eq y, ← BitVec.setWidth_setWidth_of_le x h,
    ← BitVec.setWidth_setWidth_of_le y h, heq]

/-- Extending the sign loses nothing. -/
theorem signExtend_inj (h : w ≤ v) : x.signExtend v = y.signExtend v ↔ x = y := by
  constructor
  · intro heq
    apply BitVec.eq_of_toInt_eq
    rw [← BitVec.toInt_signExtend_of_le (x := x) h, heq, BitVec.toInt_signExtend_of_le h]
  · exact fun heq => heq ▸ rfl

/-- Extending the sign keeps the signed order. -/
theorem slt_signExtend (h : w ≤ v) : (x.signExtend v).slt (y.signExtend v) = x.slt y := by
  simp only [BitVec.slt_eq_decide, BitVec.toInt_signExtend_of_le h]

/-- Sign extension is monotone for the unsigned order too: a negative word stays
above every nonnegative one. -/
theorem ult_signExtend (h : w ≤ v) : (x.signExtend v).ult (y.signExtend v) = x.ult y := by
  have hmono : 2 ^ w ≤ 2 ^ v := Nat.pow_le_pow_right (by decide) h
  have hx := x.isLt
  have hy := y.isLt
  have hxm := BitVec.msb_eq_decide x
  have hym := BitVec.msb_eq_decide y
  simp only [BitVec.ult_eq_decide, BitVec.toNat_signExtend, BitVec.toNat_setWidth,
    Nat.mod_eq_of_lt (Nat.lt_of_lt_of_le hx hmono), Nat.mod_eq_of_lt (Nat.lt_of_lt_of_le hy hmono),
    hxm, hym, decide_eq_true_eq]
  congr 1
  split_ifs <;> simp only [eq_iff_iff] <;> omega

/-- Extending with zeros keeps the unsigned order. -/
theorem ult_setWidth (h : w ≤ v) : (x.setWidth v).ult (y.setWidth v) = x.ult y := by
  have hmono : 2 ^ w ≤ 2 ^ v := Nat.pow_le_pow_right (by decide) h
  simp only [BitVec.ult_eq_decide, BitVec.toNat_setWidth,
    Nat.mod_eq_of_lt (Nat.lt_of_lt_of_le x.isLt hmono),
    Nat.mod_eq_of_lt (Nat.lt_of_lt_of_le y.isLt hmono)]

/-- Zero-extended words are nonnegative, so a signed comparison of them is an
unsigned comparison of the originals. -/
theorem slt_setWidth (h : w < v) : (x.setWidth v).slt (y.setWidth v) = x.ult y := by
  have hmono : 2 ^ (w + 1) ≤ 2 ^ v := Nat.pow_le_pow_right (by decide) h
  rw [Nat.pow_succ] at hmono
  have hx := x.isLt
  have hy := y.isLt
  rw [BitVec.slt_eq_decide, BitVec.ult_eq_decide,
    BitVec.toInt_eq_toNat_of_lt, BitVec.toInt_eq_toNat_of_lt]
  · simp only [BitVec.toNat_setWidth, Nat.mod_eq_of_lt (by omega : x.toNat < 2 ^ v),
      Nat.mod_eq_of_lt (by omega : y.toNat < 2 ^ v), Int.ofNat_lt]
  · rw [BitVec.toNat_setWidth, Nat.mod_eq_of_lt (by omega)]; omega
  · rw [BitVec.toNat_setWidth, Nat.mod_eq_of_lt (by omega)]; omega

end Widening

end Bits
