import Mathlib.Data.Int.ModEq
import SolidityEncoding.Encoding.Range
import SolidityEncoding.Proofs.Word.SmtLib

/-!
# Ranges and reduction into them

Every integer is congruent to exactly one number of a shape, and `Shape.wrap` is that number
(`Shape.reduces_wrap`).  Read with the sign rule of the shape, the bitvector of an integer is the
same number (`Shape.read_ofInt`), so bitvectors and wrapped integers carry the same information.
-/

namespace SolidityEncoding

/-! ### Powers of two -/

theorem pow2_eq (bits : UInt32) : pow2 bits = 2 ^ bits.toNat := by
  rw [pow2, Word.modulus_eq, Int.natCast_pow]
  rfl

theorem pow2_pos (bits : UInt32) : 0 < pow2 bits := Int.natCast_pos.2 (Word.modulus_pos bits)

theorem half_pos (bits : UInt32) : 0 < half bits := Int.natCast_pos.2 (Word.twoPow_pos _)

theorem half_eq (bits : UInt32) : half bits = 2 ^ (bits.toNat - 1) := by
  rw [half, Word.twoPow, Nat.pow_eq, Int.natCast_pow]
  rfl

theorem toNat_pos_of_pos {bits : UInt32} (h : 0 < bits) : 0 < bits.toNat :=
  UInt32.lt_iff_toNat_lt.1 h

theorem pow2_eq_two_mul_half {bits : UInt32} (h : 0 < bits) : pow2 bits = 2 * half bits := by
  have hb := toNat_pos_of_pos h
  rw [pow2_eq, half_eq, ← Int.pow_succ']
  congr 1
  omega

theorem pow2_le_pow2 {bits bits' : UInt32} (h : bits ≤ bits') : pow2 bits ≤ pow2 bits' :=
  Int.ofNat_le.2 (Nat.pow_le_pow_right (by decide) (UInt32.le_iff_toNat_le.1 h))

theorem half_le_half {bits bits' : UInt32} (h : bits ≤ bits') : half bits ≤ half bits' :=
  Int.ofNat_le.2 (Nat.pow_le_pow_right (by decide)
    (Nat.sub_le_sub_right (UInt32.le_iff_toNat_le.1 h) 1))

theorem pow2_le_half {bits bits' : UInt32} (h : bits < bits') : pow2 bits ≤ half bits' :=
  Int.ofNat_le.2 (Nat.pow_le_pow_right (by decide)
    (Nat.le_sub_one_of_lt (UInt32.lt_iff_toNat_lt.1 h)))

namespace Shape

/-! ### Numbers of a shape -/

theorem contains_unsigned_iff {bits : UInt32} {value : Int} :
    Contains ⟨bits, false⟩ value ↔ 0 ≤ value ∧ value < pow2 bits := by
  simp only [Contains, lowest, highest, Bool.false_eq_true, if_false]
  omega

theorem contains_signed_iff {bits : UInt32} {value : Int} :
    Contains ⟨bits, true⟩ value ↔ -half bits ≤ value ∧ value < half bits := by
  simp only [Contains, lowest, highest, smallestSigned, largestSigned, if_true]
  omega

/-- Two numbers of one shape that are congruent are equal. -/
theorem eq_of_modEq {shape : Shape} (hbits : 0 < shape.bits) {a b : Int} (ha : shape.Contains a)
    (hb : shape.Contains b) (h : a ≡ b [ZMOD pow2 shape.bits]) : a = b := by
  have hlt : |b - a| < pow2 shape.bits := by
    obtain ⟨bits, _ | _⟩ := shape
    · rw [contains_unsigned_iff] at ha hb
      rw [abs_lt]
      constructor <;> dsimp only <;> omega
    · rw [contains_signed_iff] at ha hb
      rw [pow2_eq_two_mul_half hbits, abs_lt]
      constructor <;> dsimp only <;> omega
  have hzero := Int.eq_zero_of_abs_lt_dvd h.dvd hlt
  omega

theorem abs_lt_of_contains {shape : Shape} (hbits : 0 < shape.bits) {value : Int}
    (h : shape.Contains value) : |value| < pow2 shape.bits := by
  have hpos := half_pos shape.bits
  obtain ⟨bits, _ | _⟩ := shape
  · rw [contains_unsigned_iff] at h
    rw [abs_lt]
    constructor <;> dsimp only <;> omega
  · rw [contains_signed_iff] at h
    rw [pow2_eq_two_mul_half hbits, abs_lt]
    constructor <;> dsimp only at hpos ⊢ <;> omega

/-- A number of a shape is what an integer is reduced to: the only one that is congruent to it. -/
structure Reduces (shape : Shape) (value reduced : Int) : Prop where
  contains : shape.Contains reduced
  modEq : reduced ≡ value [ZMOD pow2 shape.bits]
  unique : ∀ other, shape.Contains other → other ≡ value [ZMOD pow2 shape.bits] → other = reduced

theorem wrap_modEq (shape : Shape) (value : Int) :
    shape.wrap value ≡ value [ZMOD pow2 shape.bits] := by
  rw [wrap_eq_emod]
  split
  · rw [Int.ModEq, Int.sub_emod_right, Int.emod_emod]
  · exact Int.mod_modEq _ _

theorem contains_wrap {shape : Shape} (hbits : 0 < shape.bits) (value : Int) :
    shape.Contains (shape.wrap value) := by
  have hnonneg := Int.emod_nonneg value (pow2_pos shape.bits).ne'
  have hlt := Int.emod_lt_of_pos value (pow2_pos shape.bits)
  have hhalf := pow2_eq_two_mul_half hbits
  obtain ⟨bits, _ | _⟩ := shape
  · rw [contains_unsigned_iff]
    simpa [wrap_eq_emod] using ⟨hnonneg, hlt⟩
  · rw [contains_signed_iff]
    simp only [wrap_eq_emod, largestSigned, true_and]
    dsimp only at hnonneg hlt hhalf
    split <;> omega

theorem reduces_wrap {shape : Shape} (hbits : 0 < shape.bits) (value : Int) :
    shape.Reduces value (shape.wrap value) where
  contains := contains_wrap hbits value
  modEq := wrap_modEq shape value
  unique _ hc hm :=
    eq_of_modEq hbits hc (contains_wrap hbits value) (hm.trans (wrap_modEq shape value).symm)

theorem eq_wrap {shape : Shape} (hbits : 0 < shape.bits) {value reduced : Int}
    (hc : shape.Contains reduced) (hm : reduced ≡ value [ZMOD pow2 shape.bits]) :
    reduced = shape.wrap value :=
  (reduces_wrap hbits value).unique reduced hc hm

/-- A number of the shape is not changed, and no other integer is. -/
theorem eq_wrap_iff {shape : Shape} (hbits : 0 < shape.bits) {value : Int} :
    value = shape.wrap value ↔ shape.Contains value := by
  constructor
  · intro h
    rw [h]
    exact contains_wrap hbits value
  · intro h
    exact eq_wrap hbits h rfl

theorem wrap_eq_wrap {shape : Shape} {a b : Int} (h : a ≡ b [ZMOD pow2 shape.bits]) :
    shape.wrap a = shape.wrap b := by
  simp only [wrap_eq_emod, h.eq]

/-! ### Bitvectors of a shape -/

/-- A bitvector read with the sign rule of a shape. -/
def read (shape : Shape) (x : BitVec shape.bits.toNat) : Int :=
  if shape.signed then x.toInt else x.toNat

theorem read_modEq (shape : Shape) (value : Int) :
    shape.read (BitVec.ofInt shape.bits.toNat value) ≡ value [ZMOD pow2 shape.bits] := by
  obtain ⟨bits, _ | _⟩ := shape
  · simp only [read, Bool.false_eq_true, if_false]
    rw [BitVec.toNat_ofInt]
    change ((value % pow2 bits).toNat : Int) ≡ value [ZMOD pow2 bits]
    rw [Int.toNat_of_nonneg (Int.emod_nonneg _ (pow2_pos bits).ne')]
    exact Int.mod_modEq _ _
  · simp only [read, if_true]
    rw [BitVec.toInt_ofInt]
    exact Int.bmod_emod

theorem contains_read {shape : Shape} (hbits : 0 < shape.bits) (x : BitVec shape.bits.toNat) :
    shape.Contains (shape.read x) := by
  obtain ⟨bits, _ | _⟩ := shape
  · simp only [contains_unsigned_iff, read, Bool.false_eq_true, if_false]
    exact ⟨Int.natCast_nonneg _, Int.ofNat_lt.2 x.isLt⟩
  · simp only [contains_signed_iff, read, if_true]
    have hlow := BitVec.le_two_mul_toInt (x := x)
    have hhigh := BitVec.two_mul_toInt_lt (x := x)
    have hhalf := pow2_eq_two_mul_half hbits
    dsimp only at hlow hhigh hhalf
    rw [← pow2_eq] at hlow hhigh
    omega

/-- A number of the shape reads back from its bitvector. -/
theorem read_ofInt {shape : Shape} (hbits : 0 < shape.bits) {value : Int}
    (h : shape.Contains value) : shape.read (BitVec.ofInt shape.bits.toNat value) = value :=
  eq_of_modEq hbits (contains_read hbits _) h (read_modEq shape value)

theorem ofInt_toNat {width : Nat} (x : BitVec width) : BitVec.ofInt width x.toNat = x := by
  rw [BitVec.ofInt_natCast, BitVec.ofNat_toNat, BitVec.setWidth_eq]

/-- A bitvector is the bitvector of what it reads as. -/
theorem ofInt_read (shape : Shape) (x : BitVec shape.bits.toNat) :
    BitVec.ofInt shape.bits.toNat (shape.read x) = x := by
  rw [read]
  split
  · exact BitVec.ofInt_toInt
  · exact ofInt_toNat x

theorem toNat_read {shape : Shape} {x : BitVec shape.bits.toNat} (h : 0 ≤ shape.read x) :
    (shape.read x).toNat = x.toNat := by
  rw [read] at h ⊢
  split at h
  · next hsigned =>
    have hmsb : x.msb = false := by
      rw [BitVec.msb_eq_toInt, decide_eq_false (by omega)]
    rw [if_pos hsigned, BitVec.toNat_toInt_of_msb x hmsb]
  · next hunsigned => rw [if_neg hunsigned, Int.toNat_natCast]

end Shape

theorem Word.natCast_ofInt (value : Int) (width : UInt32) :
    (Word.ofInt value width : Int) = value % pow2 width :=
  Word.ofInt_eq_emod value width

/-- Two integers have the same bitvector if and only if they are congruent. -/
theorem Value.bvOf_eq_bvOf_iff {a b : Int} {bits : UInt32} :
    Value.bvOf a bits = .bvOf b bits ↔ a ≡ b [ZMOD pow2 bits] := by
  rw [bvOf, bvOf, Value.bv.injEq, and_iff_left rfl, ← Int.natCast_inj, Word.natCast_ofInt,
    Word.natCast_ofInt]
  rfl

end SolidityEncoding
