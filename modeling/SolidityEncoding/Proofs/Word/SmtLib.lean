import Mathlib.Algebra.Group.Nat.Defs
import SolidityEncoding.Eval
import SolidityEncoding.Proofs.Fallible

/-!
# Words are bitvectors

A word of `width` bits is the number of a bitvector `x : BitVec width.toNat`, and every function of
`Word` on such numbers is the function of the same name in the SMT-LIB theory of bitvectors
(`add_toNat`, `sdiv?_toNat`, …).  In particular a difference that `Word` takes always exists.

`BvBinaryOp.smtLib` is the SMT-LIB function of an operator, and `BvBinaryOp.applyBits_toNat` says
that evaluation computes it.
-/

namespace SolidityEncoding

namespace Word

variable {width : UInt32}

theorem modulus_eq (width : UInt32) : modulus width = 2 ^ width.toNat := rfl

theorem toNat_lt (x : BitVec width.toNat) : x.toNat < modulus width := x.isLt

/-- A number below the modulus is the number of a bitvector. -/
theorem exists_toNat_eq {a : Nat} (h : a < modulus width) :
    ∃ x : BitVec width.toNat, x.toNat = a :=
  ⟨BitVec.ofNatLT a h, BitVec.toNat_ofNatLT a h⟩

theorem ofInt_eq (value : Int) (width : UInt32) :
    ofInt value width = (BitVec.ofInt width.toNat value).toNat := by
  have hne : (modulus width : Int) ≠ 0 := Int.natCast_ne_zero.2 (Nat.ne_of_gt (modulus_pos width))
  rw [← Int.natCast_inj, ofInt_eq_emod, BitVec.toNat_ofInt]
  exact (Int.toNat_of_nonneg (Int.emod_nonneg value hne)).symm

theorem isNegative_toNat (x : BitVec width.toNat) : isNegative x.toNat width = x.msb := by
  rw [BitVec.msb_eq_getLsbD_last, ← BitVec.testBit_toNat]
  by_cases h : width = 0
  · subst h
    simp [isNegative, BitVec.toNat_of_zero_length]
  · simp [isNegative, h]

theorem toInt_toNat (x : BitVec width.toNat) : toInt x.toNat width = x.toInt := by
  rw [toInt, isNegative_toNat, BitVec.toInt_eq_msb_cond]
  rfl

theorem difference?_of_le {a b : Nat} (h : b ≤ a) : difference? a b = some (a - b) := if_pos h

/-! ### Arithmetic -/

theorem neg?_toNat (x : BitVec width.toNat) : neg? x.toNat width = some (-x).toNat := by
  rw [neg?, difference?_of_le (Nat.le_of_lt (toNat_lt x)), Option.map_some, BitVec.toNat_neg]
  rfl

theorem not?_toNat (x : BitVec width.toNat) : not? x.toNat width = some (~~~x).toNat := by
  rw [not?, difference?_of_le (Nat.le_sub_one_of_lt (toNat_lt x)), BitVec.toNat_not]
  rfl

theorem add_toNat (x y : BitVec width.toNat) : add x.toNat y.toNat width = (x + y).toNat :=
  (BitVec.toNat_add x y).symm

theorem sub?_toNat (x y : BitVec width.toNat) :
    sub? x.toNat y.toNat width = some (x - y).toNat := by
  have hy := y.isLt
  rw [sub?, difference?_of_le (by rw [modulus_eq]; omega), Option.map_some, BitVec.toNat_sub,
    modulus_eq]
  congr 2
  omega

theorem mul_toNat (x y : BitVec width.toNat) : mul x.toNat y.toNat width = (x * y).toNat :=
  (BitVec.toNat_mul x y).symm

theorem toNat_eq_zero_iff {x : BitVec width.toNat} :
    x.toNat = 0 ↔ x = BitVec.ofNat width.toNat 0 := by
  rw [← BitVec.toNat_inj, BitVec.toNat_zero]

/-! ### Division -/

theorem udiv_toNat (x y : BitVec width.toNat) :
    udiv x.toNat y.toNat width = (x.smtUDiv y).toNat := by
  rw [udiv, BitVec.smtUDiv_eq]
  by_cases h : y = BitVec.ofNat width.toNat 0
  · rw [if_pos (toNat_eq_zero_iff.2 h), if_pos h, BitVec.toNat_allOnes]
    rfl
  · rw [if_neg (mt toNat_eq_zero_iff.1 h), if_neg h, BitVec.toNat_udiv]

theorem urem_toNat (x y : BitVec width.toNat) : urem x.toNat y.toNat = (x % y).toNat := by
  rw [urem, BitVec.toNat_umod]
  split
  · next h => rw [h, Nat.mod_zero]
  · rfl

theorem negIf?_toNat (flip : Bool) (x : BitVec width.toNat) :
    negIf? flip x.toNat width = some (if flip then -x else x).toNat := by
  cases flip
  · rfl
  · exact neg?_toNat x

theorem abs?_toNat (x : BitVec width.toNat) :
    abs? x.toNat width = some (if x.msb then -x else x).toNat := by
  rw [abs?, isNegative_toNat, negIf?_toNat]

theorem sdiv?_toNat (x y : BitVec width.toNat) :
    sdiv? x.toNat y.toNat width = some (x.smtSDiv y).toNat := by
  simp only [sdiv?, abs?_toNat, isNegative_toNat, Option.bind_eq_bind, Option.bind_some,
    udiv_toNat, negIf?_toNat, BitVec.smtSDiv_eq]
  cases x.msb <;> cases y.msb <;> rfl

theorem srem?_toNat (x y : BitVec width.toNat) :
    srem? x.toNat y.toNat width = some (x.srem y).toNat := by
  simp only [srem?, abs?_toNat, isNegative_toNat, Option.bind_eq_bind, Option.bind_some,
    urem_toNat, negIf?_toNat, BitVec.srem_eq]
  cases x.msb <;> cases y.msb <;> rfl

/-! ### Shifts and slices -/

theorem shl_toNat (x : BitVec width.toNat) (amount : Nat) :
    shl x.toNat amount width = (x <<< amount).toNat := by
  rw [shl]
  split
  · exact BitVec.toNat_shiftLeft.symm
  · next h => rw [BitVec.shiftLeft_eq_zero (by omega), BitVec.toNat_zero]

theorem lshr_toNat (x : BitVec width.toNat) (amount : Nat) :
    lshr x.toNat amount width = (x >>> amount).toNat := by
  rw [lshr]
  split
  · exact (BitVec.toNat_ushiftRight x amount).symm
  · next h => rw [BitVec.ushiftRight_eq_zero (by omega), BitVec.toNat_zero]

/-- An amount that reaches the width leaves nothing but copies of the sign. -/
theorem toInt_shiftRight_of_le (x : BitVec width.toNat) {amount : Nat}
    (h : width.toNat ≤ amount) : x.toInt >>> amount = if x.toInt < 0 then -1 else 0 := by
  have hlow := BitVec.le_two_mul_toInt (x := x)
  have hhigh := BitVec.two_mul_toInt_lt (x := x)
  have hpow : (2 : Int) ^ width.toNat ≤ 2 ^ amount := by
    exact_mod_cast Nat.pow_le_pow_right (by decide) h
  have hpos : (0 : Int) < 2 ^ amount := Int.pow_pos (by decide)
  rw [Int.shiftRight_eq_div_pow]
  push_cast
  split
  · rw [Int.ediv_eq_iff_of_pos hpos]
    omega
  · exact Int.ediv_eq_zero_of_lt (by omega) (by omega)

theorem ashr_toNat (x : BitVec width.toNat) (amount : Nat) :
    ashr x.toNat amount width = (x.sshiftRight amount).toNat := by
  have key : (if amount < width.toNat then x.toInt / (twoPow amount : Int)
      else if x.toInt < 0 then -1 else 0) = x.toInt >>> amount := by
    split
    · exact (Int.shiftRight_eq_div_pow x.toInt amount).symm
    · next h => exact (toInt_shiftRight_of_le x (by omega)).symm
  simp only [ashr, toInt_toNat, euclideanDivision_eq, key, ofInt_eq]
  rfl

theorem slice_toNat {source : Nat} (x : BitVec source) (lo width : UInt32) :
    slice x.toNat lo width = (x.extractLsb' lo.toNat width.toNat).toNat :=
  (BitVec.extractLsb'_toNat lo.toNat width.toNat x).symm

end Word

/-! ## Values -/

/-- A bitvector as a value. -/
def Value.ofBits {width : UInt32} (x : BitVec width.toNat) : Value := .bv x.toNat width

theorem Value.bvOf_eq_ofBits (value : Int) (width : UInt32) :
    Value.bvOf value width = .ofBits (BitVec.ofInt width.toNat value) :=
  congrArg (Value.bv · width) (Word.ofInt_eq value width)

namespace BvBinaryOp

/-- The SMT-LIB function of two bitvectors of one width. -/
def smtLib (op : BvBinaryOp) {width : UInt32} (x y : BitVec width.toNat) : Value :=
  match op with
  | .add => .ofBits (x + y)
  | .sub => .ofBits (x - y)
  | .mul => .ofBits (x * y)
  | .udiv => .ofBits (x.smtUDiv y)
  | .sdiv => .ofBits (x.smtSDiv y)
  | .urem => .ofBits (x % y)
  | .srem => .ofBits (x.srem y)
  | .and => .ofBits (x &&& y)
  | .or => .ofBits (x ||| y)
  | .xor => .ofBits (x ^^^ y)
  | .shl => .ofBits (x <<< y.toNat)
  | .lshr => .ofBits (x >>> y.toNat)
  | .ashr => .ofBits (x.sshiftRight y.toNat)
  | .ult => .bool (x.ult y)
  | .ugt => .bool (y.ult x)
  | .ule => .bool (x.ule y)
  | .uge => .bool (y.ule x)
  | .slt => .bool (x.slt y)
  | .sgt => .bool (y.slt x)
  | .sle => .bool (x.sle y)
  | .sge => .bool (y.sle x)

theorem applyBits_toNat (op : BvBinaryOp) {width : UInt32} (x y : BitVec width.toNat) :
    op.applyBits width x.toNat y.toNat = some (op.smtLib x y) := by
  cases op <;>
    simp only [applyBits, smtLib, Value.ofBits, Word.add_toNat, Word.sub?_toNat, Word.mul_toNat,
      Word.udiv_toNat, Word.sdiv?_toNat, Word.urem_toNat, Word.srem?_toNat, Word.shl_toNat,
      Word.lshr_toNat, Word.ashr_toNat, Word.toInt_toNat, BitVec.toNat_and, BitVec.toNat_or,
      BitVec.toNat_xor, Option.map_some] <;>
    rfl

theorem apply_ofBits (op : BvBinaryOp) {width : UInt32} (x y : BitVec width.toNat) :
    op.apply width (.ofBits x) (.ofBits y) = .ok (op.smtLib x y) := by
  simp only [apply, Value.ofBits, Value.asBv, ok_bind, and_self, if_true, applyBits_toNat, inRange]

end BvBinaryOp

namespace BvUnaryOp

/-- The SMT-LIB function of one bitvector. -/
def smtLib (op : BvUnaryOp) {width : Nat} (x : BitVec width) : BitVec width :=
  match op with
  | .neg => -x
  | .not => ~~~x

theorem apply_ofBits (op : BvUnaryOp) {width : UInt32} (x : BitVec width.toNat) :
    op.apply width (.ofBits x) = .ok (.ofBits (op.smtLib x)) := by
  cases op <;>
    simp only [apply, smtLib, Value.ofBits, Value.asBv, ok_bind, Word.neg?_toNat, Word.not?_toNat,
      inRange, pure_eq_ok]

end BvUnaryOp

namespace Extension

/-- The SMT-LIB extension of a bitvector. -/
def smtLib (kind : Extension) {source : Nat} (target : Nat) (x : BitVec source) : BitVec target :=
  match kind with
  | .zero => x.setWidth target
  | .sign => x.signExtend target

theorem apply_ofBits (kind : Extension) {source target : UInt32} (h : source ≤ target)
    (x : BitVec source.toNat) :
    kind.apply target (.ofBits x) = .ok (.ofBits (kind.smtLib target.toNat x)) := by
  cases kind with
  | zero =>
    simp only [apply, smtLib, Value.ofBits, Value.asBv, ok_bind, pure_eq_ok,
      BitVec.toNat_setWidth_of_le (UInt32.le_iff_toNat_le.1 h)]
  | sign =>
    simp only [apply, smtLib, Value.ofBits, Value.toSigned, Value.asBv, ok_bind, pure_eq_ok,
      Word.toInt_toNat, Word.ofInt_eq]
    rfl

end Extension

theorem Word.sliceWidth?_of_le_of_lt {hi lo width : UInt32} (hle : lo ≤ hi) (hlt : hi < width) :
    Word.sliceWidth? hi lo = some (hi - lo + 1) ∧
      (hi - lo + 1).toNat = hi.toNat - lo.toNat + 1 := by
  have hle' := UInt32.le_iff_toNat_le.1 hle
  have hlt' := UInt32.lt_iff_toNat_lt.1 hlt
  have hwidth := width.toNat_lt
  have hsub : (hi - lo).toNat = hi.toNat - lo.toNat := UInt32.toNat_sub_of_le _ _ hle
  have hsize : (hi - lo).toNat + 1 < UInt32.size := by
    rw [hsub]
    simp only [UInt32.size]
    omega
  refine ⟨if_pos ⟨hle, hsize⟩, ?_⟩
  rw [UInt32.toNat_add, hsub]
  simp only [UInt32.toNat_one]
  omega

theorem Value.extract_ofBits {source : UInt32} (x : BitVec source.toNat) {hi lo width : UInt32}
    (h : Word.sliceWidth? hi lo = some width) :
    (Value.ofBits x).extract hi lo = .ok (.ofBits (x.extractLsb' lo.toNat width.toNat)) := by
  simp only [Value.extract, Value.ofBits, Value.asBv, ok_bind, h, inRange, pure_eq_ok,
    Word.slice_toNat]

end SolidityEncoding
