import Mathlib.Algebra.BigOperators.Fin
import SolidityEncoding.Proofs.Evaluation
import SolidityEncoding.Proofs.Value.Typed

/-!
# Words bit by bit

In SMT-LIB a bitvector is a function from positions to bits (`Bits`).  Its functions are defined
from single bits, or by way of the number that the bits stand for.  This module has all of them in
that form, as the theory of fixed-size bitvectors and its abbreviations give them, and shows that
evaluation computes them (`Expr.eval_onBits`).

The comparison goes through `BitVec`: `Proofs.Word.SmtLib` has the step from natural numbers to
`BitVec`, and `ofBitVec_add`, `ofBitVec_ashr` and so on are the step from there to single bits.
SMT-LIB has no bitvector without bits; here the definitions are read at width zero as well, where
no sign bit is set.
-/

namespace SolidityEncoding

/-- A bitvector of `width` bits: the bit at every position, the least significant one first. -/
def Bits (width : Nat) : Type := Fin width → Bool

namespace Bits

variable {width : Nat}

instance : DecidableEq (Bits width) := inferInstanceAs (DecidableEq (Fin width → Bool))

/-- The bit at a position; no bit is set at positions beyond the width. -/
def bit (x : Bits width) (i : Nat) : Bool := if h : i < width then x ⟨i, h⟩ else false

/-- The sign bit. -/
def msb (x : Bits width) : Bool := x.bit (width - 1)

/-- The number that the bits stand for. -/
def toNat (x : Bits width) : Nat := ∑ i, (x i).toNat * 2 ^ i.val

/-- The low bits of a number. -/
def ofNat (n : Nat) : Bits width := fun i => n.testBit i

/-- All bits are set. -/
def allOnes : Bits width := fun _ => true

/-! ### Functions of the theory -/

/-- `bvnot` -/
def not (x : Bits width) : Bits width := fun i => !x i

/-- `bvand` -/
def and (x y : Bits width) : Bits width := fun i => x i && y i

/-- `bvor` -/
def or (x y : Bits width) : Bits width := fun i => x i || y i

/-- `bvneg` -/
def neg (x : Bits width) : Bits width := ofNat (2 ^ width - x.toNat)

/-- `bvadd` -/
def add (x y : Bits width) : Bits width := ofNat (x.toNat + y.toNat)

/-- `bvmul` -/
def mul (x y : Bits width) : Bits width := ofNat (x.toNat * y.toNat)

/-- `bvudiv` -/
def udiv (x y : Bits width) : Bits width :=
  if y.toNat = 0 then allOnes else ofNat (x.toNat / y.toNat)

/-- `bvurem` -/
def urem (x y : Bits width) : Bits width :=
  if y.toNat = 0 then x else ofNat (x.toNat % y.toNat)

/-- `bvshl` -/
def shl (x y : Bits width) : Bits width := ofNat (x.toNat * 2 ^ y.toNat)

/-- `bvlshr` -/
def lshr (x y : Bits width) : Bits width := ofNat (x.toNat / 2 ^ y.toNat)

/-- `bvult` -/
def ult (x y : Bits width) : Bool := decide (x.toNat < y.toNat)

/-- `extract`, by its lowest position and its number of bits. -/
def extract (x : Bits width) (lo count : Nat) : Bits count := fun i => x.bit (lo + i)

/-! ### Abbreviations -/

/-- `bvxor` -/
def xor (x y : Bits width) : Bits width := (x.and y.not).or (x.not.and y)

/-- `bvsub` -/
def sub (x y : Bits width) : Bits width := x.add y.neg

/-- `bvsdiv` -/
def sdiv (x y : Bits width) : Bits width :=
  match x.msb, y.msb with
  | false, false => x.udiv y
  | true, false => (x.neg.udiv y).neg
  | false, true => (x.udiv y.neg).neg
  | true, true => x.neg.udiv y.neg

/-- `bvsrem` -/
def srem (x y : Bits width) : Bits width :=
  match x.msb, y.msb with
  | false, false => x.urem y
  | true, false => (x.neg.urem y).neg
  | false, true => x.urem y.neg
  | true, true => (x.neg.urem y.neg).neg

/-- `bvashr` -/
def ashr (x y : Bits width) : Bits width := if x.msb then (x.not.lshr y).not else x.lshr y

/-- `bvule` -/
def ule (x y : Bits width) : Bool := x.ult y || x == y

/-- `bvslt` -/
def slt (x y : Bits width) : Bool := (x.msb && !y.msb) || (x.msb == y.msb && x.ult y)

/-- `bvsle` -/
def sle (x y : Bits width) : Bool := (x.msb && !y.msb) || (x.msb == y.msb && x.ule y)

/-- `zero_extend`, by the number of bits of the result. -/
def zeroExtend (target : Nat) (x : Bits width) : Bits target := fun i => x.bit i

/-- `sign_extend`, by the number of bits of the result. -/
def signExtend (target : Nat) (x : Bits width) : Bits target :=
  fun i => if i.val < width then x.bit i else x.msb

/-! ### The bits of a `BitVec` -/

/-- The bits of a `BitVec`. -/
def ofBitVec (x : BitVec width) : Bits width := fun i => x.getLsbD i

theorem ofBitVec_injective {x y : BitVec width} (h : ofBitVec x = ofBitVec y) : x = y :=
  BitVec.eq_of_getLsbD_eq fun i hi => congrFun h ⟨i, hi⟩

theorem bit_ofBitVec (x : BitVec width) (i : Nat) : (ofBitVec x).bit i = x.getLsbD i := by
  unfold bit
  split
  · rfl
  · next h => exact (BitVec.getLsbD_of_ge x i (Nat.not_lt.1 h)).symm

theorem msb_ofBitVec (x : BitVec width) : (ofBitVec x).msb = x.msb := by
  rw [msb, bit_ofBitVec, BitVec.msb_eq_getLsbD_last]

theorem ofNat_eq_ofBitVec (n : Nat) : (ofNat n : Bits width) = ofBitVec (BitVec.ofNat width n) := by
  funext i
  show n.testBit i = (BitVec.ofNat width n).getLsbD i
  rw [BitVec.getLsbD_ofNat, decide_eq_true i.isLt, Bool.true_and]

/-- The low bits of a number stand for its remainder. -/
theorem toNat_ofNat (n : Nat) : (ofNat n : Bits width).toNat = n % 2 ^ width := by
  induction width with
  | zero => simp [toNat, Nat.mod_one]
  | succ width ih =>
    simp only [toNat, ofNat] at ih ⊢
    rw [Fin.sum_univ_castSucc, Nat.mod_pow_succ, ← ih, Fin.val_last, Nat.toNat_testBit,
      Nat.mul_comm (2 ^ width)]
    simp only [Fin.val_castSucc]

theorem ofNat_toNat (x : BitVec width) : (ofNat x.toNat : Bits width) = ofBitVec x := by
  rw [ofNat_eq_ofBitVec, BitVec.ofNat_toNat, BitVec.setWidth_eq]

theorem toNat_ofBitVec (x : BitVec width) : (ofBitVec x).toNat = x.toNat := by
  rw [← ofNat_toNat, toNat_ofNat, Nat.mod_eq_of_lt x.isLt]

section Functions

variable (x y : BitVec width)

theorem ofBitVec_not : ofBitVec (~~~x) = (ofBitVec x).not := by
  funext i
  show (~~~x).getLsbD i = !x.getLsbD i
  rw [BitVec.getLsbD_not, decide_eq_true i.isLt, Bool.true_and]

theorem ofBitVec_and : ofBitVec (x &&& y) = (ofBitVec x).and (ofBitVec y) := by
  funext i
  exact BitVec.getLsbD_and

theorem ofBitVec_or : ofBitVec (x ||| y) = (ofBitVec x).or (ofBitVec y) := by
  funext i
  exact BitVec.getLsbD_or

theorem ofBitVec_xor : ofBitVec (x ^^^ y) = (ofBitVec x).xor (ofBitVec y) := by
  funext i
  refine BitVec.getLsbD_xor.trans ?_
  simp only [xor, or, and, not, ofBitVec]
  cases x.getLsbD i <;> cases y.getLsbD i <;> rfl

theorem ofBitVec_allOnes : ofBitVec (BitVec.allOnes width) = allOnes := by
  funext i
  simp [ofBitVec, allOnes]

theorem ofBitVec_neg : ofBitVec (-x) = (ofBitVec x).neg := by
  rw [neg, toNat_ofBitVec, ofNat_eq_ofBitVec]
  congr 1

theorem ofBitVec_add : ofBitVec (x + y) = (ofBitVec x).add (ofBitVec y) := by
  rw [add, toNat_ofBitVec, toNat_ofBitVec, ofNat_eq_ofBitVec, BitVec.ofNat_add,
    BitVec.ofNat_toNat, BitVec.ofNat_toNat, BitVec.setWidth_eq, BitVec.setWidth_eq]

theorem ofBitVec_sub : ofBitVec (x - y) = (ofBitVec x).sub (ofBitVec y) := by
  rw [sub, ← ofBitVec_neg, ← ofBitVec_add, BitVec.sub_eq_add_neg]

theorem ofBitVec_mul : ofBitVec (x * y) = (ofBitVec x).mul (ofBitVec y) := by
  rw [mul, toNat_ofBitVec, toNat_ofBitVec, ofNat_eq_ofBitVec, BitVec.ofNat_mul,
    BitVec.ofNat_toNat, BitVec.ofNat_toNat, BitVec.setWidth_eq, BitVec.setWidth_eq]

theorem ofBitVec_udiv : ofBitVec (x.smtUDiv y) = (ofBitVec x).udiv (ofBitVec y) := by
  simp only [udiv, toNat_ofBitVec, BitVec.smtUDiv_eq]
  by_cases h : y = BitVec.ofNat width 0
  · rw [if_pos h, if_pos (by rw [h, BitVec.toNat_zero]), ofBitVec_allOnes]
  · have hne : y.toNat ≠ 0 := fun hzero => h (BitVec.eq_of_toNat_eq (by simpa using hzero))
    rw [if_neg h, if_neg hne, ← BitVec.toNat_udiv, ofNat_toNat]

theorem ofBitVec_urem : ofBitVec (x % y) = (ofBitVec x).urem (ofBitVec y) := by
  simp only [urem, toNat_ofBitVec]
  split
  · next h =>
    congr 1
    apply BitVec.eq_of_toNat_eq
    rw [BitVec.toNat_umod, h, Nat.mod_zero]
  · rw [← BitVec.toNat_umod, ofNat_toNat]

theorem ofBitVec_sdiv : ofBitVec (x.smtSDiv y) = (ofBitVec x).sdiv (ofBitVec y) := by
  rw [sdiv, msb_ofBitVec, msb_ofBitVec, BitVec.smtSDiv_eq]
  cases x.msb <;> cases y.msb <;> simp only [ofBitVec_udiv, ofBitVec_neg]

theorem ofBitVec_srem : ofBitVec (x.srem y) = (ofBitVec x).srem (ofBitVec y) := by
  rw [srem, msb_ofBitVec, msb_ofBitVec, BitVec.srem_eq]
  cases x.msb <;> cases y.msb <;> simp only [ofBitVec_urem, ofBitVec_neg]

theorem ofBitVec_shl : ofBitVec (x <<< y.toNat) = (ofBitVec x).shl (ofBitVec y) := by
  rw [shl, toNat_ofBitVec, toNat_ofBitVec, ofNat_eq_ofBitVec, ← Nat.shiftLeft_eq]
  congr 1

theorem ofBitVec_lshr : ofBitVec (x >>> y.toNat) = (ofBitVec x).lshr (ofBitVec y) := by
  rw [lshr, toNat_ofBitVec, toNat_ofBitVec, ← Nat.shiftRight_eq_div_pow,
    ← BitVec.toNat_ushiftRight, ofNat_toNat]

theorem ofBitVec_ashr : ofBitVec (x.sshiftRight y.toNat) = (ofBitVec x).ashr (ofBitVec y) := by
  rw [ashr, msb_ofBitVec]
  cases hmsb : x.msb with
  | false => rw [BitVec.sshiftRight_eq_of_msb_false hmsb, ofBitVec_lshr]; rfl
  | true =>
    rw [BitVec.sshiftRight_eq_of_msb_true hmsb, ofBitVec_not, ofBitVec_lshr, ofBitVec_not]
    rfl

theorem ult_ofBitVec : (ofBitVec x).ult (ofBitVec y) = x.ult y := by
  rw [ult, toNat_ofBitVec, toNat_ofBitVec]
  rfl

theorem ule_ofBitVec : (ofBitVec x).ule (ofBitVec y) = x.ule y := by
  have heq : (ofBitVec x == ofBitVec y) = decide (x.toNat = y.toNat) := by
    rw [beq_eq_decide, decide_eq_decide, BitVec.toNat_inj]
    exact ⟨ofBitVec_injective, congrArg ofBitVec⟩
  rw [ule, ult_ofBitVec, heq, BitVec.ule, BitVec.ult, ← Bool.decide_or, decide_eq_decide]
  omega

theorem slt_ofBitVec : (ofBitVec x).slt (ofBitVec y) = x.slt y := by
  rw [slt, msb_ofBitVec, msb_ofBitVec, ult_ofBitVec]
  -- Equal signs leave the unsigned order; if they differ, the signs alone decide.
  by_cases h : x.msb = y.msb
  · rw [BitVec.slt_eq_ult_of_msb_eq h, h]
    cases y.msb <;> simp
  · rw [BitVec.slt_eq_not_ult_of_msb_neq h, BitVec.ult_eq_msb_of_msb_neq h]
    cases hx : x.msb <;> cases hy : y.msb <;> simp_all

theorem sle_ofBitVec : (ofBitVec x).sle (ofBitVec y) = x.sle y := by
  rw [sle, msb_ofBitVec, msb_ofBitVec, ule_ofBitVec, BitVec.sle_eq_not_slt]
  by_cases h : x.msb = y.msb
  · rw [BitVec.slt_eq_ult_of_msb_eq h.symm, ← BitVec.ule_eq_not_ult, h]
    cases y.msb <;> simp
  · rw [BitVec.slt_eq_not_ult_of_msb_neq (Ne.symm h), BitVec.ult_eq_msb_of_msb_neq (Ne.symm h)]
    cases hx : x.msb <;> cases hy : y.msb <;> simp_all

theorem ofBitVec_zeroExtend (target : Nat) :
    ofBitVec (x.setWidth target) = (ofBitVec x).zeroExtend target := by
  funext i
  show (x.setWidth target).getLsbD i = (ofBitVec x).bit i
  rw [bit_ofBitVec, BitVec.getLsbD_setWidth, decide_eq_true i.isLt, Bool.true_and]

theorem ofBitVec_signExtend (target : Nat) :
    ofBitVec (x.signExtend target) = (ofBitVec x).signExtend target := by
  funext i
  show (x.signExtend target).getLsbD i =
    if i.val < width then (ofBitVec x).bit i else (ofBitVec x).msb
  rw [bit_ofBitVec, msb_ofBitVec, BitVec.getLsbD_signExtend, decide_eq_true i.isLt, Bool.true_and]

theorem ofBitVec_extract (lo count : Nat) :
    ofBitVec (x.extractLsb' lo count) = (ofBitVec x).extract lo count := by
  funext i
  show (x.extractLsb' lo count).getLsbD i = (ofBitVec x).bit (lo + i)
  rw [bit_ofBitVec, BitVec.getLsbD_extractLsb', decide_eq_true i.isLt, Bool.true_and]

end Functions

/-! ### Corner cases -/

theorem exists_ofBitVec_eq (x : Bits width) : ∃ v, ofBitVec v = x := by
  induction width with
  | zero => exact ⟨BitVec.nil, funext fun i => i.elim0⟩
  | succ width ih =>
    obtain ⟨v, hv⟩ := ih fun i => x i.castSucc
    refine ⟨.cons (x (Fin.last width)) v, funext fun i => ?_⟩
    show (BitVec.cons (x (Fin.last width)) v).getLsbD i = x i
    rw [BitVec.getLsbD_cons]
    rcases Fin.eq_castSucc_or_eq_last i with ⟨j, rfl⟩ | rfl
    · exact (if_neg j.isLt.ne).trans (congrFun hv j)
    · exact if_pos rfl

theorem toNat_lt (x : Bits width) : x.toNat < 2 ^ width := by
  obtain ⟨v, rfl⟩ := x.exists_ofBitVec_eq
  rw [toNat_ofBitVec]
  exact v.isLt

theorem neg_neg (x : Bits width) : x.neg.neg = x := by
  obtain ⟨v, rfl⟩ := x.exists_ofBitVec_eq
  rw [← ofBitVec_neg, ← ofBitVec_neg, BitVec.neg_neg]

theorem neg_allOnes : (allOnes : Bits width).neg = ofNat 1 := by
  rw [← ofBitVec_allOnes, ← ofBitVec_neg, ofNat_eq_ofBitVec, ← BitVec.neg_one_eq_allOnes,
    BitVec.neg_neg]

theorem not_ofNat_zero : (ofNat 0 : Bits width).not = allOnes := by
  funext i
  simp [not, ofNat, allOnes]

section Corner

variable (x : Bits width) {y : Bits width}

theorem msb_of_toNat_eq_zero (h : y.toNat = 0) : y.msb = false := by
  obtain ⟨v, rfl⟩ := y.exists_ofBitVec_eq
  rw [toNat_ofBitVec] at h
  rw [msb_ofBitVec, BitVec.msb_eq_decide, h]
  exact decide_eq_false (Nat.not_le.2 (Nat.two_pow_pos _))

theorem udiv_of_toNat_eq_zero (h : y.toNat = 0) : x.udiv y = allOnes := if_pos h

theorem urem_of_toNat_eq_zero (h : y.toNat = 0) : x.urem y = x := if_pos h

theorem sdiv_of_toNat_eq_zero (h : y.toNat = 0) :
    x.sdiv y = if x.msb then ofNat 1 else allOnes := by
  rw [sdiv, msb_of_toNat_eq_zero h]
  cases x.msb
  · exact udiv_of_toNat_eq_zero x h
  · show (x.neg.udiv y).neg = ofNat 1
    rw [udiv_of_toNat_eq_zero _ h, neg_allOnes]

theorem srem_of_toNat_eq_zero (h : y.toNat = 0) : x.srem y = x := by
  rw [srem, msb_of_toNat_eq_zero h]
  cases x.msb
  · exact urem_of_toNat_eq_zero x h
  · show (x.neg.urem y).neg = x
    rw [urem_of_toNat_eq_zero _ h, neg_neg]

theorem shl_of_width_le (h : width ≤ y.toNat) : x.shl y = ofNat 0 := by
  funext i
  have hi : i.val < y.toNat := Nat.lt_of_lt_of_le i.isLt h
  simp [shl, ofNat, Nat.testBit_mul_two_pow, Nat.not_le.2 hi]

theorem lshr_of_width_le (h : width ≤ y.toNat) : x.lshr y = ofNat 0 := by
  rw [lshr, Nat.div_eq_of_lt (x.toNat_lt.trans_le (Nat.pow_le_pow_right (by decide) h))]

theorem ashr_of_width_le (h : width ≤ y.toNat) :
    x.ashr y = if x.msb then allOnes else ofNat 0 := by
  rw [ashr, lshr_of_width_le _ h, lshr_of_width_le _ h, not_ofNat_zero]

end Corner

end Bits

/-! ## Evaluation -/

/-- A bitvector as a value. -/
def Bits.toValue {width : UInt32} (x : Bits width.toNat) : Value := .bv x.toNat width

theorem Bits.toValue_ofBitVec {width : UInt32} (x : BitVec width.toNat) :
    (ofBitVec x).toValue = .ofBits x :=
  congrArg (Value.bv · width) (toNat_ofBitVec x)

theorem Bits.toValue_hasTy {width : UInt32} (x : Bits width.toNat) :
    x.toValue.HasTy (.bv width) :=
  .bv x.toNat_lt

/-- The SMT-LIB function of two bitvectors, by their bits. -/
def BvBinaryOp.onBits (op : BvBinaryOp) {width : UInt32} (x y : Bits width.toNat) : Value :=
  match op with
  | .add => (x.add y).toValue
  | .sub => (x.sub y).toValue
  | .mul => (x.mul y).toValue
  | .udiv => (x.udiv y).toValue
  | .sdiv => (x.sdiv y).toValue
  | .urem => (x.urem y).toValue
  | .srem => (x.srem y).toValue
  | .and => (x.and y).toValue
  | .or => (x.or y).toValue
  | .xor => (x.xor y).toValue
  | .shl => (x.shl y).toValue
  | .lshr => (x.lshr y).toValue
  | .ashr => (x.ashr y).toValue
  | .ult => .bool (x.ult y)
  | .ugt => .bool (y.ult x)
  | .ule => .bool (x.ule y)
  | .uge => .bool (y.ule x)
  | .slt => .bool (x.slt y)
  | .sgt => .bool (y.slt x)
  | .sle => .bool (x.sle y)
  | .sge => .bool (y.sle x)

/-- The SMT-LIB function of one bitvector, by its bits. -/
def BvUnaryOp.onBits (op : BvUnaryOp) {width : Nat} (x : Bits width) : Bits width :=
  match op with
  | .neg => x.neg
  | .not => x.not

/-- The SMT-LIB extension of a bitvector, by its bits. -/
def Extension.onBits (kind : Extension) {source : Nat} (target : Nat) (x : Bits source) :
    Bits target :=
  match kind with
  | .zero => x.zeroExtend target
  | .sign => x.signExtend target

theorem BvBinaryOp.onBits_ofBitVec (op : BvBinaryOp) {width : UInt32} (x y : BitVec width.toNat) :
    op.onBits (.ofBitVec x) (.ofBitVec y) = op.smtLib x y := by
  cases op <;>
    simp only [onBits, smtLib, ← Bits.ofBitVec_add, ← Bits.ofBitVec_sub, ← Bits.ofBitVec_mul,
      ← Bits.ofBitVec_udiv, ← Bits.ofBitVec_sdiv, ← Bits.ofBitVec_urem, ← Bits.ofBitVec_srem,
      ← Bits.ofBitVec_and, ← Bits.ofBitVec_or, ← Bits.ofBitVec_xor, ← Bits.ofBitVec_shl,
      ← Bits.ofBitVec_lshr, ← Bits.ofBitVec_ashr, Bits.toValue_ofBitVec, Bits.ult_ofBitVec,
      Bits.ule_ofBitVec, Bits.slt_ofBitVec, Bits.sle_ofBitVec]

theorem BvUnaryOp.onBits_ofBitVec (op : BvUnaryOp) {width : Nat} (x : BitVec width) :
    op.onBits (.ofBitVec x) = .ofBitVec (op.smtLib x) := by
  cases op
  · exact (Bits.ofBitVec_neg x).symm
  · exact (Bits.ofBitVec_not x).symm

theorem Extension.onBits_ofBitVec (kind : Extension) {source : Nat} (target : Nat)
    (x : BitVec source) :
    kind.onBits target (.ofBitVec x) = .ofBitVec (kind.smtLib target x) := by
  cases kind
  · exact (Bits.ofBitVec_zeroExtend x target).symm
  · exact (Bits.ofBitVec_signExtend x target).symm

theorem BvBinaryOp.onBits_hasTy (op : BvBinaryOp) {width : UInt32} (x y : Bits width.toNat) :
    (op.onBits x y).HasTy (if op.isPredicate then .bool else .bv width) := by
  cases op <;> first | exact Value.HasTy.bool _ | exact Bits.toValue_hasTy _

section Words

variable {width : UInt32} {a b : Nat}

theorem BvBinaryOp.apply_eq_onBits (op : BvBinaryOp) (ha : a < 2 ^ width.toNat)
    (hb : b < 2 ^ width.toNat) :
    op.apply width (.bv a width) (.bv b width) =
      .ok (op.onBits (.ofNat a : Bits width.toNat) (.ofNat b)) := by
  obtain ⟨x, rfl⟩ := Word.exists_toNat_eq ha
  obtain ⟨y, rfl⟩ := Word.exists_toNat_eq hb
  rw [Bits.ofNat_toNat, Bits.ofNat_toNat, op.onBits_ofBitVec]
  exact op.apply_ofBits x y

namespace Expr

variable {store : Store} {e : Expr} (ha : a < 2 ^ width.toNat)
  (he : e.eval store = .ok (.bv a width))

include ha he

theorem eval_bvUnary_eq_onBits (op : BvUnaryOp) :
    (Expr.bvUnary op width e).eval store =
      .ok (op.onBits (.ofNat a : Bits width.toNat)).toValue := by
  obtain ⟨x, rfl⟩ := Word.exists_toNat_eq ha
  rw [Bits.ofNat_toNat, op.onBits_ofBitVec, Bits.toValue_ofBitVec]
  exact eval_bvUnary_of_bits he

theorem eval_extend_eq_onBits (kind : Extension) {target : UInt32} (hle : width ≤ target) :
    (Expr.extend kind width target e).eval store =
      .ok (kind.onBits target.toNat (.ofNat a : Bits width.toNat)).toValue := by
  obtain ⟨x, rfl⟩ := Word.exists_toNat_eq ha
  rw [Bits.ofNat_toNat, kind.onBits_ofBitVec, Bits.toValue_ofBitVec]
  exact eval_extend_of_bits hle he

theorem eval_extract_eq_onBits {hi lo : UInt32} (hle : lo ≤ hi) (hlt : hi < width) :
    (Expr.extract e hi lo).eval store =
      .ok ((.ofNat a : Bits width.toNat).extract lo.toNat (hi - lo + 1).toNat).toValue := by
  obtain ⟨x, rfl⟩ := Word.exists_toNat_eq ha
  rw [Bits.ofNat_toNat, ← Bits.ofBitVec_extract, Bits.toValue_ofBitVec]
  exact eval_extract_of_bits (Word.sliceWidth?_of_le_of_lt hle hlt).1 he

end Expr

/-- Evaluation of bitvector nodes is SMT-LIB's, bit by bit: on numbers below `2 ^ width` every
function, extension and extraction yields the bits that its definition gives, as a value of the
type of its result.  A division by zero and a shift by the width or more are cases of this. -/
theorem Expr.eval_onBits {store : Store} {e : Expr} (ha : a < 2 ^ width.toNat)
    (hb : b < 2 ^ width.toNat) (he : e.eval store = .ok (.bv a width)) :
    let x : Bits width.toNat := .ofNat a
    let y : Bits width.toNat := .ofNat b
    (∀ op : BvBinaryOp,
      op.apply width (.bv a width) (.bv b width) = .ok (op.onBits x y) ∧
        (op.onBits x y).HasTy (if op.isPredicate then .bool else .bv width)) ∧
    (∀ op : BvUnaryOp,
      (Expr.bvUnary op width e).eval store = .ok (op.onBits x).toValue ∧
        (op.onBits x).toValue.HasTy (.bv width)) ∧
    (∀ (kind : Extension) (target : UInt32), width ≤ target →
      (Expr.extend kind width target e).eval store = .ok (kind.onBits target.toNat x).toValue ∧
        (kind.onBits target.toNat x).toValue.HasTy (.bv target)) ∧
    (∀ hi lo count : UInt32, lo ≤ hi → hi < width → count.toNat = hi.toNat - lo.toNat + 1 →
      (Expr.extract e hi lo).eval store = .ok (x.extract lo.toNat count.toNat).toValue ∧
        (x.extract lo.toNat count.toNat).toValue.HasTy (.bv count)) ∧
    (b = 0 →
      x.udiv y = .allOnes ∧ x.urem y = x ∧ x.sdiv y = (if x.msb then .ofNat 1 else .allOnes) ∧
        x.srem y = x) ∧
    (width.toNat ≤ b →
      x.shl y = .ofNat 0 ∧ x.lshr y = .ofNat 0 ∧
        x.ashr y = if x.msb then .allOnes else .ofNat 0) := by
  intro x y
  have hy : y.toNat = b := by rw [Bits.toNat_ofNat, Nat.mod_eq_of_lt hb]
  refine ⟨?_, ?_, ?_, ?_, ?_, ?_⟩
  · intro op
    exact ⟨op.apply_eq_onBits ha hb, op.onBits_hasTy x y⟩
  · intro op
    exact ⟨eval_bvUnary_eq_onBits ha he op, Bits.toValue_hasTy _⟩
  · intro kind target hle
    exact ⟨eval_extend_eq_onBits ha he kind hle, Bits.toValue_hasTy _⟩
  · intro hi lo count hle hlt hcount
    obtain rfl : hi - lo + 1 = count := by
      rw [← UInt32.toNat_inj, hcount, (Word.sliceWidth?_of_le_of_lt hle hlt).2]
    exact ⟨eval_extract_eq_onBits ha he hle hlt, Bits.toValue_hasTy _⟩
  · rintro rfl
    exact ⟨x.udiv_of_toNat_eq_zero hy, x.urem_of_toNat_eq_zero hy, x.sdiv_of_toNat_eq_zero hy,
      x.srem_of_toNat_eq_zero hy⟩
  · rintro hle
    rw [← hy] at hle
    exact ⟨x.shl_of_width_le hle, x.lshr_of_width_le hle, x.ashr_of_width_le hle⟩

/-- The least signed number of eight bits, shifted by more than its width and extended. -/
theorem Expr.eval_onBits_smallest_signed :
    BvBinaryOp.ashr.apply 8 (.bv 128 8) (.bv 200 8) = .ok (.bv 255 8) ∧
      (Expr.extend .sign 8 16 (.bv 128 8)).eval .empty = .ok (.bv 65408 16) ∧
      (Bits.ofNat 128 : Bits 8).ashr (.ofNat 200) = .allOnes := by
  obtain ⟨hbinary, -, hextend, -, -, hshift⟩ := Expr.eval_onBits (a := 128) (b := 200)
    (by decide) (by decide) (Expr.eval_bv .empty 128 8)
  refine ⟨(hbinary .ashr).1.trans ?_, (hextend .sign 16 (by decide)).1.trans ?_, ?_⟩
  · decide +kernel
  · decide +kernel
  · exact (hshift (by decide)).2.2

end Words

end SolidityEncoding
