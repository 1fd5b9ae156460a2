import Mathlib.Data.Int.Bitwise
import SolidityEncoding.Encoding.Arithmetic
import SolidityEncoding.Proofs.Evaluation
import SolidityEncoding.Proofs.Range
import SolidityEncoding.Proofs.Session

/-!
# The bitvector encoding computes on integers

Under the bitvector encoding an operator becomes an SMT-LIB function, chosen by the sign rule of the
shape.  Read with that sign rule, its operands are integers, and its value is the bitvector of an
operation on them (`SourceBinaryOp.smtLib_eq_meaning`).
-/

namespace SolidityEncoding

namespace SourceBinaryOp

/-- The value of an operator on two integers of `bits` bits.  A quotient is rounded towards zero and
its remainder has the sign of the dividend, a shift to the right rounds down, and the bitwise
operators act on the infinite two's complements. -/
def meaning (op : SourceBinaryOp) (bits : UInt32) (a b : Int) : Value :=
  match op with
  | .add => .bvOf (a + b) bits
  | .sub => .bvOf (a - b) bits
  | .mul => .bvOf (a * b) bits
  | .div => .bvOf (a.tdiv b) bits
  | .mod => .bvOf (a.tmod b) bits
  | .exp => .bvOf (a ^ b.toNat) bits
  | .bitAnd => .bvOf (a.land b) bits
  | .bitOr => .bvOf (a.lor b) bits
  | .bitXor => .bvOf (a.xor b) bits
  | .shl => .bvOf (a * 2 ^ b.toNat) bits
  | .sar => .bvOf (a / 2 ^ b.toNat) bits
  | .lt => .bool (decide (a < b))
  | .gt => .bool (decide (a > b))
  | .lte => .bool (decide (a ≤ b))
  | .gte => .bool (decide (a ≥ b))

/-- An operator has a meaning for a right operand: no divisor is zero, and nothing is shifted by a
negative amount. -/
def Defined (op : SourceBinaryOp) (b : Int) : Prop :=
  match op with
  | .div | .mod => b ≠ 0
  | .shl | .sar | .exp => 0 ≤ b
  | _ => True

end SourceBinaryOp

/-! ### Bitvectors of integers -/

section OfInt

variable {width : Nat}

theorem ofInt_sub (a b : Int) :
    BitVec.ofInt width (a - b) = BitVec.ofInt width a - BitVec.ofInt width b := by
  rw [Int.sub_eq_add_neg, BitVec.ofInt_add, BitVec.ofInt_neg, BitVec.sub_eq_add_neg]

/-- The bits of a negative number are the opposite of those of its complement. -/
theorem getLsbD_ofInt (a : Int) (i : Nat) :
    (BitVec.ofInt width a).getLsbD i = (decide (i < width) && a.testBit i) := by
  cases a with
  | ofNat n => exact BitVec.getLsbD_ofNat width n i
  | negSucc n =>
    rw [BitVec.ofInt_negSucc_eq_not_ofNat, BitVec.getLsbD_not, BitVec.getLsbD_ofNat, Int.testBit]
    cases decide (i < width) <;> rfl

theorem ofInt_land (a b : Int) :
    BitVec.ofInt width (a.land b) = BitVec.ofInt width a &&& BitVec.ofInt width b := by
  apply BitVec.eq_of_getLsbD_eq
  intro i hi
  rw [BitVec.getLsbD_and, getLsbD_ofInt, getLsbD_ofInt, getLsbD_ofInt, Int.testBit_land]
  simp only [hi, decide_true, Bool.true_and]

theorem ofInt_lor (a b : Int) :
    BitVec.ofInt width (a.lor b) = BitVec.ofInt width a ||| BitVec.ofInt width b := by
  apply BitVec.eq_of_getLsbD_eq
  intro i hi
  rw [BitVec.getLsbD_or, getLsbD_ofInt, getLsbD_ofInt, getLsbD_ofInt, Int.testBit_lor]
  simp only [hi, decide_true, Bool.true_and]

theorem ofInt_xor (a b : Int) :
    BitVec.ofInt width (a.xor b) = BitVec.ofInt width a ^^^ BitVec.ofInt width b := by
  apply BitVec.eq_of_getLsbD_eq
  intro i hi
  rw [BitVec.getLsbD_xor, getLsbD_ofInt, getLsbD_ofInt, getLsbD_ofInt, Int.testBit_lxor]
  simp only [hi, decide_true, Bool.true_and]

theorem ofInt_mul_two_pow (a : Int) (amount : Nat) :
    BitVec.ofInt width (a * 2 ^ amount) = BitVec.ofInt width a <<< amount := by
  have hpow : BitVec.ofInt width (2 ^ amount) = BitVec.twoPow width amount := by
    apply BitVec.eq_of_toNat_eq
    rw [BitVec.toNat_twoPow, ← BitVec.toNat_ofNat, ← BitVec.ofInt_natCast]
    norm_cast
  rw [BitVec.ofInt_mul, hpow, BitVec.shiftLeft_eq_mul_twoPow]

end OfInt

/-! ### Functions on readings -/

section Readings

variable {width : Nat} (x y : BitVec width)

theorem udiv_eq_ofInt : x / y = BitVec.ofInt width ((x.toNat : Int).tdiv y.toNat) := by
  rw [← Int.ofNat_tdiv, ← BitVec.toNat_udiv, Shape.ofInt_toNat]

theorem umod_eq_ofInt : x % y = BitVec.ofInt width ((x.toNat : Int).tmod y.toNat) := by
  rw [← Int.ofNat_tmod, ← BitVec.toNat_umod, Shape.ofInt_toNat]

theorem sdiv_eq_ofInt : x.sdiv y = BitVec.ofInt width (x.toInt.tdiv y.toInt) := by
  apply BitVec.eq_of_toInt_eq
  rw [BitVec.toInt_sdiv, BitVec.toInt_ofInt]

theorem srem_eq_ofInt : x.srem y = BitVec.ofInt width (x.toInt.tmod y.toInt) := by
  rw [← BitVec.toInt_srem, BitVec.ofInt_toInt]

theorem ushiftRight_eq_ofInt (amount : Nat) :
    x >>> amount = BitVec.ofInt width ((x.toNat : Int) / 2 ^ amount) := by
  have hdiv : (x.toNat : Int) / 2 ^ amount = ((x >>> amount).toNat : Int) := by
    rw [BitVec.toNat_ushiftRight, Nat.shiftRight_eq_div_pow]
    norm_cast
  rw [hdiv, Shape.ofInt_toNat]

theorem sshiftRight_eq_ofInt (amount : Nat) :
    x.sshiftRight amount = BitVec.ofInt width (x.toInt / 2 ^ amount) := by
  rw [BitVec.sshiftRight, Int.shiftRight_eq_div_pow]
  norm_cast

variable {y}

/-- Away from zero the SMT-LIB quotients are the ordinary ones. -/
theorem smtUDiv_eq_udiv (hy : y ≠ 0) : x.smtUDiv y = x / y := by
  rw [BitVec.smtUDiv_eq]
  exact if_neg hy

theorem smtSDiv_eq_sdiv (hy : y ≠ 0) : x.smtSDiv y = x.sdiv y := by
  have hneg : -y ≠ 0 := fun h => hy (BitVec.neg_eq_zero_iff.1 h)
  rw [BitVec.smtSDiv_eq, BitVec.sdiv_eq]
  cases x.msb <;> cases y.msb <;> simp only [smtUDiv_eq_udiv _ hy, smtUDiv_eq_udiv _ hneg] <;> rfl

end Readings

/-! ### The operators of a session -/

namespace SourceBinaryOp

/-- A divisor is zero only if its reading is. -/
theorem ne_zero_of_read {shape : Shape} {y : BitVec shape.bits.toNat} (h : shape.read y ≠ 0) :
    y ≠ 0 := by
  rintro rfl
  apply h
  rw [Shape.read]
  split
  · exact BitVec.toInt_zero
  · exact congrArg Nat.cast BitVec.toNat_zero

/-- The function of an operator yields the meaning of the operator on the readings. -/
theorem smtLib_eq_meaning {op : SourceBinaryOp} {function : BvBinaryOp} {shape : Shape}
    (hfunction : op.bvFunction? shape.signed = some function) (x y : BitVec shape.bits.toNat)
    (hdefined : op.Defined (shape.read y)) :
    function.smtLib x y = op.meaning shape.bits (shape.read x) (shape.read y) := by
  obtain ⟨bits, signed⟩ := shape
  cases op with
  | add =>
    cases hfunction
    rw [meaning, Value.bvOf_eq_ofBits, BitVec.ofInt_add, Shape.ofInt_read, Shape.ofInt_read]
    rfl
  | sub =>
    cases hfunction
    rw [meaning, Value.bvOf_eq_ofBits, ofInt_sub, Shape.ofInt_read, Shape.ofInt_read]
    rfl
  | mul =>
    cases hfunction
    rw [meaning, Value.bvOf_eq_ofBits, BitVec.ofInt_mul, Shape.ofInt_read, Shape.ofInt_read]
    rfl
  | div =>
    have hy := ne_zero_of_read hdefined
    rw [meaning, Value.bvOf_eq_ofBits]
    cases signed <;> cases hfunction
    · exact congrArg Value.ofBits ((smtUDiv_eq_udiv x hy).trans (udiv_eq_ofInt x y))
    · exact congrArg Value.ofBits ((smtSDiv_eq_sdiv x hy).trans (sdiv_eq_ofInt x y))
  | mod =>
    rw [meaning, Value.bvOf_eq_ofBits]
    cases signed <;> cases hfunction
    · exact congrArg Value.ofBits (umod_eq_ofInt x y)
    · exact congrArg Value.ofBits (srem_eq_ofInt x y)
  | exp => cases hfunction
  | bitAnd =>
    cases hfunction
    rw [meaning, Value.bvOf_eq_ofBits, ofInt_land, Shape.ofInt_read, Shape.ofInt_read]
    rfl
  | bitOr =>
    cases hfunction
    rw [meaning, Value.bvOf_eq_ofBits, ofInt_lor, Shape.ofInt_read, Shape.ofInt_read]
    rfl
  | bitXor =>
    cases hfunction
    rw [meaning, Value.bvOf_eq_ofBits, ofInt_xor, Shape.ofInt_read, Shape.ofInt_read]
    rfl
  | shl =>
    cases hfunction
    rw [meaning, Value.bvOf_eq_ofBits, ofInt_mul_two_pow, Shape.ofInt_read,
      Shape.toNat_read hdefined]
    rfl
  | sar =>
    rw [meaning, Value.bvOf_eq_ofBits, Shape.toNat_read hdefined]
    cases signed <;> cases hfunction
    · exact congrArg Value.ofBits (ushiftRight_eq_ofInt x y.toNat)
    · exact congrArg Value.ofBits (sshiftRight_eq_ofInt x y.toNat)
  | lt | gt | lte | gte =>
    cases signed <;> cases hfunction
    · simp [BvBinaryOp.smtLib, meaning, Shape.read, BitVec.ult, BitVec.ule]
    · simp [BvBinaryOp.smtLib, meaning, Shape.read, BitVec.slt, BitVec.sle]

/-- On bitvectors of two numbers of a shape the function of an operator has the meaning of the
operator as its value. -/
theorem eval_eq_meaning {op : SourceBinaryOp} {function : BvBinaryOp} {shape : Shape}
    (hfunction : op.bvFunction? shape.signed = some function) (hbits : 0 < shape.bits)
    {store : Store} {lhs rhs : Expr} {a b : Int}
    (hl : lhs.eval store = .ok (.bvOf a shape.bits))
    (hr : rhs.eval store = .ok (.bvOf b shape.bits)) (ha : shape.Contains a)
    (hb : shape.Contains b) (hdefined : op.Defined b) :
    (Expr.bvBinary function shape.bits lhs rhs).eval store = .ok (op.meaning shape.bits a b) := by
  rw [Value.bvOf_eq_ofBits] at hl hr
  rw [Expr.eval_bvBinary_of_bits hl hr, smtLib_eq_meaning hfunction, Shape.read_ofInt hbits ha,
    Shape.read_ofInt hbits hb]
  rwa [Shape.read_ofInt hbits hb]

theorem exists_bvFunction? {op : SourceBinaryOp} (hop : op ≠ .exp) (signed : Bool) :
    ∃ function, op.bvFunction? signed = some function := by
  cases op <;> first | exact ⟨_, rfl⟩ | exact absurd rfl hop

theorem run_encode_bitvector {op : SourceBinaryOp} {shape : Shape} {function : BvBinaryOp}
    (hfunction : op.bvFunction? shape.signed = some function) {s : Session}
    (hs : s.encoding = .bitvector) (lhs rhs : Expr) (node : Option NodeId) :
    (op.encode shape lhs rhs node).run s =
      (.exact (.bvBinary function shape.bits lhs rhs),
        s.declare (function.declaration shape.bits)) := by
  simp only [encode, StateT.run_bind, Session.run_getEncoding, hs, hfunction, Session.bvBinary]
  rfl

/-- An operator of the bitvector encoding never has a condition. -/
theorem condition_encode_bitvector (op : SourceBinaryOp) {s : Session}
    (hs : s.encoding = .bitvector) (shape : Shape) (lhs rhs : Expr) (node : Option NodeId) :
    ∃ encoded s', (op.encode shape lhs rhs node).run s = (encoded, s') ∧
      encoded.condition = none := by
  cases hfunction : op.bvFunction? shape.signed with
  | some function => exact ⟨_, _, run_encode_bitvector hfunction hs lhs rhs node, rfl⟩
  | none =>
    cases hpower : literalBvPower? lhs rhs shape.bits with
    | none =>
      refine ⟨.error, s.report node (op.unsupported .bitvector), ?_, rfl⟩
      simp only [encode, StateT.run_bind, Session.run_getEncoding, hs, hfunction, hpower,
        Session.orReport]
      rfl
    | some power =>
      refine ⟨.exact power, s, ?_, rfl⟩
      simp only [encode, StateT.run_bind, Session.run_getEncoding, hs, hfunction, hpower,
        Session.orReport]
      rfl

/-- Arithmetic on bitvectors: every operator but the power yields its meaning on the integers of its
operands, wherever it has one. -/
theorem encode_bitvector (op : SourceBinaryOp) {s : Session} (hs : s.encoding = .bitvector)
    (shape : Shape) (lhs rhs : Expr) (node : Option NodeId) :
    ∃ encoded s', (op.encode shape lhs rhs node).run s = (encoded, s') ∧
      encoded.condition = none ∧
      ∀ (store : Store) (a b : Int), op ≠ .exp → 0 < shape.bits →
        lhs.eval store = .ok (.bvOf a shape.bits) → rhs.eval store = .ok (.bvOf b shape.bits) →
        shape.Contains a → shape.Contains b → op.Defined b →
        encoded.value.eval store = .ok (op.meaning shape.bits a b) := by
  obtain ⟨encoded, s', hrun, hcondition⟩ := condition_encode_bitvector op hs shape lhs rhs node
  refine ⟨encoded, s', hrun, hcondition, ?_⟩
  intro store a b hop hbits hl hr ha hb hdefined
  obtain ⟨function, hfunction⟩ := exists_bvFunction? hop shape.signed
  have hvalue : encoded.value = .bvBinary function shape.bits lhs rhs := by
    rw [run_encode_bitvector hfunction hs lhs rhs node] at hrun
    cases hrun
    rfl
  rw [Value.bvOf_eq_ofBits] at hl hr
  rw [hvalue, Expr.eval_bvBinary_of_bits hl hr, smtLib_eq_meaning hfunction,
    Shape.read_ofInt hbits ha, Shape.read_ofInt hbits hb]
  rwa [Shape.read_ofInt hbits hb]

/-- The quotient of the least signed number of eight bits by minus one is the number itself. -/
theorem encode_bitvector_div_smallest :
    ∃ encoded s', (SourceBinaryOp.div.encode ⟨8, true⟩ (.bv 128 8) (.bv 255 8) none).run
        (Session.start ⟨.bitvector, false⟩) = (encoded, s') ∧
      encoded.condition = none ∧ encoded.value.eval .empty = .ok (.bv 128 8) := by
  have hs : (Session.start ⟨.bitvector, false⟩).encoding = .bitvector := rfl
  obtain ⟨encoded, s', hrun, hcondition, hvalue⟩ :=
    encode_bitvector .div hs ⟨8, true⟩ (.bv 128 8) (.bv 255 8) none
  refine ⟨encoded, s', hrun, hcondition, ?_⟩
  have hquotient : SourceBinaryOp.div.meaning 8 (-128) (-1) = .bv 128 8 := by decide
  rw [← hquotient]
  have hdefined : SourceBinaryOp.div.Defined (-1) := fun h => absurd h (by decide)
  exact hvalue .empty (-128) (-1) (by decide) (by decide) rfl rfl (by decide) (by decide) hdefined

end SourceBinaryOp

end SolidityEncoding
