import Mathlib.Algebra.Order.Group.Unbundled.Int
import SolidityEncoding.Encoding.Arithmetic
import SolidityEncoding.Encoding.Conversion
import SolidityEncoding.Proofs.Evaluation
import SolidityEncoding.Proofs.Range
import SolidityEncoding.Proofs.Session

/-!
# The modular encoding computes modulo a power of two

Under the modular encoding an operation on numbers of a shape yields the exact result reduced into
the shape, and its condition says that the exact result needs no reduction (`Encoded.Wraps`).  Each
operator has its own way back into the range; all of them are compared with `Shape.wrap`, the only
number of the shape that is congruent to the exact result.
-/

namespace SolidityEncoding

/-- An encoded operation has the exact result reduced into a shape as its value, and a condition
that says whether the exact result is a number of the shape. -/
structure Encoded.Wraps (encoded : Encoded) (store : Store) (shape : Shape) (exact : Int) :
    Prop where
  value : ∃ reduced, encoded.value.eval store = .ok (.int reduced) ∧ shape.Reduces exact reduced
  condition : ∃ condition, encoded.condition = some condition ∧
    condition.eval store = .ok (.bool (decide (shape.Contains exact)))

/-- Neither the value nor the condition of an encoded operation can be evaluated. -/
structure Encoded.FailsWith (encoded : Encoded) (store : Store) (error : EvalError) : Prop where
  value : encoded.value.eval store = .error error
  condition : ∃ condition, encoded.condition = some condition ∧
    condition.eval store = .error error

theorem Encoded.Wraps.value_eq {encoded : Encoded} {store : Store} {shape : Shape} {exact : Int}
    (h : encoded.Wraps store shape exact) (hbits : 0 < shape.bits) :
    encoded.value.eval store = .ok (.int (shape.wrap exact)) := by
  obtain ⟨reduced, hv, hr⟩ := h.value
  rw [hv, Shape.eq_wrap hbits hr.contains hr.modEq]

theorem Encoded.Wraps.contains_of_condition {encoded : Encoded} {store : Store} {shape : Shape}
    {exact : Int} (h : encoded.Wraps store shape exact)
    (hholds : ∀ condition, encoded.condition = some condition →
      condition.eval store = .ok (.bool true)) : shape.Contains exact := by
  obtain ⟨condition, hsome, hvalue⟩ := h.condition
  have htrue := hholds condition hsome
  rw [hvalue] at htrue
  simpa using htrue

/-- A value that is the exact result reduced comes with the right condition. -/
theorem Encoded.wraps_wrapping {store : Store} {shape : Shape} (hbits : 0 < shape.bits)
    {raw value : Expr} {exact : Int} (hraw : raw.eval store = .ok (.int exact))
    (hvalue : value.eval store = .ok (.int (shape.wrap exact))) :
    (Encoded.wrapping raw value).Wraps store shape exact where
  value := ⟨_, hvalue, Shape.reduces_wrap hbits exact⟩
  condition := by
    refine ⟨_, rfl, ?_⟩
    rw [Expr.eval_eq_of_int hraw hvalue]
    simp only [Shape.eq_wrap_iff hbits]

namespace Modular

variable {store : Store} {shape : Shape} {bits : UInt32}

/-! ### Steps back into the range -/

theorem sub_pow2_modEq (x : Int) : x - pow2 bits ≡ x [ZMOD pow2 bits] := by
  rw [Int.ModEq, Int.sub_emod_right]

theorem add_pow2_modEq (x : Int) : x + pow2 bits ≡ x [ZMOD pow2 bits] := by
  rw [Int.ModEq, Int.add_emod_right]

/-- One step of the modulus suffices for a number that is at most one modulus out of range. -/
theorem eval_wrapSigned (hbits : 0 < bits) {raw : Expr} {x : Int}
    (hraw : raw.eval store = .ok (.int x)) (hlow : -(pow2 bits + half bits) ≤ x)
    (hhigh : x < pow2 bits + half bits) :
    (wrapSigned bits raw).eval store = .ok (.int (Shape.wrap ⟨bits, true⟩ x)) := by
  have hhalf := pow2_eq_two_mul_half hbits
  have hgt : (Expr.binary .gt raw (.int (largestSigned bits))).eval store =
      .ok (.bool (decide (x > largestSigned bits))) :=
    Expr.eval_binary_of_int rfl hraw (Expr.eval_int _ _)
  have hlt : (Expr.binary .lt raw (.int (smallestSigned bits))).eval store =
      .ok (.bool (decide (x < smallestSigned bits))) :=
    Expr.eval_binary_of_int rfl hraw (Expr.eval_int _ _)
  have hsub : (Expr.binary .sub raw (.int (pow2 bits))).eval store = .ok (.int (x - pow2 bits)) :=
    Expr.eval_binary_of_int rfl hraw (Expr.eval_int _ _)
  have hadd : (Expr.binary .add raw (.int (pow2 bits))).eval store = .ok (.int (x + pow2 bits)) :=
    Expr.eval_binary_of_int rfl hraw (Expr.eval_int _ _)
  rw [wrapSigned, Expr.eval_ite_of_bool hgt, Expr.eval_ite_of_bool hlt, hsub, hadd, hraw]
  by_cases habove : x > largestSigned bits
  · have hc : Shape.Contains ⟨bits, true⟩ (x - pow2 bits) := by
      rw [Shape.contains_signed_iff]
      unfold largestSigned at habove
      omega
    rw [if_pos habove, Shape.eq_wrap hbits hc (sub_pow2_modEq x)]
  rw [if_neg habove]
  by_cases hbelow : x < smallestSigned bits
  · have hc : Shape.Contains ⟨bits, true⟩ (x + pow2 bits) := by
      rw [Shape.contains_signed_iff]
      unfold smallestSigned at hbelow
      omega
    rw [if_pos hbelow, Shape.eq_wrap hbits hc (add_pow2_modEq x)]
  · have hc : Shape.Contains ⟨bits, true⟩ x := by
      rw [Shape.contains_signed_iff]
      unfold largestSigned at habove
      unfold smallestSigned at hbelow
      omega
    rw [if_neg hbelow, ← Shape.eq_wrap hbits hc rfl]

/-- The reduction of any integer: its remainder, moved into the signed range if necessary. -/
theorem eval_wrapExpr (shape : Shape) {e : Expr} {x : Int} (h : e.eval store = .ok (.int x)) :
    (shape.wrapExpr e).eval store = .ok (.int (shape.wrap x)) := by
  obtain ⟨bits, signed⟩ := shape
  have hmod : (Expr.binary .mod e (.int (pow2 bits))).eval store = .ok (.int (x % pow2 bits)) :=
    Expr.eval_mod_of_int h (Expr.eval_int _ _) (pow2_pos bits).ne'
  rw [Shape.wrap_eq_emod]
  cases signed
  · exact hmod
  have hgt : (Expr.binary .gt (.binary .mod e (.int (pow2 bits))) (.int (largestSigned bits))).eval
      store = .ok (.bool (decide (x % pow2 bits > largestSigned bits))) :=
    Expr.eval_binary_of_int rfl hmod (Expr.eval_int _ _)
  have hsub : (Expr.binary .sub (.binary .mod e (.int (pow2 bits))) (.int (pow2 bits))).eval store =
      .ok (.int (x % pow2 bits - pow2 bits)) :=
    Expr.eval_binary_of_int rfl hmod (Expr.eval_int _ _)
  simp only [Shape.wrapExpr, if_true, true_and]
  rw [Expr.eval_ite_of_bool hgt, hsub, hmod]
  split <;> rfl

theorem eval_toUnsigned (bits : UInt32) {e : Expr} {x : Int} (h : e.eval store = .ok (.int x)) :
    ∃ y, (toUnsigned bits e).eval store = .ok (.int y) ∧ y ≡ x [ZMOD pow2 bits] := by
  have hge : (Expr.binary .gte e (.int 0)).eval store = .ok (.bool (decide (x ≥ 0))) :=
    Expr.eval_binary_of_int rfl h (Expr.eval_int _ _)
  have hadd : (Expr.binary .add (.int (pow2 bits)) e).eval store = .ok (.int (pow2 bits + x)) :=
    Expr.eval_binary_of_int rfl (Expr.eval_int _ _) h
  rw [toUnsigned, Expr.eval_ite_of_bool hge, h, hadd]
  split
  · exact ⟨x, rfl, rfl⟩
  · exact ⟨pow2 bits + x, rfl, by rw [Int.add_comm]; exact add_pow2_modEq x⟩

/-! ### Operations -/

section Operations

variable {lhs rhs : Expr} {a b : Int}

theorem add_wraps (hbits : 0 < shape.bits) (hl : lhs.eval store = .ok (.int a))
    (hr : rhs.eval store = .ok (.int b)) (ha : shape.Contains a) (hb : shape.Contains b) :
    (add shape lhs rhs).Wraps store shape (a + b) := by
  have hsum : (Expr.binary .add lhs rhs).eval store = .ok (.int (a + b)) :=
    Expr.eval_binary_of_int rfl hl hr
  refine Encoded.wraps_wrapping hbits hsum ?_
  obtain ⟨bits, _ | _⟩ := shape
  · rw [Shape.contains_unsigned_iff] at ha hb
    have hge : (Expr.binary .gte (.binary .add lhs rhs) (.int (pow2 bits))).eval store =
        .ok (.bool (decide (a + b ≥ pow2 bits))) :=
      Expr.eval_binary_of_int rfl hsum (Expr.eval_int _ _)
    have hsub : (Expr.binary .sub (.binary .add lhs rhs) (.int (pow2 bits))).eval store =
        .ok (.int (a + b - pow2 bits)) :=
      Expr.eval_binary_of_int rfl hsum (Expr.eval_int _ _)
    simp only [Bool.false_eq_true, if_false]
    rw [Expr.eval_ite_of_bool hge, hsub, hsum]
    by_cases h : a + b ≥ pow2 bits
    · have hc : Shape.Contains ⟨bits, false⟩ (a + b - pow2 bits) := by
        rw [Shape.contains_unsigned_iff]
        omega
      rw [if_pos h, Shape.eq_wrap hbits hc (sub_pow2_modEq (a + b))]
    · have hc : Shape.Contains ⟨bits, false⟩ (a + b) := by
        rw [Shape.contains_unsigned_iff]
        omega
      rw [if_neg h, ← Shape.eq_wrap hbits hc rfl]
  · rw [Shape.contains_signed_iff] at ha hb
    have hhalf : pow2 bits = 2 * half bits := pow2_eq_two_mul_half hbits
    have hlow : -(pow2 bits + half bits) ≤ a + b := by omega
    have hhigh : a + b < pow2 bits + half bits := by omega
    exact eval_wrapSigned hbits hsum hlow hhigh

theorem sub_wraps (hbits : 0 < shape.bits) (hl : lhs.eval store = .ok (.int a))
    (hr : rhs.eval store = .ok (.int b)) (ha : shape.Contains a) (hb : shape.Contains b) :
    (sub shape lhs rhs).Wraps store shape (a - b) := by
  have hdiff : (Expr.binary .sub lhs rhs).eval store = .ok (.int (a - b)) :=
    Expr.eval_binary_of_int rfl hl hr
  refine Encoded.wraps_wrapping hbits hdiff ?_
  obtain ⟨bits, _ | _⟩ := shape
  · rw [Shape.contains_unsigned_iff] at ha hb
    have hge : (Expr.binary .gte lhs rhs).eval store = .ok (.bool (decide (a ≥ b))) :=
      Expr.eval_binary_of_int rfl hl hr
    have hadd : (Expr.binary .add (.binary .sub lhs rhs) (.int (pow2 bits))).eval store =
        .ok (.int (a - b + pow2 bits)) :=
      Expr.eval_binary_of_int rfl hdiff (Expr.eval_int _ _)
    simp only [Bool.false_eq_true, if_false]
    rw [Expr.eval_ite_of_bool hge, hadd, hdiff]
    by_cases h : a ≥ b
    · have hc : Shape.Contains ⟨bits, false⟩ (a - b) := by
        rw [Shape.contains_unsigned_iff]
        omega
      rw [if_pos h, ← Shape.eq_wrap hbits hc rfl]
    · have hc : Shape.Contains ⟨bits, false⟩ (a - b + pow2 bits) := by
        rw [Shape.contains_unsigned_iff]
        omega
      rw [if_neg h, Shape.eq_wrap hbits hc (add_pow2_modEq (a - b))]
  · rw [Shape.contains_signed_iff] at ha hb
    have hhalf : pow2 bits = 2 * half bits := pow2_eq_two_mul_half hbits
    have hlow : -(pow2 bits + half bits) ≤ a - b := by omega
    have hhigh : a - b < pow2 bits + half bits := by omega
    exact eval_wrapSigned hbits hdiff hlow hhigh

theorem mul_wraps (hbits : 0 < shape.bits) (hl : lhs.eval store = .ok (.int a))
    (hr : rhs.eval store = .ok (.int b)) (ha : shape.Contains a) (hb : shape.Contains b) :
    (mul shape lhs rhs).Wraps store shape (a * b) := by
  have hproduct : (Expr.binary .mul lhs rhs).eval store = .ok (.int (a * b)) :=
    Expr.eval_binary_of_int rfl hl hr
  refine Encoded.wraps_wrapping hbits hproduct ?_
  obtain ⟨bits, _ | _⟩ := shape
  · rw [Shape.contains_unsigned_iff] at ha hb
    have hge : (Expr.binary .gte (.binary .mul lhs rhs) (.int (pow2 bits))).eval store =
        .ok (.bool (decide (a * b ≥ pow2 bits))) :=
      Expr.eval_binary_of_int rfl hproduct (Expr.eval_int _ _)
    simp only [Bool.false_eq_true, if_false]
    rw [Expr.eval_ite_of_bool hge, hproduct]
    by_cases h : a * b ≥ pow2 bits
    · rw [if_pos h]
      exact eval_wrapExpr ⟨bits, false⟩ hproduct
    · have hnonneg : 0 ≤ a * b := Int.mul_nonneg ha.1 hb.1
      have hc : Shape.Contains ⟨bits, false⟩ (a * b) := by
        rw [Shape.contains_unsigned_iff]
        omega
      rw [if_neg h, ← Shape.eq_wrap hbits hc rfl]
  · obtain ⟨u, hu, hau⟩ := eval_toUnsigned bits hl
    obtain ⟨v, hv, hbv⟩ := eval_toUnsigned bits hr
    have huv : (Expr.binary .mul (toUnsigned bits lhs) (toUnsigned bits rhs)).eval store =
        .ok (.int (u * v)) :=
      Expr.eval_binary_of_int rfl hu hv
    have hwrap : Shape.wrap ⟨bits, true⟩ (u * v) = Shape.wrap ⟨bits, true⟩ (a * b) :=
      Shape.wrap_eq_wrap (hau.mul hbv)
    rw [← hwrap]
    exact eval_wrapExpr ⟨bits, true⟩ huv

/-- The Euclidean quotient is no further from zero than the dividend. -/
theorem div_wraps (hbits : 0 < shape.bits) (hl : lhs.eval store = .ok (.int a))
    (hr : rhs.eval store = .ok (.int b)) (ha : shape.Contains a) (hb : shape.Contains b)
    (hzero : b ≠ 0) : (div shape lhs rhs).Wraps store shape (a / b) := by
  have hquotient : (Expr.binary .div lhs rhs).eval store = .ok (.int (a / b)) :=
    Expr.eval_div_of_int hl hr hzero
  refine Encoded.wraps_wrapping hbits hquotient ?_
  obtain ⟨bits, _ | _⟩ := shape
  · rw [Shape.contains_unsigned_iff] at ha hb
    have hnonneg : 0 ≤ a / b := Int.ediv_nonneg ha.1 hb.1
    have hle : a / b ≤ a := Int.ediv_le_self b ha.1
    have hc : Shape.Contains ⟨bits, false⟩ (a / b) := by
      rw [Shape.contains_unsigned_iff]
      omega
    rw [← Shape.eq_wrap hbits hc rfl]
    exact hquotient
  · rw [Shape.contains_signed_iff] at ha
    have hhalf : pow2 bits = 2 * half bits := pow2_eq_two_mul_half hbits
    have habs : |a| ≤ half bits := by
      rw [abs_le']
      omega
    obtain ⟨hle, hge⟩ := abs_le'.1 ((Int.abs_ediv_le_abs a b).trans habs)
    have hlow : -(pow2 bits + half bits) ≤ a / b := by omega
    have hhigh : a / b < pow2 bits + half bits := by omega
    exact eval_wrapSigned hbits hquotient hlow hhigh

/-- Every part of an encoded quotient begins with the quotient itself. -/
theorem div_failsWith (hl : lhs.eval store = .ok (.int a)) (hr : rhs.eval store = .ok (.int 0)) :
    (div shape lhs rhs).FailsWith store .divisionByZero := by
  have hquotient : (Expr.binary .div lhs rhs).eval store = .error .divisionByZero :=
    Expr.eval_binary_of_int rfl hl hr
  obtain ⟨bits, _ | _⟩ := shape
  · exact ⟨hquotient, _, rfl, Expr.eval_binary_of_error_left hquotient⟩
  · exact ⟨Expr.eval_ite_of_error (Expr.eval_binary_of_error_left hquotient), _, rfl,
      Expr.eval_binary_of_error_left hquotient⟩

theorem neg_wraps (hbits : 0 < shape.bits) (h : lhs.eval store = .ok (.int a))
    (ha : shape.Contains a) : (neg shape lhs).Wraps store shape (-a) := by
  have hneg : (Expr.unary .neg lhs).eval store = .ok (.int (-a)) := Expr.eval_neg_of_int h
  refine Encoded.wraps_wrapping hbits hneg ?_
  obtain ⟨bits, _ | _⟩ := shape
  · rw [Shape.contains_unsigned_iff] at ha
    have hsub : (Expr.binary .sub (.int (pow2 bits)) lhs).eval store =
        .ok (.int (pow2 bits - a)) :=
      Expr.eval_binary_of_int rfl (Expr.eval_int _ _) h
    simp only [Bool.false_eq_true, if_false]
    rw [Expr.eval_ite_of_bool (Expr.eval_eq_of_int h (Expr.eval_int _ _)), Expr.eval_int, hsub]
    by_cases hzero : a = 0
    · have hc : Shape.Contains ⟨bits, false⟩ 0 := by
        rw [Shape.contains_unsigned_iff]
        omega
      rw [if_pos hzero, hzero, Int.neg_zero, ← Shape.eq_wrap hbits hc rfl]
    · have hc : Shape.Contains ⟨bits, false⟩ (pow2 bits - a) := by
        rw [Shape.contains_unsigned_iff]
        omega
      have hm : pow2 bits - a ≡ -a [ZMOD pow2 bits] := by
        rw [Int.sub_eq_add_neg, Int.add_comm]
        exact add_pow2_modEq (-a)
      rw [if_neg hzero, Shape.eq_wrap hbits hc hm]
  · rw [Shape.contains_signed_iff] at ha
    have hhalf : pow2 bits = 2 * half bits := pow2_eq_two_mul_half hbits
    simp only [if_true]
    rw [Expr.eval_ite_of_bool (Expr.eval_eq_of_int h (Expr.eval_int _ _)), Expr.eval_int, hneg]
    by_cases hsmallest : a = smallestSigned bits
    · have hc : Shape.Contains ⟨bits, true⟩ a := by
        rw [Shape.contains_signed_iff]
        omega
      have hm : a ≡ -a [ZMOD pow2 bits] := by
        rw [hsmallest, smallestSigned, Int.modEq_iff_dvd]
        exact ⟨1, by omega⟩
      rw [if_pos hsmallest, ← hsmallest, ← Shape.eq_wrap hbits hc hm]
    · have hc : Shape.Contains ⟨bits, true⟩ (-a) := by
        rw [Shape.contains_signed_iff]
        unfold smallestSigned at hsmallest
        omega
      rw [if_neg hsmallest, ← Shape.eq_wrap hbits hc rfl]

end Operations

end Modular

/-! ### The operators of a session -/

namespace SourceBinaryOp

variable {op : SourceBinaryOp} {s : Session} {shape : Shape} {lhs rhs : Expr} {node : Option NodeId}

theorem run_encode_mathematical (hs : s.encoding = .mathematical) :
    (op.encode shape lhs rhs node).run s =
      (Session.orReport node (op.unsupported .mathematical) (op.mathematical? lhs rhs)).run s := by
  simp only [encode, StateT.run_bind, Session.run_getEncoding, hs]
  rfl

theorem run_encode_modular (hs : s.encoding = .modular) :
    (op.encode shape lhs rhs node).run s =
      (Session.orReport node (op.unsupported .modular) (op.modular? shape lhs rhs)).run s := by
  simp only [encode, StateT.run_bind, Session.run_getEncoding, hs]
  rfl

end SourceBinaryOp

/-- The operators whose exact result the modular encoding reduces. -/
inductive WrappedOp where
  | add
  | sub
  | mul
  | div
  deriving DecidableEq

namespace WrappedOp

/-- The operator of the source language. -/
def source : WrappedOp → SourceBinaryOp
  | .add => .add
  | .sub => .sub
  | .mul => .mul
  | .div => .div

/-- The exact result; a quotient is Euclidean. -/
def exact (op : WrappedOp) (a b : Int) : Int :=
  match op with
  | .add => a + b
  | .sub => a - b
  | .mul => a * b
  | .div => a / b

/-- The encoded operation. -/
def modular (op : WrappedOp) (shape : Shape) (lhs rhs : Expr) : Encoded :=
  match op with
  | .add => Modular.add shape lhs rhs
  | .sub => Modular.sub shape lhs rhs
  | .mul => Modular.mul shape lhs rhs
  | .div => Modular.div shape lhs rhs

theorem run_encode_modular (op : WrappedOp) {s : Session} (hs : s.encoding = .modular)
    (shape : Shape) (lhs rhs : Expr) (node : Option NodeId) :
    (op.source.encode shape lhs rhs node).run s = (op.modular shape lhs rhs, s) := by
  have h : op.source.modular? shape lhs rhs = some (op.modular shape lhs rhs) := by
    cases op <;> rfl
  rw [SourceBinaryOp.run_encode_modular hs, h]
  rfl

theorem modular_wraps (op : WrappedOp) {store : Store} {shape : Shape} (hbits : 0 < shape.bits)
    {lhs rhs : Expr} {a b : Int} (hl : lhs.eval store = .ok (.int a))
    (hr : rhs.eval store = .ok (.int b)) (ha : shape.Contains a) (hb : shape.Contains b)
    (hdefined : op = .div → b ≠ 0) :
    (op.modular shape lhs rhs).Wraps store shape (op.exact a b) := by
  cases op with
  | add => exact Modular.add_wraps hbits hl hr ha hb
  | sub => exact Modular.sub_wraps hbits hl hr ha hb
  | mul => exact Modular.mul_wraps hbits hl hr ha hb
  | div => exact Modular.div_wraps hbits hl hr ha hb (hdefined rfl)

end WrappedOp

theorem SourceUnaryOp.run_encode_neg_modular {s : Session} (hs : s.encoding = .modular)
    (shape : Shape) (operand : Expr) (node : Option NodeId) :
    (SourceUnaryOp.neg.encode shape operand node).run s = (Modular.neg shape operand, s) := by
  simp only [encode, StateT.run_bind, Session.run_getEncoding, hs]
  rfl

/-- Modular arithmetic on numbers of a shape: the value is the exact result reduced into the shape,
and the condition holds exactly if the exact result is a number of the shape.  Only a quotient by
zero has no value, and then its condition has none either. -/
theorem Modular.encode_wraps {s : Session} (hs : s.encoding = .modular) {store : Store}
    {shape : Shape} (hbits : 0 < shape.bits) {lhs : Expr} {a : Int}
    (hl : lhs.eval store = .ok (.int a)) (ha : shape.Contains a) (node : Option NodeId) :
    (∀ (op : WrappedOp) (rhs : Expr) (b : Int), rhs.eval store = .ok (.int b) →
      shape.Contains b →
      ∃ encoded, (op.source.encode shape lhs rhs node).run s = (encoded, s) ∧
        if op = .div ∧ b = 0 then encoded.FailsWith store .divisionByZero
        else encoded.Wraps store shape (op.exact a b)) ∧
    ∃ encoded, (SourceUnaryOp.neg.encode shape lhs node).run s = (encoded, s) ∧
      encoded.Wraps store shape (-a) := by
  constructor
  · intro op rhs b hr hb
    refine ⟨_, op.run_encode_modular hs shape lhs rhs node, ?_⟩
    by_cases hzero : op = .div ∧ b = 0
    · obtain ⟨rfl, rfl⟩ := hzero
      exact Modular.div_failsWith hl hr
    · rw [if_neg hzero]
      exact op.modular_wraps hbits hl hr ha hb fun hdiv hb0 => hzero ⟨hdiv, hb0⟩
  · exact ⟨_, SourceUnaryOp.run_encode_neg_modular hs shape lhs node,
      Modular.neg_wraps hbits hl ha⟩

/-- The least signed number of eight bits divided by minus one, and negated. -/
theorem Modular.encode_wraps_smallest_signed :
    let s := Session.start ⟨.modular, true⟩
    (∃ encoded,
      (SourceBinaryOp.div.encode ⟨8, true⟩ (.int (-128)) (.int (-1)) none).run s = (encoded, s) ∧
      encoded.Wraps .empty ⟨8, true⟩ 128) ∧
    ∃ encoded, (SourceUnaryOp.neg.encode ⟨8, true⟩ (.int (-128)) none).run s = (encoded, s) ∧
      encoded.Wraps .empty ⟨8, true⟩ 128 := by
  intro s
  have hs : s.encoding = .modular := rfl
  have hsmallest : Shape.Contains ⟨8, true⟩ (-128) := by decide
  have hbits : 0 < (⟨8, true⟩ : Shape).bits := by decide
  obtain ⟨hbinary, hneg⟩ :=
    Modular.encode_wraps hs hbits (Expr.eval_int .empty (-128)) hsmallest none
  exact ⟨hbinary .div (.int (-1)) (-1) (Expr.eval_int _ _) (by decide), hneg⟩

end SolidityEncoding
