import SolidityEncoding.Encoding.Range
import SolidityEncoding.Encoding.Session
import SolidityEncoding.Word.Power

/-!
# Arithmetic

`SourceBinaryOp.encode` and `SourceUnaryOp.encode` give the value of an operation on encoded
operands.  Where an encoding wraps silently, the value comes with the condition that it is the
exact result.  An operation that the encoding has no counterpart of is reported, and its value is
the error placeholder, so that encoding can go on.

In the modular encoding the operands are taken to be in range, so that a sum or a difference is
back in range after one step of the modulus.  Quotients are Euclidean there and in the mathematical
encoding, while bitvectors round towards zero.
-/

namespace SolidityEncoding

/-- A value, with the condition under which it is the exact result if it need not be. -/
structure Encoded where
  value : Expr
  condition : Option Expr
  deriving DecidableEq, Inhabited

namespace Encoded

/-- A value that is always the exact result. -/
def exact (value : Expr) : Encoded := ⟨value, none⟩

/-- A value that is the exact result if it equals `raw`. -/
def wrapping (raw value : Expr) : Encoded := ⟨value, some (.binary .eq raw value)⟩

/-- No value. -/
def error : Encoded := .exact .error

/-- Whether there is no value. -/
def isError (encoded : Encoded) : Bool := encoded.value.isError

end Encoded

/-- The power of two integer literals, if the exponent is a 32-bit number. -/
def literalPower? (base exponent : Expr) : Option Int :=
  match base.intLit?, exponent.intLit? with
  | some base, some exponent =>
    if 0 ≤ exponent ∧ exponent < UInt32.size then some (Int.pow base exponent.toNat)
    else none
  | _, _ => none

/-- The power of two bitvector literals, in `bits` bits. -/
def literalBvPower? (base exponent : Expr) (bits : UInt32) : Option Expr :=
  match base.bvLit?, exponent.bvLit? with
  | some (base, _), some (exponent, _) =>
    some (.bvOf (Word.powMod (Word.modulus bits) base exponent) bits)
  | _, _ => none

theorem literalBvPower?_bv (base exponent : Nat) (width bits : UInt32) :
    literalBvPower? (.bv base width) (.bv exponent width) bits =
      some (.bv (Nat.pow base exponent % Word.modulus bits) bits) := by
  have hlt : Nat.pow base exponent % Word.modulus bits < Word.modulus bits :=
    Nat.mod_lt _ (Word.modulus_pos bits)
  simp only [literalBvPower?, Expr.bvLit?, Word.powMod_eq, Expr.bvOf_of_lt hlt]

namespace Modular

/-! ### Values of the modular encoding -/

/-- Moves a number that is one modulus out of the signed range back into it. -/
def wrapSigned (bits : UInt32) (raw : Expr) : Expr :=
  .ite (.binary .gt raw (.int (largestSigned bits)))
    (.binary .sub raw (.int (pow2 bits)))
    (.ite (.binary .lt raw (.int (smallestSigned bits)))
      (.binary .add raw (.int (pow2 bits)))
      raw)

/-- The unsigned number that is congruent to a signed one. -/
def toUnsigned (bits : UInt32) (e : Expr) : Expr :=
  .ite (.binary .gte e (.int 0)) e (.binary .add (.int (pow2 bits)) e)

/-- The sum. -/
def add (shape : Shape) (lhs rhs : Expr) : Encoded :=
  let sum := .binary .add lhs rhs
  .wrapping sum <|
    if shape.signed then wrapSigned shape.bits sum
    else
      .ite (.binary .gte sum (.int (pow2 shape.bits)))
        (.binary .sub sum (.int (pow2 shape.bits)))
        sum

/-- The difference. -/
def sub (shape : Shape) (lhs rhs : Expr) : Encoded :=
  let difference := .binary .sub lhs rhs
  .wrapping difference <|
    if shape.signed then wrapSigned shape.bits difference
    else
      .ite (.binary .gte lhs rhs)
        difference
        (.binary .add difference (.int (pow2 shape.bits)))

/-- The product.  A signed product is taken of the unsigned numbers and then moved back. -/
def mul (shape : Shape) (lhs rhs : Expr) : Encoded :=
  let product := .binary .mul lhs rhs
  let modulus := .int (pow2 shape.bits)
  .wrapping product <|
    if shape.signed then
      let wrapped :=
        .binary .mod
          (.binary .mul (toUnsigned shape.bits lhs) (toUnsigned shape.bits rhs))
          modulus
      .ite (.binary .gt wrapped (.int (largestSigned shape.bits)))
        (.binary .sub wrapped modulus)
        wrapped
    else .ite (.binary .gte product modulus) (.binary .mod product modulus) product

/-- The Euclidean quotient. -/
def div (shape : Shape) (lhs rhs : Expr) : Encoded :=
  let quotient := .binary .div lhs rhs
  .wrapping quotient (if shape.signed then wrapSigned shape.bits quotient else quotient)

/-- The power of literals. -/
def power (shape : Shape) (exact : Int) : Encoded :=
  .wrapping (.int exact) (.int (shape.wrap exact))

/-- The negation.  The least signed number is its own negation. -/
def neg (shape : Shape) (operand : Expr) : Encoded :=
  .wrapping (.unary .neg operand) <|
    if shape.signed then
      let smallest := .int (smallestSigned shape.bits)
      .ite (.binary .eq operand smallest) smallest (.unary .neg operand)
    else
      .ite (.binary .eq operand (.int 0))
        (.int 0)
        (.binary .sub (.int (pow2 shape.bits)) operand)

end Modular

namespace SourceBinaryOp

/-- The value of an operator in the mathematical encoding, if there is one. -/
def mathematical? (op : SourceBinaryOp) (lhs rhs : Expr) : Option Encoded :=
  match op with
  | .add => some (.exact (.binary .add lhs rhs))
  | .sub => some (.exact (.binary .sub lhs rhs))
  | .mul => some (.exact (.binary .mul lhs rhs))
  | .div => some (.exact (.binary .div lhs rhs))
  | .mod => some (.exact (.binary .mod lhs rhs))
  | .lt => some (.exact (.binary .lt lhs rhs))
  | .gt => some (.exact (.binary .gt lhs rhs))
  | .lte => some (.exact (.binary .lte lhs rhs))
  | .gte => some (.exact (.binary .gte lhs rhs))
  | .exp => (literalPower? lhs rhs).map fun power => .exact (.int power)
  | .bitAnd | .bitOr | .bitXor | .shl | .sar => none

/-- The value of an operator in the modular encoding, if there is one. -/
def modular? (op : SourceBinaryOp) (shape : Shape) (lhs rhs : Expr) : Option Encoded :=
  match op with
  | .add => some (Modular.add shape lhs rhs)
  | .sub => some (Modular.sub shape lhs rhs)
  | .mul => some (Modular.mul shape lhs rhs)
  | .div => some (Modular.div shape lhs rhs)
  | .lt => some (.exact (.binary .lt lhs rhs))
  | .gt => some (.exact (.binary .gt lhs rhs))
  | .lte => some (.exact (.binary .lte lhs rhs))
  | .gte => some (.exact (.binary .gte lhs rhs))
  | .exp => (literalPower? lhs rhs).map (Modular.power shape)
  | .mod | .bitAnd | .bitOr | .bitXor | .shl | .sar => none

/-- The bitvector function that an operator is, if it is one. -/
def bvFunction? (op : SourceBinaryOp) (signed : Bool) : Option BvBinaryOp :=
  match op with
  | .add => some .add
  | .sub => some .sub
  | .mul => some .mul
  | .div => some (if signed then .sdiv else .udiv)
  | .mod => some (if signed then .srem else .urem)
  | .bitAnd => some .and
  | .bitOr => some .or
  | .bitXor => some .xor
  | .shl => some .shl
  | .sar => some (if signed then .ashr else .lshr)
  | .lt => some (if signed then .slt else .ult)
  | .gt => some (if signed then .sgt else .ugt)
  | .lte => some (if signed then .sle else .ule)
  | .gte => some (if signed then .sge else .uge)
  | .exp => none

/-- The error that reports an operator without a counterpart. -/
def unsupported (op : SourceBinaryOp) (encoding : Encoding) : EncodingError :=
  match op with
  | .exp => .unsupportedExponentiation encoding
  | op => .unsupportedBinary encoding op

end SourceBinaryOp

/-- The value of an operation; if there is none, its error is reported and the value is the error
placeholder. -/
def Session.orReport (node : Option NodeId) (error : EncodingError) :
    Option Encoded → Encode Encoded
  | some encoded => return encoded
  | none => do
    modify (·.report node error)
    return .error

/-- Encodes a binary operation on operands of a shape, for a node of the source program. -/
def SourceBinaryOp.encode (op : SourceBinaryOp) (shape : Shape) (lhs rhs : Expr)
    (node : Option NodeId) : Encode Encoded := do
  let encoding ← Session.getEncoding
  let report := Session.orReport node (op.unsupported encoding)
  match encoding with
  | .mathematical => report (op.mathematical? lhs rhs)
  | .modular => report (op.modular? shape lhs rhs)
  | .bitvector =>
    match op.bvFunction? shape.signed with
    | some function => return .exact (← Session.bvBinary function shape.bits lhs rhs)
    | none => report ((literalBvPower? lhs rhs shape.bits).map .exact)

/-- Encodes a unary operation on an operand of a shape, for a node of the source program. -/
def SourceUnaryOp.encode (op : SourceUnaryOp) (shape : Shape) (operand : Expr)
    (node : Option NodeId) : Encode Encoded := do
  let encoding ← Session.getEncoding
  match encoding, op with
  | .mathematical, .neg => return .exact (.unary .neg operand)
  | .modular, .neg => return Modular.neg shape operand
  | .bitvector, .neg => return .exact (← Session.bvUnary .neg shape.bits operand)
  | .bitvector, .bitNot => return .exact (← Session.bvUnary .not shape.bits operand)
  | _, .bitNot => Session.orReport node (.unsupportedUnary encoding op) none

end SolidityEncoding
