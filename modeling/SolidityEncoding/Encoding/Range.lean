import SolidityEncoding.Expr.Basic
import SolidityEncoding.Source.Basic

/-!
# Ranges of integer types

The numbers of an integer type of `bits` bits are `0` to `2 ^ bits - 1` without a sign and
`-2 ^ (bits - 1)` to `2 ^ (bits - 1) - 1` with one.  This module has the range as a predicate
(`Shape.Contains`), as a function that wraps every integer into it (`Shape.wrap`), and as an
expression of the verification language (`rangeConstraint`).
-/

namespace SolidityEncoding

/-- The number of words of `bits` bits, as an integer. -/
def pow2 (bits : UInt32) : Int := (Word.modulus bits : Int)

/-- Half the number of words of `bits` bits; one if there are no bits. -/
def half (bits : UInt32) : Int := (Word.twoPow (bits.toNat - 1) : Int)

/-- The least signed number of `bits` bits. -/
def smallestSigned (bits : UInt32) : Int := -half bits

/-- The greatest signed number of `bits` bits. -/
def largestSigned (bits : UInt32) : Int := half bits - 1

namespace Shape

/-- The least number of a shape. -/
def lowest (shape : Shape) : Int := if shape.signed then smallestSigned shape.bits else 0

/-- The greatest number of a shape. -/
def highest (shape : Shape) : Int :=
  if shape.signed then largestSigned shape.bits else pow2 shape.bits - 1

/-- An integer is a number of a shape. -/
def Contains (shape : Shape) (value : Int) : Prop := shape.lowest ≤ value ∧ value ≤ shape.highest

instance (shape : Shape) (value : Int) : Decidable (shape.Contains value) :=
  inferInstanceAs (Decidable (_ ∧ _))

/-- The number of a shape that is congruent to an integer. -/
def wrap (shape : Shape) (value : Int) : Int :=
  let wrapped := repeatedRemainder value (pow2 shape.bits)
  if shape.signed ∧ wrapped > largestSigned shape.bits then wrapped - pow2 shape.bits else wrapped

theorem wrap_eq_emod (shape : Shape) (value : Int) :
    shape.wrap value =
      if shape.signed ∧ value % pow2 shape.bits > largestSigned shape.bits then
        value % pow2 shape.bits - pow2 shape.bits
      else value % pow2 shape.bits := by
  have hpos : 0 < pow2 shape.bits := Int.natCast_pos.2 (Word.modulus_pos shape.bits)
  simp only [wrap, repeatedRemainder_eq_emod hpos]

end Shape

/-- The expression that `e` is between two integers, both included. -/
def between (lowest highest : Int) (e : Expr) : Expr :=
  .binary .and (.binary .lte (.int lowest) e) (.binary .lte e (.int highest))

/-- The condition that an expression has a value of a type.  An enumeration is bounded by the
number of its members, and a type without bounds has no condition. -/
def rangeConstraint (e : Expr) (type : SourceType) : Expr :=
  match type with
  | .enum _ members =>
    .binary .and (.binary .lte (.int 0) e) (.binary .lt e (.int members.length))
  | type =>
    match type.shape? with
    | some shape => between shape.lowest shape.highest e
    | none => .bool true

end SolidityEncoding
