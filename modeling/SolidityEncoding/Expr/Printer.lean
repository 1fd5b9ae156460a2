import SolidityEncoding.Expr.Basic

/-!
# Text of expressions

`Expr.render` writes an expression as Boogie source, with parentheses exactly where the operand
binds looser than its place requires.  `Expr.strength` is how tightly an expression binds; the
places of the operands of a binary operator are `BinaryOp.placeLeft` and `BinaryOp.placeRight`.

An extraction is written with the exclusive upper bound `hi + 1`, which has to be a 32-bit number
like `hi` itself.  `Expr.isPrintable` says that all of them are, and `Expr.render?` gives the text
in that case only.
-/

namespace SolidityEncoding

/-! ### How tightly each kind of expression binds, loosest first -/

namespace Strength

def conditional : Nat := 0
def implication : Nat := 1
def logical : Nat := 2
def relation : Nat := 4
def additive : Nat := 6
def multiplicative : Nat := 7
def unary : Nat := 8
def postfixed : Nat := 9
def atom : Nat := 10

end Strength

/-- How tightly an operator binds. -/
def BinaryOp.strength : BinaryOp → Nat
  | .implies => Strength.implication
  | .and | .or => Strength.logical
  | .eq | .neq | .lt | .gt | .lte | .gte => Strength.relation
  | .add | .sub => Strength.additive
  | .mul | .div | .mod => Strength.multiplicative

namespace Expr

/-- How tightly an expression binds.  A negative literal is written with a leading minus sign. -/
def strength : Expr → Nat
  | .ite .. => Strength.conditional
  | .binary op _ _ => op.strength
  | .unary .. => Strength.unary
  | .int value => if value < 0 then Strength.unary else Strength.atom
  | .select .. | .update .. | .extract .. => Strength.postfixed
  | _ => Strength.atom

/-- Whether an expression is an application of the given binary operator. -/
def isApplicationOf (op : BinaryOp) : Expr → Bool
  | .binary other _ _ => other == op
  | _ => false

end Expr

/-- The least strength that a left operand needs to stand without parentheses.  Relations do not
associate, implication associates to the right, and a conjunction may only follow a conjunction
and a disjunction a disjunction. -/
def BinaryOp.placeLeft (op : BinaryOp) (lhs : Expr) : Nat :=
  match op with
  | .implies => op.strength + 1
  | .and | .or => if lhs.isApplicationOf op then op.strength else op.strength + 1
  | .eq | .neq | .lt | .gt | .lte | .gte => op.strength + 1
  | .add | .sub | .mul | .div | .mod => op.strength

/-- The least strength that a right operand needs to stand without parentheses. -/
def BinaryOp.placeRight (op : BinaryOp) : Nat :=
  match op with
  | .implies => op.strength
  | _ => op.strength + 1

/-- The least strength that an operand needs after a unary operator.  Two minus signs in a row
would read as one token. -/
def UnaryOp.place (op : UnaryOp) (operand : Expr) : Nat :=
  match op with
  | .not => Strength.unary
  | .neg => if operand.strength = Strength.unary then Strength.atom else Strength.unary

/-- The text of an operand of strength `strength` at a place that needs `place`. -/
def enclose (place strength : Nat) (text : String) : String :=
  if strength < place then "(" ++ text ++ ")" else text

namespace Expr

/-- The text of the error placeholder. -/
def errorText : String := "__ERROR"

mutual

/-- The text of an expression, parenthesized only where its place requires it. -/
def render : Expr → String
  | .bool value => if value then "true" else "false"
  | .int value => toString value
  | .bv value width => toString value ++ "bv" ++ toString width.toNat
  | .ident name => name
  | .error => errorText
  | .unary op operand =>
    op.symbol ++ enclose (op.place operand) operand.strength operand.render
  | .binary op lhs rhs =>
    enclose (op.placeLeft lhs) lhs.strength lhs.render ++ " " ++ op.symbol ++ " " ++
      enclose op.placeRight rhs.strength rhs.render
  | .ite cond thenExpr elseExpr =>
    "if " ++ cond.render ++ " then " ++ thenExpr.render ++ " else " ++ elseExpr.render
  | .select base index =>
    enclose Strength.postfixed base.strength base.render ++ "[" ++ index.render ++ "]"
  | .update base index value =>
    enclose Strength.postfixed base.strength base.render ++ "[" ++ index.render ++ " := " ++
      value.render ++ "]"
  | .tuple elements => "(" ++ ", ".intercalate (renderAll elements) ++ ")"
  | .bvUnary op width operand => op.functionName width ++ "(" ++ operand.render ++ ")"
  | .bvBinary op width lhs rhs =>
    op.functionName width ++ "(" ++ lhs.render ++ ", " ++ rhs.render ++ ")"
  | .extend kind source target operand =>
    kind.functionName source target ++ "(" ++ operand.render ++ ")"
  | .extract operand hi lo =>
    enclose Strength.postfixed operand.strength operand.render ++ "[" ++
      toString (hi.toNat + 1) ++ ":" ++ toString lo.toNat ++ "]"

/-- The texts of a list of expressions. -/
def renderAll : List Expr → List String
  | [] => []
  | e :: rest => e.render :: renderAll rest

end

mutual

/-- Whether the exclusive upper bound of every extraction is a 32-bit number. -/
def isPrintable : Expr → Bool
  | .bool _ | .int _ | .bv _ _ | .ident _ | .error => true
  | .unary _ operand => operand.isPrintable
  | .binary _ lhs rhs => lhs.isPrintable && rhs.isPrintable
  | .ite cond thenExpr elseExpr =>
    cond.isPrintable && thenExpr.isPrintable && elseExpr.isPrintable
  | .select base index => base.isPrintable && index.isPrintable
  | .update base index value => base.isPrintable && index.isPrintable && value.isPrintable
  | .tuple elements => allPrintable elements
  | .bvUnary _ _ operand => operand.isPrintable
  | .bvBinary _ _ lhs rhs => lhs.isPrintable && rhs.isPrintable
  | .extend _ _ _ operand => operand.isPrintable
  | .extract operand hi _ => operand.isPrintable && decide (hi.toNat + 1 < UInt32.size)

/-- Whether all expressions of a list are printable. -/
def allPrintable : List Expr → Bool
  | [] => true
  | e :: rest => e.isPrintable && allPrintable rest

end

/-- The text of an expression, if it is printable. -/
def render? (e : Expr) : Option String := if e.isPrintable then some e.render else none

end Expr

end SolidityEncoding
