import SolidityEncoding.Expr.Basic
import SolidityEncoding.Text.Quoted

/-!
# Outlines of expressions

The outline of an expression names every node and every part of it, so that two different
expressions never look alike in a message.
-/

namespace SolidityEncoding.Expr

/-- A node with one unnamed part. -/
def outlineOne (node part : String) : String := node ++ "(" ++ part ++ ")"

/-- A node with named parts. -/
def outlineNamed (node : String) (parts : List (String × String)) : String :=
  node ++ " \x7b " ++ ", ".intercalate (parts.map fun part => part.1 ++ ": " ++ part.2) ++ " \x7d"

mutual

/-- The outline of an expression. -/
def outline : Expr → String
  | .bool value => outlineOne "BoolLit" (if value then "true" else "false")
  | .int value => outlineOne "IntLit" (toString value)
  | .bv value width =>
    outlineNamed "BvLit" [("value", toString value), ("width", toString width.toNat)]
  | .ident name => outlineOne "Id" (Text.quote name)
  | .unary op operand => outlineNamed "Unary" [("op", op.name), ("operand", operand.outline)]
  | .binary op lhs rhs =>
    outlineNamed "Binary" [("op", op.name), ("lhs", lhs.outline), ("rhs", rhs.outline)]
  | .ite cond thenExpr elseExpr =>
    outlineNamed "Cond" [("cond", cond.outline), ("then_expr", thenExpr.outline),
      ("else_expr", elseExpr.outline)]
  | .select base index =>
    outlineNamed "Select" [("base", base.outline), ("index", index.outline)]
  | .update base index value =>
    outlineNamed "Update" [("base", base.outline), ("index", index.outline),
      ("value", value.outline)]
  | .tuple elements => outlineOne "Tuple" ("[" ++ ", ".intercalate (outlineAll elements) ++ "]")
  | .bvUnary op width operand =>
    outlineNamed "BvUnary" [("op", op.name), ("width", toString width.toNat),
      ("operand", operand.outline)]
  | .bvBinary op width lhs rhs =>
    outlineNamed "BvBinary" [("op", op.name), ("width", toString width.toNat),
      ("lhs", lhs.outline), ("rhs", rhs.outline)]
  | .extend kind source target operand =>
    outlineNamed "BvExtend" [("kind", kind.name), ("from", toString source.toNat),
      ("to", toString target.toNat), ("operand", operand.outline)]
  | .extract operand hi lo =>
    outlineNamed "BvExtract" [("operand", operand.outline), ("hi", toString hi.toNat),
      ("lo", toString lo.toNat)]
  | .error => "Error"

/-- The outlines of a list of expressions. -/
def outlineAll : List Expr → List String
  | [] => []
  | e :: rest => e.outline :: outlineAll rest

end

end SolidityEncoding.Expr
