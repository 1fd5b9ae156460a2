/-!
# Operators of Solidity

The operators of the source language that act on integers, by the tokens that stand for them.  A
token of a compound assignment stands for its operator.
-/

namespace SolidityEncoding

/-- A binary operator of the source language. -/
inductive SourceBinaryOp where
  | add
  | sub
  | mul
  | div
  | mod
  | exp
  | bitAnd
  | bitOr
  | bitXor
  | shl
  /-- The shift to the right, which copies the sign bit of a signed operand. -/
  | sar
  | lt
  | gt
  | lte
  | gte
  deriving DecidableEq, Inhabited

namespace SourceBinaryOp

/-- Every operator, in order of declaration. -/
def all : List SourceBinaryOp :=
  [.add, .sub, .mul, .div, .mod, .exp, .bitAnd, .bitOr, .bitXor, .shl, .sar, .lt, .gt, .lte, .gte]

/-- The token of an operator. -/
def token : SourceBinaryOp → String
  | .add => "+"
  | .sub => "-"
  | .mul => "*"
  | .div => "/"
  | .mod => "%"
  | .exp => "**"
  | .bitAnd => "&"
  | .bitOr => "|"
  | .bitXor => "^"
  | .shl => "<<"
  | .sar => ">>"
  | .lt => "<"
  | .gt => ">"
  | .lte => "<="
  | .gte => ">="

/-- Whether an operator compares. -/
def isComparison : SourceBinaryOp → Bool
  | .lt | .gt | .lte | .gte => true
  | _ => false

/-- Whether an operator has a compound assignment. -/
def hasCompound : SourceBinaryOp → Bool
  | .exp | .lt | .gt | .lte | .gte => false
  | _ => true

/-- The operator that a token stands for, alone or in a compound assignment. -/
def ofToken? (token : String) : Option SourceBinaryOp :=
  all.find? fun op => token == op.token || (op.hasCompound && token == op.token ++ "=")

end SourceBinaryOp

/-- A unary operator of the source language. -/
inductive SourceUnaryOp where
  | neg
  | bitNot
  deriving DecidableEq, Inhabited

namespace SourceUnaryOp

/-- The token of an operator. -/
def token : SourceUnaryOp → String
  | .neg => "-"
  | .bitNot => "~"

/-- The operator that a token stands for. -/
def ofToken? (token : String) : Option SourceUnaryOp :=
  [neg, bitNot].find? (·.token == token)

end SourceUnaryOp

end SolidityEncoding
