import SolidityEncoding.Expr.Basic
import SolidityEncoding.Table
import SolidityEncoding.Value.TotalMap
import SolidityEncoding.Word

/-!
# Evaluation

`Expr.eval` gives the value of an expression in a store: integers are unbounded, with Euclidean
quotient and remainder, and bitvector functions are those of SMT-LIB.  The connectives `&&`, `||`
and `==>` leave their right operand alone when the left one decides.

An expression that the typing of `Typing` accepts can only fail by dividing an integer by zero;
the other causes of `EvalError` belong to expressions that it rejects.
-/

namespace SolidityEncoding

/-- A kind of value that an operation asks for. -/
inductive ValueKind where
  | bool
  | int
  | bitvector
  | map
  deriving DecidableEq, Inhabited

/-- The name of a kind of value. -/
def ValueKind.name : ValueKind → String
  | .bool => "bool"
  | .int => "int"
  | .bitvector => "bitvector"
  | .map => "map"

/-- Why there is no value. -/
inductive EvalError where
  /-- A value is not of the kind that an operation asks for. -/
  | mismatch (kind : ValueKind) (found : Value)
  /-- A variable is not in the store. -/
  | unbound (name : String)
  /-- The error placeholder has no value. -/
  | placeholder
  /-- An integer is divided by zero. -/
  | divisionByZero
  /-- An operator that is not one of integer arithmetic is applied to integers. -/
  | notInteger (op : BinaryOp)
  /-- A bitvector function of one width is applied to bitvectors of other widths. -/
  | widthMismatch (op : BvBinaryOp) (width lhs rhs : UInt32)
  /-- The left side of an assignment is neither a variable nor a cell of a map. -/
  | notAssignable
  /-- A procedure is run on the wrong number of arguments. -/
  | argumentCount (procedure : String) (expected given : Nat)
  /-- A natural number or a width would become negative, or a width too large. -/
  | outOfRange
  deriving DecidableEq, Inhabited

namespace EvalError

/-- What is wrong, without the heading. -/
def detail : EvalError → String
  | .mismatch kind found => "expected " ++ kind.name ++ ", found " ++ found.render
  | .unbound name => name
  | .placeholder => "cannot evaluate an untranslated construct"
  | .divisionByZero => "division by zero"
  | .notInteger op => op.symbol ++ " is not an integer operation"
  | .widthMismatch op width lhs rhs =>
    op.functionName width ++ " applied to bv" ++ toString lhs.toNat ++ " and bv" ++
      toString rhs.toNat
  | .notAssignable => "left side of assignment is not an lvalue"
  | .argumentCount procedure expected given =>
    "procedure " ++ procedure ++ " expects " ++ toString expected ++ " arguments, got " ++
      toString given
  | .outOfRange => "arithmetic out of range"

/-- The text of an error. -/
def message : EvalError → String
  | .unbound name => "Unbound identifier: " ++ name
  | error => "Evaluation error: " ++ error.detail

end EvalError

/-- The values of variables. -/
abbrev Store := Table Value

namespace Value

/-- The truth value that a value is. -/
def asBool : Value → Except EvalError Bool
  | .bool value => .ok value
  | other => .error (.mismatch .bool other)

/-- The integer that a value is. -/
def asInt : Value → Except EvalError Int
  | .int value => .ok value
  | other => .error (.mismatch .int other)

/-- The bitvector that a value is, with its width. -/
def asBv : Value → Except EvalError (Nat × UInt32)
  | .bv value width => .ok (value, width)
  | other => .error (.mismatch .bitvector other)

/-- The total map that a value is. -/
def asMap : Value → Except EvalError TotalMap
  | .map default entries => .ok ⟨default, entries⟩
  | other => .error (.mismatch .map other)

/-- The two's-complement reading of a bitvector. -/
def toSigned (value : Value) : Except EvalError Int := do
  let (bits, width) ← value.asBv
  return Word.toInt bits width

/-- The bitvector that is congruent to an integer. -/
def bvOf (value : Int) (width : UInt32) : Value := .bv (Word.ofInt value width) width

end Value

/-- The outcome of a calculation that has no value if it leaves its range. -/
def inRange {α : Type} : Option α → Except EvalError α
  | some a => .ok a
  | none => .error .outOfRange

namespace BinaryOp

/-- The value of an arithmetic operator or an ordering on integers. -/
def applyInt (op : BinaryOp) (a b : Int) : Except EvalError Value :=
  match op with
  | .add => .ok (.int (a + b))
  | .sub => .ok (.int (a - b))
  | .mul => .ok (.int (a * b))
  | .div => if b = 0 then .error .divisionByZero else .ok (.int (euclideanDivision a b).1)
  | .mod => if b = 0 then .error .divisionByZero else .ok (.int (euclideanDivision a b).2)
  | .lt => .ok (.bool (a < b))
  | .gt => .ok (.bool (a > b))
  | .lte => .ok (.bool (a ≤ b))
  | .gte => .ok (.bool (a ≥ b))
  | op => .error (.notInteger op)

theorem applyInt_div (a b : Int) :
    applyInt .div a b = if b = 0 then .error .divisionByZero else .ok (.int (a / b)) := by
  rw [applyInt, euclideanDivision_eq]

theorem applyInt_mod (a b : Int) :
    applyInt .mod a b = if b = 0 then .error .divisionByZero else .ok (.int (a % b)) := by
  rw [applyInt, euclideanDivision_eq]

/-- The value of an operator, from the outcomes of its operands.  The outcome of the right operand
counts only if the left one does not decide. -/
def apply (op : BinaryOp) (lhs rhs : Except EvalError Value) : Except EvalError Value :=
  match op with
  | .and => do
    if ← (← lhs).asBool then return .bool (← (← rhs).asBool) else return .bool false
  | .or => do
    if ← (← lhs).asBool then return .bool true else return .bool (← (← rhs).asBool)
  | .implies => do
    if ← (← lhs).asBool then return .bool (← (← rhs).asBool) else return .bool true
  | .eq => do
    let a ← lhs
    let b ← rhs
    return .bool (decide (a = b))
  | .neq => do
    let a ← lhs
    let b ← rhs
    return .bool (decide (a ≠ b))
  | op => do
    let a ← lhs
    let b ← rhs
    op.applyInt (← a.asInt) (← b.asInt)

end BinaryOp

namespace BvBinaryOp

/-- The value of a function on bitvectors of its width. -/
def applyBits (op : BvBinaryOp) (width : UInt32) (a b : Nat) : Option Value :=
  match op with
  | .add => some (.bv (Word.add a b width) width)
  | .sub => (Word.sub? a b width).map (.bv · width)
  | .mul => some (.bv (Word.mul a b width) width)
  | .udiv => some (.bv (Word.udiv a b width) width)
  | .sdiv => (Word.sdiv? a b width).map (.bv · width)
  | .urem => some (.bv (Word.urem a b) width)
  | .srem => (Word.srem? a b width).map (.bv · width)
  | .and => some (.bv (a &&& b) width)
  | .or => some (.bv (a ||| b) width)
  | .xor => some (.bv (a ^^^ b) width)
  | .shl => some (.bv (Word.shl a b width) width)
  | .lshr => some (.bv (Word.lshr a b width) width)
  | .ashr => some (.bv (Word.ashr a b width) width)
  | .ult => some (.bool (a < b))
  | .ugt => some (.bool (a > b))
  | .ule => some (.bool (a ≤ b))
  | .uge => some (.bool (a ≥ b))
  | .slt => some (.bool (Word.toInt a width < Word.toInt b width))
  | .sgt => some (.bool (Word.toInt a width > Word.toInt b width))
  | .sle => some (.bool (Word.toInt a width ≤ Word.toInt b width))
  | .sge => some (.bool (Word.toInt a width ≥ Word.toInt b width))

/-- The value of a function on two values, which have to be bitvectors of its width. -/
def apply (op : BvBinaryOp) (width : UInt32) (lhs rhs : Value) : Except EvalError Value := do
  let (a, lhsWidth) ← lhs.asBv
  let (b, rhsWidth) ← rhs.asBv
  if lhsWidth = width ∧ rhsWidth = width then inRange (op.applyBits width a b)
  else .error (.widthMismatch op width lhsWidth rhsWidth)

end BvBinaryOp

namespace BvUnaryOp

/-- The value of a function on a value, which has to be a bitvector. -/
def apply (op : BvUnaryOp) (width : UInt32) (operand : Value) : Except EvalError Value := do
  let (bits, _) ← operand.asBv
  match op with
  | .neg => return .bv (← inRange (Word.neg? bits width)) width
  | .not => return .bv (← inRange (Word.not? bits width)) width

end BvUnaryOp

/-- The value of an extension to `target` bits. -/
def Extension.apply (kind : Extension) (target : UInt32) (operand : Value) :
    Except EvalError Value :=
  match kind with
  | .zero => do
    let (bits, _) ← operand.asBv
    return .bv bits target
  | .sign => do
    let signed ← operand.toSigned
    return .bv (Word.ofInt signed target) target

/-- The bits `hi` down to `lo` of a value, which has to be a bitvector. -/
def Value.extract (operand : Value) (hi lo : UInt32) : Except EvalError Value := do
  let (bits, _) ← operand.asBv
  let width ← inRange (Word.sliceWidth? hi lo)
  return .bv (Word.slice bits lo width) width

namespace Expr

mutual

/-- The value of an expression. -/
def eval (store : Store) : Expr → Except EvalError Value
  | .bool value => .ok (.bool value)
  | .int value => .ok (.int value)
  | .bv value width => .ok (.bv value width)
  | .ident name =>
    match store.find? name with
    | some value => .ok value
    | none => .error (.unbound name)
  | .error => .error .placeholder
  | .unary .not operand => do
    let value ← (← operand.eval store).asBool
    return .bool (!value)
  | .unary .neg operand => do
    let value ← (← operand.eval store).asInt
    return .int (-value)
  | .binary op lhs rhs => op.apply (lhs.eval store) (rhs.eval store)
  | .ite cond thenExpr elseExpr => do
    if ← (← cond.eval store).asBool then thenExpr.eval store else elseExpr.eval store
  | .select base index => do
    let base ← base.eval store
    let key ← index.eval store
    return (← base.asMap).get key
  | .update base index value => do
    let m ← (← base.eval store).asMap
    let key ← index.eval store
    let value ← value.eval store
    return (m.set key value).toValue
  | .tuple elements => do return .tuple (← evalAll store elements)
  | .bvUnary op width operand => do op.apply width (← operand.eval store)
  | .bvBinary op width lhs rhs => do
    let a ← lhs.eval store
    let b ← rhs.eval store
    op.apply width a b
  | .extend kind _ target operand => do kind.apply target (← operand.eval store)
  | .extract operand hi lo => do (← operand.eval store).extract hi lo

/-- The values of a list of expressions. -/
def evalAll (store : Store) : List Expr → Except EvalError (List Value)
  | [] => .ok []
  | e :: rest => do
    let value ← e.eval store
    return value :: (← evalAll store rest)

end

end Expr

end SolidityEncoding
