import SolidityEncoding.Program

/-!
# Typing

`Expr.infer` gives the type of an expression under a typing of its identifiers.  Operators on
integers and truth values have fixed types; an equality needs two operands of one type; bitvector
functions need operands of their width; reads and writes of maps need the key and value types of
the map.  Statements, procedures and programs are checked on top of it.

Two causes of `TypingError` never occur: the groups of operators cover all of them, and the number
of extracted bits is a 32-bit number whenever they are bits of the operand.
-/

namespace SolidityEncoding

/-- A place of an expression or a statement that asks for a type. -/
inductive TypedPlace where
  | unaryOperand (op : UnaryOp)
  | operand (op : BinaryOp)
  | condition
  | elseBranch
  | mapIndex
  | mapValue
  | bvUnaryOperand (op : BvUnaryOp)
  | bvOperand (op : BvBinaryOp)
  | extension
  | assignment
  | assume
  | assert
  | branchCondition
  deriving DecidableEq, Inhabited

/-- The name of a place. -/
def TypedPlace.name : TypedPlace → String
  | .unaryOperand op => "operand of " ++ op.symbol
  | .operand op => op.symbol
  | .condition => "condition"
  | .elseBranch => "else branch"
  | .mapIndex => "map index"
  | .mapValue => "map value"
  | .bvUnaryOperand op => op.smtName
  | .bvOperand op => op.smtName
  | .extension => "extension"
  | .assignment => "assignment"
  | .assume => "assume"
  | .assert => "assert"
  | .branchCondition => "if condition"

/-- Why there is no type. -/
inductive TypingError where
  /-- An identifier has no type. -/
  | unbound (name : String)
  /-- The error placeholder has no type. -/
  | placeholder
  /-- An expression has another type than its place asks for. -/
  | mismatch (place : TypedPlace) (expected found : Ty)
  /-- What is read is not a map. -/
  | selectOnNonMap (found : Ty)
  /-- What is written is not a map. -/
  | updateOnNonMap (found : Ty)
  /-- An extension makes a bitvector narrower. -/
  | narrowingExtension (source target : UInt32)
  /-- The bits of an extraction are not bits of its operand. -/
  | badExtract (hi lo : UInt32) (found : Ty)
  /-- The left side of an assignment is neither a variable nor a cell of a map. -/
  | notAssignable
  /-- The body of a procedure has an error. -/
  | inProcedure (name : String) (cause : TypingError)
  /-- An operator belongs to none of the four groups of operators. -/
  | unclassified (op : BinaryOp)
  /-- A width is no 32-bit number. -/
  | outOfRange

instance : Inhabited TypingError := ⟨.placeholder⟩

namespace TypingError

/-- The text of an error. -/
def message : TypingError → String
  | .unbound name => "Unbound identifier: " ++ name
  | .placeholder => "Type error: untranslated construct has no type"
  | .mismatch place expected found =>
    "Type error: " ++ place.name ++ ": expected " ++ expected.render ++ ", found " ++ found.render
  | .selectOnNonMap found => "Type error: select on non-map type " ++ found.render
  | .updateOnNonMap found => "Type error: update on non-map type " ++ found.render
  | .narrowingExtension source target =>
    "Type error: cannot extend bv" ++ toString source.toNat ++ " to narrower bv" ++
      toString target.toNat
  | .badExtract hi lo found =>
    "Type error: invalid extract [" ++ toString hi.toNat ++ ":" ++ toString lo.toNat ++
      "] from " ++ found.render
  | .notAssignable => "Type error: left side of assignment is not an lvalue"
  | .inProcedure name cause => "Type error: in procedure " ++ name ++ ": " ++ cause.message
  | .unclassified op => "Type error: operator " ++ op.symbol ++ " has no type"
  | .outOfRange => "Type error: width out of range"

end TypingError

/-- The types of identifiers. -/
abbrev Typing := Table Ty

/-- Asks for a type at a place. -/
def TypedPlace.expect (place : TypedPlace) (expected found : Ty) : Except TypingError Unit :=
  if found = expected then .ok () else .error (.mismatch place expected found)

namespace BinaryOp

/-- The type of an application of an operator to operands of two types. -/
def resultTy (op : BinaryOp) (lhs rhs : Ty) : Except TypingError Ty := do
  if op.isArithmetic then
    TypedPlace.expect (.operand op) .int lhs
    TypedPlace.expect (.operand op) .int rhs
    return .int
  else if op.isOrdering then
    TypedPlace.expect (.operand op) .int lhs
    TypedPlace.expect (.operand op) .int rhs
    return .bool
  else if op.isLogical then
    TypedPlace.expect (.operand op) .bool lhs
    TypedPlace.expect (.operand op) .bool rhs
    return .bool
  else if op.isEquality then
    TypedPlace.expect (.operand op) lhs rhs
    return .bool
  else throw (.unclassified op)

end BinaryOp

namespace Expr

mutual

/-- The type of an expression. -/
def infer (typing : Typing) : Expr → Except TypingError Ty
  | .bool _ => .ok .bool
  | .int _ => .ok .int
  | .bv _ width => .ok (.bv width)
  | .ident name =>
    match typing.find? name with
    | some ty => .ok ty
    | none => .error (.unbound name)
  | .error => .error .placeholder
  | .unary op operand => do
    let ty ← operand.infer typing
    let expected := match op with
      | .not => Ty.bool
      | .neg => Ty.int
    TypedPlace.expect (.unaryOperand op) expected ty
    return expected
  | .binary op lhs rhs => do
    let lhsTy ← lhs.infer typing
    let rhsTy ← rhs.infer typing
    op.resultTy lhsTy rhsTy
  | .ite cond thenExpr elseExpr => do
    TypedPlace.condition.expect .bool (← cond.infer typing)
    let thenTy ← thenExpr.infer typing
    TypedPlace.elseBranch.expect thenTy (← elseExpr.infer typing)
    return thenTy
  | .select base index => do
    match ← base.infer typing with
    | .map key value =>
      TypedPlace.mapIndex.expect key (← index.infer typing)
      return value
    | other => throw (.selectOnNonMap other)
  | .update base index value => do
    match ← base.infer typing with
    | .map key elem =>
      TypedPlace.mapIndex.expect key (← index.infer typing)
      TypedPlace.mapValue.expect elem (← value.infer typing)
      return .map key elem
    | other => throw (.updateOnNonMap other)
  | .tuple elements => do return .tuple (← inferAll typing elements)
  | .bvUnary op width operand => do
    TypedPlace.expect (.bvUnaryOperand op) (.bv width) (← operand.infer typing)
    return .bv width
  | .bvBinary op width lhs rhs => do
    TypedPlace.expect (.bvOperand op) (.bv width) (← lhs.infer typing)
    TypedPlace.expect (.bvOperand op) (.bv width) (← rhs.infer typing)
    return if op.isPredicate then .bool else .bv width
  | .extend _ source target operand => do
    if target < source then throw (.narrowingExtension source target)
    TypedPlace.extension.expect (.bv source) (← operand.infer typing)
    return .bv target
  | .extract operand hi lo => do
    match ← operand.infer typing with
    | .bv width =>
      if lo ≤ hi ∧ hi < width then
        match Word.sliceWidth? hi lo with
        | some sliceWidth => return .bv sliceWidth
        | none => throw .outOfRange
      else throw (.badExtract hi lo (.bv width))
    | other => throw (.badExtract hi lo other)

/-- The types of a list of expressions. -/
def inferAll (typing : Typing) : List Expr → Except TypingError (List Ty)
  | [] => .ok []
  | e :: rest => do
    let ty ← e.infer typing
    return ty :: (← inferAll typing rest)

end

/-- Whether an expression denotes a variable or a cell of a map. -/
def isAssignable : Expr → Bool
  | .ident _ => true
  | .select base _ => base.isAssignable
  | _ => false

end Expr

namespace Stmt

mutual

/-- Checks a statement. -/
def check (typing : Typing) : Stmt → Except TypingError Unit
  | .assign lhs rhs => do
    if !lhs.isAssignable then throw .notAssignable
    let lhsTy ← lhs.infer typing
    TypedPlace.assignment.expect lhsTy (← rhs.infer typing)
  | .assume condition => do TypedPlace.assume.expect .bool (← condition.infer typing)
  | .assert condition _ => do TypedPlace.assert.expect .bool (← condition.infer typing)
  | .comment _ => .ok ()
  | .branch condition thenBlock elseBlock => do
    match condition with
    | some condition => TypedPlace.branchCondition.expect .bool (← condition.infer typing)
    | none => pure ()
    checkBlock typing thenBlock
    checkElse typing elseBlock
  | .block body => checkBlock typing body

/-- Checks the statements of a block in order. -/
def checkBlock (typing : Typing) : List Stmt → Except TypingError Unit
  | [] => .ok ()
  | stmt :: rest => do
    stmt.check typing
    checkBlock typing rest

/-- Checks a block that may be missing. -/
def checkElse (typing : Typing) : Option (List Stmt) → Except TypingError Unit
  | none => .ok ()
  | some body => checkBlock typing body

end

end Stmt

/-- Checks that the globals which a procedure changes exist. -/
def checkModifies (globals : Typing) : List String → Except TypingError Unit
  | [] => .ok ()
  | name :: rest =>
    if globals.contains name then checkModifies globals rest else .error (.unbound name)

/-- The typing of the body of a procedure: parameters and results over globals. -/
def Procedure.scope (p : Procedure) (globals : Typing) : Typing :=
  globals.insertAll ((p.params ++ p.returns).map fun b => (b.name, b.ty))

/-- Checks a procedure under the types of the global variables. -/
def Procedure.check (p : Procedure) (globals : Typing) : Except TypingError Unit := do
  checkModifies globals p.modifies
  (Stmt.checkBlock (p.scope globals) p.body).mapError (.inProcedure p.name)

/-- Checks every procedure of a program, in order. -/
def Program.check (program : Program) : Except TypingError Unit :=
  program.procedures.forM fun p => p.check program.globals

end SolidityEncoding
