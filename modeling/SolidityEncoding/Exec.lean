import SolidityEncoding.Decl
import SolidityEncoding.Eval

/-!
# Execution

A statement takes a store to the outcomes of all its executions: a nondeterministic branch has the
outcomes of both blocks, an assumption that does not hold has none, and an assertion that does not
hold has one, which is final.  A block runs statement by statement on all outcomes together and
keeps their order.
-/

namespace SolidityEncoding

/-- How an execution ends. -/
inductive Outcome where
  /-- All statements were executed. -/
  | normal (store : Store)
  /-- An assertion did not hold. -/
  | failed (store : Store) (message : Option String)

namespace Outcome

/-- The store at the end. -/
def store : Outcome → Store
  | .normal store => store
  | .failed store _ => store

/-- Whether an assertion did not hold. -/
def isFailure : Outcome → Bool
  | .normal _ => false
  | .failed _ _ => true

/-- The text reported by the assertion that did not hold. -/
def message? : Outcome → Option String
  | .normal _ => none
  | .failed _ message => message

/-- Goes on from an outcome, unless it is final. -/
def andThen (next : Store → Except EvalError (List Outcome)) :
    Outcome → Except EvalError (List Outcome)
  | .normal store => next store
  | .failed store message => .ok [.failed store message]

/-- Goes on from every outcome of a list, in order. -/
def andThenAll (next : Store → Except EvalError (List Outcome)) :
    List Outcome → Except EvalError (List Outcome)
  | [] => .ok []
  | outcome :: rest => do
    let first ← outcome.andThen next
    return first ++ (← andThenAll next rest)

end Outcome

namespace Expr

/-- Gives the variable or the cell that an expression denotes a new value.  Indices are evaluated
from the innermost outwards. -/
def assign (store : Store) (value : Value) : Expr → Except EvalError Store
  | .ident name => .ok (store.insert name value)
  | .select base index => do
    let key ← index.eval store
    let m ← (← base.eval store).asMap
    base.assign store (m.set key value).toValue
  | _ => .error .notAssignable

end Expr

namespace Stmt

mutual

/-- The outcomes of a statement. -/
def exec (store : Store) : Stmt → Except EvalError (List Outcome)
  | .assign lhs rhs => do
    let value ← rhs.eval store
    return [.normal (← lhs.assign store value)]
  | .assume condition => do
    if ← (← condition.eval store).asBool then return [.normal store] else return []
  | .assert condition attributes => do
    if ← (← condition.eval store).asBool then return [.normal store]
    else return [.failed store (Attribute.messageOf? attributes)]
  | .comment _ => .ok [.normal store]
  | .branch (some condition) thenBlock elseBlock => do
    if ← (← condition.eval store).asBool then execBlock [.normal store] thenBlock
    else execElse store elseBlock
  | .branch none thenBlock elseBlock => do
    let first ← execBlock [.normal store] thenBlock
    return first ++ (← execElse store elseBlock)
  | .block body => execBlock [.normal store] body

/-- The outcomes of a block that is entered with the given outcomes. -/
def execBlock (outcomes : List Outcome) : List Stmt → Except EvalError (List Outcome)
  | [] => .ok outcomes
  | stmt :: rest => do
    let next ← Outcome.andThenAll (fun store => stmt.exec store) outcomes
    execBlock next rest

/-- The outcomes of a block that may be missing. -/
def execElse (store : Store) : Option (List Stmt) → Except EvalError (List Outcome)
  | none => .ok [.normal store]
  | some body => execBlock [.normal store] body

end

/-- The outcomes of a block that is entered with a store. -/
def run (body : List Stmt) (store : Store) : Except EvalError (List Outcome) :=
  execBlock [.normal store] body

end Stmt

/-- The outcomes of a procedure that is run on arguments in a store of global variables.  Results
start at the default values of their types. -/
def Procedure.run (p : Procedure) (args : List Value) (globals : Store) :
    Except EvalError (List Outcome) :=
  if args.length ≠ p.params.length then
    .error (.argumentCount p.name p.params.length args.length)
  else
    let withParams := globals.insertAll ((p.params.map Binding.name).zip args)
    let withReturns :=
      withParams.insertAll (p.returns.map fun result => (result.name, .ofTy result.ty))
    Stmt.run p.body withReturns

end SolidityEncoding
