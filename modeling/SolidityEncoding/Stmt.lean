import SolidityEncoding.Expr.Basic

/-!
# Statements of the verification language

A statement assigns, assumes, asserts, comments, branches or groups.  A branch without a condition
is the nondeterministic choice between its two blocks.  Assertions and declarations carry
attributes: names with numbers and texts for tools to read.
-/

namespace SolidityEncoding

/-- An argument of an attribute. -/
inductive AttributeArg where
  | int (value : Int)
  | text (value : String)
  deriving DecidableEq, Inhabited

/-- A named remark on an assertion or a declaration. -/
structure Attribute where
  name : String
  args : List AttributeArg
  deriving DecidableEq, Inhabited

namespace Attribute

/-- The attribute that has procedures inlined. -/
def inline : Attribute := ⟨"inline", [.int 1]⟩

/-- The attribute that holds the text to be reported. -/
def message (text : String) : Attribute := ⟨"message", [.text text]⟩

/-- The attribute that binds a declared function to a function of SMT-LIB. -/
def bvBuiltin (smtName : String) : Attribute := ⟨"bvbuiltin", [.text smtName]⟩

/-- The first text among the arguments. -/
def textArg? (a : Attribute) : Option String :=
  a.args.findSome? fun
    | .text value => some value
    | .int _ => none

/-- The first attribute of a name. -/
def find? (attributes : List Attribute) (name : String) : Option Attribute :=
  attributes.find? (·.name == name)

/-- The text to be reported that a list of attributes holds. -/
def messageOf? (attributes : List Attribute) : Option String :=
  (find? attributes "message").bind textArg?

end Attribute

/-- A statement of the verification language. -/
inductive Stmt where
  /-- Gives a variable, or a cell of a map, a new value. -/
  | assign (lhs rhs : Expr)
  /-- Drops the executions in which the condition does not hold. -/
  | assume (condition : Expr)
  /-- Fails in the executions in which the condition does not hold. -/
  | assert (condition : Expr) (attributes : List Attribute)
  | comment (text : String)
  /-- Executes one of two blocks; either of them if there is no condition. -/
  | branch (condition : Option Expr) (thenBlock : List Stmt) (elseBlock : Option (List Stmt))
  | block (body : List Stmt)

namespace Stmt

instance : Inhabited Stmt := ⟨.comment ""⟩

/-- The nondeterministic choice between two blocks. -/
def choice (first second : List Stmt) : Stmt := .branch none first (some second)

end Stmt

end SolidityEncoding
