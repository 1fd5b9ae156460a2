import SolidityEncoding.Stmt
import SolidityEncoding.Ty

/-!
# Declarations

A program declares types, global variables, functions without a body, and procedures.
-/

namespace SolidityEncoding

/-- A name together with its type. -/
structure Binding where
  name : String
  ty : Ty
  deriving DecidableEq, Inhabited

/-- A type that is known by its name only. -/
structure TypeDecl where
  name : String
  attributes : List Attribute
  deriving Inhabited

/-- A global variable. -/
structure VarDecl where
  name : String
  ty : Ty
  attributes : List Attribute
  deriving Inhabited

/-- The signature of a function that is defined elsewhere, such as a function of SMT-LIB. -/
structure FuncDecl where
  name : String
  attributes : List Attribute
  params : List Ty
  returns : Ty
  deriving DecidableEq, Inhabited

/-- A procedure: parameters, results, the globals that it may change, and a body. -/
structure Procedure where
  name : String
  params : List Binding
  returns : List Binding
  modifies : List String
  attributes : List Attribute
  body : List Stmt
  deriving Inhabited

namespace Procedure

/-- Whether the procedure is marked to be inlined. -/
def isInline (p : Procedure) : Bool := (Attribute.find? p.attributes "inline").isSome

/-- The text to be reported for the procedure. -/
def message? (p : Procedure) : Option String := Attribute.messageOf? p.attributes

end Procedure

/-- A declaration. -/
inductive Decl where
  | type (decl : TypeDecl)
  | var (decl : VarDecl)
  | func (decl : FuncDecl)
  | procedure (decl : Procedure)
  deriving Inhabited

namespace Decl

/-- The declared name. -/
def name : Decl → String
  | .type d => d.name
  | .var d => d.name
  | .func d => d.name
  | .procedure d => d.name

/-- The procedure that is declared. -/
def procedure? : Decl → Option Procedure
  | .procedure d => some d
  | _ => none

end Decl

end SolidityEncoding
