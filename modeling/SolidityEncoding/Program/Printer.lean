import SolidityEncoding.Program
import SolidityEncoding.Stmt.Printer

/-!
# Text of declarations and programs

The declarations of a program stand in order, with an empty line on each side of a procedure.
-/

namespace SolidityEncoding

/-- The text of a list of names with types. -/
def Binding.renderAll (bindings : List Binding) : String :=
  ", ".intercalate (bindings.map fun b => b.name ++ ": " ++ b.ty.render)

namespace FuncDecl

/-- The line of a function. -/
def render (l : Layout) (decl : FuncDecl) : String :=
  l.line ("function " ++ Attribute.renderAll decl.attributes ++ decl.name ++ "(" ++
    ", ".intercalate (decl.params.map Ty.render) ++ ") returns (" ++ decl.returns.render ++ ");")

end FuncDecl

namespace Procedure

/-- The head of a procedure. -/
def header (style : Style) (p : Procedure) : String :=
  "procedure " ++ Attribute.renderAll (Attribute.visible style p.attributes) ++ p.name ++
    "(" ++ Binding.renderAll p.params ++ ")" ++
    (if p.returns.isEmpty then "" else " returns (" ++ Binding.renderAll p.returns ++ ")")

/-- The line of the globals that a procedure may change. -/
def modifiesClause (l : Layout) (p : Procedure) : String :=
  if p.modifies.isEmpty then ""
  else l.deeper.line ("modifies " ++ ", ".intercalate p.modifies ++ ";")

/-- The lines of a procedure. -/
def render (style : Style) (l : Layout) (p : Procedure) : String :=
  l.line (p.header style) ++ p.modifiesClause l ++
    l.block "" fun inside => Stmt.renderBlock style inside p.body

end Procedure

namespace Decl

/-- The lines of a declaration. -/
def render (style : Style) (l : Layout) : Decl → String
  | .type d => l.line ("type " ++ Attribute.renderAll d.attributes ++ d.name ++ ";")
  | .var d =>
    l.line ("var " ++ Attribute.renderAll d.attributes ++ d.name ++ ": " ++ d.ty.render ++ ";")
  | .func d => d.render l
  | .procedure d => d.render style l

/-- Whether all expressions of a declaration are printable. -/
def isPrintable : Decl → Bool
  | .procedure d => Stmt.allPrintable d.body
  | _ => true

/-- Whether a declaration is a procedure. -/
def isProcedure (decl : Decl) : Bool := decl.procedure?.isSome

/-- The lines of declarations that follow one another. -/
def renderAfter (style : Style) (l : Layout) (previous : Decl) : List Decl → String
  | [] => ""
  | decl :: rest =>
    (if previous.isProcedure || decl.isProcedure then "\n" else "") ++ decl.render style l ++
      renderAfter style l decl rest

/-- The lines of a list of declarations. -/
def renderAll (style : Style) (l : Layout) : List Decl → String
  | [] => ""
  | decl :: rest => decl.render style l ++ renderAfter style l decl rest

end Decl

namespace Program

/-- The text of a program. -/
def render (style : Style) (program : Program) : String :=
  Decl.renderAll style (.ofStyle style) program.decls.values

/-- The text of a program, if all its expressions are printable. -/
def render? (style : Style) (program : Program) : Option String :=
  if program.decls.values.all Decl.isPrintable then some (program.render style) else none

end Program

end SolidityEncoding
