import SolidityEncoding.Decl
import SolidityEncoding.Table

/-!
# Programs

A program is a table of declarations.  `Program.add` enters a declaration under its own name and
refuses a name that is taken.
-/

namespace SolidityEncoding

/-- Why a declaration cannot be added. -/
inductive ProgramError where
  /-- The name is taken. -/
  | duplicate (name : String)
  deriving DecidableEq, Inhabited

/-- The text of an error. -/
def ProgramError.message : ProgramError → String
  | .duplicate name => "Duplicate declaration: " ++ name

/-- Declarations under their names, in order. -/
structure Program where
  decls : Table Decl
  deriving Inhabited

namespace Program

/-- The program without declarations. -/
def empty : Program := ⟨.empty⟩

/-- Adds a declaration at the end, unless its name is taken. -/
def add (program : Program) (decl : Decl) : Except ProgramError Program :=
  if program.decls.contains decl.name then .error (.duplicate decl.name)
  else .ok ⟨program.decls.insert decl.name decl⟩

/-- Adds declarations in order, up to the first whose name is taken. -/
def addAll (program : Program) (decls : List Decl) : Except ProgramError Program :=
  decls.foldlM add program

/-- The declaration under a name. -/
def find? (program : Program) (name : String) : Option Decl := program.decls.find? name

/-- The procedure under a name. -/
def procedure? (program : Program) (name : String) : Option Procedure :=
  (program.find? name).bind Decl.procedure?

/-- The procedures, in order. -/
def procedures (program : Program) : List Procedure :=
  program.decls.values.filterMap Decl.procedure?

/-- How many declarations there are. -/
def size (program : Program) : Nat := program.decls.size

/-- The types of the global variables. -/
def globals (program : Program) : Table Ty :=
  program.decls.values.foldl
    (fun types decl =>
      match decl with
      | .var d => types.insert d.name d.ty
      | _ => types)
    .empty

end Program

end SolidityEncoding
