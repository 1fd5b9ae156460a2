import SolidityEncoding.Expr.Printer
import SolidityEncoding.Layout
import SolidityEncoding.Stmt

/-!
# Text of attributes and statements

An attribute is written as `{:name args}`, its texts between double quotes, with a backslash before
a quote and before a backslash.  Every statement begins a line of its own.  Attributes that lead
back to the source, and comments, are left out if the style says so.
-/

namespace SolidityEncoding

namespace Attribute

/-- A text with a backslash before every `c`. -/
def withBackslash (c : Char) (cs : List Char) : List Char :=
  cs.flatMap fun d => if d = c then ['\\', c] else [d]

/-- A text as it is written between double quotes: backslashes are doubled first, so that those
before the quotes are not. -/
def escape (text : String) : String :=
  String.ofList (withBackslash '"' (withBackslash '\\' text.toList))

end Attribute

/-- The text of an argument. -/
def AttributeArg.render : AttributeArg → String
  | .int value => toString value
  | .text value => "\"" ++ Attribute.escape value ++ "\""

namespace Attribute

/-- The text of an attribute. -/
def render (a : Attribute) : String :=
  let args := ", ".intercalate (a.args.map AttributeArg.render)
  if a.args.isEmpty then "\x7b:" ++ a.name ++ "\x7d"
  else "\x7b:" ++ a.name ++ " " ++ args ++ "\x7d"

/-- The texts of attributes, each with a space after it. -/
def renderAll (attributes : List Attribute) : String :=
  String.join (attributes.map fun a => a.render ++ " ")

/-- Whether an attribute leads back to the source. -/
def isSource (a : Attribute) : Bool := a.name == "sourceloc" || a.name == "message"

/-- The attributes that a style shows. -/
def visible (style : Style) (attributes : List Attribute) : List Attribute :=
  attributes.filter fun a => style.sourceAttributes || !a.isSource

end Attribute

namespace Stmt

/-- The text of a condition; a missing one is the nondeterministic choice. -/
def renderCondition : Option Expr → String
  | some condition => condition.render
  | none => "*"

mutual

/-- The lines of a statement. -/
def render (style : Style) (l : Layout) : Stmt → String
  | .assign lhs rhs => l.line (lhs.render ++ " := " ++ rhs.render ++ ";")
  | .assume condition => l.line ("assume " ++ condition.render ++ ";")
  | .assert condition attributes =>
    l.line ("assert " ++ Attribute.renderAll (Attribute.visible style attributes) ++
      condition.render ++ ";")
  | .comment text => if style.comments then l.comment text else ""
  | .branch condition thenBlock elseBlock =>
    l.line ("if (" ++ renderCondition condition ++ ") \x7b") ++
      renderBlock style l.deeper thenBlock ++ renderElse style l elseBlock ++ l.line "\x7d"
  | .block body => l.openBlock "" ++ renderBlock style l.deeper body ++ l.closeBlock

/-- The lines of a list of statements. -/
def renderBlock (style : Style) (l : Layout) : List Stmt → String
  | [] => ""
  | stmt :: rest => stmt.render style l ++ renderBlock style l rest

/-- The lines of an alternative that may be missing. -/
def renderElse (style : Style) (l : Layout) : Option (List Stmt) → String
  | none => ""
  | some body => l.line "\x7d else \x7b" ++ renderBlock style l.deeper body

end

mutual

/-- Whether all expressions of a statement are printable. -/
def isPrintable : Stmt → Bool
  | .assign lhs rhs => lhs.isPrintable && rhs.isPrintable
  | .assume condition => condition.isPrintable
  | .assert condition _ => condition.isPrintable
  | .comment _ => true
  | .branch condition thenBlock elseBlock =>
    condition.all Expr.isPrintable && allPrintable thenBlock && elsePrintable elseBlock
  | .block body => allPrintable body

/-- Whether all expressions of a list of statements are printable. -/
def allPrintable : List Stmt → Bool
  | [] => true
  | stmt :: rest => stmt.isPrintable && allPrintable rest

/-- Whether all expressions of an alternative that may be missing are printable. -/
def elsePrintable : Option (List Stmt) → Bool
  | none => true
  | some body => allPrintable body

end

end Stmt

end SolidityEncoding
