/-!
# Layout of lines

A `Style` is what a reader of the output chooses; a `Layout` is the place of a line: how deep it
is indented, with what, and whether it may be coloured.  A block is a line that opens a brace, the
lines inside one level deeper, and a line that closes the brace.
-/

namespace SolidityEncoding

/-- What one level of indentation is. -/
inductive Indent where
  | spaces (count : Nat)
  | tabs
  deriving DecidableEq, Inhabited

/-- The text of one level of indentation. -/
def Indent.unit : Indent → String
  | .spaces count => String.ofList (List.replicate count ' ')
  | .tabs => "\t"

/-- How output is written. -/
structure Style where
  colors : Bool
  indent : Indent
  /-- Whether attributes that lead back to the source are written. -/
  sourceAttributes : Bool
  comments : Bool
  deriving DecidableEq

namespace Style

/-- Four spaces, no colours, and nothing left out. -/
def standard : Style := ⟨false, .spaces 4, true, true⟩

instance : Inhabited Style := ⟨standard⟩

end Style

/-- A colour of a line. -/
inductive LineColor where
  | green
  | red
  deriving DecidableEq, Inhabited

namespace LineColor

/-- The terminal sequence that switches back to plain text. -/
def reset : List Char := "\x1b[0m".toList

/-- The terminal sequence that switches to a colour. -/
def sequence : LineColor → List Char
  | .green => "\x1b[32m".toList
  | .red => "\x1b[31m".toList

/-- Switches to a sequence again after every return to plain text. -/
def resume (sequence : List Char) : List Char → List Char
  | [] => []
  | '\x1b' :: '[' :: '0' :: 'm' :: rest => reset ++ sequence ++ resume sequence rest
  | c :: rest => c :: resume sequence rest

/-- A text in a colour. -/
def paint (color : LineColor) (text : String) : String :=
  String.ofList (color.sequence ++ resume color.sequence text.toList ++ reset)

end LineColor

/-- The place of a line. -/
structure Layout where
  depth : Nat
  /-- The text of one level of indentation. -/
  unit : String
  colors : Bool
  deriving DecidableEq, Inhabited

namespace Layout

/-- The place of the first line. -/
def ofStyle (style : Style) : Layout := ⟨0, style.indent.unit, style.colors⟩

/-- One level deeper. -/
def deeper (l : Layout) : Layout := { l with depth := l.depth + 1 }

/-- One level less deep; lines that are not indented stay so. -/
def shallower (l : Layout) : Layout := { l with depth := l.depth - 1 }

/-- What every line begins with. -/
def margin (l : Layout) : String := String.join (List.replicate l.depth l.unit)

/-- A line. -/
def line (l : Layout) (text : String) : String := l.margin ++ text ++ "\n"

/-- A line in a colour, if colours are used. -/
def coloredLine (l : Layout) (color : LineColor) (text : String) : String :=
  l.line (if l.colors then color.paint text else text)

/-- A comment. -/
def comment (l : Layout) (text : String) : String := l.coloredLine .green ("// " ++ text)

/-- The line that opens a block. -/
def openBlock (l : Layout) (header : String) : String :=
  l.line (if header.isEmpty then "\x7b" else header ++ " \x7b")

/-- The line that closes a block. -/
def closeBlock (l : Layout) : String := l.line "\x7d"

/-- A block around lines that are written one level deeper. -/
def block (l : Layout) (header : String) (body : Layout → String) : String :=
  l.openBlock header ++ body l.deeper ++ l.closeBlock

end Layout

end SolidityEncoding
