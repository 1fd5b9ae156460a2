import SolidityEncoding.Stmt

/-!
# Locations in a source text

A location is a range of bytes of a source file, with the line and column of its ends.  Lines and
columns count from one; a column counts bytes from the start of the line.  A range that ends past
the text has its end at the end of the text.
-/

namespace SolidityEncoding

/-- A range of a source file. -/
structure SourceLocation where
  file : String
  line : UInt32
  column : UInt32
  endLine : Option UInt32
  endColumn : Option UInt32
  startByte : Nat
  endByte : Nat
  deriving DecidableEq, Inhabited

namespace SourceLocation

/-- The offset of the last newline of a text, searched from its end. -/
def lastNewline? (bytes : List UInt8) : Option Nat :=
  (bytes.reverse.findIdx? (· == 10)).map (bytes.length - 1 - ·)

/-- The offset at which the last line of a text starts. -/
def lastLineStart (bytes : List UInt8) : Nat := (lastNewline? bytes).elim 0 (· + 1)

/-- The line and the column of an offset in a text that is given by its bytes. -/
def positionIn (bytes : List UInt8) (offset : Nat) : UInt32 × UInt32 :=
  let before := bytes.take offset
  ((before.count 10).toUInt32 + 1, (before.length - lastLineStart before).toUInt32 + 1)

/-- The line and the column of a byte offset in a text. -/
def position (source : String) (offset : Nat) : UInt32 × UInt32 :=
  positionIn source.toByteArray.data.toList offset

/-- A location whose end has no line and column. -/
def ofStart (file : String) (line column : UInt32) (startByte endByte : Nat) : SourceLocation :=
  ⟨file, line, column, none, none, startByte, endByte⟩

/-- The location of a range of bytes of a text. -/
def ofByteRange (file source : String) (startByte endByte : Nat) : SourceLocation :=
  let start := position source startByte
  let stop := position source endByte
  ⟨file, start.1, start.2, some stop.1, some stop.2, startByte, endByte⟩

/-- The characters after the first `count` bytes, if these are whole characters. -/
def dropBytes? : Nat → List Char → Option (List Char)
  | 0, cs => some cs
  | _ + 1, [] => none
  | count, c :: cs => if c.utf8Size ≤ count then dropBytes? (count - c.utf8Size) cs else none

/-- The characters of the first `count` bytes, if these are whole characters. -/
def takeBytes? : Nat → List Char → Option (List Char)
  | 0, _ => some []
  | _ + 1, [] => none
  | count, c :: cs =>
    if c.utf8Size ≤ count then (takeBytes? (count - c.utf8Size) cs).map (c :: ·) else none

/-- The text in a location, if its range is not empty and consists of whole characters. -/
def snippet? (location : SourceLocation) (source : String) : Option String :=
  if location.startByte < location.endByte then do
    let rest ← dropBytes? location.startByte source.toList
    let covered ← takeBytes? (location.endByte - location.startByte) rest
    return String.ofList covered
  else none

/-- The attributes that lead from a generated assertion back to the source. -/
def attributes (location : SourceLocation) (message : String) : List Attribute :=
  [⟨"sourceloc", [.text location.file, .int location.line.toNat, .int location.column.toNat]⟩,
    .message message]

end SourceLocation

end SolidityEncoding
