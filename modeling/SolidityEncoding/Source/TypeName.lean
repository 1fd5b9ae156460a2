import SolidityEncoding.Source.Basic
import SolidityEncoding.Text.Blank
import SolidityEncoding.Text.Numeral

/-!
# Names of elementary types

`SourceType.parse` reads a name such as `uint8`, `int`, `bytes32` or `address payable`, with blanks
at its ends.  An integer has 256 bits unless its name says otherwise, and then a multiple of eight
up to 256; a byte string has 1 to 32 bytes.
-/

namespace SolidityEncoding

/-- Why a text is not the name of an elementary type. -/
inductive TypeNameError where
  /-- No type has a name of this form. -/
  | unknown (text : String)
  /-- No integer type has this many bits. -/
  | badIntegerSize (bits : Nat)
  /-- The size of a byte string is not a number of one byte. -/
  | badBytesSize (text : String)
  /-- No byte string has this many bytes. -/
  | bytesSizeOutOfRange (count : Nat)
  deriving DecidableEq, Inhabited

/-- The text of an error. -/
def TypeNameError.message : TypeNameError → String
  | .unknown text => "Type error: Unknown type: " ++ text
  | .badIntegerSize bits => "Type error: Invalid integer size: " ++ toString bits
  | .badBytesSize text => "Type error: Invalid bytes size: " ++ text
  | .bytesSizeOutOfRange count =>
    "Type error: Bytes size must be between 1 and 32, got " ++ toString count

namespace SourceType

/-- Reads the number of bits after `uint` or `int` in the name `whole`. -/
def parseBits (whole : String) (suffix : List Char) : Except TypeNameError UInt16 :=
  if suffix.isEmpty then .ok 256
  else
    match Text.countBelow? UInt16.size (String.ofList suffix) with
    | none => .error (.unknown whole)
    | some bits =>
      if 0 < bits ∧ bits ≤ 256 ∧ bits % 8 = 0 then .ok bits.toUInt16
      else .error (.badIntegerSize bits)

/-- Reads the number of bytes after `bytes`. -/
def parseByteCount (suffix : List Char) : Except TypeNameError UInt8 :=
  match Text.countBelow? UInt8.size (String.ofList suffix) with
  | none => .error (.badBytesSize (String.ofList suffix))
  | some count =>
    if 1 ≤ count ∧ count ≤ 32 then .ok count.toUInt8 else .error (.bytesSizeOutOfRange count)

/-- The rest of a text after a given beginning. -/
def restAfter? (beginning : String) (text : List Char) : Option (List Char) :=
  beginning.toList.isPrefixOf? text

/-- Reads the name of an elementary type that has no blanks at its ends. -/
def parseTrimmed (name : String) : Except TypeNameError SourceType :=
  if let some suffix := restAfter? "uint" name.toList then
    (parseBits name suffix).map .uint
  else if let some suffix := restAfter? "int" name.toList then
    (parseBits name suffix).map .int
  else if name = "bool" then .ok .bool
  else if name = "address" ∨ name = "address payable" then .ok .address
  else if name = "bytes" then .ok .bytes
  else if name = "string" then .ok .string
  else if let some suffix := restAfter? "bytes" name.toList then
    (parseByteCount suffix).map .fixedBytes
  else .error (.unknown name)

/-- Reads the name of an elementary type, dropping blanks at its ends. -/
def parse (text : String) : Except TypeNameError SourceType := parseTrimmed (Text.trim text)

end SourceType

end SolidityEncoding
