/-!
# Decimal numerals

Two spellings of numbers are read.  A *count* is at least one ASCII digit after at most one plus
sign; leading zeros are allowed.  An *integer* is at most one sign, an ASCII digit, and then ASCII
digits that may be grouped by underscores.
-/

namespace SolidityEncoding.Text

/-- Whether a character is one of the ten ASCII digits. -/
def isDigit (c : Char) : Bool := '0' ≤ c && c ≤ '9'

/-- The number that a digit stands for. -/
def digitValue (c : Char) : Nat := c.toNat - '0'.toNat

/-- The number that a row of digits stands for, most significant first. -/
def digitsValue (cs : List Char) : Nat := cs.foldl (fun n c => 10 * n + digitValue c) 0

/-- Reads a nonempty row of digits. -/
def digits? (cs : List Char) : Option Nat :=
  if !cs.isEmpty && cs.all isDigit then some (digitsValue cs) else none

/-- Reads a count from characters. -/
def countList? : List Char → Option Nat
  | '+' :: cs => digits? cs
  | cs => digits? cs

/-- Reads a count: a row of digits after at most one plus sign. -/
def count? (text : String) : Option Nat := countList? text.toList

/-- Reads a count that is below `bound`. -/
def countBelow? (bound : Nat) (text : String) : Option Nat :=
  (count? text).filter (· < bound)

/-- Reads a row of digits in which underscores may follow the first digit. -/
def groupedDigits? : List Char → Option Nat
  | [] => none
  | c :: cs =>
    if isDigit c && cs.all (fun d => isDigit d || d == '_') then
      some (digitsValue ((c :: cs).filter isDigit))
    else none

/-- Reads an integer from characters. -/
def integerList? : List Char → Option Int
  | '-' :: cs => (groupedDigits? cs).map fun n => -(n : Int)
  | '+' :: cs => (groupedDigits? cs).map fun n => (n : Int)
  | cs => (groupedDigits? cs).map fun n => (n : Int)

/-- Reads an integer: at most one sign, then digits grouped by underscores. -/
def integer? (text : String) : Option Int := integerList? text.toList

end SolidityEncoding.Text
