import SolidityEncoding.Text.Unprintable

/-!
# Quoted text

A text between double quotes in which the reader can tell every character.  A double quote, a
backslash, a tab, a line feed, a carriage return and a null have escapes of two characters; a
character that leaves no mark on paper is written as its hexadecimal number.  All else stands for
itself.
-/

namespace SolidityEncoding.Text

/-- The lower-case hexadecimal digits of a number. -/
def hex (n : Nat) : String := String.ofList (Nat.toDigits 16 n)

/-- A character as it is written between double quotes. -/
def quoteChar (c : Char) : String :=
  if c = '"' then "\\\""
  else if c = '\\' then "\\\\"
  else if c = '\t' then "\\t"
  else if c = '\n' then "\\n"
  else if c = '\r' then "\\r"
  else if c = '\x00' then "\\0"
  else if isUnprintable c then "\\u\x7b" ++ hex c.toNat ++ "\x7d"
  else c.toString

/-- A text between double quotes. -/
def quote (text : String) : String :=
  "\"" ++ String.join (text.toList.map quoteChar) ++ "\""

end SolidityEncoding.Text
