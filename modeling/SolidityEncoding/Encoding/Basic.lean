import SolidityEncoding.Ty
import SolidityEncoding.Word
import SolidityEncoding.Expr.Basic

/-!
# Encodings of integers

Integers of the source language are encoded in one of three ways: as unbounded integers, as
bitvectors, or as unbounded integers that every operation wraps into the range of its type.  An
encoding fixes the type of a word and the form of a literal.
-/

namespace SolidityEncoding

/-- What every integer of the source language becomes. -/
inductive Encoding where
  /-- An unbounded integer. -/
  | mathematical
  /-- A bitvector of the width of its type. -/
  | bitvector
  /-- An integer that is wrapped into the range of its type. -/
  | modular
  deriving DecidableEq, Inhabited

namespace Encoding

/-- Every encoding, the default one first. -/
def all : List Encoding := [.mathematical, .bitvector, .modular]

/-- The short name of an encoding. -/
def shortName : Encoding → String
  | .mathematical => "int"
  | .bitvector => "bv"
  | .modular => "mod"

/-- The encoding of a short name. -/
def ofName? (name : String) : Option Encoding := all.find? (·.shortName == name)

/-- The type of a word of `bits` bits. -/
def wordTy (encoding : Encoding) (bits : UInt32) : Ty :=
  match encoding with
  | .bitvector => .bv bits
  | .mathematical | .modular => .int

/-- The literal of an integer as a word of `bits` bits; a bitvector is its two's complement. -/
def literal (encoding : Encoding) (value : Int) (bits : UInt32) : Expr :=
  match encoding with
  | .bitvector => .bvOf (Word.ofInt value bits) bits
  | .mathematical | .modular => .int value

theorem literal_bitvector (value : Int) (bits : UInt32) :
    literal .bitvector value bits = .bv (Word.ofInt value bits) bits :=
  Expr.bvOf_of_lt (Word.ofInt_lt value bits)

end Encoding

/-- What is fixed for a whole session. -/
structure EncodingConfig where
  encoding : Encoding
  /-- Whether conditions of overflow become proof obligations. -/
  checkOverflow : Bool
  deriving DecidableEq

namespace EncodingConfig

/-- Unbounded integers without proof obligations. -/
def standard : EncodingConfig := ⟨.mathematical, false⟩

instance : Inhabited EncodingConfig := ⟨standard⟩

end EncodingConfig

end SolidityEncoding
