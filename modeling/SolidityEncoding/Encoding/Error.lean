import SolidityEncoding.Encoding.Basic
import SolidityEncoding.Encoding.Operator
import SolidityEncoding.Expr.Outline
import SolidityEncoding.Program
import SolidityEncoding.Source.Basic
import SolidityEncoding.Text.Blank

/-!
# What cannot be encoded

An operator may have no counterpart in an encoding, a feature none at all, and a caller may ask
for a conversion that the source language does not have.  The last is an `Inconsistency`.
-/

namespace SolidityEncoding

/-- A request that no well-typed source program leads to. -/
inductive Inconsistency where
  /-- A tuple type is asked for, and the source type is no tuple of that length. -/
  | notTuple (source target : SourceType)
  /-- A tuple type is asked for, and the expression is no tuple of that length. -/
  | notTupleExpr (target : SourceType)
  /-- The type of a component is asked for, and the component's own type is missing. -/
  | unknownComponent (target : SourceType)
  /-- An implicit conversion makes a type smaller. -/
  | narrowing (source target : SourceType)
  /-- An implicit conversion drops a sign. -/
  | droppedSign (source target : SourceType)
  /-- A write is asked for at an expression that does not read a map. -/
  | notSelect (found : Expr)
  /-- Call data has no place of its own. -/
  | callData

namespace Inconsistency

/-- The text of an inconsistency. -/
def message : Inconsistency → String
  | .notTuple source target =>
    "cannot convert " ++ source.render ++ " to tuple type " ++ target.render
  | .notTupleExpr target => "expected a tuple expression for conversion to " ++ target.render
  | .unknownComponent target =>
    "tuple component of unknown type converted to " ++ target.render
  | .narrowing source target =>
    "implicit conversion from " ++ source.render ++ " to smaller type " ++ target.render
  | .droppedSign source target =>
    "implicit conversion from signed " ++ source.render ++ " to unsigned " ++ target.render
  | .notSelect found => "expected a map or array select, found " ++ found.outline
  | .callData => "calldata location is not supported"

end Inconsistency

/-- Something that the library does not know or does not support. -/
inductive Feature where
  | encoding (name : String)
  | binaryOperator (token : String)
  | missingComponent
  /-- A feature that a caller reports in its own words. -/
  | other (text : String)
  deriving DecidableEq, Inhabited

/-- The text of a feature. -/
def Feature.message : Feature → String
  | .encoding name => "unknown encoding '" ++ name ++ "', expected one of int, bv, mod"
  | .binaryOperator token => "binary operator '" ++ token ++ "'"
  | .missingComponent => "tuple type with a missing component"
  | .other text => text

/-- Why something is not encoded. -/
inductive EncodingError where
  /-- The encoding has no counterpart of a binary operator. -/
  | unsupportedBinary (encoding : Encoding) (op : SourceBinaryOp)
  /-- The encoding has no counterpart of a unary operator. -/
  | unsupportedUnary (encoding : Encoding) (op : SourceUnaryOp)
  /-- The encoding has no counterpart of a power that is not a literal. -/
  | unsupportedExponentiation (encoding : Encoding)
  /-- No encoding supports a feature. -/
  | unsupportedFeature (feature : Feature)
  /-- The request is inconsistent. -/
  | inconsistent (cause : Inconsistency)
  /-- The declarations do not make a program. -/
  | program (cause : ProgramError)
  /-- A width would become negative. -/
  | outOfRange

instance : Inhabited EncodingError := ⟨.outOfRange⟩

namespace EncodingError

/-- The text of an error. -/
def message : EncodingError → String
  | .unsupportedBinary encoding op =>
    "Unsupported binary operator in '" ++ encoding.shortName ++ "' encoding: " ++ op.token
  | .unsupportedUnary encoding op =>
    "Unsupported unary operator in '" ++ encoding.shortName ++ "' encoding: " ++ op.token
  | .unsupportedExponentiation encoding =>
    "Exponentiation is not supported in '" ++ encoding.shortName ++ "' encoding"
  | .unsupportedFeature feature => "Unsupported feature: " ++ feature.message
  | .inconsistent cause => "Internal consistency violation: " ++ cause.message
  | .program cause => "IR error: " ++ cause.message
  | .outOfRange => "width out of range"

end EncodingError

namespace Encoding

/-- The encoding of a short name with blanks at its ends. -/
def parse (text : String) : Except EncodingError Encoding :=
  let name := Text.trim text
  match ofName? name with
  | some encoding => .ok encoding
  | none => .error (.unsupportedFeature (.encoding name))

end Encoding

namespace SourceBinaryOp

/-- The operator of a token with blanks at its ends. -/
def parse (text : String) : Except EncodingError SourceBinaryOp :=
  match ofToken? (Text.trim text) with
  | some op => .ok op
  | none => .error (.unsupportedFeature (.binaryOperator text))

end SourceBinaryOp

end SolidityEncoding
