import SolidityEncoding.Encoding.Range
import SolidityEncoding.Encoding.Session

/-!
# Conversions

`implicitConversion` converts an expression where the source language needs no cast.  It only
widens: a narrower target, or an unsigned one for a signed source, is refused under every encoding,
though only bitvectors and fixed-size byte strings change at all.

`explicitConversion` converts an expression for a cast.  Narrowing and changes of sign truncate a
bitvector and wrap a modular integer; all other casts are implicit conversions.

Byte strings are aligned to the left: widening adds zero bytes on the right, and narrowing keeps
the leading bytes.
-/

namespace SolidityEncoding

/-- The bitvector literal of an integer; a negative one is the negation of its magnitude. -/
def bvLiteral (value : Int) (bits : UInt32) : Encode Expr :=
  if value < 0 then Session.bvUnary .neg bits (.bvOf value.natAbs bits)
  else return .bvOf value.natAbs bits

/-- The literal of an integer in the active encoding, built with a bitvector function if it is
negative. -/
def convertedLiteral (value : Int) (bits : UInt32) : Encode Expr := do
  match ← Session.getEncoding with
  | .bitvector => bvLiteral value bits
  | .mathematical | .modular => return .int value

/-- Wraps an expression into the range of a shape. -/
def Shape.wrapExpr (shape : Shape) (e : Expr) : Expr :=
  let wrapped := .binary .mod e (.int (pow2 shape.bits))
  if shape.signed then
    .ite (.binary .gt wrapped (.int (largestSigned shape.bits)))
      (.binary .sub wrapped (.int (pow2 shape.bits)))
      wrapped
  else wrapped

/-- The numbers of bits of two byte string types. -/
def byteStringBits? : SourceType → SourceType → Option (UInt32 × UInt32)
  | .fixedBytes source, .fixedBytes target => some (source.toUInt32 * 8, target.toUInt32 * 8)
  | _, _ => none

/-- Widens a byte string. -/
def widenBytes (e : Expr) (source target : UInt32) : Convert Expr := do
  let added := target - source
  match e.intLit?, ← Session.getEncoding with
  | some value, _ => convertedLiteral (value * pow2 added) target
  | none, .bitvector =>
    let extended ← Session.extend .zero source target e
    Session.bvBinary .shl target extended (.bvOf added.toNat target)
  | none, _ => return .binary .mul e (.int (pow2 added))

/-- Narrows a byte string. -/
def narrowBytes (e : Expr) (source target : UInt32) : Convert Expr := do
  let dropped := source - target
  match e.intLit?, ← Session.getEncoding with
  | some value, _ => convertedLiteral (value / pow2 dropped) target
  | none, .bitvector => return .extract e (source - 1) dropped
  | none, _ => return .binary .div e (.int (pow2 dropped))

/-- Resizes a byte string. -/
def resizeBytes (e : Expr) (source target : UInt32) : Convert Expr :=
  if source = target then return e
  else if source < target then widenBytes e source target
  else narrowBytes e source target

/-- Converts an expression that is no tuple to a type with a shape. -/
def convertScalar (e : Expr) (source target : SourceType) (shape : Shape) : Convert Expr := do
  match byteStringBits? source target with
  | some (sourceBits, targetBits) =>
    if targetBits < sourceBits then throw (.inconsistent (.narrowing source target))
    resizeBytes e sourceBits targetBits
  | none =>
    match e.intLit?, source.shape? with
    | some value, _ => convertedLiteral value shape.bits
    | none, none => return e
    | none, some sourceShape =>
      if sourceShape = shape then return e
      if shape.bits < sourceShape.bits then throw (.inconsistent (.narrowing source target))
      if sourceShape.signed ∧ ¬ shape.signed then
        throw (.inconsistent (.droppedSign source target))
      match ← Session.getEncoding with
      | .bitvector =>
        if sourceShape.bits = shape.bits then return e
        let kind := if sourceShape.signed then Extension.sign else Extension.zero
        Session.extend kind sourceShape.bits shape.bits e
      | .mathematical | .modular => return e

/-- The components of the types and of the expression of a conversion to a tuple type. -/
def tupleParts (e : Expr) (source target : SourceType) (arity : Nat) :
    Except EncodingError (List Expr × List (Option SourceType)) :=
  match source with
  | .tuple sources =>
    if sources.length = arity then
      match e with
      | .tuple elements =>
        if elements.length = arity then .ok (elements, sources)
        else .error (.inconsistent (.notTupleExpr target))
      | _ => .error (.inconsistent (.notTupleExpr target))
    else .error (.inconsistent (.notTuple source target))
  | _ => .error (.inconsistent (.notTuple source target))

mutual

/-- Converts an expression where the source language needs no cast. -/
def implicitConversion (e : Expr) (source : SourceType) : SourceType → Convert Expr
  | .tuple targets => do
    let (elements, sources) ← tupleParts e source (.tuple targets) targets.length
    return .tuple (← convertComponents elements sources targets)
  | target =>
    match target.shape? with
    | some shape => convertScalar e source target shape
    | none => return e

/-- Converts the components of a tuple in order.  A component without a target type stays. -/
def convertComponents (elements : List Expr) (sources : List (Option SourceType)) :
    List (Option SourceType) → Convert (List Expr)
  | [] => return []
  | target :: rest =>
    match elements, sources with
    | e :: elements, source :: sources => do
      let converted ←
        match source, target with
        | _, none => pure e
        | some source, some target => implicitConversion e source target
        | none, some target => throw (.inconsistent (.unknownComponent target))
      return converted :: (← convertComponents elements sources rest)
    | _, _ => return []

end

/-- Whether a cast can change a number, so that it is no implicit conversion. -/
def Shape.needsCast (source target : Shape) : Bool :=
  target.bits < source.bits || (source.signed && !target.signed) ||
    (target.bits == source.bits && !source.signed && target.signed)

/-- Casts an expression between two shapes. -/
def castExpr (e : Expr) (source target : Shape) : Convert Expr := do
  match ← Session.getEncoding with
  | .mathematical => return e
  | .modular => return target.wrapExpr e
  | .bitvector =>
    if target.bits = source.bits then return e
    else if source.bits < target.bits then Session.extend .sign source.bits target.bits e
    else if target.bits = 0 then throw .outOfRange
    else return .extract e (target.bits - 1) 0

/-- Converts an expression for a cast between known types. -/
def castConversion (e : Expr) (source target : SourceType) (shape : Shape) : Convert Expr := do
  match byteStringBits? source target with
  | some (sourceBits, targetBits) => resizeBytes e sourceBits targetBits
  | none =>
    match e.intLit?, source.shape? with
    | some value, _ =>
      match ← Session.getEncoding with
      | .modular => return .int (shape.wrap value)
      | _ => implicitConversion e source target
    | none, none => return e
    | none, some sourceShape =>
      if sourceShape.needsCast shape then castExpr e sourceShape shape
      else implicitConversion e source target

/-- Converts an expression for a cast.  An unknown type, or a target without a shape, leaves the
expression as it is. -/
def explicitConversion (e : Expr) (source target : Option SourceType) : Convert Expr :=
  match source, target with
  | some source, some target =>
    match target.shape? with
    | some shape => castConversion e source target shape
    | none => return e
  | _, _ => return e

end SolidityEncoding
