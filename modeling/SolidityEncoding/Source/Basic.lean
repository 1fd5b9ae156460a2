import SolidityEncoding.Text.Quoted

/-!
# Types of Solidity

The types that operands have in the source language.  Integers, fixed-size byte strings and
enumerations are *bit-precise*: their values have a fixed number of bits and a sign rule, which
together are a `Shape`.  A tuple is bit-precise if all components that are present are, but it has
no shape of its own.
-/

namespace SolidityEncoding

/-- A type of the source language. -/
inductive SourceType where
  | bool
  /-- Unsigned integers of `bits` bits. -/
  | uint (bits : UInt16)
  /-- Signed integers of `bits` bits. -/
  | int (bits : UInt16)
  | address
  /-- Byte strings of `count` bytes. -/
  | fixedBytes (count : UInt8)
  | bytes
  | string
  /-- Arrays, of a fixed size if there is one. -/
  | array (element : SourceType) (size : Option Nat)
  | mapping (key value : SourceType)
  | enum (name : String) (members : List String)
  /-- Tuples.  A component may be missing, as on the left side of `(, x) = f()`. -/
  | tuple (components : List (Option SourceType))
  | contract (name : String)

/-- What decides how a type is encoded. -/
inductive TypeCategory where
  | integer
  | fixedBytes
  | enum
  | tuple
  | other
  deriving DecidableEq, Inhabited

/-- The number of bits of the values of a type, and whether they have a sign. -/
structure Shape where
  bits : UInt32
  signed : Bool
  deriving DecidableEq, Inhabited

/-- Why part of a shape cannot be given. -/
inductive ShapeError where
  | noWidth (type : String)
  | noSign (type : String)
  deriving DecidableEq, Inhabited

/-- The text of an error. -/
def ShapeError.message : ShapeError → String
  | .noWidth type => "bit width requested for non-bit-precise type " ++ type
  | .noSign type => "signedness requested for non-bit-precise type " ++ type

namespace SourceType

instance : Inhabited SourceType := ⟨.bool⟩

/-- The type `uint256`. -/
def uint256 : SourceType := .uint 256

/-- The category of a type. -/
def category : SourceType → TypeCategory
  | .uint _ | .int _ => .integer
  | .fixedBytes _ => .fixedBytes
  | .enum _ _ => .enum
  | .tuple _ => .tuple
  | _ => .other

/-- Whether a type is a tuple. -/
def isTuple : SourceType → Bool
  | .tuple _ => true
  | _ => false

mutual

/-- The text of a type. -/
def render : SourceType → String
  | .bool => "bool"
  | .uint bits => "uint" ++ toString bits.toNat
  | .int bits => "int" ++ toString bits.toNat
  | .address => "address"
  | .fixedBytes count => "bytes" ++ toString count.toNat
  | .bytes => "bytes"
  | .string => "string"
  | .array element size =>
    let sizeText := match size with
      | some n => toString n
      | none => ""
    element.render ++ "[" ++ sizeText ++ "]"
  | .mapping key value => "mapping(" ++ key.render ++ " => " ++ value.render ++ ")"
  | .enum name _ => "enum " ++ name
  | .tuple components => "tuple(" ++ ",".intercalate (renderAll components) ++ ")"
  | .contract name => "contract " ++ name

/-- The texts of the components of a tuple; a missing one has none. -/
def renderAll : List (Option SourceType) → List String
  | [] => []
  | none :: rest => "" :: renderAll rest
  | some type :: rest => type.render :: renderAll rest

end

mutual

/-- The text of a type in which every part is named. -/
def outline : SourceType → String
  | .bool => "Bool"
  | .uint bits => "Uint(" ++ toString bits.toNat ++ ")"
  | .int bits => "Int(" ++ toString bits.toNat ++ ")"
  | .address => "Address"
  | .fixedBytes count => "FixedBytes(" ++ toString count.toNat ++ ")"
  | .bytes => "Bytes"
  | .string => "String"
  | .array element size =>
    let sizeText := match size with
      | some n => "Some(" ++ toString n ++ ")"
      | none => "None"
    "Array(" ++ element.outline ++ ", " ++ sizeText ++ ")"
  | .mapping key value => "Mapping(" ++ key.outline ++ ", " ++ value.outline ++ ")"
  | .enum name members =>
    "Enum(EnumType \x7b name: " ++ Text.quote name ++ ", members: [" ++
      ", ".intercalate (members.map Text.quote) ++ "] \x7d)"
  | .tuple components => "Tuple([" ++ ", ".intercalate (outlineAll components) ++ "])"
  | .contract name => "Contract(" ++ Text.quote name ++ ")"

/-- The outlines of the components of a tuple. -/
def outlineAll : List (Option SourceType) → List String
  | [] => []
  | none :: rest => "None" :: outlineAll rest
  | some type :: rest => ("Some(" ++ type.outline ++ ")") :: outlineAll rest

end

mutual

/-- Whether the values of a type have a fixed number of bits and a sign rule. -/
def isBitPrecise : SourceType → Bool
  | .uint _ | .int _ | .fixedBytes _ | .enum _ _ => true
  | .tuple components => allBitPrecise components
  | _ => false

/-- Whether all components that are present are bit-precise. -/
def allBitPrecise : List (Option SourceType) → Bool
  | [] => true
  | none :: rest => allBitPrecise rest
  | some type :: rest => type.isBitPrecise && allBitPrecise rest

end

/-- The shape of a bit-precise type that is not a tuple. -/
def shape? : SourceType → Option Shape
  | .uint bits => some ⟨bits.toUInt32, false⟩
  | .int bits => some ⟨bits.toUInt32, true⟩
  | .fixedBytes count => some ⟨count.toUInt32 * 8, false⟩
  | .enum _ _ => some ⟨256, false⟩
  | _ => none

/-- The number of bits of the values of a type. -/
def width (type : SourceType) : Except ShapeError UInt32 :=
  match type.shape? with
  | some shape => .ok shape.bits
  | none => .error (.noWidth type.render)

/-- Whether the values of a type have a sign. -/
def isSigned (type : SourceType) : Except ShapeError Bool :=
  match type.shape? with
  | some shape => .ok shape.signed
  | none => .error (.noSign type.render)

theorem isSome_shape?_iff (type : SourceType) :
    type.shape?.isSome = (type.isBitPrecise && !type.isTuple) := by
  cases type <;> simp [shape?, isBitPrecise, isTuple]

end SourceType

end SolidityEncoding
