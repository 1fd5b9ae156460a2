import SolidityEncoding.Encoding.Basic
import SolidityEncoding.Json.Reading
import SolidityEncoding.Layout
import SolidityEncoding.Program
import SolidityEncoding.Source.Basic
import SolidityEncoding.Source.Location

/-!
# The JSON form of programs

Every type of the library that can be stored has a `toJson` and a `reading`.  A structure is an
object with its fields in order, and a case is named as in the outline of an expression.  Numbers
that may be large are lists of 32-bit limbs, least significant first, with a sign before them if
there can be one.
-/

namespace SolidityEncoding

open Json (Reading)

namespace Json

/-! ### Numbers -/

/-- A width or another 32-bit number. -/
def word (value : UInt32) : Json := .nat value.toNat

/-- Reads a 32-bit number. -/
def wordReading : Reading UInt32 := (Reading.natBelow UInt32.size).map Nat.toUInt32

/-- The limbs of a number. -/
def limbs (n : Nat) : List Nat :=
  if n = 0 then [] else n % UInt32.size :: limbs (n / UInt32.size)
termination_by n
decreasing_by exact Nat.div_lt_self (by omega) (by decide)

/-- The number of a list of limbs. -/
def ofLimbs : List Nat → Nat
  | [] => 0
  | limb :: rest => limb + UInt32.size * ofLimbs rest

/-- A natural number of any size. -/
def bigNat (n : Nat) : Json := .list .nat (limbs n)

/-- Reads a natural number of any size. -/
def bigNatReading : Reading Nat := (Reading.natBelow UInt32.size).list.map ofLimbs

/-- An integer of any size. -/
def bigInt (n : Int) : Json := .array [.int n.sign, bigNat n.natAbs]

/-- Reads an integer of any size. -/
def bigIntReading : Reading Int :=
  (Reading.pair (Reading.intIn (-1) 2) bigNatReading).map fun (sign, n) => sign * n

end Json

/-! ### Types and expressions -/

namespace Ty

mutual

/-- The JSON form of a type. -/
def toJson : Ty → Json
  | .bool => .text "Bool"
  | .int => .text "Int"
  | .bv width => .tagged "Bv" (.word width)
  | .map key value => .tagged "Map" (.array [key.toJson, value.toJson])
  | .named name => .tagged "Named" (.text name)
  | .tuple elements => .tagged "Tuple" (.array (allToJson elements))

/-- The JSON forms of a list of types. -/
def allToJson : List Ty → List Json
  | [] => []
  | ty :: rest => ty.toJson :: allToJson rest

end

/-- Reads a type. -/
def reading : Reading Ty :=
  .fix fun self => .case fun depth tag content =>
    match tag with
    | "Bool" => Reading.unit .bool depth content
    | "Int" => Reading.unit .int depth content
    | "Bv" => (Json.wordReading.map .bv).field depth content
    | "Map" => ((Reading.pair self self).map fun (k, v) => .map k v).field depth content
    | "Named" => (Reading.text.map .named).field depth content
    | "Tuple" => (self.list.map .tuple).field depth content
    | _ => none

end Ty

namespace Expr

mutual

/-- The JSON form of an expression. -/
def toJson : Expr → Json
  | .bool value => .tagged "BoolLit" (.bool value)
  | .int value => .tagged "IntLit" (.bigInt value)
  | .bv value width =>
    .tagged "BvLit" (.object [("value", .bigNat value), ("width", .word width)])
  | .ident name => .tagged "Id" (.text name)
  | .unary op operand =>
    .tagged "Unary" (.object [("op", .text op.name), ("operand", operand.toJson)])
  | .binary op lhs rhs =>
    .tagged "Binary"
      (.object [("op", .text op.name), ("lhs", lhs.toJson), ("rhs", rhs.toJson)])
  | .ite cond thenExpr elseExpr =>
    .tagged "Cond"
      (.object [("cond", cond.toJson), ("then_expr", thenExpr.toJson),
        ("else_expr", elseExpr.toJson)])
  | .select base index =>
    .tagged "Select" (.object [("base", base.toJson), ("index", index.toJson)])
  | .update base index value =>
    .tagged "Update"
      (.object [("base", base.toJson), ("index", index.toJson), ("value", value.toJson)])
  | .tuple elements => .tagged "Tuple" (.array (allToJson elements))
  | .bvUnary op width operand =>
    .tagged "BvUnary"
      (.object [("op", .text op.name), ("width", .word width), ("operand", operand.toJson)])
  | .bvBinary op width lhs rhs =>
    .tagged "BvBinary"
      (.object [("op", .text op.name), ("width", .word width), ("lhs", lhs.toJson),
        ("rhs", rhs.toJson)])
  | .extend kind source target operand =>
    .tagged "BvExtend"
      (.object [("kind", .text kind.name), ("from", .word source), ("to", .word target),
        ("operand", operand.toJson)])
  | .extract operand hi lo =>
    .tagged "BvExtract"
      (.object [("operand", operand.toJson), ("hi", .word hi), ("lo", .word lo)])
  | .error => .text "Error"

/-- The JSON forms of a list of expressions. -/
def allToJson : List Expr → List Json
  | [] => []
  | e :: rest => e.toJson :: allToJson rest

end

/-- Reads the fields of a case that is written as a structure. -/
def readingFields (self : Reading Expr) (tag : String) : Reading Expr :=
  let word := Json.wordReading
  match tag with
  | "BvLit" => .record ["value", "width"] fun
    | depth, [value, width] => do
      return .bv (← Json.bigNatReading.field depth value) (← word.field depth width)
    | _, _ => none
  | "Unary" => .record ["op", "operand"] fun
    | depth, [op, operand] => do
      let op ← (Reading.oneOf UnaryOp.name UnaryOp.all).field depth op
      return .unary op (← self.field depth operand)
    | _, _ => none
  | "Binary" => .record ["op", "lhs", "rhs"] fun
    | depth, [op, lhs, rhs] => do
      let op ← (Reading.oneOf BinaryOp.name BinaryOp.all).field depth op
      return .binary op (← self.field depth lhs) (← self.field depth rhs)
    | _, _ => none
  | "Cond" => .record ["cond", "then_expr", "else_expr"] fun
    | depth, [cond, thenExpr, elseExpr] => do
      return .ite (← self.field depth cond) (← self.field depth thenExpr)
        (← self.field depth elseExpr)
    | _, _ => none
  | "Select" => .record ["base", "index"] fun
    | depth, [base, index] => do
      return .select (← self.field depth base) (← self.field depth index)
    | _, _ => none
  | "Update" => .record ["base", "index", "value"] fun
    | depth, [base, index, value] => do
      return .update (← self.field depth base) (← self.field depth index)
        (← self.field depth value)
    | _, _ => none
  | "BvUnary" => .record ["op", "width", "operand"] fun
    | depth, [op, width, operand] => do
      let op ← (Reading.oneOf BvUnaryOp.name BvUnaryOp.all).field depth op
      return .bvUnary op (← word.field depth width) (← self.field depth operand)
    | _, _ => none
  | "BvBinary" => .record ["op", "width", "lhs", "rhs"] fun
    | depth, [op, width, lhs, rhs] => do
      let op ← (Reading.oneOf BvBinaryOp.name BvBinaryOp.all).field depth op
      return .bvBinary op (← word.field depth width) (← self.field depth lhs)
        (← self.field depth rhs)
    | _, _ => none
  | "BvExtend" => .record ["kind", "from", "to", "operand"] fun
    | depth, [kind, source, target, operand] => do
      let kind ← (Reading.oneOf Extension.name Extension.all).field depth kind
      return .extend kind (← word.field depth source) (← word.field depth target)
        (← self.field depth operand)
    | _, _ => none
  | "BvExtract" => .record ["operand", "hi", "lo"] fun
    | depth, [operand, hi, lo] => do
      return .extract (← self.field depth operand) (← word.field depth hi)
        (← word.field depth lo)
    | _, _ => none
  | _ => fun _ _ => none

/-- Reads an expression. -/
def reading : Reading Expr :=
  .fix fun self => .case fun depth tag content =>
    match tag with
    | "Error" => Reading.unit .error depth content
    | "BoolLit" => (Reading.bool.map .bool).field depth content
    | "IntLit" => (Json.bigIntReading.map .int).field depth content
    | "Id" => (Reading.text.map .ident).field depth content
    | "Tuple" => (self.list.map .tuple).field depth content
    | tag => (readingFields self tag).field depth content

end Expr

/-! ### Statements -/

/-- The JSON form of an argument of an attribute. -/
def AttributeArg.toJson : AttributeArg → Json
  | .int value => .tagged "Int" (.int value)
  | .text value => .tagged "Str" (.text value)

/-- Reads an argument of an attribute; its numbers have 64 bits and a sign. -/
def AttributeArg.reading : Reading AttributeArg :=
  let int64 := Reading.intIn Int64.minValue.toInt (Int64.maxValue.toInt + 1)
  .case fun depth tag content =>
    match tag with
    | "Int" => (int64.map .int).field depth content
    | "Str" => (Reading.text.map .text).field depth content
    | _ => none

/-- The JSON form of an attribute. -/
def Attribute.toJson (a : Attribute) : Json :=
  .object [("name", .text a.name), ("args", .list AttributeArg.toJson a.args)]

/-- Reads an attribute. -/
def Attribute.reading : Reading Attribute :=
  .record ["name", "args"] fun
    | depth, [name, args] => do
      return ⟨← Reading.text.field depth name, ← AttributeArg.reading.list.field depth args⟩
    | _, _ => none

namespace Stmt

mutual

/-- The JSON form of a statement. -/
def toJson : Stmt → Json
  | .assign lhs rhs => .tagged "Assign" (.object [("lhs", lhs.toJson), ("rhs", rhs.toJson)])
  | .assume condition => .tagged "Assume" condition.toJson
  | .assert condition attributes =>
    .tagged "Assert"
      (.object [("expr", condition.toJson), ("attrs", .list Attribute.toJson attributes)])
  | .comment text => .tagged "Comment" (.text text)
  | .branch condition thenBlock elseBlock =>
    .tagged "IfElse"
      (.object [("cond", .optional Expr.toJson condition),
        ("then_block", .object [("stmts", .array (allToJson thenBlock))]),
        ("else_block", elseToJson elseBlock)])
  | .block body => .tagged "Block" (.object [("stmts", .array (allToJson body))])

/-- The JSON forms of a list of statements. -/
def allToJson : List Stmt → List Json
  | [] => []
  | stmt :: rest => stmt.toJson :: allToJson rest

/-- The JSON form of a block that may be missing. -/
def elseToJson : Option (List Stmt) → Json
  | none => .null
  | some body => .object [("stmts", .array (allToJson body))]

end

/-- The JSON form of a block. -/
def blockToJson (body : List Stmt) : Json := .object [("stmts", .array (allToJson body))]

/-- Reads a block of statements. -/
def blockReading (self : Reading Stmt) : Reading (List Stmt) :=
  .record ["stmts"] fun
    | depth, [stmts] => self.list.field depth stmts
    | _, _ => none

/-- Reads a statement. -/
def reading : Reading Stmt :=
  .fix fun self => .case fun depth tag content =>
    match tag with
    | "Assign" =>
      (Reading.record ["lhs", "rhs"] fun
        | depth, [lhs, rhs] => do
          return Stmt.assign (← Expr.reading.field depth lhs) (← Expr.reading.field depth rhs)
        | _, _ => none).field depth content
    | "Assume" => (Expr.reading.map .assume).field depth content
    | "Assert" =>
      (Reading.record ["expr", "attrs"] fun
        | depth, [e, attributes] => do
          return Stmt.assert (← Expr.reading.field depth e)
            (← Attribute.reading.list.field depth attributes)
        | _, _ => none).field depth content
    | "Comment" => (Reading.text.map .comment).field depth content
    | "IfElse" =>
      (Reading.record ["cond", "then_block", "else_block"] fun
        | depth, [condition, thenBlock, elseBlock] => do
          return Stmt.branch (← Expr.reading.optionalField depth condition)
            (← (blockReading self).field depth thenBlock)
            (← (blockReading self).optionalField depth elseBlock)
        | _, _ => none).field depth content
    | "Block" => ((blockReading self).map .block).field depth content
    | _ => none

end Stmt

/-! ### Declarations and programs -/

/-- The JSON form of a name with a type. -/
def Binding.toJson (b : Binding) : Json :=
  .object [("name", .text b.name), ("ty", b.ty.toJson)]

/-- Reads a name with a type. -/
def Binding.reading : Reading Binding :=
  .record ["name", "ty"] fun
    | depth, [name, ty] => do
      return ⟨← Reading.text.field depth name, ← Ty.reading.field depth ty⟩
    | _, _ => none

namespace Decl

/-- The JSON form of a declaration. -/
def toJson : Decl → Json
  | .type d =>
    .tagged "Type"
      (.object [("name", .text d.name), ("attrs", .list Attribute.toJson d.attributes)])
  | .var d =>
    .tagged "Var"
      (.object [("name", .text d.name), ("ty", d.ty.toJson),
        ("attrs", .list Attribute.toJson d.attributes)])
  | .func d =>
    .tagged "Func"
      (.object [("name", .text d.name), ("attrs", .list Attribute.toJson d.attributes),
        ("params", .list Ty.toJson d.params), ("returns", d.returns.toJson)])
  | .procedure d =>
    .tagged "Proc"
      (.object [("name", .text d.name), ("params", .list Binding.toJson d.params),
        ("returns", .list Binding.toJson d.returns), ("modifies", .list .text d.modifies),
        ("attrs", .list Attribute.toJson d.attributes), ("body", Stmt.blockToJson d.body)])

/-- Reads a declaration. -/
def reading : Reading Decl :=
  let text := Reading.text
  let attributes := Attribute.reading.list
  .case fun depth tag content =>
    match tag with
    | "Type" =>
      (Reading.record ["name", "attrs"] fun
        | depth, [name, attrs] => do
          return Decl.type ⟨← text.field depth name, ← attributes.field depth attrs⟩
        | _, _ => none).field depth content
    | "Var" =>
      (Reading.record ["name", "ty", "attrs"] fun
        | depth, [name, ty, attrs] => do
          return Decl.var ⟨← text.field depth name, ← Ty.reading.field depth ty,
            ← attributes.field depth attrs⟩
        | _, _ => none).field depth content
    | "Func" =>
      (Reading.record ["name", "attrs", "params", "returns"] fun
        | depth, [name, attrs, params, returns] => do
          return Decl.func ⟨← text.field depth name, ← attributes.field depth attrs,
            ← Ty.reading.list.field depth params, ← Ty.reading.field depth returns⟩
        | _, _ => none).field depth content
    | "Proc" =>
      (Reading.record ["name", "params", "returns", "modifies", "attrs", "body"] fun
        | depth, [name, params, returns, modifies, attrs, body] => do
          return Decl.procedure ⟨← text.field depth name,
            ← Binding.reading.list.field depth params,
            ← Binding.reading.list.field depth returns,
            ← text.list.field depth modifies, ← attributes.field depth attrs,
            ← (Stmt.blockReading Stmt.reading).field depth body⟩
        | _, _ => none).field depth content
    | _ => none

end Decl

namespace Program

/-- The JSON form of a program. -/
def toJson (program : Program) : Json :=
  .object [("decls", .object (program.decls.entries.map fun entry =>
    (entry.1, entry.2.toJson)))]

/-- Reads a table of declarations.  A name that occurs again keeps its place and gets the last
declaration. -/
def declsReading : Reading (Table Decl)
  | depth + 1, .object members => do
    let entries ← members.mapM fun (name, value) => do
      return (name, ← Decl.reading depth value)
    return .ofList entries
  | _, _ => none

/-- Reads a program. -/
def reading : Reading Program :=
  .record ["decls"] fun
    | depth, [decls] => (declsReading.map Program.mk).field depth decls
    | _, _ => none

end Program

/-! ### Source types and locations -/

namespace SourceType

mutual

/-- The JSON form of a source type. -/
def toJson : SourceType → Json
  | .bool => .text "Bool"
  | .uint bits => .tagged "Uint" (.nat bits.toNat)
  | .int bits => .tagged "Int" (.nat bits.toNat)
  | .address => .text "Address"
  | .fixedBytes count => .tagged "FixedBytes" (.nat count.toNat)
  | .bytes => .text "Bytes"
  | .string => .text "String"
  | .array element size => .tagged "Array" (.array [element.toJson, .optional .nat size])
  | .mapping key value => .tagged "Mapping" (.array [key.toJson, value.toJson])
  | .enum name members =>
    .tagged "Enum" (.object [("name", .text name), ("members", .list .text members)])
  | .tuple components => .tagged "Tuple" (.array (allToJson components))
  | .contract name => .tagged "Contract" (.text name)

/-- The JSON forms of the components of a tuple. -/
def allToJson : List (Option SourceType) → List Json
  | [] => []
  | none :: rest => .null :: allToJson rest
  | some type :: rest => type.toJson :: allToJson rest

end

/-- Reads a source type. -/
def reading : Reading SourceType :=
  let bits := (Reading.natBelow UInt16.size).map Nat.toUInt16
  .fix fun self => .case fun depth tag content =>
    match tag with
    | "Bool" => Reading.unit .bool depth content
    | "Uint" => (bits.map .uint).field depth content
    | "Int" => (bits.map .int).field depth content
    | "Address" => Reading.unit .address depth content
    | "FixedBytes" =>
      ((Reading.natBelow UInt8.size).map fun n => .fixedBytes n.toUInt8).field depth content
    | "Bytes" => Reading.unit .bytes depth content
    | "String" => Reading.unit .string depth content
    | "Array" =>
      ((Reading.pair self (Reading.natBelow UInt64.size).optional).map
        fun (element, size) => .array element size).field depth content
    | "Mapping" =>
      ((Reading.pair self self).map fun (key, value) => .mapping key value).field depth content
    | "Enum" =>
      (Reading.record ["name", "members"] fun
        | depth, [name, members] => do
          return SourceType.enum (← Reading.text.field depth name)
            (← Reading.text.list.field depth members)
        | _, _ => none).field depth content
    | "Tuple" => (self.optional.list.map .tuple).field depth content
    | "Contract" => (Reading.text.map .contract).field depth content
    | _ => none

end SourceType

namespace SourceLocation

/-- The JSON form of a location. -/
def toJson (location : SourceLocation) : Json :=
  .object [("file", .text location.file), ("line", .word location.line),
    ("column", .word location.column), ("end_line", .optional .word location.endLine),
    ("end_column", .optional .word location.endColumn), ("start_byte", .nat location.startByte),
    ("end_byte", .nat location.endByte)]

/-- Reads a location; its offsets have 64 bits. -/
def reading : Reading SourceLocation :=
  let word := Json.wordReading
  let offset := Reading.natBelow UInt64.size
  .record ["file", "line", "column", "end_line", "end_column", "start_byte", "end_byte"] fun
    | depth, [file, line, column, endLine, endColumn, startByte, endByte] => do
      return ⟨← Reading.text.field depth file, ← word.field depth line,
        ← word.field depth column, ← word.optionalField depth endLine,
        ← word.optionalField depth endColumn, ← offset.field depth startByte,
        ← offset.field depth endByte⟩
    | _, _ => none

end SourceLocation

/-! ### Configurations -/

namespace EncodingConfig

/-- The JSON form of a configuration. -/
def toJson (config : EncodingConfig) : Json :=
  .object [("encoding", .text config.encoding.shortName),
    ("check_overflow", .bool config.checkOverflow)]

/-- Reads a configuration; a missing field is as in the standard one. -/
def reading : Reading EncodingConfig :=
  .partialRecord ["encoding", "check_overflow"] fun
    | depth, [encoding, checkOverflow] => do
      let encodings := Reading.oneOf Encoding.shortName Encoding.all
      return ⟨← encodings.fieldOr standard.encoding depth encoding,
        ← Reading.bool.fieldOr standard.checkOverflow depth checkOverflow⟩
    | _, _ => none

end EncodingConfig

/-- The JSON form of an indentation. -/
def Indent.toJson : Indent → Json
  | .spaces count => .tagged "Spaces" (.nat count)
  | .tabs => .text "Tabs"

/-- Reads an indentation. -/
def Indent.reading : Reading Indent :=
  .case fun depth tag content =>
    match tag with
    | "Spaces" => ((Reading.natBelow UInt64.size).map .spaces).field depth content
    | "Tabs" => Reading.unit .tabs depth content
    | _ => none

namespace Style

/-- The JSON form of a style. -/
def toJson (style : Style) : Json :=
  .object [("use_colors", .bool style.colors), ("indent_style", style.indent.toJson),
    ("include_source_attrs", .bool style.sourceAttributes),
    ("include_comments", .bool style.comments)]

/-- Reads a style; a missing field is as in the standard one. -/
def reading : Reading Style :=
  .partialRecord ["use_colors", "indent_style", "include_source_attrs", "include_comments"] fun
    | depth, [colors, indent, sourceAttributes, comments] => do
      return ⟨← Reading.bool.fieldOr standard.colors depth colors,
        ← Indent.reading.fieldOr standard.indent depth indent,
        ← Reading.bool.fieldOr standard.sourceAttributes depth sourceAttributes,
        ← Reading.bool.fieldOr standard.comments depth comments⟩
    | _, _ => none

end Style

end SolidityEncoding
