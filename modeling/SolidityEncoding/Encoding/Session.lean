import SolidityEncoding.Encoding.Naming

/-!
# Encoding sessions

All operations of one run share a session: its configuration, the diagnostics reported so far, and
the bitvector functions that encoded expressions refer to.  `Session.bvBinary` and its companions
build a bitvector node and make sure that its function is declared; declaring a function again
changes nothing.

An operation that always has a result is an `Encode`, and one that may be refused is a `Convert`.
What a refused operation has declared stays declared.
-/

namespace SolidityEncoding

/-- The number of a node of the source program. -/
structure NodeId where
  number : UInt32
  deriving DecidableEq, Inhabited

/-- The text of a node number. -/
def NodeId.render (node : NodeId) : String := "#" ++ toString node.number.toNat

/-- An error that was reported, with the node that it belongs to. -/
structure Diagnostic where
  node : Option NodeId
  error : EncodingError
  deriving Inhabited

/-- The text of a diagnostic. -/
def Diagnostic.message (diagnostic : Diagnostic) : String :=
  match diagnostic.node with
  | some node => node.render ++ ": " ++ diagnostic.error.message
  | none => diagnostic.error.message

/-- What the operations of one run share. -/
structure Session where
  config : EncodingConfig
  /-- The diagnostics, first reported first. -/
  diagnostics : List Diagnostic
  /-- The declarations of bitvector functions under their names, in order of first use. -/
  builtins : Table FuncDecl
  deriving Inhabited

/-- An operation of a session that always has a result. -/
abbrev Encode := StateM Session

/-- An operation of a session that may be refused. -/
abbrev Convert := ExceptT EncodingError Encode

/-- The declaration of a function of two bitvectors. -/
def BvBinaryOp.declaration (op : BvBinaryOp) (width : UInt32) : FuncDecl where
  name := op.functionName width
  attributes := [.bvBuiltin op.smtName]
  params := [.bv width, .bv width]
  returns := if op.isPredicate then .bool else .bv width

/-- The declaration of a function of one bitvector. -/
def BvUnaryOp.declaration (op : BvUnaryOp) (width : UInt32) : FuncDecl where
  name := op.functionName width
  attributes := [.bvBuiltin op.smtName]
  params := [.bv width]
  returns := .bv width

/-- The declaration of an extension; there is none if the width shrinks. -/
def Extension.declaration? (kind : Extension) (source target : UInt32) : Option FuncDecl :=
  (kind.smtName? source target).map fun smtName =>
    { name := kind.functionName source target
      attributes := [.bvBuiltin smtName]
      params := [.bv source]
      returns := .bv target }

namespace Session

/-- The session that has done nothing yet. -/
def start (config : EncodingConfig) : Session := ⟨config, [], .empty⟩

/-- The encoding of all integers. -/
def encoding (s : Session) : Encoding := s.config.encoding

/-- Declares a function, unless its name is declared. -/
def declare (s : Session) (decl : FuncDecl) : Session :=
  if s.builtins.contains decl.name then s
  else { s with builtins := s.builtins.insert decl.name decl }

/-- Reports an error. -/
def report (s : Session) (node : Option NodeId) (error : EncodingError) : Session :=
  { s with diagnostics := s.diagnostics ++ [⟨node, error⟩] }

/-- The session without its diagnostics. -/
def clearDiagnostics (s : Session) : Session := { s with diagnostics := [] }

/-- The declarations of the bitvector functions used so far. -/
def builtinDecls (s : Session) : List Decl := s.builtins.values.map .func

/-- The encoding of all integers. -/
def getEncoding : Encode Encoding := do return (← get).encoding

/-- An application of a function of two bitvectors. -/
def bvBinary (op : BvBinaryOp) (width : UInt32) (lhs rhs : Expr) : Encode Expr := do
  modify (·.declare (op.declaration width))
  return .bvBinary op width lhs rhs

/-- An application of a function of one bitvector. -/
def bvUnary (op : BvUnaryOp) (width : UInt32) (operand : Expr) : Encode Expr := do
  modify (·.declare (op.declaration width))
  return .bvUnary op width operand

/-- An extension of a bitvector of `source` bits to `target` bits. -/
def extend (kind : Extension) (source target : UInt32) (operand : Expr) : Convert Expr := do
  match kind.declaration? source target with
  | some decl =>
    modify (·.declare decl)
    return .extend kind source target operand
  | none => throw .outOfRange

end Session

namespace Encoding

/-- The type of addresses. -/
def addressTy : Ty := .named Reserved.addressTy

/-- The type of the map from addresses to balances. -/
def balanceTy (encoding : Encoding) : Ty := .map addressTy (encoding.wordTy 256)

mutual

/-- The type that a source type becomes. -/
def encodeTy (encoding : Encoding) : SourceType → Except EncodingError Ty
  | .bool => .ok .bool
  | .uint bits => .ok (encoding.wordTy bits.toUInt32)
  | .int bits => .ok (encoding.wordTy bits.toUInt32)
  | .fixedBytes count => .ok (encoding.wordTy (count.toUInt32 * 8))
  | .enum _ _ => .ok (encoding.wordTy 256)
  | .bytes => .ok (encoding.wordTy 256)
  | .string => .ok (encoding.wordTy 256)
  | .address => .ok addressTy
  | .contract _ => .ok addressTy
  | .array element _ => do return .map (encoding.wordTy 256) (← encoding.encodeTy element)
  | .mapping key value => do
    let key ← encoding.encodeTy key
    return .map key (← encoding.encodeTy value)
  | .tuple components => do return .tuple (← encoding.encodeTys components)

/-- The types that the components of a tuple become. -/
def encodeTys (encoding : Encoding) : List (Option SourceType) → Except EncodingError (List Ty)
  | [] => .ok []
  | none :: _ => .error (.unsupportedFeature .missingComponent)
  | some type :: rest => do
    let ty ← encoding.encodeTy type
    return ty :: (← encoding.encodeTys rest)

end

end Encoding

end SolidityEncoding
