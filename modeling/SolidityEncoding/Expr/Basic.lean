import SolidityEncoding.Word

/-!
# Expressions of the verification language

An expression is built from literals and identifiers by operators on integers and truth values,
conditionals, reads and functional writes of maps, tuples, and the bitvector functions of SMT-LIB.
`Expr.error` stands for a source construct that has no counterpart; `containsError` finds it at
any depth.

Equality of expressions is decided by `Expr.same`.
-/

namespace SolidityEncoding

/-- Operators on integers, truth values and, for the two equalities, values of any type. -/
inductive BinaryOp where
  | add
  | sub
  | mul
  /-- Euclidean quotient. -/
  | div
  /-- Euclidean remainder. -/
  | mod
  | eq
  | neq
  | lt
  | gt
  | lte
  | gte
  | and
  | or
  | implies
  deriving DecidableEq, Inhabited

namespace BinaryOp

/-- Every operator, in order of declaration. -/
def all : List BinaryOp :=
  [.add, .sub, .mul, .div, .mod, .eq, .neq, .lt, .gt, .lte, .gte, .and, .or, .implies]

/-- The operator as it is written between its operands. -/
def symbol : BinaryOp → String
  | .add => "+"
  | .sub => "-"
  | .mul => "*"
  | .div => "div"
  | .mod => "mod"
  | .eq => "=="
  | .neq => "!="
  | .lt => "<"
  | .gt => ">"
  | .lte => "<="
  | .gte => ">="
  | .and => "&&"
  | .or => "||"
  | .implies => "==>"

/-- The name of the operator in the structural forms of an expression. -/
def name : BinaryOp → String
  | .add => "Add"
  | .sub => "Sub"
  | .mul => "Mul"
  | .div => "IntDiv"
  | .mod => "Mod"
  | .eq => "Eq"
  | .neq => "Neq"
  | .lt => "Lt"
  | .gt => "Gt"
  | .lte => "Lte"
  | .gte => "Gte"
  | .and => "And"
  | .or => "Or"
  | .implies => "Implies"

/-- Takes integers to an integer. -/
def isArithmetic : BinaryOp → Bool
  | .add | .sub | .mul | .div | .mod => true
  | _ => false

/-- Takes integers to a truth value. -/
def isOrdering : BinaryOp → Bool
  | .lt | .gt | .lte | .gte => true
  | _ => false

/-- Takes truth values to a truth value. -/
def isLogical : BinaryOp → Bool
  | .and | .or | .implies => true
  | _ => false

/-- Compares two values of any one type. -/
def isEquality : BinaryOp → Bool
  | .eq | .neq => true
  | _ => false

end BinaryOp

/-- Operators on one operand. -/
inductive UnaryOp where
  | not
  | neg
  deriving DecidableEq, Inhabited

namespace UnaryOp

/-- Every operator, in order of declaration. -/
def all : List UnaryOp := [.not, .neg]

/-- The operator as it is written before its operand. -/
def symbol : UnaryOp → String
  | .not => "!"
  | .neg => "-"

/-- The name of the operator in the structural forms of an expression. -/
def name : UnaryOp → String
  | .not => "Not"
  | .neg => "Neg"

end UnaryOp

/-- The SMT-LIB functions of two bitvectors of one width. -/
inductive BvBinaryOp where
  | add
  | sub
  | mul
  | udiv
  | sdiv
  | urem
  | srem
  | and
  | or
  | xor
  | shl
  | lshr
  | ashr
  | ult
  | ugt
  | ule
  | uge
  | slt
  | sgt
  | sle
  | sge
  deriving DecidableEq, Inhabited

namespace BvBinaryOp

/-- Every function, in order of declaration. -/
def all : List BvBinaryOp :=
  [.add, .sub, .mul, .udiv, .sdiv, .urem, .srem, .and, .or, .xor, .shl, .lshr, .ashr,
    .ult, .ugt, .ule, .uge, .slt, .sgt, .sle, .sge]

/-- The SMT-LIB name. -/
def smtName : BvBinaryOp → String
  | .add => "bvadd"
  | .sub => "bvsub"
  | .mul => "bvmul"
  | .udiv => "bvudiv"
  | .sdiv => "bvsdiv"
  | .urem => "bvurem"
  | .srem => "bvsrem"
  | .and => "bvand"
  | .or => "bvor"
  | .xor => "bvxor"
  | .shl => "bvshl"
  | .lshr => "bvlshr"
  | .ashr => "bvashr"
  | .ult => "bvult"
  | .ugt => "bvugt"
  | .ule => "bvule"
  | .uge => "bvuge"
  | .slt => "bvslt"
  | .sgt => "bvsgt"
  | .sle => "bvsle"
  | .sge => "bvsge"

/-- The name of the function in the structural forms of an expression. -/
def name : BvBinaryOp → String
  | .add => "Add"
  | .sub => "Sub"
  | .mul => "Mul"
  | .udiv => "UDiv"
  | .sdiv => "SDiv"
  | .urem => "URem"
  | .srem => "SRem"
  | .and => "And"
  | .or => "Or"
  | .xor => "Xor"
  | .shl => "Shl"
  | .lshr => "LShr"
  | .ashr => "AShr"
  | .ult => "Ult"
  | .ugt => "Ugt"
  | .ule => "Ule"
  | .uge => "Uge"
  | .slt => "Slt"
  | .sgt => "Sgt"
  | .sle => "Sle"
  | .sge => "Sge"

/-- The name under which the function is declared at a width. -/
def functionName (op : BvBinaryOp) (width : UInt32) : String :=
  op.smtName ++ toString width.toNat

/-- Comparisons yield a truth value; all other functions yield a bitvector. -/
def isPredicate : BvBinaryOp → Bool
  | .ult | .ugt | .ule | .uge | .slt | .sgt | .sle | .sge => true
  | _ => false

end BvBinaryOp

/-- The SMT-LIB functions of one bitvector. -/
inductive BvUnaryOp where
  | neg
  | not
  deriving DecidableEq, Inhabited

namespace BvUnaryOp

/-- Every function, in order of declaration. -/
def all : List BvUnaryOp := [.neg, .not]

/-- The SMT-LIB name. -/
def smtName : BvUnaryOp → String
  | .neg => "bvneg"
  | .not => "bvnot"

/-- The name of the function in the structural forms of an expression. -/
def name : BvUnaryOp → String
  | .neg => "Neg"
  | .not => "Not"

/-- The name under which the function is declared at a width. -/
def functionName (op : BvUnaryOp) (width : UInt32) : String :=
  op.smtName ++ toString width.toNat

end BvUnaryOp

/-- What the bits added by an extension are. -/
inductive Extension where
  /-- All added bits are zero. -/
  | zero
  /-- All added bits are copies of the sign bit. -/
  | sign
  deriving DecidableEq, Inhabited

namespace Extension

/-- Every extension, in order of declaration. -/
def all : List Extension := [.zero, .sign]

/-- The name of the extension in the structural forms of an expression. -/
def name : Extension → String
  | .zero => "Zero"
  | .sign => "Sign"

/-- The SMT-LIB name, which counts the added bits; there is none if the width shrinks. -/
def smtName? (kind : Extension) (source target : UInt32) : Option String :=
  if source ≤ target then
    let added := toString (target - source).toNat
    match kind with
    | .zero => some ("zero_extend " ++ added)
    | .sign => some ("sign_extend " ++ added)
  else none

/-- The name under which the extension is declared at a pair of widths. -/
def functionName (kind : Extension) (source target : UInt32) : String :=
  let widths := toString source.toNat ++ "_to_" ++ toString target.toNat
  match kind with
  | .zero => "bvzeroext_" ++ widths
  | .sign => "bvsignext_" ++ widths

end Extension

/-- An expression of the verification language. -/
inductive Expr where
  | bool (value : Bool)
  | int (value : Int)
  /-- A bitvector literal.  Well-formed ones are below `2 ^ width`. -/
  | bv (value : Nat) (width : UInt32)
  | ident (name : String)
  | unary (op : UnaryOp) (operand : Expr)
  | binary (op : BinaryOp) (lhs rhs : Expr)
  | ite (cond thenExpr elseExpr : Expr)
  /-- The value of the map `base` at `index`. -/
  | select (base index : Expr)
  /-- The map that is `value` at `index` and `base` everywhere else. -/
  | update (base index value : Expr)
  | tuple (elements : List Expr)
  | bvUnary (op : BvUnaryOp) (width : UInt32) (operand : Expr)
  | bvBinary (op : BvBinaryOp) (width : UInt32) (lhs rhs : Expr)
  | extend (kind : Extension) (source target : UInt32) (operand : Expr)
  /-- The bits `hi` down to `lo`, both included. -/
  | extract (operand : Expr) (hi lo : UInt32)
  /-- The place of a construct that could not be encoded. -/
  | error

namespace Expr

instance : Inhabited Expr := ⟨.error⟩

/-- The bitvector literal of the low `width` bits of `value`. -/
def bvOf (value : Nat) (width : UInt32) : Expr := .bv (value % Word.modulus width) width

theorem bvOf_of_lt {value : Nat} {width : UInt32} (h : value < Word.modulus width) :
    bvOf value width = .bv value width := by
  rw [bvOf, Nat.mod_eq_of_lt h]

/-- The conjunction of a list, grouped to the left; `true` if the list is empty. -/
def conj : List Expr → Expr
  | [] => .bool true
  | first :: rest => rest.foldl (.binary .and) first

/-- The integer that the expression is a literal of. -/
def intLit? : Expr → Option Int
  | .int value => some value
  | _ => none

/-- The value and width of a bitvector literal. -/
def bvLit? : Expr → Option (Nat × UInt32)
  | .bv value width => some (value, width)
  | _ => none

/-- The truth value that the expression is a literal of. -/
def boolLit? : Expr → Option Bool
  | .bool value => some value
  | _ => none

theorem eq_int_of_intLit? {e : Expr} {value : Int} (h : e.intLit? = some value) :
    e = .int value := by
  cases e with
  | int literal =>
    cases h
    rfl
  | _ => cases h

theorem eq_bv_of_bvLit? {e : Expr} {value : Nat} {width : UInt32}
    (h : e.bvLit? = some (value, width)) : e = .bv value width := by
  cases e with
  | bv literal literalWidth =>
    cases h
    rfl
  | _ => cases h

/-- Whether the expression is the error placeholder itself. -/
def isError : Expr → Bool
  | .error => true
  | _ => false

/-- Whether the expression reads a map. -/
def isSelect : Expr → Bool
  | .select .. => true
  | _ => false

mutual

/-- Whether the error placeholder occurs anywhere in the expression. -/
def containsError : Expr → Bool
  | .error => true
  | .bool _ | .int _ | .bv _ _ | .ident _ => false
  | .unary _ operand => operand.containsError
  | .binary _ lhs rhs => lhs.containsError || rhs.containsError
  | .ite cond thenExpr elseExpr =>
    cond.containsError || thenExpr.containsError || elseExpr.containsError
  | .select base index => base.containsError || index.containsError
  | .update base index value =>
    base.containsError || index.containsError || value.containsError
  | .tuple elements => anyContainsError elements
  | .bvUnary _ _ operand => operand.containsError
  | .bvBinary _ _ lhs rhs => lhs.containsError || rhs.containsError
  | .extend _ _ _ operand => operand.containsError
  | .extract operand _ _ => operand.containsError

/-- Whether the error placeholder occurs anywhere in a list of expressions. -/
def anyContainsError : List Expr → Bool
  | [] => false
  | e :: rest => e.containsError || anyContainsError rest

end

mutual

/-- Whether two expressions are the same. -/
def same : Expr → Expr → Bool
  | .bool value, .bool value' => value == value'
  | .int value, .int value' => value == value'
  | .bv value width, .bv value' width' => value == value' && width == width'
  | .ident name, .ident name' => name == name'
  | .unary op operand, .unary op' operand' => op == op' && operand.same operand'
  | .binary op lhs rhs, .binary op' lhs' rhs' => op == op' && (lhs.same lhs' && rhs.same rhs')
  | .ite cond thenExpr elseExpr, .ite cond' thenExpr' elseExpr' =>
    cond.same cond' && (thenExpr.same thenExpr' && elseExpr.same elseExpr')
  | .select base index, .select base' index' => base.same base' && index.same index'
  | .update base index value, .update base' index' value' =>
    base.same base' && (index.same index' && value.same value')
  | .tuple elements, .tuple elements' => sameAll elements elements'
  | .bvUnary op width operand, .bvUnary op' width' operand' =>
    op == op' && (width == width' && operand.same operand')
  | .bvBinary op width lhs rhs, .bvBinary op' width' lhs' rhs' =>
    op == op' && (width == width' && (lhs.same lhs' && rhs.same rhs'))
  | .extend kind source target operand, .extend kind' source' target' operand' =>
    kind == kind' && (source == source' && (target == target' && operand.same operand'))
  | .extract operand hi lo, .extract operand' hi' lo' =>
    operand.same operand' && (hi == hi' && lo == lo')
  | .error, .error => true
  | _, _ => false

/-- Whether two lists of expressions are the same. -/
def sameAll : List Expr → List Expr → Bool
  | [], [] => true
  | e :: rest, e' :: rest' => e.same e' && sameAll rest rest'
  | _, _ => false

end

mutual

theorem same_eq_true_iff : ∀ a b : Expr, a.same b = true ↔ a = b
  | .bool value, b => by cases b <;> simp [same]
  | .int value, b => by cases b <;> simp [same]
  | .bv value width, b => by cases b <;> simp [same]
  | .ident name, b => by cases b <;> simp [same]
  | .unary op operand, b => by cases b <;> simp [same, same_eq_true_iff operand]
  | .binary op lhs rhs, b => by
    cases b <;> simp [same, same_eq_true_iff lhs, same_eq_true_iff rhs]
  | .ite cond thenExpr elseExpr, b => by
    cases b <;>
      simp [same, same_eq_true_iff cond, same_eq_true_iff thenExpr, same_eq_true_iff elseExpr]
  | .select base index, b => by
    cases b <;> simp [same, same_eq_true_iff base, same_eq_true_iff index]
  | .update base index value, b => by
    cases b <;>
      simp [same, same_eq_true_iff base, same_eq_true_iff index, same_eq_true_iff value]
  | .tuple elements, b => by cases b <;> simp [same, sameAll_eq_true_iff elements]
  | .bvUnary op width operand, b => by cases b <;> simp [same, same_eq_true_iff operand]
  | .bvBinary op width lhs rhs, b => by
    cases b <;> simp [same, same_eq_true_iff lhs, same_eq_true_iff rhs]
  | .extend kind source target operand, b => by
    cases b <;> simp [same, same_eq_true_iff operand]
  | .extract operand hi lo, b => by cases b <;> simp [same, same_eq_true_iff operand]
  | .error, b => by cases b <;> simp [same]

theorem sameAll_eq_true_iff : ∀ a b : List Expr, sameAll a b = true ↔ a = b
  | [], b => by cases b <;> simp [sameAll]
  | e :: rest, b => by
    cases b <;> simp [sameAll, same_eq_true_iff e, sameAll_eq_true_iff rest]

end

instance : DecidableEq Expr := fun a b => decidable_of_iff _ (same_eq_true_iff a b)

end Expr

end SolidityEncoding
