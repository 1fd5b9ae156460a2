import SolidityEncoding.Encoding.Range
import SolidityEncoding.Proofs.Fallible
import SolidityEncoding.Proofs.Word.SmtLib

/-!
# Values of compound expressions

The cases of evaluation as equations, and then the value of an expression from the values of its
parts, for the expressions that encodings of integers are built from: arithmetic and comparisons of
integers, equality, conditionals, range constraints, and the bitvector functions.
-/

namespace SolidityEncoding.Expr

variable {store : Store}

/-! ### The cases of evaluation -/

theorem eval_bool (store : Store) (value : Bool) :
    (Expr.bool value).eval store = .ok (.bool value) := rfl

theorem eval_int (store : Store) (value : Int) :
    (Expr.int value).eval store = .ok (.int value) := rfl

theorem eval_bv (store : Store) (value : Nat) (width : UInt32) :
    (Expr.bv value width).eval store = .ok (.bv value width) := rfl

theorem eval_ident (store : Store) (name : String) :
    (Expr.ident name).eval store =
      match store.find? name with
      | some value => .ok value
      | none => .error (.unbound name) := rfl

theorem eval_not (store : Store) (operand : Expr) :
    (Expr.unary .not operand).eval store = (do
      let value ← (← operand.eval store).asBool
      return .bool (!value)) := rfl

theorem eval_neg (store : Store) (operand : Expr) :
    (Expr.unary .neg operand).eval store = (do
      let value ← (← operand.eval store).asInt
      return .int (-value)) := rfl

theorem eval_binary (store : Store) (op : BinaryOp) (lhs rhs : Expr) :
    (Expr.binary op lhs rhs).eval store = op.apply (lhs.eval store) (rhs.eval store) := rfl

theorem eval_ite (store : Store) (cond thenExpr elseExpr : Expr) :
    (Expr.ite cond thenExpr elseExpr).eval store = (do
      if ← (← cond.eval store).asBool then thenExpr.eval store else elseExpr.eval store) := rfl

theorem eval_select (store : Store) (base index : Expr) :
    (Expr.select base index).eval store = (do
      let base ← base.eval store
      let key ← index.eval store
      return (← base.asMap).get key) := rfl

theorem eval_update (store : Store) (base index value : Expr) :
    (Expr.update base index value).eval store = (do
      let m ← (← base.eval store).asMap
      let key ← index.eval store
      let value ← value.eval store
      return (m.set key value).toValue) := rfl

theorem eval_tuple (store : Store) (elements : List Expr) :
    (Expr.tuple elements).eval store = (do return .tuple (← evalAll store elements)) := rfl

theorem eval_bvUnary (store : Store) (op : BvUnaryOp) (width : UInt32) (operand : Expr) :
    (Expr.bvUnary op width operand).eval store = (do op.apply width (← operand.eval store)) := rfl

theorem eval_bvBinary (store : Store) (op : BvBinaryOp) (width : UInt32) (lhs rhs : Expr) :
    (Expr.bvBinary op width lhs rhs).eval store = (do
      let a ← lhs.eval store
      let b ← rhs.eval store
      op.apply width a b) := rfl

theorem eval_extend (store : Store) (kind : Extension) (source target : UInt32)
    (operand : Expr) :
    (Expr.extend kind source target operand).eval store = (do
      kind.apply target (← operand.eval store)) := rfl

theorem eval_extract (store : Store) (operand : Expr) (hi lo : UInt32) :
    (Expr.extract operand hi lo).eval store = (do (← operand.eval store).extract hi lo) := rfl

theorem evalAll_cons (store : Store) (e : Expr) (rest : List Expr) :
    evalAll store (e :: rest) = (do
      let value ← e.eval store
      return value :: (← evalAll store rest)) := rfl

theorem eval_ident_of_find? {name : String} {value : Value} (h : store.find? name = some value) :
    (Expr.ident name).eval store = .ok value := by
  rw [eval_ident, h]

/-! ### Integers -/

/-- Arithmetic and orderings of integers. -/
theorem eval_binary_of_int {op : BinaryOp} (hop : (op.isArithmetic || op.isOrdering) = true)
    {lhs rhs : Expr} {a b : Int} (hl : lhs.eval store = .ok (.int a))
    (hr : rhs.eval store = .ok (.int b)) :
    (Expr.binary op lhs rhs).eval store = op.applyInt a b := by
  rw [eval_binary, hl, hr]
  cases op <;> first | rfl | cases hop

theorem eval_div_of_int {lhs rhs : Expr} {a b : Int} (hl : lhs.eval store = .ok (.int a))
    (hr : rhs.eval store = .ok (.int b)) (hzero : b ≠ 0) :
    (Expr.binary .div lhs rhs).eval store = .ok (.int (a / b)) := by
  rw [eval_binary_of_int rfl hl hr, BinaryOp.applyInt_div, if_neg hzero]

theorem eval_mod_of_int {lhs rhs : Expr} {a b : Int} (hl : lhs.eval store = .ok (.int a))
    (hr : rhs.eval store = .ok (.int b)) (hzero : b ≠ 0) :
    (Expr.binary .mod lhs rhs).eval store = .ok (.int (a % b)) := by
  rw [eval_binary_of_int rfl hl hr, BinaryOp.applyInt_mod, if_neg hzero]

/-- An error of an operand is the error of the operation; the left operand comes first. -/
theorem eval_binary_of_error_left {op : BinaryOp} {lhs rhs : Expr} {e : EvalError}
    (hl : lhs.eval store = .error e) : (Expr.binary op lhs rhs).eval store = .error e := by
  rw [eval_binary, hl]
  cases op <;> rfl

theorem eval_eq_of_ok {lhs rhs : Expr} {a b : Value} (hl : lhs.eval store = .ok a)
    (hr : rhs.eval store = .ok b) :
    (Expr.binary .eq lhs rhs).eval store = .ok (.bool (decide (a = b))) := by
  rw [eval_binary, hl, hr]
  rfl

theorem eval_neq_of_ok {lhs rhs : Expr} {a b : Value} (hl : lhs.eval store = .ok a)
    (hr : rhs.eval store = .ok b) :
    (Expr.binary .neq lhs rhs).eval store = .ok (.bool (decide (a ≠ b))) := by
  rw [eval_binary, hl, hr]
  rfl

theorem eval_eq_of_int {lhs rhs : Expr} {a b : Int} (hl : lhs.eval store = .ok (.int a))
    (hr : rhs.eval store = .ok (.int b)) :
    (Expr.binary .eq lhs rhs).eval store = .ok (.bool (decide (a = b))) := by
  rw [eval_eq_of_ok hl hr]
  simp only [Value.int.injEq]

theorem eval_and_of_bool {lhs rhs : Expr} {c d : Prop} [Decidable c] [Decidable d]
    (hl : lhs.eval store = .ok (.bool (decide c))) (hr : rhs.eval store = .ok (.bool (decide d))) :
    (Expr.binary .and lhs rhs).eval store = .ok (.bool (decide (c ∧ d))) := by
  rw [eval_binary, hl, hr]
  by_cases hc : c <;> simp [BinaryOp.apply, Value.asBool, hc]

theorem eval_neg_of_int {operand : Expr} {a : Int} (h : operand.eval store = .ok (.int a)) :
    (Expr.unary .neg operand).eval store = .ok (.int (-a)) := by
  rw [eval_neg, h]
  rfl

theorem eval_ite_of_bool {cond thenExpr elseExpr : Expr} {c : Prop} [Decidable c]
    (h : cond.eval store = .ok (.bool (decide c))) :
    (Expr.ite cond thenExpr elseExpr).eval store =
      if c then thenExpr.eval store else elseExpr.eval store := by
  rw [eval_ite, h]
  by_cases hc : c <;> simp [Value.asBool, hc]

theorem eval_ite_of_error {cond thenExpr elseExpr : Expr} {e : EvalError}
    (h : cond.eval store = .error e) :
    (Expr.ite cond thenExpr elseExpr).eval store = .error e := by
  rw [eval_ite, h]
  rfl

/-! ### Ranges -/

theorem eval_between {e : Expr} {n : Int} (h : e.eval store = .ok (.int n)) (lowest highest : Int) :
    (between lowest highest e).eval store =
      .ok (.bool (decide (lowest ≤ n ∧ n ≤ highest))) := by
  have hlow : (Expr.binary .lte (.int lowest) e).eval store =
      .ok (.bool (decide (lowest ≤ n))) := eval_binary_of_int rfl (eval_int _ _) h
  have hhigh : (Expr.binary .lte e (.int highest)).eval store =
      .ok (.bool (decide (n ≤ highest))) := eval_binary_of_int rfl h (eval_int _ _)
  exact eval_and_of_bool hlow hhigh

/-- An enumeration is bounded by its members and not by its shape. -/
theorem eval_rangeConstraint {type : SourceType} {shape : Shape} (hshape : type.shape? = some shape)
    (henum : ∀ name members, type ≠ .enum name members) {e : Expr} {n : Int}
    (h : e.eval store = .ok (.int n)) :
    (rangeConstraint e type).eval store = .ok (.bool (decide (shape.Contains n))) := by
  cases type with
  | enum name members => exact absurd rfl (henum name members)
  | uint _ | int _ | fixedBytes _ =>
    cases hshape
    exact eval_between h _ _
  | _ => cases hshape

/-! ### Bitvectors -/

theorem eval_bvBinary_of_bits {op : BvBinaryOp} {width : UInt32} {lhs rhs : Expr}
    {x y : BitVec width.toNat} (hl : lhs.eval store = .ok (.ofBits x))
    (hr : rhs.eval store = .ok (.ofBits y)) :
    (Expr.bvBinary op width lhs rhs).eval store = .ok (op.smtLib x y) := by
  rw [eval_bvBinary, hl, hr]
  exact op.apply_ofBits x y

theorem eval_bvUnary_of_bits {op : BvUnaryOp} {width : UInt32} {operand : Expr}
    {x : BitVec width.toNat} (h : operand.eval store = .ok (.ofBits x)) :
    (Expr.bvUnary op width operand).eval store = .ok (.ofBits (op.smtLib x)) := by
  rw [eval_bvUnary, h]
  exact op.apply_ofBits x

theorem eval_extend_of_bits {kind : Extension} {source target : UInt32} (hle : source ≤ target)
    {operand : Expr} {x : BitVec source.toNat} (h : operand.eval store = .ok (.ofBits x)) :
    (Expr.extend kind source target operand).eval store =
      .ok (.ofBits (kind.smtLib target.toNat x)) := by
  rw [eval_extend, h]
  exact kind.apply_ofBits hle x

theorem eval_extract_of_bits {source hi lo width : UInt32}
    (hw : Word.sliceWidth? hi lo = some width) {operand : Expr} {x : BitVec source.toNat}
    (h : operand.eval store = .ok (.ofBits x)) :
    (Expr.extract operand hi lo).eval store =
      .ok (.ofBits (x.extractLsb' lo.toNat width.toNat)) := by
  rw [eval_extract, h]
  exact Value.extract_ofBits x hw

end SolidityEncoding.Expr
