import SolidityEncoding.Proofs.Typing.Soundness

/-!
# Rules for building typed expressions

The equivalences of type inference, read from right to left, are rules for building typed
expressions.  `Expr.Checks` says that an expression has a type and keeps the promise that bitvector
literals fit their widths, and there is one rule for every node that an encoding builds.
-/

namespace SolidityEncoding

/-! ### Types of operators -/

namespace BinaryOp

variable {op : BinaryOp}

theorem resultTy_of_arithmetic (hop : op.isArithmetic) : op.resultTy .int .int = .ok .int := by
  cases op <;> first | rfl | cases hop

theorem resultTy_of_ordering (hop : op.isOrdering) : op.resultTy .int .int = .ok .bool := by
  cases op <;> first | rfl | cases hop

theorem resultTy_of_equality (hop : op.isEquality) (ty : Ty) : op.resultTy ty ty = .ok .bool := by
  cases op <;> try cases hop
  all_goals exact bind_eq_ok_iff.2 ⟨(), TypedPlace.expect_eq_ok_iff.2 rfl, rfl⟩

end BinaryOp

theorem Word.mod_modulus_lt (value : Nat) (width : UInt32) :
    value % Word.modulus width < Word.modulus width :=
  Nat.mod_lt value (Word.modulus_pos width)

/-! ### Expressions -/

/-- An expression has a type, and its bitvector literals fit their widths under a condition on the
expressions that it is built from. -/
structure Expr.Checks (typing : Typing) (fit : Prop) (e : Expr) (ty : Ty) : Prop where
  infer : e.infer typing = .ok ty
  literals : fit → e.LiteralsFit

namespace Expr.Checks

variable {typing : Typing} {fit : Prop} {ty : Ty} {width : UInt32}
  {e lhs rhs cond thenExpr elseExpr : Expr}

theorem int (value : Int) : (Expr.int value).Checks typing fit .int := ⟨rfl, fun _ => trivial⟩

theorem bv {value : Nat} (h : value < Word.modulus width) :
    (Expr.bv value width).Checks typing fit (.bv width) := ⟨rfl, fun _ => h⟩

theorem bvOf (value : Nat) : (Expr.bvOf value width).Checks typing fit (.bv width) :=
  bv (Word.mod_modulus_lt value width)

theorem neg (h : e.Checks typing fit .int) :
    (Expr.unary .neg e).Checks typing fit .int where
  infer := Expr.infer_unary_eq_ok_iff.2 ⟨h.infer, rfl⟩
  literals := h.literals

section Binary

variable {op : BinaryOp}

theorem arithmetic (hop : op.isArithmetic) (hl : lhs.Checks typing fit .int)
    (hr : rhs.Checks typing fit .int) : (Expr.binary op lhs rhs).Checks typing fit .int where
  infer := Expr.infer_binary_eq_ok_iff.2
    ⟨_, _, hl.infer, hr.infer, BinaryOp.resultTy_of_arithmetic hop⟩
  literals := fun hfit => ⟨hl.literals hfit, hr.literals hfit⟩

theorem ordering (hop : op.isOrdering) (hl : lhs.Checks typing fit .int)
    (hr : rhs.Checks typing fit .int) : (Expr.binary op lhs rhs).Checks typing fit .bool where
  infer := Expr.infer_binary_eq_ok_iff.2
    ⟨_, _, hl.infer, hr.infer, BinaryOp.resultTy_of_ordering hop⟩
  literals := fun hfit => ⟨hl.literals hfit, hr.literals hfit⟩

theorem equality (hop : op.isEquality) (hl : lhs.Checks typing fit ty)
    (hr : rhs.Checks typing fit ty) : (Expr.binary op lhs rhs).Checks typing fit .bool where
  infer := Expr.infer_binary_eq_ok_iff.2
    ⟨_, _, hl.infer, hr.infer, BinaryOp.resultTy_of_equality hop ty⟩
  literals := fun hfit => ⟨hl.literals hfit, hr.literals hfit⟩

end Binary

theorem ite (hc : cond.Checks typing fit .bool) (ht : thenExpr.Checks typing fit ty)
    (he : elseExpr.Checks typing fit ty) :
    (Expr.ite cond thenExpr elseExpr).Checks typing fit ty where
  infer := Expr.infer_ite_eq_ok_iff.2 ⟨hc.infer, ht.infer, he.infer⟩
  literals := fun hfit => ⟨hc.literals hfit, ht.literals hfit, he.literals hfit⟩

theorem bvUnary (op : BvUnaryOp) (h : e.Checks typing fit (.bv width)) :
    (Expr.bvUnary op width e).Checks typing fit (.bv width) where
  infer := Expr.infer_bvUnary_eq_ok_iff.2 ⟨h.infer, rfl⟩
  literals := h.literals

theorem bvBinary (op : BvBinaryOp) (hl : lhs.Checks typing fit (.bv width))
    (hr : rhs.Checks typing fit (.bv width)) :
    (Expr.bvBinary op width lhs rhs).Checks typing fit
      (if op.isPredicate then .bool else .bv width) where
  infer := Expr.infer_bvBinary_eq_ok_iff.2 ⟨hl.infer, hr.infer, rfl⟩
  literals := fun hfit => ⟨hl.literals hfit, hr.literals hfit⟩

theorem extend (kind : Extension) {source target : UInt32} (hle : source ≤ target)
    (h : e.Checks typing fit (.bv source)) :
    (Expr.extend kind source target e).Checks typing fit (.bv target) where
  infer := Expr.infer_extend_eq_ok_iff.2 ⟨hle, h.infer, rfl⟩
  literals := h.literals

theorem extract {hi lo slice : UInt32} (hle : lo ≤ hi) (hlt : hi < width)
    (hslice : hi - lo + 1 = slice) (h : e.Checks typing fit (.bv width)) :
    (Expr.extract e hi lo).Checks typing fit (.bv slice) where
  infer := Expr.infer_extract_eq_ok_iff.2 ⟨width, h.infer, hle, hlt, hslice ▸ rfl⟩
  literals := h.literals

end Expr.Checks

/-! ### Lists of expressions -/

/-- The expressions of a list have types, and their bitvector literals fit their widths under a
condition. -/
structure Expr.AllCheck (typing : Typing) (fit : Prop) (es : List Expr) (tys : List Ty) : Prop where
  infer : Expr.inferAll typing es = .ok tys
  literals : fit → Expr.AllLiteralsFit es

namespace Expr

variable {typing : Typing} {fit : Prop} {e : Expr} {es : List Expr} {ty : Ty} {tys : List Ty}

theorem AllCheck.nil : AllCheck typing fit [] [] := ⟨rfl, fun _ => trivial⟩

theorem AllCheck.cons (h : e.Checks typing fit ty) (hrest : AllCheck typing fit es tys) :
    AllCheck typing fit (e :: es) (ty :: tys) where
  infer := inferAll_cons_eq_ok_iff.2 ⟨ty, tys, h.infer, hrest.infer, rfl⟩
  literals := fun hfit => ⟨h.literals hfit, hrest.literals hfit⟩

theorem AllCheck.exists_cons (h : AllCheck typing fit (e :: es) tys) :
    ∃ ty rest, tys = ty :: rest ∧ e.Checks typing fit ty ∧ AllCheck typing fit es rest := by
  obtain ⟨hinfer, hliterals⟩ := h
  obtain ⟨ty, rest, hty, hrest, rfl⟩ := inferAll_cons_eq_ok_iff.1 hinfer
  exact ⟨ty, rest, rfl, ⟨hty, fun hfit => (hliterals hfit).1⟩,
    ⟨hrest, fun hfit => (hliterals hfit).2⟩⟩

theorem Checks.tuple (h : AllCheck typing fit es tys) :
    (Expr.tuple es).Checks typing fit (.tuple tys) where
  infer := infer_tuple_eq_ok_iff.2 ⟨tys, h.infer, rfl⟩
  literals := h.literals

theorem Checks.exists_tuple (h : (Expr.tuple es).Checks typing fit ty) :
    ∃ tys, ty = .tuple tys ∧ AllCheck typing fit es tys := by
  obtain ⟨hinfer, hliterals⟩ := h
  obtain ⟨tys, htys, rfl⟩ := infer_tuple_eq_ok_iff.1 hinfer
  exact ⟨tys, rfl, htys, hliterals⟩

end Expr

end SolidityEncoding
