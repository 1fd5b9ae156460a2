import SolidityEncoding.Proofs.Fallible
import SolidityEncoding.Proofs.Word.SmtLib
import SolidityEncoding.Typing

/-!
# Type inference

The two outcomes of typing an expression.  An error is never a mistake of typing itself
(`Expr.diagnosed_infer`).  A type says what the types of the parts are, and there is one equivalence
for every operation (`Expr.infer_select_eq_ok_iff` and so on): from left to right it takes a type
apart, from right to left it puts one together.
-/

namespace SolidityEncoding

/-! ### Errors -/

/-- An outcome of typing is a type, or else an error that describes the expression; it is none of
the two causes that stand for a mistake of typing itself. -/
def Diagnosed {α : Type} (outcome : Except TypingError α) : Prop :=
  ∀ error, outcome = .error error → error ≠ .outOfRange ∧ ∀ op, error ≠ .unclassified op

namespace Diagnosed

variable {α β : Type}

theorem ok (a : α) : Diagnosed (.ok a) := by
  intro error h
  cases h

theorem bind {outcome : Except TypingError α} {next : α → Except TypingError β}
    (h : Diagnosed outcome) (hnext : ∀ a, Diagnosed (next a)) : Diagnosed (outcome >>= next) := by
  cases outcome with
  | ok a => exact hnext a
  | error cause =>
    intro error herror
    cases herror
    exact h cause rfl

theorem error {cause : TypingError} (hrange : cause ≠ .outOfRange)
    (hclass : ∀ op, cause ≠ .unclassified op) : Diagnosed (Except.error cause : Except _ α) := by
  intro error herror
  cases herror
  exact ⟨hrange, hclass⟩

theorem expect (place : TypedPlace) (expected found : Ty) :
    Diagnosed (place.expect expected found) := by
  rw [TypedPlace.expect]
  split
  · exact ok ()
  · exact error nofun nofun

end Diagnosed

theorem BinaryOp.diagnosed_resultTy (op : BinaryOp) (lhs rhs : Ty) :
    Diagnosed (op.resultTy lhs rhs) := by
  cases op
  all_goals
    refine Diagnosed.bind (Diagnosed.expect _ _ _) fun _ => ?_
    first
      | exact Diagnosed.ok _
      | exact Diagnosed.bind (Diagnosed.expect _ _ _) fun _ => Diagnosed.ok _

namespace Expr

mutual

/-- Typing never makes a mistake of its own. -/
theorem diagnosed_infer (typing : Typing) : ∀ e : Expr, Diagnosed (e.infer typing)
  | .bool _ | .int _ | .bv _ _ => by
    rw [infer]
    exact Diagnosed.ok _
  | .ident name => by
    rw [infer]
    split
    · exact Diagnosed.ok _
    · exact Diagnosed.error nofun nofun
  | .error => by
    rw [infer]
    exact Diagnosed.error nofun nofun
  | .unary op operand => by
    unfold infer
    refine (diagnosed_infer typing operand).bind fun ty => ?_
    exact (Diagnosed.expect _ _ _).bind fun _ => Diagnosed.ok _
  | .binary op lhs rhs => by
    rw [infer]
    refine (diagnosed_infer typing lhs).bind fun lhsTy => ?_
    refine (diagnosed_infer typing rhs).bind fun rhsTy => ?_
    exact op.diagnosed_resultTy lhsTy rhsTy
  | .ite cond thenExpr elseExpr => by
    rw [infer]
    refine (diagnosed_infer typing cond).bind fun condTy => ?_
    refine (Diagnosed.expect _ _ _).bind fun _ => ?_
    refine (diagnosed_infer typing thenExpr).bind fun thenTy => ?_
    refine (diagnosed_infer typing elseExpr).bind fun elseTy => ?_
    exact (Diagnosed.expect _ _ _).bind fun _ => Diagnosed.ok _
  | .select base index => by
    rw [infer]
    refine (diagnosed_infer typing base).bind fun baseTy => ?_
    split
    · refine (diagnosed_infer typing index).bind fun indexTy => ?_
      exact (Diagnosed.expect _ _ _).bind fun _ => Diagnosed.ok _
    · exact Diagnosed.error nofun nofun
  | .update base index value => by
    rw [infer]
    refine (diagnosed_infer typing base).bind fun baseTy => ?_
    split
    · refine (diagnosed_infer typing index).bind fun indexTy => ?_
      refine (Diagnosed.expect _ _ _).bind fun _ => ?_
      refine (diagnosed_infer typing value).bind fun valueTy => ?_
      exact (Diagnosed.expect _ _ _).bind fun _ => Diagnosed.ok _
    · exact Diagnosed.error nofun nofun
  | .tuple elements => by
    rw [infer]
    exact (diagnosed_inferAll typing elements).bind fun _ => Diagnosed.ok _
  | .bvUnary op width operand => by
    rw [infer]
    refine (diagnosed_infer typing operand).bind fun ty => ?_
    exact (Diagnosed.expect _ _ _).bind fun _ => Diagnosed.ok _
  | .bvBinary op width lhs rhs => by
    rw [infer]
    refine (diagnosed_infer typing lhs).bind fun lhsTy => ?_
    refine (Diagnosed.expect _ _ _).bind fun _ => ?_
    refine (diagnosed_infer typing rhs).bind fun rhsTy => ?_
    exact (Diagnosed.expect _ _ _).bind fun _ => Diagnosed.ok _
  | .extend kind source target operand => by
    rw [infer]
    split
    · exact Diagnosed.error nofun nofun
    refine (diagnosed_infer typing operand).bind fun ty => ?_
    exact (Diagnosed.expect _ _ _).bind fun _ => Diagnosed.ok _
  | .extract operand hi lo => by
    rw [infer]
    refine (diagnosed_infer typing operand).bind fun ty => ?_
    split
    · split
      · next width hbits =>
        rw [(Word.sliceWidth?_of_le_of_lt hbits.1 hbits.2).1]
        exact Diagnosed.ok _
      · exact Diagnosed.error nofun nofun
    · exact Diagnosed.error nofun nofun

theorem diagnosed_inferAll (typing : Typing) : ∀ es : List Expr, Diagnosed (inferAll typing es)
  | [] => by
    rw [inferAll]
    exact Diagnosed.ok _
  | e :: rest => by
    rw [inferAll]
    refine (diagnosed_infer typing e).bind fun ty => ?_
    exact (diagnosed_inferAll typing rest).bind fun _ => Diagnosed.ok _

end

end Expr

/-! ### Types -/

namespace TypedPlace

theorem expect_eq_ok_iff {place : TypedPlace} {expected found : Ty} {u : Unit} :
    place.expect expected found = .ok u ↔ found = expected := by
  rw [expect]
  split <;> simp [*]

theorem eq_of_expect_both {place : TypedPlace} {expected lhs rhs result ty : Ty}
    (h : (do
      place.expect expected lhs
      place.expect expected rhs
      return result) = Except.ok ty) : lhs = expected ∧ rhs = expected ∧ ty = result := by
  simp only [bind_eq_ok_iff, expect_eq_ok_iff] at h
  obtain ⟨-, hlhs, -, hrhs, hresult⟩ := h
  cases hresult
  exact ⟨hlhs, hrhs, rfl⟩

end TypedPlace

/-- The operators fall into four groups, each with its own rule. -/
theorem BinaryOp.resultTy_eq_ok {op : BinaryOp} {lhs rhs ty : Ty}
    (h : op.resultTy lhs rhs = .ok ty) :
    (op.isArithmetic ∧ lhs = .int ∧ rhs = .int ∧ ty = .int) ∨
      (op.isOrdering ∧ lhs = .int ∧ rhs = .int ∧ ty = .bool) ∨
      (op.isLogical ∧ lhs = .bool ∧ rhs = .bool ∧ ty = .bool) ∨
      (op.isEquality ∧ ty = .bool) := by
  rw [resultTy] at h
  split at h
  · next hop => exact Or.inl ⟨hop, TypedPlace.eq_of_expect_both h⟩
  split at h
  · next hop => exact Or.inr (Or.inl ⟨hop, TypedPlace.eq_of_expect_both h⟩)
  split at h
  · next hop => exact Or.inr (Or.inr (Or.inl ⟨hop, TypedPlace.eq_of_expect_both h⟩))
  split at h
  · next hop =>
    simp only [bind_eq_ok_iff] at h
    obtain ⟨-, -, hty⟩ := h
    cases hty
    exact Or.inr (Or.inr (Or.inr ⟨hop, rfl⟩))
  · cases h

/-- The type that a unary operator takes and gives. -/
def UnaryOp.ty : UnaryOp → Ty
  | .not => .bool
  | .neg => .int

namespace Expr

variable {typing : Typing} {ty : Ty}
  {lhs rhs cond thenExpr elseExpr base index value operand : Expr}

theorem infer_ident_eq_ok_iff {name : String} :
    (ident name).infer typing = .ok ty ↔ typing.find? name = some ty := by
  rw [infer]
  cases typing.find? name <;> simp

theorem infer_unary_eq_ok_iff {op : UnaryOp} : (unary op operand).infer typing = .ok ty ↔
    operand.infer typing = .ok op.ty ∧ ty = op.ty := by
  cases op
  all_goals
    rw [infer]
    simp only [bind_eq_ok_iff, TypedPlace.expect_eq_ok_iff, pure_eq_ok, Except.ok.injEq,
      UnaryOp.ty]
    grind

theorem infer_binary_eq_ok_iff {op : BinaryOp} : (binary op lhs rhs).infer typing = .ok ty ↔
    ∃ lhsTy rhsTy, lhs.infer typing = .ok lhsTy ∧ rhs.infer typing = .ok rhsTy ∧
      op.resultTy lhsTy rhsTy = .ok ty := by
  rw [infer]
  simp only [bind_eq_ok_iff, exists_and_left]

/-- Both branches of a conditional have its type. -/
theorem infer_ite_eq_ok_iff : (ite cond thenExpr elseExpr).infer typing = .ok ty ↔
    cond.infer typing = .ok .bool ∧ thenExpr.infer typing = .ok ty ∧
      elseExpr.infer typing = .ok ty := by
  rw [infer]
  simp only [bind_eq_ok_iff, TypedPlace.expect_eq_ok_iff, pure_eq_ok, Except.ok.injEq]
  grind

/-- A read has the type of the values of a map whose keys have the type of the index. -/
theorem infer_select_eq_ok_iff : (select base index).infer typing = .ok ty ↔
    ∃ key, base.infer typing = .ok (.map key ty) ∧ index.infer typing = .ok key := by
  rw [infer]
  cases base.infer typing with
  | error e => simp
  | ok baseTy =>
    cases baseTy with
    | map key elem =>
      simp only [ok_bind, bind_eq_ok_iff, TypedPlace.expect_eq_ok_iff, pure_eq_ok,
        Except.ok.injEq, Ty.map.injEq]
      grind
    | _ => simp [throw_eq_error]

/-- A write has the type of its map, whose keys and values have the types of the index and of the
written value. -/
theorem infer_update_eq_ok_iff : (update base index value).infer typing = .ok ty ↔
    ∃ key elem, base.infer typing = .ok (.map key elem) ∧ index.infer typing = .ok key ∧
      value.infer typing = .ok elem ∧ ty = .map key elem := by
  rw [infer]
  cases base.infer typing with
  | error e => simp
  | ok baseTy =>
    cases baseTy with
    | map key elem =>
      simp only [ok_bind, bind_eq_ok_iff, TypedPlace.expect_eq_ok_iff, pure_eq_ok,
        Except.ok.injEq, Ty.map.injEq]
      grind
    | _ => simp [throw_eq_error]

theorem infer_tuple_eq_ok_iff {elements : List Expr} : (tuple elements).infer typing = .ok ty ↔
    ∃ tys, inferAll typing elements = .ok tys ∧ ty = .tuple tys := by
  rw [infer]
  simp only [bind_eq_ok_iff, pure_eq_ok, Except.ok.injEq]
  grind

theorem inferAll_cons_eq_ok_iff {e : Expr} {rest : List Expr} {tys : List Ty} :
    inferAll typing (e :: rest) = .ok tys ↔
      ∃ ty restTys, e.infer typing = .ok ty ∧ inferAll typing rest = .ok restTys ∧
        tys = ty :: restTys := by
  rw [inferAll]
  simp only [bind_eq_ok_iff, pure_eq_ok, Except.ok.injEq]
  grind

theorem infer_bvUnary_eq_ok_iff {op : BvUnaryOp} {width : UInt32} :
    (bvUnary op width operand).infer typing = .ok ty ↔
      operand.infer typing = .ok (.bv width) ∧ ty = .bv width := by
  rw [infer]
  simp only [bind_eq_ok_iff, TypedPlace.expect_eq_ok_iff, pure_eq_ok, Except.ok.injEq]
  grind

theorem infer_bvBinary_eq_ok_iff {op : BvBinaryOp} {width : UInt32} :
    (bvBinary op width lhs rhs).infer typing = .ok ty ↔
      lhs.infer typing = .ok (.bv width) ∧ rhs.infer typing = .ok (.bv width) ∧
        ty = if op.isPredicate then .bool else .bv width := by
  rw [infer]
  simp only [bind_eq_ok_iff, TypedPlace.expect_eq_ok_iff, pure_eq_ok, Except.ok.injEq]
  grind

theorem infer_extend_eq_ok_iff {kind : Extension} {source target : UInt32} :
    (extend kind source target operand).infer typing = .ok ty ↔
      source ≤ target ∧ operand.infer typing = .ok (.bv source) ∧ ty = .bv target := by
  rw [infer]
  split
  · next hlt => simp [throw_eq_error, UInt32.not_le.2 hlt]
  · next hle =>
    simp only [bind_eq_ok_iff, TypedPlace.expect_eq_ok_iff, pure_eq_ok, Except.ok.injEq,
      UInt32.not_lt.1 hle, true_and]
    grind

/-- The width of an extraction is always a 32-bit number. -/
theorem infer_extract_eq_ok_iff {hi lo : UInt32} : (extract operand hi lo).infer typing = .ok ty ↔
    ∃ width, operand.infer typing = .ok (.bv width) ∧ lo ≤ hi ∧ hi < width ∧
      ty = .bv (hi - lo + 1) := by
  rw [infer]
  cases operand.infer typing with
  | error e => simp
  | ok operandTy =>
    cases operandTy with
    | bv width =>
      rw [ok_bind]
      dsimp only
      split
      · next hbits =>
        rw [(Word.sliceWidth?_of_le_of_lt hbits.1 hbits.2).1]
        simp [hbits, eq_comm]
      · next hbits =>
        simp only [throw_eq_error, reduceCtorEq, Except.ok.injEq, Ty.bv.injEq, exists_eq_left',
          false_iff]
        grind
    | _ => simp [throw_eq_error]

end Expr

end SolidityEncoding
