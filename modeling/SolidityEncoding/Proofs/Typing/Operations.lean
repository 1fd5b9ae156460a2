import SolidityEncoding.Encoding.Arithmetic
import SolidityEncoding.Proofs.Arithmetic.Bitvector
import SolidityEncoding.Proofs.Typing.Rules

/-!
# Encoded operations are typed

Operands that are words of their encoding make a word, or a truth value if they are compared, and
the condition of a result is a truth value.  This takes neither a width above zero nor operands in
range, so it holds of every operation that the session does not report as unsupported.
-/

namespace SolidityEncoding

/-- The type of the value of an operator on words. -/
def SourceBinaryOp.valueTy (op : SourceBinaryOp) (word : Ty) : Ty :=
  if op.isComparison then .bool else word

/-- A result has a type, unless it is the error placeholder, its condition is a truth value, and
bitvector literals fit their widths under a condition on the operands. -/
structure Encoded.Typed (typing : Typing) (fit : Prop) (ty : Ty) (encoded : Encoded) : Prop where
  value : encoded.value = .error ∨ encoded.value.infer typing = .ok ty
  condition : ∀ condition, encoded.condition = some condition → condition.infer typing = .ok .bool
  valueLiterals : fit → encoded.value.LiteralsFit
  conditionLiterals : fit → ∀ condition, encoded.condition = some condition →
    condition.LiteralsFit

namespace Encoded

variable {typing : Typing} {fit : Prop} {ty : Ty}

theorem typed_exact {value : Expr} (h : value.Checks typing fit ty) :
    (exact value).Typed typing fit ty where
  value := Or.inr h.infer
  condition := nofun
  valueLiterals := h.literals
  conditionLiterals := nofun

theorem typed_error : Encoded.error.Typed typing fit ty where
  value := Or.inl rfl
  condition := nofun
  valueLiterals := fun _ => trivial
  conditionLiterals := nofun

theorem typed_wrapping {raw value : Expr} (hraw : raw.Checks typing fit ty)
    (hvalue : value.Checks typing fit ty) : (wrapping raw value).Typed typing fit ty := by
  have hcondition : (Expr.binary .eq raw value).Checks typing fit .bool := .equality rfl hraw hvalue
  refine ⟨Or.inr hvalue.infer, ?_, hvalue.literals, ?_⟩
  · intro condition h
    cases h
    exact hcondition.infer
  · intro hfit condition h
    cases h
    exact hcondition.literals hfit

end Encoded

/-! ### Modular integers -/

theorem Expr.Checks.mod_pow2 {typing : Typing} {fit : Prop} {e : Expr} (bits : UInt32)
    (h : e.Checks typing fit .int) :
    (Expr.binary .mod e (.int (pow2 bits))).Checks typing fit .int :=
  .arithmetic rfl h (.int _)

namespace Modular

variable {typing : Typing} {fit : Prop} {raw e lhs rhs : Expr}

theorem checks_wrapSigned (bits : UInt32) (h : raw.Checks typing fit .int) :
    (wrapSigned bits raw).Checks typing fit .int := by
  refine .ite (.ordering rfl h (.int _)) (.arithmetic rfl h (.int _)) ?_
  exact .ite (.ordering rfl h (.int _)) (.arithmetic rfl h (.int _)) h

theorem checks_toUnsigned (bits : UInt32) (h : e.Checks typing fit .int) :
    (toUnsigned bits e).Checks typing fit .int :=
  .ite (.ordering rfl h (.int _)) h (.arithmetic rfl (.int _) h)

variable (shape : Shape)

theorem typed_power (exact : Int) : (power shape exact).Typed typing fit .int :=
  Encoded.typed_wrapping (.int _) (.int _)

theorem typed_neg (h : e.Checks typing fit .int) : (neg shape e).Typed typing fit .int := by
  refine Encoded.typed_wrapping (.neg h) ?_
  split
  · exact .ite (.equality rfl h (.int _)) (.int _) (.neg h)
  · exact .ite (.equality rfl h (.int _)) (.int _) (.arithmetic rfl (.int _) h)

variable (hl : lhs.Checks typing fit .int) (hr : rhs.Checks typing fit .int)

include hl hr

theorem typed_add : (add shape lhs rhs).Typed typing fit .int := by
  have hsum : (Expr.binary .add lhs rhs).Checks typing fit .int := .arithmetic rfl hl hr
  refine Encoded.typed_wrapping hsum ?_
  split
  · exact checks_wrapSigned _ hsum
  · exact .ite (.ordering rfl hsum (.int _)) (.arithmetic rfl hsum (.int _)) hsum

theorem typed_sub : (sub shape lhs rhs).Typed typing fit .int := by
  have hdifference : (Expr.binary .sub lhs rhs).Checks typing fit .int := .arithmetic rfl hl hr
  refine Encoded.typed_wrapping hdifference ?_
  split
  · exact checks_wrapSigned _ hdifference
  · exact .ite (.ordering rfl hl hr) hdifference (.arithmetic rfl hdifference (.int _))

theorem typed_mul : (mul shape lhs rhs).Typed typing fit .int := by
  have hproduct : (Expr.binary .mul lhs rhs).Checks typing fit .int := .arithmetic rfl hl hr
  refine Encoded.typed_wrapping hproduct ?_
  split
  · have hunsigned : (Expr.binary .mul (toUnsigned shape.bits lhs)
        (toUnsigned shape.bits rhs)).Checks typing fit .int :=
      .arithmetic rfl (checks_toUnsigned shape.bits hl) (checks_toUnsigned shape.bits hr)
    have hwrapped := hunsigned.mod_pow2 shape.bits
    exact .ite (.ordering rfl hwrapped (.int _)) (.arithmetic rfl hwrapped (.int _)) hwrapped
  · exact .ite (.ordering rfl hproduct (.int _)) (.arithmetic rfl hproduct (.int _)) hproduct

theorem typed_div : (div shape lhs rhs).Typed typing fit .int := by
  have hquotient : (Expr.binary .div lhs rhs).Checks typing fit .int := .arithmetic rfl hl hr
  refine Encoded.typed_wrapping hquotient ?_
  split
  · exact checks_wrapSigned _ hquotient
  · exact hquotient

end Modular

/-! ### Operators -/

namespace SourceBinaryOp

variable {typing : Typing} {fit : Prop} {lhs rhs : Expr} {encoded : Encoded}

theorem typed_mathematical? {op : SourceBinaryOp} (hl : lhs.Checks typing fit .int)
    (hr : rhs.Checks typing fit .int) (h : op.mathematical? lhs rhs = some encoded) :
    encoded.Typed typing fit (op.valueTy .int) := by
  cases op with
  | add | sub | mul | div | mod =>
    cases h
    exact Encoded.typed_exact (.arithmetic rfl hl hr)
  | lt | gt | lte | gte =>
    cases h
    exact Encoded.typed_exact (.ordering rfl hl hr)
  | exp =>
    obtain ⟨power, -, rfl⟩ := Option.map_eq_some_iff.1 h
    exact Encoded.typed_exact (.int power)
  | bitAnd | bitOr | bitXor | shl | sar => cases h

theorem typed_modular? {op : SourceBinaryOp} {shape : Shape} (hl : lhs.Checks typing fit .int)
    (hr : rhs.Checks typing fit .int) (h : op.modular? shape lhs rhs = some encoded) :
    encoded.Typed typing fit (op.valueTy .int) := by
  cases op with
  | add =>
    cases h
    exact Modular.typed_add shape hl hr
  | sub =>
    cases h
    exact Modular.typed_sub shape hl hr
  | mul =>
    cases h
    exact Modular.typed_mul shape hl hr
  | div =>
    cases h
    exact Modular.typed_div shape hl hr
  | lt | gt | lte | gte =>
    cases h
    exact Encoded.typed_exact (.ordering rfl hl hr)
  | exp =>
    obtain ⟨power, -, rfl⟩ := Option.map_eq_some_iff.1 h
    exact Modular.typed_power shape power
  | mod | bitAnd | bitOr | bitXor | shl | sar => cases h

/-- The predicates among the functions are those of the comparisons. -/
theorem isPredicate_of_bvFunction? {op : SourceBinaryOp} {signed : Bool} {function : BvBinaryOp}
    (h : op.bvFunction? signed = some function) : function.isPredicate = op.isComparison := by
  cases op <;> cases signed <;> cases h <;> rfl

/-- The remaining operator of the bitvector encoding, the power, fits its width. -/
theorem typed_literalBvPower? {op : SourceBinaryOp} {signed : Bool} {bits : UInt32}
    (hop : op.bvFunction? signed = none)
    (h : (literalBvPower? lhs rhs bits).map .exact = some encoded) :
    encoded.Typed typing fit (op.valueTy (.bv bits)) := by
  obtain rfl : op = .exp := by
    by_contra hne
    obtain ⟨function, hfunction⟩ := exists_bvFunction? hne signed
    rw [hop] at hfunction
    cases hfunction
  obtain ⟨power, hpower, rfl⟩ := Option.map_eq_some_iff.1 h
  rw [literalBvPower?] at hpower
  split at hpower
  · cases hpower
    exact Encoded.typed_exact (.bvOf _)
  · cases hpower

end SourceBinaryOp

/-! ### Operations of a session -/

section Sessions

variable {typing : Typing} {fit : Prop}

/-- What is not supported becomes the error placeholder. -/
theorem Session.typed_orReport (s : Session) (node : Option NodeId) (error : EncodingError)
    {ty : Ty} {result : Option Encoded}
    (h : ∀ encoded, result = some encoded → encoded.Typed typing fit ty) :
    ∃ encoded s', (Session.orReport node error result).run s = (encoded, s') ∧
      encoded.Typed typing fit ty := by
  cases result with
  | none => exact ⟨.error, s.report node error, rfl, Encoded.typed_error⟩
  | some encoded => exact ⟨encoded, s, rfl, h encoded rfl⟩

theorem SourceBinaryOp.typed_encode (op : SourceBinaryOp) (s : Session) (shape : Shape)
    {lhs rhs : Expr} (node : Option NodeId)
    (hl : lhs.Checks typing fit (s.encoding.wordTy shape.bits))
    (hr : rhs.Checks typing fit (s.encoding.wordTy shape.bits)) :
    ∃ encoded s', (op.encode shape lhs rhs node).run s = (encoded, s') ∧
      encoded.Typed typing fit (op.valueTy (s.encoding.wordTy shape.bits)) := by
  simp only [encode, StateT.run_bind, Session.run_getEncoding]
  cases hs : s.encoding with
  | mathematical =>
    rw [hs] at hl hr
    exact s.typed_orReport node _ fun _ h => typed_mathematical? hl hr h
  | modular =>
    rw [hs] at hl hr
    exact s.typed_orReport node _ fun _ h => typed_modular? hl hr h
  | bitvector =>
    rw [hs] at hl hr
    cases hfunction : op.bvFunction? shape.signed with
    | some function =>
      refine ⟨_, _, rfl, Encoded.typed_exact ?_⟩
      rw [valueTy, ← isPredicate_of_bvFunction? hfunction]
      exact .bvBinary function hl hr
    | none => exact s.typed_orReport node _ fun _ h => typed_literalBvPower? hfunction h

theorem SourceUnaryOp.typed_encode (op : SourceUnaryOp) (s : Session) (shape : Shape)
    {operand : Expr} (node : Option NodeId)
    (h : operand.Checks typing fit (s.encoding.wordTy shape.bits)) :
    ∃ encoded s', (op.encode shape operand node).run s = (encoded, s') ∧
      encoded.Typed typing fit (s.encoding.wordTy shape.bits) := by
  simp only [encode, StateT.run_bind, Session.run_getEncoding]
  cases hs : s.encoding with
  | mathematical =>
    rw [hs] at h
    cases op with
    | neg => exact ⟨_, s, rfl, Encoded.typed_exact (.neg h)⟩
    | bitNot => exact s.typed_orReport node _ nofun
  | modular =>
    rw [hs] at h
    cases op with
    | neg => exact ⟨_, s, rfl, Modular.typed_neg shape h⟩
    | bitNot => exact s.typed_orReport node _ nofun
  | bitvector =>
    rw [hs] at h
    cases op with
    | neg => exact ⟨_, _, rfl, Encoded.typed_exact (.bvUnary .neg h)⟩
    | bitNot => exact ⟨_, _, rfl, Encoded.typed_exact (.bvUnary .not h)⟩

end Sessions

end SolidityEncoding
