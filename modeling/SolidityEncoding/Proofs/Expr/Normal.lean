import SolidityEncoding.Expr.Printer
import SolidityEncoding.Text.Numeral

/-!
# Readable expressions and their normal forms

A negative integer literal and the negation of its magnitude have the same text.  `Expr.norm` takes
the negation for both, which is the only thing that the text of an expression leaves open, provided
that the expression is readable (`Expr.isReadable`): identifiers do not look like anything else, and
there is no tuple of one element, whose text is that of an expression in parentheses.
-/

namespace SolidityEncoding

open Text

/-! ### Identifiers -/

/-- The characters of literals, identifiers and names of functions. -/
def isWordChar (c : Char) : Bool := c.isAlphanum || c == '_' || c == '.' || c == '#'

/-- Words that are no identifiers. -/
def reservedWords : List String :=
  ["true", "false", "if", "then", "else", "div", "mod", Expr.errorText]

/-- Whether a name is an identifier: not empty, of the characters of words, not beginning with a
digit, and not reserved. -/
def isIdentifier (name : String) : Bool :=
  name.toList.all isWordChar && name.toList.head?.any (!isDigit ·) && !reservedWords.contains name

theorem isIdentifier_iff {name : String} : isIdentifier name = true ↔
    (∀ c ∈ name.toList, isWordChar c = true) ∧ (∃ c cs, name.toList = c :: cs ∧ isDigit c = false) ∧
      name ∉ reservedWords := by
  rw [isIdentifier]
  cases name.toList <;> simp [and_assoc]

/-! ### Normal forms -/

namespace Expr

mutual

/-- The expression in which every negative integer literal is the negation of its magnitude. -/
def norm : Expr → Expr
  | .int value => if value < 0 then .unary .neg (.int (-value)) else .int value
  | .bool value => .bool value
  | .bv value width => .bv value width
  | .ident name => .ident name
  | .error => .error
  | .unary op operand => .unary op operand.norm
  | .binary op lhs rhs => .binary op lhs.norm rhs.norm
  | .ite cond thenExpr elseExpr => .ite cond.norm thenExpr.norm elseExpr.norm
  | .select base index => .select base.norm index.norm
  | .update base index value => .update base.norm index.norm value.norm
  | .tuple elements => .tuple (normAll elements)
  | .bvUnary op width operand => .bvUnary op width operand.norm
  | .bvBinary op width lhs rhs => .bvBinary op width lhs.norm rhs.norm
  | .extend kind source target operand => .extend kind source target operand.norm
  | .extract operand hi lo => .extract operand.norm hi lo

/-- The normal forms of a list of expressions. -/
def normAll : List Expr → List Expr
  | [] => []
  | e :: rest => e.norm :: normAll rest

end

mutual

/-- Whether the text of an expression can be read back: every identifier is one, no tuple has
exactly one element, and the exclusive upper bound of every extraction is a 32-bit number. -/
def isReadable : Expr → Bool
  | .bool _ | .int _ | .bv _ _ | .error => true
  | .ident name => isIdentifier name
  | .unary _ operand => operand.isReadable
  | .binary _ lhs rhs => lhs.isReadable && rhs.isReadable
  | .ite cond thenExpr elseExpr =>
    cond.isReadable && thenExpr.isReadable && elseExpr.isReadable
  | .select base index => base.isReadable && index.isReadable
  | .update base index value => base.isReadable && index.isReadable && value.isReadable
  | .tuple elements => elements.length != 1 && allReadable elements
  | .bvUnary _ _ operand => operand.isReadable
  | .bvBinary _ _ lhs rhs => lhs.isReadable && rhs.isReadable
  | .extend _ _ _ operand => operand.isReadable
  | .extract operand hi _ => operand.isReadable && decide (hi.toNat + 1 < UInt32.size)

/-- Whether the texts of a list of expressions can be read back. -/
def allReadable : List Expr → Bool
  | [] => true
  | e :: rest => e.isReadable && allReadable rest

end

mutual

theorem isPrintable_of_isReadable : ∀ e : Expr, e.isReadable = true → e.isPrintable = true
  | .bool _, _ | .int _, _ | .bv _ _, _ | .ident _, _ | .error, _ => rfl
  | .unary _ operand, h => isPrintable_of_isReadable operand h
  | .binary _ lhs rhs, h => by
    simp only [isReadable, isPrintable, Bool.and_eq_true] at h ⊢
    exact ⟨isPrintable_of_isReadable lhs h.1, isPrintable_of_isReadable rhs h.2⟩
  | .ite cond thenExpr elseExpr, h => by
    simp only [isReadable, isPrintable, Bool.and_eq_true] at h ⊢
    exact ⟨⟨isPrintable_of_isReadable cond h.1.1, isPrintable_of_isReadable thenExpr h.1.2⟩,
      isPrintable_of_isReadable elseExpr h.2⟩
  | .select base index, h => by
    simp only [isReadable, isPrintable, Bool.and_eq_true] at h ⊢
    exact ⟨isPrintable_of_isReadable base h.1, isPrintable_of_isReadable index h.2⟩
  | .update base index value, h => by
    simp only [isReadable, isPrintable, Bool.and_eq_true] at h ⊢
    exact ⟨⟨isPrintable_of_isReadable base h.1.1, isPrintable_of_isReadable index h.1.2⟩,
      isPrintable_of_isReadable value h.2⟩
  | .tuple elements, h => by
    simp only [isReadable, isPrintable, Bool.and_eq_true] at h ⊢
    exact allPrintable_of_allReadable elements h.2
  | .bvUnary _ _ operand, h => isPrintable_of_isReadable operand h
  | .bvBinary _ _ lhs rhs, h => by
    simp only [isReadable, isPrintable, Bool.and_eq_true] at h ⊢
    exact ⟨isPrintable_of_isReadable lhs h.1, isPrintable_of_isReadable rhs h.2⟩
  | .extend _ _ _ operand, h => isPrintable_of_isReadable operand h
  | .extract operand _ _, h => by
    simp only [isReadable, isPrintable, Bool.and_eq_true] at h ⊢
    exact ⟨isPrintable_of_isReadable operand h.1, h.2⟩

theorem allPrintable_of_allReadable : ∀ es : List Expr,
    allReadable es = true → allPrintable es = true
  | [], _ => rfl
  | e :: rest, h => by
    simp only [allReadable, allPrintable, Bool.and_eq_true] at h ⊢
    exact ⟨isPrintable_of_isReadable e h.1, allPrintable_of_allReadable rest h.2⟩

end

theorem norm_ofNat (n : Nat) : (Expr.int n).norm = .int n :=
  if_neg (Int.not_lt.2 (Int.natCast_nonneg n))

theorem norm_negSucc (n : Nat) :
    (Expr.int (Int.negSucc n)).norm = .unary .neg (.int ((n + 1 : Nat) : Int)) :=
  if_pos (Int.negSucc_lt_zero n)

theorem strength_ofNat (n : Nat) : (Expr.int n).strength = Strength.atom := by
  rw [strength, if_neg (Int.not_lt.2 (Int.natCast_nonneg n))]

theorem place_neg_ofNat (n : Nat) : UnaryOp.neg.place (.int n) = Strength.unary := by
  unfold UnaryOp.place
  rw [strength_ofNat]
  rfl

theorem strength_norm (e : Expr) : e.norm.strength = e.strength := by
  cases e with
  | int value =>
    rw [norm]
    split
    · next h => exact (if_pos h).symm
    · rfl
  | _ => rfl

theorem isApplicationOf_norm (op : BinaryOp) (e : Expr) :
    e.norm.isApplicationOf op = e.isApplicationOf op := by
  cases e with
  | int value =>
    rw [norm]
    split <;> rfl
  | _ => rfl

theorem place_norm (op : UnaryOp) (e : Expr) : op.place e.norm = op.place e := by
  cases op with
  | not => rfl
  | neg =>
    unfold UnaryOp.place
    rw [strength_norm]

theorem placeLeft_norm (op : BinaryOp) (e : Expr) : op.placeLeft e.norm = op.placeLeft e := by
  cases op with
  | and | or => rw [BinaryOp.placeLeft, BinaryOp.placeLeft, isApplicationOf_norm]
  | _ => rfl

mutual

/-- The normal form has the same text. -/
theorem render_norm : ∀ e : Expr, e.norm.render = e.render
  | .int (.ofNat n) => congrArg render (norm_ofNat n)
  | .int (.negSucc n) => by
    rw [norm_negSucc, render, render, place_neg_ofNat, strength_ofNat]
    rfl
  | .bool _ | .bv _ _ | .ident _ | .error => rfl
  | .unary op operand => by
    rw [norm, render, render, render_norm operand, strength_norm, place_norm]
  | .binary op lhs rhs => by
    rw [norm, render, render, render_norm lhs, render_norm rhs, strength_norm, strength_norm,
      placeLeft_norm]
  | .ite cond thenExpr elseExpr => by
    rw [norm, render, render, render_norm cond, render_norm thenExpr, render_norm elseExpr]
  | .select base index => by
    rw [norm, render, render, render_norm base, render_norm index, strength_norm]
  | .update base index value => by
    rw [norm, render, render, render_norm base, render_norm index, render_norm value, strength_norm]
  | .tuple elements => by rw [norm, render, render, renderAll_normAll elements]
  | .bvUnary op width operand => by rw [norm, render, render, render_norm operand]
  | .bvBinary op width lhs rhs => by
    rw [norm, render, render, render_norm lhs, render_norm rhs]
  | .extend kind source target operand => by rw [norm, render, render, render_norm operand]
  | .extract operand hi lo => by rw [norm, render, render, render_norm operand, strength_norm]

theorem renderAll_normAll : ∀ es : List Expr, renderAll (normAll es) = renderAll es
  | [] => rfl
  | e :: rest => by rw [normAll, renderAll, renderAll, render_norm e, renderAll_normAll rest]

end

end Expr

end SolidityEncoding
