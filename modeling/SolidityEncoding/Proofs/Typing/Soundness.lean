import SolidityEncoding.Proofs.Evaluation
import SolidityEncoding.Proofs.Typing.Inference
import SolidityEncoding.Proofs.Value.Typed

/-!
# Type soundness

An expression that has a type evaluates to a value of that type, unless an integer is divided by
zero on the way (`Expr.infer_sound`).  The store has to give every identifier of the typing a value
of its type, and bitvector literals have to fit their widths; typing checks neither.  Every other
cause of `EvalError`, a calculation that leaves its range among them, is excluded by the types.
-/

namespace SolidityEncoding

/-! ### Outcomes -/

/-- An outcome is a value with a property, or else the division of an integer by zero. -/
def Safe {α : Type} (P : α → Prop) (outcome : Except EvalError α) : Prop :=
  (∃ a, outcome = .ok a ∧ P a) ∨ outcome = .error .divisionByZero

namespace Safe

variable {α β : Type} {P : α → Prop} {Q : β → Prop}

theorem ok {a : α} (h : P a) : Safe P (.ok a) := Or.inl ⟨a, rfl, h⟩

theorem bind {outcome : Except EvalError α} {next : α → Except EvalError β}
    (h : Safe P outcome) (hnext : ∀ a, P a → Safe Q (next a)) : Safe Q (outcome >>= next) := by
  rcases h with ⟨a, rfl, ha⟩ | rfl
  · exact hnext a ha
  · exact Or.inr rfl

end Safe

/-! ### Operators -/

namespace BinaryOp

theorem safe_applyInt_arithmetic {op : BinaryOp} (hop : op.isArithmetic) (a b : Int) :
    Safe (Value.HasTy · .int) (op.applyInt a b) := by
  cases op <;> try cases hop
  case add | sub | mul => exact Safe.ok (.int _)
  case div | mod =>
    rw [applyInt]
    split
    · exact Or.inr rfl
    · exact Safe.ok (.int _)

theorem safe_applyInt_ordering {op : BinaryOp} (hop : op.isOrdering) (a b : Int) :
    Safe (Value.HasTy · .bool) (op.applyInt a b) := by
  cases op <;> first | exact Safe.ok (.bool _) | cases hop

variable {lhs rhs : Except EvalError Value}

theorem safe_apply_of_int {op : BinaryOp} (hop : op.isArithmetic ∨ op.isOrdering)
    (hl : Safe (Value.HasTy · .int) lhs) (hr : Safe (Value.HasTy · .int) rhs) {ty : Ty}
    (hvalue : ∀ a b, Safe (Value.HasTy · ty) (op.applyInt a b)) :
    Safe (Value.HasTy · ty) (op.apply lhs rhs) := by
  have happly : op.apply lhs rhs = (do
      let a ← lhs
      let b ← rhs
      op.applyInt (← a.asInt) (← b.asInt)) := by
    cases op <;> first | rfl | simp [isArithmetic, isOrdering] at hop
  rw [happly]
  refine hl.bind fun a ha => hr.bind fun b hb => ?_
  obtain ⟨a, rfl⟩ := ha.exists_int
  obtain ⟨b, rfl⟩ := hb.exists_int
  exact hvalue a b

/-- The right operand of a connective may be left alone, but not the left one. -/
theorem safe_apply_of_logical {op : BinaryOp} (hop : op.isLogical)
    (hl : Safe (Value.HasTy · .bool) lhs) (hr : Safe (Value.HasTy · .bool) rhs) :
    Safe (Value.HasTy · .bool) (op.apply lhs rhs) := by
  have hright : Safe (Value.HasTy · .bool) (do return Value.bool (← (← rhs).asBool)) := by
    refine hr.bind fun b hb => ?_
    obtain ⟨b, rfl⟩ := hb.exists_bool
    exact Safe.ok (.bool b)
  cases op <;> try cases hop
  all_goals
    refine hl.bind fun a ha => ?_
    obtain ⟨a, rfl⟩ := ha.exists_bool
    cases a
    all_goals first | exact hright | exact Safe.ok (.bool _)

theorem safe_apply_of_equality {op : BinaryOp} (hop : op.isEquality) {lhsTy rhsTy : Ty}
    (hl : Safe (Value.HasTy · lhsTy) lhs) (hr : Safe (Value.HasTy · rhsTy) rhs) :
    Safe (Value.HasTy · .bool) (op.apply lhs rhs) := by
  cases op <;> try cases hop
  all_goals exact hl.bind fun a _ => hr.bind fun b _ => Safe.ok (.bool _)

theorem safe_apply {op : BinaryOp} {lhsTy rhsTy ty : Ty} (hty : op.resultTy lhsTy rhsTy = .ok ty)
    (hl : Safe (Value.HasTy · lhsTy) lhs) (hr : Safe (Value.HasTy · rhsTy) rhs) :
    Safe (Value.HasTy · ty) (op.apply lhs rhs) := by
  rcases resultTy_eq_ok hty with ⟨hop, rfl, rfl, rfl⟩ | ⟨hop, rfl, rfl, rfl⟩ |
    ⟨hop, rfl, rfl, rfl⟩ | ⟨hop, rfl⟩
  · exact safe_apply_of_int (Or.inl hop) hl hr (safe_applyInt_arithmetic hop)
  · exact safe_apply_of_int (Or.inr hop) hl hr (safe_applyInt_ordering hop)
  · exact safe_apply_of_logical hop hl hr
  · exact safe_apply_of_equality hop hl hr

end BinaryOp

/-- A comparison of bitvectors is a truth value; every other function yields a bitvector. -/
theorem BvBinaryOp.smtLib_hasTy (op : BvBinaryOp) {width : UInt32} (x y : BitVec width.toNat) :
    (op.smtLib x y).HasTy (if op.isPredicate then .bool else .bv width) := by
  cases op <;> first | exact Value.HasTy.bool _ | exact Value.HasTy.ofBits _

/-! ### Expressions -/

/-- A store gives every identifier of a typing a value of its type. -/
def Store.Respects (store : Store) (typing : Typing) : Prop :=
  ∀ name ty, typing.find? name = some ty → ∃ value, store.find? name = some value ∧ value.HasTy ty

namespace Expr

mutual

/-- Every bitvector literal of an expression fits its width. -/
def LiteralsFit : Expr → Prop
  | .bv value width => value < Word.modulus width
  | .bool _ | .int _ | .ident _ | .error => True
  | .unary _ operand => operand.LiteralsFit
  | .binary _ lhs rhs => lhs.LiteralsFit ∧ rhs.LiteralsFit
  | .ite cond thenExpr elseExpr =>
    cond.LiteralsFit ∧ thenExpr.LiteralsFit ∧ elseExpr.LiteralsFit
  | .select base index => base.LiteralsFit ∧ index.LiteralsFit
  | .update base index value => base.LiteralsFit ∧ index.LiteralsFit ∧ value.LiteralsFit
  | .tuple elements => AllLiteralsFit elements
  | .bvUnary _ _ operand => operand.LiteralsFit
  | .bvBinary _ _ lhs rhs => lhs.LiteralsFit ∧ rhs.LiteralsFit
  | .extend _ _ _ operand => operand.LiteralsFit
  | .extract operand _ _ => operand.LiteralsFit

/-- Every bitvector literal of a list of expressions fits its width. -/
def AllLiteralsFit : List Expr → Prop
  | [] => True
  | e :: rest => e.LiteralsFit ∧ AllLiteralsFit rest

end

/-! #### Operations

An operation is safe if its operands are. -/

section Operations

variable {store : Store} {ty : Ty} {operand lhs rhs cond thenExpr elseExpr base index value : Expr}

theorem safe_unary (op : UnaryOp) (h : Safe (Value.HasTy · op.ty) (operand.eval store)) :
    Safe (Value.HasTy · op.ty) ((unary op operand).eval store) := by
  cases op with
  | not =>
    rw [eval_not]
    refine h.bind fun value hvalue => ?_
    obtain ⟨b, rfl⟩ := hvalue.exists_bool
    exact Safe.ok (.bool _)
  | neg =>
    rw [eval_neg]
    refine h.bind fun value hvalue => ?_
    obtain ⟨i, rfl⟩ := hvalue.exists_int
    exact Safe.ok (.int _)

theorem safe_ite (hcond : Safe (Value.HasTy · .bool) (cond.eval store))
    (hthen : Safe (Value.HasTy · ty) (thenExpr.eval store))
    (helse : Safe (Value.HasTy · ty) (elseExpr.eval store)) :
    Safe (Value.HasTy · ty) ((ite cond thenExpr elseExpr).eval store) := by
  rw [eval_ite]
  refine hcond.bind fun value hvalue => ?_
  obtain ⟨b, rfl⟩ := hvalue.exists_bool
  cases b
  · exact helse
  · exact hthen

theorem safe_select {key : Ty} (hbase : Safe (Value.HasTy · (.map key ty)) (base.eval store))
    (hindex : Safe (Value.HasTy · key) (index.eval store)) :
    Safe (Value.HasTy · ty) ((select base index).eval store) := by
  rw [eval_select]
  refine hbase.bind fun map hmap => hindex.bind fun key _ => ?_
  obtain ⟨m, rfl⟩ := hmap.exists_toValue
  exact Safe.ok (TotalMap.get_hasTy hmap key)

theorem safe_update {key elem : Ty} (hbase : Safe (Value.HasTy · (.map key elem)) (base.eval store))
    (hindex : Safe (Value.HasTy · key) (index.eval store))
    (hvalue : Safe (Value.HasTy · elem) (value.eval store)) :
    Safe (Value.HasTy · (.map key elem)) ((update base index value).eval store) := by
  rw [eval_update]
  refine hbase.bind fun map hmap => ?_
  obtain ⟨m, rfl⟩ := hmap.exists_toValue
  refine hindex.bind fun key hkey => hvalue.bind fun elem helem => ?_
  exact Safe.ok (TotalMap.set_hasTy hmap hkey helem)

variable {width : UInt32}

theorem safe_bvUnary (op : BvUnaryOp) (h : Safe (Value.HasTy · (.bv width)) (operand.eval store)) :
    Safe (Value.HasTy · (.bv width)) ((bvUnary op width operand).eval store) := by
  rw [eval_bvUnary]
  refine h.bind fun value hvalue => ?_
  obtain ⟨x, rfl⟩ := hvalue.exists_ofBits
  rw [op.apply_ofBits]
  exact Safe.ok (.ofBits _)

theorem safe_bvBinary (op : BvBinaryOp) (hl : Safe (Value.HasTy · (.bv width)) (lhs.eval store))
    (hr : Safe (Value.HasTy · (.bv width)) (rhs.eval store)) :
    Safe (Value.HasTy · (if op.isPredicate then .bool else .bv width))
      ((bvBinary op width lhs rhs).eval store) := by
  rw [eval_bvBinary]
  refine hl.bind fun a ha => hr.bind fun b hb => ?_
  obtain ⟨x, rfl⟩ := ha.exists_ofBits
  obtain ⟨y, rfl⟩ := hb.exists_ofBits
  rw [op.apply_ofBits]
  exact Safe.ok (op.smtLib_hasTy x y)

theorem safe_extend (kind : Extension) {target : UInt32} (hle : width ≤ target)
    (h : Safe (Value.HasTy · (.bv width)) (operand.eval store)) :
    Safe (Value.HasTy · (.bv target)) ((extend kind width target operand).eval store) := by
  rw [eval_extend]
  refine h.bind fun value hvalue => ?_
  obtain ⟨x, rfl⟩ := hvalue.exists_ofBits
  rw [kind.apply_ofBits hle]
  exact Safe.ok (.ofBits _)

theorem safe_extract {hi lo : UInt32} (hle : lo ≤ hi) (hlt : hi < width)
    (h : Safe (Value.HasTy · (.bv width)) (operand.eval store)) :
    Safe (Value.HasTy · (.bv (hi - lo + 1))) ((extract operand hi lo).eval store) := by
  rw [eval_extract]
  refine h.bind fun value hvalue => ?_
  obtain ⟨x, rfl⟩ := hvalue.exists_ofBits
  rw [Value.extract_ofBits x (Word.sliceWidth?_of_le_of_lt hle hlt).1]
  exact Safe.ok (.ofBits _)

end Operations

mutual

/-- The value of a typed expression has its type, unless an integer is divided by zero. -/
theorem safe_eval {typing : Typing} {store : Store} (hstore : store.Respects typing) :
    ∀ (e : Expr) {ty : Ty}, e.LiteralsFit → e.infer typing = .ok ty →
      Safe (Value.HasTy · ty) (e.eval store)
  | .bool value, _, _, rfl => Safe.ok (.bool value)
  | .int value, _, _, rfl => Safe.ok (.int value)
  | .bv _ _, _, hfit, rfl => Safe.ok (.bv hfit)
  | .ident name, ty, _, h => by
    obtain ⟨value, hvalue, hhas⟩ := hstore name ty (infer_ident_eq_ok_iff.1 h)
    rw [eval_ident, hvalue]
    exact Safe.ok hhas
  | .error, _, _, h => nomatch h
  | .unary op operand, _, hfit, h => by
    obtain ⟨hoperand, rfl⟩ := infer_unary_eq_ok_iff.1 h
    exact safe_unary op (safe_eval hstore operand hfit hoperand)
  | .binary op lhs rhs, _, ⟨hfitl, hfitr⟩, h => by
    obtain ⟨_, _, hl, hr, hty⟩ := infer_binary_eq_ok_iff.1 h
    rw [eval_binary]
    exact BinaryOp.safe_apply hty (safe_eval hstore lhs hfitl hl) (safe_eval hstore rhs hfitr hr)
  | .ite cond thenExpr elseExpr, _, ⟨hfitc, hfitt, hfite⟩, h => by
    obtain ⟨hcond, hthen, helse⟩ := infer_ite_eq_ok_iff.1 h
    exact safe_ite (safe_eval hstore cond hfitc hcond) (safe_eval hstore thenExpr hfitt hthen)
      (safe_eval hstore elseExpr hfite helse)
  | .select base index, _, ⟨hfitb, hfiti⟩, h => by
    obtain ⟨_, hbase, hindex⟩ := infer_select_eq_ok_iff.1 h
    exact safe_select (safe_eval hstore base hfitb hbase) (safe_eval hstore index hfiti hindex)
  | .update base index value, _, ⟨hfitb, hfiti, hfitv⟩, h => by
    obtain ⟨_, _, hbase, hindex, hvalue, rfl⟩ := infer_update_eq_ok_iff.1 h
    exact safe_update (safe_eval hstore base hfitb hbase) (safe_eval hstore index hfiti hindex)
      (safe_eval hstore value hfitv hvalue)
  | .tuple elements, _, hfit, h => by
    obtain ⟨_, htys, rfl⟩ := infer_tuple_eq_ok_iff.1 h
    rw [eval_tuple]
    exact (safe_evalAll hstore elements hfit htys).bind fun _ hvalues => Safe.ok (.tuple hvalues)
  | .bvUnary op _ operand, _, hfit, h => by
    obtain ⟨hoperand, rfl⟩ := infer_bvUnary_eq_ok_iff.1 h
    exact safe_bvUnary op (safe_eval hstore operand hfit hoperand)
  | .bvBinary op _ lhs rhs, _, ⟨hfitl, hfitr⟩, h => by
    obtain ⟨hl, hr, rfl⟩ := infer_bvBinary_eq_ok_iff.1 h
    exact safe_bvBinary op (safe_eval hstore lhs hfitl hl) (safe_eval hstore rhs hfitr hr)
  | .extend kind _ _ operand, _, hfit, h => by
    obtain ⟨hle, hoperand, rfl⟩ := infer_extend_eq_ok_iff.1 h
    exact safe_extend kind hle (safe_eval hstore operand hfit hoperand)
  | .extract operand _ _, _, hfit, h => by
    obtain ⟨_, hoperand, hle, hlt, rfl⟩ := infer_extract_eq_ok_iff.1 h
    exact safe_extract hle hlt (safe_eval hstore operand hfit hoperand)

theorem safe_evalAll {typing : Typing} {store : Store} (hstore : store.Respects typing) :
    ∀ (es : List Expr) {tys : List Ty}, AllLiteralsFit es → inferAll typing es = .ok tys →
      Safe (List.Forall₂ Value.HasTy · tys) (evalAll store es)
  | [], _, _, rfl => Safe.ok .nil
  | e :: rest, _, ⟨hfit, hfits⟩, h => by
    obtain ⟨_, _, hty, htys, rfl⟩ := inferAll_cons_eq_ok_iff.1 h
    rw [evalAll_cons]
    refine (safe_eval hstore e hfit hty).bind fun _ hvalue => ?_
    exact (safe_evalAll hstore rest hfits htys).bind fun _ hvalues => Safe.ok (.cons hvalue hvalues)

end

/-- Type soundness: typing an expression never goes wrong, and if it gives a type, then evaluation
in any store of the typing gives a value of that type or divides an integer by zero. -/
theorem infer_sound (typing : Typing) (e : Expr) :
    (∀ error, e.infer typing = .error error →
      error ≠ .outOfRange ∧ ∀ op, error ≠ .unclassified op) ∧
    ∀ (store : Store) (ty : Ty), e.LiteralsFit → store.Respects typing →
      e.infer typing = .ok ty →
      (∃ value, e.eval store = .ok value ∧ value.HasTy ty) ∨
        e.eval store = .error .divisionByZero :=
  ⟨diagnosed_infer typing e, fun _ _ hfit hstore hty => safe_eval hstore e hfit hty⟩

/-- The quotient of a number by a cell of a map, `10 div 7`. -/
theorem infer_sound_quotient_by_cell :
    let e := Expr.binary .div (.int 10) (.select (.ident "cells") (.bv 3 8))
    let typing : Typing := Table.empty.insert "cells" (.map (.bv 8) .int)
    let store : Store := Table.empty.insert "cells" (.map (.int 0) [(.bv 3 8, .int 7)])
    e.infer typing = .ok .int ∧ e.eval store = .ok (.int 1) ∧ (Value.int 1).HasTy .int := by
  intro e typing store
  have hty : e.infer typing = .ok .int := rfl
  have hword : 3 < Word.modulus 8 := by decide
  have hfit : e.LiteralsFit := ⟨trivial, trivial, hword⟩
  have hcells : (Value.map (.int 0) [(.bv 3 8, .int 7)]).HasTy (.map (.bv 8) .int) := by
    refine .map (.int 0) ?_ ?_
    · intro entry h
      obtain rfl := List.mem_singleton.1 h
      exact .bv hword
    · intro entry h
      obtain rfl := List.mem_singleton.1 h
      exact .int 7
  have hstore : store.Respects typing := by
    intro name ty h
    rw [Table.find?_insert] at h
    split at h
    · next hname =>
      cases h
      exact ⟨_, (Table.find?_insert _ _ _ _).trans (if_pos hname), hcells⟩
    · cases h
  have hone : e.eval store = .ok (.int 1) := rfl
  obtain ⟨value, heval, hvalue⟩ | hzero := (infer_sound typing e).2 store .int hfit hstore hty
  · obtain rfl := Except.ok.inj (hone.symm.trans heval)
    exact ⟨hty, hone, hvalue⟩
  · cases hone.symm.trans hzero

end Expr

end SolidityEncoding
