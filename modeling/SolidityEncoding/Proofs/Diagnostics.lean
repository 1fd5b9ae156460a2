import SolidityEncoding.Encoding.Arithmetic
import SolidityEncoding.Proofs.Session
import SolidityEncoding.Proofs.Typing.Inference

/-!
# Diagnostics

An operation that has no counterpart in the encoding is reported, and the error placeholder takes
the place of its value.  This module follows both through a whole tree of operators: the session
gains one diagnostic for every call that returned the placeholder, and the value of the tree
contains the placeholder if and only if there is such a call (`OperatorTree.reports_unsupported`).
The typing rules accept no expression that contains the placeholder, so a report cannot be missed.

What one call does is said once, by `Session.Answers`: it keeps the placeholders of its operands
and reports nothing, or it reports and returns the placeholder alone.
-/

namespace SolidityEncoding

/-! ### The placeholder has no type -/

namespace Expr

variable {typing : Typing}

mutual

/-- An expression that has a type contains no placeholder. -/
theorem containsError_of_infer :
    ∀ (e : Expr) {ty : Ty}, e.infer typing = .ok ty → e.containsError = false
  | .bool _, _, _ | .int _, _, _ | .bv _ _, _, _ | .ident _, _, _ => by rw [containsError]
  | .error, _, h => nomatch h
  | .unary op operand, _, h => by
    rw [containsError, containsError_of_infer operand (infer_unary_eq_ok_iff.1 h).1]
  | .binary op lhs rhs, _, h => by
    obtain ⟨_, _, hlhs, hrhs, -⟩ := infer_binary_eq_ok_iff.1 h
    rw [containsError, containsError_of_infer lhs hlhs, containsError_of_infer rhs hrhs,
      Bool.or_false]
  | .ite cond thenExpr elseExpr, _, h => by
    obtain ⟨hcond, hthen, helse⟩ := infer_ite_eq_ok_iff.1 h
    rw [containsError, containsError_of_infer cond hcond, containsError_of_infer thenExpr hthen,
      containsError_of_infer elseExpr helse, Bool.or_false, Bool.or_false]
  | .select base index, _, h => by
    obtain ⟨_, hbase, hindex⟩ := infer_select_eq_ok_iff.1 h
    rw [containsError, containsError_of_infer base hbase, containsError_of_infer index hindex,
      Bool.or_false]
  | .update base index value, _, h => by
    obtain ⟨_, _, hbase, hindex, hvalue, -⟩ := infer_update_eq_ok_iff.1 h
    rw [containsError, containsError_of_infer base hbase, containsError_of_infer index hindex,
      containsError_of_infer value hvalue, Bool.or_false, Bool.or_false]
  | .tuple elements, _, h => by
    obtain ⟨_, helements, -⟩ := infer_tuple_eq_ok_iff.1 h
    rw [containsError, anyContainsError_of_inferAll elements helements]
  | .bvUnary op width operand, _, h => by
    rw [containsError, containsError_of_infer operand (infer_bvUnary_eq_ok_iff.1 h).1]
  | .bvBinary op width lhs rhs, _, h => by
    obtain ⟨hlhs, hrhs, -⟩ := infer_bvBinary_eq_ok_iff.1 h
    rw [containsError, containsError_of_infer lhs hlhs, containsError_of_infer rhs hrhs,
      Bool.or_false]
  | .extend kind source target operand, _, h => by
    rw [containsError, containsError_of_infer operand (infer_extend_eq_ok_iff.1 h).2.1]
  | .extract operand hi lo, _, h => by
    obtain ⟨_, hoperand, -⟩ := infer_extract_eq_ok_iff.1 h
    rw [containsError, containsError_of_infer operand hoperand]

theorem anyContainsError_of_inferAll :
    ∀ (es : List Expr) {tys : List Ty}, inferAll typing es = .ok tys → anyContainsError es = false
  | [], _, _ => by rw [anyContainsError]
  | e :: rest, _, h => by
    obtain ⟨_, _, he, hrest, -⟩ := inferAll_cons_eq_ok_iff.1 h
    rw [anyContainsError, containsError_of_infer e he, anyContainsError_of_inferAll rest hrest,
      Bool.or_false]

end

end Expr

/-! ### One call -/

/-- The placeholder occurs in an encoded operation if and only if it occurs in an operand, and the
value is more than the placeholder. -/
structure Encoded.Keeps (operands : Bool) (encoded : Encoded) : Prop where
  isError : encoded.isError = false
  value : encoded.value.containsError = operands
  condition : ∀ condition, encoded.condition = some condition → condition.containsError = operands

namespace Encoded.Keeps

variable {operands : Bool}

theorem exact {value : Expr} (hne : value.isError = false)
    (h : value.containsError = operands) : (Encoded.exact value).Keeps operands := ⟨hne, h, nofun⟩

theorem wrapping {raw value : Expr} (hraw : raw.containsError = operands)
    (hne : value.isError = false) (h : value.containsError = operands) :
    (Encoded.wrapping raw value).Keeps operands := by
  refine ⟨hne, h, fun condition hcondition => ?_⟩
  cases hcondition
  rw [Expr.containsError, hraw, h, Bool.or_self]

end Encoded.Keeps

namespace Modular

variable (shape : Shape) (lhs rhs : Expr)

theorem containsError_wrapSigned (bits : UInt32) (e : Expr) :
    (wrapSigned bits e).containsError = e.containsError := by
  simp [wrapSigned, Expr.containsError]

theorem containsError_toUnsigned (bits : UInt32) (e : Expr) :
    (toUnsigned bits e).containsError = e.containsError := by
  simp [toUnsigned, Expr.containsError]

/-- Sums, differences and quotients are moved back into a signed range and have a value of their
own in an unsigned one. -/
theorem keeps_wrapSigned {raw value : Expr} {operands : Bool}
    (hraw : raw.containsError = operands) (hne : value.isError = false)
    (h : value.containsError = operands) :
    (Encoded.wrapping raw
      (if shape.signed then wrapSigned shape.bits raw else value)).Keeps operands := by
  refine .wrapping hraw ?_ ?_
  · split
    · rfl
    · exact hne
  · split
    · rw [containsError_wrapSigned, hraw]
    · exact h

theorem keeps_add : (add shape lhs rhs).Keeps (lhs.containsError || rhs.containsError) :=
  keeps_wrapSigned shape (by rw [Expr.containsError]) rfl (by simp [Expr.containsError])

theorem keeps_sub : (sub shape lhs rhs).Keeps (lhs.containsError || rhs.containsError) :=
  keeps_wrapSigned shape (by rw [Expr.containsError]) rfl (by simp [Expr.containsError])

theorem keeps_div : (div shape lhs rhs).Keeps (lhs.containsError || rhs.containsError) :=
  keeps_wrapSigned shape (by rw [Expr.containsError]) rfl (by rw [Expr.containsError])

theorem keeps_mul : (mul shape lhs rhs).Keeps (lhs.containsError || rhs.containsError) := by
  refine .wrapping (by rw [Expr.containsError]) ?_ ?_
  · split <;> rfl
  · split
    · simp [Expr.containsError, containsError_toUnsigned]
    · simp [Expr.containsError]

theorem keeps_neg (operand : Expr) : (neg shape operand).Keeps operand.containsError := by
  refine .wrapping (by rw [Expr.containsError]) ?_ ?_
  · split <;> rfl
  · split <;> simp [Expr.containsError]

end Modular

namespace SourceBinaryOp

variable {lhs rhs : Expr}

/-- Operands that have a literal power are literals, which contain no placeholder. -/
theorem not_containsError_of_literalPower? {power : Int}
    (h : literalPower? lhs rhs = some power) :
    (lhs.containsError || rhs.containsError) = false := by
  unfold literalPower? at h
  split at h
  · next hl hr =>
    rw [Expr.eq_int_of_intLit? hl, Expr.eq_int_of_intLit? hr, Expr.containsError,
      Expr.containsError, Bool.or_self]
  · cases h

theorem keeps_mathematical? {op : SourceBinaryOp} {encoded : Encoded}
    (h : op.mathematical? lhs rhs = some encoded) :
    encoded.Keeps (lhs.containsError || rhs.containsError) := by
  cases op with
  | exp =>
    obtain ⟨power, hpower, rfl⟩ := Option.map_eq_some_iff.1 h
    rw [not_containsError_of_literalPower? hpower]
    exact .exact rfl (by rw [Expr.containsError])
  | add | sub | mul | div | mod | lt | gt | lte | gte =>
    cases h
    exact .exact rfl (by rw [Expr.containsError])
  | bitAnd | bitOr | bitXor | shl | sar => cases h

theorem keeps_modular? {op : SourceBinaryOp} {shape : Shape} {encoded : Encoded}
    (h : op.modular? shape lhs rhs = some encoded) :
    encoded.Keeps (lhs.containsError || rhs.containsError) := by
  cases op with
  | add =>
    cases h
    exact Modular.keeps_add shape lhs rhs
  | sub =>
    cases h
    exact Modular.keeps_sub shape lhs rhs
  | mul =>
    cases h
    exact Modular.keeps_mul shape lhs rhs
  | div =>
    cases h
    exact Modular.keeps_div shape lhs rhs
  | lt | gt | lte | gte =>
    cases h
    exact .exact rfl (by rw [Expr.containsError])
  | exp =>
    obtain ⟨power, hpower, rfl⟩ := Option.map_eq_some_iff.1 h
    rw [not_containsError_of_literalPower? hpower]
    exact .wrapping (by rw [Expr.containsError]) rfl (by rw [Expr.containsError])
  | mod | bitAnd | bitOr | bitXor | shl | sar => cases h

theorem keeps_literalBvPower? {bits : UInt32} {power : Expr}
    (h : literalBvPower? lhs rhs bits = some power) :
    (Encoded.exact power).Keeps (lhs.containsError || rhs.containsError) := by
  unfold literalBvPower? at h
  split at h
  · next hl hr =>
    cases h
    rw [Expr.eq_bv_of_bvLit? hl, Expr.eq_bv_of_bvLit? hr]
    exact .exact rfl (by simp [Expr.bvOf, Expr.containsError])
  · cases h

end SourceBinaryOp

/-- An operator of the source language. -/
inductive SourceOperator where
  | binary (op : SourceBinaryOp)
  | unary (op : SourceUnaryOp)

/-- The error that reports an operator without a counterpart. -/
def SourceOperator.unsupported (operator : SourceOperator) (encoding : Encoding) : EncodingError :=
  match operator with
  | .binary op => op.unsupported encoding
  | .unary op => .unsupportedUnary encoding op

/-- The encoding that an error names. -/
def EncodingError.encoding? : EncodingError → Option Encoding
  | .unsupportedBinary encoding _ | .unsupportedUnary encoding _
  | .unsupportedExponentiation encoding => some encoding
  | .unsupportedFeature _ | .inconsistent _ | .program _ | .outOfRange => none

theorem SourceOperator.encoding?_unsupported (operator : SourceOperator) (encoding : Encoding) :
    (operator.unsupported encoding).encoding? = some encoding := by
  rcases operator with op | op
  · cases op <;> rfl
  · rfl

namespace Session

/-- All that a call of an operator can do: the operation is encoded, or it is reported and the
placeholder is returned without a condition. -/
inductive Answers (s : Session) (operator : SourceOperator) (node : Option NodeId)
    (operands : Bool) : Encoded × Session → Prop
  | supported {encoded : Encoded} {s' : Session} (hconfig : s'.config = s.config)
      (hdiagnostics : s'.diagnostics = s.diagnostics) (h : encoded.Keeps operands) :
      Answers s operator node operands (encoded, s')
  | unsupported :
      Answers s operator node operands (.error, s.report node (operator.unsupported s.encoding))

variable {s : Session} {operator : SourceOperator} {node : Option NodeId} {operands : Bool}

theorem answers_orReport {result : Option Encoded} {error : EncodingError}
    (herror : error = operator.unsupported s.encoding)
    (h : ∀ encoded, result = some encoded → encoded.Keeps operands) :
    s.Answers operator node operands ((orReport node error result).run s) := by
  subst herror
  cases result with
  | some encoded => exact .supported rfl rfl (h encoded rfl)
  | none => exact .unsupported

end Session

theorem SourceBinaryOp.answers_encode (op : SourceBinaryOp) (shape : Shape) (lhs rhs : Expr)
    (node : Option NodeId) (s : Session) :
    s.Answers (.binary op) node (lhs.containsError || rhs.containsError)
      ((op.encode shape lhs rhs node).run s) := by
  rw [encode, StateT.run_bind, Session.run_getEncoding]
  cases hs : s.encoding with
  | mathematical => exact Session.answers_orReport (hs ▸ rfl) fun _ => keeps_mathematical?
  | modular => exact Session.answers_orReport (hs ▸ rfl) fun _ => keeps_modular?
  | bitvector =>
    cases hfunction : op.bvFunction? shape.signed with
    | some function =>
      dsimp only
      exact .supported (s.config_declare _) (s.diagnostics_declare _)
        (.exact rfl (by rw [Expr.containsError]))
    | none =>
      dsimp only
      refine Session.answers_orReport (hs ▸ rfl) fun encoded h => ?_
      obtain ⟨power, hpower, rfl⟩ := Option.map_eq_some_iff.1 h
      exact keeps_literalBvPower? hpower

theorem SourceUnaryOp.answers_encode (op : SourceUnaryOp) (shape : Shape) (operand : Expr)
    (node : Option NodeId) (s : Session) :
    s.Answers (.unary op) node operand.containsError ((op.encode shape operand node).run s) := by
  rw [encode, StateT.run_bind, Session.run_getEncoding]
  cases hs : s.encoding with
  | mathematical =>
    cases op with
    | neg => exact .supported rfl rfl (.exact rfl (by rw [Expr.containsError]))
    | bitNot => exact Session.answers_orReport (hs ▸ rfl) nofun
  | modular =>
    cases op with
    | neg => exact .supported rfl rfl (Modular.keeps_neg shape operand)
    | bitNot => exact Session.answers_orReport (hs ▸ rfl) nofun
  | bitvector =>
    cases op with
    | neg | bitNot =>
      exact .supported (s.config_declare _) (s.diagnostics_declare _)
        (.exact rfl (by rw [Expr.containsError]))

/-! ### Calls of a session -/

/-- A call of an operator, with what it returned. -/
structure OperatorCall where
  operator : SourceOperator
  node : Option NodeId
  returned : Encoded

namespace OperatorCall

/-- Whether a call returned the placeholder. -/
def isUnsupported (call : OperatorCall) : Bool := call.returned.isError

/-- The diagnostic that reports a call. -/
def diagnostic (call : OperatorCall) (encoding : Encoding) : Diagnostic :=
  ⟨call.node, call.operator.unsupported encoding⟩

/-- Without a value there is no condition, and a condition contains the placeholder only if the
value does. -/
structure ConditionFollowsValue (call : OperatorCall) : Prop where
  none_of_isUnsupported : call.isUnsupported = true → call.returned.condition = none
  containsError : ∀ condition, call.returned.condition = some condition →
    condition.containsError = true → call.returned.value.containsError = true

/-- The diagnostics that a list of calls adds to a session. -/
def diagnostics (encoding : Encoding) (calls : List OperatorCall) : List Diagnostic :=
  (calls.filter isUnsupported).map (·.diagnostic encoding)

theorem diagnostics_append (encoding : Encoding) (first second : List OperatorCall) :
    diagnostics encoding (first ++ second) =
      diagnostics encoding first ++ diagnostics encoding second := by
  rw [diagnostics, List.filter_append, List.map_append]
  rfl

theorem diagnostics_eq_nil_iff {encoding : Encoding} {calls : List OperatorCall} :
    diagnostics encoding calls = [] ↔ calls.any isUnsupported = false := by
  rw [diagnostics, List.map_eq_nil_iff, List.filter_eq_nil_iff, List.any_eq_false]

end OperatorCall

namespace Session

/-- A session went through a list of calls: it gained their diagnostics. -/
structure Answered (s s' : Session) (calls : List OperatorCall) : Prop where
  config : s'.config = s.config
  diagnostics : s'.diagnostics = s.diagnostics ++ OperatorCall.diagnostics s.encoding calls
  conditions : ∀ call ∈ calls, call.ConditionFollowsValue

namespace Answered

theorem nil (s : Session) : s.Answered s [] := ⟨rfl, (List.append_nil _).symm, nofun⟩

theorem append {s s₁ s₂ : Session} {first second : List OperatorCall}
    (h₁ : s.Answered s₁ first) (h₂ : s₁.Answered s₂ second) :
    s.Answered s₂ (first ++ second) where
  config := h₂.config.trans h₁.config
  diagnostics := by
    have hencoding : s₁.encoding = s.encoding := congrArg EncodingConfig.encoding h₁.config
    rw [h₂.diagnostics, h₁.diagnostics, hencoding, OperatorCall.diagnostics_append,
      List.append_assoc]
  conditions := List.forall_mem_append.2 ⟨h₁.conditions, h₂.conditions⟩

end Answered

/-- One call goes through a session as a list of one, and its value contains the placeholder if an
operand does or the call has none. -/
theorem Answers.answered {s s' : Session} {operator : SourceOperator} {node : Option NodeId}
    {operands : Bool} {returned : Encoded}
    (h : s.Answers operator node operands (returned, s')) :
    s.Answered s' [⟨operator, node, returned⟩] ∧
      returned.value.containsError = (operands || returned.isError) := by
  cases h with
  | supported hconfig hdiagnostics h =>
    have hnone : OperatorCall.diagnostics s.encoding [⟨operator, node, returned⟩] = [] := by
      rw [OperatorCall.diagnostics_eq_nil_iff, List.any_cons, List.any_nil, Bool.or_false]
      exact h.isError
    refine ⟨⟨hconfig, ?_, List.forall_mem_singleton.2 ⟨?_, ?_⟩⟩, ?_⟩
    · rw [hdiagnostics, hnone, List.append_nil]
    · intro herror
      exact absurd (h.isError.symm.trans herror) Bool.false_ne_true
    · intro condition hcondition herror
      rw [h.value, ← h.condition condition hcondition, herror]
    · rw [h.value, h.isError, Bool.or_false]
  | unsupported =>
    refine ⟨⟨rfl, rfl, List.forall_mem_singleton.2 ⟨fun _ => rfl, nofun⟩⟩, ?_⟩
    exact (Bool.or_true operands).symm

end Session

/-! ### Trees of operators -/

/-- A source expression over operands that are encoded already.  Every operator has the shape of its
operands and a node to be reported for. -/
inductive OperatorTree where
  | leaf (e : Expr)
  | binary (op : SourceBinaryOp) (shape : Shape) (node : Option NodeId) (lhs rhs : OperatorTree)
  | unary (op : SourceUnaryOp) (shape : Shape) (node : Option NodeId) (operand : OperatorTree)

/-- The value of a tree, with the calls that led to it, first call first. -/
structure EncodedTree where
  value : Expr
  calls : List OperatorCall

namespace OperatorTree

/-- The leaves of a tree, from left to right. -/
def leaves : OperatorTree → List Expr
  | .leaf e => [e]
  | .binary _ _ _ lhs rhs => lhs.leaves ++ rhs.leaves
  | .unary _ _ _ operand => operand.leaves

/-- The operators of a tree with their nodes, operands before the operators on them. -/
def operators : OperatorTree → List (SourceOperator × Option NodeId)
  | .leaf _ => []
  | .binary op _ node lhs rhs => lhs.operators ++ rhs.operators ++ [(.binary op, node)]
  | .unary op _ node operand => operand.operators ++ [(.unary op, node)]

/-- Encodes a tree from the leaves up. -/
def encode : OperatorTree → Encode EncodedTree
  | .leaf e => return ⟨e, []⟩
  | .binary op shape node lhs rhs => do
    let lhs ← lhs.encode
    let rhs ← rhs.encode
    let returned ← op.encode shape lhs.value rhs.value node
    return ⟨returned.value, lhs.calls ++ rhs.calls ++ [⟨.binary op, node, returned⟩]⟩
  | .unary op shape node operand => do
    let operand ← operand.encode
    let returned ← op.encode shape operand.value node
    return ⟨returned.value, operand.calls ++ [⟨.unary op, node, returned⟩]⟩

/-- What encoding a tree does: there is one call for each operator, and the value contains the
placeholder if and only if some call returned it. -/
structure Encodes (tree : OperatorTree) (s : Session) (encoded : EncodedTree) (s' : Session) :
    Prop where
  operators : encoded.calls.map (fun call => (call.operator, call.node)) = tree.operators
  answered : s.Answered s' encoded.calls
  value : encoded.value.containsError = encoded.calls.any OperatorCall.isUnsupported

theorem exists_encodes (tree : OperatorTree)
    (hleaves : ∀ e ∈ tree.leaves, e.containsError = false) (s : Session) :
    ∃ encoded s', tree.encode.run s = (encoded, s') ∧ tree.Encodes s encoded s' := by
  induction tree generalizing s with
  | leaf e => exact ⟨_, s, rfl, rfl, .nil s, hleaves e List.mem_cons_self⟩
  | binary op shape node lhs rhs ihl ihr =>
    obtain ⟨hl, hr⟩ := List.forall_mem_append.1 hleaves
    obtain ⟨l, s₁, hlrun, hl⟩ := ihl hl s
    obtain ⟨r, s₂, hrrun, hr⟩ := ihr hr s₁
    have hanswers := op.answers_encode shape l.value r.value node s₂
    rcases hrun : (op.encode shape l.value r.value node).run s₂ with ⟨returned, s₃⟩
    rw [hrun] at hanswers
    obtain ⟨hanswered, hvalue⟩ := hanswers.answered
    refine ⟨⟨returned.value, l.calls ++ r.calls ++ [⟨.binary op, node, returned⟩]⟩, s₃, ?_, ?_,
      (hl.answered.append hr.answered).append hanswered, ?_⟩
    · rw [encode, StateT.run_bind, hlrun]
      change StateT.run (rhs.encode >>= _) s₁ = _
      rw [StateT.run_bind, hrrun]
      change StateT.run (op.encode shape l.value r.value node >>= _) s₂ = _
      rw [StateT.run_bind, hrun]
      rfl
    · simp only [List.map_append, hl.operators, hr.operators, operators]
      rfl
    · simp only [hvalue, hl.value, hr.value, List.any_append]
      exact congrArg _ (Bool.or_false _).symm
  | unary op shape node operand ih =>
    obtain ⟨o, s₁, horun, ho⟩ := ih hleaves s
    have hanswers := op.answers_encode shape o.value node s₁
    rcases hrun : (op.encode shape o.value node).run s₁ with ⟨returned, s₂⟩
    rw [hrun] at hanswers
    obtain ⟨hanswered, hvalue⟩ := hanswers.answered
    refine ⟨⟨returned.value, o.calls ++ [⟨.unary op, node, returned⟩]⟩, s₂, ?_, ?_,
      ho.answered.append hanswered, ?_⟩
    · rw [encode, StateT.run_bind, horun]
      change StateT.run (op.encode shape o.value node >>= _) s₁ = _
      rw [StateT.run_bind, hrun]
      rfl
    · simp only [List.map_append, ho.operators, operators]
      rfl
    · simp only [hvalue, ho.value, List.any_append]
      exact congrArg _ (Bool.or_false _).symm

/-- Unsupported operations are reported exactly.  Encoding a tree whose leaves contain no
placeholder makes one call for each operator, and the diagnostics gained are those of the calls that
returned the placeholder, in the order of the calls, each with the node of its call and the encoding
of the session.  Such a call returns no condition, and no other condition contains the placeholder
unless its value does.  The value of the tree contains the placeholder if and only if a diagnostic
was gained, and then it has no type in any typing. -/
theorem reports_unsupported (tree : OperatorTree)
    (hleaves : ∀ e ∈ tree.leaves, e.containsError = false) (s : Session) :
    ∃ encoded s', tree.encode.run s = (encoded, s') ∧
      encoded.calls.map (fun call => (call.operator, call.node)) = tree.operators ∧
      s'.diagnostics = s.diagnostics ++ OperatorCall.diagnostics s.encoding encoded.calls ∧
      (∀ call ∈ encoded.calls, (call.diagnostic s.encoding).error.encoding? = some s.encoding ∧
        (call.returned.isError = true → call.returned.condition = none) ∧
        ∀ condition, call.returned.condition = some condition →
          condition.containsError = true → call.returned.value.containsError = true) ∧
      (encoded.value.containsError = true ↔
        OperatorCall.diagnostics s.encoding encoded.calls ≠ []) ∧
      (encoded.value.containsError = true → ∀ typing, ∃ error,
        encoded.value.infer typing = .error error ∧ error ≠ .outOfRange ∧
          ∀ op, error ≠ .unclassified op) := by
  obtain ⟨encoded, s', hrun, h⟩ := tree.exists_encodes hleaves s
  refine ⟨encoded, s', hrun, h.operators, h.answered.diagnostics, ?_, ?_, ?_⟩
  · intro call hcall
    have hcondition := h.answered.conditions call hcall
    exact ⟨call.operator.encoding?_unsupported s.encoding, hcondition.none_of_isUnsupported,
      hcondition.containsError⟩
  · rw [h.value, Ne, OperatorCall.diagnostics_eq_nil_iff, Bool.not_eq_false]
  · intro herror typing
    cases hinfer : encoded.value.infer typing with
    | ok ty => rw [Expr.containsError_of_infer _ hinfer] at herror; cases herror
    | error error => exact ⟨error, rfl, Expr.diagnosed_infer typing _ error hinfer⟩

/-- In the modular encoding the sum of `x & y` and `~z` has two reports, one for each operand. -/
theorem reports_unsupported_operands_of_sum :
    let byte : Shape := ⟨8, false⟩
    let tree : OperatorTree := .binary .add byte (some ⟨3⟩)
      (.binary .bitAnd byte (some ⟨1⟩) (.leaf (.ident "x")) (.leaf (.ident "y")))
      (.unary .bitNot byte (some ⟨2⟩) (.leaf (.ident "z")))
    let s := Session.start ⟨.modular, true⟩
    ∃ encoded s', tree.encode.run s = (encoded, s') ∧
      s'.diagnostics = [⟨some ⟨1⟩, .unsupportedBinary .modular .bitAnd⟩,
        ⟨some ⟨2⟩, .unsupportedUnary .modular .bitNot⟩] ∧
      encoded.value.containsError = true ∧
      ∀ typing, ∃ error, encoded.value.infer typing = .error error := by
  intro byte tree s
  have hleaves : ∀ e ∈ tree.leaves, e.containsError = false := by decide
  obtain ⟨encoded, s', hrun, -, hdiagnostics, -, hiff, hrejects⟩ :=
    tree.reports_unsupported hleaves s
  obtain ⟨rfl, rfl⟩ := Prod.mk.inj hrun
  have hcontains := hiff.2 nofun
  refine ⟨_, _, rfl, rfl, hcontains, fun typing => ?_⟩
  obtain ⟨error, herror, -⟩ := hrejects hcontains typing
  exact ⟨error, herror⟩

end OperatorTree

end SolidityEncoding
