import SolidityEncoding.Encoding.Session
import SolidityEncoding.Proofs.Expr.Words
import SolidityEncoding.Proofs.Typing.Inference

/-!
# Applications of bitvector functions

Three kinds of nodes of an expression apply a function that a program has to declare: the functions
of one and of two bitvectors, and the extensions.  The name of a function tells it apart from all
others (`BvFunction.name_injective`), and its declaration says about a node what the printer and the
typing rules say about it (`BvFunction.describes_declaration`).
-/

namespace SolidityEncoding

namespace BvFunction

/-- The SMT-LIB name; there is none for an extension to fewer bits. -/
def smtName? : BvFunction → Option String
  | .unary op _ => some op.smtName
  | .binary op _ => some op.smtName
  | .extension kind source target => kind.smtName? source target

/-- The declaration of the function; there is none for an extension to fewer bits. -/
def declaration? : BvFunction → Option FuncDecl
  | .unary op width => some (op.declaration width)
  | .binary op width => some (op.declaration width)
  | .extension kind source target => kind.declaration? source target

theorem name_of_declaration? {f : BvFunction} {decl : FuncDecl} (h : f.declaration? = some decl) :
    decl.name = f.name := by
  cases f with
  | unary | binary =>
    cases h
    rfl
  | extension kind source target =>
    obtain ⟨smtName, -, rfl⟩ := Option.map_eq_some_iff.1 h
    rfl

/-! ### Names -/

/-- Different functions have different names.  The reader of expressions tells them apart by what it
makes of one argument and of two. -/
theorem name_injective {f g : BvFunction} (h : f.name = g.name) : f = g := by
  have happly (arguments : List Expr) : f.applied? arguments = g.applied? arguments := by
    rw [← call?_name, ← call?_name, h]
  have hone := happly [.error]
  have htwo := happly [.error, .error]
  cases f <;> cases g <;> cases hone <;> cases htwo <;> rfl

/-- All names begin with the same letter. -/
theorem head?_name (f : BvFunction) : f.name.toList.head? = some 'b' := by
  rw [toList_name, List.head?_append, f.stem_letters.1]
  rfl

end BvFunction

/-! ### Nodes -/

namespace Expr

mutual

/-- The expression and all its parts. -/
@[simp] def nodes : Expr → List Expr
  | .bool value => [.bool value]
  | .int value => [.int value]
  | .bv value width => [.bv value width]
  | .ident name => [.ident name]
  | .error => [.error]
  | .unary op operand => .unary op operand :: operand.nodes
  | .binary op lhs rhs => .binary op lhs rhs :: (lhs.nodes ++ rhs.nodes)
  | .ite cond thenExpr elseExpr =>
    .ite cond thenExpr elseExpr :: (cond.nodes ++ thenExpr.nodes ++ elseExpr.nodes)
  | .select base index => .select base index :: (base.nodes ++ index.nodes)
  | .update base index value =>
    .update base index value :: (base.nodes ++ index.nodes ++ value.nodes)
  | .tuple elements => .tuple elements :: nodesOfAll elements
  | .bvUnary op width operand => .bvUnary op width operand :: operand.nodes
  | .bvBinary op width lhs rhs => .bvBinary op width lhs rhs :: (lhs.nodes ++ rhs.nodes)
  | .extend kind source target operand => .extend kind source target operand :: operand.nodes
  | .extract operand hi lo => .extract operand hi lo :: operand.nodes

/-- All parts of a list of expressions. -/
@[simp] def nodesOfAll : List Expr → List Expr
  | [] => []
  | e :: rest => e.nodes ++ nodesOfAll rest

end

/-- The function that a node applies, with its operands. -/
@[simp] def application? : Expr → Option (BvFunction × List Expr)
  | .bvUnary op width operand => some (.unary op width, [operand])
  | .bvBinary op width lhs rhs => some (.binary op width, [lhs, rhs])
  | .extend kind source target operand => some (.extension kind source target, [operand])
  | _ => none

/-- A function is applied somewhere in the expression. -/
def Applies (e : Expr) (f : BvFunction) : Prop :=
  ∃ node ∈ e.nodes, ∃ operands, node.application? = some (f, operands)

/-- All functions that are applied in the expression have a property. -/
def AppliesOnly (P : BvFunction → Prop) (e : Expr) : Prop := ∀ f, e.Applies f → P f

theorem AppliesOnly.mono {P Q : BvFunction → Prop} {e : Expr} (h : e.AppliesOnly P)
    (hPQ : ∀ f, P f → Q f) : e.AppliesOnly Q := fun f hf => hPQ f (h f hf)

section Formers

variable {P : BvFunction → Prop}

theorem appliesOnly_iff_nodes {e : Expr} :
    e.AppliesOnly P ↔
      ∀ node ∈ e.nodes, ∀ f operands, node.application? = some (f, operands) → P f := by
  constructor
  · intro h node hnode f operands happlication
    exact h f ⟨node, hnode, operands, happlication⟩
  · rintro h f ⟨node, hnode, operands, happlication⟩
    exact h node hnode f operands happlication

@[simp] theorem appliesOnly_bool (value : Bool) : (Expr.bool value).AppliesOnly P := by
  simp [appliesOnly_iff_nodes]

@[simp] theorem appliesOnly_int (value : Int) : (Expr.int value).AppliesOnly P := by
  simp [appliesOnly_iff_nodes]

@[simp] theorem appliesOnly_bv (value : Nat) (width : UInt32) :
    (Expr.bv value width).AppliesOnly P := by
  simp [appliesOnly_iff_nodes]

@[simp] theorem appliesOnly_bvOf (value : Nat) (width : UInt32) :
    (Expr.bvOf value width).AppliesOnly P := appliesOnly_bv _ width

@[simp] theorem appliesOnly_ident (name : String) : (Expr.ident name).AppliesOnly P := by
  simp [appliesOnly_iff_nodes]

@[simp] theorem appliesOnly_error : Expr.error.AppliesOnly P := by
  simp [appliesOnly_iff_nodes]

@[simp] theorem appliesOnly_unary {op : UnaryOp} {operand : Expr} :
    (Expr.unary op operand).AppliesOnly P ↔ operand.AppliesOnly P := by
  simp [appliesOnly_iff_nodes]

@[simp] theorem appliesOnly_binary {op : BinaryOp} {lhs rhs : Expr} :
    (Expr.binary op lhs rhs).AppliesOnly P ↔ lhs.AppliesOnly P ∧ rhs.AppliesOnly P := by
  simp [appliesOnly_iff_nodes, or_imp, forall_and]

@[simp] theorem appliesOnly_ite {cond thenExpr elseExpr : Expr} :
    (Expr.ite cond thenExpr elseExpr).AppliesOnly P ↔
      cond.AppliesOnly P ∧ thenExpr.AppliesOnly P ∧ elseExpr.AppliesOnly P := by
  simp [appliesOnly_iff_nodes, or_imp, forall_and]

@[simp] theorem appliesOnly_select {base index : Expr} :
    (Expr.select base index).AppliesOnly P ↔ base.AppliesOnly P ∧ index.AppliesOnly P := by
  simp [appliesOnly_iff_nodes, or_imp, forall_and]

@[simp] theorem appliesOnly_update {base index value : Expr} :
    (Expr.update base index value).AppliesOnly P ↔
      base.AppliesOnly P ∧ index.AppliesOnly P ∧ value.AppliesOnly P := by
  simp [appliesOnly_iff_nodes, or_imp, forall_and]

theorem mem_nodesOfAll {node : Expr} {elements : List Expr} :
    node ∈ nodesOfAll elements ↔ ∃ e ∈ elements, node ∈ e.nodes := by
  induction elements with
  | nil => simp
  | cons e rest ih => simp [ih]

@[simp] theorem appliesOnly_tuple {elements : List Expr} :
    (Expr.tuple elements).AppliesOnly P ↔ ∀ e ∈ elements, e.AppliesOnly P := by
  simp only [appliesOnly_iff_nodes, nodes, List.forall_mem_cons, mem_nodesOfAll]
  constructor
  · rintro ⟨-, h⟩ e he node hnode
    exact h node ⟨e, he, hnode⟩
  · intro h
    refine ⟨nofun, ?_⟩
    rintro node ⟨e, he, hnode⟩
    exact h e he node hnode

@[simp] theorem appliesOnly_bvUnary {op : BvUnaryOp} {width : UInt32} {operand : Expr} :
    (Expr.bvUnary op width operand).AppliesOnly P ↔
      P (.unary op width) ∧ operand.AppliesOnly P := by
  simp [appliesOnly_iff_nodes]

@[simp] theorem appliesOnly_bvBinary {op : BvBinaryOp} {width : UInt32} {lhs rhs : Expr} :
    (Expr.bvBinary op width lhs rhs).AppliesOnly P ↔
      P (.binary op width) ∧ lhs.AppliesOnly P ∧ rhs.AppliesOnly P := by
  simp [appliesOnly_iff_nodes, or_imp, forall_and]

@[simp] theorem appliesOnly_extend {kind : Extension} {source target : UInt32} {operand : Expr} :
    (Expr.extend kind source target operand).AppliesOnly P ↔
      P (.extension kind source target) ∧ operand.AppliesOnly P := by
  simp [appliesOnly_iff_nodes]

@[simp] theorem appliesOnly_extract {operand : Expr} {hi lo : UInt32} :
    (Expr.extract operand hi lo).AppliesOnly P ↔ operand.AppliesOnly P := by
  simp [appliesOnly_iff_nodes]

end Formers

end Expr

/-! ### Declarations of nodes -/

/-- A declaration says about a node what is printed and inferred for it: the name of the function
stands before the operands, the operands have the types of the parameters and the node has the type
of the result, and the attribute binds the function to its SMT-LIB name. -/
structure FuncDecl.Describes (decl : FuncDecl) (node : Expr) (f : BvFunction)
    (operands : List Expr) : Prop where
  render : node.render =
    decl.name ++ "(" ++ ", ".intercalate (Expr.renderAll operands) ++ ")"
  infer : ∀ typing ty, node.infer typing = .ok ty ↔
    Expr.inferAll typing operands = .ok decl.params ∧ ty = decl.returns
  attributes : ∃ smtName, f.smtName? = some smtName ∧
    decl.attributes = [.bvBuiltin smtName]

namespace BvFunction

theorem inferAll_singleton {typing : Typing} {operand : Expr} {ty : Ty} :
    Expr.inferAll typing [operand] = .ok [ty] ↔ operand.infer typing = .ok ty := by
  simp [Expr.inferAll, bind_eq_ok_iff]

theorem inferAll_pair {typing : Typing} {lhs rhs : Expr} {ty ty' : Ty} :
    Expr.inferAll typing [lhs, rhs] = .ok [ty, ty'] ↔
      lhs.infer typing = .ok ty ∧ rhs.infer typing = .ok ty' := by
  simp [Expr.inferAll, bind_eq_ok_iff]

/-- The declaration of the function of a node describes the node. -/
theorem describes_declaration {node : Expr} {f : BvFunction} {operands : List Expr}
    (hnode : node.application? = some (f, operands)) {decl : FuncDecl}
    (h : f.declaration? = some decl) : decl.Describes node f operands := by
  cases node with
  | bvUnary op width operand =>
    cases hnode
    cases h
    refine ⟨rfl, fun typing ty => ?_, op.smtName, rfl, rfl⟩
    rw [BvUnaryOp.declaration, inferAll_singleton, Expr.infer_bvUnary_eq_ok_iff]
  | bvBinary op width lhs rhs =>
    cases hnode
    cases h
    have hoperands : ", ".intercalate (Expr.renderAll [lhs, rhs]) =
        lhs.render ++ ", " ++ rhs.render := by
      simp [Expr.renderAll, String.intercalate_cons_of_ne_nil, String.append_assoc]
    refine ⟨?_, fun typing ty => ?_, op.smtName, rfl, rfl⟩
    · rw [hoperands, Expr.render, BvBinaryOp.declaration]
      simp only [String.append_assoc]
    rw [BvBinaryOp.declaration, inferAll_pair, Expr.infer_bvBinary_eq_ok_iff, and_assoc]
  | extend kind source target operand =>
    cases hnode
    obtain ⟨smtName, hsmtName, rfl⟩ := Option.map_eq_some_iff.1 h
    refine ⟨rfl, fun typing ty => ?_, smtName, hsmtName, rfl⟩
    have hle : source ≤ target := by
      rw [Extension.smtName?] at hsmtName
      split at hsmtName
      · assumption
      · cases hsmtName
    rw [inferAll_singleton, Expr.infer_extend_eq_ok_iff, and_iff_right hle]
  | _ => cases hnode

end BvFunction

end SolidityEncoding
