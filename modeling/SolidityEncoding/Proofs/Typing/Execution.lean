import SolidityEncoding.Proofs.Execution
import SolidityEncoding.Proofs.Typing.Soundness

/-!
# Safe execution

A procedure that is accepted runs safely (`Procedure.check_sound`): on arguments of the declared
types and in a store of the global typing it divides an integer by zero or has outcomes, and the
store of every outcome gives each name of its scope a value of its type.

What a step preserves is that the store respects the typing of the scope.  An assignment to a cell
keeps it since the map that is written back has the type of the map that was read, level by level up
to the variable at the root; the other statements do not write at all.
-/

namespace SolidityEncoding

/-! ### Stores -/

namespace Value

mutual

/-- A variable starts at a value of its type. -/
theorem ofTy_hasTy : ∀ ty : Ty, (ofTy ty).HasTy ty
  | .bool => .bool false
  | .int => .int 0
  | .named name => .named 0 name
  | .bv width => .bv (Word.modulus_pos width)
  | .map _ elem => .map (ofTy_hasTy elem) (List.forall_mem_nil _) (List.forall_mem_nil _)
  | .tuple tys => .tuple (ofTys_hasTy tys)

theorem ofTys_hasTy : ∀ tys : List Ty, List.Forall₂ HasTy (ofTys tys) tys
  | [] => .nil
  | ty :: rest => .cons (ofTy_hasTy ty) (ofTys_hasTy rest)

end

end Value

namespace Store.Respects

variable {store : Store} {typing : Typing}

/-- A value of the type that a name has keeps to the typing. -/
theorem insert (h : store.Respects typing) {name : String} {ty : Ty} {value : Value}
    (hname : typing.find? name = some ty) (hvalue : value.HasTy ty) :
    Respects (store.insert name value) typing := by
  intro other otherTy hother
  rw [Table.find?_insert]
  split
  · next heq =>
    rw [← heq, hname] at hother
    cases hother
    exact ⟨value, rfl, hvalue⟩
  · exact h other otherTy hother

/-- A name may be declared anew, with another type. -/
theorem declare (h : store.Respects typing) (name : String) {ty : Ty} {value : Value}
    (hvalue : value.HasTy ty) : Respects (store.insert name value) (typing.insert name ty) := by
  intro other otherTy hother
  rw [Table.find?_insert] at hother ⊢
  split at hother
  · next heq =>
    cases hother
    rw [if_pos heq]
    exact ⟨value, rfl, hvalue⟩
  · next hne =>
    rw [if_neg hne]
    exact h other otherTy hother

/-- Names that are declared one after another, the later of two under one name in place of the
earlier. -/
theorem declareAll {values : List (String × Value)} {tys : List (String × Ty)}
    (hvalues : List.Forall₂ (fun value ty => value.1 = ty.1 ∧ value.2.HasTy ty.2) values tys)
    (h : store.Respects typing) : Respects (store.insertAll values) (typing.insertAll tys) := by
  induction hvalues generalizing store typing with
  | nil => exact h
  | @cons value ty values tys hvalue hrest ih =>
    obtain ⟨name, value⟩ := value
    obtain ⟨name', ty⟩ := ty
    obtain ⟨rfl, hhas⟩ := hvalue
    exact ih (h.declare name hhas)

end Store.Respects

/-! ### Assignments -/

/-- A typed place takes a value of its type.  The recursion goes from the cell to the root, and the
map that is written back is the value at the next level. -/
theorem Expr.safe_assign {typing : Typing} {store : Store} (hstore : store.Respects typing) :
    ∀ (lhs : Expr) {ty : Ty} {value : Value}, lhs.LiteralsFit → lhs.isAssignable →
      lhs.infer typing = .ok ty → value.HasTy ty →
        Safe (Store.Respects · typing) (lhs.assign store value)
  | .ident name, _, _, _, _, hty, hvalue =>
    Safe.ok (hstore.insert (infer_ident_eq_ok_iff.1 hty) hvalue)
  | .select base index, _, value, hfit, hplace, hty, hvalue => by
    rw [LiteralsFit] at hfit
    rw [isAssignable] at hplace
    obtain ⟨_, hbase, hindex⟩ := infer_select_eq_ok_iff.1 hty
    rw [assign]
    refine (safe_eval hstore index hfit.2 hindex).bind fun key hkey => ?_
    refine (safe_eval hstore base hfit.1 hbase).bind fun map hmap => ?_
    obtain ⟨m, rfl⟩ := hmap.exists_toValue
    exact safe_assign hstore base hfit.1 hplace hbase (TotalMap.set_hasTy hmap hkey hvalue)
  | .bool _, _, _, _, hplace, _, _ | .int _, _, _, _, hplace, _, _ | .bv _ _, _, _, _, hplace, _, _
  | .unary _ _, _, _, _, hplace, _, _ | .binary _ _ _, _, _, _, hplace, _, _
  | .ite _ _ _, _, _, _, hplace, _, _ | .update _ _ _, _, _, _, hplace, _, _
  | .tuple _, _, _, _, hplace, _, _ | .bvUnary _ _ _, _, _, _, hplace, _, _
  | .bvBinary _ _ _ _, _, _, _, hplace, _, _ | .extend _ _ _ _, _, _, _, hplace, _, _
  | .extract _ _ _, _, _, _, hplace, _, _ | .error, _, _, _, hplace, _, _ => nomatch hplace

/-! ### Statements -/

/-- Every outcome of a list ends in a store of a typing. -/
def Outcome.AllRespect (typing : Typing) (outcomes : List Outcome) : Prop :=
  ∀ outcome ∈ outcomes, outcome.store.Respects typing

namespace Outcome.AllRespect

variable {typing : Typing}

theorem nil : AllRespect typing [] := List.forall_mem_nil _

theorem singleton {outcome : Outcome} (h : outcome.store.Respects typing) :
    AllRespect typing [outcome] :=
  List.forall_mem_singleton.2 h

theorem normal {store : Store} (h : store.Respects typing) : AllRespect typing [.normal store] :=
  singleton h

theorem append {first second : List Outcome} (hfirst : AllRespect typing first)
    (hsecond : AllRespect typing second) : AllRespect typing (first ++ second) :=
  List.forall_mem_append.2 ⟨hfirst, hsecond⟩

end Outcome.AllRespect

/-- A step that keeps to a typing is taken safely from every outcome of a list. -/
theorem Outcome.safe_andThenAll {typing : Typing}
    {next : Store → Except EvalError (List Outcome)}
    (hnext : ∀ store : Store, store.Respects typing → Safe (AllRespect typing) (next store))
    {outcomes : List Outcome} (h : AllRespect typing outcomes) :
    Safe (AllRespect typing) (andThenAll next outcomes) := by
  induction outcomes with
  | nil => exact Safe.ok .nil
  | cons outcome rest ih =>
    obtain ⟨houtcome, hrest⟩ := List.forall_mem_cons.1 h
    have hfirst : Safe (AllRespect typing) (outcome.andThen next) := by
      cases outcome with
      | normal store => exact hnext store houtcome
      | failed store message => exact Safe.ok (.singleton houtcome)
    rw [andThenAll_cons]
    exact hfirst.bind fun first hfirst => (ih hrest).bind fun others hothers =>
      Safe.ok (hfirst.append hothers)

namespace Stmt

mutual

/-- Every bitvector literal of a statement fits its width. -/
def LiteralsFit : Stmt → Prop
  | .assign lhs rhs => lhs.LiteralsFit ∧ rhs.LiteralsFit
  | .assume condition => condition.LiteralsFit
  | .assert condition _ => condition.LiteralsFit
  | .comment _ => True
  | .branch none thenBlock elseBlock => AllLiteralsFit thenBlock ∧ ElseLiteralsFit elseBlock
  | .branch (some condition) thenBlock elseBlock =>
    condition.LiteralsFit ∧ AllLiteralsFit thenBlock ∧ ElseLiteralsFit elseBlock
  | .block body => AllLiteralsFit body

/-- Every bitvector literal of a block fits its width. -/
def AllLiteralsFit : List Stmt → Prop
  | [] => True
  | stmt :: rest => stmt.LiteralsFit ∧ AllLiteralsFit rest

/-- Every bitvector literal of a block that may be missing fits its width. -/
def ElseLiteralsFit : Option (List Stmt) → Prop
  | none => True
  | some body => AllLiteralsFit body

end

variable {typing : Typing} {store : Store}

/-- An assignment is accepted if its left side is a place of the type of its right side. -/
theorem check_assign_eq_ok_iff {lhs rhs : Expr} : (Stmt.assign lhs rhs).check typing = .ok () ↔
    lhs.isAssignable = true ∧ ∃ ty, lhs.infer typing = .ok ty ∧ rhs.infer typing = .ok ty := by
  rw [check]
  cases lhs.isAssignable with
  | false => simp [throw_eq_error]
  | true =>
    simp only [Bool.not_true, Bool.false_eq_true, if_false, bind_eq_ok_iff,
      TypedPlace.expect_eq_ok_iff, true_and]
    grind

theorem safe_exec_assign (hstore : store.Respects typing) {lhs rhs : Expr}
    (hfit : (Stmt.assign lhs rhs).LiteralsFit)
    (hcheck : (Stmt.assign lhs rhs).check typing = .ok ()) :
    Safe (Outcome.AllRespect typing) ((Stmt.assign lhs rhs).exec store) := by
  rw [LiteralsFit] at hfit
  obtain ⟨hplace, ty, hlhs, hrhs⟩ := check_assign_eq_ok_iff.1 hcheck
  rw [exec_assign]
  refine (Expr.safe_eval hstore rhs hfit.2 hrhs).bind fun value hvalue => ?_
  refine (Expr.safe_assign hstore lhs hfit.1 hplace hlhs hvalue).bind fun store' hstore' => ?_
  exact Safe.ok (.singleton hstore')

/-- A condition that has the type of truth values is decided. -/
theorem safe_decide (hstore : store.Respects typing) {condition : Expr}
    (hfit : condition.LiteralsFit) (hty : condition.infer typing = .ok .bool)
    {next : Bool → Except EvalError (List Outcome)}
    (hnext : ∀ decision, Safe (Outcome.AllRespect typing) (next decision)) :
    Safe (Outcome.AllRespect typing) (do next (← (← condition.eval store).asBool)) := by
  refine (Expr.safe_eval hstore condition hfit hty).bind fun value hvalue => ?_
  obtain ⟨decision, rfl⟩ := hvalue.exists_bool
  exact hnext decision

mutual

/-- A statement that is accepted keeps to the typing, unless an integer is divided by zero. -/
theorem safe_exec : ∀ (stmt : Stmt), stmt.LiteralsFit → stmt.check typing = .ok () →
    ∀ {store : Store}, store.Respects typing →
      Safe (Outcome.AllRespect typing) (stmt.exec store)
  | .assign lhs rhs, hfit, hcheck, store, hstore => safe_exec_assign hstore hfit hcheck
  | .assume condition, hfit, hcheck, store, hstore => by
    rw [LiteralsFit] at hfit
    simp only [check, bind_eq_ok_iff, TypedPlace.expect_eq_ok_iff] at hcheck
    obtain ⟨_, hty, rfl⟩ := hcheck
    rw [exec_assume]
    refine safe_decide hstore hfit hty fun decision => ?_
    cases decision
    · exact Safe.ok .nil
    · exact Safe.ok (.singleton hstore)
  | .assert condition attributes, hfit, hcheck, store, hstore => by
    rw [LiteralsFit] at hfit
    simp only [check, bind_eq_ok_iff, TypedPlace.expect_eq_ok_iff] at hcheck
    obtain ⟨_, hty, rfl⟩ := hcheck
    rw [exec_assert]
    refine safe_decide hstore hfit hty fun decision => ?_
    cases decision
    all_goals exact Safe.ok (.singleton hstore)
  | .comment text, _, _, store, hstore => by
    rw [exec_comment]
    exact Safe.ok (.singleton hstore)
  | .branch none thenBlock elseBlock, hfit, hcheck, store, hstore => by
    rw [LiteralsFit] at hfit
    rw [check] at hcheck
    rw [bind_eq_ok_iff] at hcheck
    obtain ⟨_, hthen, helse⟩ := hcheck
    rw [exec]
    refine (safe_execBlock thenBlock hfit.1 hthen (.normal hstore)).bind fun first hfirst => ?_
    exact (safe_execElse elseBlock hfit.2 helse hstore).bind fun second hsecond =>
      Safe.ok (hfirst.append hsecond)
  | .branch (some condition) thenBlock elseBlock, hfit, hcheck, store, hstore => by
    rw [LiteralsFit] at hfit
    simp only [check, bind_eq_ok_iff, TypedPlace.expect_eq_ok_iff] at hcheck
    obtain ⟨_, hty, _, rfl, _, hthen, helse⟩ := hcheck
    rw [exec]
    refine safe_decide hstore hfit.1 hty fun decision => ?_
    cases decision
    · exact safe_execElse elseBlock hfit.2.2 helse hstore
    · exact safe_execBlock thenBlock hfit.2.1 hthen (.normal hstore)
  | .block body, hfit, hcheck, store, hstore => by
    rw [LiteralsFit] at hfit
    rw [check] at hcheck
    rw [exec]
    exact safe_execBlock body hfit hcheck (.normal hstore)

theorem safe_execBlock : ∀ (body : List Stmt), AllLiteralsFit body →
    checkBlock typing body = .ok () → ∀ {outcomes : List Outcome},
      Outcome.AllRespect typing outcomes →
      Safe (Outcome.AllRespect typing) (execBlock outcomes body)
  | [], _, _, outcomes, houtcomes => by
    rw [execBlock_nil]
    exact Safe.ok houtcomes
  | stmt :: rest, hfit, hcheck, outcomes, houtcomes => by
    rw [AllLiteralsFit] at hfit
    rw [checkBlock, bind_eq_ok_iff] at hcheck
    obtain ⟨_, hstmt, hrest⟩ := hcheck
    rw [execBlock_cons]
    have hstep : Safe (Outcome.AllRespect typing)
        (Outcome.andThenAll (fun store => stmt.exec store) outcomes) :=
      Outcome.safe_andThenAll (fun _ hstore => safe_exec stmt hfit.1 hstmt hstore) houtcomes
    exact hstep.bind fun next hnext => safe_execBlock rest hfit.2 hrest hnext

theorem safe_execElse : ∀ (elseBlock : Option (List Stmt)), ElseLiteralsFit elseBlock →
    checkElse typing elseBlock = .ok () → ∀ {store : Store}, store.Respects typing →
      Safe (Outcome.AllRespect typing) (execElse store elseBlock)
  | none, _, _, store, hstore => by
    rw [execElse]
    exact Safe.ok (.singleton hstore)
  | some body, hfit, hcheck, store, hstore => by
    rw [ElseLiteralsFit] at hfit
    rw [checkElse] at hcheck
    rw [execElse]
    exact safe_execBlock body hfit hcheck (.normal hstore)

end

end Stmt

/-! ### Procedures -/

namespace Procedure

/-- A procedure that is accepted has a body that is accepted in its scope. -/
theorem checkBlock_of_check {p : Procedure} {globals : Typing} (h : p.check globals = .ok ()) :
    Stmt.checkBlock (p.scope globals) p.body = .ok () := by
  rw [check, bind_eq_ok_iff] at h
  obtain ⟨-, -, hbody⟩ := h
  cases hcheck : Stmt.checkBlock (p.scope globals) p.body with
  | ok u => rfl
  | error cause =>
    rw [hcheck] at hbody
    cases hbody

/-- The store that a body starts from respects the scope: parameters hold the arguments and results
hold the values of unassigned variables, entered in the order of their declarations. -/
theorem respects_scope (p : Procedure) {typing : Typing} {globals : Store}
    (hglobals : globals.Respects typing) {args : List Value}
    (hargs : List.Forall₂ (fun arg param => arg.HasTy param.ty) args p.params) :
    Store.Respects ((globals.insertAll ((p.params.map Binding.name).zip args)).insertAll
      (p.returns.map fun result => (result.name, .ofTy result.ty))) (p.scope typing) := by
  have hparams : List.Forall₂ (fun value ty => value.1 = ty.1 ∧ value.2.HasTy ty.2)
      ((p.params.map Binding.name).zip args) (p.params.map fun b => (b.name, b.ty)) := by
    generalize p.params = params at hargs
    induction hargs with
    | nil => exact .nil
    | cons harg _ ih => exact .cons ⟨rfl, harg⟩ ih
  have hreturns : List.Forall₂ (fun value ty => value.1 = ty.1 ∧ value.2.HasTy ty.2)
      (p.returns.map fun result => (result.name, Value.ofTy result.ty))
      (p.returns.map fun b => (b.name, b.ty)) := by
    rw [List.forall₂_map_left_iff, List.forall₂_map_right_iff, List.forall₂_same]
    exact fun result _ => ⟨rfl, Value.ofTy_hasTy result.ty⟩
  have hscope : p.scope typing = (typing.insertAll (p.params.map fun b => (b.name, b.ty))).insertAll
      (p.returns.map fun b => (b.name, b.ty)) := by
    rw [scope, List.map_append]
    exact List.foldl_append
  rw [hscope]
  exact (hglobals.declareAll hparams).declareAll hreturns

/-- A procedure that is accepted divides an integer by zero or has outcomes, and every outcome,
failed ones included, ends in a store of the scope of the procedure. -/
theorem check_sound (p : Procedure) (typing : Typing) (hfit : Stmt.AllLiteralsFit p.body)
    (hcheck : p.check typing = .ok ()) (globals : Store) (hglobals : globals.Respects typing)
    (args : List Value)
    (hargs : List.Forall₂ (fun arg param => arg.HasTy param.ty) args p.params) :
    p.run args globals = .error .divisionByZero ∨
      ∃ outcomes, p.run args globals = .ok outcomes ∧
        ∀ outcome ∈ outcomes, outcome.store.Respects (p.scope typing) := by
  have hbody := checkBlock_of_check hcheck
  have hstart := p.respects_scope hglobals hargs
  rw [run, if_neg (not_not.2 hargs.length_eq)]
  exact (Stmt.safe_execBlock p.body hfit hbody (.normal hstart)).symm

/-- A procedure writes the quotient `10 div 2` to a cell of a cell and then chooses whether it
reports success or asserts it.  Its parameter has the name of a global of another type. -/
theorem check_sound_quotient_to_cell :
    let cell : Expr := .select (.select (.ident "cells") (.ident "x")) (.bv 3 8)
    let p : Procedure :=
      { name := "share", params := [⟨"x", .int⟩], returns := [⟨"done", .bool⟩],
        modifies := ["cells"], attributes := [],
        body := [.assign cell (.binary .div (.int 10) (.ident "x")),
          .choice [.assign (.ident "done") (.bool true)] [.assert (.ident "done") []]] }
    let typing : Typing :=
      (Table.empty.insert "cells" (.map .int (.map (.bv 8) .int))).insert "x" .bool
    let globals : Store :=
      (Table.empty.insert "cells" (.map (.map (.int 0) []) [])).insert "x" (.bool true)
    let share : Value := .map (.map (.int 0) []) [(.int 2, .map (.int 0) [(.bv 3 8, .int 5)])]
    let shared : Store := (Table.empty.insert "cells" share).insert "x" (.int 2)
    let success : Store := shared.insert "done" (.bool true)
    let failure : Store := shared.insert "done" (.bool false)
    p.check typing = .ok () ∧
      p.run [.int 2] globals = .ok [.normal success, .failed failure none] ∧
      success.Respects (p.scope typing) ∧ failure.Respects (p.scope typing) := by
  intro cell p typing globals share shared success failure
  have hcheck : p.check typing = .ok () := rfl
  have hfit : Stmt.AllLiteralsFit p.body := by
    simp [p, cell, Stmt.choice, Stmt.AllLiteralsFit, Stmt.ElseLiteralsFit, Stmt.LiteralsFit,
      Expr.LiteralsFit]
    decide
  have hcells : (Value.map (.map (.int 0) []) []).HasTy (.map .int (.map (.bv 8) .int)) :=
    Value.ofTy_hasTy (.map .int (.map (.bv 8) .int))
  have hempty : Store.Respects Table.empty Table.empty := fun _ _ h => nomatch h
  have hglobals : globals.Respects typing :=
    (hempty.declare "cells" hcells).declare "x" (.bool true)
  have hrun : p.run [.int 2] globals = .ok [.normal success, .failed failure none] := rfl
  obtain hzero | ⟨outcomes, houtcomes, hrespects⟩ :=
    p.check_sound typing hfit hcheck globals hglobals [.int 2] (.cons (.int 2) .nil)
  · cases hrun.symm.trans hzero
  · obtain rfl := Except.ok.inj (hrun.symm.trans houtcomes)
    exact ⟨hcheck, hrun, hrespects _ List.mem_cons_self,
      hrespects _ (List.mem_cons_of_mem _ List.mem_cons_self)⟩

end Procedure

end SolidityEncoding
