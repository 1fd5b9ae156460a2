import SolidityEncoding.Exec
import SolidityEncoding.Proofs.Fallible

/-!
# Execution of blocks

The cases of execution as equations, and then the outcomes of a statement from the values of its
expressions.  A block hands the outcomes of one statement on to the next; outcomes that are final
pass through it unchanged (`Stmt.execBlock_of_final`).
-/

namespace SolidityEncoding

namespace Outcome

variable {next : Store → Except EvalError (List Outcome)}

theorem andThenAll_nil : andThenAll next [] = .ok [] := rfl

theorem andThenAll_cons (outcome : Outcome) (rest : List Outcome) :
    andThenAll next (outcome :: rest) = (do
      let first ← outcome.andThen next
      return first ++ (← andThenAll next rest)) := rfl

theorem andThenAll_normal (store : Store) : andThenAll next [.normal store] = next store := by
  rw [andThenAll_cons, andThenAll_nil]
  show (next store >>= fun first => Except.ok (first ++ [])) = next store
  cases next store <;> simp

theorem andThenAll_of_final {outcomes : List Outcome}
    (h : ∀ outcome ∈ outcomes, outcome.isFailure = true) :
    andThenAll next outcomes = .ok outcomes := by
  induction outcomes with
  | nil => rfl
  | cons outcome rest ih =>
    cases outcome with
    | normal store => exact nomatch h (.normal store) List.mem_cons_self
    | failed store message =>
      rw [andThenAll_cons, ih fun outcome hmem => h outcome (List.mem_cons_of_mem _ hmem)]
      rfl

/-- The outcome with another store at the end, unless it is final. -/
def mapNormal (f : Store → Store) : Outcome → Outcome
  | .normal store => .normal (f store)
  | .failed store message => .failed store message

theorem mapNormal_id (outcome : Outcome) : outcome.mapNormal id = outcome := by
  cases outcome <;> rfl

/-- Going on with a step that always ends normally. -/
theorem andThenAll_of_step {f : Store → Store} (h : ∀ store, next store = .ok [.normal (f store)])
    (outcomes : List Outcome) : andThenAll next outcomes = .ok (outcomes.map (mapNormal f)) := by
  induction outcomes with
  | nil => rfl
  | cons outcome rest ih =>
    rw [andThenAll_cons, ih]
    cases outcome with
    | normal store =>
      rw [andThen, h]
      rfl
    | failed store message => rfl

end Outcome

namespace Stmt

variable {store : Store}

/-! ### The cases of execution -/

theorem exec_assign (store : Store) (lhs rhs : Expr) :
    (Stmt.assign lhs rhs).exec store = (do
      let value ← rhs.eval store
      return [.normal (← lhs.assign store value)]) := rfl

theorem exec_assume (store : Store) (condition : Expr) :
    (Stmt.assume condition).exec store = (do
      if ← (← condition.eval store).asBool then return [.normal store] else return []) := rfl

theorem exec_assert (store : Store) (condition : Expr) (attributes : List Attribute) :
    (Stmt.assert condition attributes).exec store = (do
      if ← (← condition.eval store).asBool then return [.normal store]
      else return [.failed store (Attribute.messageOf? attributes)]) := rfl

theorem exec_comment (store : Store) (text : String) :
    (Stmt.comment text).exec store = .ok [.normal store] := rfl

theorem exec_choice (store : Store) (first second : List Stmt) :
    (Stmt.choice first second).exec store = (do
      let outcomes ← run first store
      return outcomes ++ (← run second store)) := rfl

theorem execBlock_nil (outcomes : List Outcome) : execBlock outcomes [] = .ok outcomes := rfl

theorem execBlock_cons (outcomes : List Outcome) (stmt : Stmt) (rest : List Stmt) :
    execBlock outcomes (stmt :: rest) = (do
      let next ← Outcome.andThenAll (fun store => stmt.exec store) outcomes
      execBlock next rest) := rfl

/-! ### Blocks -/

theorem execBlock_append (outcomes : List Outcome) (first second : List Stmt) :
    execBlock outcomes (first ++ second) = (do
      let next ← execBlock outcomes first
      execBlock next second) := by
  induction first generalizing outcomes with
  | nil => rfl
  | cons stmt rest ih =>
    rw [List.cons_append, execBlock_cons, execBlock_cons]
    cases Outcome.andThenAll (fun store => stmt.exec store) outcomes with
    | error e => rfl
    | ok next => exact ih next

theorem execBlock_of_final {outcomes : List Outcome}
    (h : ∀ outcome ∈ outcomes, outcome.isFailure = true) (body : List Stmt) :
    execBlock outcomes body = .ok outcomes := by
  induction body with
  | nil => rfl
  | cons stmt rest ih => rw [execBlock_cons, Outcome.andThenAll_of_final h, ok_bind, ih]

theorem execBlock_of_none (body : List Stmt) : execBlock [] body = .ok [] :=
  execBlock_of_final (List.forall_mem_nil _) body

theorem run_cons (store : Store) (stmt : Stmt) (rest : List Stmt) :
    run (stmt :: rest) store = (do execBlock (← stmt.exec store) rest) := by
  rw [run, execBlock_cons, Outcome.andThenAll_normal]

theorem run_append (store : Store) (first second : List Stmt) :
    run (first ++ second) store = (do execBlock (← run first store) second) :=
  execBlock_append _ first second

theorem run_append_of_normal {store' : Store} {first : List Stmt}
    (h : run first store = .ok [.normal store']) (second : List Stmt) :
    run (first ++ second) store = run second store' := by
  rw [run_append, h]
  rfl

theorem run_append_of_final {outcomes : List Outcome} {first : List Stmt}
    (h : run first store = .ok outcomes) (hfinal : ∀ outcome ∈ outcomes, outcome.isFailure = true)
    (second : List Stmt) : run (first ++ second) store = .ok outcomes := by
  rw [run_append, h]
  exact execBlock_of_final hfinal second

/-- A last statement that always ends normally only changes the stores of the outcomes. -/
theorem run_append_of_step {f : Store → Store} {outcomes : List Outcome} {first : List Stmt}
    {stmt : Stmt} (h : run first store = .ok outcomes)
    (hstmt : ∀ store, stmt.exec store = .ok [.normal (f store)]) :
    run (first ++ [stmt]) store = .ok (outcomes.map (Outcome.mapNormal f)) := by
  rw [run_append, h, ok_bind, execBlock_cons, Outcome.andThenAll_of_step hstmt]
  rfl

/-! ### Outcomes from values -/

theorem exec_assume_of_bool {condition : Expr} {c : Prop} [Decidable c]
    (h : condition.eval store = .ok (.bool (decide c))) :
    (Stmt.assume condition).exec store = .ok (if c then [.normal store] else []) := by
  rw [exec_assume, h]
  by_cases hc : c <;> simp [Value.asBool, hc]

theorem exec_assert_of_bool {condition : Expr} {attributes : List Attribute} {c : Prop}
    [Decidable c] (h : condition.eval store = .ok (.bool (decide c))) :
    (Stmt.assert condition attributes).exec store =
      .ok [if c then .normal store else .failed store (Attribute.messageOf? attributes)] := by
  rw [exec_assert, h]
  by_cases hc : c <;> simp [Value.asBool, hc]

theorem exec_assign_ident {name : String} {rhs : Expr} {value : Value}
    (h : rhs.eval store = .ok value) :
    (Stmt.assign (.ident name) rhs).exec store = .ok [.normal (store.insert name value)] := by
  rw [exec_assign, h]
  rfl

end Stmt

end SolidityEncoding
