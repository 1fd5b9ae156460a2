import Mathlib.Tactic.Choose
import SolidityEncoding.Proofs.Execution

/-!
# Composition of blocks

A block advances all outcomes together, statement by statement.  Where it has outcomes they are
those of its paths one by one: an outcome of the first part that is normal gives way to the outcomes
of the second part from its store, and a final one stays (`Stmt.run_path_by_path`).  The order in
which errors turn up is not kept, so all statements are about executions that have outcomes.

Nested blocks only group statements.  `Stmt.ungroup` takes all of them apart, inside branches too,
and the statements that are left have the same outcomes (`Stmt.run_ungroupAll`).  All statements at
any depth are `Stmt.nodes`.
-/

namespace SolidityEncoding

/-! ### Paths -/

namespace Outcome

/-- The outcomes that a path goes on to: those of its store, or itself if it is final. -/
def continued (ends : Store → List Outcome) : Outcome → List Outcome
  | .normal store => ends store
  | .failed store message => [.failed store message]

section Paths

variable {next first second : Store → Except EvalError (List Outcome)} {outcomes : List Outcome}

theorem andThen_eq_ok {ends : Store → List Outcome} {outcome : Outcome}
    (h : ∀ store, outcome = .normal store → next store = .ok (ends store)) :
    outcome.andThen next = .ok (outcome.continued ends) := by
  cases outcome with
  | normal store => exact h store rfl
  | failed store message => rfl

theorem andThenAll_eq_ok {ends : Store → List Outcome}
    (h : ∀ store, .normal store ∈ outcomes → next store = .ok (ends store)) :
    andThenAll next outcomes = .ok (outcomes.flatMap (continued ends)) := by
  induction outcomes with
  | nil => rfl
  | cons outcome rest ih =>
    have hfirst : outcome.andThen next = .ok (outcome.continued ends) :=
      andThen_eq_ok fun store hstore => h store (hstore ▸ List.mem_cons_self)
    have hrest := ih fun store hmem => h store (List.mem_cons_of_mem _ hmem)
    rw [andThenAll_cons, hfirst, hrest]
    rfl

theorem exists_of_andThenAll_eq_ok {result : List Outcome}
    (h : andThenAll next outcomes = .ok result) (store : Store)
    (hmem : .normal store ∈ outcomes) : ∃ ends, next store = .ok ends := by
  induction outcomes generalizing result with
  | nil => cases hmem
  | cons outcome rest ih =>
    rw [andThenAll_cons] at h
    obtain ⟨ends, hfirst, h⟩ := bind_eq_ok_iff.1 h
    obtain ⟨others, hrest, -⟩ := bind_eq_ok_iff.1 h
    cases hmem with
    | head => exact ⟨ends, hfirst⟩
    | tail _ hmem => exact ih hrest hmem

/-- Going on from all outcomes together has outcomes if and only if every path has, and then it has
those of the paths, in their order. -/
theorem andThenAll_eq_ok_iff {result : List Outcome} :
    andThenAll next outcomes = .ok result ↔
      ∃ ends, (∀ store, .normal store ∈ outcomes → next store = .ok (ends store)) ∧
        result = outcomes.flatMap (continued ends) := by
  constructor
  · intro h
    choose! ends hends using exists_of_andThenAll_eq_ok h
    rw [andThenAll_eq_ok hends] at h
    exact ⟨ends, hends, (Except.ok.inj h).symm⟩
  · rintro ⟨ends, hends, rfl⟩
    exact andThenAll_eq_ok hends

theorem andThenAll_congr {result : List Outcome}
    (h : ∀ store, .normal store ∈ outcomes →
      ∀ ends, first store = .ok ends ↔ second store = .ok ends) :
    andThenAll first outcomes = .ok result ↔ andThenAll second outcomes = .ok result := by
  rw [andThenAll_eq_ok_iff, andThenAll_eq_ok_iff]
  refine exists_congr fun ends => and_congr_left fun _ => ?_
  exact forall₂_congr fun store hmem => h store hmem (ends store)

theorem andThenAll_append_eq_ok_iff {others result : List Outcome} :
    andThenAll next (outcomes ++ others) = .ok result ↔
      ∃ ends, andThenAll next outcomes = .ok ends ∧
        ∃ ends', andThenAll next others = .ok ends' ∧ result = ends ++ ends' := by
  induction outcomes generalizing result with
  | nil => simp [andThenAll_nil, eq_comm]
  | cons outcome rest ih =>
    simp only [List.cons_append, andThenAll_cons, bind_eq_ok_iff, ih, pure_eq_ok, Except.ok.injEq]
    constructor
    · rintro ⟨first, hfirst, _, ⟨ends, hends, ends', hends', rfl⟩, rfl⟩
      exact ⟨_, ⟨first, hfirst, ends, hends, rfl⟩, ends', hends', List.append_assoc .. |>.symm⟩
    · rintro ⟨_, ⟨first, hfirst, ends, hends, rfl⟩, ends', hends', rfl⟩
      exact ⟨first, hfirst, _, ⟨ends, hends, ends', hends', rfl⟩, List.append_assoc .. |>.symm⟩

/-- Going on twice is going on with both steps at once. -/
theorem andThenAll_eq_ok_iff_exists
    (h : ∀ store ends, next store = .ok ends ↔
      ∃ middle, first store = .ok middle ∧ andThenAll second middle = .ok ends)
    {result : List Outcome} :
    andThenAll next outcomes = .ok result ↔
      ∃ middle, andThenAll first outcomes = .ok middle ∧ andThenAll second middle = .ok result := by
  induction outcomes generalizing result with
  | nil => simp [andThenAll_nil]
  | cons outcome rest ih =>
    have hpath : ∀ ends, outcome.andThen next = .ok ends ↔
        ∃ middle, outcome.andThen first = .ok middle ∧ andThenAll second middle = .ok ends := by
      intro ends
      cases outcome with
      | normal store => exact h store ends
      | failed store message =>
        have hfinal : andThenAll second [.failed store message] = .ok [.failed store message] := rfl
        simp [andThen, hfinal]
    simp only [andThenAll_cons, bind_eq_ok_iff, hpath, ih, pure_eq_ok, Except.ok.injEq]
    constructor
    · rintro ⟨ends, ⟨middle, hmiddle, hends⟩, ends', ⟨middle', hmiddle', hends'⟩, rfl⟩
      exact ⟨_, ⟨middle, hmiddle, middle', hmiddle', rfl⟩,
        andThenAll_append_eq_ok_iff.2 ⟨ends, hends, ends', hends', rfl⟩⟩
    · rintro ⟨_, ⟨middle, hmiddle, middle', hmiddle', rfl⟩, h⟩
      obtain ⟨ends, hends, ends', hends', rfl⟩ := andThenAll_append_eq_ok_iff.1 h
      exact ⟨ends, ⟨middle, hmiddle, hends⟩, ends', ⟨middle', hmiddle', hends'⟩, rfl⟩

end Paths

end Outcome

namespace Stmt

/-! ### Sequential composition -/

theorem run_nil (store : Store) : run [] store = .ok [.normal store] := rfl

theorem run_singleton (store : Store) (stmt : Stmt) : run [stmt] store = stmt.exec store := by
  rw [run_cons]
  cases stmt.exec store <;> rfl

/-- A block that is entered with several outcomes runs from each of them. -/
theorem execBlock_eq_ok_iff {outcomes result : List Outcome} (body : List Stmt) :
    execBlock outcomes body = .ok result ↔ Outcome.andThenAll (run body) outcomes = .ok result := by
  induction body generalizing outcomes result with
  | nil =>
    have hid : outcomes.map (Outcome.mapNormal id) = outcomes :=
      List.map_id'' Outcome.mapNormal_id outcomes
    have hstep : Outcome.andThenAll (run []) outcomes = .ok (outcomes.map (Outcome.mapNormal id)) :=
      Outcome.andThenAll_of_step run_nil outcomes
    rw [execBlock_nil, hstep, hid]
  | cons stmt rest ih =>
    have hrun : ∀ store ends, run (stmt :: rest) store = .ok ends ↔
        ∃ middle, stmt.exec store = .ok middle ∧
          Outcome.andThenAll (run rest) middle = .ok ends := by
      intro store ends
      simp only [run_cons, bind_eq_ok_iff, ih]
    rw [Outcome.andThenAll_eq_ok_iff_exists hrun, execBlock_cons]
    simp only [bind_eq_ok_iff, ih]

theorem run_append_eq_ok_iff {store : Store} {result : List Outcome} (first second : List Stmt) :
    run (first ++ second) store = .ok result ↔
      ∃ outcomes, run first store = .ok outcomes ∧
        Outcome.andThenAll (run second) outcomes = .ok result := by
  simp only [run_append, bind_eq_ok_iff, execBlock_eq_ok_iff]

/-! ### Parts -/

mutual

/-- A statement and all statements in it. -/
@[simp] def nodes : Stmt → List Stmt
  | .assign lhs rhs => [.assign lhs rhs]
  | .assume condition => [.assume condition]
  | .assert condition attributes => [.assert condition attributes]
  | .comment text => [.comment text]
  | .branch condition thenBlock elseBlock =>
    .branch condition thenBlock elseBlock :: (nodesOfBlock thenBlock ++ nodesOfElse elseBlock)
  | .block body => .block body :: nodesOfBlock body

/-- All statements in a block. -/
@[simp] def nodesOfBlock : List Stmt → List Stmt
  | [] => []
  | stmt :: rest => stmt.nodes ++ nodesOfBlock rest

/-- All statements in a block that may be missing. -/
@[simp] def nodesOfElse : Option (List Stmt) → List Stmt
  | none => []
  | some body => nodesOfBlock body

end

/-! ### Grouping -/

mutual

/-- The statements that a statement groups, or the statement itself if it is no block.  Blocks
inside of branches are taken apart as well. -/
def ungroup : Stmt → List Stmt
  | .block body => ungroupAll body
  | .branch condition thenBlock elseBlock =>
    [.branch condition (ungroupAll thenBlock) (ungroupElse elseBlock)]
  | .assign lhs rhs => [.assign lhs rhs]
  | .assume condition => [.assume condition]
  | .assert condition attributes => [.assert condition attributes]
  | .comment text => [.comment text]

/-- The statements that a list of statements groups. -/
def ungroupAll : List Stmt → List Stmt
  | [] => []
  | stmt :: rest => stmt.ungroup ++ ungroupAll rest

/-- The statements that a block groups, which may be missing. -/
def ungroupElse : Option (List Stmt) → Option (List Stmt)
  | none => none
  | some body => some (ungroupAll body)

end

theorem exec_branch_some (store : Store) (condition : Expr) (thenBlock : List Stmt)
    (elseBlock : Option (List Stmt)) :
    (Stmt.branch (some condition) thenBlock elseBlock).exec store = (do
      if ← (← condition.eval store).asBool then run thenBlock store
      else execElse store elseBlock) := rfl

theorem exec_branch_none (store : Store) (thenBlock : List Stmt)
    (elseBlock : Option (List Stmt)) :
    (Stmt.branch none thenBlock elseBlock).exec store = (do
      let first ← run thenBlock store
      return first ++ (← execElse store elseBlock)) := rfl

theorem exec_branch_congr {store : Store} {result : List Outcome} {condition : Option Expr}
    {thenBlock thenBlock' : List Stmt} {elseBlock elseBlock' : Option (List Stmt)}
    (hthen : ∀ ends, run thenBlock store = .ok ends ↔ run thenBlock' store = .ok ends)
    (helse : ∀ ends, execElse store elseBlock = .ok ends ↔ execElse store elseBlock' = .ok ends) :
    (Stmt.branch condition thenBlock elseBlock).exec store = .ok result ↔
      (Stmt.branch condition thenBlock' elseBlock').exec store = .ok result := by
  cases condition with
  | none => simp only [exec_branch_none, bind_eq_ok_iff, hthen, helse]
  | some condition =>
    simp only [exec_branch_some, bind_eq_ok_iff]
    refine exists_congr fun value => and_congr_right fun _ => exists_congr fun holds =>
      and_congr_right fun _ => ?_
    cases holds with
    | true => exact hthen result
    | false => exact helse result

mutual

theorem run_ungroup : ∀ (stmt : Stmt) (store : Store) (result : List Outcome),
    run stmt.ungroup store = .ok result ↔ stmt.exec store = .ok result
  | .block body, store, result => run_ungroupAll body store result
  | .branch condition thenBlock elseBlock, store, result => by
    rw [ungroup, run_singleton]
    exact exec_branch_congr (run_ungroupAll thenBlock store) (execElse_ungroupElse elseBlock store)
  | .assign _ _, _, _ | .assume _, _, _ | .assert _ _, _, _ | .comment _, _, _ => by
    rw [ungroup, run_singleton]

/-- Taking all nested blocks apart keeps the outcomes of a list of statements. -/
theorem run_ungroupAll : ∀ (body : List Stmt) (store : Store) (result : List Outcome),
    run (ungroupAll body) store = .ok result ↔ run body store = .ok result
  | [], _, _ => Iff.rfl
  | stmt :: rest, store, result => by
    rw [ungroupAll, run_append_eq_ok_iff, run_cons]
    simp only [bind_eq_ok_iff, execBlock_eq_ok_iff]
    refine exists_congr fun outcomes => and_congr (run_ungroup stmt store outcomes) ?_
    exact Outcome.andThenAll_congr fun store' _ => run_ungroupAll rest store'

theorem execElse_ungroupElse : ∀ (elseBlock : Option (List Stmt)) (store : Store)
    (result : List Outcome),
    execElse store (ungroupElse elseBlock) = .ok result ↔ execElse store elseBlock = .ok result
  | none, _, _ => Iff.rfl
  | some body, store, result => run_ungroupAll body store result

end

/-! ### Composition -/

/-- What follows a block only matters where the block ends normally. -/
theorem run_append_congr {store : Store} {first second second' : List Stmt}
    (h : ∀ outcomes store', run first store = .ok outcomes → .normal store' ∈ outcomes →
      ∀ ends, run second store' = .ok ends ↔ run second' store' = .ok ends)
    (result : List Outcome) :
    run (first ++ second) store = .ok result ↔ run (first ++ second') store = .ok result := by
  rw [run_append_eq_ok_iff, run_append_eq_ok_iff]
  refine exists_congr fun outcomes => and_congr_right fun hfirst => ?_
  exact Outcome.andThenAll_congr fun store' hmem => h outcomes store' hfirst hmem

/-- Nothing that follows a failed assertion or a failed assumption is executed. -/
theorem run_cons_of_false {store : Store} {condition : Expr}
    (h : condition.eval store = .ok (.bool false)) (rest : List Stmt) :
    (∀ attributes, run (.assert condition attributes :: rest) store =
      .ok [.failed store (Attribute.messageOf? attributes)]) ∧
    run (.assume condition :: rest) store = .ok [] := by
  constructor
  · intro attributes
    have hassert : run [.assert condition attributes] store =
        .ok [.failed store (Attribute.messageOf? attributes)] := by
      rw [run_singleton, exec_assert, h]
      rfl
    exact run_append_of_final hassert (List.forall_mem_singleton.2 rfl) rest
  · have hassume : run [.assume condition] store = .ok [] := by
      rw [run_singleton, exec_assume, h]
      rfl
    exact run_append_of_final hassume (List.forall_mem_nil _) rest

/-- Blocks are executed path by path.  Two blocks in a row have outcomes if and only if the first
has and the second has from every store in which the first ends normally.  They are the outcomes of
the first, with each normal one replaced in its place by those of the second from its store, and
each failed one kept.

So lists that group the same statements into blocks differently have the same outcomes, the second
block only matters in the stores in which the first ends normally, and nothing that follows a failed
assertion or a failed assumption is executed.  Where executions fail, the error that is reported may
depend on the grouping (`run_error_of_grouping`). -/
theorem run_path_by_path (first second : List Stmt) (store : Store) :
    ((∃ result, run (first ++ second) store = .ok result) ↔
      ∃ outcomes, run first store = .ok outcomes ∧
        ∀ store', .normal store' ∈ outcomes → ∃ ends, run second store' = .ok ends) ∧
    (∀ outcomes ends, run first store = .ok outcomes →
      (∀ store', .normal store' ∈ outcomes → run second store' = .ok (ends store')) →
      run (first ++ second) store = .ok (outcomes.flatMap (Outcome.continued ends))) ∧
    (∀ grouped, ungroupAll grouped = ungroupAll first →
      ∀ result, run grouped store = .ok result ↔ run first store = .ok result) ∧
    (∀ second', (∀ outcomes store', run first store = .ok outcomes → .normal store' ∈ outcomes →
        ∀ ends, run second store' = .ok ends ↔ run second' store' = .ok ends) →
      ∀ result,
        run (first ++ second) store = .ok result ↔ run (first ++ second') store = .ok result) ∧
    ∀ condition, condition.eval store = .ok (.bool false) →
      (∀ attributes, run (.assert condition attributes :: second) store =
        .ok [.failed store (Attribute.messageOf? attributes)]) ∧
      run (.assume condition :: second) store = .ok [] := by
  refine ⟨⟨?_, ?_⟩, ?_, ?_, fun _ => run_append_congr, fun _ h => run_cons_of_false h second⟩
  · rintro ⟨result, h⟩
    obtain ⟨outcomes, hfirst, hsecond⟩ := (run_append_eq_ok_iff first second).1 h
    exact ⟨outcomes, hfirst, Outcome.exists_of_andThenAll_eq_ok hsecond⟩
  · rintro ⟨outcomes, hfirst, hpaths⟩
    choose! ends hends using hpaths
    exact ⟨_, (run_append_eq_ok_iff first second).2
      ⟨outcomes, hfirst, Outcome.andThenAll_eq_ok hends⟩⟩
  · intro outcomes ends hfirst hends
    exact (run_append_eq_ok_iff first second).2
      ⟨outcomes, hfirst, Outcome.andThenAll_eq_ok hends⟩
  · intro grouped hgrouped result
    rw [← run_ungroupAll grouped, hgrouped, run_ungroupAll]

/-- After a choice between `x := 1` and `x := 2` the assertion `x = 1` holds on the first path only,
so the quotient `1 div (2 - x)` is not evaluated where its divisor is zero.  It makes no difference
whether the choice is a block of its own. -/
theorem run_path_by_path_failed_before_quotient :
    let x := Expr.ident "x"
    let choice : Stmt := .choice [.assign x (.int 1)] [.assign x (.int 2)]
    let assertion : Stmt := .assert (.binary .eq x (.int 1)) []
    let quotient : Stmt :=
      .assign (.ident "y") (.binary .div (.int 1) (.binary .sub (.int 2) x))
    let one := Table.empty.insert "x" (Value.int 1)
    let two := Table.empty.insert "x" (Value.int 2)
    run [choice, assertion, quotient] .empty =
        .ok [.normal (one.insert "y" (.int 1)), .failed two none] ∧
      run [.block [choice], assertion] .empty = .ok [.normal one, .failed two none] ∧
      run [assertion, quotient] two = .ok [.failed two none] ∧
      run [quotient] two = .error .divisionByZero := by
  intro x choice assertion quotient one two
  have hfirst : run [choice, assertion] .empty = .ok [.normal one, .failed two none] := rfl
  have hends : ∀ store', Outcome.normal store' ∈ [.normal one, .failed two none] →
      run [quotient] store' = .ok [.normal (store'.insert "y" (.int 1))] := by
    intro store' hmem
    cases hmem with
    | head => rfl
    | tail _ hmem => exact nomatch hmem
  obtain ⟨-, hcompose, hgroup, -⟩ := run_path_by_path [choice, assertion] [quotient] .empty
  obtain ⟨-, -, -, -, hfalse⟩ := run_path_by_path [] [quotient] two
  exact ⟨hcompose _ _ hfirst hends, (hgroup [.block [choice], assertion] rfl _).2 hfirst,
    (hfalse _ rfl).1 [], rfl⟩

/-- The sum fails on the second path only and the quotient on both.  As statements of their own the
sum is executed on both paths first; as a block they are executed on the first path first. -/
theorem run_error_of_grouping :
    let x := Expr.ident "x"
    let choice : Stmt := .choice [.assign x (.int 0)] [.assign x (.bool true)]
    let sum : Stmt := .assign (.ident "y") (.binary .add x (.int 1))
    let quotient : Stmt := .assign (.ident "z") (.binary .div (.int 1) x)
    ungroupAll [choice, .block [sum, quotient]] = ungroupAll [choice, sum, quotient] ∧
      run [choice, sum, quotient] .empty = .error (.mismatch .int (.bool true)) ∧
      run [choice, .block [sum, quotient]] .empty = .error .divisionByZero :=
  ⟨rfl, rfl, rfl⟩

end Stmt

end SolidityEncoding
