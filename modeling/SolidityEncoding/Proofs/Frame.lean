import Mathlib.Logic.Relation
import SolidityEncoding.Proofs.Composition
import SolidityEncoding.Proofs.Place
import SolidityEncoding.Proofs.Value.WellFormed

/-!
# What an execution leaves alone

A block can change nothing but the variables at the roots of its left sides (`Stmt.roots`).  On
every path of an execution the store at the end comes from the store at the beginning by assignments
that occur in the block (`Stmt.reach_of_execBlock`), so it is enough to know what one assignment
does: it gives a variable a new value, which differs from the old one by a write along the keys of
the indices, all of them read before the assignment (`Stmt.exists_of_exec_assign`).  Where maps are
well formed, that is a change of one cell (`Stmt.run_frame`).
-/

namespace SolidityEncoding

/-! ### Places -/

namespace Expr

/-- The variable at the base of a chain of reads. -/
def root? : Expr → Option String
  | .ident name => some name
  | .select base _ => base.root?
  | _ => none

theorem root?_selectAll (root : Expr) (indices : List Expr) :
    (root.selectAll indices).root? = root.root? := by
  induction indices generalizing root with
  | nil => rfl
  | cons index rest ih => rw [selectAll_cons, ih, root?]

/-- A chain of reads that has a variable at its base is a read path. -/
theorem exists_selectAll_of_root? {name : String} :
    ∀ (lhs : Expr), lhs.root? = some name → ∃ indices, lhs = (ident name).selectAll indices
  | .ident other, h => by
    cases h
    exact ⟨[], rfl⟩
  | .select base index, h => by
    obtain ⟨indices, rfl⟩ := exists_selectAll_of_root? base h
    exact ⟨indices ++ [index], (selectAll_concat ..).symm⟩

/-- A read path has one variable at its base and one list of indices. -/
theorem selectAll_ident_inj {name name' : String} {indices indices' : List Expr} :
    (ident name).selectAll indices = (ident name').selectAll indices' ↔
      name = name' ∧ indices = indices' := by
  refine ⟨fun h => ?_, fun ⟨hname, hindices⟩ => by rw [hname, hindices]⟩
  have hroot := congrArg root? h
  rw [root?_selectAll, root?_selectAll] at hroot
  cases hroot
  refine ⟨rfl, ?_⟩
  induction indices using List.reverseRecOn generalizing indices' with
  | nil =>
    rcases List.eq_nil_or_concat' indices' with rfl | ⟨outer, index, rfl⟩
    · rfl
    · rw [selectAll_concat] at h
      cases h
  | append_singleton indices index ih =>
    rw [selectAll_concat] at h
    rcases List.eq_nil_or_concat' indices' with rfl | ⟨outer, last, rfl⟩
    · cases h
    · rw [selectAll_concat] at h
      injection h with hbase hindex
      rw [ih hbase, hindex]

variable {store store' : Store}

/-- Only chains of reads from a variable can be assigned to. -/
theorem exists_root?_of_assign :
    ∀ (lhs : Expr) {value : Value}, lhs.assign store value = .ok store' →
      ∃ name, lhs.root? = some name
  | .ident name, _, _ => ⟨name, rfl⟩
  | .select base index, _, h => by
    simp only [assign, bind_eq_ok_iff] at h
    obtain ⟨_, -, _, -, _, -, hbase⟩ := h
    exact exists_root?_of_assign base hbase

/-- A root can only be rebuilt if its indices have values. -/
theorem exists_of_eval_rebuild {root e : Expr} {indices : List Expr} {result : Value}
    (h : (root.rebuild e indices).eval store = .ok result) :
    ∃ keys written, List.Forall₂ (fun index key => index.eval store = .ok key) indices keys ∧
      e.eval store = .ok written ∧ (indices ≠ [] → ∃ m, root.eval store = .ok m) := by
  induction indices generalizing root result with
  | nil => exact ⟨[], result, .nil, h, fun hne => absurd rfl hne⟩
  | cons index rest ih =>
    simp only [rebuild, eval_update, bind_eq_ok_iff] at h
    obtain ⟨m, hroot, _, -, key, hindex, inner, hinner, -⟩ := h
    obtain ⟨keys, written, hkeys, hvalue, -⟩ := ih hinner
    exact ⟨key :: keys, written, .cons hindex hkeys, hvalue, fun _ => ⟨m, hroot⟩⟩

end Expr

/-! ### Cells -/

/-- A store differs from another in one variable, and there only at the cell that is at the end of
some keys.  Without keys the cell is the variable itself, which need not have had a value. -/
structure Store.ChangesCell (before after : Store) (name : String) (keys : List Value)
    (written : Value) : Prop where
  others : ∀ other, other ≠ name → after.find? other = before.find? other
  cell : ∃ value, after.find? name = some value ∧ value.read keys = .ok written
  bound : keys ≠ [] → ∃ old, before.find? name = some old
  /-- What is read along a path that parts from the keys is what was read before. -/
  elsewhere : ∀ old value, before.find? name = some old → after.find? name = some value →
    ∀ path : List Value, ¬ path <+: keys → ¬ keys <+: path → value.read path = old.read path

theorem Value.WellFormed.canonicalAlong {value written result : Value} {keys : List Value}
    (h : value.WellFormed) (hwrite : value.write keys written = .ok result) :
    value.CanonicalAlong keys := by
  induction keys generalizing value result with
  | nil => trivial
  | cons key keys ih =>
    simp only [write_cons, bind_eq_ok_iff] at hwrite
    obtain ⟨m, hm, inner, hinner, -⟩ := hwrite
    cases eq_toValue_of_asMap hm
    exact ⟨m, rfl, TotalMap.canonical_of_wellFormed h, ih (TotalMap.wellFormed_get h key) hinner⟩

theorem Store.WellFormed.insert {store : Store} {value : Value} (h : store.WellFormed)
    (name : String) (hvalue : value.WellFormed) : WellFormed (store.insert name value) := by
  intro other found hfound
  rw [Table.find?_insert] at hfound
  split at hfound
  · cases hfound
    exact hvalue
  · exact h other found hfound

/-- An assignment to a place of well-formed maps keeps them well formed. -/
theorem Expr.wellFormed_of_assign {store store' : Store} (hstore : store.WellFormed) :
    ∀ (lhs : Expr) {value : Value}, value.WellFormed → lhs.assign store value = .ok store' →
      store'.WellFormed
  | .ident name, _, hvalue, h => by
    cases h
    exact hstore.insert name hvalue
  | .select base index, value, hvalue, h => by
    simp only [assign, bind_eq_ok_iff] at h
    obtain ⟨key, hindex, b, hbase, m, hm, h⟩ := h
    cases Value.eq_toValue_of_asMap hm
    exact wellFormed_of_assign hstore base
      (TotalMap.wellFormed_set (wellFormed_of_eval hstore base hbase)
        (wellFormed_of_eval hstore index hindex) hvalue) h

/-! ### One assignment -/

namespace Stmt

variable {before after : Store} {lhs rhs : Expr} {outcomes : List Outcome}

/-- An assignment gives the variable at its root a new value, which is the old one written along the
keys of the indices. -/
theorem exists_of_exec_assign (h : (Stmt.assign lhs rhs).exec before = .ok outcomes) :
    ∃ name indices keys written value, lhs = (Expr.ident name).selectAll indices ∧
      List.Forall₂ (fun index key => index.eval before = .ok key) indices keys ∧
      rhs.eval before = .ok written ∧ outcomes = [.normal (before.insert name value)] ∧
      (keys = [] ∧ value = written ∨
        ∃ old, before.find? name = some old ∧ old.write keys written = .ok value) := by
  have hroot : ∃ name, lhs.root? = some name := by
    simp only [exec_assign, bind_eq_ok_iff] at h
    obtain ⟨_, -, store', hassign, -⟩ := h
    exact lhs.exists_root?_of_assign hassign
  obtain ⟨name, hname⟩ := hroot
  obtain ⟨indices, rfl⟩ := lhs.exists_selectAll_of_root? hname
  -- The assignment to the cell is the assignment of the rebuilt root.
  have hrebuilt := ((Interchangeable.assign_selectAll (.ident name) rhs indices).exec_iff
    before outcomes).1 h
  simp only [exec_assign, Expr.assign, bind_eq_ok_iff, pure_eq_ok, Except.ok.injEq] at hrebuilt
  obtain ⟨value, heval, _, rfl, rfl⟩ := hrebuilt
  obtain ⟨keys, written, hkeys, hwritten, hbound⟩ := Expr.exists_of_eval_rebuild heval
  refine ⟨name, indices, keys, written, value, rfl, hkeys, hwritten, rfl, ?_⟩
  cases hkeys with
  | nil => exact .inl ⟨rfl, Except.ok.inj (heval.symm.trans hwritten)⟩
  | cons hindex hrest =>
    obtain ⟨old, hold⟩ := hbound (List.cons_ne_nil _ _)
    rw [Expr.eval_rebuild hold (.cons hindex hrest) hwritten] at heval
    refine .inr ⟨old, ?_, heval⟩
    rw [Expr.eval_ident] at hold
    split at hold
    · next hfind =>
      cases hold
      exact hfind
    · cases hold

/-- An assignment in a store of well-formed values changes one cell. -/
theorem changesCell_of_exec_assign (hbefore : before.WellFormed)
    (h : (Stmt.assign lhs rhs).exec before = .ok outcomes) :
    ∃ name indices keys written after, lhs = (Expr.ident name).selectAll indices ∧
      List.Forall₂ (fun index key => index.eval before = .ok key) indices keys ∧
      rhs.eval before = .ok written ∧ outcomes = [.normal after] ∧
      before.ChangesCell after name keys written := by
  obtain ⟨name, indices, keys, written, value, hlhs, hkeys, hwritten, hafter, hvalue⟩ :=
    exists_of_exec_assign h
  refine ⟨name, indices, keys, written, _, hlhs, hkeys, hwritten, hafter, ?_⟩
  have hfind : (before.insert name value).find? name = some value :=
    Table.find?_insert_self before name value
  rcases hvalue with ⟨rfl, rfl⟩ | ⟨old, hold, hwrite⟩
  · exact {
      others := fun other hne => Table.find?_insert_of_ne before hne.symm value
      cell := ⟨value, hfind, Value.read_nil value⟩
      bound := fun hne => absurd rfl hne
      elsewhere := fun _ _ _ _ _ _ hkeys => absurd List.nil_prefix hkeys }
  · have hold' := (hbefore name old hold).canonicalAlong hwrite
    refine {
      others := fun other hne => Table.find?_insert_of_ne before hne.symm value
      cell := ⟨value, hfind, hold'.read_write_self hwrite⟩
      bound := fun _ => ⟨old, hold⟩
      elsewhere := fun old' value' hfind' hvalue' path hpath hkeys' => ?_ }
    cases hold.symm.trans hfind'
    cases hfind.symm.trans hvalue'
    exact hold'.read_write_of_parts hwrite hpath hkeys'

theorem wellFormed_of_exec_assign (hbefore : before.WellFormed)
    (h : (Stmt.assign lhs rhs).exec before = .ok [.normal after]) : after.WellFormed := by
  simp only [exec_assign, bind_eq_ok_iff, pure_eq_ok, Except.ok.injEq, List.cons.injEq, and_true,
    Outcome.normal.injEq] at h
  obtain ⟨written, hwritten, store', hassign, rfl⟩ := h
  exact Expr.wellFormed_of_assign hbefore lhs (Expr.wellFormed_of_eval hbefore rhs hwritten) hassign

/-! ### Runs -/

/-- The variable at the root of the left side of an assignment. -/
def root? : Stmt → Option String
  | .assign lhs _ => lhs.root?
  | _ => none

/-- The variables at the roots of the left sides of a block, in nested blocks and in both arms of
branches as well. -/
def roots (body : List Stmt) : List String := (nodesOfBlock body).filterMap root?

/-- One of the assignments in a list of statements takes a store to another. -/
def Assigns (nodes : List Stmt) (before after : Store) : Prop :=
  ∃ lhs rhs, .assign lhs rhs ∈ nodes ∧ (Stmt.assign lhs rhs).exec before = .ok [.normal after]

/-- The stores of all outcomes come from a store by assignments in a list of statements. -/
def Reach (nodes : List Stmt) (start : Store) (outcomes : List Outcome) : Prop :=
  ∀ outcome ∈ outcomes, Relation.ReflTransGen (Assigns nodes) start outcome.store

namespace Reach

variable {start : Store} {allowed : List Stmt}

theorem nil : Reach allowed start [] := List.forall_mem_nil _

theorem self {outcome : Outcome} : Reach allowed outcome.store [outcome] :=
  List.forall_mem_singleton.2 .refl

theorem append {first second : List Outcome} (hfirst : Reach allowed start first)
    (hsecond : Reach allowed start second) : Reach allowed start (first ++ second) :=
  List.forall_mem_append.2 ⟨hfirst, hsecond⟩

/-- Going on from stores that are reached. -/
theorem andThenAll {next : Store → Except EvalError (List Outcome)} {result : List Outcome}
    (hnext : ∀ store ends, next store = .ok ends → Reach allowed store ends)
    (h : Reach allowed start outcomes) (hresult : Outcome.andThenAll next outcomes = .ok result) :
    Reach allowed start result := by
  obtain ⟨ends, hends, rfl⟩ := Outcome.andThenAll_eq_ok_iff.1 hresult
  intro last hlast
  obtain ⟨outcome, hmem, hcontinued⟩ := List.mem_flatMap.1 hlast
  cases outcome with
  | normal store =>
    exact (h _ hmem).trans (hnext store _ (hends store hmem) last hcontinued)
  | failed store message =>
    cases List.mem_singleton.1 hcontinued
    exact h _ hmem

end Reach

/-- A condition leaves the store alone. -/
theorem reach_of_decide {condition : Expr} {store : Store} {allowed : List Stmt}
    {next : Bool → Except EvalError (List Outcome)}
    (hnext : ∀ holds ends, next holds = .ok ends → Reach allowed store ends)
    (h : (do next (← (← condition.eval store).asBool)) = Except.ok outcomes) :
    Reach allowed store outcomes := by
  simp only [bind_eq_ok_iff] at h
  obtain ⟨_, -, holds, -, h⟩ := h
  exact hnext holds outcomes h

mutual

/-- The stores at the end of a statement come from the store at its beginning by assignments that
occur in it. -/
theorem reach_of_exec {allowed : List Stmt} : ∀ (stmt : Stmt),
    (∀ node ∈ stmt.nodes, node ∈ allowed) → ∀ {store : Store} {outcomes : List Outcome},
      stmt.exec store = .ok outcomes → Reach allowed store outcomes
  | .assign lhs rhs, hallowed, store, outcomes, h => by
    obtain ⟨after, rfl⟩ := eq_normal_of_exec_assign h
    exact List.forall_mem_singleton.2 (.single ⟨lhs, rhs, hallowed _ List.mem_cons_self, h⟩)
  | .assume condition, _, store, outcomes, h => by
    refine reach_of_decide (fun holds ends hends => ?_) h
    cases holds
    all_goals cases hends
    · exact .nil
    · exact .self
  | .assert condition attributes, _, store, outcomes, h => by
    refine reach_of_decide (fun holds ends hends => ?_) h
    cases holds
    all_goals
      cases hends
      exact .self
  | .comment text, _, store, outcomes, h => by
    cases h
    exact .self
  | .branch none thenBlock elseBlock, hallowed, store, outcomes, h => by
    obtain ⟨hthen, helse⟩ := List.forall_mem_append.1 (List.forall_mem_cons.1 hallowed).2
    simp only [exec_branch_none, bind_eq_ok_iff, pure_eq_ok, Except.ok.injEq] at h
    obtain ⟨first, hfirst, second, hsecond, rfl⟩ := h
    exact (reach_of_execBlock thenBlock hthen .self hfirst).append
      (reach_of_execElse elseBlock helse hsecond)
  | .branch (some condition) thenBlock elseBlock, hallowed, store, outcomes, h => by
    obtain ⟨hthen, helse⟩ := List.forall_mem_append.1 (List.forall_mem_cons.1 hallowed).2
    rw [exec_branch_some] at h
    refine reach_of_decide (fun holds ends hends => ?_) h
    cases holds
    · exact reach_of_execElse elseBlock helse hends
    · exact reach_of_execBlock thenBlock hthen .self hends
  | .block body, hallowed, store, outcomes, h =>
    reach_of_execBlock body (List.forall_mem_cons.1 hallowed).2 .self h

theorem reach_of_execBlock {allowed : List Stmt} : ∀ (body : List Stmt),
    (∀ node ∈ nodesOfBlock body, node ∈ allowed) →
      ∀ {start : Store} {outcomes result : List Outcome}, Reach allowed start outcomes →
        execBlock outcomes body = .ok result → Reach allowed start result
  | [], _, start, outcomes, result, houtcomes, h => by
    cases h
    exact houtcomes
  | stmt :: rest, hallowed, start, outcomes, result, houtcomes, h => by
    obtain ⟨hstmt, hrest⟩ := List.forall_mem_append.1 hallowed
    rw [execBlock_cons, bind_eq_ok_iff] at h
    obtain ⟨next, hnext, h⟩ := h
    have hstep : Reach allowed start next :=
      houtcomes.andThenAll (fun _ _ => reach_of_exec stmt hstmt) hnext
    exact reach_of_execBlock rest hrest hstep h

theorem reach_of_execElse {allowed : List Stmt} : ∀ (elseBlock : Option (List Stmt)),
    (∀ node ∈ nodesOfElse elseBlock, node ∈ allowed) →
      ∀ {store : Store} {outcomes : List Outcome},
        execElse store elseBlock = .ok outcomes → Reach allowed store outcomes
  | none, _, store, outcomes, h => by
    cases h
    exact .self
  | some body, hallowed, store, outcomes, h => reach_of_execBlock body hallowed .self h

end

/-! ### Frames -/

/-- What is assigned is among the roots, and everything else stays. -/
theorem exists_root_of_assigns {body : List Stmt} {before after : Store}
    (h : Assigns (nodesOfBlock body) before after) :
    ∃ name ∈ roots body, ∃ value, after = before.insert name value := by
  obtain ⟨lhs, rhs, hmem, hexec⟩ := h
  obtain ⟨name, indices, -, -, value, rfl, -, -, hafter, -⟩ := exists_of_exec_assign hexec
  simp only [List.cons.injEq, and_true, Outcome.normal.injEq] at hafter
  exact ⟨name, List.mem_filterMap.2 ⟨_, hmem, Expr.root?_selectAll _ indices⟩, value, hafter⟩

/-- A run of assignments keeps the variables that are no roots, and loses none. -/
theorem frame_of_reflTransGen {body : List Stmt} {start last : Store}
    (h : Relation.ReflTransGen (Assigns (nodesOfBlock body)) start last) :
    (∀ name, name ∉ roots body → last.find? name = start.find? name) ∧
      ∀ name, start.contains name = true → last.contains name = true := by
  induction h with
  | refl => exact ⟨fun _ _ => rfl, fun _ hname => hname⟩
  | tail _ hstep ih =>
    obtain ⟨root, hroot, value, rfl⟩ := exists_root_of_assigns hstep
    constructor
    · intro name hname
      have hne : root ≠ name := by
        rintro rfl
        exact hname hroot
      rw [Table.find?_insert_of_ne _ hne, ih.1 name hname]
    · intro name hname
      rw [Table.contains, Table.find?_insert]
      split
      · rfl
      · exact ih.2 name hname

theorem wellFormed_of_assigns {allowed : List Stmt} {before after : Store}
    (hbefore : before.WellFormed) (h : Assigns allowed before after) : after.WellFormed := by
  obtain ⟨lhs, rhs, -, hexec⟩ := h
  exact wellFormed_of_exec_assign hbefore hexec

/-- A run of assignments from well-formed values passes through well-formed values only. -/
theorem wellFormed_of_reflTransGen {allowed : List Stmt} {start last : Store}
    (hstart : start.WellFormed) (h : Relation.ReflTransGen (Assigns allowed) start last) :
    last.WellFormed ∧ Relation.ReflTransGen
      (fun before after => before.WellFormed ∧ Assigns allowed before after) start last := by
  induction h with
  | refl => exact ⟨hstart, .refl⟩
  | tail _ hstep ih => exact ⟨wellFormed_of_assigns ih.1 hstep, ih.2.tail ⟨ih.1, hstep⟩⟩

/-- A block leaves alone what it does not assign.  In every outcome, failed ones included, a name
that is no root of the block is bound as before or unbound as before, and no bound name is lost.

The store of the outcome comes from the store at the beginning by assignments that occur in the
block, one after another.  If the maps at the beginning are well formed, they are so before each of
these assignments, and an assignment in a store of well-formed values changes one cell of the
variable at the root of its left side: the cell at the keys that its indices had before. -/
theorem run_frame (body : List Stmt) (store : Store) {outcomes : List Outcome}
    (h : run body store = .ok outcomes) {outcome : Outcome} (hmem : outcome ∈ outcomes) :
    (∀ name, name ∉ roots body → outcome.store.find? name = store.find? name) ∧
    (∀ name, store.contains name = true → outcome.store.contains name = true) ∧
    (store.WellFormed → Relation.ReflTransGen
      (fun before after => before.WellFormed ∧ Assigns (nodesOfBlock body) before after)
      store outcome.store) ∧
    ∀ (before : Store) (lhs rhs : Expr) (ends : List Outcome), before.WellFormed →
      (Stmt.assign lhs rhs).exec before = .ok ends →
      ∃ name indices keys written after, lhs = (Expr.ident name).selectAll indices ∧
        List.Forall₂ (fun index key => index.eval before = .ok key) indices keys ∧
        rhs.eval before = .ok written ∧ ends = [.normal after] ∧
        before.ChangesCell after name keys written := by
  have hreach : Relation.ReflTransGen (Assigns (nodesOfBlock body)) store outcome.store :=
    reach_of_execBlock body (fun _ hnode => hnode) .self h outcome hmem
  obtain ⟨hothers, hbound⟩ := frame_of_reflTransGen hreach
  exact ⟨hothers, hbound, fun hstore => (wellFormed_of_reflTransGen hstore hreach).2,
    fun _ _ _ _ => changesCell_of_exec_assign⟩

/-- The write `m[m[0]] := 7` finds its cell in the map that it changes, and on one of the two paths
behind it an assertion fails. -/
theorem run_frame_cell_from_map :
    let cell : Expr := .select (.ident "m") (.select (.ident "m") (.int 0))
    let body : List Stmt :=
      [.assign cell (.int 7), .choice [.assign (.ident "x") (.int 1)] [.assert (.bool false) []]]
    let store : Store :=
      (Table.empty.insert "m" (.map (.int 0) [(.int 0, .int 3)])).insert "y" (.bool true)
    let last : Store := store.insert "m" (.map (.int 0) [(.int 0, .int 3), (.int 3, .int 7)])
    run body store = .ok [.normal (last.insert "x" (.int 1)), .failed last none] ∧
      last.find? "y" = store.find? "y" ∧ last.contains "m" = true ∧ store.WellFormed ∧
      Relation.ReflTransGen
        (fun before after => before.WellFormed ∧ Assigns (nodesOfBlock body) before after)
        store last ∧
      store.ChangesCell last "m" [.int 3] (.int 7) := by
  intro cell body store last
  have hrun : run body store = .ok [.normal (last.insert "x" (.int 1)), .failed last none] := rfl
  have hm : Value.WellFormed (.map (.int 0) [(.int 0, .int 3)]) :=
    TotalMap.wellFormed_set (TotalMap.wellFormed_const (.int 0)) (.int 0) (.int 3)
  have hempty : Store.WellFormed Table.empty := fun _ _ h => nomatch h
  have hstore : store.WellFormed := (hempty.insert "m" hm).insert "y" (.bool true)
  obtain ⟨hothers, hbound, hreach, hcell⟩ :=
    run_frame body store hrun (List.mem_cons_of_mem _ (List.mem_singleton.2 rfl))
  have hy : "y" ∉ roots body := by decide
  obtain ⟨name, indices, keys, written, after, hlhs, hkeys, hwritten, hafter, hchange⟩ :=
    hcell store cell (.int 7) [.normal last] hstore rfl
  have hplace : cell = (Expr.ident "m").selectAll [.select (.ident "m") (.int 0)] := rfl
  obtain ⟨rfl, rfl⟩ := Expr.selectAll_ident_inj.1 (hplace.symm.trans hlhs)
  cases hkeys with
  | cons hindex hrest =>
    cases hindex
    cases hrest
    cases hwritten
    cases hafter
    exact ⟨hrun, hothers "y" hy, hbound "m" rfl, hstore, hreach hstore, hchange⟩

end Stmt

end SolidityEncoding
