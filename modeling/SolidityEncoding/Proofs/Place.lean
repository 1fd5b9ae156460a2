import Mathlib.Data.List.Induction
import SolidityEncoding.Encoding.Place
import SolidityEncoding.Proofs.Evaluation
import SolidityEncoding.Proofs.Typing.Execution
import SolidityEncoding.Proofs.Value.Nested

/-!
# Writes through a read path

`Expr.writeThrough` works from the cell outwards and wraps the write to one level into a write to
the next.  Seen from the root, this is `Expr.rebuild` (`writeThrough_selectAll`), which follows the
indices.  A rebuilt root is a write along their keys (`eval_rebuild`), so a nested map changes at
the written cell and nowhere else (`read_writeThrough`).

An assignment to the cell does the same.  Moving the outermost index of the place into the assigned
value changes neither what is accepted nor what happens (`Stmt.Interchangeable.assign_select`), and
doing so at every level leads to the rewritten assignment (`Stmt.assign_writeThrough`).
-/

namespace SolidityEncoding

namespace Expr

/-! ### Read paths -/

/-- The read path that starts at a root and has the indices of a list. -/
def selectAll (root : Expr) (indices : List Expr) : Expr := indices.foldl .select root

theorem selectAll_cons (root index : Expr) (rest : List Expr) :
    root.selectAll (index :: rest) = (select root index).selectAll rest := rfl

theorem selectAll_concat (root : Expr) (indices : List Expr) (index : Expr) :
    root.selectAll (indices ++ [index]) = .select (root.selectAll indices) index :=
  List.foldl_concat select root index indices

/-- The map that differs from a root by holding `value` at the end of a read path. -/
def rebuild (root : Expr) (value : Expr) : List Expr → Expr
  | [] => value
  | index :: rest => .update root index ((select root index).rebuild value rest)

theorem rebuild_concat (root value : Expr) (indices : List Expr) (index : Expr) :
    root.rebuild value (indices ++ [index]) =
      root.rebuild (.update (root.selectAll indices) index value) indices := by
  induction indices generalizing root with
  | nil => rfl
  | cons first rest ih => rw [List.cons_append, rebuild, rebuild, ih, selectAll_cons]

theorem isSelect_selectAll_concat (root : Expr) (indices : List Expr) (index : Expr) :
    (root.selectAll (indices ++ [index])).isSelect = true := by
  rw [selectAll_concat, isSelect]

/-- Writing through a path from the cell outwards is rebuilding the root. -/
theorem writeThrough_selectAll {root : Expr} (hroot : root.isSelect = false)
    {indices : List Expr} (hne : indices ≠ []) (value : Expr) :
    (root.selectAll indices).writeThrough value = .ok (root.rebuild value indices) := by
  obtain ⟨outer, index, rfl⟩ := (List.eq_nil_or_concat' indices).resolve_left hne
  clear hne
  -- The recursion goes to the root and leaves the update of one more level behind at each step.
  induction outer using List.reverseRecOn generalizing index value with
  | nil =>
    rw [selectAll_concat, writeThrough, if_neg]
    · rfl
    · exact Bool.eq_false_iff.1 hroot
  | append_singleton outer last ih =>
    rw [selectAll_concat, writeThrough, if_pos (isSelect_selectAll_concat ..), ih,
      ← rebuild_concat]

/-! ### Values -/

variable {store : Store} {root value : Expr} {indices : List Expr} {m written : Value}
  {keys : List Value}

/-- A rebuilt root is a write along the keys of the indices. -/
theorem eval_rebuild (hroot : root.eval store = .ok m)
    (hindices : List.Forall₂ (fun index key => index.eval store = .ok key) indices keys)
    (hvalue : value.eval store = .ok written) :
    (root.rebuild value indices).eval store = m.write keys written := by
  induction hindices generalizing root m with
  | nil => exact hvalue
  | @cons index key rest keys hindex _ ih =>
    rw [rebuild, eval_update, hroot, ok_bind, Value.write_cons]
    cases hm : m.asMap with
    | error e => rfl
    | ok inner =>
      have hselect : (select root index).eval store = .ok (inner.get key) := by
        rw [eval_select, hroot, ok_bind, hindex, ok_bind, hm]
        rfl
      rw [ok_bind, hindex, ok_bind, ih hselect, ok_bind]

/-- A write through a read path changes one cell of a nested map.  The new map is read as the
written value along the written path, and as the old map along every other path of that length.
Shorter paths lead to the maps from before, apart from those on the way to the written cell.  The
indices may read the map themselves. -/
theorem read_writeThrough (hroot : root.isSelect = false) (hne : indices ≠ [])
    (hm : root.eval store = .ok m) (hnested : m.NestedMap indices.length)
    (hindices : List.Forall₂ (fun index key => index.eval store = .ok key) indices keys)
    (hvalue : value.eval store = .ok written) :
    ∃ e, (root.selectAll indices).writeThrough value = .ok e ∧
      ∃ m' : TotalMap, e.eval store = .ok m'.toValue ∧
        (∀ path : List Value, path.length = indices.length → ∃ old, m.read path = .ok old ∧
          m'.toValue.read path = .ok (if path = keys then written else old)) ∧
        ∀ path : List Value, path.length < indices.length → ¬ path <+: keys →
          ∃ inner : TotalMap, m.read path = .ok inner.toValue ∧
            m'.toValue.read path = .ok inner.toValue := by
  have heval := eval_rebuild hm hindices hvalue
  rw [hindices.length_eq] at hnested ⊢
  obtain ⟨value', hwrite⟩ := hnested.exists_write keys written
  have hkeys : keys ≠ [] := fun h => hne (List.forall₂_nil_right_iff.1 (h ▸ hindices))
  obtain ⟨m', rfl⟩ := Value.exists_toValue_of_write hkeys hwrite
  rw [hwrite] at heval
  exact ⟨_, writeThrough_selectAll hroot hne value, m', heval,
    fun _ hpath => hnested.exists_read_write hwrite hpath,
    fun _ hpath hparts => hnested.exists_read_write_of_lt hwrite hpath hparts⟩

/-- The write `m[m[0][0]][0] := 7` reads its first index from the map that it changes.  Row one gets
the seven; its cell one and all of row zero stay. -/
theorem read_writeThrough_row_from_map :
    let zero := Value.map (.int 0) []
    let row := Value.map (.int 0) [(.int 0, .int 1)]
    let store : Store := Table.empty.insert "m" (.map zero [(.int 0, row)])
    let index : Expr := .select (.select (.ident "m") (.int 0)) (.int 0)
    ∃ e, ((ident "m").selectAll [index, .int 0]).writeThrough (.int 7) = .ok e ∧
      ∃ m' : TotalMap, e.eval store = .ok m'.toValue ∧
        m'.toValue.read [.int 1, .int 0] = .ok (.int 7) ∧
        m'.toValue.read [.int 1, .int 1] = .ok (.int 0) ∧ m'.toValue.read [.int 0] = .ok row := by
  intro zero row store index
  have hrow : TotalMap.Canonical ⟨.int 0, [(.int 0, .int 1)]⟩ :=
    (TotalMap.canonical_const (.int 0)).set (.int 0) (.int 1)
  have hm : TotalMap.Canonical ⟨zero, [(.int 0, row)]⟩ :=
    (TotalMap.canonical_const zero).set (.int 0) row
  have hnested : Value.NestedMap 2 (.map zero [(.int 0, row)]) := by
    have hzero : Value.NestedMap 1 zero :=
      ⟨_, rfl, TotalMap.canonical_const (.int 0), trivial, nofun⟩
    refine ⟨_, rfl, hm, hzero, ?_⟩
    rintro entry hentry
    obtain rfl := List.mem_singleton.1 hentry
    exact ⟨_, rfl, hrow, trivial, fun _ _ => trivial⟩
  have hindices : List.Forall₂ (fun index key => Expr.eval store index = .ok key)
      [index, .int 0] [.int 1, .int 0] := .cons rfl (.cons rfl .nil)
  have hroot : (ident "m").isSelect = false := rfl
  obtain ⟨e, hwrite, m', heval, hcells, hrows⟩ :=
    read_writeThrough hroot (List.cons_ne_nil index [.int 0]) rfl hnested hindices
      (eval_int store 7)
  obtain ⟨_, -, hwritten⟩ := hcells [.int 1, .int 0] rfl
  obtain ⟨_, hold, hkept⟩ := hcells [.int 1, .int 1] rfl
  obtain ⟨inner, hinner, hsame⟩ := hrows [.int 0] (by decide) (by decide)
  cases hold
  refine ⟨e, hwrite, m', heval, hwritten, hkept, ?_⟩
  rw [hsame, ← hinner]
  rfl

end Expr

namespace Stmt

/-! ### Assignments -/

/-- Two statements are interchangeable: the same typings accept them, and where one has outcomes,
the other has the same.  Executions that fail may fail for different reasons. -/
structure Interchangeable (first second : Stmt) : Prop where
  check_iff : ∀ typing, first.check typing = .ok () ↔ second.check typing = .ok ()
  exec_iff : ∀ store outcomes, first.exec store = .ok outcomes ↔ second.exec store = .ok outcomes

namespace Interchangeable

theorem refl (stmt : Stmt) : Interchangeable stmt stmt := ⟨fun _ => Iff.rfl, fun _ _ => Iff.rfl⟩

theorem trans {first second third : Stmt} (h₁ : Interchangeable first second)
    (h₂ : Interchangeable second third) : Interchangeable first third where
  check_iff typing := (h₁.check_iff typing).trans (h₂.check_iff typing)
  exec_iff store outcomes := (h₁.exec_iff store outcomes).trans (h₂.exec_iff store outcomes)

/-- Assigning to a cell is assigning the updated map to the place of the map.  The parts are the
same, and only the order in which they are evaluated is not. -/
theorem assign_select (base index value : Expr) :
    Interchangeable (.assign (.select base index) value)
      (.assign base (.update base index value)) where
  check_iff typing := by
    rw [check_assign_eq_ok_iff, check_assign_eq_ok_iff, Expr.isAssignable]
    refine and_congr_right fun _ => ?_
    constructor
    · rintro ⟨ty, hcell, hvalue⟩
      obtain ⟨key, hbase, hindex⟩ := Expr.infer_select_eq_ok_iff.1 hcell
      exact ⟨_, hbase, Expr.infer_update_eq_ok_iff.2 ⟨key, ty, hbase, hindex, hvalue, rfl⟩⟩
    · rintro ⟨ty, -, hupdate⟩
      obtain ⟨key, elem, hbase, hindex, hvalue, -⟩ := Expr.infer_update_eq_ok_iff.1 hupdate
      exact ⟨elem, Expr.infer_select_eq_ok_iff.2 ⟨key, hbase, hindex⟩, hvalue⟩
  exec_iff store outcomes := by
    simp only [exec_assign, Expr.assign, Expr.eval_update, bind_eq_ok_iff, pure_eq_ok,
      Except.ok.injEq]
    constructor
    · rintro ⟨written, hvalue, store', ⟨key, hindex, b, hbase, m, hm, hassign⟩, rfl⟩
      exact ⟨_, ⟨b, hbase, m, hm, key, hindex, written, hvalue, rfl⟩, store', hassign, rfl⟩
    · rintro ⟨_, ⟨b, hbase, m, hm, key, hindex, written, hvalue, rfl⟩, store', hassign, rfl⟩
      exact ⟨written, hvalue, store', ⟨key, hindex, b, hbase, m, hm, hassign⟩, rfl⟩

/-- Level by level, assigning to a cell is assigning the rebuilt root. -/
theorem assign_selectAll (root value : Expr) (indices : List Expr) :
    Interchangeable (.assign (root.selectAll indices) value)
      (.assign root (root.rebuild value indices)) := by
  induction indices using List.reverseRecOn generalizing value with
  | nil => exact refl _
  | append_singleton indices index ih =>
    rw [Expr.selectAll_concat, Expr.rebuild_concat]
    exact (assign_select _ index value).trans (ih _)

end Interchangeable

/-- An assignment has no outcome but its store. -/
theorem eq_normal_of_exec_assign {store : Store} {lhs rhs : Expr} {outcomes : List Outcome}
    (h : (Stmt.assign lhs rhs).exec store = .ok outcomes) :
    ∃ store', outcomes = [.normal store'] := by
  simp only [exec_assign, bind_eq_ok_iff, pure_eq_ok, Except.ok.injEq] at h
  obtain ⟨_, -, store', -, rfl⟩ := h
  exact ⟨store', rfl⟩

/-- An assignment to a cell and the rewritten assignment to its variable are interchangeable.  The
same typings accept them; in every store one has outcomes if and only if the other has, and then it
is one outcome, the same for both.  The indices and the assigned expression are arbitrary. -/
theorem assign_writeThrough (name : String) {indices : List Expr} (hne : indices ≠ [])
    (value : Expr) :
    ∃ e, ((Expr.ident name).selectAll indices).writeThrough value = .ok e ∧
      (∀ typing, (Stmt.assign ((Expr.ident name).selectAll indices) value).check typing = .ok () ↔
        (Stmt.assign (.ident name) e).check typing = .ok ()) ∧
      ∀ store outcomes,
        ((Stmt.assign ((Expr.ident name).selectAll indices) value).exec store = .ok outcomes ↔
          (Stmt.assign (.ident name) e).exec store = .ok outcomes) ∧
        ((Stmt.assign (.ident name) e).exec store = .ok outcomes →
          ∃ store', outcomes = [.normal store']) := by
  have hswap := Interchangeable.assign_selectAll (.ident name) value indices
  exact ⟨_, Expr.writeThrough_selectAll rfl hne value, hswap.check_iff, fun store outcomes =>
    ⟨hswap.exec_iff store outcomes, eq_normal_of_exec_assign⟩⟩

/-- The assignment `m[m[0][0]][0] := 7` reads its first index from the map that it changes. -/
theorem assign_writeThrough_row_from_map :
    let index : Expr := .select (.select (.ident "m") (.int 0)) (.int 0)
    let typing : Typing := Table.empty.insert "m" (.map .int (.map .int .int))
    let store : Store := Table.empty.insert "m" (.ofTy (.map .int (.map .int .int)))
    ∃ e, ((Expr.ident "m").selectAll [index, .int 0]).writeThrough (.int 7) = .ok e ∧
      (Stmt.assign (.ident "m") e).check typing = .ok () ∧
      ∃ store', (Stmt.assign (.ident "m") e).exec store = .ok [.normal store'] := by
  intro index typing store
  obtain ⟨e, hwrite, hcheck, hexec⟩ :=
    assign_writeThrough "m" (List.cons_ne_nil index [.int 0]) (.int 7)
  exact ⟨e, hwrite, (hcheck typing).1 rfl, _, (hexec store _).1.1 rfl⟩
end Stmt

end SolidityEncoding
