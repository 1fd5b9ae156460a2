import SolidityEncoding.Proofs.Functions.Registry
import SolidityEncoding.Proofs.Transfer.Procedures

/-!
# Programs of declared functions

The transfer procedures can be generated in any session.  All bitvector functions that they apply
are declared then (`Transfer.registers_all`), and since no function has a reserved name, the first
declarations of a program, the functions of the session and the procedures make up a program
together, in this order (`Session.Registered.exists_program`).
-/

namespace SolidityEncoding

open Session

/-! ### Statements -/

namespace Stmt

mutual

/-- All expressions of a statement. -/
def exprs : Stmt → List Expr
  | .assign lhs rhs => [lhs, rhs]
  | .assume condition => [condition]
  | .assert condition _ => [condition]
  | .comment _ => []
  | .branch condition thenBlock elseBlock =>
    condition.toList ++ exprsOfBlock thenBlock ++ exprsOfElse elseBlock
  | .block body => exprsOfBlock body

/-- All expressions of a block. -/
def exprsOfBlock : List Stmt → List Expr
  | [] => []
  | stmt :: rest => stmt.exprs ++ exprsOfBlock rest

/-- All expressions of the second block of a branch, if there is one. -/
def exprsOfElse : Option (List Stmt) → List Expr
  | none => []
  | some body => exprsOfBlock body

end

end Stmt

namespace Session

variable {s s' : Session}

/-- All functions that are applied in a statement are declared. -/
def CoversStmt (s : Session) (stmt : Stmt) : Prop := ∀ e ∈ stmt.exprs, s.Covers e

/-- All functions that are applied in a block are declared. -/
def CoversBlock (s : Session) (block : List Stmt) : Prop :=
  ∀ e ∈ Stmt.exprsOfBlock block, s.Covers e

theorem Grows.coversStmt (h : s.Grows s') {stmt : Stmt} (hstmt : s.CoversStmt stmt) :
    s'.CoversStmt stmt := fun e he => h.covers (hstmt e he)

theorem Grows.coversBlock (h : s.Grows s') {block : List Stmt} (hblock : s.CoversBlock block) :
    s'.CoversBlock block := fun e he => h.covers (hblock e he)

@[simp] theorem coversBlock_nil (s : Session) : s.CoversBlock [] := nofun

@[simp] theorem coversBlock_cons {stmt : Stmt} {rest : List Stmt} :
    s.CoversBlock (stmt :: rest) ↔ s.CoversStmt stmt ∧ s.CoversBlock rest :=
  List.forall_mem_append

@[simp] theorem coversBlock_append {first second : List Stmt} :
    s.CoversBlock (first ++ second) ↔ s.CoversBlock first ∧ s.CoversBlock second := by
  induction first with
  | nil => exact ⟨fun h => ⟨coversBlock_nil s, h⟩, And.right⟩
  | cons stmt rest ih => rw [List.cons_append, coversBlock_cons, coversBlock_cons, ih, and_assoc]

@[simp] theorem coversStmt_assign {lhs rhs : Expr} :
    s.CoversStmt (.assign lhs rhs) ↔ s.Covers lhs ∧ s.Covers rhs := by
  simp [CoversStmt, Stmt.exprs]

@[simp] theorem coversStmt_assume {condition : Expr} :
    s.CoversStmt (.assume condition) ↔ s.Covers condition := List.forall_mem_singleton

@[simp] theorem coversStmt_assert {condition : Expr} {attributes : List Attribute} :
    s.CoversStmt (.assert condition attributes) ↔ s.Covers condition := List.forall_mem_singleton

@[simp] theorem coversStmt_comment (s : Session) (text : String) : s.CoversStmt (.comment text) :=
  nofun

@[simp] theorem coversStmt_choice {first second : List Stmt} :
    s.CoversStmt (.choice first second) ↔ s.CoversBlock first ∧ s.CoversBlock second :=
  List.forall_mem_append

/-- An operation that looks at the session goes on with it. -/
theorem Registers.withSession {β : Type} {R : Session → β → Prop} {next : Session → Encode β}
    (h : s.Registers (next s) R) : s.Registers (get >>= next) R :=
  ⟨h.registered, h.grows, h.result⟩

end Session

/-! ### Transfer procedures -/

theorem appliesOnly_rangeConstraint {P : BvFunction → Prop} {e : Expr} (h : e.AppliesOnly P)
    (type : SourceType) : (rangeConstraint e type).AppliesOnly P := by
  cases type <;> simp [rangeConstraint, SourceType.shape?, between, h]

namespace Transfer

variable {s : Session} (hs : s.Registered)

section Statements

variable {account amount : Expr}

theorem covers_balanceOf (haccount : s.Covers account) : s.Covers (balanceOf account) :=
  Expr.appliesOnly_select.2 ⟨Expr.appliesOnly_ident _, haccount⟩

theorem coversBlock_assumeRange (encoding : Encoding) (haccount : s.Covers account)
    (hamount : s.Covers amount) : s.CoversBlock (assumeRange encoding account amount) := by
  cases encoding with
  | mathematical | bitvector => exact coversBlock_nil s
  | modular =>
    rw [assumeRange, coversBlock_cons, coversBlock_cons, coversStmt_assume, coversStmt_assume]
    exact ⟨appliesOnly_rangeConstraint (covers_balanceOf haccount) _,
      appliesOnly_rangeConstraint hamount _, coversBlock_nil s⟩

theorem coversBlock_assertExact (checkOverflow : Bool) (op : SourceBinaryOp)
    {condition : Option Expr} (h : ∀ e, condition = some e → s.Covers e) :
    s.CoversBlock (assertExact checkOverflow op condition) := by
  cases condition with
  | none => exact coversBlock_nil s
  | some e =>
    rw [assertExact]
    split
    · simp [h e rfl]
    · exact coversBlock_nil s

include hs

theorem registers_assumeFunds (haccount : s.Covers account) (hamount : s.Covers amount) :
    s.Registers (assumeFunds account amount) CoversStmt := by
  have henough := SourceBinaryOp.registers_encode hs .gte uint256 none
    (covers_balanceOf haccount) hamount
  exact henough.bind fun enough s' hs' _ h => .pure hs' (coversStmt_assume.2 h.value)

theorem registers_updateBalance (op : SourceBinaryOp) (haccount : s.Covers account)
    (hamount : s.Covers amount) :
    s.Registers (updateBalance account amount op) CoversBlock := by
  have hupdated := SourceBinaryOp.registers_encode hs op uint256 none
    (covers_balanceOf haccount) hamount
  refine .withSession (hupdated.bind fun updated s' hs' hgrows h => .pure hs' ?_)
  have haccount := hgrows.covers haccount
  have hbalance : s'.Covers (.ident Reserved.balance) := Expr.appliesOnly_ident _
  rw [coversBlock_append, coversBlock_append, coversBlock_cons, coversStmt_assign]
  exact ⟨⟨coversBlock_assumeRange _ haccount (hgrows.covers hamount),
    coversBlock_assertExact _ op h.condition⟩,
    ⟨hbalance, Expr.appliesOnly_update.2 ⟨hbalance, haccount, h.value⟩⟩, coversBlock_nil s'⟩

theorem registers_moveFunds (hamount : s.Covers amount) :
    s.Registers (moveFunds amount) CoversBlock := by
  have hcredit := registers_updateBalance hs .add (Expr.appliesOnly_ident Reserved.this) hamount
  refine hcredit.bind fun credit s₁ hs₁ hgrows₁ hcredit => ?_
  have hdebit := registers_updateBalance hs₁ .sub (Expr.appliesOnly_ident Reserved.msgSender)
    (hgrows₁.covers hamount)
  exact hdebit.bind fun debit s₂ hs₂ hgrows₂ hdebit =>
    .pure hs₂ (coversBlock_append.2 ⟨hgrows₂.coversBlock hcredit, hdebit⟩)

end Statements

theorem coversStmt_setResult (s : Session) (success : Bool) : s.CoversStmt (setResult success) := by
  simp [setResult, Covers]

/-- A procedure has a name, and all functions that it applies are declared. -/
structure IsDeclared (name : String) (s : Session) (p : Procedure) : Prop where
  name_eq : p.name = name
  covers : s.CoversBlock p.body

theorem IsDeclared.grows {s s' : Session} {name : String} {p : Procedure} (h : IsDeclared name s p)
    (hgrows : s.Grows s') : IsDeclared name s' p := ⟨h.name_eq, hgrows.coversBlock h.covers⟩

include hs

theorem registers_transfer : s.Registers transfer (IsDeclared Reserved.transfer) := by
  refine .withEncoding ?_
  have hfunds := registers_assumeFunds hs (Expr.appliesOnly_ident Reserved.msgSender)
    (Expr.appliesOnly_ident Reserved.amount)
  refine hfunds.bind fun funds s₁ hs₁ _ hfunds => ?_
  have hmove := registers_moveFunds hs₁ (Expr.appliesOnly_ident Reserved.amount)
  refine hmove.bind fun move s₂ hs₂ hgrows₂ hmove => .pure hs₂ ⟨rfl, ?_⟩
  simp [procedure, receiverComment, hgrows₂.coversStmt hfunds, hmove]

theorem registers_send : s.Registers send (IsDeclared Reserved.send) := by
  refine .withEncoding ?_
  have hmove := registers_moveFunds hs (Expr.appliesOnly_ident Reserved.amount)
  refine hmove.bind fun move s₁ hs₁ _ hmove => ?_
  have hfunds := registers_assumeFunds hs₁ (Expr.appliesOnly_ident Reserved.msgSender)
    (Expr.appliesOnly_ident Reserved.amount)
  refine hfunds.bind fun funds s₂ hs₂ hgrows₂ hfunds => .pure hs₂ ⟨rfl, ?_⟩
  simp [procedure, receiverComment, hgrows₂.coversBlock hmove, hfunds, coversStmt_setResult]

theorem registers_call : s.Registers call (IsDeclared Reserved.call) := by
  refine .withEncoding ?_
  have hcredit := registers_updateBalance hs .add (Expr.appliesOnly_ident Reserved.this)
    (Expr.appliesOnly_ident Reserved.msgValue)
  refine hcredit.bind fun credit s₁ hs₁ _ hcredit => .pure hs₁ ⟨rfl, ?_⟩
  simp [procedure, hcredit, coversStmt_setResult]

/-- The transfer procedures of any session only apply declared functions. -/
theorem registers_all : s.Registers all fun s' procedures =>
    procedures.map Procedure.name = [Reserved.transfer, Reserved.send, Reserved.call] ∧
      ∀ p ∈ procedures, s'.CoversBlock p.body := by
  refine (registers_transfer hs).bind fun transfer s₁ hs₁ _ htransfer => ?_
  refine (registers_send hs₁).bind fun send s₂ hs₂ hgrows₂ hsend => ?_
  refine (registers_call hs₂).bind fun call s₃ hs₃ hgrows₃ hcall => .pure hs₃ ?_
  have htransfer := htransfer.grows (hgrows₂.trans hgrows₃)
  have hsend := hsend.grows hgrows₃
  simp [htransfer.name_eq, hsend.name_eq, hcall.name_eq, htransfer.covers, hsend.covers,
    hcall.covers]

end Transfer

/-! ### Programs -/

/-- Added declarations come last, in order. -/
theorem Program.entries_addAll {program program' : Program} {decls : List Decl}
    (h : program.addAll decls = .ok program') :
    program'.decls.entries =
      program.decls.entries ++ decls.map fun decl => (decl.name, decl) := by
  induction decls generalizing program with
  | nil =>
    cases h
    exact (List.append_nil _).symm
  | cons decl rest ih =>
    rw [addAll, List.foldlM_cons, bind_eq_ok_iff] at h
    obtain ⟨added, hadd, hrest⟩ := h
    rw [add] at hadd
    split at hadd
    · cases hadd
    · next hnew =>
      cases hadd
      rw [ih hrest, Table.entries_insert_of_not_contains hnew, List.append_assoc, List.map_cons]
      rfl

/-- Declarations of pairwise different names make up a program, in order. -/
theorem Program.exists_addAll_empty {decls : List Decl} (h : (decls.map Decl.name).Nodup) :
    ∃ program, Program.empty.addAll decls = .ok program ∧ program.decls.values = decls := by
  have hfresh : ∀ decl ∈ decls, Program.empty.find? decl.name = none := fun _ _ => rfl
  obtain ⟨program, hadd, -⟩ := exists_addAll h hfresh
  refine ⟨program, hadd, ?_⟩
  rw [Table.values, entries_addAll hadd, empty, Table.empty, List.nil_append, List.map_map]
  exact List.map_id _

namespace Session.Registered

variable {s : Session} (hs : s.Registered)

include hs

/-- Every declaration has the name under which it is entered. -/
theorem name_eq_of_mem {entry : String × FuncDecl} (h : entry ∈ s.builtins.entries) :
    entry.2.name = entry.1 := by
  obtain ⟨f, hf, hname⟩ := hs.declaration _ _ (Table.find?_eq_some_iff.2 h)
  rw [BvFunction.name_of_declaration? hf, hname]

theorem names_builtinDecls : s.builtinDecls.map Decl.name = s.builtins.names := by
  rw [builtinDecls, Table.values, Table.names, List.map_map, List.map_map]
  exact List.map_congr_left fun entry h => hs.name_eq_of_mem h

/-- No function has a reserved name. -/
theorem head?_of_mem_names {name : String} (h : name ∈ s.builtins.names) :
    name.toList.head? = some 'b' := by
  obtain ⟨entry, hentry, rfl⟩ := List.mem_map.1 h
  obtain ⟨f, -, hname⟩ := hs.declaration _ _ (Table.find?_eq_some_iff.2 hentry)
  rw [← hname, f.head?_name]

/-- There is one declaration of the name of a declared function. -/
theorem filter_values {f : BvFunction} (h : s.Declares f) :
    ∃ decl, f.declaration? = some decl ∧ s.builtins.values.filter (·.name = f.name) = [decl] := by
  obtain ⟨decl, hdecl, hfind⟩ := h
  refine ⟨decl, hdecl, ?_⟩
  have hentries : s.builtins.entries.filter (fun entry => entry.2.name = f.name) =
      s.builtins.entries.filter (fun entry => entry.1 = f.name) :=
    List.filter_congr fun entry h => by rw [hs.name_eq_of_mem h]
  rw [Table.values, List.filter_map]
  exact congrArg (List.map Prod.snd) (hentries.trans (Table.filter_entries_of_find? hfind))

/-- The first declarations, the functions of the session and procedures of the reserved names make
up a program, in this order. -/
theorem exists_program {procedures : List Procedure}
    (hnames : procedures.map Procedure.name =
      [Reserved.transfer, Reserved.send, Reserved.call]) :
    ∃ program, Program.empty.addAll (s.encoding.preludeDecls ++ s.builtinDecls ++
        procedures.map .procedure) = .ok program ∧
      program.decls.values =
        s.encoding.preludeDecls ++ s.builtinDecls ++ procedures.map .procedure := by
  apply Program.exists_addAll_empty
  have hprocedures : (procedures.map Decl.procedure).map Decl.name =
      [Reserved.transfer, Reserved.send, Reserved.call] := by
    rw [← hnames, List.map_map]
    rfl
  have hprelude : s.encoding.preludeDecls.map Decl.name = [Reserved.addressTy, Reserved.balance] :=
    rfl
  have hfunctions : s.builtins.names.Nodup := s.builtins.nodup
  have hreserved : ∀ name ∈ [Reserved.addressTy, Reserved.balance] ++
      [Reserved.transfer, Reserved.send, Reserved.call], name.toList.head? ≠ some 'b' := by decide
  have hapart : ∀ a ∈ [Reserved.addressTy, Reserved.balance],
      ∀ b ∈ [Reserved.transfer, Reserved.send, Reserved.call], a ≠ b := by decide
  rw [List.map_append, List.map_append, hs.names_builtinDecls, hprocedures, hprelude,
    List.nodup_append, List.nodup_append]
  refine ⟨⟨by decide, hfunctions, ?_⟩, by decide, ?_⟩
  · rintro a ha b hb rfl
    exact hreserved a (List.mem_append_left _ ha) (hs.head?_of_mem_names hb)
  · rintro a ha b hb rfl
    rcases List.mem_append.1 ha with ha | ha
    · exact hapart a ha a hb rfl
    · exact hreserved a (List.mem_append_right _ hb) (hs.head?_of_mem_names ha)

end Session.Registered

end SolidityEncoding
