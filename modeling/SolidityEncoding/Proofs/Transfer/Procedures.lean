import SolidityEncoding.Encoding.Prelude
import SolidityEncoding.Proofs.Simulation

/-!
# The transfer procedures of a program

What the generation of the transfer procedures yields, in every configuration, and that the program
holds these procedures under their names (`Transfer.procedure?_builtinProgram`).  An update of a
balance has the same form everywhere; encoding and configuration only decide which assumptions and
assertions stand before it.
-/

namespace SolidityEncoding

/-! ### Adding declarations -/

namespace Program

theorem find?_insert (program : Program) (decl : Decl) (name : String) :
    find? ⟨program.decls.insert decl.name decl⟩ name =
      if decl.name = name then some decl else program.find? name :=
  Table.find?_insert _ _ _ _

theorem addAll_cons_of_fresh {program : Program} {decl : Decl}
    (h : program.find? decl.name = none) (rest : List Decl) :
    program.addAll (decl :: rest) = addAll ⟨program.decls.insert decl.name decl⟩ rest := by
  have hadd : program.add decl = .ok ⟨program.decls.insert decl.name decl⟩ := by
    rw [find?] at h
    rw [add, Table.contains, h]
    rfl
  rw [addAll, List.foldlM_cons, hadd]
  rfl

theorem addAll_append (program : Program) (first second : List Decl) :
    program.addAll (first ++ second) = (do (← program.addAll first).addAll second) :=
  List.foldlM_append

/-- Declarations whose names are new and pairwise different are all added, and nothing else is. -/
theorem exists_addAll {program : Program} {decls : List Decl}
    (hnodup : (decls.map Decl.name).Nodup)
    (hfresh : ∀ decl ∈ decls, program.find? decl.name = none) :
    ∃ program', program.addAll decls = .ok program' ∧
      (∀ decl ∈ decls, program'.find? decl.name = some decl) ∧
      ∀ name ∉ decls.map Decl.name, program'.find? name = program.find? name := by
  -- The names that are left stay new, since the added one is not among them.
  induction decls generalizing program with
  | nil => exact ⟨program, rfl, nofun, fun _ _ => rfl⟩
  | cons decl rest ih =>
    rw [List.map_cons, List.nodup_cons] at hnodup
    have hfresh' : ∀ other ∈ rest,
        find? ⟨program.decls.insert decl.name decl⟩ other.name = none := by
      intro other hmem
      have hne : decl.name ≠ other.name := fun h => hnodup.1 (h ▸ List.mem_map_of_mem hmem)
      rw [find?_insert, if_neg hne]
      exact hfresh other (List.mem_cons_of_mem _ hmem)
    obtain ⟨program', hadd, hadded, hframe⟩ := ih hnodup.2 hfresh'
    refine ⟨program', ?_, ?_, ?_⟩
    · rw [addAll_cons_of_fresh (hfresh decl List.mem_cons_self), hadd]
    · intro other hmem
      rcases List.mem_cons.1 hmem with rfl | hmem
      · rw [hframe _ hnodup.1, find?_insert, if_pos rfl]
      · exact hadded other hmem
    · intro name hname
      rw [List.map_cons, List.mem_cons, not_or] at hname
      rw [hframe name hname.2, find?_insert, if_neg (Ne.symm hname.1)]

end Program

namespace Transfer

/-! ### Statements -/

/-- The statements by which an operation updates the balance of an account. -/
def updateStmts (config : EncodingConfig) (op : WrappedOp) (account amount : Expr) : List Stmt :=
  let updated := op.encoded config.encoding uint256 (balanceOf account) amount
  assumeRange config.encoding account amount ++
    assertExact config.checkOverflow op.source updated.condition ++
    [.assign (.ident Reserved.balance) (.update (.ident Reserved.balance) account updated.value)]

/-- The statements that move the amount from the sender to the account that runs. -/
def moveStmts (config : EncodingConfig) : List Stmt :=
  updateStmts config .add (.ident Reserved.this) (.ident Reserved.amount) ++
    updateStmts config .sub (.ident Reserved.msgSender) (.ident Reserved.amount)

/-- The condition that one word is at least another. -/
def atLeast (encoding : Encoding) (lhs rhs : Expr) : Expr :=
  match encoding with
  | .bitvector => .bvBinary .uge 256 lhs rhs
  | .mathematical | .modular => .binary .gte lhs rhs

/-- The assumption that the sender has the amount. -/
def fundsStmt (encoding : Encoding) : Stmt :=
  .assume (atLeast encoding (balanceOf (.ident Reserved.msgSender)) (.ident Reserved.amount))

/-! ### Procedures -/

/-- The three ways to move Ether. -/
inductive Primitive where
  | transfer
  | send
  | call
  deriving DecidableEq

namespace Primitive

/-- The name of the procedure. -/
def name : Primitive → String
  | .transfer => Reserved.transfer
  | .send => Reserved.send
  | .call => Reserved.call

/-- The procedure in a configuration. -/
def procedure (config : EncodingConfig) : Primitive → Procedure
  | .transfer =>
    Transfer.procedure Reserved.transfer "transfer" (amountParams config.encoding) []
      (fundsStmt config.encoding :: moveStmts config ++ [receiverComment])
  | .send =>
    Transfer.procedure Reserved.send "send" (amountParams config.encoding)
      [⟨Reserved.result, .bool⟩]
      [fundsStmt config.encoding, receiverComment,
        .choice (moveStmts config ++ [setResult true]) [setResult false]]
  | .call =>
    Transfer.procedure Reserved.call "call" (callerParams config.encoding)
      [⟨Reserved.result, .bool⟩, ⟨Reserved.calldata, config.encoding.wordTy 256⟩]
      [.comment "Code of the callee is not modelled",
        .choice
          (updateStmts config .add (.ident Reserved.this) (.ident Reserved.msgValue) ++
            [setResult true])
          [setResult false]]

end Primitive

/-- The bitvector functions that the procedures use, in order of first use. -/
def functions : Encoding → List FuncDecl
  | .bitvector =>
    [BvBinaryOp.uge.declaration 256, BvBinaryOp.add.declaration 256,
      BvBinaryOp.sub.declaration 256]
  | .mathematical | .modular => []

theorem run_all (config : EncodingConfig) :
    ∃ s, all.run (Session.start config) =
        ([Primitive.transfer.procedure config, Primitive.send.procedure config,
          Primitive.call.procedure config], s) ∧
      s.encoding = config.encoding ∧
      s.builtinDecls = (functions config.encoding).map .func := by
  obtain ⟨encoding, checkOverflow⟩ := config
  refine ⟨(all.run (Session.start ⟨encoding, checkOverflow⟩)).2, Prod.ext ?_ rfl, ?_, ?_⟩ <;>
    cases encoding <;> rfl

/-! ### The program -/

/-- The declarations of the program, in order. -/
def decls (config : EncodingConfig) : List Decl :=
  config.encoding.preludeDecls ++ (functions config.encoding).map .func ++
    [.procedure (Primitive.transfer.procedure config),
      .procedure (Primitive.send.procedure config),
      .procedure (Primitive.call.procedure config)]

theorem nodup_names_decls (config : EncodingConfig) : ((decls config).map Decl.name).Nodup := by
  have hnames : (decls config).map Decl.name =
      [Reserved.addressTy, Reserved.balance] ++ (functions config.encoding).map FuncDecl.name ++
        [Reserved.transfer, Reserved.send, Reserved.call] := by
    obtain ⟨encoding, checkOverflow⟩ := config
    cases encoding <;> rfl
  rw [hnames]
  cases config.encoding <;> decide

theorem procedure_mem_decls (config : EncodingConfig) (p : Primitive) :
    .procedure (p.procedure config) ∈ decls config := by
  cases p <;> simp [decls]

theorem name_procedure (config : EncodingConfig) (p : Primitive) :
    (p.procedure config).name = p.name := by
  cases p <;> rfl

/-- The program exists and holds the procedures under their names. -/
theorem procedure?_builtinProgram (config : EncodingConfig) :
    ∃ d, builtinProgram config = .ok d ∧
      ∀ p : Primitive, d.program.procedure? p.name = some (p.procedure config) := by
  have hfresh : ∀ decl ∈ decls config, Program.empty.find? decl.name = none := fun _ _ => rfl
  obtain ⟨program, hadd, hadded, -⟩ := Program.exists_addAll (nodup_names_decls config) hfresh
  obtain ⟨s, hrun, hencoding, hfunctions⟩ := run_all config
  refine ⟨⟨program, s.diagnostics⟩, ?_, fun p => ?_⟩
  · rw [decls, Program.addAll_append, bind_eq_ok_iff] at hadd
    obtain ⟨declared, hdeclared, hadd⟩ := hadd
    rw [builtinProgram, hrun]
    show (do
      let program ← s.declaredProgram
      return (⟨← program.addAll _, s.diagnostics⟩ : DiagnosedProgram)) = _
    rw [Session.declaredProgram, hencoding, hfunctions, hdeclared, ok_bind, List.map_cons,
      List.map_cons, List.map_cons, List.map_nil, hadd]
    rfl
  · rw [Program.procedure?, ← name_procedure config p]
    exact congrArg (·.bind Decl.procedure?) (hadded _ (procedure_mem_decls config p))

end Transfer

end SolidityEncoding
